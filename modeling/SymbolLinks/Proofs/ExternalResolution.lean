import Mathlib.Data.List.Perm.Subperm
import SymbolLinks.Proofs.CanonicalPaths
import SymbolLinks.Proofs.ListLaws
import SymbolLinks.Proofs.SnapshotText
import SymbolLinks.Resolve

/-! Links resolve alike against a documentation set and against its snapshot.
Resolving looks at the tree and, for symbols with a node, at their hints and
pages. The tree comes back from the snapshot, and the summaries tell the same
hints and pages, for every symbol with a node has a page. -/
namespace SymbolLinks

/-! ## Built catalogs -/

/-- Every symbol with a node is in the store and has a page. -/
structure Catalog.Complete (c : Catalog) : Prop where
  symbol : ∀ {i : Nat} {id : String}, c.tree.symbolAt? i = some id →
    ∃ s, c.model.store.get? id = some s
  page : ∀ {i : Nat} {id : String}, c.tree.symbolAt? i = some id →
    ∃ page, c.pages.get? id = some page

namespace Catalog

variable (graphs : List SymbolGraph) (o : CatalogOptions)

theorem inv_tree : PathTree.Inv (PathTree.LabelOf (build graphs o).1.model.store)
    (build graphs o).1.tree :=
  PathTree.inv_build _ (members (ordered graphs))

theorem complete_build : Complete (build graphs o).1 where
  symbol := (inv_tree graphs o).exists_symbol
  page := by
    intro i id hi
    obtain ⟨path, hpath⟩ := (inv_tree graphs o).hasPath_canonicalPaths hi
    have hpages : (build graphs o).1.pages = pagesOf o.bundle (build graphs o).1.model.store
        (build graphs o).1.tree.canonicalPaths := rfl
    rw [hpages, pagesOf, KeyMap.get?_map, hpath]
    exact ⟨_, rfl⟩

end Catalog

/-- No two symbols share a primary node, so there are no more symbols than nodes. -/
theorem PathTree.Indexed.length_primary_le {t : PathTree} (h : t.Indexed) :
    t.primary.keys.length ≤ t.size := by
  have hnodup : (t.primary.entries.map (·.2)).Nodup := by
    refine t.primary.nodup_entries.map_on ?_
    rintro ⟨id, i⟩ hi ⟨id', _⟩ hi' rfl
    have hid := h.primary_mem (KeyMap.mem_entries_iff.mp hi)
    cases hid.symm.trans (h.primary_mem (KeyMap.mem_entries_iff.mp hi'))
    rfl
  have hrange : t.primary.entries.map (·.2) ⊆ List.range t.size := by
    intro i hi
    obtain ⟨⟨id, _⟩, hmem, rfl⟩ := List.mem_map.mp hi
    have hid := h.primary_mem (KeyMap.mem_entries_iff.mp hmem)
    exact List.mem_range.mpr (lt_size_of_symbolAt? hid)
  have hle := (hnodup.subperm hrange).length_le
  rw [List.length_map, List.length_range] at hle
  rwa [KeyMap.keys, List.length_map]

namespace Destinations

/-- Two sets with the same tree that know the same of its symbols. -/
structure Agree (d d' : Destinations) : Prop where
  tree : d.tree = d'.tree
  hint : ∀ i, (d.tree.symbolAt? i).bind d.hintOf = (d'.tree.symbolAt? i).bind d'.hintOf
  page : ∀ i, (d.tree.symbolAt? i).bind d.pageOf = (d'.tree.symbolAt? i).bind d'.pageOf

variable {d d' : Destinations}

theorem Agree.hint_eq (h : Agree d d') (c : Link.Component) (node : NodeId) :
    d.hint c node = d'.hint c node := by
  rw [Destinations.hint, Destinations.hint, h.hint]

theorem Agree.choices_eq (h : Agree d d') (c : Link.Component) (candidates : List Candidate) :
    d.choices c candidates = d'.choices c candidates := by
  simp only [choices, h.hint_eq]

theorem Agree.describe_eq (h : Agree d d') (e : WalkError) : d.describe e = d'.describe e := by
  cases e <;> simp only [describe, h.choices_eq, h.hint_eq, h.tree]

/-- What links resolve to depends on nothing else. -/
theorem Agree.resolve_eq (h : Agree d d') (authored : String) (origin : Option String) :
    d.resolve authored origin = d'.resolve authored origin := by
  have hdescribe : d.describe = d'.describe := funext h.describe_eq
  simp only [resolve, h.page]
  simp only [hdescribe, h.tree]

/-! ## Summaries -/

theorem summaryOf?_map_reread (ss : List Summary) (id : String) :
    summaryOf? (ss.map Summary.reread) id = (summaryOf? ss id).map Summary.reread := by
  rw [summaryOf?, summaryOf?, ← List.map_reverse, List.find?_map]
  rfl

theorem summaryOf?_summaries {c : Catalog} {id : String} {page : PageReference} {s : Symbol}
    (hpage : c.pages.get? id = some page) (hs : c.model.store.get? id = some s) :
    summaryOf? c.summaries id = some (Catalog.summarize id page s) := by
  refine find?_eq_some_of_unique (List.mem_reverse.mpr ?_) (beq_self_eq_true id) ?_
  · exact List.mem_filterMap.mpr ⟨(id, page), KeyMap.mem_entries_iff.mpr hpage, by simp [hs]⟩
  · intro x hx hid
    obtain ⟨⟨id', page'⟩, hentry, hsome⟩ := List.mem_filterMap.mp (List.mem_reverse.mp hx)
    obtain ⟨s', hs', rfl⟩ := Option.map_eq_some_iff.mp hsome
    cases eq_of_beq hid
    cases hpage.symm.trans (KeyMap.mem_entries_iff.mp hentry)
    cases hs.symm.trans hs'
    rfl

/-- Summaries of the same symbols in the same order, each with its hint and page. -/
theorem agree_of_complete {c : Catalog} (h : c.Complete) {ss : List Summary} {f : Summary → Summary}
    (hss : ∀ id, summaryOf? ss id = (summaryOf? c.summaries id).map f)
    (hhint : ∀ s, (f s).hint = s.hint) (hpage : ∀ s, (f s).page = s.page) :
    Agree (ofSummaries c.tree ss) (ofCatalog c) := by
  have hknown : ∀ {i : Nat} {id : String}, c.tree.symbolAt? i = some id →
      (ofSummaries c.tree ss).hintOf id = (ofCatalog c).hintOf id ∧
        (ofSummaries c.tree ss).pageOf id = (ofCatalog c).pageOf id := by
    intro i id hi
    -- without a page there would be no summary, and the hints would differ
    obtain ⟨s, hs⟩ := h.symbol hi
    obtain ⟨page, hp⟩ := h.page hi
    simp only [ofSummaries, ofCatalog, hss, summaryOf?_summaries hp hs, hs, hp, Option.map_some,
      hhint, hpage]
    exact ⟨rfl, rfl⟩
  refine ⟨rfl, fun i => ?_, fun i => ?_⟩
  · cases hi : c.tree.symbolAt? i with
    | none => simp [ofSummaries, ofCatalog, hi]
    | some id => simpa [ofSummaries, ofCatalog, hi] using (hknown hi).1
  · cases hi : c.tree.symbolAt? i with
    | none => simp [ofSummaries, ofCatalog, hi]
    | some id => simpa [ofSummaries, ofCatalog, hi] using (hknown hi).2

/-- Links resolve alike against the documentation of a set of graphs and against
what other documentation sets get of it: its snapshot, also written as text and
decoded, and its summaries, also written as text and read back. Only the text of a
snapshot needs the positions of nodes to fit in 64 bits. -/
theorem resolve_ofSnapshot_eq_resolve_ofCatalog (graphs : List SymbolGraph) (o : CatalogOptions) :
    let c := (Catalog.build graphs o).1
    (c.tree.size ≤ maxIndex + 1 → Snapshot.decode c.snapshot.encode = .ok c.snapshot) ∧
    ∃ reread, Summary.decodeList? (Summary.encodeList c.summaries) = some reread ∧
    ∃ d d', ofSnapshot c.snapshot c.summaries = .ok d ∧ ofSnapshot c.snapshot reread = .ok d' ∧
      ∀ authored origin,
        d.resolve authored origin = (ofCatalog c).resolve authored origin ∧
        d'.resolve authored origin = (ofCatalog c).resolve authored origin := by
  intro c
  have hinv := Catalog.inv_tree graphs o
  have hcomplete := Catalog.complete_build graphs o
  have hrestorable := Snapshot.restorable_of_inv hinv
  have htree : c.snapshot.toTree = .ok c.tree := hrestorable.toTree_ofTree c.bundle
  have horiginal : Agree (ofSummaries c.tree c.summaries) (ofCatalog c) :=
    agree_of_complete hcomplete (f := fun s => s) (fun _ => by rw [Option.map_id']) (fun _ => rfl)
      fun _ => rfl
  have hreread : Agree (ofSummaries c.tree (c.summaries.map Summary.reread)) (ofCatalog c) :=
    agree_of_complete hcomplete (summaryOf?_map_reread c.summaries) (fun _ => rfl) fun _ => rfl
  refine ⟨fun hsize => ?_, _, Summary.decodeList?_encodeList c.summaries, _, _,
    by rw [ofSnapshot, htree]; rfl, by rw [ofSnapshot, htree]; rfl, fun authored origin =>
      ⟨horiginal.resolve_eq authored origin, hreread.resolve_eq authored origin⟩⟩
  exact hrestorable.decode_encode_ofTree _ hsize
    (Nat.le_trans hinv.indexed.length_primary_le hsize)

end Destinations

end SymbolLinks
