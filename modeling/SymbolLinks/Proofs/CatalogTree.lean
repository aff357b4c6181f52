import SymbolLinks.Proofs.CanonicalSegments
import SymbolLinks.Proofs.GraphSymbols
import SymbolLinks.Proofs.TreeBuild

/-! The tree of a catalog, seen from the graphs it was built from: its names and
languages are those of the graphs, its labels can be read back if those of the graphs
can, and in documentation of one language every symbol has one node. The paths of the
pages are written along the ways to the primary nodes. -/
namespace SymbolLinks

/-- All names that a graph gives: that of its module and the parts of its paths. -/
def SymbolGraph.names (g : SymbolGraph) : List String :=
  g.moduleName :: g.symbols.flatMap (·.path)

namespace Catalog

open PathTree

variable {graphs : List SymbolGraph} {o : CatalogOptions}

theorem growth_tree (graphs : List SymbolGraph) (o : CatalogOptions) :
    Growth (build graphs o).1.model.store (additions (build graphs o).1.model.store)
      (build graphs o).1.tree :=
  growth_build _ (members (ordered graphs))

/-- The names in the tree are those of the graphs, and the modules stand below the root. -/
theorem name_of_group? {p : Nat} {name : String} {es : List Entry}
    (h : (build graphs o).1.tree.group? p name = some es) :
    ∃ g ∈ graphs, name ∈ g.names ∧ (p = root → name = g.moduleName) := by
  obtain ⟨s, hs, l, hasks⟩ := (growth_tree graphs o).asksFor_of_group? h
  have hfrom := fromGraphs graphs o hs
  cases hasks with
  | ofModule hl =>
    obtain ⟨g, hg, hname⟩ := hfrom.moduleName
    exact ⟨g, hg, by simp [SymbolGraph.names, hname], fun _ => hname⟩
  | ofPath hpath hname hparent =>
    obtain ⟨g, hg, -, rfl⟩ | ⟨g, hg, x, hx, -, rfl⟩ := hfrom.names hpath
    · cases hname
    · refine ⟨g, hg, List.mem_cons_of_mem _ (List.mem_flatMap.mpr ⟨x, hx, hname⟩), ?_⟩
      exact fun hroot => absurd hroot hparent

theorem namesLack {c : Char} (h : ∀ g ∈ graphs, ∀ name ∈ g.names, c ∉ name.toList) :
    (build graphs o).1.tree.NamesLack c := by
  intro p name es hg
  obtain ⟨g, hmem, hname, -⟩ := name_of_group? hg
  exact h g hmem name hname

/-! ## Pages -/

theorem get?_pagesOf (bundle : String) (st : SymbolStore) (paths : KeyMap String String)
    (id : String) : (pagesOf bundle st paths).get? id = (paths.get? id).map fun path =>
      ⟨bundle, ((st.get? id).map (·.language)).getD .swift, "/documentation" ++ path⟩ :=
  KeyMap.get?_map _ paths id

theorem pages_build (graphs : List SymbolGraph) (o : CatalogOptions) :
    (build graphs o).1.pages = pagesOf o.bundle (build graphs o).1.model.store
      (build graphs o).1.tree.canonicalPaths := rfl

/-- The path of a page is written along the way to the primary node of its symbol. -/
theorem at_of_page {id : String} {r : PageReference}
    (h : (build graphs o).1.pages.get? id = some r) : ∃ i segs,
      (build graphs o).1.tree.primary.get? id = some i ∧
      At (build graphs o).1.tree i segs ∧ r.path = "/documentation" ++ urlPath segs ∧
      r.bundle = o.bundle := by
  rw [pages_build, get?_pagesOf] at h
  obtain ⟨path, hpath, hr⟩ := Option.map_eq_some_iff.mp h
  obtain ⟨i, segs, hsym, hprimary, hat, hurl⟩ :=
    at_of_canonicalPath (growth_tree graphs o).inv.rooted hpath
  rw [← hr, hurl]
  refine ⟨i, segs, ?_, hat, rfl, rfl⟩
  obtain ⟨n, hn, hs⟩ := Option.bind_eq_some_iff.mp hsym
  simpa [isPrimary, hn, hs] using hprimary

/-! ## Languages -/

/-- The languages in the tree are those of the graphs' symbols, and Swift for graphs
without symbols. -/
theorem language_of_hasLanguage {i : Nat} {l : Language}
    (h : (build graphs o).1.tree.hasLanguage i l = true) :
    l = .swift ∨ ∃ g ∈ graphs, ∃ x ∈ g.symbols, l = x.language := by
  obtain ⟨s, hs, hl⟩ := (growth_tree graphs o).exists_language h
  obtain ⟨path, hpath⟩ := KeyMap.mem_keys_iff.mp hl
  obtain ⟨g, hg, rfl, -⟩ | ⟨g, hg, x, hx, hl, -⟩ := (fromGraphs graphs o hs).names hpath
  · unfold SymbolGraph.language
    split
    · exact .inl rfl
    · rename_i x rest hsymbols
      exact .inr ⟨g, hg, x, by simp [hsymbols], rfl⟩
  · exact .inr ⟨g, hg, x, hx, hl⟩

section Tags

variable (h : ∀ g ∈ graphs, ∀ x ∈ g.symbols, x.language = .swift ∨ x.language = .objectiveC)

include h

/-- Links know the tags of Swift and Objective-C. -/
theorem ofLinkTag?_of_hasLanguage {i : Nat} {l : Language}
    (hl : (build graphs o).1.tree.hasLanguage i l = true) :
    Language.ofLinkTag? l.linkTag.toList = some l := by
  have htwo : l = .swift ∨ l = .objectiveC := by
    obtain hswift | ⟨g, hg, x, hx, rfl⟩ := language_of_hasLanguage hl
    · exact .inl hswift
    · exact h g hg x hx
  rcases htwo with rfl | rfl
  · decide
  · decide

theorem tagsKnown : (build graphs o).1.tree.TagsKnown := by
  intro i
  obtain ⟨l, hl, htag⟩ | ⟨-, htag⟩ := (build graphs o).1.tree.tagAt_eq i
  · rw [htag]
    exact ⟨l, ofLinkTag?_of_hasLanguage h hl⟩
  · rw [htag]
    exact ⟨.swift, by decide⟩

/-- The tag of a node with a symbol is that of one of its languages. -/
theorem tagsFit : (build graphs o).1.tree.TagsFit := by
  intro i id hi
  obtain ⟨-, -, -, l, -, -, -, -, -, hl⟩ := (growth_tree graphs o).goesTo hi
  obtain ⟨l', hl', htag⟩ | ⟨hnone, -⟩ := (build graphs o).1.tree.tagAt_eq i
  · rw [htag]
    exact ⟨l', ofLinkTag?_of_hasLanguage h hl', hl'⟩
  · rw [hnone l] at hl
    cases hl

end Tags

/-- If all symbols have one language, each has one node. -/
theorem nodesUnique {l : Language} (h : ∀ g ∈ graphs, ∀ x ∈ g.symbols, x.language = l) :
    (build graphs o).1.tree.NodesUnique := by
  intro i j id hi hj
  refine (growth_tree graphs o).node_unique (fun s hs hkind => ?_) hi hj
  refine count_additions_le (l := l) (fun x hx => ?_) hs hkind
  obtain ⟨hs', -, hpath, hne⟩ := mem_spelledIn hx
  obtain ⟨g, hg, -, hnil⟩ | ⟨g, hg, y, hy, rfl, -⟩ := (fromGraphs graphs o hs').names hpath
  · exact absurd hnil hne
  · exact h g hg y hy

/-! ## Labels -/

/-- Different identifiers of the store have different hashes. -/
def HashesDiffer (c : Catalog) : Prop := (c.model.store.ids.map ShortHash.ofIdentifier).Nodup

instance (c : Catalog) : Decidable c.HashesDiffer :=
  inferInstanceAs (Decidable (c.model.store.ids.map ShortHash.ofIdentifier).Nodup)

/-- No hash of an identifier of the store is the name of a kind. -/
def HashesNoKinds (c : Catalog) : Prop :=
  ∀ id ∈ c.model.store.ids, Kind.known? (ShortHash.ofIdentifier id).toList = none

instance (c : Catalog) : Decidable c.HashesNoKinds :=
  inferInstanceAs (Decidable (∀ id ∈ c.model.store.ids, _))

theorem telling {c : Catalog} (h : c.HashesDiffer) : Telling (LabelOf c.model.store) := by
  rintro id id' hash kind kind' ⟨s, hs, rfl, rfl, -⟩ ⟨s', hs', rfl, hhash, -⟩
  exact List.inj_on_of_nodup_map h (List.mem_map.mpr ⟨s, hs, rfl⟩) (List.mem_map.mpr ⟨s', hs', rfl⟩)
    hhash

/-- Where links know all kinds of the graphs, they know those of all symbols. -/
theorem known_kind (hkinds : ∀ g ∈ graphs, ∀ x ∈ g.symbols,
      (Kind.known? x.kind.identifier.toList).isSome = true)
    {s : Symbol} (hs : s ∈ (build graphs o).1.model.store.symbols) :
    (Kind.known? s.kind.identifier.toList).isSome = true := by
  obtain hkind | ⟨g, hg, x, hx, hkind⟩ := (fromGraphs graphs o hs).kind
  · rw [hkind]
    decide
  · rw [hkind]
    exact hkinds g hg x hx

/-- Where links know all kinds of the graphs, they can write the labels of the tree. -/
theorem writable (hkinds : ∀ g ∈ graphs, ∀ x ∈ g.symbols,
      (Kind.known? x.kind.identifier.toList).isSome = true)
    (hdiffer : (build graphs o).1.HashesDiffer) :
    Writable (LabelOf (build graphs o).1.model.store) where
  telling := telling hdiffer
  isHash := by
    rintro id hash kind ⟨s, hs, rfl, rfl, -⟩
    exact ShortHash.isHash_ofIdentifier s.id
  known := by
    rintro id hash kind ⟨s, hs, -, -, rfl⟩
    exact known_kind hkinds hs

theorem legible (hkinds : ∀ g ∈ graphs, ∀ x ∈ g.symbols,
      (Kind.known? x.kind.identifier.toList).isSome = true)
    (hdiffer : (build graphs o).1.HashesDiffer) (hhashes : (build graphs o).1.HashesNoKinds) :
    Legible (LabelOf (build graphs o).1.model.store) where
  toWritable := writable hkinds hdiffer
  noKind := by
    rintro id hash kind ⟨s, hs, rfl, rfl, -⟩
    exact hhashes s.id (List.mem_map.mpr ⟨s, hs, rfl⟩)

/-! ## An example -/

/-- Two types whose names differ in case, one of them with two methods of one name. -/
def widgetGraph : SymbolGraph :=
  let symbol := fun (kind : Kind) (id : String) (path : List String) =>
    ({ language := .swift, id, kind, title := id, path } : GraphSymbol)
  { moduleName := "Kit", symbols := [
      symbol .class_ "c:W" ["Widget"], symbol .struct "s:V" ["widget"],
      symbol .method "c:W.spin" ["Widget", "spin"], symbol .method "s:V.spin" ["Widget", "spin"]] }

def widgets : Catalog := (build [widgetGraph] ⟨"org.example.kit", false⟩).1

def widgetIds : List String := ["Kit", "c:W", "s:V", "c:W.spin", "s:V.spin"]

theorem hashes_widgetIds : widgetIds.map ShortHash.ofIdentifier =
    ["k4cml", "2z04c", "6ryk5", "cxm76", "4hzfv"] := by
  decide +kernel

/-- The hashes of the example can be read back. -/
theorem hashes_of_perm {c : Catalog} (h : c.model.store.ids.Perm widgetIds) :
    c.HashesDiffer ∧ c.HashesNoKinds := by
  refine ⟨?_, fun id hid => ?_⟩
  · rw [HashesDiffer, (h.map _).nodup_iff, hashes_widgetIds]
    decide
  · have hmem := List.mem_map_of_mem (f := ShortHash.ofIdentifier) (h.subset hid)
    rw [hashes_widgetIds] at hmem
    have hnone : ∀ hash ∈ ["k4cml", "2z04c", "6ryk5", "cxm76", "4hzfv"],
        Kind.known? hash.toList = none := by
      decide
    exact hnone _ hmem

end Catalog

end SymbolLinks
