import SymbolLinks.Proofs.CanonicalLinks
import SymbolLinks.Proofs.ExternalResolution
import SymbolLinks.Proofs.GraphOrder
import SymbolLinks.Proofs.OtherLanguages
import SymbolLinks.Proofs.SuffixFixes

/-! Which symbols have a page. The modules have one, and the symbols with a path in some
language: they are what a tree is built from, each of them has a primary node, and a page
is written for every primary node (`Catalog.mem_pages_iff_documentable`). The summaries
list the pages in the order of the identifiers, and a link that comes to a node of a symbol
resolves. -/
namespace SymbolLinks

/-- A symbol that has a place in the tree: a module, or a symbol with a path in some language. -/
def Symbol.Documentable (s : Symbol) : Prop :=
  s.kind = .module_ ∨ ∃ path ∈ s.names.values, path ≠ []

instance (s : Symbol) : Decidable s.Documentable :=
  inferInstanceAs (Decidable (_ ∨ ∃ path ∈ s.names.values, path ≠ []))

/-! ## Symbols in trees -/

namespace PathTree

theorem GoesTo.documentable {s : Symbol} {l : Language} {parent : NodeId} {name : String}
    (h : GoesTo s l parent name) : s.Documentable := by
  cases h with
  | ofModule hkind _ => exact .inl hkind
  | ofPath _ hpath hname _ =>
    refine .inr ⟨_, KeyMap.mem_values_iff.mpr ⟨l, hpath⟩, ?_⟩
    rintro rfl
    cases hname

theorem Growth.documentable {st : SymbolStore} {added : List (String × Language)} {t : PathTree}
    (h : Growth st added t) {i : NodeId} {id : String} (hi : t.symbolAt? i = some id) :
    ∃ s ∈ st.symbols, s.id = id ∧ s.Documentable := by
  obtain ⟨s, hs, hid, l, p, name, hgoes, -⟩ := h.goesTo hi
  exact ⟨s, hs, hid, hgoes.documentable⟩

/-- A symbol is added if it can be, as long as every module has a name in some language. -/
theorem exists_addition {st : SymbolStore}
    (hnamed : ∀ s ∈ st.symbols, ∃ l path, s.names.get? l = some path) {s : Symbol}
    (hs : s ∈ st.symbols) (hdoc : s.Documentable) : s.id ∈ (additions st).map (·.1) := by
  obtain ⟨l, path, hpath, hne⟩ : ∃ l path, s.names.get? l = some path ∧
      (s.kind ≠ .module_ → path ≠ []) := by
    rcases hdoc with hkind | ⟨path, hpath, hne⟩
    · obtain ⟨l, path, hpath⟩ := hnamed s hs
      exact ⟨l, path, hpath, fun hother => absurd hkind hother⟩
    · obtain ⟨l, hl⟩ := KeyMap.mem_values_iff.mp hpath
      exact ⟨l, path, hl, fun _ => hne⟩
  exact List.mem_map.mpr ⟨(s.id, l), mem_additions.mpr ⟨s, hs, rfl, path, hpath, hne⟩, rfl⟩

/-- The symbols with a canonical path are those that can have a place. -/
theorem hasPath_iff_documentable {st : SymbolStore}
    (hnamed : ∀ s ∈ st.symbols, ∃ l path, s.names.get? l = some path) (members : MemberTable)
    {id : String} : (∃ path, (build st members).canonicalPaths.get? id = some path) ↔
      ∃ s ∈ st.symbols, s.id = id ∧ s.Documentable := by
  have hgrowth := growth_build st members
  rw [hgrowth.inv.exists_path_iff]
  constructor
  · rintro ⟨i, hi⟩
    exact hgrowth.documentable (hgrowth.inv.indexed.primary_mem hi)
  · rintro ⟨s, hs, rfl, hdoc⟩
    exact hgrowth.exists_primary (exists_addition hnamed hs hdoc)

end PathTree

/-! ## Pages and summaries -/

namespace Catalog

variable (graphs : List SymbolGraph) (o : CatalogOptions)

/-- Every symbol of a graph comes with a name, which merging keeps. -/
theorem exists_name : ∀ s ∈ (build graphs o).1.model.store.symbols,
    ∃ l path, s.names.get? l = some path := by
  refine forall_symbols graphs o (fun g _ s hs => ?_) (fun {old new} hold _ => ?_)
    fun {s s'} hs heq => ?_
  · rcases List.mem_cons.mp hs with rfl | hs
    · exact ⟨g.language, [], KeyMap.get?_insert_self ..⟩
    · obtain ⟨x, -, rfl⟩ := List.mem_map.mp hs
      exact ⟨x.language, x.path, KeyMap.get?_insert_self ..⟩
  · obtain ⟨l, path, hpath⟩ := hold
    exact ⟨l, path, by rw [SymbolStore.names_mergeNames, hpath, Option.some_or]⟩
  · have hnames : s'.names = s.names := (congrArg Symbol.names heq :)
    rwa [hnames]

theorem mem_pages_iff_documentable {id : String} : id ∈ (build graphs o).1.pages.keys ↔
    ∃ s ∈ (build graphs o).1.model.store.symbols, s.id = id ∧ s.Documentable := by
  rw [← PathTree.hasPath_iff_documentable (exists_name graphs o) (members (ordered graphs)),
    KeyMap.mem_keys_iff, pages_build]
  simp only [get?_pagesOf, Option.map_eq_some_iff, exists_comm (α := PageReference),
    exists_eq_right']
  rfl

/-- The summaries list the pages, if every page is that of a symbol in the store. -/
theorem summaries_eq_entries {c : Catalog}
    (h : ∀ id ∈ c.pages.keys, ∃ s, c.model.store.get? id = some s) :
    c.summaries.map (fun s => (s.id, s.page)) = c.pages.entries := by
  rw [summaries, List.map_filterMap]
  refine Eq.trans (List.filterMap_congr fun x hx => ?_) List.filterMap_some
  obtain ⟨s, hs⟩ := h x.1 (List.mem_map_of_mem hx)
  simp only [hs, Option.map_some]
  rfl

end Catalog

/-! ## Links without a page -/

namespace Destinations

theorem kind_describe_ne (d : Destinations) (e : WalkError) :
    (d.describe e).kind ≠ .invalidReference := by
  cases e with
  | ambiguous => simp [describe]
  | doesNotExist => simp [describe]
  | invalidSuffix candidates c parent =>
    simp only [describe]
    split <;> simp
  | notFound => simp [describe]

/-- In a complete catalog, a link that fails as an invalid reference cannot be read, or it
comes to a node without a symbol. -/
theorem resolve_invalidReference_iff {c : Catalog} (hcomplete : c.Complete) (authored : String)
    (origin : Option String) :
    (∃ f, (ofCatalog c).resolve authored origin = .error f ∧ f.kind = .invalidReference) ↔
      (∃ e, Link.parse authored = .error e) ∨ ∃ link i, Link.parse authored = .ok link ∧
        c.tree.find link (origin.bind c.tree.primary.get?) = .ok i ∧ c.tree.symbolAt? i = none := by
  cases hparse : Link.parse authored with
  | error e =>
    simp only [resolve, hparse, Except.mapError, bind, Except.bind]
    simp
  | ok link =>
    cases hfind : c.tree.find link (origin.bind c.tree.primary.get?) with
    | error e =>
      rw [resolve_of_find_error hparse hfind]
      simp [kind_describe_ne, hfind]
    | ok i =>
      cases hi : c.tree.symbolAt? i with
      | none =>
        have hnone : ((ofCatalog c).tree.symbolAt? i).bind (ofCatalog c).pageOf = none := by
          rw [show (ofCatalog c).tree.symbolAt? i = none from hi]
          rfl
        have hfind' : (ofCatalog c).tree.find link
            (origin.bind (ofCatalog c).tree.primary.get?) = .ok i := hfind
        simp only [resolve, hparse, hfind', hnone, Except.mapError, bind, Except.bind]
        simp [hfind, hi, throw, throwThe, MonadExceptOf.throw]
      | some id =>
        obtain ⟨page, hpage⟩ := hcomplete.page hi
        have hbind : ((ofCatalog c).tree.symbolAt? i).bind (ofCatalog c).pageOf = some page := by
          rw [show (ofCatalog c).tree.symbolAt? i = some id from hi]
          exact hpage
        rw [resolve_of_find hparse hfind hbind]
        simp [hfind, hi]

end Destinations

namespace Catalog

/-- In the documentation of any graphs, the symbols with a page are the modules and the
symbols with a path in some language, and a node stands for no other symbol. The summaries
give every page once, by ascending identifiers. So a link fails as an invalid reference
only if it cannot be read or if it comes to a node without a symbol. -/
theorem documentable_symbols_have_pages (graphs : List SymbolGraph) (o : CatalogOptions) :
    let c := (build graphs o).1
    (∀ id, id ∈ c.pages.keys ↔ ∃ s ∈ c.model.store.symbols, s.id = id ∧ s.Documentable) ∧
    (∀ i id, c.tree.symbolAt? i = some id → id ∈ c.pages.keys) ∧
    c.summaries.map (fun s => (s.id, s.page)) = c.pages.entries ∧
    (c.summaries.map (·.id)).Pairwise (fun id id' => compare id id' = .lt) ∧
    ∀ authored origin,
      (∃ f, (Destinations.ofCatalog c).resolve authored origin = .error f ∧
        f.kind = .invalidReference) ↔
      (∃ e, Link.parse authored = .error e) ∨ ∃ link i, Link.parse authored = .ok link ∧
        c.tree.find link (origin.bind c.tree.primary.get?) = .ok i ∧ c.tree.symbolAt? i = none := by
  intro c
  have hcomplete : c.Complete := complete_build graphs o
  have hpages : ∀ id, id ∈ c.pages.keys ↔
      ∃ s ∈ c.model.store.symbols, s.id = id ∧ s.Documentable :=
    fun id => mem_pages_iff_documentable graphs o
  have hstored : ∀ id ∈ c.pages.keys, ∃ s, c.model.store.get? id = some s := by
    intro id hid
    obtain ⟨s, hs, rfl, -⟩ := (hpages id).mp hid
    exact ⟨s, SymbolStore.get?_of_mem hs⟩
  have hsummaries := summaries_eq_entries hstored
  have hids : c.summaries.map (·.id) = c.pages.entries.map (·.1) := by
    rw [← hsummaries, List.map_map]
    rfl
  refine ⟨hpages, fun i id hi => KeyMap.mem_keys_iff.mpr (hcomplete.page hi), hsummaries, ?_, ?_⟩
  · rw [hids]
    exact List.pairwise_map.mpr c.pages.ordered
  · exact Destinations.resolve_invalidReference_iff hcomplete

/-- A method of a class that is missing, and a structure without a path. -/
def strayGraph : SymbolGraph where
  moduleName := "Kit"
  symbols := [
    { language := .swift, id := "s:V", kind := .struct, title := "Lost", path := [] },
    { language := .swift, id := "c:W.spin", kind := .method, title := "spin",
      path := ["Widget", "spin"] }]

def strays : Catalog := (build [strayGraph] ⟨"org.example.kit", false⟩).1

/-- The structure has no page, and the link to the missing class comes to a node without one. -/
theorem documentable_symbols_have_pages_strays :
    "c:W.spin" ∈ strays.pages.keys ∧ "s:V" ∈ strays.model.store.ids ∧ "s:V" ∉ strays.pages.keys ∧
      ∃ f, (Destinations.ofCatalog strays).resolve "Kit/Widget" none = .error f ∧
        f.kind = .invalidReference := by
  obtain ⟨hpages, -, -, -, hinvalid⟩ :=
    documentable_symbols_have_pages [strayGraph] ⟨"org.example.kit", false⟩
  refine ⟨(hpages _).mpr (by decide +kernel), by decide +kernel,
    mt (hpages _).mp (by decide +kernel), (hinvalid _ none).mpr (.inr ?_)⟩
  let link : Link :=
    ⟨[Link.Component.parse "Kit".toList 0, Link.Component.parse "Widget".toList 4], false⟩
  have htree : strays.tree = _ := PathTree.build_of_sorted (by decide +kernel) _
  have hfind : strays.tree.find link none = .ok 2 ∧ strays.tree.symbolAt? 2 = none := by
    rw [htree]
    decide +kernel
  exact ⟨link, 2, rfl, hfind⟩

end Catalog

end SymbolLinks
