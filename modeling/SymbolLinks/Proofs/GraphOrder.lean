import SymbolLinks.Proofs.CatalogTree
import SymbolLinks.Proofs.StoreOrder

/-! The order of graphs does not show in URLs, as long as the graphs agree on the symbols
that they share. A store then gathers the same modules, kinds and paths whatever is
inserted first, the containers of members are the same, and the trees differ in the
numbers of their modules only. -/
namespace SymbolLinks

/-! ## Stores filled in another order -/

namespace SymbolStore

/-- Symbols that can be gathered in either order. -/
structure Agree (s s' : Symbol) : Prop where
  moduleName : s.moduleName = s'.moduleName
  kind : s.kind = s'.kind
  path : ∀ {l path path'}, s.names.get? l = some path → s'.names.get? l = some path' → path = path'

def Consistent (ss : List Symbol) : Prop := ∀ s ∈ ss, ∀ s' ∈ ss, s.id = s'.id → Agree s s'

theorem Consistent.of_perm {ss ss' : List Symbol} (h : Consistent ss) (hperm : ss.Perm ss') :
    Consistent ss' :=
  fun s hs s' hs' => h s (hperm.mem_iff.mpr hs) s' (hperm.mem_iff.mpr hs')

/-- A symbol has the names that some symbols have under its identifier, and the module
and the kind of one of them. -/
structure Gathers (ss : List Symbol) (s : Symbol) : Prop where
  source : ∃ x ∈ ss, x.id = s.id ∧ x.kind = s.kind ∧ x.moduleName = s.moduleName
  names : ∀ {l path}, s.names.get? l = some path ↔ ∃ x ∈ ss, x.id = s.id ∧ x.names.get? l = some path

section Gathers

variable {ss : List Symbol} {s x : Symbol}

theorem Gathers.snoc_of_ne (h : Gathers ss s) (hne : x.id ≠ s.id) : Gathers (ss ++ [x]) s where
  source := by
    obtain ⟨y, hy, hid⟩ := h.source
    exact ⟨y, List.mem_append_left _ hy, hid⟩
  names := by
    intro l path
    rw [h.names]
    constructor
    · rintro ⟨y, hy, hid⟩
      exact ⟨y, List.mem_append_left _ hy, hid⟩
    · rintro ⟨y, hy, hid, hpath⟩
      rcases List.mem_append.mp hy with hy | hy
      · exact ⟨y, hy, hid, hpath⟩
      · cases List.mem_singleton.mp hy
        exact absurd hid hne

/-- The names of another symbol with the same identifier. -/
theorem Gathers.mergeNames (h : Gathers ss s) (hagree : Consistent (ss ++ [x])) (hid : x.id = s.id) :
    Gathers (ss ++ [x]) (mergeNames s x) where
  source := by
    obtain ⟨y, hy, hid⟩ := h.source
    exact ⟨y, List.mem_append_left _ hy, hid⟩
  names := by
    intro l path
    have hx : x ∈ ss ++ [x] := List.mem_append_right _ (List.mem_singleton_self x)
    rw [names_mergeNames]
    constructor
    · intro hpath
      rcases Option.or_eq_some_iff.mp hpath with hpath | ⟨-, hpath⟩
      · obtain ⟨y, hy, hy'⟩ := h.names.mp hpath
        exact ⟨y, List.mem_append_left _ hy, hy'⟩
      · exact ⟨x, hx, hid, hpath⟩
    · rintro ⟨y, hy, hyid, hpath⟩
      rcases List.mem_append.mp hy with hold | hnew
      · rw [h.names.mpr ⟨y, hold, hyid, hpath⟩]
        rfl
      · cases List.mem_singleton.mp hnew
        cases hold : s.names.get? l with
        | none => exact hpath
        | some path' =>
          obtain ⟨z, hz, hzid, hz'⟩ := h.names.mp hold
          have hsame := (hagree z (List.mem_append_left _ hz) x hx (hzid.trans hid.symm)).path hz' hpath
          rw [hsame]
          rfl

end Gathers

/-- However consistent symbols are inserted, a store gathers all they say. -/
theorem gathers_ofInserts {ss : List Symbol} (h : Consistent ss) :
    ∀ s ∈ (ofInserts ss).symbols, Gathers ss s := by
  induction ss using List.reverseRecOn with
  | nil => exact fun s hs => nomatch hs
  | append_singleton ss x ih =>
    have hold : ∀ s ∈ (ofInserts ss).symbols, Gathers ss s :=
      ih fun s hs s' hs' => h s (List.mem_append_left _ hs) s' (List.mem_append_left _ hs')
    intro s hs
    rw [ofInserts_snoc] at hs
    obtain ⟨hs, hne⟩ | ⟨old, hmem, hid, rfl⟩ | ⟨rfl, hnew⟩ := mem_symbols_insert hs
    · exact (hold s hs).snoc_of_ne hne.symm
    · exact (hold old hmem).mergeNames h hid.symm
    · have hs : s ∈ ss ++ [s] := List.mem_append_right _ (List.mem_singleton_self s)
      refine ⟨⟨s, hs, rfl, rfl, rfl⟩, fun {l path} => ⟨fun hpath => ⟨s, hs, rfl, hpath⟩, ?_⟩⟩
      rintro ⟨y, hy, hid, hpath⟩
      rcases List.mem_append.mp hy with hy | hy
      · exact absurd (mem_ids_ofInserts.mpr ⟨y, hy, hid⟩) hnew
      · cases List.mem_singleton.mp hy
        exact hpath

/-- What is gathered under an identifier is decided by what is inserted. -/
theorem Gathers.core_eq {ss ss' : List Symbol} (hagree : Consistent ss) (hmem : ∀ x, x ∈ ss' ↔ x ∈ ss)
    {s s' : Symbol} (h : Gathers ss s) (h' : Gathers ss' s') (hid : s'.id = s.id) :
    s'.core = s.core := by
  obtain ⟨x, hx, hxid, hkind, hmodule⟩ := h.source
  obtain ⟨x', hx', hxid', hkind', hmodule'⟩ := h'.source
  have hxx := hagree x' ((hmem x').mp hx') x hx (hxid'.trans (hid.trans hxid.symm))
  have hnames : s'.names = s.names := by
    refine KeyMap.ext_get? fun l => Option.ext fun path => ?_
    rw [h.names, h'.names, hid]
    simp only [hmem]
  rw [Symbol.core, Symbol.core, hid, hnames, ← hkind', ← hmodule', hxx.kind, hxx.moduleName, hkind,
    hmodule]

theorem perm_cores_ofInserts {ss ss' : List Symbol} (h : Consistent ss) (hperm : ss.Perm ss') :
    (ofInserts ss).cores.Perm (ofInserts ss').cores := by
  have hnodup : ∀ ss : List Symbol, (ofInserts ss).cores.Nodup := fun ss =>
    .of_map (·.id) (ids_eq_map_cores _ ▸ nodup_ids _)
  have hsubset : ∀ {ss ss' : List Symbol}, Consistent ss → ss.Perm ss' →
      ∀ c ∈ (ofInserts ss).cores, c ∈ (ofInserts ss').cores := by
    intro ss ss' h hperm c hc
    obtain ⟨s, hs, rfl⟩ := List.mem_map.mp hc
    obtain ⟨x, hx, hid⟩ := mem_ids_ofInserts.mp (List.mem_map_of_mem (f := (·.id)) hs)
    obtain ⟨s', hs', hid'⟩ := List.mem_map.mp (mem_ids_ofInserts.mpr ⟨x, hperm.mem_iff.mp hx, hid⟩)
    have hcore := (gathers_ofInserts h s hs).core_eq h (fun _ => hperm.mem_iff.symm)
      (gathers_ofInserts (h.of_perm hperm) s' hs') hid'
    exact hcore ▸ List.mem_map_of_mem hs'
  exact (List.perm_ext_iff_of_nodup (hnodup ss) (hnodup ss')).mpr fun c =>
    ⟨hsubset h hperm c, hsubset (h.of_perm hperm) hperm.symm c⟩

end SymbolStore

/-! ## Graphs that agree -/

/-- Graphs that agree on what they share: under one identifier, on the module and the
kind, and within a language on the path. No symbol stands for a module, and within a
language a member has one container. -/
structure Coherent (graphs : List SymbolGraph) : Prop where
  symbols : ∀ g ∈ graphs, ∀ x ∈ g.symbols, ∀ g' ∈ graphs, ∀ x' ∈ g'.symbols, x.id = x'.id →
    g.moduleName = g'.moduleName ∧ x.kind = x'.kind ∧ (x.language = x'.language → x.path = x'.path)
  noModule : ∀ g ∈ graphs, ∀ x ∈ g.symbols, x.kind ≠ .module_ ∧ ∀ g' ∈ graphs, x.id ≠ g'.moduleName
  members : ∀ g ∈ graphs, ∀ e ∈ g.edges, ∀ g' ∈ graphs, ∀ e' ∈ g'.edges, g.language = g'.language →
    e.kind = .memberOf → e'.kind = .memberOf → e.source = e'.source → e.target = e'.target

namespace Coherent

variable {graphs : List SymbolGraph}

theorem of_mem_iff {graphs' : List SymbolGraph} (h : Coherent graphs) (hmem : ∀ g, g ∈ graphs' ↔ g ∈ graphs) :
    Coherent graphs' where
  symbols g hg x hx g' hg' := h.symbols g ((hmem g).mp hg) x hx g' ((hmem g').mp hg')
  noModule g hg x hx :=
    ⟨(h.noModule g ((hmem g).mp hg) x hx).1,
      fun g' hg' => (h.noModule g ((hmem g).mp hg) x hx).2 g' ((hmem g').mp hg')⟩
  members g hg e he g' hg' := h.members g ((hmem g).mp hg) e he g' ((hmem g').mp hg')

/-- What coherent graphs insert can be gathered in any order. -/
theorem consistent (h : Coherent graphs) : SymbolStore.Consistent (graphs.flatMap (·.inserted)) := by
  intro s hs s' hs' hid
  obtain ⟨g, hg, hs⟩ := List.mem_flatMap.mp hs
  obtain ⟨g', hg', hs'⟩ := List.mem_flatMap.mp hs'
  rcases List.mem_cons.mp hs with rfl | hs <;> rcases List.mem_cons.mp hs' with rfl | hs'
  · refine ⟨hid, rfl, fun hpath hpath' => ?_⟩
    rw [(KeyMap.get?_singleton hpath).2, (KeyMap.get?_singleton hpath').2]
  · obtain ⟨x, hx, rfl⟩ := List.mem_map.mp hs'
    exact absurd hid.symm ((h.noModule g' hg' x hx).2 g hg)
  · obtain ⟨x, hx, rfl⟩ := List.mem_map.mp hs
    exact absurd hid ((h.noModule g hg x hx).2 g' hg')
  · obtain ⟨x, hx, rfl⟩ := List.mem_map.mp hs
    obtain ⟨x', hx', rfl⟩ := List.mem_map.mp hs'
    obtain ⟨hmodule, hkind, hpath⟩ := h.symbols g hg x hx g' hg' x' hx' hid
    refine ⟨hmodule, hkind, fun {l path path'} hl hl' => ?_⟩
    obtain ⟨rfl, rfl⟩ := KeyMap.get?_singleton hl
    obtain ⟨hlanguage, rfl⟩ := KeyMap.get?_singleton hl'
    exact hpath hlanguage

/-- The modules of a store are the modules of the graphs. -/
theorem modules (h : Coherent graphs) {c : SymbolCore}
    (hc : c ∈ (SymbolStore.ofInserts (graphs.flatMap (·.inserted))).cores) (hkind : c.kind = .module_) :
    c.moduleName = c.id ∧ c.names.keys ≠ [] := by
  obtain ⟨s, hs, rfl⟩ := List.mem_map.mp hc
  have hgathers := SymbolStore.gathers_ofInserts h.consistent s hs
  obtain ⟨x, hx, hid, hxkind, hmodule⟩ := hgathers.source
  obtain ⟨g, hg, hinserted⟩ := List.mem_flatMap.mp hx
  rcases List.mem_cons.mp hinserted with rfl | hsymbol
  · refine ⟨hmodule.symm.trans hid, fun hkeys => ?_⟩
    have hpath := hgathers.names.mpr ⟨_, hx, hid, KeyMap.get?_insert_self ∅ g.language []⟩
    have hmem : g.language ∈ s.core.names.keys := KeyMap.mem_keys_iff.mpr ⟨_, hpath⟩
    rw [hkeys] at hmem
    cases hmem
  · obtain ⟨y, hy, rfl⟩ := List.mem_map.mp hsymbol
    exact absurd (hxkind.trans hkind) (h.noModule g hg y hy).1

theorem members_eq_some_iff (h : Coherent graphs) {l : Language} {id target : String} :
    Catalog.members graphs l id = some target ↔ ∃ g ∈ graphs, g.language = l ∧ ∃ e ∈ g.edges,
      e.kind = .memberOf ∧ e.source = id ∧ e.target = target := by
  have hfound : ∀ {target : String}, Catalog.members graphs l id = some target →
      ∃ g ∈ graphs, g.language = l ∧ ∃ e ∈ g.edges, e.kind = .memberOf ∧ e.source = id ∧
        e.target = target := by
    intro target hmember
    obtain ⟨g, hg, htarget⟩ := List.exists_of_findSome?_eq_some hmember
    split at htarget
    · rename_i hl
      obtain ⟨e, he, rfl⟩ := Option.map_eq_some_iff.mp htarget
      have hedge := List.find?_some he
      simp only [Bool.decide_and, Bool.and_eq_true, decide_eq_true_eq] at hedge
      exact ⟨g, hg, hl, e, List.mem_of_find?_eq_some he, hedge.1, hedge.2, rfl⟩
    · cases htarget
  refine ⟨hfound, ?_⟩
  rintro ⟨g, hg, hl, e, he, hkind, hsource, rfl⟩
  cases hmember : Catalog.members graphs l id with
  | none =>
    have hnone := List.findSome?_eq_none_iff.mp hmember g hg
    rw [if_pos hl, Option.map_eq_none_iff] at hnone
    exact absurd (List.find?_eq_none.mp hnone e he) (by simp [hkind, hsource])
  | some target =>
    obtain ⟨g', hg', hl', e', he', hkind', hsource', rfl⟩ := hfound hmember
    rw [h.members g' hg' e' he' g hg e he (hl'.trans hl.symm) hkind' hkind (hsource'.trans hsource.symm)]

end Coherent

namespace Catalog

theorem cores_build (graphs : List SymbolGraph) (o : CatalogOptions) :
    (build graphs o).1.model.store.cores =
      (SymbolStore.ofInserts ((ordered graphs).flatMap (·.inserted))).cores := by
  have hcores : ∀ st : SymbolStore, st.cores = st.declared.map Symbol.core := by
    intro st
    rw [SymbolStore.cores, SymbolStore.declared, List.map_map]
    rfl
  rw [hcores, declared_build, ← hcores]

/-- Whatever the order of coherent graphs, every symbol has the same URL. -/
theorem canonicalPaths_of_perm {graphs graphs' : List SymbolGraph} (hperm : graphs.Perm graphs')
    (h : Coherent graphs) (o : CatalogOptions) :
    (build graphs' o).1.tree.canonicalPaths = (build graphs o).1.tree.canonicalPaths ∧
      ∀ id, ((build graphs' o).1.pages.get? id).map (·.path) =
        ((build graphs o).1.pages.get? id).map (·.path) := by
  have hordered : (ordered graphs).Perm (ordered graphs') := (hperm.filter _).append (hperm.filter _)
  have hcoherent : Coherent (ordered graphs) := h.of_mem_iff fun g => mem_ordered_iff
  have hcoherent' : Coherent (ordered graphs') := hcoherent.of_mem_iff fun g => hordered.mem_iff.symm
  have hmembers : members (ordered graphs') = members (ordered graphs) := by
    funext l id
    refine Option.ext fun target => ?_
    rw [hcoherent'.members_eq_some_iff, hcoherent.members_eq_some_iff]
    simp only [hordered.mem_iff]
  have hcores : (build graphs o).1.model.store.cores.Perm (build graphs' o).1.model.store.cores := by
    rw [cores_build, cores_build]
    exact SymbolStore.perm_cores_ofInserts hcoherent.consistent (hordered.flatMap_right _)
  have hpaths : (build graphs' o).1.tree.canonicalPaths = (build graphs o).1.tree.canonicalPaths := by
    show (PathTree.build _ (members (ordered graphs'))).canonicalPaths = _
    rw [hmembers]
    refine PathTree.canonicalPaths_build_of_perm hcores (fun c hc hkind => ?_) _
    rw [cores_build] at hc
    exact hcoherent.modules hc hkind
  refine ⟨hpaths, fun id => ?_⟩
  rw [pages_build, pages_build, get?_pagesOf, get?_pagesOf, hpaths, Option.map_map, Option.map_map]
  rfl

/-- A class that two languages name differently, and a module without symbols. -/
def sharedGraphs : List SymbolGraph :=
  let symbol := fun (language : Language) (kind : Kind) (id : String) (path : List String) =>
    ({ language, id, kind, title := id, path } : GraphSymbol)
  let spins : Edge := { kind := .memberOf, source := "c:W.spin", target := "c:W" }
  [{ moduleName := "Kit", edges := [spins], symbols := [
      symbol .swift .class_ "c:W" ["Widget"], symbol .swift .method "c:W.spin" ["Widget", "spin"]] },
    { moduleName := "Kit", edges := [spins], symbols := [
      symbol .objectiveC .class_ "c:W" ["KITWidget"],
      symbol .objectiveC .method "c:W.spin" ["KITWidget", "spin"]] },
    { moduleName := "App" }]

/-- From the last graph to the first, the modules change places and all URLs stay. -/
theorem canonicalPaths_of_perm_shared :
    (build sharedGraphs ⟨"org.example.kit", false⟩).1.tree.primary.get? "Kit" = some 1 ∧
    (build sharedGraphs.reverse ⟨"org.example.kit", false⟩).1.tree.primary.get? "Kit" = some 2 ∧
    (build sharedGraphs.reverse ⟨"org.example.kit", false⟩).1.tree.canonicalPaths =
      (build sharedGraphs ⟨"org.example.kit", false⟩).1.tree.canonicalPaths := by
  have htree : (build sharedGraphs ⟨"org.example.kit", false⟩).1.tree = _ :=
    PathTree.build_of_sorted (by decide +kernel) _
  have htree' : (build sharedGraphs.reverse ⟨"org.example.kit", false⟩).1.tree = _ :=
    PathTree.build_of_sorted (by decide +kernel) _
  refine ⟨?_, ?_, ?_⟩
  · rw [htree]
    decide +kernel
  · rw [htree']
    decide +kernel
  · have hcoherent : Coherent sharedGraphs := ⟨by decide, by decide, by decide⟩
    exact (canonicalPaths_of_perm sharedGraphs.reverse_perm.symm hcoherent _).1

end Catalog

end SymbolLinks
