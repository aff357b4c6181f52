import SymbolLinks.Catalog
import SymbolLinks.Proofs.EdgeOutcomes

/-! Where the symbols of a catalog come from. Every symbol was inserted from some graph,
and merging edges changes nothing of what the graphs declare. So the kinds, modules and
paths of a catalog are those of the graphs (`Catalog.fromGraphs`). -/
namespace SymbolLinks

/-! ## Inserting the symbols of graphs -/

/-- What a graph inserts: its module and its symbols. -/
def SymbolGraph.inserted (g : SymbolGraph) : List Symbol :=
  Symbol.ofModule g.moduleName g.language :: g.symbols.map (·.toSymbol g.moduleName)

/-- A symbol that some graphs declare: its module, its kind and its paths are theirs. -/
structure FromGraphs (graphs : List SymbolGraph) (s : Symbol) : Prop where
  moduleName : ∃ g ∈ graphs, s.moduleName = g.moduleName
  kind : s.kind = .module_ ∨ ∃ g ∈ graphs, ∃ x ∈ g.symbols, s.kind = x.kind
  names : ∀ {l : Language} {path : List String}, s.names.get? l = some path →
    (∃ g ∈ graphs, l = g.language ∧ path = []) ∨
      ∃ g ∈ graphs, ∃ x ∈ g.symbols, l = x.language ∧ path = x.path

namespace FromGraphs

variable {graphs : List SymbolGraph} {s : Symbol}

theorem of_inserted {g : SymbolGraph} (hg : g ∈ graphs) (h : s ∈ g.inserted) :
    FromGraphs graphs s := by
  rcases List.mem_cons.mp h with rfl | h
  · refine ⟨⟨g, hg, rfl⟩, .inl rfl, fun hpath => .inl ⟨g, hg, ?_⟩⟩
    exact KeyMap.get?_singleton hpath
  · obtain ⟨x, hx, rfl⟩ := List.mem_map.mp h
    refine ⟨⟨g, hg, rfl⟩, .inr ⟨g, hg, x, hx, rfl⟩, fun hpath => .inr ⟨g, hg, x, hx, ?_⟩⟩
    exact KeyMap.get?_singleton hpath

/-- The first insertion decides all but the names. -/
theorem mergeNames (h : FromGraphs graphs s) {new : Symbol} (hnew : FromGraphs graphs new) :
    FromGraphs graphs (SymbolStore.mergeNames s new) where
  moduleName := h.moduleName
  kind := h.kind
  names := by
    intro l path hpath
    rw [SymbolStore.names_mergeNames] at hpath
    rcases Option.or_eq_some_iff.mp hpath with hpath | ⟨-, hpath⟩
    · exact h.names hpath
    · exact hnew.names hpath

/-- A symbol that is declared alike comes from the same graphs. -/
theorem congr {s' : Symbol} (h : FromGraphs graphs s) (heq : s'.declared = s.declared) :
    FromGraphs graphs s' := by
  have hmodule : s'.moduleName = s.moduleName := (congrArg Symbol.moduleName heq :)
  have hkind : s'.kind = s.kind := (congrArg Symbol.kind heq :)
  have hnames : s'.names = s.names := (congrArg Symbol.names heq :)
  refine ⟨hmodule ▸ h.moduleName, hkind ▸ h.kind, fun hpath => ?_⟩
  rw [hnames] at hpath
  exact h.names hpath

end FromGraphs

namespace Catalog

theorem mem_ordered_iff {graphs : List SymbolGraph} {g : SymbolGraph} :
    g ∈ ordered graphs ↔ g ∈ graphs := by
  simp only [ordered, List.mem_append, List.mem_filter, ← and_or_left]
  simp [Decidable.em]

theorem store_ingest (m : Model) (g : SymbolGraph) :
    (ingest m g).store = g.inserted.foldl SymbolStore.insert m.store := by
  unfold ingest
  show (g.inserted.foldl _ m).store = _
  induction g.inserted generalizing m with
  | nil => rfl
  | cons s rest ih => exact ih _

theorem store_foldl_ingest (graphs : List SymbolGraph) (m : Model) :
    (graphs.foldl ingest m).store =
      (graphs.flatMap (·.inserted)).foldl SymbolStore.insert m.store := by
  induction graphs generalizing m with
  | nil => rfl
  | cons g graphs ih =>
    rw [List.foldl_cons, ih, store_ingest, List.flatMap_cons, List.foldl_append]

theorem like_mergeGraphs (o : CatalogOptions) (graphs : List SymbolGraph) (m : Model) :
    (mergeGraphs o graphs m).1.Like m := by
  refine List.foldlRecOn (motive := fun x : Model × List Problem => x.1.Like m) _ _ (.refl m)
    fun x hx g _ => ?_
  exact (x.1.like_mergeAll _ _ g.selector g.edges).trans hx

variable (graphs : List SymbolGraph) (o : CatalogOptions)

/-- The store of a catalog declares what was inserted from the graphs. -/
theorem declared_build : (build graphs o).1.model.store.declared =
    (SymbolStore.ofInserts ((ordered graphs).flatMap (·.inserted))).declared := by
  refine (like_mergeGraphs o (ordered graphs) ((ordered graphs).foldl ingest ∅)).declared.trans ?_
  rw [store_foldl_ingest]
  rfl

/-- What holds of all that is inserted, lasts when names are merged and is about what graphs
declare holds of every symbol of a catalog. -/
theorem forall_symbols {P : Symbol → Prop} (hinserted : ∀ g ∈ graphs, ∀ s ∈ g.inserted, P s)
    (hmerge : ∀ {old new : Symbol}, P old → P new → P (SymbolStore.mergeNames old new))
    (hcongr : ∀ {s s' : Symbol}, P s → s'.declared = s.declared → P s') :
    ∀ s ∈ (build graphs o).1.model.store.symbols, P s := by
  have hstore : ∀ s ∈ (SymbolStore.ofInserts ((ordered graphs).flatMap (·.inserted))).symbols,
      P s := by
    refine List.foldlRecOn (motive := fun st : SymbolStore => ∀ s ∈ st.symbols, P s) _
      SymbolStore.insert ?_ fun st hst new hnew => ?_
    · intro s hs
      cases hs
    · obtain ⟨g, hg, hmem⟩ := List.mem_flatMap.mp hnew
      have hP : P new := hinserted g (mem_ordered_iff.mp hg) new hmem
      exact SymbolStore.forall_insert hst hP fun old hold => hmerge hold hP
  intro s hs
  have hmem : s.declared ∈ (build graphs o).1.model.store.declared := List.mem_map.mpr ⟨s, hs, rfl⟩
  rw [declared_build] at hmem
  obtain ⟨s', hs', heq⟩ := List.mem_map.mp hmem
  exact hcongr (hstore s' hs') heq.symm

theorem fromGraphs {s : Symbol} (hs : s ∈ (build graphs o).1.model.store.symbols) :
    FromGraphs graphs s :=
  forall_symbols graphs o (fun _ hg _ => .of_inserted hg) (fun hold hnew => hold.mergeNames hnew) .congr
    s hs

end Catalog

end SymbolLinks
