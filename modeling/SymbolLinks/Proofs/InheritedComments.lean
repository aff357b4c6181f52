import SymbolLinks.Proofs.EdgeOrder
import SymbolLinks.Proofs.GraphSymbols

/-! Inherited comments. Of all that merging does only the origins that edges record bear on
the comment and the origin of a symbol. So both can be read off the graphs: the origin is
the one recorded last, and the comment is that of the entry that was inserted first, unless
some edge has it dropped (`Catalog.inherited_comments_dropped`). -/
namespace SymbolLinks

/-! ## Changes of comments and origins -/

namespace Change

/-- Whether a change is about what a symbol inherits, its origin and its comment. -/
def isInheritance : Change → Bool
  | .setOrigin _ | .dropComment _ _ => true
  | .relate _ _ | .nameTarget _ _ _ | .implement _ _ | .nameRequirement _ _ _ | .require _
  | .constrain _ _ => false

/-- The origin that a change records. -/
def origin? : Change → Option Origin
  | .setOrigin origin => some origin
  | _ => none

theorem drops_dropComment_iff {s : Symbol} {originModule : Option String} {o : MergeOptions} :
    (dropComment originModule o).drops s = true ↔ originModule ≠ some s.moduleName ∧
      o.inheritDocs = false ∧ ∃ c, s.comment = some c ∧ c.lines ≠ [] ∧
        ∃ written, c.moduleName = some written ∧ written ≠ o.moduleName := by
  have hfrom : s.commentIsFrom? o.moduleName = some false ↔ ∃ c, s.comment = some c ∧ c.lines ≠ [] ∧
      ∃ written, c.moduleName = some written ∧ written ≠ o.moduleName := by
    unfold Symbol.commentIsFrom?
    cases s.comment with
    | none => simp
    | some c =>
      obtain ⟨lines, moduleName⟩ := c
      cases moduleName with
      | none => simp
      | some written => by_cases hlines : lines = [] <;> simp [hlines]
  rw [← hfrom, drops, Bool.not_eq_true', decide_eq_false_iff_not, Symbol.KeepsComment]
  simp

end Change

namespace Symbol

/-- The origin recorded last counts. -/
theorem origin_changed (s : Symbol) (cs : List Change) :
    (s.changed cs).origin = (cs.filterMap Change.origin?).getLast?.or s.origin := by
  induction cs generalizing s with
  | nil => rfl
  | cons c cs ih =>
    refine (ih (c.apply s)).trans ?_
    cases c with
    | setOrigin origin =>
      have hcons : (Change.setOrigin origin :: cs).filterMap Change.origin? =
          origin :: cs.filterMap Change.origin? := rfl
      rw [hcons, List.getLast?_cons]
      cases (cs.filterMap Change.origin?).getLast? <;> rfl
    | _ => rfl

/-- Comment and origin depend on the changes that are about them. -/
theorem comment_changed_filter (s : Symbol) (cs : List Change) :
    (s.changed cs).comment = (s.changed (cs.filter (·.isInheritance))).comment := by
  have hdrops : ∀ c : Change, (c.isInheritance && c.drops s) = c.drops s := by
    intro c
    cases c <;> rfl
  simp only [comment_changed, List.any_filter, hdrops]

theorem origin_changed_filter (s : Symbol) (cs : List Change) :
    (s.changed cs).origin = (s.changed (cs.filter (·.isInheritance))).origin := by
  rw [origin_changed, origin_changed, List.filterMap_filter]
  congr 2
  refine List.filterMap_congr fun c _ => ?_
  cases c <;> rfl

end Symbol

theorem changesOf_filter (id : String) (p : Change → Bool) (cs : List AddressedChange) :
    changesOf id (cs.filter (p ·.change)) = (changesOf id cs).filter p := by
  simp only [changesOf, List.filter_map, List.filter_filter, Function.comp_def, Bool.and_comm]

theorem changesOf_flatMap {α : Type} (id : String) (f : α → List AddressedChange) (xs : List α) :
    changesOf id (xs.flatMap f) = xs.flatMap fun x => changesOf id (f x) := by
  simp only [changesOf, List.filter_flatMap, List.map_flatMap]

/-! ## Plans of merges -/

namespace Plan

/-- The changes of a plan that are about comments and origins. -/
def inheritance (p : Plan) : List AddressedChange := p.changes.filter (·.change.isInheritance)

theorem inheritance_append (p q : Plan) :
    (p.append q).inheritance = p.inheritance ++ q.inheritance := List.filter_append ..

theorem inheritance_concat (ps : List Plan) :
    (concat ps).inheritance = ps.flatMap (·.inheritance) := by
  rw [inheritance, changes_concat, List.filter_flatMap]
  rfl

end Plan

namespace Edge

theorem mem_originPlan_iff {e : Edge} {o : MergeOptions} {m : Model} {a : AddressedChange} :
    a ∈ (e.originPlan o m).changes ↔ ∃ origin, e.inherited? = some origin ∧
      (a = ⟨e.source, .setOrigin origin⟩ ∨
        a = ⟨e.source, .dropComment ((m.store.get? origin.identifier).map (·.moduleName)) o⟩) := by
  unfold originPlan
  cases e.inherited? with
  | none => simp
  | some origin => simp

/-- The merge of an edge itself leaves comments and origins alone. -/
theorem Merges.inheritance_eq {e : Edge} {o : MergeOptions} {sel : Selector} {m : Model} {p : Plan}
    (h : e.Merges o sel m p) : p.inheritance = [] := by
  refine List.filter_eq_nil_iff.mpr fun a ha => ?_
  cases h with
  | nothing => cases ha
  | related =>
    simp only [List.mem_cons, List.not_mem_nil, or_false] at ha
    rcases ha with rfl | rfl <;> exact Bool.false_ne_true
  | relatedOutside =>
    rcases List.mem_append.mp ha with ha | ha
    · obtain ⟨name, -, rfl⟩ := List.mem_map.mp ha
      exact Bool.false_ne_true
    · cases List.mem_singleton.mp ha
      exact Bool.false_ne_true
  | implementedOutside =>
    obtain ⟨name, -, rfl⟩ := List.mem_map.mp ha
    exact Bool.false_ne_true
  | implemented | required | constrained =>
    cases List.mem_singleton.mp ha
    exact Bool.false_ne_true

theorem Outcome.inheritance_eq {e : Edge} {o : MergeOptions} {sel : Selector} {m : Model} {p : Plan}
    (h : e.Outcome o sel m p) : p.inheritance = [] := by
  cases h with
  | refused _ _ => rfl
  | merged _ plan => exact plan.inheritance_eq

theorem inheritance_originPlan (e : Edge) (o : MergeOptions) (m : Model) :
    (e.originPlan o m).inheritance = (e.originPlan o m).changes := by
  refine List.filter_eq_self.mpr fun a ha => ?_
  obtain ⟨origin, -, rfl | rfl⟩ := mem_originPlan_iff.mp ha <;> rfl

end Edge

namespace Model

/-- A model that some merges lead to, by a plan with certain changes of comments and origins. -/
def Inherits (m : Model) (changes : List AddressedChange) (m' : Model) : Prop :=
  ∃ p : Plan, p.model m = m' ∧ p.inheritance = changes

theorem Inherits.refl (m : Model) : m.Inherits [] m :=
  ⟨{}, Plan.model_refused [] m, rfl⟩

theorem Inherits.trans {m m' m'' : Model} {cs ds : List AddressedChange} (h : m.Inherits cs m')
    (h' : m'.Inherits ds m'') : m.Inherits (cs ++ ds) m'' := by
  obtain ⟨p, rfl, rfl⟩ := h
  obtain ⟨q, rfl, rfl⟩ := h'
  exact ⟨p.append q, p.model_append q m, p.inheritance_append q⟩

theorem Inherits.like {m m' : Model} {cs : List AddressedChange} (h : m.Inherits cs m') :
    m'.Like m := by
  obtain ⟨p, rfl, -⟩ := h
  exact like_plan p m

/-- Steps that make the same changes wherever they are taken. -/
theorem inherits_foldl {α : Type} {step : Model → α → Model} {changes : α → List AddressedChange}
    {m : Model} (h : ∀ x (m' : Model), m'.Like m → m'.Inherits (changes x) (step m' x)) (xs : List α)
    {m' : Model} (hm' : m'.Like m) : m'.Inherits (xs.flatMap changes) (xs.foldl step m') := by
  induction xs generalizing m' with
  | nil => exact .refl m'
  | cons x xs ih =>
    have hstep := h x m' hm'
    exact hstep.trans (ih (hstep.like.trans hm'))

variable (extended : ExtendedModules) (o : MergeOptions) (sel : Selector)

theorem inherits_mergeAll (edges : List Edge) {m m' : Model} (h : m'.Like m) :
    m'.Inherits (edges.flatMap fun e => (e.originPlan o m).changes)
      (m'.mergeAll extended o sel edges).1 := by
  obtain ⟨merge, hmerge, hplan⟩ := m.exists_mergeAll_plan extended o sel
  have hnone : (Plan.concat (edges.map merge)).inheritance = [] := by
    simp [Plan.inheritance_concat, (hmerge _).inheritance_eq]
  refine ⟨_, congrArg Prod.fst (hplan edges m' h).symm, ?_⟩
  rw [Plan.inheritance_append, hnone, List.nil_append, Plan.inheritance_concat, List.flatMap_map]
  simp only [Edge.inheritance_originPlan]

end Model

/-! ## Comments and origins of a catalog -/

/-- The origins that graphs record for a symbol, in the order of their edges. -/
def recordedOrigins (graphs : List SymbolGraph) (id : String) : List Origin :=
  (graphs.flatMap (·.edges)).filterMap fun e => if e.source = id then e.inherited? else none

namespace Catalog

/-- The changes of comments and origins that the edges of graphs make in a model. -/
def inheritance (o : CatalogOptions) (graphs : List SymbolGraph) (m : Model) : List AddressedChange :=
  graphs.flatMap fun g =>
    g.edges.flatMap fun e => (e.originPlan ⟨o.bundle, o.inheritDocs, g.moduleName⟩ m).changes

theorem inherits_mergeGraphs (o : CatalogOptions) (graphs : List SymbolGraph) (m : Model) :
    m.Inherits (inheritance o graphs m) (mergeGraphs o graphs m).1 := by
  let extended := ExtendedModules.ofEdges (graphs.flatMap (·.edges))
  have hgraphs := Model.inherits_foldl (m := m) (fun (g : SymbolGraph) m' hm' =>
    Model.inherits_mergeAll extended ⟨o.bundle, o.inheritDocs, g.moduleName⟩ g.selector g.edges hm')
    graphs (.refl m)
  have hmodel : graphs.foldl (fun m g => (m.mergeAll extended
      ⟨o.bundle, o.inheritDocs, g.moduleName⟩ g.selector g.edges).1) (m, ([] : List Problem)).1 =
      (mergeGraphs o graphs m).1 := List.foldl_hom Prod.fst fun _ _ => rfl
  rwa [hmodel] at hgraphs

theorem recordedOrigins_eq (o : CatalogOptions) (graphs : List SymbolGraph) (m : Model) (id : String) :
    (changesOf id (inheritance o graphs m)).filterMap Change.origin? = recordedOrigins graphs id := by
  have hedge : ∀ (e : Edge) (o : MergeOptions), (changesOf id (e.originPlan o m).changes).filterMap
      Change.origin? = (if e.source = id then e.inherited? else none).toList := by
    intro e o
    unfold Edge.originPlan
    cases e.inherited? with
    | none => simp [changesOf]
    | some origin => by_cases h : e.source = id <;> simp [changesOf, h, Change.origin?]
  simp only [recordedOrigins, inheritance, changesOf_flatMap, List.filterMap_flatMap, hedge]
  simp only [List.filterMap_eq_flatMap_toList]

theorem any_drops_iff (o : CatalogOptions) (graphs : List SymbolGraph) (m : Model) (s : Symbol) :
    (changesOf s.id (inheritance o graphs m)).any (·.drops s) = true ↔
      ∃ g ∈ graphs, ∃ e ∈ g.edges, e.source = s.id ∧ ∃ origin ∈ e.inherited?,
        (Change.dropComment ((m.store.get? origin.identifier).map (·.moduleName))
          ⟨o.bundle, o.inheritDocs, g.moduleName⟩).drops s = true := by
  simp only [List.any_eq_true, mem_changesOf, inheritance, List.mem_flatMap]
  constructor
  · intro h
    obtain ⟨c, ⟨g, hg, e, he, hc⟩, hdrops⟩ := h
    obtain ⟨origin, horigin, heq | heq⟩ := Edge.mem_originPlan_iff.mp hc
    · obtain ⟨-, rfl⟩ := AddressedChange.mk.inj heq
      cases hdrops
    · obtain ⟨hid, rfl⟩ := AddressedChange.mk.inj heq
      exact ⟨g, hg, e, he, hid.symm, origin, horigin, hdrops⟩
  · intro h
    obtain ⟨g, hg, e, he, hid, origin, horigin, hdrops⟩ := h
    refine ⟨_, ⟨g, hg, e, he, ?_⟩, hdrops⟩
    exact Edge.mem_originPlan_iff.mpr ⟨origin, horigin, .inr (by rw [hid])⟩

/-- The entry that is inserted first under an identifier. -/
def firstInserted? (graphs : List SymbolGraph) (id : String) : Option Symbol :=
  ((ordered graphs).flatMap (·.inserted)).find? (·.id == id)

/-- A comment is dropped if it has lines that were written in another module than that of
some graph, in which an edge says the symbol to be inherited, but not from a symbol of the
symbol's own module. -/
def DropsComment (graphs : List SymbolGraph) (o : CatalogOptions) (st : SymbolStore) (s : Symbol)
    (c : DocComment) : Prop :=
  o.inheritDocs = false ∧ c.lines ≠ [] ∧ ∃ written ∈ c.moduleName,
    ∃ g ∈ graphs, ∃ e ∈ g.edges, e.source = s.id ∧ ∃ origin ∈ e.inherited?,
      written ≠ g.moduleName ∧
        ∀ s' ∈ st.symbols, s'.id = origin.identifier → s'.moduleName ≠ s.moduleName

instance (graphs : List SymbolGraph) (o : CatalogOptions) (st : SymbolStore) (s : Symbol)
    (c : DocComment) : Decidable (DropsComment graphs o st s c) :=
  inferInstanceAs (Decidable (_ ∧ _ ∧ ∃ written ∈ c.moduleName, _))

/-- A symbol of a catalog was ingested, and after that only its recorded origins bore on its
comment and its origin. -/
theorem exists_ingested (graphs : List SymbolGraph) (o : CatalogOptions) {s : Symbol}
    (hs : s ∈ (build graphs o).1.model.store.symbols) :
    ∃ s₀ ∈ (SymbolStore.ofInserts ((ordered graphs).flatMap (·.inserted))).symbols,
      s.declared = s₀.declared ∧
      let cs := changesOf s₀.id (inheritance o (ordered graphs) ((ordered graphs).foldl ingest ∅))
      s.comment = (s₀.changed cs).comment ∧ s.origin = (s₀.changed cs).origin := by
  obtain ⟨p, hp, hinheritance⟩ :=
    inherits_mergeGraphs o (ordered graphs) ((ordered graphs).foldl ingest ∅)
  have hmodel : (build graphs o).1.model = p.model ((ordered graphs).foldl ingest ∅) := hp.symm
  rw [hmodel] at hs
  obtain ⟨s₀, hs₀, rfl⟩ := List.mem_map.mp hs
  rw [store_foldl_ingest] at hs₀
  refine ⟨s₀, hs₀, s₀.declared_changed _, ?_⟩
  simp only [← hinheritance, Plan.inheritance, changesOf_filter, ← Symbol.comment_changed_filter,
    ← Symbol.origin_changed_filter, and_self]

/-- The changes of origins drop a comment for the reasons that are given above. -/
theorem any_drops_iff_dropsComment (graphs : List SymbolGraph) (o : CatalogOptions) {s s₀ : Symbol}
    (hdeclared : s.declared = s₀.declared) :
    (changesOf s₀.id (inheritance o (ordered graphs) ((ordered graphs).foldl ingest ∅))).any
      (·.drops s₀) = true ↔
        ∃ c ∈ s₀.comment, DropsComment graphs o (build graphs o).1.model.store s c := by
  have hid : s.id = s₀.id := (congrArg Symbol.id hdeclared :)
  have hmodule : s.moduleName = s₀.moduleName := (congrArg Symbol.moduleName hdeclared :)
  have hlike : (build graphs o).1.model.Like ((ordered graphs).foldl ingest ∅) :=
    like_mergeGraphs o (ordered graphs) _
  -- Where an origin was ingested, it still is when all graphs are merged.
  have horigin : ∀ id, (((ordered graphs).foldl ingest ∅).store.get? id).map (·.moduleName) ≠
      some s₀.moduleName ↔ ∀ s' ∈ (build graphs o).1.model.store.symbols,
        s'.id = id → s'.moduleName ≠ s.moduleName := by
    intro id
    have hstored : (((ordered graphs).foldl ingest ∅).store.get? id).map (·.moduleName) =
        some s₀.moduleName ↔ ∃ s' ∈ (build graphs o).1.model.store.symbols,
          s'.id = id ∧ s'.moduleName = s.moduleName := by
      rw [← hmodule, ← hlike.map_moduleName, Option.map_eq_some_iff]
      simp only [SymbolStore.get?_eq_some_iff, and_assoc]
    rw [Ne, hstored]
    simp only [not_exists, not_and, ne_eq]
  rw [any_drops_iff]
  simp only [Change.drops_dropComment_iff, mem_ordered_iff, horigin, DropsComment, hid]
  constructor
  · intro h
    obtain ⟨g, hg, e, he, hsource, origin, ho, houtside, hinherit, c, hc, hlines, written, hw, hne⟩ := h
    exact ⟨c, hc, hinherit, hlines, written, hw, g, hg, e, he, hsource, origin, ho, hne, houtside⟩
  · intro h
    obtain ⟨c, hc, hinherit, hlines, written, hw, g, hg, e, he, hsource, origin, ho, hne, houtside⟩ := h
    exact ⟨g, hg, e, he, hsource, origin, ho, houtside, hinherit, c, hc, hlines, written, hw, hne⟩

theorem origin_of_mem_inserted {g : SymbolGraph} {s : Symbol} (h : s ∈ g.inserted) :
    s.origin = none := by
  rcases List.mem_cons.mp h with rfl | h
  · rfl
  · obtain ⟨x, -, rfl⟩ := List.mem_map.mp h
    rfl

/-- In the documentation of any graphs, the comment of a symbol is that of its first entry,
unless it is dropped, and its origin is the one that the edges record last. -/
theorem inherited_comments_dropped (graphs : List SymbolGraph) (o : CatalogOptions) :
    let st := (build graphs o).1.model.store
    ∀ s ∈ st.symbols, ∃ first, firstInserted? graphs s.id = some first ∧
      s.comment = (if ∃ c ∈ first.comment, DropsComment graphs o st s c then none
        else first.comment) ∧
      s.origin = (recordedOrigins (ordered graphs) s.id).getLast? := by
  intro st s hs
  obtain ⟨s₀, hs₀, hdeclared, hcomment, horigin⟩ := exists_ingested graphs o hs
  obtain ⟨first, hfirst, heq⟩ := SymbolStore.exists_first hs₀
  have hid : s.id = s₀.id := (congrArg Symbol.id hdeclared :)
  have hsame : s₀.comment = first.comment := by rw [heq]
  have hnone : s₀.origin = none := by
    obtain ⟨g, -, hmem⟩ := List.mem_flatMap.mp (List.mem_of_find?_eq_some hfirst)
    have horigin : s₀.origin = first.origin := by rw [heq]
    exact horigin.trans (origin_of_mem_inserted hmem)
  refine ⟨first, ?_, ?_, ?_⟩
  · rw [hid]
    exact hfirst
  · rw [hcomment, Symbol.comment_changed, ← hsame]
    simp only [any_drops_iff_dropsComment graphs o hdeclared]
    rfl
  · rw [horigin, Symbol.origin_changed, recordedOrigins_eq, hnone, Option.or_none, hid]

/-- A method that its class inherits from another module, together with its comment. -/
def heirGraph : SymbolGraph where
  moduleName := "Kit"
  symbols := [
    { language := .swift, id := "c:W", kind := .class_, title := "Widget", path := ["Widget"] },
    { language := .swift, id := "c:W.spin", kind := .method, title := "spin",
      path := ["Widget", "spin"], comment := some ⟨["Spins once."], some "Base"⟩ }]
  edges := [
    { kind := .memberOf, source := "c:W.spin", target := "c:W", origin := some ⟨"spin", "s:Base.spin"⟩ }]

/-- The method is documented without the comment that comes with it. -/
theorem inherited_comments_dropped_heir :
    let st := (build [heirGraph] ⟨"org.example.kit", false⟩).1.model.store
    ∃ spin ∈ st.symbols, spin.id = "c:W.spin" ∧ spin.comment = none ∧
      spin.origin = some ⟨"spin", "s:Base.spin"⟩ ∧
      (firstInserted? [heirGraph] "c:W.spin").bind (·.comment) = some ⟨["Spins once."], some "Base"⟩ := by
  intro st
  let spin : Symbol := (st.get? "c:W.spin").get (by decide +kernel)
  have hmem : spin ∈ st.symbols := by decide +kernel
  obtain ⟨first, hfirst, hcomment, horigin⟩ :=
    inherited_comments_dropped [heirGraph] ⟨"org.example.kit", false⟩ spin hmem
  have hentry : firstInserted? [heirGraph] spin.id = some _ := rfl
  cases hfirst.symm.trans hentry
  rw [if_pos (by decide +kernel)] at hcomment
  exact ⟨spin, hmem, by decide +kernel, hcomment, horigin.trans (by decide +kernel), by decide +kernel⟩

end Catalog

end SymbolLinks
