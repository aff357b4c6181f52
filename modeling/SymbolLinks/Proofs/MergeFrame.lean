import SymbolLinks.Proofs.EdgeOrder

/-! What merging leaves alone. An edge reaches its source and the sections of its target
under one selector, and no other part of the model (`MergeCall.Reaches`). A run of merges is
a plan of changes that its edges reach (`exists_plan_mergeSteps`), so all else is as it was
before; and what was listed before is still listed, at the same positions. -/
namespace SymbolLinks

namespace Symbol

/-- A symbol and what it is after merges: declared alike, and listing at the same positions
whatever it listed. -/
structure Grows (s s' : Symbol) : Prop where
  declared : s'.declared = s.declared
  relations : ∀ sel, (s.relationSection sel).relations <+: (s'.relationSection sel).relations
  implementations : ∀ sel,
    (s.implementationSection sel).implementations <+: (s'.implementationSection sel).implementations
  constraints : s.extensionConstraints <+: s'.extensionConstraints

theorem Grows.refl (s : Symbol) : s.Grows s :=
  ⟨rfl, fun _ => List.prefix_refl _, fun _ => List.prefix_refl _, List.prefix_refl _⟩

theorem Grows.trans {s s' s'' : Symbol} (h : s.Grows s') (h' : s'.Grows s'') : s.Grows s'' where
  declared := h'.declared.trans h.declared
  relations sel := (h.relations sel).trans (h'.relations sel)
  implementations sel := (h.implementations sel).trans (h'.implementations sel)
  constraints := h.constraints.trans h'.constraints

theorem grows_modifyRelations (s : Symbol) (sel : Selector) {f : RelationSection → RelationSection}
    (hf : ∀ sec, sec.relations <+: (f sec).relations) : s.Grows (s.modifyRelations sel f) where
  declared := rfl
  relations := by
    intro sel'
    rw [relationSection_modifyRelations]
    split
    · exact hf _
    · exact List.prefix_refl _
  implementations _ := List.prefix_refl _
  constraints := List.prefix_refl _

theorem grows_modifyImplementations (s : Symbol) (sel : Selector)
    {f : ImplementationSection → ImplementationSection}
    (hf : ∀ sec, sec.implementations <+: (f sec).implementations) :
    s.Grows (s.modifyImplementations sel f) where
  declared := rfl
  relations _ := List.prefix_refl _
  implementations := by
    intro sel'
    rw [implementationSection_modifyImplementations]
    split
    · exact hf _
    · exact List.prefix_refl _
  constraints := List.prefix_refl _

theorem grows_addExtensionConstraint (s : Symbol) (extendedModule : String) (kind : Kind)
    (c : Constraint) : s.Grows (s.addExtensionConstraint extendedModule kind c) where
  declared := rfl
  relations _ := List.prefix_refl _
  implementations _ := List.prefix_refl _
  constraints := by
    unfold addExtensionConstraint extensionConstraints
    cases s.extensionInfo with
    | none => exact List.nil_prefix
    | some info => exact prefix_addNew info.constraints c

theorem grows_apply (s : Symbol) (c : Change) : s.Grows (c.apply s) := by
  cases c with
  | relate sel r =>
    exact s.grows_modifyRelations sel
      (f := fun sec => { sec with relations := addNew sec.relations r })
      fun sec => prefix_addNew sec.relations r
  | nameTarget sel id name =>
    exact s.grows_modifyRelations sel
      (f := fun sec => { sec with fallbacks := sec.fallbacks.insert id name })
      fun sec => List.prefix_refl sec.relations
  | implement sel i =>
    exact s.grows_modifyImplementations sel
      (f := fun sec => { sec with implementations := addNew sec.implementations i })
      fun sec => prefix_addNew sec.implementations i
  | nameRequirement sel id name =>
    exact s.grows_modifyImplementations sel
      (f := fun sec => { sec with fallbacks := sec.fallbacks.insert id name })
      fun sec => List.prefix_refl sec.implementations
  | constrain extendedModule c => exact s.grows_addExtensionConstraint extendedModule .protocol c
  | require | setOrigin | dropComment =>
    exact ⟨rfl, fun _ => List.prefix_refl _, fun _ => List.prefix_refl _, List.prefix_refl _⟩

theorem grows_changed (s : Symbol) (cs : List Change) : s.Grows (s.changed cs) :=
  List.foldlRecOn (motive := s.Grows) cs _ (.refl s) fun s' hs' c _ => hs'.trans (s'.grows_apply c)

end Symbol

/-! ## Sections and the rest of a symbol -/

namespace Change

/-- The selector of the section that a change is about. The other changes are about a symbol
as such. -/
def selector? : Change → Option Selector
  | .relate sel _ | .nameTarget sel _ _ | .implement sel _ | .nameRequirement sel _ _ => some sel
  | .require _ | .constrain _ _ | .setOrigin _ | .dropComment _ _ => none

theorem sections_apply (s : Symbol) {c : Change} {sel : Selector} (h : c.selector? ≠ some sel) :
    (c.apply s).relations.get? sel = s.relations.get? sel ∧
      (c.apply s).implementations.get? sel = s.implementations.get? sel := by
  cases c with
  | relate sel' | nameTarget sel' =>
    have hne : sel ≠ sel' := fun heq => h (congrArg some heq.symm)
    exact ⟨KeyMap.get?_alter_of_ne _ _ hne, rfl⟩
  | implement sel' | nameRequirement sel' =>
    have hne : sel ≠ sel' := fun heq => h (congrArg some heq.symm)
    exact ⟨rfl, KeyMap.get?_alter_of_ne _ _ hne⟩
  | require | constrain | setOrigin | dropComment => exact ⟨rfl, rfl⟩

end Change

namespace Symbol

/-- Two symbols that differ in their sections at most, as far as merging is concerned. -/
structure SameBesideSections (s s' : Symbol) : Prop where
  isRequired : s'.isRequired = s.isRequired
  origin : s'.origin = s.origin
  comment : s'.comment = s.comment
  extensionInfo : s'.extensionInfo = s.extensionInfo

theorem sections_changed (s : Symbol) {cs : List Change} {sel : Selector}
    (h : ∀ c ∈ cs, c.selector? ≠ some sel) :
    (s.changed cs).relations.get? sel = s.relations.get? sel ∧
      (s.changed cs).implementations.get? sel = s.implementations.get? sel := by
  refine List.foldlRecOn (motive := fun s' : Symbol => s'.relations.get? sel = s.relations.get? sel ∧
    s'.implementations.get? sel = s.implementations.get? sel) cs _ ⟨rfl, rfl⟩ fun s' hs' c hc => ?_
  have happly := Change.sections_apply s' (h c hc)
  exact ⟨happly.1.trans hs'.1, happly.2.trans hs'.2⟩

theorem sameBesideSections_changed (s : Symbol) {cs : List Change}
    (h : ∀ c ∈ cs, c.selector? ≠ none) : s.SameBesideSections (s.changed cs) := by
  refine List.foldlRecOn (motive := s.SameBesideSections) cs _ ⟨rfl, rfl, rfl, rfl⟩
    fun s' hs' c hc => ?_
  cases c with
  | relate | nameTarget | implement | nameRequirement =>
    exact ⟨hs'.isRequired, hs'.origin, hs'.comment, hs'.extensionInfo⟩
  | require | constrain | setOrigin | dropComment => exact absurd rfl (h _ hc)

end Symbol

/-! ## What an edge reaches -/

namespace Model

namespace MergeCall

/-- Whether a call is about the symbol with an identifier. -/
def Names (c : MergeCall) (id : String) : Prop := id = c.edge.source ∨ id = c.edge.target

/-- Whether a call may make a change: on the source of its edge or in a section of the target,
and in sections of its selector only. -/
structure Reaches (c : MergeCall) (a : AddressedChange) : Prop where
  place : a.id = c.edge.source ∨ (a.id = c.edge.target ∧ a.change.selector? ≠ none)
  selector : ∀ sel, a.change.selector? = some sel → sel = c.selector

theorem Reaches.names {c : MergeCall} {a : AddressedChange} (h : c.Reaches a) : c.Names a.id :=
  h.place.imp_right And.left

theorem reaches_of_merges {c : MergeCall} {m : Model} {p : Plan}
    (h : c.edge.Merges c.options c.selector m p) : ∀ a ∈ p.changes, c.Reaches a := by
  -- A change of a section, at either end of the edge.
  have hsection : ∀ {id : String} {change : Change}, c.Names id →
      change.selector? = some c.selector → c.Reaches ⟨id, change⟩ := by
    intro id change hid hsel
    refine ⟨hid.imp_right fun htarget => ⟨htarget, by simp [hsel]⟩, fun sel h => ?_⟩
    exact Option.some.inj (h.symm.trans hsel)
  cases h with
  | nothing => exact fun _ ha => absurd ha List.not_mem_nil
  | related =>
    simp only [List.forall_mem_cons]
    exact ⟨hsection (.inl rfl) rfl, hsection (.inr rfl) rfl, fun _ ha => absurd ha List.not_mem_nil⟩
  | relatedOutside =>
    simp only [List.forall_mem_append, List.forall_mem_map, List.forall_mem_singleton]
    exact ⟨fun _ _ => hsection (.inl rfl) rfl, hsection (.inl rfl) rfl⟩
  | implemented =>
    simp only [List.forall_mem_singleton]
    exact hsection (.inr rfl) rfl
  | implementedOutside =>
    simp only [List.forall_mem_map]
    exact fun _ _ => hsection (.inl rfl) rfl
  | required | constrained =>
    simp only [List.forall_mem_singleton]
    exact ⟨.inl rfl, fun sel h => by cases h⟩

theorem reaches_of_outcome {c : MergeCall} {m : Model} {p : Plan}
    (h : c.edge.Outcome c.options c.selector m p) : ∀ a ∈ p.changes, c.Reaches a := by
  cases h with
  | refused _ _ => exact fun _ ha => absurd ha List.not_mem_nil
  | merged _ plan => exact reaches_of_merges plan

theorem reaches_originPlan (c : MergeCall) (m : Model) :
    ∀ a ∈ (c.edge.originPlan c.options m).changes, c.Reaches a := by
  unfold Edge.originPlan
  split
  · exact fun _ ha => absurd ha List.not_mem_nil
  · simp only [List.forall_mem_cons]
    exact ⟨⟨.inl rfl, fun sel h => by cases h⟩, ⟨.inl rfl, fun sel h => by cases h⟩,
      fun _ ha => absurd ha List.not_mem_nil⟩

end MergeCall

/-- Merge one edge and then record the origin of what it says to be inherited. -/
def mergeStep (m : Model) (c : MergeCall) : Model :=
  c.edge.mergeOrigin c.options (m.mergeEdge c.extended c.options c.selector c.edge).1

def mergeSteps (m : Model) (calls : List MergeCall) : Model := calls.foldl mergeStep m

theorem exists_plan_mergeStep (m : Model) (c : MergeCall) :
    ∃ p : Plan, (∀ a ∈ p.changes, c.Reaches a) ∧ m.mergeStep c = p.model m := by
  obtain ⟨p, hp, hrun⟩ := m.exists_outcome c.extended c.options c.selector c.edge
  refine ⟨p.append (c.edge.originPlan c.options (p.model m)), ?_, ?_⟩
  · exact List.forall_mem_append.mpr ⟨MergeCall.reaches_of_outcome hp, c.reaches_originPlan _⟩
  · rw [mergeStep, hrun m (.refl m), Edge.mergeOrigin_eq, Plan.model_append]
    rfl

/-- A run of merges makes changes that its calls reach. -/
theorem exists_plan_mergeSteps (m : Model) (calls : List MergeCall) :
    ∃ p : Plan, (∀ a ∈ p.changes, ∃ c ∈ calls, c.Reaches a) ∧ m.mergeSteps calls = p.model m := by
  induction calls generalizing m with
  | nil =>
    exact ⟨{}, fun _ ha => absurd ha List.not_mem_nil, (Plan.model_refused [] m).symm⟩
  | cons c calls ih =>
    obtain ⟨p, hp, hstep⟩ := m.exists_plan_mergeStep c
    obtain ⟨q, hq, hrun⟩ := ih (m.mergeStep c)
    refine ⟨p.append q, List.forall_mem_append.mpr ⟨fun a ha => ?_, fun a ha => ?_⟩, ?_⟩
    · exact ⟨c, List.mem_cons_self, hp a ha⟩
    · obtain ⟨c', hc', hreach⟩ := hq a ha
      exact ⟨c', List.mem_cons_of_mem c hc', hreach⟩
    · rw [Plan.model_append, ← hstep]
      exact hrun

/-! ## The frame of a run -/

/-- A symbol before and after a run of merges. -/
structure Framed (calls : List MergeCall) (s s' : Symbol) : Prop extends s.Grows s' where
  other : (∀ c ∈ calls, ¬ c.Names s.id) → s' = s
  /-- Sections change under the selectors of the calls that are about the symbol. -/
  sections : ∀ sel, (∀ c ∈ calls, c.Names s.id → c.selector ≠ sel) →
    s'.relations.get? sel = s.relations.get? sel ∧
      s'.implementations.get? sel = s.implementations.get? sel
  /-- All else is changed on sources only. -/
  target : (∀ c ∈ calls, s.id ≠ c.edge.source) → s.SameBesideSections s'

theorem framed_changed {calls : List MergeCall} {changes : List AddressedChange}
    (h : ∀ a ∈ changes, ∃ c ∈ calls, c.Reaches a) (s : Symbol) :
    Framed calls s (s.changed (changesOf s.id changes)) where
  toGrows := s.grows_changed _
  other := by
    intro hother
    have hnone : changesOf s.id changes = [] := by
      refine List.eq_nil_iff_forall_not_mem.mpr fun change hchange => ?_
      obtain ⟨c, hc, hreach⟩ := h _ (mem_changesOf.mp hchange)
      exact hother c hc hreach.names
    rw [hnone]
    rfl
  sections := by
    refine fun sel hsel => s.sections_changed fun change hchange heq => ?_
    obtain ⟨c, hc, hreach⟩ := h _ (mem_changesOf.mp hchange)
    exact hsel c hc hreach.names (hreach.selector sel heq).symm
  target := by
    refine fun hsource => s.sameBesideSections_changed fun change hchange => ?_
    obtain ⟨c, hc, hreach⟩ := h _ (mem_changesOf.mp hchange)
    rcases hreach.place with hid | ⟨-, hsection⟩
    · exact absurd hid (hsource c hc)
    · exact hsection

/-- The same symbols stand at the same places and around the same symbols, and there are
the same pages. -/
structure SameOutline (m m' : Model) : Prop where
  size : m'.store.size = m.store.size
  lookup : ∀ id, m'.store.indexOf? id = m.store.indexOf? id
  parent : ∀ {i : Nat} {s s' : Symbol}, m.store.symbols[i]? = some s → m'.store.symbols[i]? = some s' →
    (m'.store.parentOf? s').map (·.id) = (m.store.parentOf? s).map (·.id)
  pages : m'.topics.nodes = m.topics.nodes

theorem Like.sameOutline {m m' : Model} (h : m'.Like m) : m.SameOutline m' where
  size := by
    have hlength := congrArg List.length h.declared
    rwa [SymbolStore.declared, SymbolStore.declared, List.length_map, List.length_map] at hlength
  lookup := by
    intro id
    have hids : m'.store.symbols.map (·.id) = m.store.symbols.map (·.id) := by
      have hmap := congrArg (List.map Symbol.id) h.declared
      rwa [SymbolStore.declared, SymbolStore.declared, List.map_map, List.map_map] at hmap
    exact (m'.store.index_agrees id).trans (hids ▸ (m.store.index_agrees id).symm)
  parent := by
    intro i s s' hs hs'
    have hdeclared : s'.declared = s.declared := by
      have hat := congrArg (·[i]?) h.declared
      simpa [SymbolStore.declared, hs, hs'] using hat
    have hparent := congrArg (Option.map Symbol.id) (h.parent hdeclared)
    rwa [Option.map_map, Option.map_map] at hparent
  pages := h.nodes

/-- Whatever edges are merged, each under its own settings and with its origin recorded: a
symbol that no edge names is as it was. The others are declared as before, have their
sections of other selectors as before, and unless they are the source of some edge also
their flag, origin, comment and extension. Nothing that was listed is moved or removed, and
the symbols, their places, what is around them and the pages stay the same. One edge is a
run of one step. -/
theorem merging_changes_only_what_edges_name (m : Model) (calls : List MergeCall) :
    List.Forall₂ (Framed calls) m.store.symbols (m.mergeSteps calls).store.symbols ∧
      m.SameOutline (m.mergeSteps calls) := by
  obtain ⟨p, hp, hrun⟩ := m.exists_plan_mergeSteps calls
  rw [hrun]
  refine ⟨?_, (like_plan p m).sameOutline⟩
  simp only [Plan.model, SymbolStore.withSymbols, List.forall₂_map_right_iff]
  exact List.forall₂_same.mpr fun s _ => framed_changed hp s

end Model

end SymbolLinks
