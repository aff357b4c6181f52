import SymbolLinks.Proofs.KeyMapLaws
import SymbolLinks.Proofs.ListLaws
import SymbolLinks.Proofs.MergeChanges

/-! What a symbol lists. Merging adds facts to a symbol, each under its selector, and removes
none: after a list of changes a symbol lists what it listed before and what the changes add,
whatever their order (`Symbol.holds_changed`). -/
namespace SymbolLinks

/-! ## Sections of a symbol -/

namespace Symbol

def relationSection (s : Symbol) (sel : Selector) : RelationSection := (s.relations.get? sel).getD {}

def implementationSection (s : Symbol) (sel : Selector) : ImplementationSection :=
  (s.implementations.get? sel).getD {}

/-- The constraints of the extension that declares a symbol. -/
def extensionConstraints (s : Symbol) : List Constraint := s.extensionInfo.elim [] (·.constraints)

theorem relationSection_modifyRelations (s : Symbol) (sel sel' : Selector)
    (f : RelationSection → RelationSection) : (s.modifyRelations sel f).relationSection sel' =
      if sel' = sel then f (s.relationSection sel') else s.relationSection sel' := by
  by_cases h : sel' = sel
  · subst h
    simp [relationSection, modifyRelations]
  · simp [relationSection, modifyRelations, KeyMap.get?_alter_of_ne _ _ h, h]

theorem implementationSection_modifyImplementations (s : Symbol) (sel sel' : Selector)
    (f : ImplementationSection → ImplementationSection) :
    (s.modifyImplementations sel f).implementationSection sel' =
      if sel' = sel then f (s.implementationSection sel') else s.implementationSection sel' := by
  by_cases h : sel' = sel
  · subst h
    simp [implementationSection, modifyImplementations]
  · simp [implementationSection, modifyImplementations, KeyMap.get?_alter_of_ne _ _ h, h]

end Symbol

/-! ## Facts -/

/-- Something that merging adds to a symbol. -/
inductive Fact where
  | relation (sel : Selector) (r : Relation)
  | implementation (sel : Selector) (i : Implementation)
  /-- The target of a relation has a display name. -/
  | namedTarget (sel : Selector) (id : String)
  | namedRequirement (sel : Selector) (id : String)
  | constraint (c : Constraint)

/-- Whether a symbol lists a fact. -/
def Symbol.Holds (s : Symbol) : Fact → Prop
  | .relation sel r => r ∈ (s.relationSection sel).relations
  | .implementation sel i => i ∈ (s.implementationSection sel).implementations
  | .namedTarget sel id => id ∈ (s.relationSection sel).fallbacks.keys
  | .namedRequirement sel id => id ∈ (s.implementationSection sel).fallbacks.keys
  | .constraint c => c ∈ s.extensionConstraints

/-- The fact that a change adds. -/
def Change.fact? : Change → Option Fact
  | .relate sel r => some (.relation sel r)
  | .nameTarget sel id _ => some (.namedTarget sel id)
  | .implement sel i => some (.implementation sel i)
  | .nameRequirement sel id _ => some (.namedRequirement sel id)
  | .constrain _ c => some (.constraint c)
  | .require _ | .setOrigin _ | .dropComment _ _ => none

section Facts

variable {s : Symbol} {f : Fact} {sel : Selector}

/-- A change of the relations under one selector adds a fact, if it does so to the
section. -/
theorem Symbol.holds_modifyRelations {g : RelationSection → RelationSection} {new : Fact}
    (hnew : (∃ r, new = .relation sel r) ∨ ∃ id, new = .namedTarget sel id)
    (hrelations : ∀ sec r, r ∈ (g sec).relations ↔ r ∈ sec.relations ∨ new = .relation sel r)
    (hnames : ∀ sec id, id ∈ (g sec).fallbacks.keys ↔
      id ∈ sec.fallbacks.keys ∨ new = .namedTarget sel id) :
    (s.modifyRelations sel g).Holds f ↔ s.Holds f ∨ new = f := by
  cases f with
  | relation sel' r =>
    by_cases h : sel' = sel
    · subst h
      simp [Holds, relationSection_modifyRelations, hrelations]
    · have hne : new ≠ .relation sel' r := by
        rintro rfl
        simp [h] at hnew
      simp [Holds, relationSection_modifyRelations, h, hne]
  | namedTarget sel' id =>
    by_cases h : sel' = sel
    · subst h
      simp [Holds, relationSection_modifyRelations, hnames]
    · have hne : new ≠ .namedTarget sel' id := by
        rintro rfl
        simp [h] at hnew
      simp [Holds, relationSection_modifyRelations, h, hne]
  | implementation | namedRequirement | constraint =>
    refine (or_iff_left ?_).symm
    rintro rfl
    simp at hnew

theorem Symbol.holds_modifyImplementations {g : ImplementationSection → ImplementationSection}
    {new : Fact} (hnew : (∃ i, new = .implementation sel i) ∨ ∃ id, new = .namedRequirement sel id)
    (himplementations : ∀ sec i, i ∈ (g sec).implementations ↔
      i ∈ sec.implementations ∨ new = .implementation sel i)
    (hnames : ∀ sec id, id ∈ (g sec).fallbacks.keys ↔
      id ∈ sec.fallbacks.keys ∨ new = .namedRequirement sel id) :
    (s.modifyImplementations sel g).Holds f ↔ s.Holds f ∨ new = f := by
  cases f with
  | implementation sel' i =>
    by_cases h : sel' = sel
    · subst h
      simp [Holds, implementationSection_modifyImplementations, himplementations]
    · have hne : new ≠ .implementation sel' i := by
        rintro rfl
        simp [h] at hnew
      simp [Holds, implementationSection_modifyImplementations, h, hne]
  | namedRequirement sel' id =>
    by_cases h : sel' = sel
    · subst h
      simp [Holds, implementationSection_modifyImplementations, hnames]
    · have hne : new ≠ .namedRequirement sel' id := by
        rintro rfl
        simp [h] at hnew
      simp [Holds, implementationSection_modifyImplementations, h, hne]
  | relation | namedTarget | constraint =>
    refine (or_iff_left ?_).symm
    rintro rfl
    simp at hnew

theorem Symbol.holds_addExtensionConstraint {extendedModule : String} {kind : Kind} {c : Constraint} :
    (s.addExtensionConstraint extendedModule kind c).Holds f ↔ s.Holds f ∨ .constraint c = f := by
  cases f with
  | constraint c' =>
    cases hinfo : s.extensionInfo with
    | none => simp [addExtensionConstraint, Holds, extensionConstraints, hinfo, mem_addNew, eq_comm]
    | some info => simp [addExtensionConstraint, Holds, extensionConstraints, hinfo, mem_addNew, eq_comm]
  | relation | implementation | namedTarget | namedRequirement =>
    refine (or_iff_left ?_).symm
    rintro ⟨⟩

/-- A change adds its fact and no other. -/
theorem Change.holds_apply (c : Change) : (apply s c).Holds f ↔ s.Holds f ∨ c.fact? = some f := by
  have hnone : s.Holds f ↔ s.Holds f ∨ none = some f := by simp
  cases c with
  | relate sel r =>
    refine (Symbol.holds_modifyRelations (.inl ⟨r, rfl⟩) ?_ ?_).trans (or_congr_right Option.some_inj.symm)
    · simp [mem_addNew, eq_comm]
    · simp
  | nameTarget sel id name =>
    refine (Symbol.holds_modifyRelations (.inr ⟨id, rfl⟩) ?_ ?_).trans (or_congr_right Option.some_inj.symm)
    · simp
    · simp [KeyMap.mem_keys_insert, eq_comm]
  | implement sel i =>
    refine (Symbol.holds_modifyImplementations (.inl ⟨i, rfl⟩) ?_ ?_).trans (or_congr_right Option.some_inj.symm)
    · simp [mem_addNew, eq_comm]
    · simp
  | nameRequirement sel id name =>
    refine (Symbol.holds_modifyImplementations (.inr ⟨id, rfl⟩) ?_ ?_).trans (or_congr_right Option.some_inj.symm)
    · simp
    · simp [KeyMap.mem_keys_insert, eq_comm]
  | constrain extendedModule c =>
    exact Symbol.holds_addExtensionConstraint.trans (or_congr_right Option.some_inj.symm)
  | require | setOrigin | dropComment => cases f <;> exact hnone

/-- A symbol lists what it listed before and what its changes add. -/
theorem Symbol.holds_changed (cs : List Change) :
    (s.changed cs).Holds f ↔ s.Holds f ∨ ∃ c ∈ cs, c.fact? = some f := by
  induction cs generalizing s with
  | nil => simp [changed]
  | cons c cs ih =>
    show ((Change.apply s c).changed cs).Holds f ↔ _
    rw [ih, Change.holds_apply, or_assoc]
    simp

/-- A symbol after a plan lists what it listed before and what is addressed to it. -/
theorem Symbol.holds_planned {p : Plan} :
    (s.changed (changesOf s.id p.changes)).Holds f ↔
      s.Holds f ∨ ∃ c, ⟨s.id, c⟩ ∈ p.changes ∧ c.fact? = some f := by
  simp only [holds_changed, mem_changesOf]

end Facts

end SymbolLinks
