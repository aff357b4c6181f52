import Mathlib.Tactic.Tauto
import SymbolLinks.Proofs.EdgeOutcomes
import SymbolLinks.Proofs.ListedFacts

/-! Relations stand on both of their ends. The plan of an edge between two symbols of the
model has one side for its source and the other for its target (`Edge.Merges.mirrored`), so
after any number of edges each side that is listed has its counterpart. -/
namespace SymbolLinks

namespace Edge.Sides

variable {forward backward forward' backward' : TopicReference → Relation}

/-- No relation is written on a source and on a target. -/
theorem forward_ne (h : Sides forward backward) (h' : Sides forward' backward')
    (x y : TopicReference) : forward x ≠ backward' y := by
  cases h <;> cases h' <;> exact fun heq => Relation.noConfusion heq

/-- Two relations have the same forward side exactly if they have the same backward
side. -/
theorem forward_eq_iff (h : Sides forward backward) (h' : Sides forward' backward')
    (a b a' b' : String) : (a = a' ∧ forward (.resolved b) = forward' (.resolved b')) ↔
      (b = b' ∧ backward (.resolved a) = backward' (.resolved a')) := by
  cases h <;> cases h' <;> simp <;> tauto

end Edge.Sides

namespace Model

/-- Whether the symbol stored under `a` lists a relation under a selector. -/
def Lists (m : Model) (a : String) (sel : Selector) (r : Relation) : Prop :=
  ∃ s, m.store.get? a = some s ∧ r ∈ (s.relationSection sel).relations

/-- Every listed side of a relation between two symbols of the model has its
counterpart on the other symbol. -/
def Mirrored (m : Model) : Prop :=
  ∀ ⦃forward backward⦄, Edge.Sides forward backward → ∀ a b sel,
    m.Lists a sel (forward (.resolved b)) ↔ m.Lists b sel (backward (.resolved a))

end Model

/-- A plan that writes a side of a relation to a symbol of the model exactly if it writes the
counterpart. -/
def Plan.Mirrored (m : Model) (p : Plan) : Prop :=
  ∀ ⦃forward backward⦄, Edge.Sides forward backward → ∀ a b sel,
    (m.store.contains a = true ∧ ⟨a, .relate sel (forward (.resolved b))⟩ ∈ p.changes) ↔
      (m.store.contains b = true ∧ ⟨b, .relate sel (backward (.resolved a))⟩ ∈ p.changes)

theorem Change.fact?_eq_relation_iff {c : Change} {sel : Selector} {r : Relation} :
    c.fact? = some (.relation sel r) ↔ c = .relate sel r := by
  cases c <;> simp [fact?]

section Plans

variable {m : Model} {p : Plan} {a : String} {sel : Selector} {r : Relation}

theorem Model.lists_plan : (p.model m).Lists a sel r ↔
    m.Lists a sel r ∨ (m.store.contains a = true ∧ ⟨a, .relate sel r⟩ ∈ p.changes) := by
  rw [Lists, Plan.get?_model, Lists, SymbolStore.contains_eq_isSome_get?]
  cases hs : m.store.get? a with
  | none => simp
  | some s =>
    have hplanned : r ∈ ((s.changed (changesOf s.id p.changes)).relationSection sel).relations ↔
        _ := Symbol.holds_planned (f := .relation sel r)
    rw [SymbolStore.id_of_get? hs] at hplanned
    simpa [Symbol.Holds, Change.fact?_eq_relation_iff, SymbolStore.id_of_get? hs] using hplanned

theorem Model.Mirrored.plan (h : m.Mirrored) (hp : p.Mirrored m) : (p.model m).Mirrored := by
  intro forward backward sides a b sel
  rw [lists_plan, lists_plan]
  exact or_congr (h sides a b sel) (hp sides a b sel)

/-- The two sides of a relation are written together, also when the ends are the same. -/
theorem Edge.Merges.mirrored {e : Edge} {o : MergeOptions} (h : e.Merges o sel m p) :
    p.Mirrored m := by
  intro forward backward sides a b sel'
  cases h with
  | related sides' source target =>
    have hforward := sides.forward_ne sides' (.resolved b) (.resolved e.source)
    have hbackward := (sides'.forward_ne sides (.resolved e.target) (.resolved a)).symm
    have hsame := sides.forward_eq_iff sides' a b e.source e.target
    have ha : a = e.source ∨ a = e.target → m.store.contains a = true := by
      rintro (rfl | rfl) <;> assumption
    have hb : b = e.source ∨ b = e.target → m.store.contains b = true := by
      rintro (rfl | rfl) <;> assumption
    simp only [List.mem_cons, AddressedChange.mk.injEq, Change.relate.injEq, List.not_mem_nil,
      or_false]
    tauto
  | relatedOutside sides' =>
    -- A relation to a symbol outside the model has no counterpart to keep.
    cases sides <;> cases sides' <;> simp
  | nothing | implemented | implementedOutside | required | constrained => simp

theorem Edge.Outcome.mirrored {e : Edge} {o : MergeOptions} (h : e.Outcome o sel m p) :
    p.Mirrored m := by
  cases h with
  | refused _ _ => exact fun _ _ _ a b _ => by simp
  | merged _ plan => exact plan.mirrored

end Plans

namespace Model

variable {m : Model} {a : String} {sel : Selector} {r : Relation}

theorem Mirrored.mergeCalls (h : m.Mirrored) (calls : List MergeCall) :
    (m.mergeCalls calls).Mirrored := by
  refine List.foldlRecOn (motive := Mirrored) calls _ h fun m hm c _ => ?_
  obtain ⟨p, hp, hrun⟩ := m.exists_outcome c.extended c.options c.selector c.edge
  rw [hrun m (.refl m)]
  exact hm.plan hp.mirrored

/-- No symbol has a relation yet. -/
def Unrelated (m : Model) : Prop :=
  ∀ s ∈ m.store.symbols, ∀ sec ∈ s.relations.values, sec.relations = []

instance (m : Model) : Decidable m.Unrelated :=
  inferInstanceAs (Decidable (∀ s ∈ m.store.symbols, ∀ sec ∈ s.relations.values, sec.relations = []))

theorem Unrelated.not_lists (h : m.Unrelated) : ¬ m.Lists a sel r := by
  rintro ⟨s, hs, hr⟩
  unfold Symbol.relationSection at hr
  cases hsec : s.relations.get? sel with
  | none => simp [hsec] at hr
  | some sec =>
    have hmem : sec ∈ s.relations.values :=
      List.mem_map.mpr ⟨(sel, sec), KeyMap.mem_entries_iff.mpr hsec, rfl⟩
    rw [hsec, Option.getD_some, h s (SymbolStore.mem_of_get? hs) sec hmem] at hr
    cases hr

theorem Unrelated.mirrored (h : m.Unrelated) : m.Mirrored :=
  fun _ _ _ _ _ _ => iff_of_false h.not_lists h.not_lists

theorem lists_iff_of_get? {s : Symbol} (hs : m.store.get? a = some s) :
    m.Lists a sel r ↔ r ∈ (s.relationSection sel).relations := by
  simp [Lists, hs]

/-- Starting from symbols without relations, whatever edges are merged under
whatever settings: a symbol lists another one as what it conforms to or inherits
from exactly if that one lists it back, under the same selector and constraints. -/
theorem relations_mirrored (m : Model) (calls : List MergeCall) (h : m.Unrelated) {A B : Symbol}
    (hA : (m.mergeCalls calls).store.get? A.id = some A)
    (hB : (m.mergeCalls calls).store.get? B.id = some B) (sel : Selector) :
    (∀ cs, .conformsTo cs (.resolved B.id) ∈ (A.relationSection sel).relations ↔
      .conformingType cs (.resolved A.id) ∈ (B.relationSection sel).relations) ∧
    (.inheritsFrom (.resolved B.id) ∈ (A.relationSection sel).relations ↔
      .inheritedBy (.resolved A.id) ∈ (B.relationSection sel).relations) := by
  have hmirrored := h.mirrored.mergeCalls calls
  constructor
  · intro cs
    rw [← lists_iff_of_get? hA, ← lists_iff_of_get? hB]
    exact hmirrored (.conformance cs) A.id B.id sel
  · rw [← lists_iff_of_get? hA, ← lists_iff_of_get? hB]
    exact hmirrored .inheritance A.id B.id sel

/-- The structure conforms to the protocol on one platform, and the protocol to
itself, twice. -/
def conformanceCalls : List MergeCall :=
  let call := fun (source : String) (platform : Option String) => {
    extended := fun _ => none
    options := ⟨"org.example.Kit", false, "Kit"⟩
    selector := ⟨.swift, platform⟩
    edge := { kind := .conformsTo, source, target := "s:Shape", constraints := [] } }
  [call "s:Box" (some "macosx"), call "s:Shape" none, call "s:Shape" none]

theorem relations_mirrored_conformancePair :
    conformancePair.Unrelated ∧
    ∃ box shape, (conformancePair.mergeCalls conformanceCalls).store.get? "s:Box" = some box ∧
      (conformancePair.mergeCalls conformanceCalls).store.get? "s:Shape" = some shape ∧
      .conformingType [] (.resolved "s:Box") ∈ (shape.relationSection ⟨.swift, some "macosx"⟩).relations ∧
      .inheritedBy (.resolved "s:Shape") ∈ (shape.relationSection ⟨.swift, none⟩).relations := by
  have hunrelated : conformancePair.Unrelated := by decide
  let merged := (conformancePair.mergeCalls conformanceCalls).store
  let box : Symbol := (merged.get? "s:Box").get (by decide)
  let shape : Symbol := (merged.get? "s:Shape").get (by decide)
  have hbox : merged.get? box.id = some box := by decide
  have hshape : merged.get? shape.id = some shape := by decide
  refine ⟨hunrelated, box, shape, hbox, hshape, ?_, ?_⟩
  · exact ((relations_mirrored conformancePair conformanceCalls hunrelated hbox hshape _).1 []).mp
      (by decide)
  · exact (relations_mirrored conformancePair conformanceCalls hunrelated hshape hshape _).2.mp
      (by decide)

end Model

end SymbolLinks
