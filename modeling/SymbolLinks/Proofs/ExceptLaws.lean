/-! Opening computations that may fail. -/
namespace SymbolLinks

variable {ε α β : Type}

theorem bind_ok_iff {x : Except ε α} {f : α → Except ε β} {b : β} :
    x >>= f = .ok b ↔ ∃ a, x = .ok a ∧ f a = .ok b := by
  cases x <;> simp [bind, Except.bind]

/-- A traversal passes exactly if each of its steps does. -/
theorem mapM_ok_iff {f : α → Except ε β} {P : α → Prop} {g : α → β}
    (hf : ∀ a b, f a = .ok b ↔ P a ∧ b = g a) {as : List α} {bs : List β} :
    as.mapM f = .ok bs ↔ (∀ a ∈ as, P a) ∧ bs = as.map g := by
  induction as generalizing bs with
  | nil => simp [pure, Except.pure, eq_comm]
  | cons a as ih =>
    rw [List.mapM_cons, List.forall_mem_cons, List.map_cons]
    cases hfa : f a with
    | error e =>
      have hno : ¬ P a := fun hp => by
        rw [(hf a (g a)).mpr ⟨hp, rfl⟩] at hfa
        cases hfa
      simp [bind, Except.bind, hno]
    | ok b =>
      obtain ⟨hp, rfl⟩ := (hf a b).mp hfa
      cases hrest : as.mapM f with
      | error e =>
        have hno : ¬ ∀ a ∈ as, P a := fun hall => by
          rw [ih.mpr ⟨hall, rfl⟩] at hrest
          cases hrest
        simp [bind, Except.bind, hno]
      | ok cs =>
        obtain ⟨hall, rfl⟩ := ih.mp hrest
        rw [and_iff_right ⟨hp, hall⟩]
        simp [bind, Except.bind, pure, Except.pure, eq_comm]

end SymbolLinks
