import Mathlib.Data.List.Nodup
import SymbolLinks.Symbol

/-! Laws of lists: lists to which elements are added once, elements that are the only ones of
their kind, and properties that folds establish or keep. -/
namespace SymbolLinks

/-! ## Adding elements once -/

section AddNew

variable {α : Type} [DecidableEq α]

theorem mem_addNew {xs : List α} {x y : α} : y ∈ addNew xs x ↔ y ∈ xs ∨ y = x := by
  unfold addNew
  split
  · rename_i hx
    constructor
    · exact .inl
    · rintro (hy | rfl)
      · exact hy
      · exact hx
  · simp

theorem addNew_of_mem {xs : List α} {x : α} (h : x ∈ xs) : addNew xs x = xs := if_pos h

theorem nodup_addNew {xs : List α} (h : xs.Nodup) (x : α) : (addNew xs x).Nodup := by
  unfold addNew
  split
  · exact h
  · rename_i hx
    exact List.nodup_append.mpr ⟨h, by simp, fun y hy z hz heq =>
      hx (List.mem_singleton.mp hz ▸ heq ▸ hy)⟩

theorem prefix_addNew (xs : List α) (x : α) : xs <+: addNew xs x := by
  unfold addNew
  split
  · exact List.prefix_refl xs
  · exact List.prefix_append xs [x]

end AddNew

/-! ## Finding elements -/

section Elements

variable {α : Type}

theorem filter_eq_singleton {p : α → Bool} {x : α} {xs : List α} (h : xs.Nodup)
    (hx : x ∈ xs) (hpx : p x = true) (hunique : ∀ y ∈ xs, p y = true → y = x) :
    xs.filter p = [x] := by
  refine List.perm_singleton.mp ((List.perm_ext_iff_of_nodup (h.filter p) (by simp)).mpr ?_)
  intro y
  rw [List.mem_filter, List.mem_singleton]
  constructor
  · intro hy
    exact hunique y hy.1 hy.2
  · rintro rfl
    exact ⟨hx, hpx⟩

theorem eq_of_length_le_one {x y : α} {xs : List α} (h : xs.length ≤ 1) (hx : x ∈ xs)
    (hy : y ∈ xs) : x = y := by
  match xs, h with
  | [z], _ => rw [List.mem_singleton.mp hx, List.mem_singleton.mp hy]

theorem find?_eq_some_of_unique {p : α → Bool} {xs : List α} {x : α} (hx : x ∈ xs)
    (hp : p x = true) (honly : ∀ y ∈ xs, p y = true → y = x) : xs.find? p = some x := by
  cases hfind : xs.find? p with
  | none => exact absurd hp (List.find?_eq_none.mp hfind x hx)
  | some y => rw [honly y (List.mem_of_find?_eq_some hfind) (List.find?_some hfind)]

theorem getElem?_snoc {xs : List α} {x y : α} {i : ℕ} :
    (xs ++ [x])[i]? = some y ↔ xs[i]? = some y ∨ (i = xs.length ∧ y = x) := by
  rw [List.getElem?_append]
  split
  · rename_i hi
    simp [Nat.ne_of_lt hi]
  · rename_i hi
    rw [List.getElem?_eq_none (Nat.le_of_not_lt hi), List.getElem?_singleton]
    grind

end Elements

theorem lookup_cons_eq_some {κ ν : Type} [BEq κ] [LawfulBEq κ] {k k' : κ} {v w : ν}
    {table : List (κ × ν)} (h : ((k', w) :: table).lookup k = some v) :
    (k = k' ∧ v = w) ∨ table.lookup k = some v := by
  rw [List.lookup_cons] at h
  split at h
  · rename_i heq
    exact .inl ⟨eq_of_beq heq, (Option.some.inj h).symm⟩
  · exact .inr h

/-- A list that is sorted by a comparison is in its order. -/
theorem pairwise_mergeSort_isLE {α β : Type} {cmp : β → β → Ordering} [Std.TransCmp cmp]
    (f : α → β) (xs : List α) : (xs.mergeSort fun a b => (cmp (f a) (f b)).isLE).Pairwise
      fun a b => (cmp (f a) (f b)).isLE = true := by
  refine List.pairwise_mergeSort ?_ ?_ xs
  · intro a b c hab hbc
    exact Std.TransCmp.isLE_trans hab hbc
  · intro a b
    rw [Bool.or_eq_true]
    by_cases h : (cmp (f a) (f b)).isLE = true
    · exact .inl h
    · exact .inr (by rw [Std.OrientedCmp.lt_of_not_isLE h]; rfl)

/-! ## Folds -/

/-- A property that one step establishes and all steps keep holds after a fold. -/
theorem foldl_of_mem {α β : Type} {P : β → Prop} {f : β → α → β} {x : α} {xs : List α}
    (hx : x ∈ xs) (hstart : ∀ b, P (f b x)) (hkeep : ∀ b a, P b → P (f b a)) (b : β) :
    P (xs.foldl f b) := by
  obtain ⟨before, after, rfl⟩ := List.append_of_mem hx
  rw [List.foldl_append, List.foldl_cons]
  exact List.foldlRecOn (motive := P) after f (hstart _) fun b hb a _ => hkeep b a hb

/-- What every step of a fold adds, in order. -/
theorem foldl_added {α β γ : Type} {P : List γ → β → Prop} {step : β → α → β} {f : α → List γ}
    {xs : List α} (h : ∀ x ∈ xs, ∀ added b, P added b → P (added ++ f x) (step b x))
    {added : List γ} {b : β} (hb : P added b) : P (added ++ xs.flatMap f) (xs.foldl step b) := by
  induction xs generalizing added b with
  | nil => simpa using hb
  | cons x xs ih =>
    rw [List.flatMap_cons, ← List.append_assoc]
    exact ih (fun y hy => h y (List.mem_cons_of_mem x hy)) (h x (by simp) added b hb)

end SymbolLinks
