import Mathlib.Data.List.TakeWhile
import SymbolLinks.Json.Decode
import SymbolLinks.Proofs.JsonText

/-! Typed values that are written as JSON and read back: natural numbers, lists
and the fields of records. -/
namespace SymbolLinks.Json

/-! ## Natural numbers -/

/-- Numbers are written without leading zeros. -/
theorem head_toDigits {n : Nat} (h : 0 < n) : ∃ c cs, Nat.toDigits 10 n = c :: cs ∧ c ≠ '0' := by
  induction n using Nat.strongRecOn with
  | ind n ih =>
    by_cases hn : n < 10
    · have hdigit : ∀ m < 10, 0 < m → m.digitChar ≠ '0' := by decide
      exact ⟨n.digitChar, [], Nat.toDigits_of_lt_base hn, hdigit n hn h⟩
    · obtain ⟨c, cs, hcs, hc⟩ := ih (n / 10) (by omega) (by omega)
      refine ⟨c, cs ++ [(n % 10).digitChar], ?_, hc⟩
      rw [Nat.toDigits_of_base_le (by decide) (by omega), hcs]
      rfl

theorem isNumber_digits {c : Char} {cs : List Char} (hzero : c ≠ '0')
    (h : ∀ d ∈ c :: cs, d.isDigit = true) : Token.isNumber (c :: cs) = true := by
  obtain ⟨hc, hcs⟩ := List.forall_mem_cons.mp h
  have hminus : c ≠ '-' := by rintro rfl; revert hc; decide
  have hdrop : Token.dropDigits cs = [] := List.dropWhile_eq_nil_iff.mpr hcs
  have hint : Token.integerPart? (c :: cs) = some [] := by
    unfold Token.integerPart?
    split
    · rename_i heq
      exact absurd (List.cons.inj heq).1 hzero
    · simp only [Token.digits1?, hc, if_true, hdrop]
  unfold Token.isNumber
  split
  · rename_i heq
    exact absurd (List.cons.inj heq).1 hminus
  · simp only [hint]
    rfl

@[simp] theorem printable_nat (n : Nat) : Printable (.nat n) := by
  show Token.isNumber (toString n).toList = true
  rw [Nat.toString_eq_ofList_toDigits, String.toList_ofList]
  rcases Nat.eq_zero_or_pos n with rfl | hn
  · decide
  · obtain ⟨c, cs, hcs, hc⟩ := head_toDigits hn
    rw [hcs]
    refine isNumber_digits hc fun d hd => ?_
    exact Nat.isDigit_of_mem_toDigits (by decide) (by decide) (hcs ▸ hd)

theorem nat?_nat {n limit : Nat} (h : n ≤ limit) : nat? limit (.nat n) = some n := by
  have hvalue : digitsValue (Nat.toDigits 10 n) = n :=
    Nat.ofDigitChars_toDigits (by decide) (by decide)
  have hdigits : (Nat.toDigits 10 n).all Char.isDigit = true :=
    List.all_eq_true.mpr fun c hc => Nat.isDigit_of_mem_toDigits (by decide) (by decide) hc
  have hne : (Nat.toDigits 10 n).isEmpty = false := List.isEmpty_eq_false_iff.mpr Nat.toDigits_ne_nil
  simp only [nat, nat?, Nat.toString_eq_ofList_toDigits, String.toList_ofList, hvalue, hdigits, hne]
  rw [if_pos (by simpa using h)]

/-! ## Lists -/

theorem printable_ofList {α : Type} {f : α → Json} {xs : List α}
    (h : ∀ x ∈ xs, Printable (f x)) : Printable (.ofList f xs) :=
  printable_array_iff.mpr (List.forall_mem_map.mpr h)

theorem items?_ofList {α β : Type} {f : α → Json} {item : Json → Option β} {g : α → β}
    {xs : List α} (h : ∀ x ∈ xs, item (f x) = some (g x)) :
    items? item (.ofList f xs) = some (xs.map g) := by
  show (xs.map f).mapM item = some (xs.map g)
  induction xs with
  | nil => rfl
  | cons x xs ih =>
    obtain ⟨hx, hxs⟩ := List.forall_mem_cons.mp h
    rw [List.map_cons, List.mapM_cons, hx, ih hxs]
    rfl

/-! ## Records -/

theorem length_filter_key {members : List (String × Json)} (h : (members.map (·.1)).Nodup)
    (name : String) : (members.filter (·.1 == name)).length ≤ 1 := by
  have hcount : (members.map (·.1)).count name ≤ 1 := List.nodup_iff_count.mp h name
  rwa [List.count_eq_countP, List.countP_map, List.countP_eq_length_filter] at hcount

/-- An object that names no field twice is a record of its members. -/
theorem record?_object {members : List (String × Json)} (h : (members.map (·.1)).Nodup)
    (names : List String) : record? names (.object members) = some (members.lookup ·) := by
  refine if_pos (List.all_eq_true.mpr fun name _ => ?_)
  exact decide_eq_true (length_filter_key h name)

theorem keys_filterMap (fields : List (String × Option Json)) :
    ((fields.filterMap fun (k, v) => v.map (k, ·)).map (·.1)).Sublist (fields.map (·.1)) := by
  induction fields with
  | nil => exact .slnil
  | cons f fields ih =>
    obtain ⟨k, v⟩ := f
    cases v with
    | none => exact ih.cons k
    | some v => exact ih.cons_cons k

theorem lookup_filterMap {fields : List (String × Option Json)}
    (h : (fields.map (·.1)).Nodup) (name : String) :
    (fields.filterMap fun (k, v) => v.map (k, ·)).lookup name = (fields.lookup name).join := by
  induction fields with
  | nil => rfl
  | cons f fields ih =>
    obtain ⟨k, v⟩ := f
    obtain ⟨hnew, hrest⟩ := List.nodup_cons.mp h
    have ih := ih hrest
    by_cases hk : name = k
    · subst hk
      have hnone : fields.lookup name = none := List.lookup_eq_none_iff.mpr fun f hf =>
        bne_iff_ne.mpr fun heq => hnew (heq ▸ List.mem_map.mpr ⟨f, hf, rfl⟩)
      cases v with
      | none => simp [ih, hnone]
      | some v => simp
    · have hne : (name == k) = false := beq_false_of_ne hk
      cases v with
      | none => simp [ih, hne, List.lookup_cons]
      | some v => simp [ih, hne, List.lookup_cons]

theorem record?_objectOfSome {fields : List (String × Option Json)}
    (h : (fields.map (·.1)).Nodup) (names : List String) :
    record? names (.objectOfSome fields) = some fun name => (fields.lookup name).join := by
  rw [objectOfSome, record?_object ((keys_filterMap fields).nodup h)]
  exact congrArg some (funext (lookup_filterMap h))

section Fields

variable {α : Type} {r : Record} {name : String} {f : α → Json} {value : Json → Option α}

theorem required?_eq {j : Json} {a : α} (h : r name = some j) (hj : value j = some a) :
    r.required? name value = some a := by
  rw [Record.required?, h]
  exact hj

/-- A field that is left out has no value. -/
theorem optional?_eq {o : Option α} (h : r name = o.map f)
    (hf : ∀ a, o = some a → nullable? value (f a) = some (some a)) :
    r.optional? name value = some o := by
  unfold Record.optional?
  rw [h]
  cases o with
  | none => rfl
  | some a => exact hf a rfl

theorem optional?_text {o : Option String} (h : r name = o.map .string) :
    r.optional? name text? = some o := optional?_eq h fun _ _ => rfl

theorem listed?_eq {xs : List α} (h : r name = some (.ofList f xs))
    (hf : ∀ x ∈ xs, value (f x) = some x) : r.listed? name value = some xs := by
  unfold Record.listed?
  rw [h]
  exact (items?_ofList hf).trans (by rw [List.map_id'])

end Fields

theorem printable_objectOfSome {fields : List (String × Option Json)}
    (h : ∀ f ∈ fields, ∀ v, f.2 = some v → Printable v) : Printable (.objectOfSome fields) := by
  refine printable_object_iff.mpr fun m hm => ?_
  obtain ⟨⟨k, v⟩, hf, hv⟩ := List.mem_filterMap.mp hm
  obtain ⟨v, rfl, rfl⟩ := Option.map_eq_some_iff.mp hv
  exact h _ hf v rfl

end SymbolLinks.Json
