import Mathlib.Algebra.Group.Nat.Defs
import SymbolLinks.Digest.ShortHash

/-! The shape of short hashes: one to five digits of base 36. So a hash can be read
back as one when it stands in a link. -/
namespace SymbolLinks.ShortHash

theorem isDigit_digit {n : Nat} (h : n < 36) : isDigit (digit n) = true := by
  revert n
  decide

theorem numeral_ne_nil (n : Nat) : numeral n ≠ [] := by
  rw [numeral]
  split <;> simp

theorem exists_digit_of_mem_numeral {n : Nat} {c : Char} (h : c ∈ numeral n) :
    ∃ d, d < 36 ∧ c = digit d := by
  fun_induction numeral n with
  | case1 n hn => exact ⟨n, hn, List.mem_singleton.mp h⟩
  | case2 n hn ih =>
    rcases List.mem_append.mp h with h | h
    · exact ih h
    · exact ⟨n % 36, Nat.mod_lt n (by decide), List.mem_singleton.mp h⟩

theorem isDigit_of_mem_numeral {n : Nat} {c : Char} (h : c ∈ numeral n) : isDigit c = true := by
  obtain ⟨d, hd, rfl⟩ := exists_digit_of_mem_numeral h
  exact isDigit_digit hd

/-- A number below `36 ^ (k + 1)` has at most `k + 1` digits. -/
theorem length_numeral_le {k n : Nat} (h : n < 36 ^ (k + 1)) : (numeral n).length ≤ k + 1 := by
  induction k generalizing n with
  | zero =>
    rw [numeral, if_pos (by simpa using h)]
    simp
  | succ k ih =>
    rw [numeral]
    split
    · simp
    · have hdiv : n / 36 < 36 ^ (k + 1) := by
        rw [Nat.div_lt_iff_lt_mul (by decide), ← Nat.pow_succ]
        exact h
      rw [List.length_append, List.length_singleton]
      exact Nat.succ_le_succ (ih hdiv)

theorem residue_lt (digest : List UInt8) : residue digest < 36 ^ 5 := Nat.mod_lt _ (by decide)

/-- A hash reads as a hash, whatever it is a hash of. -/
theorem isHash_ofDigest (digest : List UInt8) : isHash (ofDigest digest).toList = true := by
  have hlength : (numeral (residue digest)).length ≤ 5 := length_numeral_le (residue_lt digest)
  have hne := numeral_ne_nil (residue digest)
  have hdigits : (numeral (residue digest)).all isDigit = true :=
    List.all_eq_true.mpr fun _ => isDigit_of_mem_numeral
  rw [ofDigest, String.toList_ofList, isHash, hdigits]
  simp only [Bool.and_true, Bool.and_eq_true, Bool.not_eq_true', List.isEmpty_eq_false_iff,
    decide_eq_true_eq]
  exact ⟨hne, by omega⟩

theorem isHash_ofIdentifier (id : String) : isHash (ofIdentifier id).toList = true :=
  isHash_ofDigest _

theorem isDigit_of_isHash {cs : List Char} (h : isHash cs = true) {c : Char} (hc : c ∈ cs) :
    isDigit c = true := by
  simp only [isHash, Bool.and_eq_true] at h
  exact List.all_eq_true.mp h.2 c hc

/-- A character that is no digit stands in no hash. -/
theorem not_mem_of_isHash {cs : List Char} (h : isHash cs = true) {c : Char}
    (hc : isDigit c = false) : c ∉ cs := by
  intro hmem
  rw [isDigit_of_isHash h hmem] at hc
  cases hc

end SymbolLinks.ShortHash
