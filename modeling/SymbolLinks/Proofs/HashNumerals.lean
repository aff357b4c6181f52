import SymbolLinks.Proofs.ShortHashLaws

/-! Short hashes as numbers. A hash is the base-36 numeral of a residue of the first word of
the identifier's digest, with no zero in front of other digits. So two hashes are equal
exactly if the residues are, whatever function the digest is (`hashes_are_numerals`). -/
namespace SymbolLinks

namespace Sha256

theorem length_bigEndian (width n : ℕ) : (bigEndian width n).length = width := by
  simp [bigEndian]

theorem length_digest (message : Array UInt8) : (digest message).length = 32 := by
  simp [digest, length_bigEndian]

/-- The digest with its length. -/
def bytes (message : Array UInt8) : Vector UInt8 32 :=
  ⟨(digest message).toArray, length_digest message⟩

end Sha256

namespace ShortHash

/-! ## Reading numerals -/

/-- The digits of base 36, in ascending order. -/
def alphabet : List Char := "0123456789abcdefghijklmnopqrstuvwxyz".toList

def digitValue (c : Char) : ℕ := alphabet.idxOf c

/-- The number that digits of base 36 stand for, the most significant one first. -/
def value (cs : List Char) : ℕ := cs.foldl (fun n c => 36 * n + digitValue c) 0

theorem value_snoc (cs : List Char) (c : Char) : value (cs ++ [c]) = 36 * value cs + digitValue c := by
  rw [value, List.foldl_append]
  rfl

theorem digitValue_digit {n : ℕ} (h : n < 36) : digitValue (digit n) = n := by
  revert n
  decide

theorem digit_mem_alphabet {n : ℕ} (h : n < 36) : digit n ∈ alphabet := by
  revert n
  decide

theorem value_singleton_digit {n : ℕ} (h : n < 36) : value [digit n] = n := by
  show 36 * 0 + digitValue (digit n) = n
  rw [digitValue_digit h, Nat.mul_zero, Nat.zero_add]

theorem value_numeral (n : ℕ) : value (numeral n) = n := by
  fun_induction numeral n with
  | case1 n hn => exact value_singleton_digit hn
  | case2 n hn ih =>
    rw [value_snoc, ih, digitValue_digit (Nat.mod_lt n (by decide))]
    exact Nat.div_add_mod n 36

theorem numeral_injective {m n : ℕ} (h : numeral m = numeral n) : m = n := by
  rw [← value_numeral m, h, value_numeral]

theorem mem_alphabet_of_mem_numeral {n : ℕ} {c : Char} (h : c ∈ numeral n) : c ∈ alphabet := by
  obtain ⟨d, hd, rfl⟩ := exists_digit_of_mem_numeral h
  exact digit_mem_alphabet hd

/-- Only the numeral of zero starts with a zero. -/
theorem eq_zero_of_head?_numeral {n : ℕ} (h : (numeral n).head? = some '0') : n = 0 := by
  fun_induction numeral n with
  | case1 n hn =>
    have hdigit : digit n = '0' := Option.some.inj h
    rw [← digitValue_digit hn, hdigit]
    decide
  | case2 n hn ih =>
    -- A longer numeral starts as that of the quotient, which is not zero.
    rw [List.head?_append] at h
    rcases Option.or_eq_some_iff.mp h with h | ⟨hnil, -⟩
    · have hdiv : n / 36 = 0 := ih h
      omega
    · exact absurd (List.head?_eq_none_iff.mp hnil) (numeral_ne_nil _)

/-! ## Hashes -/

/-- The first four bytes of a digest, big-endian. -/
def firstWord (d : Vector UInt8 32) : ℕ :=
  d[0].toNat * 256 ^ 3 + d[1].toNat * 256 ^ 2 + d[2].toNat * 256 + d[3].toNat

theorem residue_toList (d : Vector UInt8 32) : residue d.toList = firstWord d % 36 ^ 5 := by
  have htake : d.toList.take 4 = [d[0], d[1], d[2], d[3]] := by
    simp [List.take_add_one]
  rw [residue, htake]
  show (256 * (256 * (256 * (256 * 0 + _) + _) + _) + _) % 36 ^ 5 = firstWord d % 36 ^ 5
  rw [firstWord]
  congr 1
  omega

theorem toList_ofDigest (d : Vector UInt8 32) :
    (ofDigest d.toList).toList = numeral (firstWord d % 36 ^ 5) := by
  rw [ofDigest, String.toList_ofList, residue_toList]

/-- The hash of an identifier by some digest. -/
def ofIdentifierBy (digest : Array UInt8 → Vector UInt8 32) (id : String) : String :=
  ofDigest (digest id.toUTF8.data).toList

/-- Hashes that are the numerals of residues. -/
structure Faithful (digest : Array UInt8 → Vector UInt8 32) (hash : String → String) : Prop where
  length : ∀ id, 1 ≤ (hash id).length ∧ (hash id).length ≤ 5
  digits : ∀ id, ∀ c ∈ (hash id).toList, c ∈ alphabet
  /-- No zero stands in front of other digits. -/
  leading : ∀ id, (hash id).toList.head? = some '0' → hash id = "0"
  readable : ∀ id, isHash (hash id).toList = true
  value_eq : ∀ id, value (hash id).toList = firstWord (digest id.toUTF8.data) % 36 ^ 5
  eq_iff : ∀ a b, hash a = hash b ↔
    firstWord (digest a.toUTF8.data) % 36 ^ 5 = firstWord (digest b.toUTF8.data) % 36 ^ 5

/-- Hashes are faithful numerals by any digest of thirty-two bytes, and so are those by the
digest that is used. -/
theorem hashes_are_numerals :
    (∀ digest : Array UInt8 → Vector UInt8 32, Faithful digest (ofIdentifierBy digest)) ∧
      Faithful Sha256.bytes ofIdentifier := by
  have hall : ∀ digest : Array UInt8 → Vector UInt8 32, Faithful digest (ofIdentifierBy digest) := by
    intro digest
    refine ⟨fun id => ?_, fun id c hc => ?_, fun id hzero => ?_, fun id => isHash_ofDigest _,
      fun id => ?_, fun a b => ?_⟩
    · rw [← String.length_toList, ofIdentifierBy, toList_ofDigest]
      exact ⟨List.length_pos_iff.mpr (numeral_ne_nil _), length_numeral_le (Nat.mod_lt _ (by decide))⟩
    · rw [ofIdentifierBy, toList_ofDigest] at hc
      exact mem_alphabet_of_mem_numeral hc
    · apply String.toList_inj.mp
      rw [ofIdentifierBy, toList_ofDigest] at hzero ⊢
      rw [eq_zero_of_head?_numeral hzero, numeral]
      rfl
    · rw [ofIdentifierBy, toList_ofDigest, value_numeral]
    · rw [← String.toList_inj, ofIdentifierBy, ofIdentifierBy, toList_ofDigest, toList_ofDigest]
      exact ⟨numeral_injective, congrArg numeral⟩
  exact ⟨hall, hall Sha256.bytes⟩

end ShortHash

end SymbolLinks
