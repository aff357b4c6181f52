/-! Positions in a text counted in bytes of its UTF-8 form. -/

namespace SymbolLinks.Text

/-- Number of bytes in the UTF-8 form. -/
def byteLength : List Char → Nat
  | [] => 0
  | c :: cs => c.utf8Size + byteLength cs

/-- Split at byte `n`; `none` when `n` is past the end or inside a character. -/
def splitAtByte : Nat → List Char → Option (List Char × List Char)
  | 0, cs => some ([], cs)
  | _ + 1, [] => none
  | n + 1, c :: cs =>
    if c.utf8Size ≤ n + 1 then
      (splitAtByte (n + 1 - c.utf8Size) cs).map fun (before, after) => (c :: before, after)
    else none

theorem byteLength_append (a b : List Char) : byteLength (a ++ b) = byteLength a + byteLength b := by
  induction a with
  | nil => simp [byteLength]
  | cons c a ih => simp [byteLength, ih, Nat.add_assoc]

theorem splitAtByte_byteLength (a b : List Char) :
    splitAtByte (byteLength a) (a ++ b) = some (a, b) := by
  induction a with
  | nil => simp [byteLength, splitAtByte]
  | cons c a ih =>
    have hp := c.utf8Size_pos
    obtain ⟨n, hn⟩ : ∃ n, byteLength (c :: a) = n + 1 :=
      ⟨c.utf8Size + byteLength a - 1, by simp only [byteLength]; omega⟩
    have hr : n + 1 - c.utf8Size = byteLength a := by simp only [byteLength] at hn; omega
    have hc : c.utf8Size ≤ n + 1 := by simp only [byteLength] at hn; omega
    rw [hn]
    simp [splitAtByte, hc, hr, ih]

theorem append_of_splitAtByte {n : Nat} {cs a b : List Char}
    (h : splitAtByte n cs = some (a, b)) : cs = a ++ b ∧ n = byteLength a := by
  fun_induction splitAtByte n cs generalizing a b with
  | case1 cs =>
    simp only [Option.some.injEq, Prod.mk.injEq] at h
    obtain ⟨rfl, rfl⟩ := h
    exact ⟨rfl, rfl⟩
  | case2 => simp at h
  | case3 n c cs hc ih =>
    obtain ⟨⟨a', b'⟩, h', he⟩ := Option.map_eq_some_iff.mp h
    simp only [Prod.mk.injEq] at he
    obtain ⟨rfl, rfl⟩ := he
    obtain ⟨rfl, hn⟩ := ih h'
    exact ⟨rfl, by simp only [byteLength]; omega⟩
  | case4 => simp at h

end SymbolLinks.Text
