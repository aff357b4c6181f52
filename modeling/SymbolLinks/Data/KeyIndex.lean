import SymbolLinks.Data.KeyMap

/-! Indexes of lists. An index tells for each key where in a list it stands first, and is
kept up to date while the list grows at its end. -/

namespace SymbolLinks.KeyMap

variable {κ : Type} [Ord κ] [BEq κ]

/-- A map that gives the first position of each key in a list. -/
def Indexes (m : KeyMap κ Nat) (keys : List κ) : Prop := ∀ k, m.get? k = keys.idxOf? k

namespace Indexes

variable {m : KeyMap κ Nat} {keys : List κ}

theorem empty : (∅ : KeyMap κ Nat).Indexes [] := fun _ => rfl

/-- Going to the position of a key is searching the list for it. -/
theorem bind_getElem? {α : Type} {xs : List α} {f : α → κ} (h : m.Indexes (xs.map f)) (k : κ) :
    (m.get? k).bind (xs[·]?) = xs.find? (f · == k) := by
  rw [h k, List.idxOf?, List.findIdx?_map, List.find?_eq_bind_findIdx?_getElem?]
  rfl

/-- A key at the end of the list is filed there, unless it has a position already. -/
theorem snoc [LawfulBEq κ] [Std.LawfulEqOrd κ] [Std.TransOrd κ] (h : m.Indexes keys) (k : κ)
    {f : Option Nat → Nat} (hf : f (m.get? k) = (m.get? k).getD keys.length) :
    (m.alter k f).Indexes (keys ++ [k]) := by
  intro k'
  have hlast : [k].findIdx? (· == k') = if k == k' then some 0 else none := by
    rw [List.findIdx?_singleton]
  rw [get?_alter, hf, List.idxOf?, List.findIdx?_append, hlast]
  have hk := h k'
  rw [List.idxOf?] at hk
  rw [← hk]
  by_cases heq : k = k'
  · subst heq
    cases m.get? k <;> simp
  · have hne : compare k' k ≠ .eq := fun hc => heq (Std.LawfulEqCmp.eq_of_compare hc).symm
    simp [heq, hne]

end Indexes

end SymbolLinks.KeyMap
