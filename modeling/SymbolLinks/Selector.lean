import SymbolLinks.Language

/-! Selectors: the language and platform that one symbol graph was made for. -/

namespace SymbolLinks

structure Selector where
  language : Language
  /-- Operating system, if the graph names one. -/
  platform : Option String
  deriving DecidableEq, Inhabited

namespace Selector

/-- `language` or `language@platform`. -/
def text (s : Selector) : String :=
  match s.platform with
  | none => s.language.identifier
  | some p => s.language.identifier ++ "@" ++ p

/-- By language, then with no platform before any platform. -/
instance : Ord Selector := ⟨compareLex (compareOn language) (compareOn platform)⟩

instance : Std.TransOrd Selector :=
  inferInstanceAs (Std.TransCmp (compareLex (compareOn language) (compareOn platform)))

theorem eq_of_compare {a b : Selector} (h : compare a b = .eq) : a = b := by
  obtain ⟨hl, hp⟩ := compareLex_eq_eq.mp h
  have hl : a.language = b.language := Std.LawfulEqCmp.eq_of_compare hl
  have hp : a.platform = b.platform := Std.LawfulEqCmp.eq_of_compare hp
  cases a; cases b; simp_all

instance : Std.LawfulEqOrd Selector where
  eq_of_compare := eq_of_compare

end Selector

end SymbolLinks
