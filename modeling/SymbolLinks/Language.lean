import SymbolLinks.Json.Value

/-! Interface languages: the language a symbol, or one of its names, is written
in. They are ordered with Objective-C first, then the languages without special
treatment by name, then Swift. -/

namespace SymbolLinks

/-- Objective-C has four identifiers, one of them that of C. -/
def objectiveCIdentifiers : List String := ["occ", "objc", "objective-c", "c"]

inductive Language where
  | objectiveC
  /-- Any other language, named as it was given. -/
  | other (name : String) (unreserved : name ≠ "swift" ∧ name ∉ objectiveCIdentifiers)
  | swift
  deriving DecidableEq, Inhabited

namespace Language

/-- The language an identifier names. -/
def ofIdentifier (s : String) : Language :=
  if hs : s = "swift" then .swift
  else if ho : s ∈ objectiveCIdentifiers then .objectiveC
  else .other s ⟨hs, ho⟩

def identifier : Language → String
  | .objectiveC => "occ"
  | .other name _ => name
  | .swift => "swift"

/-- A language is named by its identifier. -/
@[simp] theorem ofIdentifier_identifier (l : Language) : ofIdentifier l.identifier = l := by
  cases l with
  | objectiveC => rfl
  | other name unreserved => simp [ofIdentifier, identifier, unreserved.1, unreserved.2]
  | swift => rfl

/-- The name used in link suffixes such as `-swift.enum.case`. -/
def linkTag : Language → String
  | .objectiveC => "objc"
  | .other name _ => name
  | .swift => "swift"

/-- Links know the tags of two languages. -/
def ofLinkTag? (tag : List Char) : Option Language :=
  if tag = "swift".toList then some .swift
  else if tag = "objc".toList then some .objectiveC
  else none

/-- Name of a language without special treatment. -/
def ownName : Language → String
  | .other name _ => name
  | _ => ""

instance : Ord Language := ⟨compareLex (compareOn Language.ctorIdx) (compareOn ownName)⟩

instance : Std.TransOrd Language :=
  inferInstanceAs (Std.TransCmp (compareLex (compareOn Language.ctorIdx) (compareOn ownName)))

theorem eq_of_compare {a b : Language} (h : compare a b = .eq) : a = b := by
  obtain ⟨hi, hn⟩ := compareLex_eq_eq.mp h
  have hi : a.ctorIdx = b.ctorIdx := Std.LawfulEqCmp.eq_of_compare hi
  have hn : a.ownName = b.ownName := Std.LawfulEqCmp.eq_of_compare hn
  cases a <;> cases b <;> simp_all [Language.ctorIdx, ownName]

instance : Std.LawfulEqOrd Language where
  eq_of_compare := eq_of_compare

def toJson (l : Language) : Json := .string l.identifier

end Language

end SymbolLinks
