import SymbolLinks.Json.Decode

/-! Generic constraints: the requirements of a `where` clause. -/

namespace SymbolLinks

inductive ConstraintKind where
  /-- The left side conforms to the protocol on the right. -/
  | conformance
  /-- Both sides are the same type. -/
  | sameType
  /-- The left side inherits from the class on the right. -/
  | superclass
  deriving DecidableEq

namespace ConstraintKind

def name : ConstraintKind → String
  | .conformance => "conformance"
  | .sameType => "sameType"
  | .superclass => "superclass"

def ofName? (s : String) : Option ConstraintKind :=
  [conformance, sameType, superclass].find? (·.name == s)

end ConstraintKind

structure Constraint where
  kind : ConstraintKind
  lhs : String
  rhs : String
  deriving DecidableEq

namespace Constraint

def toJson (c : Constraint) : Json :=
  .object [("kind", .string c.kind.name), ("lhs", .string c.lhs), ("rhs", .string c.rhs)]

def ofJson? (j : Json) : Option Constraint := do
  let r ← Json.record? ["kind", "lhs", "rhs"] j
  let kind ← r.required? "kind" Json.alternative?
  return {
    kind := ← ConstraintKind.ofName? kind
    lhs := ← r.required? "lhs" Json.text?
    rhs := ← r.required? "rhs" Json.text? }

end Constraint

end SymbolLinks
