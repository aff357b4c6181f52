/-! JSON values. Numbers keep the text they were written with, objects keep the
order of their members and repeated keys, so a reader can tell `1` from `1.0`
and see that a key was given twice. -/

namespace SymbolLinks

inductive Json where
  | null
  | bool (b : Bool)
  | number (token : String)
  | string (text : String)
  | array (items : List Json)
  | object (members : List (String × Json))
  /-- A well-formed string or object whose text denotes no characters: some
  escape names half of a surrogate pair. It may stand where values are skipped. -/
  | unreadable
  deriving Inhabited

namespace Json

def nat (n : Nat) : Json := .number (toString n)

def ofOption {α : Type} (f : α → Json) : Option α → Json
  | none => .null
  | some a => f a

def ofList {α : Type} (f : α → Json) (xs : List α) : Json := .array (xs.map f)

def strings (xs : List String) : Json := .array (xs.map .string)

/-- An object in which the members without a value are left out. -/
def objectOfSome (members : List (String × Option Json)) : Json :=
  .object (members.filterMap fun (k, v) => v.map (k, ·))

end Json

end SymbolLinks
