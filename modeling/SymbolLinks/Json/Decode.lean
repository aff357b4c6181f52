import SymbolLinks.Json.Value

/-! Reading typed values out of JSON. A record is an object, or the array of its
fields in their declared order. -/

namespace SymbolLinks.Json

def text? : Json → Option String
  | .string s => some s
  | _ => none

/-- Value of a digit sequence. -/
def digitsValue (cs : List Char) : Nat := cs.foldl (fun n c => 10 * n + (c.toNat - 48)) 0

/-- A number written as an integer without sign, at most `limit`. -/
def nat? (limit : Nat) : Json → Option Nat
  | .number token =>
    let cs := token.toList
    if !cs.isEmpty && cs.all Char.isDigit && digitsValue cs ≤ limit then some (digitsValue cs)
    else none
  | _ => none

def items? {α : Type} (item : Json → Option α) : Json → Option (List α)
  | .array items => items.mapM item
  | _ => none

def nullable? {α : Type} (value : Json → Option α) : Json → Option (Option α)
  | .null => some none
  | j => (value j).map some

/-- The name of one of several alternatives, alone or as the only key of an
object with the value `null`. -/
def alternative? : Json → Option String
  | .string s => some s
  | .object [(k, .null)] => some k
  | _ => none

/-- The fields of a record that are given. -/
abbrev Record := String → Option Json

/-- The fields named `names`. An object must not give one of them twice and may
have others; an array must not be longer than the list of names. -/
def record? (names : List String) : Json → Option Record
  | .object members =>
    if names.all fun n => (members.filter (·.1 == n)).length ≤ 1 then some (members.lookup ·)
    else none
  | .array items =>
    if items.length ≤ names.length then some ((names.zip items).lookup ·) else none
  | _ => none

namespace Record

def required? {α : Type} (r : Record) (name : String) (value : Json → Option α) : Option α :=
  r name >>= value

/-- A field that may be missing or `null`. -/
def optional? {α : Type} (r : Record) (name : String) (value : Json → Option α) :
    Option (Option α) :=
  match r name with
  | none => some none
  | some j => nullable? value j

/-- A list that is empty when it is missing. -/
def listed? {α : Type} (r : Record) (name : String) (item : Json → Option α) : Option (List α) :=
  match r name with
  | none => some []
  | some j => items? item j

end Record

end SymbolLinks.Json
