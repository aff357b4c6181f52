import SymbolLinks.Json.Token
import SymbolLinks.Json.Value

/-! Reading JSON. The reader takes one token at a time and keeps the arrays and
objects that are still open on a stack, so it runs along the token list. -/

namespace SymbolLinks.Json

/-- An array or object that is still open, with what it holds so far, latest
first. -/
inductive Frame where
  | array (items : List Json)
  | object (members : List (Option String × Json)) (key : Option String)

/-- What the reader has just seen, or what has to come next. -/
inductive Focus where
  | value
  /-- After `[`: an item or the end. -/
  | firstItem
  /-- After an opening brace: a key or the end. -/
  | firstKey
  | key (members : List (Option String × Json))
  | colon (members : List (Option String × Json)) (key : Option String)
  | closed (v : Json)

structure Reader where
  focus : Focus
  stack : List Frame

namespace Reader

def start : Reader := ⟨.value, []⟩

/-- An object whose members come latest first. A key that denotes no text makes
the object unreadable. -/
def objectOf (members : List (Option String × Json)) : Json :=
  match members.reverse.mapM fun (k, v) => k.map (·, v) with
  | some members => .object members
  | none => .unreadable

/-- A token that starts a value. -/
def open? (stack : List Frame) : Token → Option Reader
  | .null => some ⟨.closed .null, stack⟩
  | .bool b => some ⟨.closed (.bool b), stack⟩
  | .number t => some ⟨.closed (.number t), stack⟩
  | .string (some s) => some ⟨.closed (.string s), stack⟩
  | .string none => some ⟨.closed .unreadable, stack⟩
  | .openBracket => some ⟨.firstItem, .array [] :: stack⟩
  | .openBrace => some ⟨.firstKey, stack⟩
  | _ => none

def step? (r : Reader) (t : Token) : Option Reader :=
  match r.focus, r.stack, t with
  | .value, stack, t => open? stack t
  | .firstItem, .array [] :: stack, .closeBracket => some ⟨.closed (.array []), stack⟩
  | .firstItem, stack, t => open? stack t
  | .firstKey, stack, .closeBrace => some ⟨.closed (.object []), stack⟩
  | .firstKey, stack, .string k => some ⟨.colon [] k, stack⟩
  | .key ms, stack, .string k => some ⟨.colon ms k, stack⟩
  | .colon ms k, stack, .colon => some ⟨.value, .object ms k :: stack⟩
  | .closed v, .array items :: stack, .comma => some ⟨.value, .array (v :: items) :: stack⟩
  | .closed v, .array items :: stack, .closeBracket =>
    some ⟨.closed (.array (v :: items).reverse), stack⟩
  | .closed v, .object ms k :: stack, .comma => some ⟨.key ((k, v) :: ms), stack⟩
  | .closed v, .object ms k :: stack, .closeBrace => some ⟨.closed (objectOf ((k, v) :: ms)), stack⟩
  | _, _, _ => none

/-- The value read, once nothing is left open. -/
def result? (r : Reader) : Option Json :=
  match r.focus, r.stack with
  | .closed v, [] => some v
  | _, _ => none

end Reader

/-- The value that a whole JSON text stands for. -/
def parse? (text : String) : Option Json := do
  let tokens ← tokens? text.toList
  let reader ← tokens.foldlM Reader.step? Reader.start
  reader.result?

end SymbolLinks.Json
