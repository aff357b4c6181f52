import SymbolLinks.Config.Token

/-! Project configuration: which graphs to read and which bundle to write. -/

namespace SymbolLinks

structure Config where
  bundle : Option String := none
  /-- Keep documentation inherited from other modules. -/
  inheritDocs : Bool := false
  /-- Files and directories with symbol graphs. -/
  graphs : List String := []
  deriving DecidableEq

namespace Config

/-- Name of the file looked for in a project's directory. -/
def fileName : String := ".symref.toml"

def defaultBundle : String := "org.example.documentation"

def effectiveBundle (c : Config) : String := c.bundle.getD defaultBundle

inductive Value where
  | text (s : String)
  | truth (b : Bool)
  | texts (ss : List String)

/-- Where a reader of settings stands. -/
inductive Place where
  | lineStart
  | afterKey (key : String)
  | beforeValue (key : String)
  /-- In a list, where an item or the end may follow. -/
  | beforeItem (key : String) (items : List String)
  | afterItem (key : String) (items : List String)
  | lineEnd

structure Reader where
  place : Place
  settings : List (String × Value)

namespace Reader

private def setting (r : Reader) (key : String) (v : Value) : Reader :=
  ⟨.lineEnd, r.settings ++ [(key, v)]⟩

def step? (r : Reader) (t : Token) : Option Reader :=
  match r.place, t with
  | .lineStart, .newline => some r
  | .lineStart, .word k | .lineStart, .text k => some { r with place := .afterKey k }
  | .afterKey k, .equals => some { r with place := .beforeValue k }
  | .beforeValue k, .text s | .beforeValue k, .longText s => some (r.setting k (.text s))
  | .beforeValue k, .word "true" => some (r.setting k (.truth true))
  | .beforeValue k, .word "false" => some (r.setting k (.truth false))
  | .beforeValue k, .openBracket => some { r with place := .beforeItem k [] }
  | .beforeItem _ _, .newline => some r
  | .beforeItem k items, .text s | .beforeItem k items, .longText s =>
    some { r with place := .afterItem k (items ++ [s]) }
  | .beforeItem k items, .closeBracket | .afterItem k items, .closeBracket =>
    some (r.setting k (.texts items))
  | .afterItem _ _, .newline => some r
  | .afterItem k items, .comma => some { r with place := .beforeItem k items }
  | .lineEnd, .newline => some { r with place := .lineStart }
  | _, _ => none

def result? (r : Reader) : Option (List (String × Value)) :=
  match r.place with
  | .lineStart | .lineEnd => some r.settings
  | _ => none

end Reader

/-- The settings of a file in order. A byte order mark at its start is skipped. -/
def settings? (text : String) : Option (List (String × Value)) := do
  let tokens ← tokens? (match text.toList with
    | '\uFEFF' :: cs => cs
    | cs => cs)
  let r ← tokens.foldlM Reader.step? ⟨.lineStart, []⟩
  r.result?

/-- Take one setting into a configuration; its key has to be a known one. -/
def set? (c : Config) : String × Value → Option Config
  | ("bundle_id", .text s) => some { c with bundle := some s }
  | ("inherit_docs", .truth b) => some { c with inheritDocs := b }
  | ("symbol_graphs", .texts ss) => some { c with graphs := ss }
  | _ => none

/-- Read a configuration file. No key may be given twice. -/
def parse? (text : String) : Option Config := do
  let settings ← settings? text
  if (settings.map (·.1)).Nodup then settings.foldlM set? ({} : Config) else none

end Config

end SymbolLinks
