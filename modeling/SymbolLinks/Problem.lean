import SymbolLinks.Json.Value
import SymbolLinks.Text.Bytes
import SymbolLinks.Text.Chars

/-! Problems found in a run, the edits that would fix them, and how they are
shown to a reader. -/

namespace SymbolLinks

/-- Replace the bytes from `start` up to `stop` by a text. -/
structure Edit where
  start : Nat
  stop : Nat
  text : String
  deriving DecidableEq

namespace Edit

/-- An edit whose ends are in the wrong order, past the end of the text or inside
a character changes nothing. -/
def apply (e : Edit) (cs : List Char) : List Char :=
  if e.start ≤ e.stop then
    match Text.splitAtByte e.start cs, Text.splitAtByte e.stop cs with
    | some (before, _), some (_, after) => before ++ e.text.toList ++ after
    | _, _ => cs
  else cs

def toJson (e : Edit) : Json :=
  .object [("end", .nat e.stop), ("start", .nat e.start), ("text", .string e.text)]

end Edit

/-- One way to fix a problem. -/
structure Solution where
  edits : List Edit
  summary : String
  deriving DecidableEq

namespace Solution

/-- Apply the edits from the back of the text to its front, so that an edit does
not move the places of those still to come. -/
def apply (s : Solution) (text : String) : String :=
  let ordered := s.edits.mergeSort fun a b => decide (b.start ≤ a.start)
  String.ofList (ordered.foldl (fun cs e => e.apply cs) text.toList)

def toJson (s : Solution) : Json :=
  .object [("replacements", .ofList Edit.toJson s.edits), ("summary", .string s.summary)]

end Solution

inductive Severity where
  | error
  | warning
  deriving DecidableEq

namespace Severity

def name : Severity → String
  | .error => "error"
  | .warning => "warning"

def heading : Severity → String
  | .error => "Error"
  | .warning => "Warning"

end Severity

structure Problem where
  /-- Stable name of the kind of problem. -/
  identifier : String
  severity : Severity
  /-- The text the problem was found in, which edits refer to. -/
  source : Option String := none
  summary : String
  solutions : List Solution := []
  deriving DecidableEq

namespace Problem

/-- A relationship names a symbol that is not in the model. -/
def symbolNotFound (id : String) : Problem where
  identifier := "symref.relationship.SymbolNotFound"
  severity := .warning
  summary := "Symbol with identifier '" ++ id ++ "' couldn't be found"

/-- A relationship's target outside the model cannot be part of a URL. -/
def invalidReference (id : String) : Problem where
  identifier := "symref.relationship.InvalidReference"
  severity := .warning
  summary := "Relationship symbol path '" ++ id ++ "' isn't valid"

def toJson (p : Problem) : Json :=
  .object [
    ("diagnostic", .object [("identifier", .string p.identifier),
      ("severity", .string p.severity.name), ("source", .ofOption .string p.source),
      ("summary", .string p.summary)]),
    ("solutions", .ofList Solution.toJson p.solutions)]

private def joinLines (s : String) : String := s.map fun c => if c = '\n' then ' ' else c

/-- One bullet a solution, with the fixed text where there is one. -/
private def renderSolution (source : Option String) (s : Solution) : String :=
  let fixed := match source with
    | some text => if s.edits.isEmpty then "" else ": `" ++ s.apply text ++ "`"
    | none => ""
  "- " ++ joinLines s.summary ++ fixed ++ "\n"

/-- The problem as markdown. -/
def render (p : Problem) : String :=
  let source := match p.source with
    | some text => "\n    " ++ text ++ "\n"
    | none => ""
  let fixes :=
    if p.solutions.isEmpty then ""
    else "\n## Fix\n\n" ++ String.join (p.solutions.map (renderSolution p.source))
  "# " ++ p.severity.heading ++ ": " ++ p.identifier ++ "\n\n" ++ p.summary ++ "\n" ++ source ++ fixes

end Problem

/-- Markdown for a terminal: every line that starts with `#` is bold. -/
def terminalText (markdown : String) : String :=
  String.join <| (Text.lines markdown.toList).map fun line =>
    let s := String.ofList line
    (if line.head? = some '#' then "\x1b[1m" ++ s ++ "\x1b[0m" else s) ++ "\n"

end SymbolLinks
