import SymbolLinks.Catalog
import SymbolLinks.Problem
import SymbolLinks.Tree.Walk

/-! Resolving links to pages. A link that does not name exactly one page gives a
failure with the edits of the link that would help. Links are resolved alike
against a catalog and against another documentation set's snapshot. -/

namespace SymbolLinks

/-- Why a link did not resolve. -/
inductive FailureKind where
  | ambiguous
  | doesNotExist
  | invalidDisambiguation
  | invalidReference
  | pathComponentNotFound
  deriving DecidableEq

namespace FailureKind

def identifier : FailureKind → String
  | .ambiguous => "symref.link.Ambiguous"
  | .doesNotExist => "symref.link.DoesNotExist"
  | .invalidDisambiguation => "symref.link.InvalidDisambiguation"
  | .invalidReference => "symref.link.InvalidReference"
  | .pathComponentNotFound => "symref.link.PathComponentNotFound"

end FailureKind

structure LinkFailure where
  kind : FailureKind
  message : String
  /-- Fixes of the authored link, in the order to show them. -/
  solutions : List Solution := []
  deriving DecidableEq

namespace LinkFailure

def toProblem (f : LinkFailure) (authored : String) : Problem where
  identifier := f.kind.identifier
  severity := .error
  source := some authored
  summary := f.message
  solutions := f.solutions

end LinkFailure

/-- A documentation set that links can be resolved against. -/
structure Destinations where
  tree : PathTree
  /-- Text shown next to a symbol, by its identifier. -/
  hintOf : String → Option String
  /-- Page of a symbol, by its identifier. -/
  pageOf : String → Option PageReference

namespace Destinations

open Link (Component Suffix)

def ofCatalog (c : Catalog) : Destinations where
  tree := c.tree
  hintOf id := (c.model.store.get? id).map (·.hint)
  pageOf := c.pages.get?

/-- The summary of a symbol, of which the last one counts. -/
def summaryOf? (summaries : List Summary) (id : String) : Option Summary :=
  summaries.reverse.find? (·.id == id)

def ofSummaries (tree : PathTree) (summaries : List Summary) : Destinations where
  tree := tree
  hintOf id := (summaryOf? summaries id).map (·.hint)
  pageOf id := (summaryOf? summaries id).map (·.page)

/-- Destinations out of a snapshot and its summaries. -/
def ofSnapshot (s : Snapshot) (summaries : List Summary) :
    Except Snapshot.Corruption Destinations :=
  s.toTree.map (ofSummaries · summaries)

/-- Text shown next to a candidate; the name in the link for a node without one. -/
def hint (d : Destinations) (c : Component) (node : NodeId) : String :=
  ((d.tree.symbolAt? node).bind d.hintOf).getD c.name

/-- The candidates that a suffix selects, with their hints, in the order of hint
and suffix. -/
def choices (d : Destinations) (c : Component) (candidates : List Candidate) :
    List (String × String) :=
  (candidates.filterMap fun k => k.suffix.map fun s => (d.hint c k.node, s.text)).mergeSort
    fun a b => ((compare a.1 b.1).then (compare a.2 b.2)).isLE

/-- Put a suffix after the name, one solution a choice. -/
def insertions (c : Component) (choices : List (String × String)) : List Solution :=
  choices.map fun (hint, suffix) => {
    edits := [⟨c.nameRange.stop, c.nameRange.stop, "-" ++ suffix⟩]
    summary := "Insert '" ++ suffix ++ "' for\n'" ++ hint ++ "'" }

/-- Put another suffix in the place of the one given, one solution a choice. -/
def replacements (s : Suffix) (choices : List (String × String)) : List Solution :=
  choices.map fun (hint, suffix) => {
    edits := [⟨s.range.start, s.range.stop, "-" ++ suffix⟩]
    summary := "Replace '" ++ s.text ++ "' with '" ++ suffix ++ "' for\n'" ++ hint ++ "'" }

/-- Candidates that no suffix selects are counted in the message. -/
def ambiguousMessage (c : Component) (place : String) (candidates : List Candidate) : String :=
  let message := "'" ++ c.full ++ "' is ambiguous at '" ++ place ++ "'"
  match (candidates.filter (·.suffix.isNone)).length with
  | 0 => message
  | n => message ++ "; " ++ toString n ++ " of the " ++ toString candidates.length ++ " matches " ++
    (if n = 1 then "has" else "have") ++ " no documentation page"

/-- Write each of the names in the place of a part of the link. -/
def renamings (old : String) (range : Link.Span) (names : List String) : List Solution :=
  names.map fun new => {
    edits := [⟨range.start, range.stop, new⟩]
    summary := "Replace '" ++ old ++ "' with '" ++ new ++ "'" }

/-- The failure that a walk error amounts to. -/
def describe (d : Destinations) : WalkError → LinkFailure
  | .ambiguous candidates c parent =>
    let choices := d.choices c candidates
    let suffixApplied := (d.tree.node? parent).any fun n => !n.hasChild c.full
    { kind := .ambiguous
      message := ambiguousMessage c (d.tree.displayPath parent) candidates
      solutions := match c.suffix with
        | some s => if suffixApplied then replacements s choices else insertions c choices
        | none => insertions c choices }
  | .doesNotExist siblings c parent =>
    { kind := .doesNotExist
      message := "'" ++ c.full ++ "' doesn't exist at '" ++ d.tree.displayPath parent ++ "'"
      solutions := renamings c.name c.nameRange siblings }
  | .invalidSuffix candidates c parent =>
    let place := d.tree.displayPath parent
    let choices := d.choices c candidates
    match c.suffix with
    | none =>
      { kind := .ambiguous
        message := ambiguousMessage c place candidates
        solutions := insertions c choices }
    | some s =>
      { kind := .invalidDisambiguation
        message := "'" ++ s.text ++ "' isn't a disambiguation for '" ++ c.name ++ "' at '" ++
          place ++ "'"
        solutions := match candidates with
          | [only] => [{
              edits := [⟨s.range.start, s.range.stop, ""⟩]
              summary := "Remove '" ++ s.text ++ "' for\n'" ++ d.hint c only.node ++ "'" }]
          | _ => replacements s choices }
  | .notFound nearMisses c parent =>
    { kind := .pathComponentNotFound
      message := "'" ++ c.full ++ "' doesn't exist at '" ++ d.tree.displayPath parent ++ "'"
      solutions := renamings c.full c.range nearMisses }

/-- Resolve a link. A relative link is looked up from the symbol `origin` and then
from what is above it. -/
def resolve [NameDistance] (d : Destinations) (authored : String) (origin : Option String) :
    Except LinkFailure PageReference := do
  let link ← (Link.parse authored).mapError fun e => ⟨.invalidReference, e.message authored, []⟩
  let node ← (d.tree.find link (origin.bind d.tree.primary.get?)).mapError d.describe
  match (d.tree.symbolAt? node).bind d.pageOf with
  | some page => return page
  | none => throw {
      kind := .invalidReference
      message := "'" ++ authored ++ "' names '" ++ d.tree.displayPath node ++
        "', which has no documentation page" }

end Destinations

end SymbolLinks
