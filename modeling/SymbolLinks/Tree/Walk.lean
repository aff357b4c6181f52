import SymbolLinks.Link.Basic
import SymbolLinks.Text.EditDistance
import SymbolLinks.Tree.Collision

/-! Walking a link through the tree, one component at a time. A walk that stops
says where and why, and what the author may have meant. -/

namespace SymbolLinks

/-- A node with the shortest suffix that selects it. -/
structure Candidate where
  suffix : Option Disambiguator
  node : NodeId
  deriving DecidableEq

/-- Why a walk stopped: at which component, below which node. -/
inductive WalkError where
  /-- Several nodes match. -/
  | ambiguous (candidates : List Candidate) (component : Link.Component) (parent : NodeId)
  /-- There is no such name, but similar ones that the suffix fits. -/
  | doesNotExist (siblings : List String) (component : Link.Component) (parent : NodeId)
  /-- The suffix fits none of the nodes with the name. -/
  | invalidSuffix (candidates : List Candidate) (component : Link.Component) (parent : NodeId)
  /-- There is no such name; `nearMisses` are similar ones. -/
  | notFound (nearMisses : List String) (component : Link.Component) (parent : NodeId)
  deriving DecidableEq

/-- How far two names are apart. Similar names are suggested and ranked by it. -/
class NameDistance where
  distance : String → String → Nat

instance : NameDistance := ⟨Text.editDistance⟩

namespace PathTree

open Link (Component)
open NameDistance (distance)

variable [NameDistance]

/-- Whether a node, in any of its spellings, has a child that a component could
mean. -/
def hasChildFor (t : PathTree) (c : Component) (id : NodeId) : Bool :=
  (t.spellingsOf id).any fun i => (t.node? i).any fun n =>
    n.hasChild c.full || (c.suffix.isSome && n.hasChild c.name)

/-- Whether two names differ only in their argument lists. -/
def sameBaseName (a b : String) : Bool :=
  a.toList.takeWhile (· != '(') == b.toList.takeWhile (· != '(')

/-- Whether a name is close enough to suggest. -/
def isSimilar (name candidate : String) : Bool :=
  distance name candidate ≤ max (Text.byteLength name.toList) 3 / 3

def isSuggestion (name candidate : String) : Bool :=
  sameBaseName candidate name || isSimilar name candidate

/-- Names by their distance from `name`, and alphabetically at equal distance. -/
def ranked (name : String) (names : List String) : List String :=
  let scored := names.map fun n => (distance name n, n)
  (scored.mergeSort fun a b => ((compare a.1 b.1).then (compare a.2 b.2)).isLE).map (·.2)

/-- The error for a component that is no name below `parent`. -/
def missing (t : PathTree) (parent : NodeId) (c : Component) : WalkError :=
  match t.node? parent with
  | none => .notFound [] c parent
  | some n =>
    let siblings := match c.suffix with
      | none => []
      | some s => ranked c.name <| (n.children.entries.filter fun (name, es) =>
          es.any (Entry.matchesSuffix t s) && isSuggestion c.name name).map (·.1)
    if siblings.isEmpty then
      .notFound (ranked c.name (n.children.keys.filter (isSuggestion c.name))) c parent
    else .doesNotExist siblings c parent

/-- The entries at one name that satisfy `keep`, with their suffixes. -/
def candidates (es : List Entry) (keep : Entry → Bool) : List Candidate :=
  (es.filter keep).map fun e => ⟨e.disambiguator? es, e.node⟩

/-- Choose among the entries at one name. A suffix applies unless the whole
component was the name. Where several entries are left, the next component may
tell them apart. -/
def choose (t : PathTree) (parent : NodeId) (es : List Entry) (c : Component) (useSuffix : Bool)
    (next : Option Component) : Except WalkError NodeId :=
  match (Entry.select t (if useSuffix then c.suffix else none) es).map (·.node) with
  | [] => .error (.invalidSuffix (candidates es fun _ => true) c parent)
  | [only] => .ok only
  | several =>
    match next.elim [] fun c => several.filter (t.hasChildFor c) with
    | [only] => .ok only
    | _ => .error (.ambiguous (candidates es fun e => several.contains e.node) c parent)

/-- The first of these nodes that has the component among its names decides. -/
def stepAmong (t : PathTree) (parent : NodeId) (c : Component) (next : Option Component) :
    List NodeId → Except WalkError NodeId
  | [] => .error (t.missing parent c)
  | i :: is =>
    match t.node? i with
    | none => t.stepAmong parent c next is
    | some n =>
      match n.children.get? c.full with
      | some es => t.choose i es c false next
      | none =>
        match if c.suffix.isSome then n.children.get? c.name else none with
        | some es => t.choose i es c true next
        | none => t.stepAmong parent c next is

/-- Go from a node to one of the nodes below it or below its other spellings. -/
def step (t : PathTree) (parent : NodeId) (c : Component) (next : Option Component) :
    Except WalkError NodeId :=
  t.stepAmong parent c next (t.spellingsOf parent)

def walkFrom (t : PathTree) : NodeId → List Component → Except WalkError NodeId
  | here, [] => .ok here
  | here, c :: rest => do t.walkFrom (← t.step here c rest.head?) rest

/-- Where a relative link starts: at the nearest of `start` and the nodes above it
that has a child for the first component, else at `start`. -/
def relativeOrigin (t : PathTree) (start : NodeId) (first : Component) : NodeId :=
  ((t.lineage start).find? (t.hasChildFor first)).getD start

/-- The node that a link names, seen from `start`. -/
def find (t : PathTree) (link : Link) (start : Option NodeId) : Except WalkError NodeId :=
  let origin := match link.components with
    | first :: _ =>
      if link.isAbsolute then root else t.relativeOrigin (start.getD root) first
    | [] => root
  t.walkFrom origin link.components

end PathTree

end SymbolLinks
