import SymbolLinks.Text.Lowercase
import SymbolLinks.Tree.Collision

/-! Canonical URL paths. Names that differ at most in case get a suffix where they
meet below one node, so that URLs differ without regard to case. Only primary
nodes take part: the other spellings of a symbol have no URL of their own. -/

namespace SymbolLinks.PathTree

/-- The entries below a node with their names. -/
def namedEntries (n : Node) : List (String × Entry) :=
  n.children.entries.flatMap fun (name, es) => es.map (name, ·)

/-- The entries below a node, those together whose names agree without regard to
case. -/
def caseGroups (n : Node) : List (List (String × Entry)) :=
  let groups : KeyMap String (List (String × Entry)) := (namedEntries n).foldl (fun gs (name, e) =>
    gs.alter (Text.lowercase name) fun g => g.getD [] ++ [(name, e)]) ∅
  groups.values

/-- The URL segment of an entry: its name, with a suffix if it needs one. A kind
stands after the tag of the node's language. -/
def segment (t : PathTree) (name : String) (e : Entry) : Option Disambiguator → String
  | none => name
  | some (.hash h) => name ++ "-" ++ h
  | some (.kind k) =>
    let tag := (((t.node? e.node).bind (·.primaryLanguage?)).map Language.linkTag).getD "swift"
    name ++ "-" ++ tag ++ "." ++ k

/-- The nodes below a node with their URL segments. -/
def segments (t : PathTree) (n : Node) : List (String × NodeId) :=
  (caseGroups n).flatMap fun group =>
    let primary := (group.map (·.2)).filter fun e => t.isPrimary e.node
    group.filterMap fun (name, e) =>
      (t.node? e.node).map fun _ =>
        let same := primary.find? fun p => p.node == e.node
        (t.segment name e (same.bind (Entry.disambiguator? primary)), e.node)

/-- Note the URL path of a node's symbol, if it is the symbol's primary node. -/
def recordPath (t : PathTree) (id : NodeId) (path : String) (paths : KeyMap String String) :
    KeyMap String String :=
  match t.symbolAt? id with
  | some s => if t.isPrimary id then paths.insert s path else paths
  | none => paths

/-- Collect the URL paths below node `id`, which is at `path`, as deep as `fuel`
goes. -/
def collectPaths (t : PathTree) : Nat → NodeId → String → KeyMap String String →
    KeyMap String String
  | 0, _, _, paths => paths
  | fuel + 1, id, path, paths =>
    match t.node? id with
    | none => paths
    | some n => (t.segments n).foldl (fun paths (segment, child) =>
        let path := path ++ "/" ++ segment
        t.collectPaths fuel child path (t.recordPath child path paths)) paths

/-- The URL path of every symbol, without `/documentation`. No node of a tree lies
deeper than the number of nodes. -/
def canonicalPaths (t : PathTree) : KeyMap String String := t.collectPaths t.size root "" ∅

end SymbolLinks.PathTree
