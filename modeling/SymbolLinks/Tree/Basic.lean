import SymbolLinks.Data.KeyMap
import SymbolLinks.Language

/-! The tree that links are walked through. Its nodes stand for path components;
node 0 is a hidden root with the modules below it. A symbol has a node for every
way it is spelled, and one of them is its primary node. -/

namespace SymbolLinks

/-- Position of a node in its tree. -/
abbrev NodeId := Nat

/-- One of the nodes that share a parent and a name. -/
structure Entry where
  /-- Short hash of the node's symbol. -/
  hash : Option String
  /-- Kind identifier of the node's symbol. -/
  kind : Option String
  node : NodeId
  deriving DecidableEq

structure Node where
  /-- The nodes below, by name. -/
  children : KeyMap String (List Entry) := ∅
  /-- Languages with a path through the node. -/
  languages : KeySet Language := ∅
  name : String
  /-- Only the root has no parent. -/
  parent : Option NodeId
  /-- Identifier of the symbol; a node without one only holds other nodes. -/
  symbol : Option String := none
  deriving DecidableEq, Inhabited

namespace Node

def hasChild (n : Node) (name : String) : Bool := n.children.contains name

def entries (n : Node) (name : String) : List Entry := (n.children.get? name).getD []

/-- Swift if the node has a Swift name, else the first of its languages. -/
def primaryLanguage? (n : Node) : Option Language :=
  if n.languages.contains .swift then some .swift else n.languages.toList.head?

end Node

structure PathTree where
  nodes : Array Node
  /-- The node that decides the URL of each symbol. -/
  primary : KeyMap String NodeId
  /-- Every node of each symbol, in ascending order. -/
  spellings : KeyMap String (List NodeId)
  deriving DecidableEq

/-- A symbol in one of its spellings. -/
structure Spelling where
  hash : String
  kind : String
  language : Language
  id : String

namespace PathTree

def root : NodeId := 0

/-- The tree with nothing but the root. -/
def initial : PathTree := ⟨#[{ name := "", parent := none }], ∅, ∅⟩

def size (t : PathTree) : Nat := t.nodes.size

def node? (t : PathTree) (id : NodeId) : Option Node := t.nodes[id]?

def symbolAt? (t : PathTree) (id : NodeId) : Option String := (t.node? id).bind (·.symbol)

def entries (t : PathTree) (parent : NodeId) (name : String) : List Entry :=
  (t.node? parent).elim [] (·.entries name)

def hasLanguage (t : PathTree) (id : NodeId) (l : Language) : Bool :=
  (t.node? id).any (·.languages.contains l)

/-- Whether a node is the primary node of its symbol. Nodes without a symbol count
as primary. -/
def isPrimary (t : PathTree) (id : NodeId) : Bool :=
  match t.node? id with
  | none => false
  | some n => match n.symbol with
    | none => true
    | some s => t.primary.get? s == some id

/-- A node followed by the other nodes of its symbol, so that a walk through one
spelling also sees what is below the others. -/
def spellingsOf (t : PathTree) (id : NodeId) : List NodeId :=
  let all := ((t.symbolAt? id).bind t.spellings.get?).getD []
  id :: all.filter (· != id)

/-- A node and the nodes above it, as far as `fuel` goes. -/
def lineageUpTo (t : PathTree) : Nat → NodeId → List NodeId
  | 0, _ => []
  | fuel + 1, id =>
    id :: match (t.node? id).bind (·.parent) with
      | none => []
      | some p => t.lineageUpTo fuel p

/-- A node and all nodes above it, nearest first. In a tree that is no longer than
the number of nodes. -/
def lineage (t : PathTree) (id : NodeId) : List NodeId := t.lineageUpTo t.size id

/-- Names from the module down to a node, such as `/Kit/Kind`; `/` for the root. -/
def displayPath (t : PathTree) (id : NodeId) : String :=
  let names := (t.lineage id).reverse.filterMap fun i =>
    (t.node? i).bind fun n => n.parent.map fun _ => n.name
  "/" ++ String.intercalate "/" names

/-! Growing the tree. -/

def modifyNode (t : PathTree) (id : NodeId) (f : Node → Node) : PathTree :=
  { t with nodes := t.nodes.modify id f }

/-- Change the entries of `name` below a node. -/
def alterGroup (t : PathTree) (parent : NodeId) (name : String)
    (f : Option (List Entry) → List Entry) : PathTree :=
  t.modifyNode parent fun n => { n with children := n.children.alter name f }

def pushNode (t : PathTree) (n : Node) : PathTree := { t with nodes := t.nodes.push n }

/-- Append a node without symbol, and its entry below `parent`. -/
def pushChild (t : PathTree) (parent : NodeId) (name : String) (hash kind : Option String) :
    PathTree :=
  (t.pushNode { name, parent := some parent }).alterGroup parent name fun es =>
    es.getD [] ++ [⟨hash, kind, t.size⟩]

/-- Set the hash and kind of the first entry of `node`. -/
def labelEntry (node : NodeId) (hash kind : String) : List Entry → List Entry
  | [] => []
  | e :: es =>
    if e.node = node then { e with hash := some hash, kind := some kind } :: es
    else e :: labelEntry node hash kind es

/-- Label the entry of a node below `parent` with a symbol's hash and kind. -/
def labelChild (t : PathTree) (parent : NodeId) (name : String) (id : NodeId) (sp : Spelling) :
    PathTree :=
  t.alterGroup parent name fun es => labelEntry id sp.hash sp.kind (es.getD [])

/-- Put a number into an ascending list, unless it is there. -/
def insertAscending (n : Nat) : List Nat → List Nat
  | [] => [n]
  | m :: ms =>
    if n < m then n :: m :: ms
    else if n = m then m :: ms
    else m :: insertAscending n ms

/-- Let a node stand for a symbol in one language. -/
def occupy (t : PathTree) (id : NodeId) (sp : Spelling) : PathTree :=
  let t := t.modifyNode id fun n =>
    { n with symbol := some sp.id, languages := n.languages.add sp.language }
  { t with
    primary := t.primary.insertIfNew sp.id id
    spellings := t.spellings.alter sp.id fun ids => insertAscending id (ids.getD []) }

/-- The node below `parent` that a symbol of this name can take: one it has
already, else one without symbol. -/
def reusable? (t : PathTree) (parent : NodeId) (name id : String) : Option NodeId :=
  let nodes := (t.entries parent name).map (·.node)
  let withSymbol := fun s => nodes.find? fun i => (t.node? i).any fun n => n.symbol == s
  (withSymbol (some id)).or (withSymbol none)

/-- Add a symbol below `parent`, and give its node. -/
def addSymbol (t : PathTree) (parent : NodeId) (name : String) (sp : Spelling) :
    PathTree × NodeId :=
  match t.reusable? parent name sp.id with
  | some id => ((t.labelChild parent name id sp).occupy id sp, id)
  | none => ((t.pushChild parent name (some sp.hash) (some sp.kind)).occupy t.size sp, t.size)

/-- Find or add a node below `parent` that only has to hold other nodes. -/
def addHolder (t : PathTree) (parent : NodeId) (name : String) (l : Language) : PathTree × NodeId :=
  let (t, id) := match t.entries parent name with
    | e :: _ => (t, e.node)
    | [] => (t.pushChild parent name none none, t.size)
  (t.modifyNode id fun n => { n with languages := n.languages.add l }, id)

end PathTree

end SymbolLinks
