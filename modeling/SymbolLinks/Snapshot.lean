import SymbolLinks.Json.Decode
import SymbolLinks.Json.Parser
import SymbolLinks.Json.Printer
import SymbolLinks.Kind
import SymbolLinks.Reference
import SymbolLinks.Tree.Basic

/-! Snapshots: a tree and short summaries of its symbols, written out for other
documentation sets to resolve links against. A snapshot leaves out what can be
computed again, and reading one back accepts exactly the well-formed trees. -/

namespace SymbolLinks

/-- What another documentation set has to know of a symbol. -/
structure Summary where
  abstract? : Option String := none
  declaration : Option String := none
  kind : Kind
  language : Language
  id : String
  page : PageReference
  title : String
  deriving DecidableEq

namespace Summary

def hint (s : Summary) : String := s.declaration.getD s.title

def toJson (s : Summary) : Json :=
  .objectOfSome [("abstract", s.abstract?.map .string), ("declaration", s.declaration.map .string),
    ("kind", some s.kind.toJson), ("language", some s.language.toJson),
    ("preciseId", some (.string s.id)), ("reference", some s.page.toJson),
    ("title", some (.string s.title))]

def ofJson? (j : Json) : Option Summary := do
  let r ← Json.record?
    ["abstract", "declaration", "kind", "language", "preciseId", "reference", "title"] j
  return {
    abstract? := ← r.optional? "abstract" Json.text?
    declaration := ← r.optional? "declaration" Json.text?
    kind := .ofIdentifier (← r.required? "kind" Json.text?)
    language := .ofIdentifier (← r.required? "language" Json.text?)
    id := ← r.required? "preciseId" Json.text?
    page := ← r.required? "reference" PageReference.ofJson?
    title := ← r.required? "title" Json.text? }

def listToJson (ss : List Summary) : Json := .ofList toJson ss

def listOfJson? (j : Json) : Option (List Summary) := Json.items? ofJson? j

/-- The text of a list of summaries. -/
def encodeList (ss : List Summary) : String := (listToJson ss).pretty

def decodeList? (text : String) : Option (List Summary) := Json.parse? text >>= listOfJson?

end Summary

/-- Largest index that a snapshot can hold. -/
def maxIndex : Nat := 0xFFFFFFFFFFFFFFFF

/-- An entry below a node of a snapshot. -/
structure SnapshotEntry where
  hash : Option String := none
  kind : Option String := none
  name : String
  node : Nat
  deriving DecidableEq

namespace SnapshotEntry

def ofEntry (name : String) (e : Entry) : SnapshotEntry := ⟨e.hash, e.kind, name, e.node⟩

def toJson (e : SnapshotEntry) : Json :=
  .objectOfSome [("hash", e.hash.map .string), ("kind", e.kind.map .string),
    ("name", some (.string e.name)), ("node", some (.nat e.node))]

def ofJson? (j : Json) : Option SnapshotEntry := do
  let r ← Json.record? ["hash", "kind", "name", "node"] j
  return {
    hash := ← r.optional? "hash" Json.text?
    kind := ← r.optional? "kind" Json.text?
    name := ← r.required? "name" Json.text?
    node := ← r.required? "node" (Json.nat? maxIndex) }

end SnapshotEntry

structure SnapshotNode where
  children : List SnapshotEntry := []
  languages : List Language := []
  name : String
  /-- Position in the table of symbols. -/
  symbol : Option Nat := none
  deriving DecidableEq

namespace SnapshotNode

def toJson (n : SnapshotNode) : Json :=
  .objectOfSome [("children", some (.ofList SnapshotEntry.toJson n.children)),
    ("languages", some (.ofList Language.toJson n.languages)), ("name", some (.string n.name)),
    ("symbol", n.symbol.map .nat)]

def ofJson? (j : Json) : Option SnapshotNode := do
  let r ← Json.record? ["children", "languages", "name", "symbol"] j
  return {
    children := ← r.listed? "children" SnapshotEntry.ofJson?
    languages := ← r.listed? "languages" fun j => (Json.text? j).map Language.ofIdentifier
    name := ← r.required? "name" Json.text?
    symbol := ← r.optional? "symbol" (Json.nat? maxIndex) }

end SnapshotNode

/-- A symbol and its primary node. -/
structure SnapshotSymbol where
  id : String
  primaryNode : Nat
  deriving DecidableEq

namespace SnapshotSymbol

def toJson (s : SnapshotSymbol) : Json :=
  .object [("preciseId", .string s.id), ("primaryNode", .nat s.primaryNode)]

def ofJson? (j : Json) : Option SnapshotSymbol := do
  let r ← Json.record? ["preciseId", "primaryNode"] j
  return {
    id := ← r.required? "preciseId" Json.text?
    primaryNode := ← r.required? "primaryNode" (Json.nat? maxIndex) }

end SnapshotSymbol

structure Snapshot where
  bundle : String
  nodes : List SnapshotNode
  symbols : List SnapshotSymbol
  version : Nat
  deriving DecidableEq

namespace Snapshot

/-- The version of the format that is read and written. -/
def currentVersion : Nat := 1

def toJson (s : Snapshot) : Json :=
  .object [("bundleId", .string s.bundle),
    ("hierarchy", .object [("nodes", .ofList SnapshotNode.toJson s.nodes),
      ("symbols", .ofList SnapshotSymbol.toJson s.symbols)]),
    ("version", .nat s.version)]

def version? (names : List String) (j : Json) : Option Nat := do
  (← Json.record? names j).required? "version" (Json.nat? 0xFFFFFFFF)

def hierarchy? (j : Json) : Option (List SnapshotNode × List SnapshotSymbol) := do
  let r ← Json.record? ["nodes", "symbols"] j
  return (← r.required? "nodes" (Json.items? SnapshotNode.ofJson?),
    ← r.required? "symbols" (Json.items? SnapshotSymbol.ofJson?))

/-- Why a snapshot cannot be read. -/
inductive DecodeError where
  | malformed
  | version (found : Nat)
  deriving DecidableEq

def body? (j : Json) : Option Snapshot := do
  let names := ["bundleId", "hierarchy", "version"]
  let r ← Json.record? names j
  let bundle ← r.required? "bundleId" Json.text?
  let (nodes, symbols) ← r.required? "hierarchy" hierarchy?
  return { bundle, nodes, symbols, version := ← version? names j }

/-- Read a snapshot. The version is looked at before the rest, as the only field
of its record. -/
def ofJson (j : Json) : Except DecodeError Snapshot :=
  match version? ["version"] j with
  | none => .error .malformed
  | some v =>
    if v ≠ currentVersion then .error (.version v)
    else match body? j with
      | some s => .ok s
      | none => .error .malformed

/-- The text of a snapshot. -/
def encode (s : Snapshot) : String := s.toJson.pretty

def decode (text : String) : Except DecodeError Snapshot :=
  match Json.parse? text with
  | some j => ofJson j
  | none => .error .malformed

/-! From trees and back. -/

def entriesOf (n : Node) : List SnapshotEntry :=
  n.children.entries.flatMap fun (name, es) => es.map (.ofEntry name)

/-- Flatten a tree. A node refers to its symbol by position in the table. -/
def ofTree (bundle : String) (t : PathTree) : Snapshot :=
  let ids := t.primary.keys
  { bundle
    nodes := t.nodes.toList.map fun n => {
      children := entriesOf n
      languages := n.languages.toList
      name := n.name
      symbol := n.symbol.bind fun id => ids.findIdx? (· == id) }
    symbols := t.primary.entries.map fun (id, node) => ⟨id, node⟩
    version := currentVersion }

/-- Why a snapshot is not a tree. -/
inductive Corruption where
  | noRoot
  | childOutOfRange (node child : Nat)
  | twoParents (node : Nat)
  | unreachable (node : Nat)
  | primaryOutOfRange (id : String) (node : Nat)
  | symbolOutOfRange (name : String) (index : Nat)
  deriving DecidableEq

def Corruption.message : Corruption → String
  | .noRoot => "hierarchy has no root node"
  | .childOutOfRange node child =>
    "node " ++ toString node ++ " has child index " ++ toString child ++ " out of range"
  | .twoParents node => "node " ++ toString node ++ " has two parents"
  | .unreachable node => "node " ++ toString node ++ " is unreachable"
  | .primaryOutOfRange id node =>
    "symbol '" ++ id ++ "' has node index " ++ toString node ++ " out of range"
  | .symbolOutOfRange name index =>
    "node '" ++ name ++ "' has symbol index " ++ toString index ++ " out of range"

/-- The parents found so far, by child. -/
abbrev Parents := Array (Option Nat)

/-- Note that a node lists another one. -/
def noteParent (parents : Parents) : Nat × Nat → Except Corruption Parents
  | (parent, child) =>
    if child = 0 ∨ parents.size ≤ child then .error (.childOutOfRange parent child)
    else match parents[child]? with
      | some (some p) => if p = parent then .ok parents else .error (.twoParents child)
      | _ => .ok (parents.setIfInBounds child (some parent))

def checkRoot (nodes : List SnapshotNode) : Except Corruption Unit :=
  if nodes.isEmpty then .error .noRoot else .ok ()

/-- Every node with every node it lists, in the order they are written. -/
def links (nodes : List SnapshotNode) : List (Nat × Nat) :=
  nodes.zipIdx.flatMap fun (n, i) => n.children.map fun e => (i, e.node)

/-- The parent of every node. No node may have two. -/
def parentsOf (nodes : List SnapshotNode) : Except Corruption Parents :=
  (links nodes).foldlM noteParent (Array.replicate nodes.length none)

/-- Positions of the nodes that node `i` lists. -/
def childNodes (nodes : List SnapshotNode) (i : Nat) : List Nat :=
  nodes[i]?.elim [] fun n => n.children.map (·.node)

/-- Marking a node leaves fewer nodes unmarked. -/
theorem count_mark {reached : Array Bool} {i : Nat} (h : reached[i]? = some false) :
    (reached.setIfInBounds i true).count false < reached.count false := by
  obtain ⟨hi, hf⟩ := Array.getElem?_eq_some_iff.mp h
  have hpos : 0 < reached.count false := Array.count_pos_iff.mpr (hf ▸ Array.getElem_mem hi)
  rw [Array.setIfInBounds_def, dif_pos hi, Array.count_set, hf, if_pos (by decide),
    if_neg (by decide)]
  omega

/-- Mark what can be reached from the nodes still to be visited, the last child of
a node first. A visit marks a node or leaves one node less to visit. -/
def reach (nodes : List SnapshotNode) (reached : Array Bool) : List Nat → Array Bool
  | [] => reached
  | i :: pending =>
    if _h : reached[i]? = some false then
      reach nodes (reached.setIfInBounds i true) ((childNodes nodes i).reverse ++ pending)
    else reach nodes reached pending
termination_by pending => (reached.count false, pending.length)
decreasing_by
  · exact .left _ _ (count_mark _h)
  · exact .right _ (by simp)

/-- The first node that cannot be reached from the root. -/
def orphan? (nodes : List SnapshotNode) : Option Nat :=
  (reach nodes (Array.replicate nodes.length false) [PathTree.root]).findIdx? (!·)

def checkReached (nodes : List SnapshotNode) : Except Corruption Unit :=
  match orphan? nodes with
  | some orphan => .error (.unreachable orphan)
  | none => .ok ()

/-- List an entry, unless its node is listed. -/
def listEntry (listed : List Entry) (e : SnapshotEntry) : List Entry :=
  if listed.any (·.node == e.node) then listed else listed ++ [⟨e.hash, e.kind, e.node⟩]

/-- The children of a node by name. A node is listed once below each name. -/
def childrenOf (es : List SnapshotEntry) : KeyMap String (List Entry) :=
  es.foldl (fun children e => children.alter e.name fun listed => listEntry (listed.getD []) e) ∅

/-- The node of a snapshot under its parent. -/
def restoreNode (symbols : List SnapshotSymbol) (n : SnapshotNode) (parent : Option Nat) :
    Except Corruption Node := do
  let symbol ← match n.symbol with
    | none => pure none
    | some i => match symbols[i]? with
      | some s => pure (some s.id)
      | none => throw (.symbolOutOfRange n.name i)
  return { children := childrenOf n.children, languages := .ofList n.languages, name := n.name,
           parent, symbol }

/-- The nodes that stand for a symbol, each with its symbol's identifier. -/
def carriers (nodes : List Node) : List (String × NodeId) :=
  nodes.zipIdx.filterMap fun (n, i) => n.symbol.map (·, i)

/-- The nodes of each symbol, in ascending order. -/
def spellingsIn (nodes : List Node) : KeyMap String (List NodeId) :=
  (carriers nodes).foldl (fun found c => found.alter c.1 fun ids => ids.getD [] ++ [c.2]) ∅

/-- The primary nodes. The last entry of a symbol counts. -/
def primaryIn (count : Nat) (symbols : List SnapshotSymbol) :
    Except Corruption (KeyMap String NodeId) :=
  symbols.foldlM (fun primary sym =>
    if count ≤ sym.primaryNode then .error (.primaryOutOfRange sym.id sym.primaryNode)
    else .ok (primary.insert sym.id sym.primaryNode)) ∅

/-- Rebuild the tree, or say what keeps the snapshot from being one. -/
def toTree (s : Snapshot) : Except Corruption PathTree := do
  checkRoot s.nodes
  let parents ← parentsOf s.nodes
  checkReached s.nodes
  let primary ← primaryIn s.nodes.length s.symbols
  let nodes ← s.nodes.zipIdx.mapM fun (n, i) => restoreNode s.symbols n (parents[i]?.join)
  return { nodes := nodes.toArray, primary, spellings := spellingsIn nodes }

end Snapshot

end SymbolLinks
