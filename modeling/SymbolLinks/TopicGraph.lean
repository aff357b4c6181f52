import SymbolLinks.Data.KeyMap
import SymbolLinks.Json.Value

/-! Which pages appear under which. -/

namespace SymbolLinks

structure TopicGraph where
  /-- Children of each page that has some. -/
  edges : KeyMap String (KeySet String)
  /-- The pages that can take part in an edge. -/
  nodes : KeySet String
  deriving DecidableEq

namespace TopicGraph

instance : EmptyCollection TopicGraph := ⟨⟨∅, ∅⟩⟩

def contains (g : TopicGraph) (id : String) : Bool := g.nodes.contains id

def addNode (g : TopicGraph) (id : String) : TopicGraph := { g with nodes := g.nodes.add id }

/-- Put `child` under `parent`. Both have to be pages already. -/
def addEdge? (g : TopicGraph) (parent child : String) : Option TopicGraph :=
  if g.contains parent && g.contains child then
    some { g with edges := g.edges.alter parent fun cs => (cs.getD ∅).add child }
  else none

def children (g : TopicGraph) (id : String) : List String := (g.edges.get? id).elim [] KeySet.toList

def toJson (g : TopicGraph) : Json :=
  .object [("edges", .object (g.edges.entries.map fun (p, cs) => (p, .strings cs.toList))),
    ("nodes", .strings g.nodes.toList)]

end TopicGraph

end SymbolLinks
