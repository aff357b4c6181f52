import SymbolLinks.Link.Component
import SymbolLinks.Tree.Basic

/-! Telling apart the nodes that share a name: which of them a suffix selects, and
the shortest suffix that selects each. -/

namespace SymbolLinks

/-- The shortest suffix for one of several nodes. -/
inductive Disambiguator where
  | hash (text : String)
  | kind (text : String)
  deriving DecidableEq

namespace Disambiguator

/-- The suffix without its dash. -/
def text : Disambiguator → String
  | .hash t | .kind t => t

end Disambiguator

namespace Entry

/-- Whether an entry has everything that a suffix asks for. -/
def matchesSuffix (t : PathTree) (s : Link.Suffix) (e : Entry) : Bool :=
  s.kind.all (fun k => e.kind == some k) && s.hash.all (fun h => e.hash == some h) &&
    s.language.all (t.hasLanguage e.node)

/-- Suffix for an entry among the entries it has to be told from: none if it is
alone, its kind if no other entry has that kind, else its hash. -/
def disambiguator? (group : List Entry) (e : Entry) : Option Disambiguator :=
  if group.length ≤ 1 then none
  else match e.kind with
    | some k =>
      if (group.filter (·.kind == some k)).length = 1 then some (.kind k)
      else e.hash.map .hash
    | none => e.hash.map .hash

/-- The entries selected by a suffix, or all of them without one. -/
def select (t : PathTree) (suffix : Option Link.Suffix) (es : List Entry) : List Entry :=
  match suffix with
  | none => es
  | some s => es.filter (matchesSuffix t s)

end Entry

end SymbolLinks
