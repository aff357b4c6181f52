import SymbolLinks.Merge
import SymbolLinks.Snapshot
import SymbolLinks.Tree.Build
import SymbolLinks.Tree.CanonicalPath

/-! The documentation of a set of symbol graphs: the merged symbols, the tree that
links are walked through, and the page of every symbol. -/

namespace SymbolLinks

structure CatalogOptions where
  bundle : String
  /-- Keep documentation inherited from other modules. -/
  inheritDocs : Bool := false

structure Catalog where
  bundle : String
  tree : PathTree
  /-- The page of every symbol that has one. -/
  pages : KeyMap String PageReference
  model : Model

namespace Catalog

/-- Swift graphs first, so that a symbol with several languages takes its primary
language and path from Swift. -/
def ordered (graphs : List SymbolGraph) : List SymbolGraph :=
  graphs.filter (·.language = .swift) ++ graphs.filter (·.language ≠ .swift)

/-- Add a module and its symbols, all of them as pages. -/
def ingest (m : Model) (g : SymbolGraph) : Model :=
  let symbols := Symbol.ofModule g.moduleName g.language :: g.symbols.map (·.toSymbol g.moduleName)
  symbols.foldl (fun m s => ⟨m.store.insert s, m.topics.addNode s.id⟩) m

/-- The container of a member in a language: the first one that the graphs of that
language record. -/
def members (graphs : List SymbolGraph) : PathTree.MemberTable := fun l id =>
  graphs.findSome? fun g =>
    if g.language = l then
      (g.edges.find? fun e => e.kind = .memberOf ∧ e.source = id).map (·.target)
    else none

/-- Merge the edges of all graphs, each graph under its own selector. -/
def mergeGraphs (o : CatalogOptions) (graphs : List SymbolGraph) (m : Model) :
    Model × List Problem :=
  let extended := ExtendedModules.ofEdges (graphs.flatMap (·.edges))
  graphs.foldl (fun (m, problems) g =>
    let (m, new) := m.mergeAll extended ⟨o.bundle, o.inheritDocs, g.moduleName⟩ g.selector g.edges
    (m, problems ++ new)) (m, [])

/-- The page of each symbol with a URL path. -/
def pagesOf (bundle : String) (st : SymbolStore) (paths : KeyMap String String) :
    KeyMap String PageReference :=
  paths.map fun id path =>
    ⟨bundle, ((st.get? id).map (·.language)).getD .swift, "/documentation" ++ path⟩

/-- Document a set of graphs. Problems do not keep the rest from being built. -/
def build (graphs : List SymbolGraph) (o : CatalogOptions) : Catalog × List Problem :=
  let graphs := ordered graphs
  let (model, problems) := mergeGraphs o graphs (graphs.foldl ingest ∅)
  let tree := PathTree.build model.store (members graphs)
  ({ bundle := o.bundle, tree, model, pages := pagesOf o.bundle model.store tree.canonicalPaths },
    problems)

/-- What other documentation sets have to know of a symbol with a page. -/
def summarize (id : String) (page : PageReference) (s : Symbol) : Summary where
  abstract? := s.abstract?
  declaration := s.declaration
  kind := s.kind
  language := s.language
  id := id
  page := page
  title := s.title

/-- A summary of every symbol with a page, by identifier. -/
def summaries (c : Catalog) : List Summary :=
  c.pages.entries.filterMap fun (id, page) => (c.model.store.get? id).map (summarize id page)

def snapshot (c : Catalog) : Snapshot := .ofTree c.bundle c.tree

end Catalog

end SymbolLinks
