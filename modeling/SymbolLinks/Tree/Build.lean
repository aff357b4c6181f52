import SymbolLinks.Digest.ShortHash
import SymbolLinks.SymbolStore
import SymbolLinks.Tree.Basic

/-! Building the tree from the symbols. Modules come first; then the symbols are
added language by language, Swift first, and shorter paths before longer ones. -/

namespace SymbolLinks.PathTree

/-- The container of a symbol, as the graphs of a language record it. -/
abbrev MemberTable := Language → String → Option String

def spellingOf (s : Symbol) (l : Language) : Spelling :=
  ⟨ShortHash.ofIdentifier s.id, s.kind.identifier, l, s.id⟩

/-- A tree under construction, with the node that stands for each module. The
latest pair for a module counts. -/
structure Builder where
  tree : PathTree
  modules : List (String × NodeId)

/-- Add the node of a module symbol, in each of its languages. -/
def Builder.addModule (b : Builder) (s : Symbol) : Builder :=
  s.names.keys.foldl (fun b l =>
    let (tree, id) := b.tree.addSymbol root s.moduleName (spellingOf s l)
    ⟨tree, (s.moduleName, id) :: b.modules⟩) b

/-- What one language's pass knows: the nodes at the paths of each module, and the
latest node of each symbol. -/
structure Pass extends Builder where
  paths : List ((String × List String) × NodeId)
  placed : List (String × NodeId)

namespace Pass

def nodeAt? (p : Pass) (moduleName : String) (path : List String) : Option NodeId :=
  p.paths.lookup (moduleName, path)

/-- The node of a module, added if no symbol stands for it. -/
def moduleNode (p : Pass) (l : Language) (name : String) : Pass × NodeId :=
  match p.modules.lookup name with
  | some id => (p, id)
  | none =>
    let (tree, id) := p.tree.addHolder root name l
    ({ p with tree, modules := (name, id) :: p.modules }, id)

/-- Go down from `parent`, which is at `walked`, along the names that follow, and
add the nodes that are missing. -/
def descend (l : Language) (moduleName : String) (p : Pass) (parent : NodeId)
    (walked : List String) : List String → Pass × NodeId
  | [] => (p, parent)
  | name :: rest =>
    let here := walked ++ [name]
    match p.nodeAt? moduleName here with
    | some id => descend l moduleName p id here rest
    | none =>
      let (tree, id) := p.tree.addHolder parent name l
      let p := { p with tree, paths := ((moduleName, here), id) :: p.paths }
      descend l moduleName p id here rest

/-- The node of a symbol's recorded container, if it has the name that the
symbol's path asks for. -/
def containerOf? (p : Pass) (members : MemberTable) (l : Language) (s : Symbol)
    (above : List String) : Option NodeId := do
  let target ← members l s.id
  let id ← (p.placed.lookup target).or (p.tree.primary.get? target)
  if above.getLast? = (p.tree.node? id).map (·.name) then some id else none

/-- The node that a symbol goes below: its container, else the node at the path
above it, else the last of the nodes added for that path. -/
def parentFor (p : Pass) (members : MemberTable) (l : Language) (s : Symbol)
    (above : List String) : Pass × NodeId :=
  let (p, moduleId) := p.moduleNode l s.moduleName
  match (p.containerOf? members l s above).or (p.nodeAt? s.moduleName above) with
  | some parent => (p, parent)
  | none => p.descend l s.moduleName moduleId [] above

/-- Record the node at a path, unless there is one. -/
def notePath (p : Pass) (moduleName : String) (path : List String) (id : NodeId) : Pass :=
  match p.nodeAt? moduleName path with
  | some _ => p
  | none => { p with paths := ((moduleName, path), id) :: p.paths }

/-- Add a symbol at its path in a language. -/
def addSymbol (members : MemberTable) (l : Language) (p : Pass) (s : Symbol) (path : List String) :
    Pass :=
  match path.getLast? with
  | none => p
  | some name =>
    let (p, parent) := p.parentFor members l s path.dropLast
    let (tree, id) := p.tree.addSymbol parent name (spellingOf s l)
    { p with tree, placed := (s.id, id) :: p.placed }.notePath s.moduleName path id

end Pass

/-- The order in which symbols are added: by module, then shorter paths first,
then by path and identifier. -/
def compareSpelled (a b : Symbol × List String) : Ordering :=
  (compare a.1.moduleName b.1.moduleName).then <|
    (compare a.2.length b.2.length).then <|
      (compare a.2 b.2).then (compare a.1.id b.1.id)

/-- The symbols other than modules that a language spells, with their paths. -/
def spelledIn (st : SymbolStore) (l : Language) : List (Symbol × List String) :=
  (st.symbols.filterMap fun s =>
    if s.kind = .module_ then none
    else match s.names.get? l with
      | none | some [] => none
      | some path => some (s, path)).mergeSort fun a b => (compareSpelled a b).isLE

/-- One pass over the symbols that are spelled in a language. -/
def Pass.addAll (p : Pass) (members : MemberTable) (l : Language)
    (spelled : List (Symbol × List String)) : Pass :=
  spelled.foldl (fun p (s, path) => p.addSymbol members l s path) p

def Builder.addLanguage (members : MemberTable) (st : SymbolStore) (b : Builder) (l : Language) :
    Builder :=
  (Pass.addAll { b with paths := [], placed := [] } members l (spelledIn st l)).toBuilder

/-- The languages that some symbol is spelled in: Swift, then the others in
order. -/
def languages (st : SymbolStore) : List Language :=
  let all := (KeySet.ofList (st.symbols.flatMap (·.names.keys))).toList
  all.filter (· = .swift) ++ all.filter (· ≠ .swift)

def build (st : SymbolStore) (members : MemberTable) : PathTree :=
  let modules := st.symbols.filter (·.kind = .module_)
  let start := modules.foldl Builder.addModule ⟨initial, []⟩
  ((languages st).foldl (Builder.addLanguage members st) start).tree

end SymbolLinks.PathTree
