import SymbolLinks.Symbol

/-! Symbol graphs: what a compiler records of one module, for one language and
platform. -/

namespace SymbolLinks

/-- Kinds of edges between symbols. -/
inductive EdgeKind where
  /-- The source conforms to the target protocol. -/
  | conformsTo
  /-- The source, an extended type, is declared in the target module. -/
  | declaredIn
  /-- The source implements the target requirement by default. -/
  | defaultImplementationOf
  | extensionTo
  | inheritsFrom
  | memberOf
  | optionalRequirementOf
  | overrides
  | requirementOf
  | other
  deriving DecidableEq

namespace EdgeKind

def name : EdgeKind → String
  | .conformsTo => "conformsTo"
  | .declaredIn => "declaredIn"
  | .defaultImplementationOf => "defaultImplementationOf"
  | .extensionTo => "extensionTo"
  | .inheritsFrom => "inheritsFrom"
  | .memberOf => "memberOf"
  | .optionalRequirementOf => "optionalRequirementOf"
  | .overrides => "overrides"
  | .requirementOf => "requirementOf"
  | .other => "other"

/-- Unknown names stand for `other`. -/
def ofName (s : String) : EdgeKind :=
  ([conformsTo, declaredIn, defaultImplementationOf, extensionTo, inheritsFrom, memberOf,
    optionalRequirementOf, overrides, requirementOf].find? (·.name == s)).getD .other

end EdgeKind

/-- A directed edge between two symbols, given by their identifiers. -/
structure Edge where
  kind : EdgeKind
  source : String
  /-- The declaration the source was inherited from. -/
  origin : Option Origin := none
  constraints : List Constraint := []
  target : String
  /-- Display name of a target outside the graph. -/
  fallback : Option String := none
  deriving DecidableEq

namespace Edge

def toJson (e : Edge) : Json :=
  .object [("kind", .string e.kind.name), ("source", .string e.source),
    ("sourceOrigin", .ofOption Origin.toJson e.origin),
    ("swiftConstraints", .ofList Constraint.toJson e.constraints),
    ("target", .string e.target), ("targetFallback", .ofOption .string e.fallback)]

def ofJson? (j : Json) : Option Edge := do
  let r ← Json.record?
    ["kind", "source", "sourceOrigin", "swiftConstraints", "target", "targetFallback"] j
  return {
    kind := .ofName (← r.required? "kind" Json.alternative?)
    source := ← r.required? "source" Json.text?
    origin := ← r.optional? "sourceOrigin" Origin.ofJson?
    constraints := ← r.listed? "swiftConstraints" Constraint.ofJson?
    target := ← r.required? "target" Json.text?
    fallback := ← r.optional? "targetFallback" Json.text? }

end Edge

/-- A symbol as its graph lists it. -/
structure GraphSymbol where
  /-- The spelling of the declaration's tokens, joined. -/
  declaration : Option String := none
  comment : Option DocComment := none
  language : Language
  id : String
  /-- Readable name of the kind. -/
  kindName : Option String := none
  kind : Kind
  title : String
  /-- Path below the module in the graph's language. -/
  path : List String
  deriving DecidableEq

namespace GraphSymbol

def toSymbol (g : GraphSymbol) (moduleName : String) : Symbol where
  declaration := g.declaration
  comment := g.comment
  kind := g.kind
  language := g.language
  moduleName := moduleName
  names := .singleton g.language g.path
  id := g.id
  title := g.title

private def fragment? (j : Json) : Option String := do
  (← Json.record? ["spelling"] j).required? "spelling" Json.text?

private def line? (j : Json) : Option String := do
  (← Json.record? ["text"] j).required? "text" Json.text?

private def comment? (j : Json) : Option DocComment := do
  let r ← Json.record? ["lines", "module"] j
  return { lines := ← r.listed? "lines" line?, moduleName := ← r.optional? "module" Json.text? }

private def identifier? (j : Json) : Option (Language × String) := do
  let r ← Json.record? ["interfaceLanguage", "precise"] j
  return (.ofIdentifier (← r.required? "interfaceLanguage" Json.text?),
    ← r.required? "precise" Json.text?)

private def kind? (j : Json) : Option (Option String × Kind) := do
  let r ← Json.record? ["displayName", "identifier"] j
  return (← r.optional? "displayName" Json.text?,
    .ofIdentifier (← r.required? "identifier" Json.text?))

private def title? (j : Json) : Option String := do
  (← Json.record? ["title"] j).required? "title" Json.text?

def ofJson? (j : Json) : Option GraphSymbol := do
  let r ← Json.record?
    ["declarationFragments", "docComment", "identifier", "kind", "names", "pathComponents"] j
  let fragments ← r.listed? "declarationFragments" fragment?
  let comment ← r.optional? "docComment" comment?
  let (language, id) ← r.required? "identifier" identifier?
  let (kindName, kind) ← r.required? "kind" kind?
  let title ← r.required? "names" title?
  let path ← r.required? "pathComponents" (Json.items? Json.text?)
  return {
    declaration := if fragments.isEmpty then none else some (String.join fragments)
    comment, language, id, kindName, kind, title, path }

end GraphSymbol

structure SymbolGraph where
  moduleName : String
  /-- Operating system the module was built for. -/
  platform : Option String := none
  edges : List Edge := []
  symbols : List GraphSymbol := []
  deriving DecidableEq

namespace SymbolGraph

/-- Language of the first symbol; Swift if there is none. -/
def language (g : SymbolGraph) : Language :=
  match g.symbols with
  | [] => .swift
  | s :: _ => s.language

def selector (g : SymbolGraph) : Selector := ⟨g.language, g.platform⟩

private def system? (j : Json) : Option String := do
  (← Json.record? ["name"] j).required? "name" Json.text?

private def platform? (j : Json) : Option (Option String) := do
  (← Json.record? ["operatingSystem"] j).optional? "operatingSystem" system?

private def module? (j : Json) : Option (String × Option String) := do
  let r ← Json.record? ["name", "platform"] j
  let name ← r.required? "name" Json.text?
  let platform ← r.optional? "platform" platform?
  return (name, platform.join)

def ofJson? (j : Json) : Option SymbolGraph := do
  let r ← Json.record? ["module", "relationships", "symbols"] j
  let (moduleName, platform) ← r.required? "module" module?
  return {
    moduleName, platform
    edges := ← r.listed? "relationships" Edge.ofJson?
    symbols := ← r.listed? "symbols" GraphSymbol.ofJson? }

end SymbolGraph

end SymbolLinks
