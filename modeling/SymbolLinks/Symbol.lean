import SymbolLinks.Constraint
import SymbolLinks.Data.KeyMap
import SymbolLinks.Kind
import SymbolLinks.Reference
import SymbolLinks.Selector

/-! Documented symbols with what merging adds to them. -/

namespace SymbolLinks

/-- Append an element unless it is present. -/
def addNew {α : Type} [DecidableEq α] (xs : List α) (x : α) : List α :=
  if x ∈ xs then xs else xs ++ [x]

structure DocComment where
  lines : List String
  /-- Module the comment was written in, if recorded. -/
  moduleName : Option String
  deriving DecidableEq

namespace DocComment

def toJson (c : DocComment) : Json :=
  .object [("lines", .strings c.lines), ("module", .ofOption .string c.moduleName)]

end DocComment

/-- The declaration that an inherited member came from. -/
structure Origin where
  displayName : String
  identifier : String
  deriving DecidableEq

namespace Origin

def toJson (o : Origin) : Json :=
  .object [("displayName", .string o.displayName), ("identifier", .string o.identifier)]

def ofJson? (j : Json) : Option Origin := do
  let r ← Json.record? ["displayName", "identifier"] j
  return {
    displayName := ← r.required? "displayName" Json.text?
    identifier := ← r.required? "identifier" Json.text? }

end Origin

/-- A default implementation of a requirement. -/
structure Implementation where
  /-- Name of the requirement as the graph spells it. -/
  fallbackName : Option String
  /-- Title of the symbol around the implementation. -/
  parent : Option String
  reference : TopicReference
  deriving DecidableEq

namespace Implementation

def toJson (i : Implementation) : Json :=
  .object [("fallbackName", .ofOption .string i.fallbackName),
    ("parent", .ofOption .string i.parent), ("reference", i.reference.toJson)]

end Implementation

/-- Display names of symbols outside the model, by identifier. -/
abbrev Fallbacks := KeyMap String String

def Fallbacks.toJson (f : Fallbacks) : Json :=
  .object (f.entries.map fun (id, name) => (id, .string name))

/-- Default implementations of one requirement under one selector. -/
structure ImplementationSection where
  implementations : List Implementation := []
  fallbacks : Fallbacks := ∅
  deriving DecidableEq

namespace ImplementationSection

def toJson (s : ImplementationSection) : Json :=
  .object [("implementations", .ofList Implementation.toJson s.implementations),
    ("targetFallbacks", s.fallbacks.toJson)]

end ImplementationSection

/-- One side of a relationship, kept on the symbol it belongs to. -/
inductive Relation where
  /-- The target conforms to the owner. -/
  | conformingType (constraints : List Constraint) (target : TopicReference)
  | conformsTo (constraints : List Constraint) (target : TopicReference)
  /-- The target inherits from the owner. -/
  | inheritedBy (target : TopicReference)
  | inheritsFrom (target : TopicReference)
  deriving DecidableEq

namespace Relation

def target : Relation → TopicReference
  | .conformingType _ t | .conformsTo _ t | .inheritedBy t | .inheritsFrom t => t

private def conditional (kind : String) (cs : List Constraint) (t : TopicReference) : Json :=
  .object [("kind", .string kind), ("constraints", .ofList Constraint.toJson cs),
    ("target", t.toJson)]

private def plain (kind : String) (t : TopicReference) : Json :=
  .object [("kind", .string kind), ("target", t.toJson)]

def toJson : Relation → Json
  | .conformingType cs t => conditional "conformingType" cs t
  | .conformsTo cs t => conditional "conformsTo" cs t
  | .inheritedBy t => plain "inheritedBy" t
  | .inheritsFrom t => plain "inheritsFrom" t

end Relation

/-- Relations of one symbol under one selector, in the order they were merged. -/
structure RelationSection where
  relations : List Relation := []
  fallbacks : Fallbacks := ∅
  deriving DecidableEq

namespace RelationSection

def toJson (s : RelationSection) : Json :=
  .object [("relationships", .ofList Relation.toJson s.relations),
    ("targetFallbacks", s.fallbacks.toJson)]

end RelationSection

/-- What is known of the extension that declares a symbol, when it extends a type
of another module. -/
structure ExtensionInfo where
  constraints : List Constraint
  extendedKind : Kind
  extendedModule : String
  deriving DecidableEq

namespace ExtensionInfo

def toJson (e : ExtensionInfo) : Json :=
  .object [("constraints", .ofList Constraint.toJson e.constraints),
    ("extendedKind", e.extendedKind.toJson), ("extendedModule", .string e.extendedModule)]

end ExtensionInfo

structure Symbol where
  declaration : Option String := none
  implementations : KeyMap Selector ImplementationSection := ∅
  comment : Option DocComment := none
  isRequired : Bool := false
  kind : Kind
  /-- Primary language, that of the first graph with the symbol. -/
  language : Language
  moduleName : String
  /-- Path below the module in each language that spells the symbol. -/
  names : KeyMap Language (List String)
  origin : Option Origin := none
  id : String
  relations : KeyMap Selector RelationSection := ∅
  extensionInfo : Option ExtensionInfo := none
  title : String
  deriving DecidableEq

namespace Symbol

/-- The symbol of a module, which has the module's name as identifier. -/
def ofModule (name : String) (language : Language) : Symbol where
  kind := .module_
  language := language
  moduleName := name
  names := .singleton language []
  id := name
  title := name

/-- Path below the module in the primary language. -/
def path (s : Symbol) : List String := (s.names.get? s.language).getD []

/-- Text shown next to the symbol in suggestions. -/
def hint (s : Symbol) : String := s.declaration.getD s.title

/-- First paragraph of the comment, in one line. -/
def abstract? (s : Symbol) : Option String :=
  match s.comment with
  | none => none
  | some c =>
    let trimmed := c.lines.map fun l => String.ofList (Text.trim l.toList)
    let paragraph := (trimmed.dropWhile (·.isEmpty)).takeWhile (!·.isEmpty)
    if paragraph.isEmpty then none else some (String.intercalate " " paragraph)

/-- Whether the comment was written in module `name`; `none` without a comment
line to judge. A comment with no recorded module counts as written in place. -/
def commentIsFrom? (s : Symbol) (name : String) : Option Bool :=
  match s.comment with
  | none => none
  | some c =>
    if c.lines.isEmpty then none
    else some (match c.moduleName with
      | none => true
      | some m => m == name)

/-- Record a constraint of the extension that declares the symbol. The first
call decides the extended module and kind. -/
def addExtensionConstraint (s : Symbol) (extendedModule : String) (extendedKind : Kind)
    (c : Constraint) : Symbol :=
  let info := s.extensionInfo.getD ⟨[], extendedKind, extendedModule⟩
  { s with extensionInfo := some { info with constraints := addNew info.constraints c } }

def modifyRelations (s : Symbol) (sel : Selector) (f : RelationSection → RelationSection) :
    Symbol :=
  { s with relations := s.relations.alter sel fun sec => f (sec.getD {}) }

def modifyImplementations (s : Symbol) (sel : Selector)
    (f : ImplementationSection → ImplementationSection) : Symbol :=
  { s with implementations := s.implementations.alter sel fun sec => f (sec.getD {}) }

def relate (s : Symbol) (sel : Selector) (r : Relation) : Symbol :=
  s.modifyRelations sel fun sec => { sec with relations := addNew sec.relations r }

/-- Keep the display name of a relation's target outside the model. -/
def nameTarget (s : Symbol) (sel : Selector) (id name : String) : Symbol :=
  s.modifyRelations sel fun sec => { sec with fallbacks := sec.fallbacks.insert id name }

def addImplementation (s : Symbol) (sel : Selector) (i : Implementation) : Symbol :=
  s.modifyImplementations sel fun sec =>
    { sec with implementations := addNew sec.implementations i }

/-- Keep the display name of a requirement outside the model. -/
def nameRequirement (s : Symbol) (sel : Selector) (id name : String) : Symbol :=
  s.modifyImplementations sel fun sec => { sec with fallbacks := sec.fallbacks.insert id name }

def toJson (s : Symbol) : Json :=
  .object [
    ("declaration", .ofOption .string s.declaration),
    ("defaultImplementations",
      .object (s.implementations.entries.map fun (sel, sec) => (sel.text, sec.toJson))),
    ("docComment", .ofOption DocComment.toJson s.comment),
    ("isRequired", .bool s.isRequired),
    ("kind", s.kind.toJson),
    ("language", s.language.toJson),
    ("module", .string s.moduleName),
    ("names", .object (s.names.entries.map fun (l, path) => (l.identifier, .strings path))),
    ("origin", .ofOption Origin.toJson s.origin),
    ("preciseId", .string s.id),
    ("relationships",
      .object (s.relations.entries.map fun (sel, sec) => (sel.text, sec.toJson))),
    ("swiftExtension", .ofOption ExtensionInfo.toJson s.extensionInfo),
    ("title", .string s.title)]

end Symbol

end SymbolLinks
