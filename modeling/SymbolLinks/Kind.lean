import SymbolLinks.Json.Value

/-! Kinds of symbols. A kind's identifier doubles as the link suffix that picks
a symbol by its kind. -/

namespace SymbolLinks

/-- The kinds in their order, which is that of their English names. -/
inductive Kind where
  | associatedType
  | class_
  | deinit
  | enum
  | enumCase
  | extendedClass
  | extendedEnum
  | extendedModule
  | extendedProtocol
  | extendedStruct
  | extension
  | func
  | init
  | ivar
  | macro_
  | method
  | module_
  | operator
  /-- A kind without special treatment, named as it was given. -/
  | other (name : String)
  | property
  | protocol
  | struct
  | subscript
  | typeAlias
  | typeMethod
  | typeProperty
  | typeSubscript
  | var
  deriving DecidableEq, Inhabited

namespace Kind

def identifier : Kind → String
  | .associatedType => "associatedtype"
  | .class_ => "class"
  | .deinit => "deinit"
  | .enum => "enum"
  | .enumCase => "enum.case"
  | .extendedClass => "class.extension"
  | .extendedEnum => "enum.extension"
  | .extendedModule => "module.extension"
  | .extendedProtocol => "protocol.extension"
  | .extendedStruct => "struct.extension"
  | .extension => "extension"
  | .func => "func"
  | .init => "init"
  | .ivar => "ivar"
  | .macro_ => "macro"
  | .method => "method"
  | .module_ => "module"
  | .operator => "func.op"
  | .other name => name
  | .property => "property"
  | .protocol => "protocol"
  | .struct => "struct"
  | .subscript => "subscript"
  | .typeAlias => "typealias"
  | .typeMethod => "type.method"
  | .typeProperty => "type.property"
  | .typeSubscript => "type.subscript"
  | .var => "var"

/-- The kinds that have an identifier of their own. -/
def knownKinds : List Kind :=
  [.associatedType, .class_, .deinit, .enum, .enumCase, .extendedClass, .extendedEnum,
   .extendedModule, .extendedProtocol, .extendedStruct, .extension, .func, .init, .ivar, .macro_,
   .method, .module_, .operator, .property, .protocol, .struct, .subscript, .typeAlias, .typeMethod,
   .typeProperty, .typeSubscript, .var]

/-- The kind with this identifier, if it is one that links know. -/
def known? (identifier : List Char) : Option Kind :=
  knownKinds.find? fun k => k.identifier.toList == identifier

/-- Language names that may stand in front of a kind identifier. -/
def languageTags : List String := ["swift", "objc", "objective-c", "occ", "c"]

/-- An identifier without a language name and its dot in front. -/
def withoutLanguage (s : List Char) : List Char :=
  let tag := s.takeWhile (· != '.')
  match s.drop tag.length with
  | _ :: rest => if String.ofList tag ∈ languageTags then rest else s
  | [] => s

/-- The kind a graph's identifier such as `swift.enum.case` names. -/
def ofIdentifier (s : String) : Kind :=
  let bare := withoutLanguage s.toList
  (known? bare).getD (.other (String.ofList bare))

/-- Name of a kind without special treatment. -/
def ownName : Kind → String
  | .other name => name
  | _ => ""

def isOther : Kind → Bool
  | .other _ => true
  | _ => false

instance : Ord Kind := ⟨compareLex (compareOn Kind.ctorIdx) (compareOn ownName)⟩

def toJson (k : Kind) : Json := .string k.identifier

end Kind

end SymbolLinks
