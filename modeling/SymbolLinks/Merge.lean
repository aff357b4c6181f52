import SymbolLinks.Problem
import SymbolLinks.SymbolGraph
import SymbolLinks.SymbolStore
import SymbolLinks.TopicGraph

/-! Merging the edges of symbol graphs into the symbols they connect. A merge reads the
model, writes to it and reports problems one after another, on the state that the merges
before it left (`Merging`). Nothing is undone: that an edge with a problem leaves the model
alone depends on all its reports coming before its writes. -/

namespace SymbolLinks

structure MergeOptions where
  /-- Bundle that placeholders point into. -/
  bundle : String
  /-- Keep documentation inherited from other modules. -/
  inheritDocs : Bool
  /-- Module whose graph is merged. -/
  moduleName : String

/-- Whether a member that was inherited from a module keeps its comment: if it was inherited
within its module, if such comments are kept, or if it was not written in another module. -/
def Symbol.KeepsComment (s : Symbol) (originModule : Option String) (o : MergeOptions) : Prop :=
  originModule = some s.moduleName ∨ o.inheritDocs = true ∨
    s.commentIsFrom? o.moduleName ≠ some false

instance (s : Symbol) (originModule : Option String) (o : MergeOptions) :
    Decidable (s.KeepsComment originModule o) :=
  inferInstanceAs (Decidable (_ ∨ _ ∨ _))

/-- A change that merging makes to one symbol. -/
inductive Change where
  | relate (sel : Selector) (r : Relation)
  | nameTarget (sel : Selector) (id name : String)
  | implement (sel : Selector) (i : Implementation)
  | nameRequirement (sel : Selector) (id name : String)
  | require (isRequired : Bool)
  | constrain (extendedModule : String) (c : Constraint)
  | setOrigin (origin : Origin)
  /-- Drop the comment of an inherited member that does not keep it. -/
  | dropComment (originModule : Option String) (o : MergeOptions)

namespace Change

def apply (s : Symbol) : Change → Symbol
  | .relate sel r => s.relate sel r
  | .nameTarget sel id name => s.nameTarget sel id name
  | .implement sel i => s.addImplementation sel i
  | .nameRequirement sel id name => s.nameRequirement sel id name
  | .require isRequired => { s with isRequired }
  | .constrain extendedModule c => s.addExtensionConstraint extendedModule .protocol c
  | .setOrigin origin => { s with origin := some origin }
  | .dropComment originModule o =>
    { s with comment := if s.KeepsComment originModule o then s.comment else none }

theorem id_apply (s : Symbol) (c : Change) : (apply s c).id = s.id := by
  cases c <;> rfl

end Change

/-- The symbols and the pages below pages, as merging changes them. -/
structure Model where
  store : SymbolStore
  topics : TopicGraph
  deriving DecidableEq

namespace Model

instance : EmptyCollection Model := ⟨⟨∅, ∅⟩⟩

/-- Change the symbol with identifier `id`. -/
def change (m : Model) (id : String) (c : Change) : Model :=
  { m with store := m.store.update id (Change.apply · c) (Change.id_apply · c) }

end Model

/-- A merge works on a model and on the problems that were reported so far. -/
abbrev Merging := StateM (Model × List Problem)

namespace Merging

/-- Look something up in the model as it is now. -/
def read {α : Type} (f : Model → α) : Merging α := return f (← get).1

def write (id : String) (c : Change) : Merging Unit := modify fun s => (s.1.change id c, s.2)

/-- Put one page under another. -/
def putUnder (parent child : String) : Merging Unit := modify fun s =>
  ({ s.1 with topics := (s.1.topics.addEdge? parent child).getD s.1.topics }, s.2)

def report (p : Problem) : Merging Unit := modify fun s => (s.1, s.2 ++ [p])

end Merging

/-- The module symbol that an extended type is declared in. -/
abbrev ExtendedModules := String → Option String

/-- Where several edges place one type, the last one counts. -/
def ExtendedModules.ofEdges (edges : List Edge) : ExtendedModules := fun id =>
  (edges.reverse.find? fun e => e.kind = .declaredIn ∧ e.source = id).map (·.target)

namespace Edge

open Merging (read write putUnder report)

/-- The source of an edge. A missing one is reported. -/
def source? (e : Edge) : Merging (Option Symbol) := do
  let found ← read (·.store.get? e.source)
  if found.isNone then report (.symbolNotFound e.source)
  return found

/-- A reference to the target of an edge: to the symbol, or to a stand-in for one outside the
model, in the source's language. A target that no reference can be made to is reported. -/
def target? (e : Edge) (o : MergeOptions) (source : Symbol) : Merging (Option TopicReference) := do
  if ← read (·.store.contains e.target) then return some (.resolved e.target)
  let p := Placeholder.make? e.target source.language o.bundle
  if p.isNone then report (.invalidReference e.target)
  return p.map .unresolved

/-- Write a change with the display name of the target to the source, if the edge has such a
name. -/
def writeName (e : Edge) (c : String → Change) : Merging Unit :=
  match e.fallback with
  | some name => write e.source (c name)
  | none => return

/-- Relate the two ends: `forward` of the target goes to the source and
`backward` of the source goes to a target in the model. A target outside the
model is kept with its display name. -/
def relate (e : Edge) (o : MergeOptions) (sel : Selector) (source : Symbol)
    (forward backward : TopicReference → Relation) : Merging Unit := do
  match ← e.target? o source with
  | none => return
  | some (.resolved target) =>
    write e.source (.relate sel (forward (.resolved target)))
    write target (.relate sel (backward (.resolved e.source)))
  | some (.unresolved p) =>
    e.writeName (.nameTarget sel p.id)
    write e.source (.relate sel (forward (.unresolved p)))

/-- The source conforms to the target. A protocol inherits from the protocols it
conforms to. -/
def mergeConformance (e : Edge) (o : MergeOptions) (sel : Selector) : Merging Unit := do
  let some source ← e.source? | return
  if source.kind = .protocol then e.relate o sel source .inheritsFrom .inheritedBy
  else e.relate o sel source (.conformsTo e.constraints) (.conformingType e.constraints)

def mergeInheritance (e : Edge) (o : MergeOptions) (sel : Selector) : Merging Unit := do
  let some source ← e.source? | return
  e.relate o sel source .inheritsFrom .inheritedBy

/-- The source implements the target by default and appears under it. Both have
to be pages; for a requirement outside the model only its display name is kept. -/
def mergeImplementation (e : Edge) (o : MergeOptions) (sel : Selector) : Merging Unit := do
  let some source ← e.source? | return
  match ← e.target? o source with
  | none => return
  | some (.resolved target) =>
    match ← read fun m => [target, e.source].filter (!m.topics.contains ·) with
    | [] =>
      let parent ← read fun m => (m.store.parentOf? source).map (·.title)
      write target (.implement sel ⟨e.fallback, parent, .resolved e.source⟩)
      putUnder target e.source
    | missing => missing.forM fun id => report (.symbolNotFound id)
  | some (.unresolved p) =>
    e.writeName (.nameRequirement sel p.id)

/-- The source is a required or an optional member of a protocol. -/
def mergeRequirement (e : Edge) (required : Bool) : Merging Unit := do
  let some _ ← e.source? | return
  write e.source (.require required)

/-- Titles of the module that is extended and of its protocol, if the target is a protocol
of another module. -/
def extendedProtocol? (e : Edge) (extended : ExtendedModules) (m : Model) :
    Option (String × String) := do
  let moduleId ← extended e.target
  let proto ← (m.store.get? e.target).filter (·.kind = .extendedProtocol)
  let moduleSymbol ← m.store.get? moduleId
  return (moduleSymbol.title, proto.title)

/-- A member of an extension of another module's protocol shows the protocol as
the constraint `Self == Protocol`. -/
def mergeExtensionMember (e : Edge) (extended : ExtendedModules) : Merging Unit := do
  let some (moduleTitle, protocolTitle) ← read (e.extendedProtocol? extended) | return
  write e.source (.constrain moduleTitle ⟨.sameType, "Self", protocolTitle⟩)

/-- Merge one edge. -/
def merge (e : Edge) (extended : ExtendedModules) (o : MergeOptions) (sel : Selector) :
    Merging Unit :=
  match e.kind with
  | .conformsTo => e.mergeConformance o sel
  | .defaultImplementationOf => e.mergeImplementation o sel
  | .inheritsFrom => e.mergeInheritance o sel
  | .memberOf => e.mergeExtensionMember extended
  | .optionalRequirementOf => e.mergeRequirement false
  | .requirementOf => e.mergeRequirement true
  | .declaredIn | .extensionTo | .other | .overrides => return

/-- Record where an inherited member came from, and drop a comment it inherited
from another module unless such comments are kept. -/
def mergeOrigin (e : Edge) (o : MergeOptions) (m : Model) : Model :=
  if e.kind = .memberOf ∨ e.kind = .defaultImplementationOf then
    match e.origin with
    | none => m
    | some origin =>
      let originModule := (m.store.get? origin.identifier).map (·.moduleName)
      (m.change e.source (.setOrigin origin)).change e.source (.dropComment originModule o)
  else m

end Edge

namespace Model

/-- Merge one edge and collect its problems. -/
def mergeEdge (extended : ExtendedModules) (o : MergeOptions) (sel : Selector) (m : Model)
    (e : Edge) : Model × List Problem :=
  ((e.merge extended o sel).run (m, [])).2

/-- Merge the edges of one graph in turn, then record the origins of inherited
members. -/
def mergeAll (extended : ExtendedModules) (o : MergeOptions) (sel : Selector) (edges : List Edge)
    (m : Model) : Model × List Problem :=
  let (m, problems) := ((edges.forM (·.merge extended o sel)).run (m, [])).2
  (edges.foldl (fun m e => e.mergeOrigin o m) m, problems)

end Model

end SymbolLinks
