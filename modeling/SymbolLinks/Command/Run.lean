import SymbolLinks.Command.Basic
import SymbolLinks.Files.Load
import SymbolLinks.Tree.Outline

/-! Running a command over a file system. -/

namespace SymbolLinks

/-- What a command has printed. -/
structure Printed where
  out : String := ""
  err : String := ""

/-- The end of a run. -/
structure Report where
  exitCode : UInt8
  printed : Printed

namespace Command

/-- Name and version of the program. -/
def versionLine : String := "symref 0.1.0\n"

/-- File that the tree of a snapshot is written to. -/
def treeFile : String := "link-hierarchy.json"

/-- File that the summaries of a snapshot are written to. -/
def summariesFile : String := "linkable-entities.json"

/-- A run prints, works on files, and may fail; what was printed before a failure
stays. -/
abbrev Run (m : Type → Type) := ExceptT LoadError (StateT Printed m)

namespace Run

variable {m : Type → Type} [Monad m]

def ofLoad {α : Type} (x : ExceptT LoadError m α) : Run m α := ExceptT.mk (liftM x.run)

def print (text : String) : Run m Unit := modify fun p => { p with out := p.out ++ text }

def warn (text : String) : Run m Unit := modify fun p => { p with err := p.err ++ text }

def warnOf (problems : List Problem) : Run m Unit :=
  warn (String.join (problems.map fun p => terminalText p.render))

end Run

open Run

variable {m : Type → Type} [Monad m]

/-- Document the graphs that options and configuration name. -/
def catalog (fs : FileSystem m) (o : GraphOptions) :
    ExceptT LoadError m (Catalog × List Problem) := do
  let config ← match o.config with
    | some path => fs.configFile path
    | none => fs.config "."
  let graphs ← fs.graphs (if o.graphs.isEmpty then config.graphs else o.graphs)
  return Catalog.build graphs
    ⟨o.bundle.getD config.effectiveBundle, o.inheritDocs || config.inheritDocs⟩

/-- The merged model as one JSON value. -/
def mergeReport (c : Catalog) (problems : List Problem) : Json :=
  .object [("problems", .ofList Problem.toJson problems),
    ("symbols", .ofList Symbol.toJson c.model.store.symbols),
    ("topicGraph", c.model.topics.toJson)]

/-- Print where each link leads, and a problem for each that leads nowhere, which
make the run fail. -/
def resolveAll (d : Destinations) (links : List String) (origin : Option String) :
    Run m UInt8 := do
  let failed ← links.filterM fun link => do
    match d.resolve link origin with
    | .ok page =>
      print (link ++ " -> " ++ page.url ++ "\n")
      return false
    | .error failure =>
      warnOf [failure.toProblem link]
      return true
  if failed.isEmpty then return 0
  warn (toString failed.length ++ " of " ++ toString links.length ++ " links failed to resolve\n")
  return 1

/-- Run a command; the result is the exit code. -/
def run (fs : FileSystem m) : Command → Run m UInt8
  | .dump o => do
    let (c, problems) ← ofLoad (catalog fs o)
    warnOf problems
    print c.tree.outline
    return 0
  | .merge o => do
    let (c, problems) ← ofLoad (catalog fs o)
    print ((mergeReport c problems).pretty ++ "\n")
    warnOf problems
    return if problems.isEmpty then 0 else 1
  | .resolve o links origin none => do
    let (c, problems) ← ofLoad (catalog fs o)
    warnOf problems
    resolveAll (.ofCatalog c) links origin
  | .resolve o links origin (some files) => do
    if o.isGiven then
      warn "WARN --graph, --config, --bundle-id and --inherit-docs are ignored with --snapshot\n"
    let d ← ofLoad (fs.destinations files.snapshot files.summaries)
    resolveAll d links origin
  | .snapshot o output => do
    let (c, problems) ← ofLoad (catalog fs o)
    warnOf problems
    ofLoad (fs.ensureDirectory output)
    ofLoad (fs.writeSnapshot (Path.join output treeFile) c.snapshot)
    ofLoad (fs.writeSummaries (Path.join output summariesFile) c.summaries)
    print ("Wrote " ++ toString c.summaries.length ++ " linkable symbols to " ++ output ++ "\n")
    return 0

/-- Run a command to its end. A failure is printed and gives the exit code 2. -/
def report (fs : FileSystem m) (c : Command) : m Report := do
  let (result, printed) ← (c.run fs).run.run { }
  return match result with
  | .ok code => ⟨code, printed⟩
  | .error e => ⟨2, { printed with err := printed.err ++ terminalText e.render }⟩

end Command

end SymbolLinks
