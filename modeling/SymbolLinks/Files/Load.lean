import SymbolLinks.Config.Basic
import SymbolLinks.Files.Basic
import SymbolLinks.Json.Parser
import SymbolLinks.Json.Printer
import SymbolLinks.LoadError
import SymbolLinks.Resolve

/-! Reading configurations, symbol graphs and snapshots out of files, and writing
snapshots. -/

namespace SymbolLinks

def LoadError.ofDecodeError : Snapshot.DecodeError → LoadError
  | .malformed => .json "not a snapshot"
  | .version found => .snapshotVersion Snapshot.currentVersion found

/-- Graphs whose paths are relative to `directory`, seen from outside of it. -/
def Config.under (directory : String) (c : Config) : Config :=
  { c with graphs := c.graphs.map (Path.join directory) }

namespace FileSystem

/-- Ending of the names of symbol graph files. -/
def graphSuffix : String := ".symbols.json"

variable {m : Type → Type} [Monad m]

/-- The text of a file, with the error to report when there is none. -/
def text (fs : FileSystem m) (path : String) (missing : LoadError) :
    ExceptT LoadError m String := do
  match ← fs.read path with
  | .ok content => return content
  | .error .missing => throw missing
  | .error (.unusable reason) => throw (.io reason)

/-- What the text of a file stands for. -/
def decoded {α : Type} (fs : FileSystem m) (path : String) (decode : String → Except LoadError α) :
    ExceptT LoadError m α := do
  liftExcept (decode (← fs.text path (.fileNotFound path)))
where
  liftExcept (r : Except LoadError α) : ExceptT LoadError m α := ExceptT.mk (pure r)

private def required {α : Type} (what : String) (r : Option α) : Except LoadError α :=
  match r with
  | some a => .ok a
  | none => .error (.json ("not " ++ what))

private def parseConfig (directory content : String) : ExceptT LoadError m Config :=
  match Config.parse? content with
  | some c => return c.under directory
  | none => throw (.toml "not a configuration")

/-- The configuration of a project; the default one if it has no file for it. -/
def config (fs : FileSystem m) (directory : String) : ExceptT LoadError m Config := do
  match ← fs.read (Path.join directory Config.fileName) with
  | .ok content => parseConfig directory content
  | .error .missing => return { }
  | .error (.unusable reason) => throw (.io reason)

/-- The configuration in a file, which has to exist. -/
def configFile (fs : FileSystem m) (path : String) : ExceptT LoadError m Config := do
  parseConfig (Path.parent path) (← fs.text path (.configNotFound path))

/-- The symbol graph files below a directory, by the names on the way to them. -/
def graphFilesBelow (fs : FileSystem m) (directory : String) : m (List String) := do
  let files := (← fs.filesBelow directory).filter fun names =>
    (names.getLast?.getD "").endsWith graphSuffix
  let sorted := files.mergeSort fun a b => compare a b != .gt
  return sorted.map fun names => names.foldl Path.join directory

/-- The symbol graph files that paths stand for: a file stands for itself, whatever
its name, and a directory for the graphs below it. -/
def graphFiles (fs : FileSystem m) (paths : List String) : ExceptT LoadError m (List String) := do
  let found ← paths.mapM fun path => show ExceptT LoadError m (List String) from do
    if ← fs.isDirectory path then fs.graphFilesBelow path
    else if ← fs.isPresent path then return [path]
    else throw (.fileNotFound path)
  if found.flatten.isEmpty then throw (.noSymbolGraphs paths) else return found.flatten

def graph (fs : FileSystem m) (path : String) : ExceptT LoadError m SymbolGraph :=
  fs.decoded path fun content =>
    required "a symbol graph" (Json.parse? content >>= SymbolGraph.ofJson?)

/-- All symbol graphs that paths stand for. -/
def graphs (fs : FileSystem m) (paths : List String) : ExceptT LoadError m (List SymbolGraph) := do
  (← fs.graphFiles paths).mapM fs.graph

def snapshot (fs : FileSystem m) (path : String) : ExceptT LoadError m Snapshot :=
  fs.decoded path fun content => (Snapshot.decode content).mapError .ofDecodeError

def summaries (fs : FileSystem m) (path : String) : ExceptT LoadError m (List Summary) :=
  fs.decoded path fun content => required "a list of summaries" (Summary.decodeList? content)

/-- What a snapshot and its summaries let links lead to. -/
def destinations (fs : FileSystem m) (snapshotPath summariesPath : String) :
    ExceptT LoadError m Destinations := do
  let s ← fs.snapshot snapshotPath
  let summaries ← fs.summaries summariesPath
  match Destinations.ofSnapshot s summaries with
  | .ok d => return d
  | .error corruption => throw (.snapshotCorrupt corruption.message)

def ensureDirectory (fs : FileSystem m) (path : String) : ExceptT LoadError m Unit := do
  match ← fs.createDirectories path with
  | .ok () => return ()
  | .error .missing => throw (.io "no such directory")
  | .error (.unusable reason) => throw (.io reason)

def writeText (fs : FileSystem m) (path content : String) : ExceptT LoadError m Unit := do
  match ← fs.write path content with
  | .ok () => return ()
  | .error reason => throw (.io reason)

def writeSnapshot (fs : FileSystem m) (path : String) (s : Snapshot) : ExceptT LoadError m Unit :=
  fs.writeText path s.encode

def writeSummaries (fs : FileSystem m) (path : String) (ss : List Summary) :
    ExceptT LoadError m Unit :=
  fs.writeText path (Summary.encodeList ss)

end FileSystem

end SymbolLinks
