import SymbolLinks.Data.KeyMap
import SymbolLinks.Files.Basic

/-! A file system in memory: a directory with everything below it. Its paths are
relative to that directory, and nothing exists outside of it. -/

namespace SymbolLinks

inductive FileEntry where
  | file (content : ByteArray)
  | directory

/-- What exists below the top directory, by the names on the way to it. -/
structure FileTree where
  entries : KeyMap (List String) FileEntry := ∅

namespace FileTree

/-- The place of a file or directory, from the top down. -/
abbrev Place := List String

def entry? (t : FileTree) (place : Place) : Option FileEntry :=
  if place.isEmpty then some .directory else t.entries.get? place

def put (t : FileTree) (place : Place) (e : FileEntry) : FileTree :=
  ⟨t.entries.insert place e⟩

/-- Follow one segment of a path. Only directories can be followed. -/
def follow (t : FileTree) (here : Place) (segment : String) : Except FileFault Place :=
  match t.entry? here with
  | none => .error .missing
  | some (.file _) => .error (.unusable "not a directory")
  | some .directory =>
    if segment = "" ∨ segment = "." then .ok here
    else if segment = ".." then if here.isEmpty then .error .missing else .ok here.dropLast
    else .ok (here ++ [segment])

/-- The place that a path names, whether or not something is there. All but the
last segment have to lead through directories. -/
def locate (t : FileTree) (path : String) : Except FileFault Place :=
  if path.toList.contains '\x00' then .error (.unusable "null character in a path")
  else if path.isEmpty ∨ Path.isAbsolute path then .error .missing
  else (Path.segments path).foldlM t.follow []

def find? (t : FileTree) (path : String) : Option FileEntry :=
  match t.locate path with
  | .ok place => t.entry? place
  | .error _ => none

def read (t : FileTree) (path : String) : Except FileFault String := do
  let place ← t.locate path
  match t.entry? place with
  | none => throw .missing
  | some .directory => throw (.unusable "is a directory")
  | some (.file content) => match String.fromUTF8? content with
    | some text => return text
    | none => throw (.unusable "not valid UTF-8")

def isDirectory (t : FileTree) (path : String) : Bool := t.find? path matches some .directory

def isPresent (t : FileTree) (path : String) : Bool := (t.find? path).isSome

def filesBelow (t : FileTree) (path : String) : List (List String) :=
  match t.locate path with
  | .error _ => []
  | .ok place => t.entries.entries.filterMap fun (p, e) =>
    if place.isPrefixOf p && e matches .file _ then some (p.drop place.length) else none

/-- Write a file into a directory that exists. -/
def write (t : FileTree) (path : String) (content : ByteArray) : FileTree × Except String Unit :=
  match t.locate path with
  | .error _ => (t, .error "no such directory")
  | .ok place => match t.entry? place with
    | some .directory => (t, .error "is a directory")
    | _ => (t.put place (.file content), .ok ())

/-- Create a directory. Slashes at the end of its path do not count, while a dot
there names a directory that has to exist. -/
def createDirectory (t : FileTree) (path : String) : Except FileFault FileTree := do
  let named := ((Path.segments path).reverse.dropWhile (·.isEmpty)).reverse
  let place ← t.locate (Path.ofSegments named)
  match t.entry? place with
  | none => return t.put place .directory
  | some .directory => return t
  | some (.file _) => throw (.unusable "a file is in the way")

/-- Read and write the tree as a file system. -/
def fileSystem : FileSystem (StateM FileTree) where
  read path := do return (← get).read path
  isDirectory path := do return (← get).isDirectory path
  isPresent path := do return (← get).isPresent path
  filesBelow path := do return (← get).filesBelow path
  createDirectory path := modifyGet fun t => match t.createDirectory path with
    | .ok t' => (.ok (), t')
    | .error fault => (.error fault, t)
  write path content := modifyGet fun t => (t.write path content.toUTF8).swap

end FileTree

end SymbolLinks
