import SymbolLinks.Files.Path

/-! What the program asks of a file system. -/

namespace SymbolLinks

/-- Why a file cannot be read or a directory created. -/
inductive FileFault where
  /-- It is not there, or the directory around it is not. -/
  | missing
  /-- It is of the wrong kind, no text, or otherwise out of reach. -/
  | unusable (reason : String)
  deriving DecidableEq

/-- The operations on files, each with its effect in `m`. -/
structure FileSystem (m : Type → Type) where
  read : String → m (Except FileFault String)
  isDirectory : String → m Bool
  isPresent : String → m Bool
  /-- The files below a directory, at any depth and in any order, each as the names
  on the way to it. -/
  filesBelow : String → m (List (List String))
  /-- Create one directory in a directory that exists, unless it is there already. -/
  createDirectory : String → m (Except FileFault Unit)
  write : String → String → m (Except String Unit)

namespace FileSystem

variable {m : Type → Type} [Monad m]

/-- Create the first of these directories. Where the directory around it is missing,
the ones after it are created before. -/
def createFirst (fs : FileSystem m) : List String → m (Except FileFault Unit)
  | [] => return .ok ()
  | path :: around => do
    match ← fs.createDirectory path with
    | .error .missing =>
      match ← fs.createFirst around with
      | .ok () => fs.createDirectory path
      | failure => return failure
    | outcome => return outcome

/-- Create a directory and those around it, as far as they are missing. Those
created before a failure stay. -/
def createDirectories (fs : FileSystem m) (path : String) : m (Except FileFault Unit) :=
  if path.isEmpty then return .ok () else fs.createFirst (Path.ancestors path)

end FileSystem

end SymbolLinks
