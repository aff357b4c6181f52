import SymbolLinks.Command.Run

/-! The command line of the program, over the files on disk as they are seen from
the working directory. -/

namespace SymbolLinks

namespace Disk

private def read (path : String) : IO (Except FileFault String) := do
  if path.isEmpty then return .error .missing
  try return .ok (← IO.FS.readFile path)
  catch
    | .noFileOrDirectory .. => return .error .missing
    | e => return .error (.unusable (toString e))

private def isDirectory (path : String) : IO Bool := do
  if path.isEmpty then return false
  ((← IO.currentDir) / path).isDir

private def createDirectory (path : String) : IO (Except FileFault Unit) := do
  try
    IO.FS.createDir path
    return .ok ()
  catch
    | .noFileOrDirectory .. => return .error .missing
    | e => return if ← isDirectory path then .ok () else .error (.unusable (toString e))

private def write (path content : String) : IO (Except String Unit) := do
  try
    IO.FS.writeFile path content
    return .ok ()
  catch e => return .error (toString e)

/-- Links to directories are not followed, and what cannot be read is passed over. -/
private partial def filesBelow (directory : String) : IO (List (List String)) := do
  let entries ← try ((← IO.currentDir) / directory).readDir catch _ => pure #[]
  let found ← entries.toList.mapM fun e => do
    match ← (try some <$> e.path.symlinkMetadata catch _ => pure none) with
    | some data => match data.type with
      | .file => return [[e.fileName]]
      | .dir => return (← filesBelow e.path.toString).map (e.fileName :: ·)
      | _ => return []
    | none => return []
  return found.flatten

def fileSystem : FileSystem IO where
  read := read
  isDirectory := isDirectory
  isPresent path := do
    if path.isEmpty then return false
    ((← IO.currentDir) / path).pathExists
  filesBelow := filesBelow
  createDirectory := createDirectory
  write := write

end Disk

def usageText : String := "Resolve documentation links against symbol graphs

Usage: symref [--verbose] <COMMAND>

Commands:
  dump      Print the path hierarchy with disambiguated names
  merge     Merge relationships and print the merged model as JSON
  resolve   Resolve documentation links to canonical references
  snapshot  Write a link-resolution snapshot and linkable-element summaries
  help      Print this message

Options of every command:
  --bundle-id <BUNDLE_ID>  Bundle identifier for generated references
  --config <FILE>          Config file to use instead of ./.symref.toml
  --graph <PATH>           Symbol graph file or directory (repeatable)
  --inherit-docs           Keep documentation inherited from other modules

Options of resolve, which takes one or more links:
  --from <PRECISE-ID>      Symbol that relative links start from
  --snapshot <FILE>        Resolve against this snapshot instead of symbol graphs
  --summaries <FILE>       Summaries that belong to the snapshot

Options of snapshot:
  -o, --output <OUTPUT>    Directory to write the files to
"

end SymbolLinks

open SymbolLinks in
def main (arguments : List String) : IO UInt32 := do
  let out ← IO.getStdout
  let err ← IO.getStderr
  match Command.parse arguments with
  | .error .help =>
    out.putStr usageText
    return 0
  | .error .version =>
    out.putStr Command.versionLine
    return 0
  | .error .misuse =>
    err.putStr usageText
    return 2
  | .ok command =>
    let report ← command.report Disk.fileSystem
    out.putStr report.printed.out
    err.putStr report.printed.err
    return report.exitCode.toUInt32
