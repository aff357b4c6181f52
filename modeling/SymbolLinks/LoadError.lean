/-! What can go wrong while inputs are read and outputs written. -/

namespace SymbolLinks

/-- A cause that stems from outside, from files or from their formats, carries the
text it was reported with. -/
inductive LoadError where
  | configNotFound (path : String)
  | fileNotFound (path : String)
  | io (text : String)
  | json (text : String)
  | noSymbolGraphs (searched : List String)
  | snapshotCorrupt (reason : String)
  | snapshotVersion (expected found : Nat)
  | toml (text : String)
  deriving DecidableEq

namespace LoadError

def message : LoadError → String
  | .configNotFound path => "config not found: " ++ path
  | .fileNotFound path => "file not found: " ++ path
  | .io text => "io: " ++ text
  | .json text => "json: " ++ text
  | .noSymbolGraphs searched => "no symbol graphs found in: " ++ String.intercalate ", " searched
  | .snapshotCorrupt reason => "snapshot corrupt: " ++ reason
  | .snapshotVersion expected found =>
    "snapshot version " ++ toString found ++ " is not supported (expected " ++ toString expected ++
      ")"
  | .toml text => "toml deserialize: " ++ text

private def report (title body : String) : String := "# Error: " ++ title ++ "\n\n" ++ body ++ "\n"

private def withFix (report fix : String) : String := report ++ "\n## Fix\n\n" ++ fix ++ "\n"

/-- The error as markdown. -/
def render (e : LoadError) : String :=
  match e with
  | .configNotFound path =>
    withFix (report "Config Not Found" ("`" ++ path ++ "` does not exist."))
      "Check the `--config` path, or remove it to use `.symref.toml`."
  | .fileNotFound path => report "File Not Found" ("`" ++ path ++ "` does not exist.")
  | .io text => report "I/O" text
  | .json text => report "Invalid JSON" text
  | .noSymbolGraphs _ =>
    withFix (report "No Symbol Graphs" e.message)
      "Pass `--graph <FILE-OR-DIR>`, or list paths under `symbol_graphs` in `.symref.toml`."
  | .snapshotCorrupt reason =>
    withFix (report "Snapshot Corrupt" reason)
      "Regenerate the snapshot:\n\n    symref snapshot --output <DIR>"
  | .snapshotVersion expected found =>
    withFix (report "Snapshot Version"
      ("The snapshot was written with schema version " ++ toString found ++
        "; this build reads version " ++ toString expected ++ "."))
      "Regenerate the snapshot with this version of symref."
  | .toml text => report "Invalid TOML" text

end LoadError

end SymbolLinks
