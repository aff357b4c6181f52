/-! The commands of the program and how they are written as arguments. -/

namespace SymbolLinks

/-- Where graphs come from and how to document them. What is not given is taken
from the configuration. -/
structure GraphOptions where
  bundle : Option String := none
  /-- A configuration file to use instead of the project's. -/
  config : Option String := none
  graphs : List String := []
  inheritDocs : Bool := false
  deriving DecidableEq

def GraphOptions.isGiven (o : GraphOptions) : Bool :=
  o.bundle.isSome || o.config.isSome || !o.graphs.isEmpty || o.inheritDocs

/-- A snapshot file and the file with its summaries. -/
structure SnapshotFiles where
  snapshot : String
  summaries : String
  deriving DecidableEq

inductive Command where
  | dump (options : GraphOptions)
  | merge (options : GraphOptions)
  /-- Resolve links from the symbol `origin`, against graphs or a snapshot. -/
  | resolve (options : GraphOptions) (links : List String) (origin : Option String)
      (files : Option SnapshotFiles)
  | snapshot (options : GraphOptions) (output : String)
  deriving DecidableEq

/-- Why arguments name no command to run. -/
inductive Refusal where
  | help
  | version
  | misuse
  deriving DecidableEq

namespace Command

inductive Verb where
  | dump
  | merge
  | resolve
  | snapshot
  deriving DecidableEq

def Verb.ofName? : String → Option Verb
  | "dump" => some .dump
  | "merge" => some .merge
  | "resolve" => some .resolve
  | "snapshot" => some .snapshot
  | _ => none

/-- The options that have a value. -/
inductive Setting where
  | bundle
  | config
  | graph
  | origin
  | snapshot
  | summaries
  | output
  deriving DecidableEq

namespace Setting

def ofName? : String → Option Setting
  | "bundle-id" => some .bundle
  | "config" => some .config
  | "graph" => some .graph
  | "from" => some .origin
  | "snapshot" => some .snapshot
  | "summaries" => some .summaries
  | "output" => some .output
  | _ => none

/-- Whether the value names a file, and so cannot be empty. -/
def isPath : Setting → Bool
  | .bundle | .origin => false
  | _ => true

def isRepeatable (s : Setting) : Bool := s = .graph

def isFor : Setting → Verb → Bool
  | .origin, v | .snapshot, v | .summaries, v => v = .resolve
  | .output, v => v = .snapshot
  | _, _ => true

end Setting

/-- What the arguments of a command have said so far. -/
structure Draft where
  verb : Verb
  settings : List (Setting × String) := []
  inheritDocs : Bool := false
  verbose : Bool := false
  links : List String := []
  /-- The option whose value comes next. -/
  awaiting : Option Setting := none
  /-- Whether every further argument is a link. -/
  onlyLinks : Bool := false

namespace Draft

def set (d : Draft) (s : Setting) (value : String) : Except Refusal Draft :=
  if s.isPath ∧ value.isEmpty then .error .misuse
  else if !s.isRepeatable ∧ d.settings.any (·.1 = s) then .error .misuse
  else .ok { d with settings := d.settings ++ [(s, value)], awaiting := none }

def beVerbose (d : Draft) : Except Refusal Draft :=
  if d.verbose then .error .misuse else .ok { d with verbose := true }

def addLink (d : Draft) (link : String) : Except Refusal Draft :=
  if d.verb = .resolve then .ok { d with links := d.links ++ [link] } else .error .misuse

/-- One-letter options written together. A value may follow its letter directly or
after `=`, or be the next argument. -/
def readLetters (d : Draft) : List Char → Except Refusal Draft
  | [] => .ok d
  | 'v' :: cs => do (← d.beVerbose).readLetters cs
  | 'h' :: _ => .error .help
  | 'o' :: cs =>
    if !Setting.output.isFor d.verb then .error .misuse
    else match cs with
      | [] => .ok { d with awaiting := some .output }
      | '=' :: value => d.set .output (String.ofList value)
      | value => d.set .output (String.ofList value)
  | _ => .error .misuse

/-- An option written out, with the value after its `=` if it has one. -/
def readLong (d : Draft) (name : String) (value : Option String) : Except Refusal Draft :=
  match name, value with
  | "help", none => .error .help
  | "verbose", none => d.beVerbose
  | "inherit-docs", none =>
    if d.inheritDocs then .error .misuse else .ok { d with inheritDocs := true }
  | _, _ => match Setting.ofName? name with
    | none => .error .misuse
    | some s =>
      if !s.isFor d.verb then .error .misuse
      else match value with
        | some v => d.set s v
        | none => .ok { d with awaiting := some s }

end Draft

/-- The kinds of arguments. -/
inductive Argument where
  | plain
  /-- Two dashes: every further argument is plain. -/
  | separator
  | letters (cs : List Char)
  | long (name : String) (value : Option String)

def Argument.ofText (arg : String) : Argument :=
  match arg.toList with
  | ['-', '-'] => .separator
  | '-' :: '-' :: cs =>
    let name := cs.takeWhile (· ≠ '=')
    .long (String.ofList name) <| match cs.dropWhile (· ≠ '=') with
      | [] => none
      | _ :: value => some (String.ofList value)
  | '-' :: c :: cs => .letters (c :: cs)
  | _ => .plain

namespace Draft

/-- Read one argument. A value does not start with a dash, unless it is one. -/
def read (d : Draft) (arg : String) : Except Refusal Draft :=
  if d.onlyLinks then d.addLink arg
  else match d.awaiting, Argument.ofText arg with
    | some s, .plain => d.set s arg
    | some _, _ => .error .misuse
    | none, .plain => d.addLink arg
    | none, .separator => .ok { d with onlyLinks := true }
    | none, .letters cs => d.readLetters cs
    | none, .long name value => d.readLong name value

private def value? (d : Draft) (s : Setting) : Option String :=
  (d.settings.find? (·.1 = s)).map (·.2)

private def options (d : Draft) : GraphOptions where
  bundle := d.value? .bundle
  config := d.value? .config
  graphs := (d.settings.filter (·.1 = .graph)).map (·.2)
  inheritDocs := d.inheritDocs

/-- The command that all arguments together ask for. -/
def finish (d : Draft) : Except Refusal Command :=
  if d.awaiting.isSome then .error .misuse
  else match d.verb with
    | .dump => .ok (.dump d.options)
    | .merge => .ok (.merge d.options)
    | .resolve =>
      if d.links.isEmpty then .error .misuse
      else match d.value? .snapshot, d.value? .summaries with
        | some s, some t => .ok (.resolve d.options d.links (d.value? .origin) (some ⟨s, t⟩))
        | none, none => .ok (.resolve d.options d.links (d.value? .origin) none)
        | _, _ => .error .misuse
    | .snapshot => match d.value? .output with
      | some o => .ok (.snapshot d.options o)
      | none => .error .misuse

end Draft

/-- Options in front of the command's name: only `v` may have been seen before it. -/
private def readLeading (verbose : Bool) : List Char → Except Refusal Bool
  | [] => .ok verbose
  | 'v' :: cs => if verbose then .error .misuse else readLeading true cs
  | 'h' :: _ => .error .help
  | 'V' :: _ => .error .version
  | _ => .error .misuse

/-- The refusal that a request for help ends in: help is there for the program and
for each of its commands. -/
private def helpFor : List String → Refusal
  | [] => .help
  | [name] => if name = "help" ∨ (Verb.ofName? name).isSome then .help else .misuse
  | _ => .misuse

private def parseFrom (verbose : Bool) : List String → Except Refusal Command
  | [] => .error .misuse
  | arg :: rest =>
    match Argument.ofText arg with
    | .plain =>
      if arg = "help" then .error (helpFor rest)
      else match Verb.ofName? arg with
        | some verb => do (← rest.foldlM Draft.read { verb }).finish
        | none => .error .misuse
    | .letters cs => do parseFrom (← readLeading verbose cs) rest
    | .long "help" none => .error .help
    | .long "version" none => .error .version
    | .long "verbose" none => if verbose then .error .misuse else parseFrom true rest
    | _ => .error .misuse

/-- The command that arguments ask for. They are read from left to right, and the
first that asks for help or is in error decides. -/
def parse (arguments : List String) : Except Refusal Command := parseFrom false arguments

end Command

end SymbolLinks
