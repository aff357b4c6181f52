import SymbolLinks.Link.Component

/-! Authored links: `doc://bundle/Module/Name`, `doc:Name`, `/Module/Name` or
`Name`, with a fragment that is ignored. -/

namespace SymbolLinks

structure Link where
  components : List Link.Component
  /-- Whether the first component names a module. -/
  isAbsolute : Bool

namespace Link

inductive ParseError where
  | noPathAfterBundle
  | noComponents
  deriving DecidableEq

def ParseError.message (authored : String) : ParseError → String
  | .noPathAfterBundle => "'" ++ authored ++ "' has no path after the bundle identifier"
  | .noComponents => "'" ++ authored ++ "' has no path components"

/-- What follows `start` in a text that starts with it. -/
def after? : (start : List Char) → List Char → Option (List Char)
  | [], cs => some cs
  | _ :: _, [] => none
  | p :: ps, c :: cs => if p = c then after? ps cs else none

/-- Where the path of a link begins, whether a bundle stands in front of it, and
the rest of the link from there. -/
def pathStart (cs : List Char) : Except ParseError (Nat × Bool × List Char) :=
  match after? "doc://".toList cs with
  | some rest =>
    let host := rest.takeWhile (· != '/')
    match rest.drop host.length with
    | [] => .error .noPathAfterBundle
    | path => .ok (6 + Text.byteLength host, true, path)
  | none =>
    match after? "doc:".toList cs with
    | some rest => .ok (4, false, rest)
    | none => .ok (0, false, cs)

/-- The non-empty segments as components, the first segment starting at byte
`offset` and each next one a slash further. -/
def componentsFrom (offset : Nat) : List (List Char) → List Component
  | [] => []
  | segment :: rest =>
    let others := componentsFrom (offset + Text.byteLength segment + 1) rest
    if segment.isEmpty then others else Component.parse segment offset :: others

/-- An absolute link may start with the component `documentation` in front of the
module. -/
def dropDocumentation : List Component → List Component
  | first :: second :: rest =>
    if first.full = "documentation" then second :: rest else first :: second :: rest
  | cs => cs

def parse (authored : String) : Except ParseError Link := do
  let (offset, hasBundle, rest) ← pathStart authored.toList
  let path := rest.takeWhile (· != '#')
  let isAbsolute := hasBundle || path.head? = some '/'
  let all := componentsFrom offset (Text.pieces '/' path)
  let components := if isAbsolute then dropDocumentation all else all
  if components.isEmpty then throw .noComponents
  return { components, isAbsolute }

end Link

end SymbolLinks
