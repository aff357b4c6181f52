import SymbolLinks.Digest.ShortHash
import SymbolLinks.Kind
import SymbolLinks.Language
import SymbolLinks.Text.Bytes
import SymbolLinks.Text.Chars

/-! The components of a link. A component is a name, after which a dash and a
suffix may pick one of several symbols of that name: a kind, a hash, or a kind
and a hash. A backslash in front of a dash makes it part of the name. -/

namespace SymbolLinks.Link

/-- Bytes of the authored link from `start` up to `stop`. -/
structure Span where
  start : Nat
  stop : Nat
  deriving DecidableEq

/-- Largest position that fits in 64 bits. -/
def maxPosition : Nat := 0xFFFFFFFFFFFFFFFF

/-- Positions past the largest one are cut back to it. -/
def Span.capped (s : Span) : Span := ⟨min s.start maxPosition, min s.stop maxPosition⟩

/-- What a suffix asks of a symbol. -/
structure Suffix where
  hash : Option String
  kind : Option String
  /-- Language named in front of the kind. -/
  language : Option Language
  /-- The suffix and its dash. -/
  range : Span
  /-- The suffix without its dash. -/
  text : String
  deriving DecidableEq

structure Component where
  suffix : Option Suffix
  /-- The whole component without escapes. -/
  full : String
  /-- The name without escapes. -/
  name : String
  nameRange : Span
  range : Span
  deriving DecidableEq

/-- Split at the last dash that no backslash escapes; `escaped` says whether a
backslash just before the text escapes its first character. -/
def cutAtLastDash (escaped : Bool) : List Char → Option (List Char × List Char)
  | [] => none
  | c :: cs =>
    match cutAtLastDash (c = '\\' && !escaped) cs with
    | some (before, after) => some (c :: before, after)
    | none => if c = '-' && !escaped then some ([], cs) else none

/-- Take away the backslashes in front of dashes. -/
def unescape : List Char → List Char
  | '\\' :: '-' :: cs => '-' :: unescape cs
  | c :: cs => c :: unescape cs
  | [] => []

/-- A known kind, with or without a language tag and a dot in front. -/
def kindSuffix? (text : List Char) : Option (Option Language × List Char) :=
  if (Kind.known? text).isSome then some (none, text)
  else do
    let (tag, kind) ← Text.cutAt '.' text
    let language ← Language.ofLinkTag? tag
    if (Kind.known? kind).isNone then none
    return (some language, kind)

/-- A component split into the authored text of its name and of its suffix, and
what the suffix asks for. -/
structure Reading where
  name : List Char
  text : List Char
  hash : Option (List Char)
  kind : Option (List Char)
  language : Option Language

/-- A name that itself ends in a dash and a kind, in front of a hash. -/
def kindBeforeHash? (name hash : List Char) : Option Reading := do
  let (name, text) ← cutAtLastDash false name
  let (language, kind) ← kindSuffix? text
  if name.isEmpty then none
  return ⟨name, text ++ '-' :: hash, some hash, some kind, language⟩

/-- Read the suffix of a component, if it has one. A text that is both a kind and
a hash counts as a kind. -/
def reading? (raw : List Char) : Option Reading := do
  let (name, text) ← cutAtLastDash false raw
  if name.isEmpty then none
  match kindSuffix? text with
  | some (language, kind) => some ⟨name, text, none, some kind, language⟩
  | none =>
    if ShortHash.isHash text then
      some ((kindBeforeHash? name text).getD ⟨name, text, some text, none, none⟩)
    else none

namespace Component

/-- Parse the text between two slashes, which starts at byte `offset`. -/
def parse (raw : List Char) (offset : Nat) : Component :=
  let range : Span := ⟨offset, offset + Text.byteLength raw⟩
  let full := String.ofList (unescape raw)
  match reading? raw with
  | none => ⟨none, full, full, range, range⟩
  | some r =>
    let dash := offset + Text.byteLength r.name
    let suffix : Suffix := {
      hash := r.hash.map String.ofList
      kind := r.kind.map String.ofList
      language := r.language
      range := ⟨dash, range.stop⟩
      text := String.ofList r.text }
    ⟨some suffix, full, String.ofList (unescape r.name), ⟨offset, dash⟩, range⟩

/-- A component with positions in 64 bits, as it is read at some offset without its link. -/
def capped (c : Component) : Component :=
  { c with
    suffix := c.suffix.map fun s => { s with range := s.range.capped }
    nameRange := c.nameRange.capped
    range := c.range.capped }

end Component

end SymbolLinks.Link
