/-! The tokens of a JSON text. -/

namespace SymbolLinks.Json

inductive Token where
  | openBrace
  | closeBrace
  | openBracket
  | closeBracket
  | comma
  | colon
  | null
  | bool (b : Bool)
  | number (text : String)
  /-- `none` when an escape names half of a surrogate pair. -/
  | string (text : Option String)
  deriving DecidableEq

namespace Token

/-- What one character or escape of a string stands for: a character, or one
half of a surrogate pair. -/
inductive Piece where
  | char (c : Char)
  | half (unit : Nat)

def hexDigit? (c : Char) : Option Nat :=
  if '0' ≤ c && c ≤ '9' then some (c.toNat - 48)
  else if 'a' ≤ c && c ≤ 'f' then some (c.toNat - 87)
  else if 'A' ≤ c && c ≤ 'F' then some (c.toNat - 55)
  else none

def hexValue? (a b c d : Char) : Option Nat := do
  return (((← hexDigit? a) * 16 + (← hexDigit? b)) * 16 + (← hexDigit? c)) * 16 + (← hexDigit? d)

def Piece.ofUnit (unit : Nat) : Piece :=
  if 0xD800 ≤ unit && unit ≤ 0xDFFF then .half unit else .char (Char.ofNat unit)

/-- The character that a one-letter escape names. -/
def escape? : Char → Option Char
  | '"' => some '"'
  | '\\' => some '\\'
  | '/' => some '/'
  | 'b' => some '\x08'
  | 'f' => some '\x0c'
  | 'n' => some '\n'
  | 'r' => some '\r'
  | 't' => some '\t'
  | _ => none

/-- Read a string up to its closing quote, which is dropped. Characters below
U+0020 must be escaped. -/
def scanString : List Char → Option (List Piece × List Char)
  | '"' :: rest => some ([], rest)
  | '\\' :: 'u' :: a :: b :: c :: d :: rest => do
    let unit ← hexValue? a b c d
    let (pieces, rest) ← scanString rest
    return (.ofUnit unit :: pieces, rest)
  | '\\' :: e :: rest => do
    let c ← escape? e
    let (pieces, rest) ← scanString rest
    return (.char c :: pieces, rest)
  | c :: rest =>
    if c.toNat < 0x20 || c == '\\' then none
    else do
      let (pieces, rest) ← scanString rest
      return (.char c :: pieces, rest)
  | [] => none

/-- The characters of a string; `none` when a surrogate half is not followed or
preceded by its partner. -/
def assemble : List Piece → Option (List Char)
  | [] => some []
  | .char c :: rest => (assemble rest).map (c :: ·)
  | .half hi :: .half lo :: rest =>
    if hi < 0xDC00 && 0xDC00 ≤ lo then
      (assemble rest).map (Char.ofNat (0x10000 + (hi - 0xD800) * 0x400 + (lo - 0xDC00)) :: ·)
    else none
  | .half _ :: _ => none

def dropDigits (cs : List Char) : List Char := cs.dropWhile Char.isDigit

/-- Drop one or more digits. -/
def digits1? (cs : List Char) : Option (List Char) :=
  match cs with
  | c :: rest => if c.isDigit then some (dropDigits rest) else none
  | [] => none

def integerPart? : List Char → Option (List Char)
  | '0' :: rest => some rest
  | cs => digits1? cs

def fraction? : List Char → Option (List Char)
  | '.' :: rest => digits1? rest
  | cs => some cs

def exponent? : List Char → Option (List Char)
  | c :: rest =>
    if c == 'e' || c == 'E' then
      match rest with
      | '+' :: rest | '-' :: rest => digits1? rest
      | rest => digits1? rest
    else some (c :: rest)
  | [] => some []

/-- Whether a text is a JSON number. -/
def isNumber (cs : List Char) : Bool :=
  let unsigned := match cs with
    | '-' :: rest => rest
    | cs => cs
  (integerPart? unsigned >>= fraction? >>= exponent?) matches some []

def isSpace (c : Char) : Bool := c == ' ' || c == '\t' || c == '\n' || c == '\r'

/-- Whether a character belongs to a number or to one of the three names. -/
def isWordChar (c : Char) : Bool :=
  !isSpace c && c != ',' && c != ':' && c != '"' && c != '[' && c != ']' && c != '\x7b' && c != '\x7d'

def word? (cs : List Char) : Option Token :=
  match String.ofList cs with
  | "null" => some .null
  | "true" => some (.bool true)
  | "false" => some (.bool false)
  | s => if isNumber cs then some (.number s) else none

def punctuation? : Char → Option Token
  | '\x7b' => some .openBrace
  | '\x7d' => some .closeBrace
  | '[' => some .openBracket
  | ']' => some .closeBracket
  | ',' => some .comma
  | ':' => some .colon
  | _ => none

theorem scanString_length {cs rest : List Char} {pieces : List Piece}
    (h : scanString cs = some (pieces, rest)) : rest.length < cs.length := by
  fun_induction scanString cs generalizing pieces rest with
  | case1 r =>
    simp only [Option.some.injEq, Prod.mk.injEq] at h
    simp [← h.2]
  | case2 a b c d r ih =>
    simp only [Option.bind_eq_bind, Option.bind_eq_some_iff, Option.pure_def, Option.some.injEq,
      Prod.mk.injEq, Prod.exists] at h
    obtain ⟨_, _, p, r', h', _, rfl⟩ := h
    have := ih h'
    simp only [List.length_cons]; omega
  | case3 e r _ ih =>
    simp only [Option.bind_eq_bind, Option.bind_eq_some_iff, Option.pure_def, Option.some.injEq,
      Prod.mk.injEq, Prod.exists] at h
    obtain ⟨_, _, p, r', h', _, rfl⟩ := h
    have := ih h'
    simp only [List.length_cons]; omega
  | case4 => simp at h
  | case5 c r _ _ _ _ ih =>
    simp only [Option.bind_eq_bind, Option.bind_eq_some_iff, Option.pure_def, Option.some.injEq,
      Prod.mk.injEq, Prod.exists] at h
    obtain ⟨p, r', h', _, rfl⟩ := h
    have := ih h'
    simp only [List.length_cons]; omega
  | case6 => simp at h

/-- The first token of a text that does not start with a space, and what follows. -/
def next? (c : Char) (rest : List Char) : Option (Token × List Char) :=
  match punctuation? c with
  | some t => some (t, rest)
  | none =>
    if c == '"' then
      (scanString rest).map fun (pieces, rest) =>
        (.string ((assemble pieces).map String.ofList), rest)
    else (word? (c :: rest.takeWhile isWordChar)).map fun t => (t, rest.dropWhile isWordChar)

theorem next?_length {c : Char} {cs rest : List Char} {t : Token}
    (h : next? c cs = some (t, rest)) : rest.length ≤ cs.length := by
  simp only [next?] at h
  split at h
  · simp only [Option.some.injEq, Prod.mk.injEq] at h
    simp [h.2]
  · split at h
    · simp only [Option.map_eq_some_iff, Prod.mk.injEq, Prod.exists] at h
      obtain ⟨p, r, hs, _, rfl⟩ := h
      exact Nat.le_of_lt (scanString_length hs)
    · simp only [Option.map_eq_some_iff, Prod.mk.injEq] at h
      obtain ⟨_, _, _, rfl⟩ := h
      exact (List.dropWhile_sublist _).length_le

end Token

/-- The tokens of a text, or `none` if some part of it is no token. -/
def tokens? : List Char → Option (List Token)
  | [] => some []
  | c :: rest =>
    if Token.isSpace c then tokens? rest
    else match _h : Token.next? c rest with
      | none => none
      | some (t, rest') => (tokens? rest').map (t :: ·)
termination_by cs => cs.length
decreasing_by
  · simp
  · have := Token.next?_length _h
    simp only [List.length_cons]; omega

end SymbolLinks.Json
