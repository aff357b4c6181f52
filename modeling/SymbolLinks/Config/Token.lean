import SymbolLinks.Json.Token

/-! The tokens of a configuration file, which is TOML with texts, truth values and
lists of texts at the top level. `tokens?` ends because every token takes at
least one character, which the lemmas on lengths say. -/

namespace SymbolLinks.Config

inductive Token where
  /-- A bare key or a truth value. -/
  | word (chars : String)
  | text (content : String)
  /-- A text that may run over several lines and so cannot be a key. -/
  | longText (content : String)
  | equals
  | openBracket
  | closeBracket
  | comma
  | newline
  deriving DecidableEq

namespace Token

def isSpace (c : Char) : Bool := c == ' ' || c == '\t'

def isWordChar (c : Char) : Bool := c.isAlphanum || c == '_' || c == '-'

/-- Whether a character may stand for itself in comments and texts: every one but
the control characters of ASCII, of which the tab may. -/
def isPlain (c : Char) : Bool := c == '\t' || (0x20 ≤ c.toNat && c.toNat != 0x7F)

/-- The character whose number the hexadecimal digits spell. -/
def codePoint? (digits : List Char) : Option Char := do
  let values ← digits.mapM Json.Token.hexDigit?
  let n := values.foldl (fun n d => 16 * n + d) 0
  if n.isValidChar then some (Char.ofNat n) else none

/-- Read what an escape stands for; the backslash is gone. -/
def escape? : List Char → Option (Char × List Char)
  | 'b' :: cs => some ('\x08', cs)
  | 't' :: cs => some ('\t', cs)
  | 'n' :: cs => some ('\n', cs)
  | 'f' :: cs => some ('\x0c', cs)
  | 'r' :: cs => some ('\r', cs)
  | '"' :: cs => some ('"', cs)
  | '\\' :: cs => some ('\\', cs)
  | 'u' :: a :: b :: c :: d :: cs => (codePoint? [a, b, c, d]).map (·, cs)
  | 'U' :: a :: b :: c :: d :: e :: f :: g :: h :: cs =>
    (codePoint? [a, b, c, d, e, f, g, h]).map (·, cs)
  | _ => none

theorem escape?_length {cs rest : List Char} {c : Char} (h : escape? cs = some (c, rest)) :
    rest.length < cs.length := by
  unfold escape? at h
  split at h <;> simp_all only [Option.some.injEq, Prod.mk.injEq, Option.map_eq_some_iff,
    List.length_cons, reduceCtorEq] <;> grind

/-- Read a line break. -/
def newline? : List Char → Option (List Char)
  | '\n' :: cs => some cs
  | '\r' :: '\n' :: cs => some cs
  | _ => none

theorem newline?_length {cs rest : List Char} (h : newline? cs = some rest) :
    rest.length < cs.length := by
  unfold newline? at h
  split at h
  · obtain rfl := Option.some.inj h
    simp only [List.length_cons]; omega
  · obtain rfl := Option.some.inj h
    simp only [List.length_cons]; omega
  · cases h

/-- Put a character in front of a text that was read. -/
def followedBy (c : Char) (r : Option (List Char × List Char)) : Option (List Char × List Char) :=
  r.map fun (content, rest) => (c :: content, rest)

theorem followedBy_rest {c : Char} {r : Option (List Char × List Char)}
    {content rest : List Char} (h : followedBy c r = some (content, rest)) :
    ∃ content', r = some (content', rest) := by
  obtain ⟨⟨content', rest'⟩, hr, he⟩ := Option.map_eq_some_iff.mp h
  simp only [Prod.mk.injEq] at he
  exact ⟨content', he.2 ▸ hr⟩

/-- A text in single quotes, up to its closing quote. -/
def literal? : List Char → Option (List Char × List Char)
  | [] => none
  | c :: cs =>
    if c = '\'' then some ([], cs)
    else if isPlain c then followedBy c (literal? cs)
    else none

theorem literal?_length {cs content rest : List Char} (h : literal? cs = some (content, rest)) :
    rest.length < cs.length := by
  fun_induction literal? cs generalizing content <;> grind [→ followedBy_rest]

/-- A text in double quotes, up to its closing quote. -/
def basic? : List Char → Option (List Char × List Char)
  | [] => none
  | c :: cs =>
    if c = '"' then some ([], cs)
    else if c = '\\' then
      match _h : escape? cs with
      | none => none
      | some (e, cs') => followedBy e (basic? cs')
    else if isPlain c then followedBy c (basic? cs)
    else none
termination_by cs => cs.length
decreasing_by
  · have := escape?_length _h
    simp only [List.length_cons]; omega
  · simp

theorem basic?_length {cs content rest : List Char} (h : basic? cs = some (content, rest)) :
    rest.length < cs.length := by
  fun_induction basic? cs generalizing content <;> grind [→ followedBy_rest, → escape?_length]

/-- The end of a long text: three quotes close it, and up to two more in front of
these belong to it. -/
def closing? (quote : Char) : List Char → Option (List Char × List Char)
  | a :: b :: c :: cs =>
    if a = quote ∧ b = quote ∧ c = quote then
      let extra := (cs.take 2).takeWhile (· == quote)
      some (extra, cs.drop extra.length)
    else none
  | _ => none

theorem closing?_length {quote : Char} {cs content rest : List Char}
    (h : closing? quote cs = some (content, rest)) : rest.length < cs.length := by
  unfold closing? at h
  split at h
  · split at h
    · simp only [Option.some.injEq, Prod.mk.injEq] at h
      rw [← h.2, List.length_drop]
      simp only [List.length_cons]
      omega
    · simp at h
  · simp at h

/-- A text in three single quotes. Its line breaks become newlines. -/
def longLiteral? : List Char → Option (List Char × List Char)
  | [] => none
  | c :: cs =>
    match closing? '\'' (c :: cs) with
    | some closed => some closed
    | none =>
      match _h : newline? (c :: cs) with
      | some cs' => followedBy '\n' (longLiteral? cs')
      | none =>
        if isPlain c then followedBy c (longLiteral? cs)
        else none
termination_by cs => cs.length
decreasing_by
  · exact newline?_length _h
  · simp

theorem longLiteral?_length {cs content rest : List Char}
    (h : longLiteral? cs = some (content, rest)) : rest.length < cs.length := by
  fun_induction longLiteral? cs generalizing content <;>
    grind [→ followedBy_rest, → newline?_length, → closing?_length]

/-- Drop spaces and line breaks. -/
def skipBlank : List Char → List Char
  | '\r' :: '\n' :: cs => skipBlank cs
  | c :: cs => if isSpace c || c == '\n' then skipBlank cs else c :: cs
  | [] => []

theorem skipBlank_length (cs : List Char) : (skipBlank cs).length ≤ cs.length := by
  fun_induction skipBlank cs <;> grind

/-- A backslash at the end of a line joins it with what follows the next blanks. -/
def joined? (cs : List Char) : Option (List Char) :=
  (newline? (cs.dropWhile isSpace)).map skipBlank

theorem joined?_length {cs rest : List Char} (h : joined? cs = some rest) :
    rest.length < cs.length := by
  obtain ⟨r, hr, rfl⟩ := Option.map_eq_some_iff.mp h
  have h1 := newline?_length hr
  have h2 := skipBlank_length r
  have h3 := (List.dropWhile_sublist isSpace (l := cs)).length_le
  omega

/-- A text in three double quotes. Its line breaks become newlines. -/
def longBasic? : List Char → Option (List Char × List Char)
  | [] => none
  | c :: cs =>
    match closing? '"' (c :: cs) with
    | some closed => some closed
    | none =>
      match _h : newline? (c :: cs) with
      | some cs' => followedBy '\n' (longBasic? cs')
      | none =>
        if c = '\\' then
          match _h : joined? cs with
          | some cs' => longBasic? cs'
          | none =>
            match _h : escape? cs with
            | some (e, cs') => followedBy e (longBasic? cs')
            | none => none
        else if isPlain c then followedBy c (longBasic? cs)
        else none
termination_by cs => cs.length
decreasing_by
  · exact newline?_length _h
  · have := joined?_length _h
    simp only [List.length_cons]; omega
  · have := escape?_length _h
    simp only [List.length_cons]; omega
  · simp

theorem longBasic?_length {cs content rest : List Char}
    (h : longBasic? cs = some (content, rest)) : rest.length < cs.length := by
  fun_induction longBasic? cs generalizing content <;>
    grind [→ followedBy_rest, → newline?_length, → closing?_length, → joined?_length,
      → escape?_length]

/-- A line break right after the opening quotes of a long text is dropped. -/
def opened (cs : List Char) : List Char := (newline? cs).getD cs

theorem opened_length (cs : List Char) : (opened cs).length ≤ cs.length := by
  unfold opened
  cases h : newline? cs with
  | none => simp
  | some rest => exact Nat.le_of_lt (newline?_length h)

private def spelled (make : String → Token) (r : Option (List Char × List Char)) :
    Option (Token × List Char) :=
  r.map fun (content, rest) => (make (String.ofList content), rest)

private def bareWord? (cs : List Char) : Option (Token × List Char) :=
  match cs with
  | [] => none
  | c :: cs =>
    if isWordChar c then
      some (.word (String.ofList (c :: cs.takeWhile isWordChar)), cs.dropWhile isWordChar)
    else none

/-- The first token of a text that starts with neither a space nor a comment. -/
def next? : List Char → Option (Token × List Char)
  | '"' :: '"' :: '"' :: cs => spelled .longText (longBasic? (opened cs))
  | '"' :: cs => spelled .text (basic? cs)
  | '\'' :: '\'' :: '\'' :: cs => spelled .longText (longLiteral? (opened cs))
  | '\'' :: cs => spelled .text (literal? cs)
  | '=' :: cs => some (.equals, cs)
  | '[' :: cs => some (.openBracket, cs)
  | ']' :: cs => some (.closeBracket, cs)
  | ',' :: cs => some (.comma, cs)
  | '\n' :: cs => some (.newline, cs)
  | '\r' :: '\n' :: cs => some (.newline, cs)
  | cs => bareWord? cs

private theorem spelled_rest {make : String → Token} {r : Option (List Char × List Char)}
    {t : Token} {rest : List Char} (h : spelled make r = some (t, rest)) :
    ∃ content, r = some (content, rest) := by
  obtain ⟨⟨content, rest'⟩, hr, he⟩ := Option.map_eq_some_iff.mp h
  simp only [Prod.mk.injEq] at he
  exact ⟨content, he.2 ▸ hr⟩

private theorem bareWord?_length {cs rest : List Char} {t : Token}
    (h : bareWord? cs = some (t, rest)) : rest.length < cs.length := by
  unfold bareWord? at h
  split at h
  · simp at h
  · rename_i c cs'
    split at h
    · simp only [Option.some.injEq, Prod.mk.injEq] at h
      have := (List.dropWhile_sublist isWordChar (l := cs')).length_le
      rw [← h.2]
      simp only [List.length_cons]
      omega
    · simp at h

theorem next?_length {cs rest : List Char} {t : Token} (h : next? cs = some (t, rest)) :
    rest.length < cs.length := by
  unfold next? at h
  split at h
  · rename_i cs'
    obtain ⟨content, hc⟩ := spelled_rest h
    have := longBasic?_length hc
    have := opened_length cs'
    simp only [List.length_cons]; omega
  · obtain ⟨content, hc⟩ := spelled_rest h
    have := basic?_length hc
    simp only [List.length_cons]; omega
  · rename_i cs'
    obtain ⟨content, hc⟩ := spelled_rest h
    have := longLiteral?_length hc
    have := opened_length cs'
    simp only [List.length_cons]; omega
  · obtain ⟨content, hc⟩ := spelled_rest h
    have := literal?_length hc
    simp only [List.length_cons]; omega
  all_goals first
    | exact bareWord?_length h
    | (simp only [Option.some.injEq, Prod.mk.injEq] at h
       rw [← h.2]
       simp only [List.length_cons]
       omega)

end Token

/-- The tokens of a file, or `none` if some part of it is no token. Spaces and
comments separate tokens and are none. -/
def tokens? : List Char → Option (List Token)
  | [] => some []
  | c :: cs =>
    if Token.isSpace c then tokens? cs
    else if c = '#' then tokens? (cs.dropWhile Token.isPlain)
    else match _h : Token.next? (c :: cs) with
      | none => none
      | some (t, rest) => (tokens? rest).map (t :: ·)
termination_by cs => cs.length
decreasing_by
  · simp
  · have := (List.dropWhile_sublist Token.isPlain (l := cs)).length_le
    simp only [List.length_cons]; omega
  · exact Token.next?_length _h

end SymbolLinks.Config
