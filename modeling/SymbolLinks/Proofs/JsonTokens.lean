import Mathlib.Data.List.Forall2
import SymbolLinks.Json.Printer
import SymbolLinks.Json.Token

/-! The tokens of printed text. `Scans text tokens` says that a text is read as
these tokens whatever follows it, as long as what follows does not go on with a
word. Words, quoted strings and bracketed blocks of scanned texts are scanned. -/
namespace SymbolLinks.Json

/-- Nothing, or a character that no number or name goes on with. -/
def EndsWord (rest : List Char) : Prop := ∀ c ∈ rest.head?, Token.isWordChar c = false

def Scans (text : List Char) (ts : List Token) : Prop :=
  ∀ rest, EndsWord rest → tokens? (text ++ rest) = (tokens? rest).map (ts ++ ·)

section Scans

variable {text more : List Char} {ts us : List Token}

theorem tokens?_space {c : Char} (h : Token.isSpace c = true) (rest : List Char) :
    tokens? (c :: rest) = tokens? rest := by
  rw [tokens?, if_pos h]

theorem tokens?_next {c : Char} {rest rest' : List Char} {t : Token}
    (hc : Token.isSpace c = false) (h : Token.next? c rest = some (t, rest')) :
    tokens? (c :: rest) = (tokens? rest').map (t :: ·) := by
  rw [tokens?, if_neg (by rw [hc]; simp)]
  split
  · rename_i hn
    cases hn.symm.trans h
  · rename_i hn
    cases hn.symm.trans h
    rfl

theorem Scans.nil : Scans [] [] := by
  intro rest _
  rw [List.nil_append]
  cases tokens? rest <;> rfl

/-- A text may be followed by one that does not go on with its last word. -/
theorem Scans.append (h : Scans text ts) (h' : Scans more us)
    (hends : ∀ rest, EndsWord rest → EndsWord (more ++ rest)) : Scans (text ++ more) (ts ++ us) := by
  intro rest hrest
  rw [List.append_assoc, h (more ++ rest) (hends rest hrest), h' rest hrest, Option.map_map]
  congr 1
  funext vs
  exact (List.append_assoc ts us vs).symm

theorem endsWord_cons {c : Char} (h : Token.isWordChar c = false) (rest : List Char) :
    EndsWord (c :: rest) := by
  intro d hd
  cases hd
  exact h

theorem Scans.append_cons {c : Char} (h : Scans text ts) (h' : Scans (c :: more) us)
    (hc : Token.isWordChar c = false) : Scans (text ++ c :: more) (ts ++ us) :=
  h.append h' fun rest _ => endsWord_cons hc (more ++ rest)

theorem Scans.spaces {blank : List Char} (hblank : blank.all Token.isSpace = true)
    (h : Scans text ts) : Scans (blank ++ text) ts := by
  intro rest hrest
  induction blank with
  | nil => exact h rest hrest
  | cons c blank ih =>
    rw [List.all_cons, Bool.and_eq_true] at hblank
    exact (tokens?_space hblank.1 _).trans (ih hblank.2)

theorem Scans.newline (h : Scans text ts) : Scans ('\n' :: text) ts :=
  h.spaces (by decide : ['\n'].all Token.isSpace = true)

theorem not_word_of_punctuation? {c : Char} {t : Token} (h : Token.punctuation? c = some t) :
    Token.isSpace c = false ∧ Token.isWordChar c = false := by
  unfold Token.punctuation? at h
  split at h
  all_goals first
    | exact ⟨by decide, by decide⟩
    | cases h

theorem Scans.mark {c : Char} {t : Token} (hc : Token.punctuation? c = some t)
    (h : Scans text ts) : Scans (c :: text) (t :: ts) := by
  intro rest hrest
  have hspace := (not_word_of_punctuation? hc).1
  have hnext : Token.next? c (text ++ rest) = some (t, text ++ rest) := by
    simp only [Token.next?, hc]
  rw [List.cons_append, tokens?_next hspace hnext, h rest hrest, Option.map_map]
  rfl

/-! ## Words -/

theorem punctuation?_of_isWordChar {c : Char} (h : Token.isWordChar c = true) :
    Token.punctuation? c = none ∧ c ≠ '"' ∧ Token.isSpace c = false := by
  simp only [Token.isWordChar, Bool.and_eq_true, bne_iff_ne, Bool.not_eq_true'] at h
  obtain ⟨⟨⟨⟨⟨⟨⟨hspace, hcomma⟩, hcolon⟩, hquote⟩, hopen⟩, hclose⟩, hbrace⟩, hbrace'⟩ := h
  refine ⟨?_, hquote, hspace⟩
  unfold Token.punctuation?
  split
  all_goals first
    | contradiction
    | rfl

theorem takeWhile_word {w rest : List Char} (hw : w.all Token.isWordChar = true)
    (hrest : EndsWord rest) : (w ++ rest).takeWhile Token.isWordChar = w ∧
      (w ++ rest).dropWhile Token.isWordChar = rest := by
  rw [List.takeWhile_append_of_pos (List.all_eq_true.mp hw),
    List.dropWhile_append_of_pos (List.all_eq_true.mp hw)]
  cases rest with
  | nil => simp
  | cons c rest =>
    have hc : ¬ Token.isWordChar c = true := by
      rw [hrest c rfl]
      simp
    rw [List.takeWhile_cons_of_neg hc, List.dropWhile_cons_of_neg hc, List.append_nil]
    exact ⟨rfl, rfl⟩

theorem scans_word {w : List Char} {t : Token} (hne : w ≠ [])
    (hw : w.all Token.isWordChar = true) (ht : Token.word? w = some t) : Scans w [t] := by
  intro rest hrest
  cases w with
  | nil => exact absurd rfl hne
  | cons c w =>
    rw [List.all_cons, Bool.and_eq_true] at hw
    obtain ⟨hc, hw⟩ := hw
    obtain ⟨hpunct, hquote, hspace⟩ := punctuation?_of_isWordChar hc
    obtain ⟨htake, hdrop⟩ := takeWhile_word hw hrest
    have hnext : Token.next? c (w ++ rest) = some (t, rest) := by
      simp only [Token.next?, hpunct, beq_iff_eq, hquote, if_false, htake, hdrop, ht,
        Option.map_some]
    rw [List.cons_append, tokens?_next hspace hnext]
    rfl

/-! ## Numbers -/

theorem isWordChar_of_isDigit {c : Char} (h : c.isDigit = true) : Token.isWordChar c = true := by
  simp only [Char.isDigit, Bool.and_eq_true, decide_eq_true_eq] at h
  have hlow : 48 ≤ c.toNat := h.1
  have hhigh : c.toNat ≤ 57 := h.2
  have hne : ∀ d : Char, (d.toNat < 48 ∨ 57 < d.toNat) → c ≠ d := by
    rintro d hd rfl
    omega
  simp [Token.isWordChar, Token.isSpace, hne]

/-- What a part of a number drops from a text is made of word characters. -/
def DropsWord (part : List Char → Option (List Char)) : Prop :=
  ∀ cs rest, part cs = some rest → ∃ w, cs = w ++ rest ∧ w.all Token.isWordChar = true

theorem DropsWord.bind {f g : List Char → Option (List Char)} (hf : DropsWord f)
    (hg : DropsWord g) : DropsWord fun cs => f cs >>= g := by
  intro cs rest h
  obtain ⟨mid, hmid, hrest⟩ := Option.bind_eq_some_iff.mp h
  obtain ⟨w, rfl, hw⟩ := hf cs mid hmid
  obtain ⟨w', rfl, hw'⟩ := hg _ rest hrest
  refine ⟨w ++ w', (List.append_assoc w w' rest).symm, ?_⟩
  rw [List.all_append, hw, hw']
  rfl

theorem DropsWord.after {part : List Char → Option (List Char)} {cs rest : List Char} {c : Char}
    (h : DropsWord part) (hc : Token.isWordChar c = true) (hpart : part cs = some rest) :
    ∃ w, c :: cs = w ++ rest ∧ w.all Token.isWordChar = true := by
  obtain ⟨w, rfl, hw⟩ := h cs rest hpart
  exact ⟨c :: w, rfl, by rw [List.all_cons, hc, hw]; rfl⟩

theorem dropsWord_digits1? : DropsWord Token.digits1? := by
  intro cs rest h
  cases cs with
  | nil => cases h
  | cons c cs =>
    simp only [Token.digits1?] at h
    split at h
    · rename_i hc
      cases h
      refine ⟨c :: cs.takeWhile Char.isDigit, ?_, ?_⟩
      · rw [List.cons_append]
        exact congrArg _ List.takeWhile_append_dropWhile.symm
      · rw [List.all_cons, isWordChar_of_isDigit hc, Bool.true_and, List.all_eq_true]
        intro d hd
        exact isWordChar_of_isDigit (List.all_eq_true.mp List.all_takeWhile d hd)
    · cases h

theorem dropsWord_integerPart? : DropsWord Token.integerPart? := by
  intro cs rest h
  unfold Token.integerPart? at h
  split at h
  · cases h
    exact ⟨['0'], rfl, by decide⟩
  · exact dropsWord_digits1? _ rest h

theorem dropsWord_fraction? : DropsWord Token.fraction? := by
  intro cs rest h
  unfold Token.fraction? at h
  split at h
  · exact dropsWord_digits1?.after (by decide) h
  · cases h
    exact ⟨[], rfl, rfl⟩

theorem dropsWord_exponent? : DropsWord Token.exponent? := by
  intro cs rest h
  unfold Token.exponent? at h
  split at h
  · rename_i c cs
    split at h
    · rename_i hc
      have hc : Token.isWordChar c = true := by
        rcases Bool.or_eq_true_iff.mp hc with he | he <;> rw [eq_of_beq he] <;> decide
      split at h
      · obtain ⟨w, hw, hword⟩ := dropsWord_digits1?.after (by decide : Token.isWordChar '+' = true) h
        exact ⟨c :: w, by rw [hw]; rfl, by rw [List.all_cons, hc, hword]; rfl⟩
      · obtain ⟨w, hw, hword⟩ := dropsWord_digits1?.after (by decide : Token.isWordChar '-' = true) h
        exact ⟨c :: w, by rw [hw]; rfl, by rw [List.all_cons, hc, hword]; rfl⟩
      · exact dropsWord_digits1?.after hc h
    · cases h
      exact ⟨[], rfl, rfl⟩
  · cases h
    exact ⟨[], rfl, rfl⟩

theorem isWordChar_of_isNumber {cs : List Char} (h : Token.isNumber cs = true) :
    cs.all Token.isWordChar = true := by
  have hall : ∀ ds, (Token.integerPart? ds >>= Token.fraction? >>= Token.exponent?) = some [] →
      ds.all Token.isWordChar = true := by
    intro ds hds
    obtain ⟨w, hw, hword⟩ :=
      ((dropsWord_integerPart?.bind dropsWord_fraction?).bind dropsWord_exponent?) ds [] hds
    rw [hw, List.append_nil]
    exact hword
  unfold Token.isNumber at h
  split at h
  · simp only at h
    split at h
    · rename_i heq
      rw [List.all_cons, hall _ heq]
      rfl
    · cases h
  · simp only at h
    split at h
    · rename_i heq
      exact hall _ heq
    · cases h

theorem scans_number {text : String} (h : Token.isNumber text.toList = true) :
    Scans text.toList [.number text] := by
  refine scans_word ?_ (isWordChar_of_isNumber h) ?_
  · intro hnil
    rw [hnil] at h
    cases h
  · have hnull : text ≠ "null" := by rintro rfl; revert h; decide
    have htrue : text ≠ "true" := by rintro rfl; revert h; decide
    have hfalse : text ≠ "false" := by rintro rfl; revert h; decide
    unfold Token.word?
    rw [String.ofList_toList]
    split
    · contradiction
    · contradiction
    · contradiction
    · rw [if_pos h]

/-! ## Strings -/

theorem hexValue?_hexChar : ∀ n < 32,
    Token.hexValue? '0' '0' (hexChar (n / 16)) (hexChar (n % 16)) = some n := by decide

theorem scanString_escape {e c : Char} (h : Token.escape? e = some c) (rest : List Char) :
    Token.scanString ('\\' :: e :: rest) =
      (Token.scanString rest).map fun read => (.char c :: read.1, read.2) := by
  have he : e ≠ 'u' := by rintro rfl; cases h
  rw [Token.scanString]
  · simp only [h]
    cases Token.scanString rest <;> rfl
  · intro a b c d rest' hu _
    exact he hu

theorem scanString_unit {a b c d : Char} {n : Nat} (h : Token.hexValue? a b c d = some n)
    (rest : List Char) : Token.scanString ('\\' :: 'u' :: a :: b :: c :: d :: rest) =
      (Token.scanString rest).map fun read => (.ofUnit n :: read.1, read.2) := by
  rw [Token.scanString]
  simp only [h]
  cases Token.scanString rest <;> rfl

theorem scanString_plain {c : Char} (hquote : c ≠ '"') (hslash : c ≠ '\\') (hc : ¬ c.toNat < 0x20)
    (rest : List Char) : Token.scanString (c :: rest) =
      (Token.scanString rest).map fun read => (.char c :: read.1, read.2) := by
  rw [Token.scanString]
  · rw [if_neg (by simp [hc, hslash])]
    cases Token.scanString rest <;> rfl
  all_goals
    intros
    contradiction

/-- An escaped character is read back. -/
theorem scanString_escapeChar (c : Char) (rest : List Char) :
    Token.scanString (escapeChar c ++ rest) =
      (Token.scanString rest).map fun read => (.char c :: read.1, read.2) := by
  unfold escapeChar
  -- seven characters have an escape of their own
  iterate 7
    split
    · subst_vars
      exact scanString_escape rfl rest
  split
  · rename_i hc
    have hunit : Token.Piece.ofUnit c.toNat = .char c := by
      rw [Token.Piece.ofUnit, if_neg (by simp; omega), Char.ofNat_toNat]
    rw [← hunit]
    exact scanString_unit (hexValue?_hexChar c.toNat hc) rest
  · exact scanString_plain ‹_› ‹_› ‹_› rest

theorem scanString_escaped (cs rest : List Char) :
    Token.scanString (cs.flatMap escapeChar ++ '"' :: rest) = some (cs.map .char, rest) := by
  induction cs with
  | nil => rfl
  | cons c cs ih =>
    rw [List.flatMap_cons, List.append_assoc, scanString_escapeChar, ih]
    rfl

theorem assemble_chars (cs : List Char) : Token.assemble (cs.map .char) = some cs := by
  induction cs with
  | nil => rfl
  | cons c cs ih => simp [Token.assemble, ih]

theorem Scans.quote (s : String) (h : Scans text ts) :
    Scans ((quote s).toList ++ text) (.string (some s) :: ts) := by
  intro rest hrest
  have htext : (Json.quote s).toList ++ text ++ rest =
      '"' :: (s.toList.flatMap escapeChar ++ '"' :: (text ++ rest)) := by
    simp [Json.quote]
  have hnext : Token.next? '"' (s.toList.flatMap escapeChar ++ '"' :: (text ++ rest)) =
      some (.string (some s), text ++ rest) := by
    simp [Token.next?, Token.punctuation?, scanString_escaped, assemble_chars]
  rw [htext, tokens?_next (by decide) hnext, h rest hrest, Option.map_map]
  rfl

/-! ## Blocks -/

def Blank (indent : String) : Prop := indent.toList.all Token.isSpace = true

theorem Blank.deeper {indent : String} (h : Blank indent) : Blank (indent ++ "  ") := by
  rw [Blank, String.toList_append, List.all_append, h]
  rfl

section Block

variable {texts : List String} {tss : List (List Token)}

theorem scans_join {indent : String} (hindent : Blank indent)
    (h : List.Forall₂ (fun text ts => Scans text.toList ts) texts tss) :
    Scans (List.intercalate [',', '\n'] (texts.map (indent.toList ++ ·.toList)))
      (List.intercalate [.comma] tss) := by
  induction h with
  | nil => exact Scans.nil
  | @cons text ts texts tss hfirst hrest ih =>
    cases hrest with
    | nil => simpa using hfirst.spaces hindent
    | @cons next us texts tss hnext hrest =>
      rw [List.map_cons, List.map_cons, List.intercalate_cons_cons, List.intercalate_cons_cons,
        List.append_assoc (indent.toList ++ text.toList), List.append_assoc ts]
      have hcomma := Scans.mark (c := ',') rfl (Scans.newline ih)
      exact (hfirst.spaces hindent).append_cons hcomma rfl

theorem scans_block {o c : Char} {ot ct : Token} {opening closing indent : String}
    (hopening : opening.toList = [o]) (ho : Token.punctuation? o = some ot)
    (hclosing : closing.toList = [c]) (hc : Token.punctuation? c = some ct)
    (hindent : Blank indent)
    (h : List.Forall₂ (fun text ts => Scans text.toList ts) texts tss) :
    Scans (block opening closing indent texts).toList
      (ot :: List.intercalate [.comma] tss ++ [ct]) := by
  have hend : Scans [c] [ct] := Scans.mark hc Scans.nil
  cases h with
  | nil =>
    simp only [block, List.isEmpty_nil, if_true, String.toList_append, hopening, hclosing]
    exact Scans.mark ho hend
  | @cons text ts texts tss hfirst hrest =>
    have hbody := scans_join hindent.deeper (.cons hfirst hrest)
    have hlast : Scans ('\n' :: (indent.toList ++ [c])) [ct] :=
      Scans.newline (hend.spaces hindent)
    have hall := Scans.mark ho (Scans.newline (hbody.append_cons hlast rfl))
    have htext : (block opening closing indent (text :: texts)).toList =
        o :: ('\n' :: (List.intercalate [',', '\n'] ((text :: texts).map
          ((indent ++ "  ").toList ++ ·.toList)) ++ '\n' :: (indent.toList ++ [c]))) := by
      simp only [block, List.isEmpty_cons, Bool.false_eq_true, if_false, String.toList_append,
        String.toList_intercalate, List.map_map, Function.comp_def, hopening, hclosing,
        List.append_assoc]
      rfl
    rw [htext]
    exact hall

end Block

end Scans

end SymbolLinks.Json
