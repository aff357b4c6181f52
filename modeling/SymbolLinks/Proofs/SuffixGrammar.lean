import Mathlib.Algebra.Group.Nat.Even
import Mathlib.Data.List.DropRight
import SymbolLinks.Proofs.LinkComponents

/-! The grammar of suffixes. A suffix starts at a dash that no backslash escapes, and it is a
kind, a hash, or a kind and a hash (`SuffixForm`). The grammar is said by dashes and the
backslashes in front of them. Reading a component goes over it once and gives exactly what
the grammar says. -/
namespace SymbolLinks.Link

/-! ## Dashes that are not escaped -/

/-- A dash with an even number of backslashes directly in front of it. -/
structure OpenDash (raw before after : List Char) : Prop where
  raw_eq : raw = before ++ '-' :: after
  even : Even (before.rtakeWhile (· == '\\')).length

/-- The last of the dashes that are not escaped. -/
structure LastDash (raw before after : List Char) : Prop extends OpenDash raw before after where
  last : ∀ before' after', OpenDash raw before' after' → before'.length ≤ before.length

/-- Whether the backslashes at the end of a text escape what follows. -/
def escapes (cs : List Char) : Bool := decide ¬ Even (cs.rtakeWhile (· == '\\')).length

theorem escapes_eq_false_iff {cs : List Char} :
    escapes cs = false ↔ Even (cs.rtakeWhile (· == '\\')).length := by
  simp [escapes]

theorem escapes_concat (cs : List Char) (c : Char) :
    escapes (cs ++ [c]) = (decide (c = '\\') && !escapes cs) := by
  by_cases hc : c = '\\'
  · have hlength : ((cs ++ [c]).rtakeWhile (· == '\\')).length =
        (cs.rtakeWhile (· == '\\')).length + 1 := by
      simp [hc]
    rw [escapes, hlength, escapes, decide_eq_true hc]
    simp only [Nat.even_add_one, Bool.true_and, decide_not]
  · simp [escapes, hc]

/-- What a cut says of a text and the text `seen` in front of it. -/
def CutIn (seen cs : List Char) : Option (List Char × List Char) → Prop
  | some cut => OpenDash (seen ++ cs) (seen ++ cut.1) cut.2 ∧
      ∀ before after, OpenDash (seen ++ cs) before after →
        before.length ≤ (seen ++ cut.1).length
  | none => ∀ before after, OpenDash (seen ++ cs) before after → before.length < seen.length

/-- Dashes of equally long starts are the same dash. -/
theorem OpenDash.unique {raw before after before' after' : List Char}
    (h : OpenDash raw before after) (h' : OpenDash raw before' after')
    (hlength : before.length = before'.length) : before = before' ∧ after = after' := by
  obtain ⟨hbefore, hafter⟩ := List.append_inj (h.raw_eq.symm.trans h'.raw_eq) hlength
  exact ⟨hbefore, (List.cons.inj hafter).2⟩

theorem OpenDash.raw_ne_nil {raw before after : List Char} (h : OpenDash raw before after) :
    raw ≠ [] := by
  rw [h.raw_eq]
  simp

/-- The cut goes along the text and remembers whether the next character is escaped. -/
theorem cutIn_cutAtLastDash (seen cs : List Char) :
    CutIn seen cs (cutAtLastDash (escapes seen) cs) := by
  induction cs generalizing seen with
  | nil =>
    intro before after hdash
    have hlength := congrArg List.length hdash.raw_eq
    simp only [List.append_nil, List.length_append, List.length_cons] at hlength
    omega
  | cons c cs ih =>
    have hrest := ih (seen ++ [c])
    rw [escapes_concat] at hrest
    simp only [cutAtLastDash]
    cases hcut : cutAtLastDash (decide (c = '\\') && !escapes seen) cs with
    | some cut =>
      rw [hcut] at hrest
      simpa [CutIn] using hrest
    | none =>
      rw [hcut] at hrest
      simp only [CutIn, List.append_assoc, List.singleton_append, List.length_append,
        List.length_singleton] at hrest
      by_cases hc : c = '-' ∧ escapes seen = false
      · simp only [hc, decide_true, Bool.not_false, Bool.and_self, if_true]
        refine ⟨⟨by simp, by simpa using escapes_eq_false_iff.mp hc.2⟩, fun before after hdash => ?_⟩
        have hless := hrest before after (hc.1 ▸ hdash)
        simp only [List.append_nil]
        omega
      · rw [if_neg (by simpa using hc)]
        intro before after hdash
        have hless := hrest before after hdash
        refine Nat.lt_of_le_of_ne (by omega) fun heq => hc ?_
        obtain ⟨rfl, htail⟩ := List.append_inj hdash.raw_eq heq.symm
        exact ⟨(List.cons.inj htail).1, escapes_eq_false_iff.mpr hdash.even⟩

theorem cutIn_nil (raw : List Char) : CutIn [] raw (cutAtLastDash false raw) := by
  have hescapes : escapes [] = false := escapes_eq_false_iff.mpr (by simp)
  rw [← hescapes]
  exact cutIn_cutAtLastDash [] raw

variable {raw before after name text : List Char}

theorem cutAtLastDash_eq_some_iff :
    cutAtLastDash false raw = some (before, after) ↔ LastDash raw before after := by
  have hcut := cutIn_nil raw
  constructor
  · intro h
    rw [h] at hcut
    exact ⟨hcut.1, fun before' after' => hcut.2 before' after'⟩
  · intro h
    cases hsome : cutAtLastDash false raw with
    | none =>
      rw [hsome] at hcut
      exact absurd (hcut before after h.toOpenDash) (Nat.not_lt_zero _)
    | some cut =>
      rw [hsome] at hcut
      have hlength : cut.1.length = before.length :=
        Nat.le_antisymm (h.last _ _ hcut.1) (hcut.2 _ _ h.toOpenDash)
      obtain ⟨hbefore, hafter⟩ := hcut.1.unique h.toOpenDash hlength
      exact congrArg some (Prod.ext hbefore hafter)

/-! ## Kinds and hashes -/

/-- A kind as suffixes write it: alone, or behind the tag of a language and a dot. -/
inductive KindForm : List Char → Option Language → List Char → Prop where
  | bare {k : List Char} : (Kind.known? k).isSome = true → KindForm k none k
  | swift {k : List Char} : (Kind.known? k).isSome = true →
      KindForm ("swift.".toList ++ k) (some .swift) k
  | objectiveC {k : List Char} : (Kind.known? k).isSome = true →
      KindForm ("objc.".toList ++ k) (some .objectiveC) k

/-- A hash as suffixes write it. -/
def HashForm (text : List Char) : Prop :=
  1 ≤ text.length ∧ text.length ≤ 6 ∧ ∀ c ∈ text, c.isDigit = true ∨ c.isLower = true

theorem isHash_iff_hashForm : ShortHash.isHash text = true ↔ HashForm text := by
  have hdigit : ∀ c : Char, ShortHash.isDigit c = true ↔ c.isDigit = true ∨ c.isLower = true := by
    intro c
    rw [ShortHash.isDigit, Bool.or_eq_true]
    exact Iff.rfl
  simp [ShortHash.isHash, HashForm, Nat.one_le_iff_ne_zero, hdigit, and_assoc]

theorem tag_of_ofLinkTag? {tag : List Char} {l : Language} (h : Language.ofLinkTag? tag = some l) :
    tag = "swift".toList ∧ l = .swift ∨ tag = "objc".toList ∧ l = .objectiveC := by
  unfold Language.ofLinkTag? at h
  split at h
  · exact .inl ⟨‹_›, (Option.some.inj h).symm⟩
  · split at h
    · exact .inr ⟨‹_›, (Option.some.inj h).symm⟩
    · cases h

theorem kindSuffix?_eq_some_iff {l : Option Language} {k : List Char} :
    kindSuffix? text = some (l, k) ↔ KindForm text l k := by
  constructor
  · intro h
    unfold kindSuffix? at h
    split at h
    · rename_i hknown
      cases h
      exact .bare hknown
    · obtain ⟨⟨tag, kind⟩, hcut, h⟩ := Option.bind_eq_some_iff.mp h
      obtain ⟨l', htag, h⟩ := Option.bind_eq_some_iff.mp h
      cases hknown : Kind.known? kind with
      | none => simp [hknown] at h
      | some _ =>
        simp only [hknown, Option.isNone_some] at h
        cases h
        rw [Text.append_of_cutAt hcut]
        obtain ⟨rfl, rfl⟩ | ⟨rfl, rfl⟩ := tag_of_ofLinkTag? htag
        · exact .swift (by rw [hknown]; rfl)
        · exact .objectiveC (by rw [hknown]; rfl)
  · intro h
    cases h with
    | bare hknown => exact kindSuffix?_known hknown
    | swift hknown =>
      exact kindSuffix?_tagged (rfl : Language.ofLinkTag? "swift".toList = some .swift) hknown
    | objectiveC hknown =>
      exact kindSuffix?_tagged (rfl : Language.ofLinkTag? "objc".toList = some .objectiveC) hknown

/-- A text that is a kind, whatever language it names. -/
def IsKindForm (text : List Char) : Prop := ∃ l k, KindForm text l k

theorem kindSuffix?_eq_none_iff : kindSuffix? text = none ↔ ¬ IsKindForm text := by
  rw [Option.eq_none_iff_forall_ne_some]
  simp only [IsKindForm, ← kindSuffix?_eq_some_iff, not_exists, Prod.forall, ne_eq]

/-! ## Suffixes -/

/-- A text that ends in a dash and a kind, with a name in front. -/
def EndsInKind (raw : List Char) : Prop :=
  ∃ name text, LastDash raw name text ∧ name ≠ [] ∧ IsKindForm text

/-- The suffixes of components. A text that is both a kind and a hash counts as a kind. -/
inductive SuffixForm (raw : List Char) : Reading → Prop where
  | kind {name text k : List Char} {l : Option Language} :
      LastDash raw name text → name ≠ [] → KindForm text l k →
      SuffixForm raw ⟨name, text, none, some k, l⟩
  | kindHash {front hash name text k : List Char} {l : Option Language} :
      LastDash raw front hash → ¬ IsKindForm hash → HashForm hash →
      LastDash front name text → name ≠ [] → KindForm text l k →
      SuffixForm raw ⟨name, text ++ '-' :: hash, some hash, some k, l⟩
  | hash {name text : List Char} :
      LastDash raw name text → name ≠ [] → ¬ IsKindForm text → HashForm text →
      ¬ EndsInKind name → SuffixForm raw ⟨name, text, some text, none, none⟩

theorem SuffixForm.name_ne_nil {r : Reading} (h : SuffixForm raw r) : r.name ≠ [] := by
  cases h with
  | kind _ hne _ => exact hne
  | kindHash _ _ _ _ hne _ => exact hne
  | hash _ hne _ _ _ => exact hne

theorem kindBeforeHash?_eq_some_iff {hash : List Char} {r : Reading} :
    kindBeforeHash? before hash = some r ↔ ∃ name text l k, LastDash before name text ∧
      name ≠ [] ∧ KindForm text l k ∧
      r = ⟨name, text ++ '-' :: hash, some hash, some k, l⟩ := by
  constructor
  · intro h
    unfold kindBeforeHash? at h
    obtain ⟨⟨name, text⟩, hcut, h⟩ := Option.bind_eq_some_iff.mp h
    obtain ⟨⟨l, k⟩, hkind, h⟩ := Option.bind_eq_some_iff.mp h
    by_cases hne : name = []
    · simp [hne] at h
    · simp only [List.isEmpty_iff, hne, if_false] at h
      exact ⟨name, text, l, k, cutAtLastDash_eq_some_iff.mp hcut, hne,
        kindSuffix?_eq_some_iff.mp hkind, (Option.some.inj h).symm⟩
  · intro h
    obtain ⟨name, text, l, k, hlast, hne, hkind, rfl⟩ := h
    simp [kindBeforeHash?, cutAtLastDash_eq_some_iff.mpr hlast, kindSuffix?_eq_some_iff.mpr hkind,
      hne]

theorem kindBeforeHash?_eq_none_iff {hash : List Char} :
    kindBeforeHash? before hash = none ↔ ¬ EndsInKind before := by
  rw [Option.eq_none_iff_forall_ne_some]
  constructor
  · intro h hends
    obtain ⟨name, text, hlast, hne, l, k, hkind⟩ := hends
    exact h _ (kindBeforeHash?_eq_some_iff.mpr ⟨name, text, l, k, hlast, hne, hkind, rfl⟩)
  · intro h r hsome
    obtain ⟨name, text, l, k, hlast, hne, hkind, -⟩ := kindBeforeHash?_eq_some_iff.mp hsome
    exact h ⟨name, text, hlast, hne, l, k, hkind⟩

/-! ## What is read of a component -/

section Read

variable (hlast : LastDash raw name text)

include hlast

theorem reading?_of_first (hnil : name = []) : reading? raw = none := by
  simp [reading?, cutAtLastDash_eq_some_iff.mpr hlast, hnil]

theorem reading?_of_kindForm (hne : name ≠ []) {l : Option Language} {k : List Char}
    (hkind : KindForm text l k) : reading? raw = some ⟨name, text, none, some k, l⟩ := by
  simp [reading?, cutAtLastDash_eq_some_iff.mpr hlast, hne, kindSuffix?_eq_some_iff.mpr hkind]

theorem reading?_of_hashForm (hne : name ≠ []) (hkind : ¬ IsKindForm text)
    (hhash : HashForm text) : reading? raw =
      some ((kindBeforeHash? name text).getD ⟨name, text, some text, none, none⟩) := by
  simp [reading?, cutAtLastDash_eq_some_iff.mpr hlast, hne, kindSuffix?_eq_none_iff.mpr hkind,
    isHash_iff_hashForm.mpr hhash]

theorem reading?_of_no_form (hkind : ¬ IsKindForm text) (hhash : ¬ HashForm text) :
    reading? raw = none := by
  simp [reading?, cutAtLastDash_eq_some_iff.mpr hlast, kindSuffix?_eq_none_iff.mpr hkind,
    mt isHash_iff_hashForm.mp hhash]

end Read

/-- Where a component with a suffix is cut: at its last open dash, with a kind or a hash
behind it. -/
theorem exists_cut_of_reading? {r : Reading} (h : reading? raw = some r) : ∃ name text,
    LastDash raw name text ∧ name ≠ [] ∧ (IsKindForm text ∨ HashForm text) := by
  cases hcut : cutAtLastDash false raw with
  | none => simp [reading?, hcut] at h
  | some cut =>
    have hlast : LastDash raw cut.1 cut.2 := cutAtLastDash_eq_some_iff.mp hcut
    refine ⟨cut.1, cut.2, hlast, fun hnil => ?_, ?_⟩
    · rw [reading?_of_first hlast hnil] at h
      cases h
    · by_contra hneither
      obtain ⟨hkind, hhash⟩ := not_or.mp hneither
      rw [reading?_of_no_form hlast hkind hhash] at h
      cases h

/-- Reading a component follows the grammar. -/
theorem reading?_eq_some_iff {r : Reading} : reading? raw = some r ↔ SuffixForm raw r := by
  constructor
  · intro h
    obtain ⟨name, text, hlast, hne, hform⟩ := exists_cut_of_reading? h
    by_cases hkind : IsKindForm text
    · obtain ⟨l, k, hkind⟩ := hkind
      rw [reading?_of_kindForm hlast hne hkind] at h
      cases h
      exact .kind hlast hne hkind
    · have hhash := hform.resolve_left hkind
      rw [reading?_of_hashForm hlast hne hkind hhash] at h
      cases hbefore : kindBeforeHash? name text with
      | none =>
        rw [hbefore] at h
        cases h
        exact .hash hlast hne hkind hhash (kindBeforeHash?_eq_none_iff.mp hbefore)
      | some r' =>
        rw [hbefore] at h
        cases h
        obtain ⟨front, ktext, l, k, hlast', hne', hkind', rfl⟩ :=
          kindBeforeHash?_eq_some_iff.mp hbefore
        exact .kindHash hlast hkind hhash hlast' hne' hkind'
  · intro h
    cases h with
    | kind hlast hne hkind => exact reading?_of_kindForm hlast hne hkind
    | kindHash hlast hkind hhash hlast' hne' hkind' =>
      rw [reading?_of_hashForm hlast hlast'.raw_ne_nil hkind hhash,
        kindBeforeHash?_eq_some_iff.mpr ⟨_, _, _, _, hlast', hne', hkind', rfl⟩, Option.getD_some]
    | hash hlast hne hkind hhash hends =>
      rw [reading?_of_hashForm hlast hne hkind hhash, kindBeforeHash?_eq_none_iff.mpr hends,
        Option.getD_none]

/-- A component that has a suffix: an open dash that is not its first character, and behind
the last of these a kind or a hash. -/
def HasSuffix (raw : List Char) : Prop :=
  (∃ before after, before ≠ [] ∧ OpenDash raw before after) ∧
    ∃ name text, LastDash raw name text ∧ (IsKindForm text ∨ HashForm text)

theorem isSome_reading?_iff : (reading? raw).isSome = true ↔ HasSuffix raw := by
  constructor
  · intro h
    obtain ⟨r, hr⟩ := Option.isSome_iff_exists.mp h
    obtain ⟨name, text, hlast, hne, hform⟩ := exists_cut_of_reading? hr
    exact ⟨⟨name, text, hne, hlast.toOpenDash⟩, name, text, hlast, hform⟩
  · intro h
    obtain ⟨⟨before, after, hbefore, hdash⟩, name, text, hlast, hform⟩ := h
    have hne : name ≠ [] := by
      have hlength := hlast.last before after hdash
      have hpos := List.length_pos_iff.mpr hbefore
      exact List.length_pos_iff.mp (by omega)
    by_cases hkind : IsKindForm text
    · obtain ⟨l, k, hkind⟩ := hkind
      rw [reading?_of_kindForm hlast hne hkind]
      rfl
    · rw [reading?_of_hashForm hlast hne hkind (hform.resolve_left hkind)]
      rfl

namespace Component

/-- A component with the name and the suffix of a reading. -/
structure Carries (c : Component) (r : Reading) : Prop where
  name : c.name = String.ofList (unescape r.name)
  suffix : ∃ s, c.suffix = some s ∧ s.hash = r.hash.map String.ofList ∧
    s.kind = r.kind.map String.ofList ∧ s.language = r.language ∧ s.text = String.ofList r.text

/-- The grammar of suffixes is recognised exactly. A component has a suffix if and only if
a kind or a hash stands behind its last open dash, and a name in front of that dash. Then it
is read as the grammar says, with a name that is not empty. Any other component is a name as
a whole. -/
theorem parse_follows_suffix_grammar (raw : List Char) (offset : Nat) :
    ((parse raw offset).suffix ≠ none ↔ HasSuffix raw) ∧
    (HasSuffix raw → ∃ r, SuffixForm raw r) ∧
    (∀ r, SuffixForm raw r → r.name ≠ [] ∧ (parse raw offset).Carries r) ∧
    (¬ HasSuffix raw →
      (parse raw offset).suffix = none ∧ (parse raw offset).name = String.ofList (unescape raw)) := by
  rw [← isSome_reading?_iff]
  refine ⟨?_, ?_, ?_, ?_⟩
  · cases hr : reading? raw with
    | none => simp [parse_of_reading?_none hr]
    | some r => simp [parse_of_reading?_some hr]
  · intro h
    obtain ⟨r, hr⟩ := Option.isSome_iff_exists.mp h
    exact ⟨r, reading?_eq_some_iff.mp hr⟩
  · intro r hform
    refine ⟨hform.name_ne_nil, ?_⟩
    rw [parse_of_reading?_some (reading?_eq_some_iff.mpr hform)]
    exact ⟨rfl, _, rfl, rfl, rfl, rfl, rfl⟩
  · intro h
    rw [parse_of_reading?_none (by simpa using h)]
    exact ⟨rfl, rfl⟩

-- Two backslashes escape each other and not the dash, and `init` is a kind before it is a hash.
example : (parse "a\\\\-init".toList 0).suffix.map Suffix.asks = some (none, some "init", none) := by
  decide

end Component

end SymbolLinks.Link
