import SymbolLinks.Link.Component
import SymbolLinks.Proofs.ShortHashLaws

/-! Reading components. A name without dashes and backslashes is read as it is, and
with a dash and a suffix after it, it is read as that name and that suffix. The
other way round, a component that is read as such a name is written as the name,
with or without a dash and the text of a suffix. -/
namespace SymbolLinks

/-! ## Cutting texts -/

namespace Text

theorem cutAt_eq_none {sep : Char} {cs : List Char} (h : sep ∉ cs) : cutAt sep cs = none := by
  induction cs with
  | nil => rfl
  | cons c cs ih =>
    obtain ⟨hc, hcs⟩ := not_or.mp (mt List.mem_cons.mpr h)
    simp only [cutAt, if_neg (Ne.symm hc), ih hcs, Option.map_none]

theorem cutAt_append {sep : Char} {before : List Char} (h : sep ∉ before) (after : List Char) :
    cutAt sep (before ++ sep :: after) = some (before, after) := by
  induction before with
  | nil => simp [cutAt]
  | cons c before ih =>
    obtain ⟨hc, hcs⟩ := not_or.mp (mt List.mem_cons.mpr h)
    simp only [List.cons_append, cutAt, if_neg (Ne.symm hc), ih hcs, Option.map_some]

theorem append_of_cutAt {sep : Char} {cs before after : List Char}
    (h : cutAt sep cs = some (before, after)) : cs = before ++ sep :: after := by
  induction cs generalizing before with
  | nil => cases h
  | cons c cs ih =>
    simp only [cutAt] at h
    split at h
    · rename_i hc
      cases h
      rw [hc]
      rfl
    · obtain ⟨⟨before', after'⟩, hcut, heq⟩ := Option.map_eq_some_iff.mp h
      cases heq
      rw [ih hcut]
      rfl

theorem takeWhile_ne_eq_self {sep : Char} {cs : List Char} (h : sep ∉ cs) :
    cs.takeWhile (· != sep) = cs := by
  rw [← List.append_nil cs, List.takeWhile_append_of_pos, List.takeWhile_nil]
  intro c hc
  simpa using fun heq : c = sep => h (heq ▸ hc)

theorem takeWhile_ne_append {sep : Char} {before : List Char} (h : sep ∉ before)
    (after : List Char) : (before ++ sep :: after).takeWhile (· != sep) = before := by
  rw [List.takeWhile_append_of_pos, List.takeWhile_cons_of_neg (by simp), List.append_nil]
  intro c hc
  simpa using fun heq : c = sep => h (heq ▸ hc)

end Text

/-! ## Known kinds and languages -/

/-- The tags of languages are made of small letters. -/
theorem Language.not_mem_of_ofLinkTag? {tag : List Char} {l : Language}
    (h : ofLinkTag? tag = some l) {c : Char} (hc : c.isLower = false) : c ∉ tag := by
  have hall : ["swift".toList, "objc".toList].all (·.all Char.isLower) = true := by decide
  have htag : tag ∈ ["swift".toList, "objc".toList] := by
    unfold ofLinkTag? at h
    split at h
    · simp [*]
    · split at h
      · simp [*]
      · cases h
  intro hmem
  rw [List.all_eq_true.mp (List.all_eq_true.mp hall tag htag) c hmem] at hc
  cases hc

namespace Kind

/-- The characters that kind identifiers are made of. -/
def isKindChar (c : Char) : Bool := c.isLower || c == '.'

theorem known?_eq_some {cs : List Char} {k : Kind} (h : known? cs = some k) :
    k ∈ knownKinds ∧ k.identifier.toList = cs := by
  unfold known? at h
  have hk := List.find?_some h
  exact ⟨List.mem_of_find?_eq_some h, by simpa using hk⟩

theorem isKindChar_of_known {cs : List Char} (h : (known? cs).isSome = true) {c : Char}
    (hc : c ∈ cs) : isKindChar c = true := by
  have hall : knownKinds.all (fun k => k.identifier.toList.all isKindChar) = true := by decide
  obtain ⟨k, hk⟩ := Option.isSome_iff_exists.mp h
  obtain ⟨hmem, rfl⟩ := known?_eq_some hk
  exact List.all_eq_true.mp (List.all_eq_true.mp hall k hmem) c hc

/-- A character that kinds are not made of stands in no known kind. -/
theorem not_mem_of_known {cs : List Char} (h : (known? cs).isSome = true) {c : Char}
    (hc : isKindChar c = false) : c ∉ cs := by
  intro hmem
  rw [isKindChar_of_known h hmem] at hc
  cases hc

/-- No known kind starts with the tag of a language. -/
theorem known?_tagged {tag : List Char} {l : Language} (h : Language.ofLinkTag? tag = some l)
    (cs : List Char) : known? (tag ++ '.' :: cs) = none := by
  have hall : knownKinds.all (fun k =>
      Language.ofLinkTag? (k.identifier.toList.takeWhile (· != '.')) == none) = true := by decide
  cases hk : known? (tag ++ '.' :: cs) with
  | none => rfl
  | some k =>
    obtain ⟨hmem, hid⟩ := known?_eq_some hk
    have hnone := List.all_eq_true.mp hall k hmem
    rw [hid, Text.takeWhile_ne_append (Language.not_mem_of_ofLinkTag? h (by decide)), h] at hnone
    cases hnone

end Kind

namespace Link

/-! ## Dashes and backslashes -/

/-- A text in which no dash can start a suffix and no backslash can escape one. -/
def Plain (cs : List Char) : Prop := '-' ∉ cs ∧ '\\' ∉ cs

instance (cs : List Char) : Decidable (Plain cs) :=
  inferInstanceAs (Decidable ('-' ∉ cs ∧ '\\' ∉ cs))

theorem cutAtLastDash_eq_none {cs : List Char} (h : '-' ∉ cs) (escaped : Bool) :
    cutAtLastDash escaped cs = none := by
  induction cs generalizing escaped with
  | nil => rfl
  | cons c cs ih =>
    obtain ⟨hc, hcs⟩ := not_or.mp (mt List.mem_cons.mpr h)
    simp only [cutAtLastDash, ih hcs]
    rw [if_neg]
    simpa using fun heq : c = '-' => absurd heq (Ne.symm hc)

theorem cutAtLastDash_append {name text : List Char} (hname : '\\' ∉ name) (htext : '-' ∉ text) :
    cutAtLastDash false (name ++ '-' :: text) = some (name, text) := by
  induction name with
  | nil => simp [cutAtLastDash, cutAtLastDash_eq_none htext]
  | cons c name ih =>
    obtain ⟨hc, hescape⟩ := not_or.mp (mt List.mem_cons.mpr hname)
    have hc : (decide (c = '\\') && !false) = false := by simp [Ne.symm hc]
    simp only [List.cons_append, cutAtLastDash, hc, ih hescape]

/-- The two parts of a cut, joined by the dash, are the text. -/
theorem append_of_cutAtLastDash {escaped : Bool} {cs before after : List Char}
    (h : cutAtLastDash escaped cs = some (before, after)) : cs = before ++ '-' :: after := by
  induction cs generalizing escaped before with
  | nil => cases h
  | cons c cs ih =>
    simp only [cutAtLastDash] at h
    split at h
    · rename_i before' after' hcut
      cases h
      rw [ih hcut]
      rfl
    · split at h
      · rename_i hc
        cases h
        simp only [Bool.and_eq_true, decide_eq_true_eq] at hc
        rw [hc.1]
        rfl
      · cases h

theorem unescape_eq_self {cs : List Char} (h : '\\' ∉ cs) : unescape cs = cs := by
  fun_induction unescape cs with
  | case1 cs ih => simp at h
  | case2 c cs _ ih => rw [ih fun hmem => h (List.mem_cons_of_mem c hmem)]
  | case3 => rfl

/-- Taking escapes away loses no dash and adds none. -/
theorem dash_mem_unescape {cs : List Char} : '-' ∈ unescape cs ↔ '-' ∈ cs := by
  fun_induction unescape cs with
  | case1 cs ih => simp
  | case2 c cs _ ih => simp only [List.mem_cons, ih]
  | case3 => rfl

/-- Without dashes there is nothing to unescape. -/
theorem unescape_of_not_mem {cs : List Char} (h : '-' ∉ cs) : unescape cs = cs := by
  fun_induction unescape cs with
  | case1 cs ih => simp at h
  | case2 c cs _ ih => rw [ih fun hmem => h (List.mem_cons_of_mem c hmem)]
  | case3 => rfl

/-! ## Readings -/

theorem kindSuffix?_known {k : List Char} (h : (Kind.known? k).isSome = true) :
    kindSuffix? k = some (none, k) := by
  rw [kindSuffix?, if_pos h]

theorem kindSuffix?_tagged {tag k : List Char} {l : Language}
    (htag : Language.ofLinkTag? tag = some l) (h : (Kind.known? k).isSome = true) :
    kindSuffix? (tag ++ '.' :: k) = some (some l, k) := by
  obtain ⟨kind, hkind⟩ := Option.isSome_iff_exists.mp h
  have hdot : '.' ∉ tag := Language.not_mem_of_ofLinkTag? htag (by decide)
  simp [kindSuffix?, Kind.known?_tagged htag, Text.cutAt_append hdot, htag, hkind]

theorem kindSuffix?_hash {h : List Char} (hhash : ShortHash.isHash h = true)
    (hkind : Kind.known? h = none) : kindSuffix? h = none := by
  have hdot : '.' ∉ h := ShortHash.not_mem_of_isHash hhash (by decide)
  simp [kindSuffix?, hkind, Text.cutAt_eq_none hdot]

variable {name text raw : List Char}

theorem reading?_eq_none (h : '-' ∉ raw) : reading? raw = none := by
  simp [reading?, cutAtLastDash_eq_none h]

/-- A name and a text that is read as a kind. -/
theorem reading?_kind {l : Option Language} {k : List Char} (hne : name ≠ []) (hname : Plain name)
    (htext : '-' ∉ text) (hk : kindSuffix? text = some (l, k)) :
    reading? (name ++ '-' :: text) = some ⟨name, text, none, some k, l⟩ := by
  simp [reading?, cutAtLastDash_append hname.2 htext, hne, hk]

/-- A name and a text that is read as a hash. -/
theorem reading?_hash (hne : name ≠ []) (hname : Plain name)
    (hhash : ShortHash.isHash text = true) (hkind : Kind.known? text = none) :
    reading? (name ++ '-' :: text) = some ⟨name, text, some text, none, none⟩ := by
  have htext : '-' ∉ text := ShortHash.not_mem_of_isHash hhash (by decide)
  have hbefore : kindBeforeHash? name text = none := by
    simp [kindBeforeHash?, cutAtLastDash_eq_none hname.1]
  simp [reading?, cutAtLastDash_append hname.2 htext, hne, kindSuffix?_hash hhash hkind, hhash,
    hbefore]

/-- A name, a text that is read as a kind, and a text that is read as a hash. -/
theorem reading?_kindHash {l : Option Language} {k hash : List Char} (hne : name ≠ [])
    (hname : Plain name) (htext : Plain text) (hk : kindSuffix? text = some (l, k))
    (hhash : ShortHash.isHash hash = true) (hkind : Kind.known? hash = none) :
    reading? (name ++ '-' :: (text ++ '-' :: hash)) =
      some ⟨name, text ++ '-' :: hash, some hash, some k, l⟩ := by
  have hdash : '-' ∉ hash := ShortHash.not_mem_of_isHash hhash (by decide)
  have hescape : '\\' ∉ name ++ '-' :: text := by simp [hname.2, htext.2]
  have hcut : cutAtLastDash false (name ++ '-' :: (text ++ '-' :: hash)) =
      some (name ++ '-' :: text, hash) := by
    simpa using cutAtLastDash_append hescape hdash
  have hbefore : kindBeforeHash? (name ++ '-' :: text) hash =
      some ⟨name, text ++ '-' :: hash, some hash, some k, l⟩ := by
    simp [kindBeforeHash?, cutAtLastDash_append hname.2 htext.1, hk, hne]
  simp [reading?, hcut, kindSuffix?_hash hhash hkind, hhash, hbefore]

/-- The text of a kind has no dash and no backslash. -/
theorem plain_of_kindSuffix? {l : Option Language} {k : List Char}
    (h : kindSuffix? text = some (l, k)) : Plain text := by
  unfold kindSuffix? at h
  split at h
  · rename_i hknown
    exact ⟨Kind.not_mem_of_known hknown (by decide), Kind.not_mem_of_known hknown (by decide)⟩
  · obtain ⟨⟨tag, kind⟩, hcut, h⟩ := Option.bind_eq_some_iff.mp h
    obtain ⟨l', htag, h⟩ := Option.bind_eq_some_iff.mp h
    have hknown : (Kind.known? kind).isSome = true := by
      cases hkind : Kind.known? kind with
      | none => simp [hkind] at h
      | some _ => rfl
    have hlack : ∀ c : Char, c.isLower = false → c ≠ '.' → c ∉ text := by
      intro c hlower hdot
      have hkind : Kind.isKindChar c = false := by simp [Kind.isKindChar, hlower, hdot]
      rw [Text.append_of_cutAt hcut, List.mem_append, List.mem_cons]
      simp [Language.not_mem_of_ofLinkTag? htag hlower, hdot, Kind.not_mem_of_known hknown hkind]
    exact ⟨hlack '-' (by decide) (by decide), hlack '\\' (by decide) (by decide)⟩

theorem known?_of_kindSuffix? (h : kindSuffix? text = none) : Kind.known? text = none := by
  cases hkind : Kind.known? text with
  | none => rfl
  | some k =>
    rw [kindSuffix?_known (by rw [hkind]; rfl)] at h
    cases h

/-- The text of a reading is read as its hash, kind and language, whatever name stands in
front of it. -/
inductive Reading.TextRead : Reading → Prop where
  | kind {name text k : List Char} {l : Option Language} : kindSuffix? text = some (l, k) →
      TextRead ⟨name, text, none, some k, l⟩
  | hash {name text : List Char} : ShortHash.isHash text = true → kindSuffix? text = none →
      TextRead ⟨name, text, some text, none, none⟩
  | kindHash {name text k hash : List Char} {l : Option Language} :
      kindSuffix? text = some (l, k) → ShortHash.isHash hash = true → kindSuffix? hash = none →
      TextRead ⟨name, text ++ '-' :: hash, some hash, some k, l⟩

/-- What was read is the name and the text of the reading, joined by a dash. -/
structure Reading.Of (r : Reading) (raw : List Char) : Prop where
  raw_eq : raw = r.name ++ '-' :: r.text
  name_ne_nil : r.name ≠ []
  textRead : r.TextRead

theorem of_kindBeforeHash? {hash : List Char} {r : Reading} (hhash : ShortHash.isHash hash = true)
    (hkind : kindSuffix? hash = none) (h : kindBeforeHash? name hash = some r) :
    r.Of (name ++ '-' :: hash) := by
  unfold kindBeforeHash? at h
  obtain ⟨⟨before, after⟩, hcut, h⟩ := Option.bind_eq_some_iff.mp h
  obtain ⟨⟨l, k⟩, hk, h⟩ := Option.bind_eq_some_iff.mp h
  rw [append_of_cutAtLastDash hcut]
  by_cases hne : before = []
  · simp [hne] at h
  · simp only [List.isEmpty_iff, hne, if_false] at h
    cases h
    exact ⟨by simp, hne, .kindHash hk hhash hkind⟩

theorem of_reading? {r : Reading} (h : reading? raw = some r) : r.Of raw := by
  unfold reading? at h
  obtain ⟨⟨before, after⟩, hcut, h⟩ := Option.bind_eq_some_iff.mp h
  rw [append_of_cutAtLastDash hcut]
  by_cases hne : before = []
  · simp [hne] at h
  · simp only [List.isEmpty_iff, hne, if_false] at h
    split at h
    · rename_i hk
      cases h
      exact ⟨rfl, hne, .kind hk⟩
    · rename_i hk
      split at h
      · rename_i hhash
        cases hb : kindBeforeHash? before after with
        | none =>
          rw [hb] at h
          cases h
          exact ⟨rfl, hne, .hash hhash hk⟩
        | some r' =>
          rw [hb] at h
          cases h
          exact of_kindBeforeHash? hhash hk hb
      · cases h

/-- Behind another plain name, the text of a suffix is read as before. -/
theorem Reading.TextRead.reading? {r : Reading} (h : r.TextRead) (hne : name ≠ [])
    (hname : Plain name) : reading? (name ++ '-' :: r.text) = some { r with name } := by
  cases h with
  | kind hk => exact reading?_kind hne hname (plain_of_kindSuffix? hk).1 hk
  | hash hhash hk => exact reading?_hash hne hname hhash (known?_of_kindSuffix? hk)
  | kindHash hk hhash hkind =>
    exact reading?_kindHash hne hname (plain_of_kindSuffix? hk) hk hhash (known?_of_kindSuffix? hkind)

/-! ## Components -/

/-- What a suffix asks for, wherever it stands in a link. -/
def Suffix.asks (s : Suffix) : Option String × Option String × Option Language :=
  (s.hash, s.kind, s.language)

namespace Component

/-- A component that stands for a plain name: it is the name, or it has a suffix
and is as a whole no plain name. -/
structure Spells (c : Component) (name : String) : Prop where
  name_eq : c.name = name
  full_eq : c.suffix = none → c.full = name
  full_dash : c.suffix ≠ none → '-' ∈ c.full.toList

variable {name : String} {raw : List Char} {offset : Nat}

theorem parse_of_reading?_none (h : reading? raw = none) : parse raw offset =
    ⟨none, String.ofList (unescape raw), String.ofList (unescape raw),
      ⟨offset, offset + Text.byteLength raw⟩, ⟨offset, offset + Text.byteLength raw⟩⟩ := by
  simp only [parse, h]

theorem parse_of_reading?_some {r : Reading} (h : reading? raw = some r) : parse raw offset =
    ⟨some ⟨r.hash.map String.ofList, r.kind.map String.ofList, r.language,
        ⟨offset + Text.byteLength r.name, offset + Text.byteLength raw⟩, String.ofList r.text⟩,
      String.ofList (unescape raw), String.ofList (unescape r.name),
      ⟨offset, offset + Text.byteLength r.name⟩, ⟨offset, offset + Text.byteLength raw⟩⟩ := by
  simp only [parse, h]

/-- Components that a walk does not tell apart: they may stand at different places. -/
structure Alike (c c' : Component) : Prop where
  full : c'.full = c.full
  name : c'.name = c.name
  asks : c'.suffix.map Suffix.asks = c.suffix.map Suffix.asks

theorem Alike.refl (c : Component) : c.Alike c := ⟨rfl, rfl, rfl⟩

theorem Alike.isSome_suffix {c c' : Component} (h : c.Alike c') :
    c'.suffix.isSome = c.suffix.isSome := by
  simpa using congrArg Option.isSome h.asks

/-- One text is read alike wherever it stands. -/
theorem alike_parse (raw : List Char) (offset offset' : Nat) :
    (parse raw offset).Alike (parse raw offset') := by
  cases hr : reading? raw with
  | none =>
    rw [parse_of_reading?_none hr, parse_of_reading?_none hr]
    exact ⟨rfl, rfl, rfl⟩
  | some r =>
    rw [parse_of_reading?_some hr, parse_of_reading?_some hr]
    exact ⟨rfl, rfl, rfl⟩

theorem parse_name (h : Plain name.toList) (offset : Nat) :
    (parse name.toList offset).Spells name ∧ (parse name.toList offset).suffix = none := by
  rw [parse_of_reading?_none (reading?_eq_none h.1), unescape_eq_self h.2, String.ofList_toList]
  exact ⟨⟨rfl, fun _ => rfl, fun hne => absurd rfl hne⟩, rfl⟩

theorem parse_suffixed {r : Reading} (hname : Plain name.toList) (hr : reading? raw = some r)
    (hrname : r.name = name.toList) (offset : Nat) :
    (parse raw offset).Spells name ∧ (parse raw offset).suffix.map Suffix.asks =
      some (r.hash.map String.ofList, r.kind.map String.ofList, r.language) := by
  rw [parse_of_reading?_some hr, hrname, unescape_eq_self hname.2, String.ofList_toList]
  refine ⟨⟨rfl, fun hnone => (Option.some_ne_none _ hnone).elim, fun _ => ?_⟩, rfl⟩
  rw [String.toList_ofList, dash_mem_unescape, (of_reading? hr).raw_eq]
  simp

theorem Spells.full_ne {c : Component} {x : String} (h : c.Spells name) (hx : name ≠ x)
    (hdash : '-' ∉ x.toList) : c.full ≠ x := by
  rintro rfl
  cases hs : c.suffix with
  | none => exact hx (h.full_eq hs).symm
  | some s => exact hdash (h.full_dash (by simp [hs]))

/-- Where the suffix of a component stands, or would stand. -/
def suffixRange (c : Component) : Span :=
  c.suffix.elim ⟨c.nameRange.stop, c.nameRange.stop⟩ (·.range)

/-- How a component is written that stands for a plain name: as the name, and a suffix
behind it. -/
structure Writes (raw : List Char) (offset : Nat) (name : String) : Prop where
  spells : (parse raw offset).Spells name
  ne_empty : name ≠ ""
  raw_eq : ∃ suffix, raw = name.toList ++ suffix
  suffixRange_eq : (parse raw offset).suffixRange =
    ⟨offset + Text.byteLength name.toList, offset + Text.byteLength raw⟩

theorem range_parse (raw : List Char) (offset : Nat) :
    (parse raw offset).range = ⟨offset, offset + Text.byteLength raw⟩ := by
  cases hr : reading? raw with
  | none => rw [parse_of_reading?_none hr]
  | some r => rw [parse_of_reading?_some hr]

/-- A component that as a whole is a plain name is written as the name. -/
theorem raw_of_full (hname : Plain name.toList) (h : (parse raw offset).full = name) :
    raw = name.toList := by
  have hfull : (parse raw offset).full = String.ofList (unescape raw) := by
    cases hr : reading? raw with
    | none => rw [parse_of_reading?_none hr]
    | some r => rw [parse_of_reading?_some hr]
  have hraw : unescape raw = name.toList := by
    rw [← h, hfull, String.toList_ofList]
  have hdash : '-' ∉ raw := by
    rw [← dash_mem_unescape, hraw]
    exact hname.1
  rwa [unescape_of_not_mem hdash] at hraw

/-- A component that as a whole is a plain name. -/
theorem writes_of_full (hname : Plain name.toList) (hne : raw ≠ [])
    (h : (parse raw offset).full = name) : Writes raw offset name := by
  obtain rfl := raw_of_full hname h
  refine ⟨(parse_name hname offset).1, by simpa using hne, ⟨[], by simp⟩, ?_⟩
  rw [parse_of_reading?_none (reading?_eq_none hname.1)]
  rfl

/-- A component with a plain name in front of a suffix. -/
theorem writes_of_name (hname : Plain name.toList) (h : (parse raw offset).name = name)
    (hs : (parse raw offset).suffix ≠ none) : Writes raw offset name := by
  cases hr : reading? raw with
  | none =>
    rw [parse_of_reading?_none hr] at hs
    exact absurd rfl hs
  | some r =>
    obtain ⟨hraw, hne, -⟩ := of_reading? hr
    have hrname : unescape r.name = name.toList := by
      rw [← h, parse_of_reading?_some hr, String.toList_ofList]
    have hdash : '-' ∉ r.name := by
      rw [← dash_mem_unescape, hrname]
      exact hname.1
    rw [unescape_of_not_mem hdash] at hrname
    refine ⟨(parse_suffixed hname hr hrname offset).1, ?_, ⟨'-' :: r.text, hrname ▸ hraw⟩, ?_⟩
    · rw [hrname] at hne
      simpa using hne
    · rw [parse_of_reading?_some hr, hrname]
      rfl

end Component

end Link

end SymbolLinks
