import SymbolLinks.Proofs.LinkText

/-! Where the components of a link stand. A link is divided into what leads to its path, the
path and a fragment (`Divides`), and its components are read from the segments between the
slashes of the path. Every component knows the bytes of its segment, of its name and of its
suffix (`Component.Covers`), so that edits of the link can be given in bytes. -/
namespace SymbolLinks

/-! ## Bytes and parts of texts -/

namespace Text

theorem byteLength_eq_utf8ByteSize (cs : List Char) :
    byteLength cs = (String.ofList cs).utf8ByteSize := by
  induction cs with
  | nil => rfl
  | cons c cs ih =>
    rw [byteLength, String.ofList_cons, String.utf8ByteSize_append, String.utf8ByteSize_singleton, ih]

theorem byteLength_pos {cs : List Char} (h : cs ≠ []) : 0 < byteLength cs := by
  obtain ⟨c, cs, rfl⟩ := List.exists_cons_of_ne_nil h
  have hc := c.utf8Size_pos
  rw [byteLength]
  omega

theorem pieces_eq_splitOn (sep : Char) (cs : List Char) : pieces sep cs = cs.splitOn sep := by
  induction cs with
  | nil => rfl
  | cons c cs ih =>
    rw [List.splitOn, List.splitOnP_cons_eq_if_modifyHead, ← List.splitOn, ← ih]
    obtain ⟨first, rest, hpieces, -⟩ := exists_pieces sep cs
    by_cases hc : c = sep <;> simp [pieces, hc, hpieces]

/-- Every occurrence of `old` in a text is replaced by `new`. -/
def Replaces (old new cs cs' : List Char) : Prop :=
  ∃ parts, (∀ p ∈ parts, ¬ old <:+: p) ∧ cs = old.intercalate parts ∧ cs' = new.intercalate parts

theorem intercalate_cons_head (sep : List Char) (c : Char) (first : List Char)
    (rest : List (List Char)) :
    sep.intercalate ((c :: first) :: rest) = c :: sep.intercalate (first :: rest) := by
  cases rest <;> simp [List.intercalate_cons_cons]

end Text

namespace Link

/-- Unescaping replaces every escaped dash by a dash. -/
theorem replaces_unescape (cs : List Char) :
    Text.Replaces "\\-".toList "-".toList cs (unescape cs) := by
  -- There is a first part also if the text is empty, which a next character goes to.
  suffices h : ∃ first rest, (∀ p ∈ first :: rest, ¬ ['\\', '-'] <:+: p) ∧
      cs = ['\\', '-'].intercalate (first :: rest) ∧
      unescape cs = ['-'].intercalate (first :: rest) by
    obtain ⟨first, rest, h⟩ := h
    exact ⟨first :: rest, h⟩
  fun_induction unescape cs with
  | case1 cs ih =>
    obtain ⟨first, rest, hparts, hcs, heq⟩ := ih
    refine ⟨[], first :: rest, ?_, ?_, ?_⟩
    · intro p hp
      rcases List.mem_cons.mp hp with rfl | hp
      · simp
      · exact hparts p hp
    · rw [List.intercalate_cons_cons, ← hcs]
      rfl
    · rw [List.intercalate_cons_cons, ← heq]
      rfl
  | case2 c cs hplain ih =>
    obtain ⟨first, rest, hparts, hcs, heq⟩ := ih
    refine ⟨c :: first, rest, ?_, ?_, ?_⟩
    · intro p hp
      rcases List.mem_cons.mp hp with rfl | hp
      · intro hinfix
        rcases List.infix_cons_iff.mp hinfix with hpre | hinfix
        · obtain ⟨hc, more, rfl⟩ := List.cons_prefix_cons.mp hpre
          exact hplain _ hc.symm (hcs.trans (Text.intercalate_cons_head ..))
        · exact hparts first (by simp) hinfix
      · exact hparts p (by simp [hp])
    · rw [Text.intercalate_cons_head, ← hcs]
    · rw [Text.intercalate_cons_head, ← heq]
  | case3 => exact ⟨[], [], by simp, rfl, rfl⟩

/-! ## Places -/

/-- A span cuts a text in three, where the text in the middle stands at its bytes. -/
structure Span.Cuts (s : Span) (authored before text after : String) : Prop where
  text_eq : authored = before ++ text ++ after
  start_eq : s.start = before.utf8ByteSize
  stop_eq : s.stop = (before ++ text).utf8ByteSize

/-- The text at the bytes of a span. -/
def Span.Shows (s : Span) (authored text : String) : Prop :=
  ∃ before after, s.Cuts authored before text after

theorem Span.cuts_of_toList {authored : String} {before text after : List Char}
    (h : authored.toList = before ++ text ++ after) :
    Span.Cuts ⟨Text.byteLength before, Text.byteLength before + Text.byteLength text⟩ authored
      (String.ofList before) (String.ofList text) (String.ofList after) := by
  refine ⟨?_, Text.byteLength_eq_utf8ByteSize before, ?_⟩
  · rw [← String.ofList_append, ← String.ofList_append, ← h, String.ofList_toList]
  · rw [← String.ofList_append, ← Text.byteLength_eq_utf8ByteSize, Text.byteLength_append]

/-- A component stands at the bytes of its segment, its name at the start of these, and its
suffix behind the name up to their end. -/
structure Component.Covers (authored : String) (c : Component) (segment : List Char) : Prop where
  range : c.range.Shows authored (String.ofList segment)
  start_lt_stop : c.range.start < c.range.stop
  full : c.full = String.ofList (unescape segment)
  nameRange_start : c.nameRange.start = c.range.start
  whole : c.suffix = none → c.nameRange = c.range
  suffix : ∀ s, c.suffix = some s → c.nameRange.stop = s.range.start ∧
    s.range.stop = c.range.stop ∧ s.range.Shows authored ("-" ++ s.text)
  name : ∃ text, c.nameRange.Shows authored text ∧
    Text.Replaces "\\-".toList "-".toList text.toList c.name.toList

theorem Component.covers_parse {authored : String} {before segment after : List Char}
    (h : authored.toList = before ++ segment ++ after) (hne : segment ≠ []) :
    (Component.parse segment (Text.byteLength before)).Covers authored segment := by
  have hpos := Text.byteLength_pos hne
  cases hr : reading? segment with
  | none =>
    rw [parse_of_reading?_none hr]
    refine ⟨⟨_, _, Span.cuts_of_toList h⟩, Nat.lt_add_of_pos_right hpos, rfl, rfl,
      fun _ => rfl, fun s hs => ?_, ?_⟩
    · cases hs
    · exact ⟨_, ⟨_, _, Span.cuts_of_toList h⟩, by simpa using replaces_unescape segment⟩
  | some r =>
    have hraw := (of_reading? hr).raw_eq
    have hname : authored.toList = before ++ r.name ++ ('-' :: r.text ++ after) := by
      rw [h, hraw]
      simp
    have hsuffix : authored.toList = before ++ r.name ++ '-' :: r.text ++ after := by
      rw [hname]
      simp
    have hstop : Text.byteLength before + Text.byteLength segment =
        Text.byteLength (before ++ r.name) + Text.byteLength ('-' :: r.text) := by
      rw [hraw, Text.byteLength_append, Text.byteLength_append, Nat.add_assoc]
    rw [parse_of_reading?_some hr]
    refine ⟨⟨_, _, Span.cuts_of_toList h⟩, Nat.lt_add_of_pos_right hpos, rfl, rfl,
      fun hnone => ?_, fun s hs => ?_, ?_⟩
    · cases hnone
    · cases hs
      have hcuts := Span.cuts_of_toList hsuffix
      rw [← hstop, Text.byteLength_append, String.ofList_cons] at hcuts
      exact ⟨rfl, rfl, _, _, hcuts⟩
    · exact ⟨_, ⟨_, _, Span.cuts_of_toList hname⟩, by simpa using replaces_unescape r.name⟩

/-! ## Positions in 64 bits -/

/-- Positions in a text are at most its length. -/
theorem Span.Shows.capped_eq {s : Span} {authored text : String} (h : s.Shows authored text)
    (hsize : authored.utf8ByteSize ≤ maxPosition) : s.capped = s := by
  obtain ⟨before, after, hcuts⟩ := h
  have hstart : s.start ≤ s.stop := by
    rw [hcuts.start_eq, hcuts.stop_eq, String.utf8ByteSize_append]
    exact Nat.le_add_right ..
  have hstop : s.stop ≤ maxPosition := by
    refine Nat.le_trans ?_ hsize
    rw [hcuts.stop_eq, hcuts.text_eq, @String.utf8ByteSize_append _ after]
    exact Nat.le_add_right ..
  rw [Span.capped, Nat.min_eq_left (Nat.le_trans hstart hstop), Nat.min_eq_left hstop]

theorem Component.Covers.capped_eq {authored : String} {c : Component} {segment : List Char}
    (h : c.Covers authored segment) (hsize : authored.utf8ByteSize ≤ maxPosition) : c.capped = c := by
  obtain ⟨text, hname, -⟩ := h.name
  have hsuffix : (c.suffix.map fun s => { s with range := s.range.capped }) = c.suffix := by
    cases hs : c.suffix with
    | none => rfl
    | some s =>
      obtain ⟨-, -, hshows⟩ := h.suffix s hs
      rw [Option.map_some, hshows.capped_eq hsize]
  rw [Component.capped, hsuffix, hname.capped_eq hsize, h.range.capped_eq hsize]

/-! ## Segments -/

/-- The texts between the slashes of a path, without the empty ones. -/
def segments (path : List Char) : List (List Char) := (path.splitOn '/').filter (· ≠ [])

/-- Whether the first of several segments is to be skipped. -/
def SkipsFirst (path : List Char) : Prop :=
  path.head? = some '/' ∧ (segments path).head?.map unescape = some "documentation".toList ∧
    1 < (segments path).length

instance (path : List Char) : Decidable (SkipsFirst path) :=
  inferInstanceAs (Decidable (_ ∧ _ ∧ _))

/-- The segments that components are read from. -/
def componentSegments (path : List Char) : List (List Char) :=
  if SkipsFirst path then (segments path).tail else segments path

theorem covers_componentsFrom_cons {authored : String} {before first after : List Char}
    {rest : List (List Char)} (h : authored.toList = before ++ first ++ after)
    (hrest : List.Forall₂ (Component.Covers authored)
      (componentsFrom (Text.byteLength before + Text.byteLength first + 1) rest)
      (rest.filter (· ≠ []))) :
    List.Forall₂ (Component.Covers authored)
      (componentsFrom (Text.byteLength before) (first :: rest)) ((first :: rest).filter (· ≠ [])) := by
  by_cases hfirst : first = []
  · subst hfirst
    simpa [componentsFrom] using hrest
  · rw [componentsFrom_cons hfirst, List.filter_cons_of_pos (by simpa using hfirst)]
    exact .cons (Component.covers_parse h hfirst) hrest

/-- The components of pieces cover the pieces that are not empty. -/
theorem covers_componentsFrom {authored : String} (first : List Char) (rest : List (List Char))
    (before : List Char) {after : List Char}
    (h : authored.toList = before ++ (first ++ rest.flatMap ('/' :: ·)) ++ after) :
    List.Forall₂ (Component.Covers authored)
      (componentsFrom (Text.byteLength before) (first :: rest)) ((first :: rest).filter (· ≠ [])) := by
  induction rest generalizing first before with
  | nil => exact covers_componentsFrom_cons (by simpa using h) .nil
  | cons next rest ih =>
    have hnext := ih next (before ++ first ++ ['/']) (by simpa using h)
    have hslash : Text.byteLength ['/'] = 1 := rfl
    rw [Text.byteLength_append, Text.byteLength_append, hslash] at hnext
    exact covers_componentsFrom_cons (by simpa using h) hnext

/-- Components stand one behind the other, with a slash between them. -/
theorem pairwise_componentsFrom (offset : Nat) (ps : List (List Char)) :
    (∀ c ∈ componentsFrom offset ps, offset ≤ c.range.start) ∧
      (componentsFrom offset ps).Pairwise fun c c' => c.range.stop < c'.range.start := by
  induction ps generalizing offset with
  | nil => exact ⟨by simp [componentsFrom], .nil⟩
  | cons p ps ih =>
    obtain ⟨hstart, hordered⟩ := ih (offset + Text.byteLength p + 1)
    have hoffset : ∀ c ∈ componentsFrom (offset + Text.byteLength p + 1) ps,
        offset ≤ c.range.start := by
      intro c hc
      have hc := hstart c hc
      omega
    by_cases hp : p = []
    · subst hp
      simp only [componentsFrom, List.isEmpty_nil, if_true]
      exact ⟨hoffset, hordered⟩
    · rw [componentsFrom_cons hp]
      refine ⟨?_, List.pairwise_cons.mpr ⟨fun c hc => ?_, hordered⟩⟩
      · intro c hc
        rcases List.mem_cons.mp hc with rfl | hc
        · exact Nat.le_of_eq (by rw [Component.range_parse])
        · exact hoffset c hc
      · rw [Component.range_parse]
        exact hstart c hc

/-- Where the first component is skipped, so is its segment. -/
theorem covers_dropDocumentation {authored : String} {cs : List Component}
    {ps : List (List Char)} (h : List.Forall₂ (Component.Covers authored) cs ps) :
    List.Forall₂ (Component.Covers authored) (dropDocumentation cs)
      (if ps.head?.map unescape = some "documentation".toList ∧ 1 < ps.length then ps.tail
        else ps) := by
  cases h with
  | nil => exact .nil
  | @cons first p _ _ hfirst hrest =>
    cases hrest with
    | nil => simpa [dropDocumentation] using hfirst
    | cons hsecond hrest =>
      have hdoc : first.full = "documentation" ↔ unescape p = "documentation".toList := by
        rw [hfirst.full, ← String.toList_inj, String.toList_ofList]
      by_cases hskip : unescape p = "documentation".toList
      · rw [dropDocumentation, if_pos (hdoc.mpr hskip), if_pos ⟨congrArg some hskip, by simp⟩]
        exact .cons hsecond hrest
      · rw [dropDocumentation, if_neg (mt hdoc.mp hskip),
          if_neg fun hboth => hskip (Option.some.inj hboth.1)]
        exact .cons hfirst (.cons hsecond hrest)

/-! ## Links -/

/-- A link is what leads to its path, the path and a fragment. -/
structure Divides (authored : String) (start path tail : List Char) : Prop where
  text_eq : authored.toList = start ++ (path ++ tail)
  leads : ∃ hasBundle, Leads start hasBundle (path ++ tail)
  fragment : Fragment path tail

/-- A link that names a bundle has a slash behind it, which starts the path. -/
theorem head?_of_leads {start path tail : List Char} (h : Leads start true (path ++ tail))
    (hfragment : Fragment path tail) : path.head? = some '/' := by
  have hhead := h.head?
  cases path with
  | nil => exact absurd (hfragment.tail _ hhead) (by decide)
  | cons c path => exact hhead

/-- The components of a path cover the segments that they are read from. -/
theorem covers_ofPath {authored : String} {start path tail : List Char} {hasBundle : Bool}
    (h : authored.toList = start ++ (path ++ tail))
    (hbundle : hasBundle = true → path.head? = some '/') :
    List.Forall₂ (Component.Covers authored)
      (ofPath (Text.byteLength start) hasBundle path).components (componentSegments path) := by
  obtain ⟨first, rest, hpieces, hpath, -⟩ := Text.exists_pieces '/' path
  have hall : List.Forall₂ (Component.Covers authored)
      (componentsFrom (Text.byteLength start) (Text.pieces '/' path)) (segments path) := by
    rw [segments, ← Text.pieces_eq_splitOn, hpieces]
    exact covers_componentsFrom first rest start (by rw [h, ← hpath, List.append_assoc])
  by_cases hhead : path.head? = some '/'
  · simpa [ofPath, componentSegments, SkipsFirst, hhead] using covers_dropDocumentation hall
  · have hrelative : hasBundle = false := Bool.eq_false_iff.mpr (mt hbundle hhead)
    simpa [ofPath, componentSegments, SkipsFirst, hhead, hrelative] using hall

theorem dropDocumentation_sublist (cs : List Component) : (dropDocumentation cs).Sublist cs := by
  unfold dropDocumentation
  split
  · split
    · exact List.sublist_cons_self ..
    · exact .refl _
  · exact .refl _

theorem pairwise_ofPath (offset : Nat) (hasBundle : Bool) (path : List Char) :
    (ofPath offset hasBundle path).components.Pairwise fun c c' => c.range.stop < c'.range.start := by
  have hall := (pairwise_componentsFrom offset (Text.pieces '/' path)).2
  simp only [ofPath]
  split
  · exact hall.sublist (dropDocumentation_sublist _)
  · exact hall

theorem componentSegments_eq_nil_iff {path : List Char} :
    componentSegments path = [] ↔ segments path = [] := by
  unfold componentSegments
  split
  · rename_i hskip
    have hlength := hskip.2.2
    constructor
    · intro htail
      rw [← List.length_eq_zero_iff, List.length_tail] at htail
      omega
    · intro hnil
      rw [hnil] at hlength
      cases hlength
  · rfl

/-- The components of a link, read from its path: they cover the segments that they are read
from and stand one behind the other. -/
structure Accounts (authored : String) (path : List Char) (link : Link) : Prop where
  isAbsolute : link.isAbsolute = true ↔ path.head? = some '/'
  covers : List.Forall₂ (Component.Covers authored) link.components (componentSegments path)
  ordered : link.components.Pairwise fun c c' => c.range.stop < c'.range.start

section Divided

variable {authored : String} {start path tail : List Char}

theorem accounts_ofPath {hasBundle : Bool} (h : authored.toList = start ++ (path ++ tail))
    (hbundle : hasBundle = true → path.head? = some '/') :
    Accounts authored path (ofPath (Text.byteLength start) hasBundle path) where
  isAbsolute := by
    cases hasBundle with
    | false => simp [ofPath]
    | true => simp [ofPath, hbundle rfl]
  covers := covers_ofPath h hbundle
  ordered := pairwise_ofPath ..

theorem Accounts.components_eq_nil_iff {link : Link} (h : Accounts authored path link) :
    link.components = [] ↔ segments path = [] := by
  rw [← componentSegments_eq_nil_iff, ← List.length_eq_zero_iff, h.covers.length_eq,
    List.length_eq_zero_iff]

/-- What is read of a link that has a path. -/
theorem Divides.parse_eq (h : Divides authored start path tail) :
    ∃ link, Accounts authored path link ∧
      parse authored = if segments path = [] then .error .noComponents else .ok link := by
  obtain ⟨hasBundle, hleads⟩ := h.leads
  have hbundle : hasBundle = true → path.head? = some '/' := by
    intro htrue
    subst htrue
    exact head?_of_leads hleads h.fragment
  have haccounts := accounts_ofPath h.text_eq hbundle
  have hparse := Link.parse_eq (h.text_eq ▸ hleads.pathStart) h.fragment
  rw [String.ofList_toList] at hparse
  refine ⟨_, haccounts, ?_⟩
  rw [hparse]
  exact if_congr (List.isEmpty_iff.trans haccounts.components_eq_nil_iff) rfl rfl

theorem Divides.parse_of_nil (h : Divides authored start path tail) (hnil : segments path = []) :
    parse authored = .error .noComponents := by
  obtain ⟨link, -, hparse⟩ := h.parse_eq
  rw [hparse, if_pos hnil]

end Divided

theorem parse_bundleOnly {host : String} (h : '/' ∉ host.toList) :
    parse ("doc://" ++ host) = .error .noPathAfterBundle := by
  simp only [parse, String.toList_append, pathStart_bundleOnly h, bind, Except.bind]

theorem bundleOnly_or_divides (authored : String) :
    (∃ host, authored = "doc://" ++ host ∧ '/' ∉ host.toList) ∨
      ∃ start path tail, Divides authored start path tail := by
  obtain ⟨host, heq, hhost⟩ | ⟨start, hasBundle, rest, heq, hleads⟩ :=
    bundleOnly_or_leads authored.toList
  · refine .inl ⟨String.ofList host, ?_, by simpa using hhost⟩
    rw [← String.toList_inj, heq, String.toList_append, @String.toList_ofList host]
  · obtain ⟨path, tail, rfl, hfragment⟩ := exists_fragment rest
    exact .inr ⟨start, path, tail, heq, ⟨hasBundle, hleads⟩, hfragment⟩

/-- No position in a link is cut back that has no more bytes than can be counted. -/
theorem capped_of_parse {authored : String} {link : Link} (h : parse authored = .ok link)
    (hsize : authored.utf8ByteSize ≤ maxPosition) : ∀ c ∈ link.components, c.capped = c := by
  obtain ⟨host, rfl, hhost⟩ | ⟨start, path, tail, hdivides⟩ := bundleOnly_or_divides authored
  · rw [parse_bundleOnly hhost] at h
    cases h
  · obtain ⟨link', haccounts, hparse⟩ := hdivides.parse_eq
    rw [hparse] at h
    split at h
    · cases h
    · cases h
      have hall : List.Forall₂ (fun c segment => c.capped = c ∧ c.Covers authored segment)
          link.components (componentSegments path) :=
        haccounts.covers.imp fun c segment hcovers => ⟨hcovers.capped_eq hsize, hcovers⟩
      exact ((List.forall₂_and_left _ _).mp hall).1

/-- Reading a link accounts for every byte of it. It fails without a path behind the bundle,
and if the path has no segment. Else its components are read from the segments, of which an
absolute link skips a first one that is `documentation`. They stand one behind the other, each
at the bytes of its segment. -/
theorem parse_accounts_for_every_byte (authored : String) :
    (parse authored = .error .noPathAfterBundle ↔
      ∃ host, authored = "doc://" ++ host ∧ '/' ∉ host.toList) ∧
    (parse authored = .error .noComponents ↔
      ∃ start path tail, Divides authored start path tail ∧ segments path = []) ∧
    ∀ link, parse authored = .ok link → ∃ start path tail, Divides authored start path tail ∧
      segments path ≠ [] ∧ Accounts authored path link := by
  obtain ⟨host, rfl, hhost⟩ | ⟨start, path, tail, hdivides⟩ := bundleOnly_or_divides authored
  · have hparse := parse_bundleOnly hhost
    refine ⟨⟨fun _ => ⟨host, rfl, hhost⟩, fun _ => hparse⟩, ⟨fun herror => ?_, ?_⟩,
      fun link hok => ?_⟩
    · rw [hparse] at herror
      cases herror
    · intro hpath
      obtain ⟨start, path, tail, hdivides, hnil⟩ := hpath
      exact hdivides.parse_of_nil hnil
    · rw [hparse] at hok
      cases hok
  · obtain ⟨link, haccounts, hparse⟩ := hdivides.parse_eq
    refine ⟨⟨fun herror => ?_, ?_⟩, ⟨fun herror => ⟨start, path, tail, hdivides, ?_⟩, ?_⟩,
      fun link' hok => ⟨start, path, tail, hdivides, ?_⟩⟩
    · rw [hparse] at herror
      split at herror <;> cases herror
    · intro hbundle
      obtain ⟨host, heq, hhost⟩ := hbundle
      rw [heq]
      exact parse_bundleOnly hhost
    · by_contra hne
      rw [hparse, if_neg hne] at herror
      cases herror
    · intro hpath
      obtain ⟨start', path', tail', hdivides', hnil⟩ := hpath
      exact hdivides'.parse_of_nil hnil
    · rw [hparse] at hok
      split at hok
      · cases hok
      · cases hok
        exact ⟨‹_›, haccounts⟩

end Link

end SymbolLinks
