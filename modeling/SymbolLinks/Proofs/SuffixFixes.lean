import Mathlib.Data.List.Forall2
import SymbolLinks.Proofs.CatalogTree
import SymbolLinks.Proofs.Walks
import SymbolLinks.Resolve

/-! Fixes of suffixes work. A walk that stops because a name needs another suffix offers
one fix for every candidate. Each fix writes the shortest suffix of its candidate in
the place of the one given. The link that it makes is read as before up to the component
of the fix, and this component selects the candidate. -/
namespace SymbolLinks

/-! ## Applying one edit -/

theorem Edit.apply_middle (before old after : List Char) (text : String) :
    (⟨Text.byteLength before, Text.byteLength before + Text.byteLength old, text⟩ : Edit).apply
      (before ++ old ++ after) = before ++ text.toList ++ after := by
  have hstart : Text.splitAtByte (Text.byteLength before) (before ++ old ++ after) =
      some (before, old ++ after) := by
    rw [List.append_assoc]
    exact Text.splitAtByte_byteLength before (old ++ after)
  have hstop : Text.splitAtByte (Text.byteLength before + Text.byteLength old)
      (before ++ old ++ after) = some (before ++ old, after) := by
    rw [← Text.byteLength_append]
    exact Text.splitAtByte_byteLength (before ++ old) after
  simp only [apply, Nat.le_add_right, if_true, hstart, hstop]

theorem Solution.apply_of_edits {s : Solution} {e : Edit} (h : s.edits = [e]) (text : String) :
    s.apply text = String.ofList (e.apply text.toList) := by
  simp [apply, h]

/-! ## The edits on offer -/

/-- The candidates that a walk error offers, and the component it is about. -/
def WalkError.offer? : WalkError → Option (List Candidate × Link.Component)
  | .ambiguous candidates c _ | .invalidSuffix candidates c _ => some (candidates, c)
  | .doesNotExist _ _ _ | .notFound _ _ _ => none

/-- What a fix writes behind the name for a candidate. -/
def Candidate.fixText (k : Candidate) : String := k.suffix.elim "" ("-" ++ ·.text)

theorem PathTree.any_not_hasChild {t : PathTree} {i : NodeId} (hi : i < t.size) (name : String) :
    ((t.node? i).any fun n => !n.hasChild name) = (t.group? i name).isNone := by
  obtain ⟨n, hn⟩ := exists_node hi
  rw [group?_of_node? hn]
  simp [hn, Node.hasChild, KeyMap.contains]

namespace Destinations

open Link (Component Suffix)

variable {d : Destinations} {c : Component} {candidates : List Candidate}

/-- The choices are the candidates in some order, if all of them have suffixes. -/
theorem exists_perm_choices (d : Destinations) (c : Component)
    (h : ∀ k ∈ candidates, k.suffix ≠ none) : ∃ ks : List Candidate, ks.Perm candidates ∧
      (d.choices c candidates).map (fun x => "-" ++ x.2) = ks.map Candidate.fixText := by
  let pair : Candidate → String × String :=
    fun k => (d.hint c k.node, (k.suffix.map Disambiguator.text).getD "")
  let order : String × String → String × String → Bool :=
    fun a b => ((compare a.1 b.1).then (compare a.2 b.2)).isLE
  have hpairs : (candidates.filterMap fun k => k.suffix.map fun s => (d.hint c k.node, s.text)) =
      candidates.map pair := by
    rw [← List.filterMap_eq_map]
    refine List.filterMap_congr fun k hk => ?_
    cases hs : k.suffix with
    | none => exact absurd hs (h k hk)
    | some s => simp [pair, hs]
  have hsorted : d.choices c candidates =
      (candidates.mergeSort fun a b => order (pair a) (pair b)).map pair := by
    rw [choices, hpairs]
    symm
    apply List.map_mergeSort
    intros
    rfl
  refine ⟨candidates.mergeSort fun a b => order (pair a) (pair b), List.mergeSort_perm .., ?_⟩
  rw [hsorted, List.map_map]
  refine List.map_congr_left fun k hk => ?_
  cases hs : k.suffix with
  | none => exact absurd hs (h k (List.mem_mergeSort.mp hk))
  | some s => simp [pair, Candidate.fixText, hs]

/-- The fixes are edits of the place of the suffix, one for each candidate. -/
def EditsSuffix (c : Component) (candidates : List Candidate) (solutions : List Solution) : Prop :=
  ∃ ks : List Candidate, ks.Perm candidates ∧ solutions.map (·.edits) =
    ks.map fun k => [⟨c.suffixRange.start, c.suffixRange.stop, k.fixText⟩]

/-- The fixes that are insertions go to the end of the name, one for each candidate. -/
theorem exists_perm_insertions (h : ∀ k ∈ candidates, k.suffix ≠ none) :
    ∃ ks : List Candidate, ks.Perm candidates ∧
      (insertions c (d.choices c candidates)).map (·.edits) =
        ks.map fun k => [⟨c.nameRange.stop, c.nameRange.stop, k.fixText⟩] := by
  obtain ⟨ks, hperm, hks⟩ := d.exists_perm_choices c h
  refine ⟨ks, hperm, ?_⟩
  have hedits := congrArg (List.map fun text =>
    [(⟨c.nameRange.stop, c.nameRange.stop, text⟩ : Edit)]) hks
  simpa [insertions, Function.comp_def] using hedits

theorem editsSuffix_insertions (h : ∀ k ∈ candidates, k.suffix ≠ none) (hc : c.suffix = none) :
    EditsSuffix c candidates (insertions c (d.choices c candidates)) := by
  obtain ⟨ks, hperm, hedits⟩ := exists_perm_insertions h
  exact ⟨ks, hperm, by simpa [Component.suffixRange, hc] using hedits⟩

theorem editsSuffix_replacements {s : Suffix} (h : ∀ k ∈ candidates, k.suffix ≠ none)
    (hc : c.suffix = some s) :
    EditsSuffix c candidates (replacements s (d.choices c candidates)) := by
  obtain ⟨ks, hperm, hks⟩ := d.exists_perm_choices c h
  refine ⟨ks, hperm, ?_⟩
  have hedits := congrArg (List.map fun text =>
    [(⟨s.range.start, s.range.stop, text⟩ : Edit)]) hks
  simpa [replacements, Component.suffixRange, hc, Function.comp_def] using hedits

theorem editsSuffix_ambiguous (h : ∀ k ∈ candidates, k.suffix ≠ none) (hplain : d.tree.PlainNames)
    {name : String} (hc : c.Spells name) {parent : NodeId} (hparent : parent < d.tree.size) :
    EditsSuffix c candidates (d.describe (.ambiguous candidates c parent)).solutions := by
  simp only [describe]
  cases hs : c.suffix with
  | none => exact editsSuffix_insertions h hs
  | some s =>
    -- The component as a whole is no name, so its suffix was applied.
    rw [PathTree.any_not_hasChild hparent, hplain.group?_full hc (by simp [hs]) parent]
    simp only [Option.isNone_none, if_true]
    exact editsSuffix_replacements h hs

theorem editsSuffix_invalidSuffix {s : Suffix} (hs : c.suffix = some s)
    (h : (∃ node, candidates = [⟨none, node⟩]) ∨
      2 ≤ candidates.length ∧ ∀ k ∈ candidates, k.suffix ≠ none) (parent : NodeId) :
    EditsSuffix c candidates (d.describe (.invalidSuffix candidates c parent)).solutions := by
  simp only [describe, hs]
  obtain ⟨node, rfl⟩ | ⟨hlength, h⟩ := h
  · exact ⟨[⟨none, node⟩], .refl _, by simp [Component.suffixRange, hs, Candidate.fixText]⟩
  · split
    · simp at hlength
    · exact editsSuffix_replacements h hs

end Destinations

/-! ## The component of a fix -/

namespace PathTree

open Link (Component Plain Closes)

variable {fits : Labelling} {t : PathTree} {es : List Entry} {e : Entry} {name : String}

/-- Written behind its name, the fix for an entry selects that entry. -/
theorem parse_fixText (hfits : Legible fits) (hname : Plain name.toList) (hne : name ≠ "")
    (hes : HolderGroup t es ∨ SymbolGroup fits t es) (he : e ∈ es) (offset : Nat) {k : Candidate}
    (hk : k.suffix = e.disambiguator? es) :
    (Component.parse (name.toList ++ k.fixText.toList) offset).Spells name ∧
      Entry.select t (Component.parse (name.toList ++ k.fixText.toList) offset).suffix es = [e] := by
  unfold Candidate.fixText
  rw [hk]
  cases hd : e.disambiguator? es with
  | none =>
    obtain ⟨hspells, hsuffix⟩ := Component.parse_name hname offset
    simp only [Option.elim_none, String.toList_empty, List.append_nil]
    exact ⟨hspells, hsuffix ▸ eq_singleton_of_disambiguator? hes (List.Subset.refl _) he hd⟩
  | some d =>
    have hgroup := SymbolGroup.of_disambiguator? hes he hd
    simp only [Option.elim_some, String.toList_append]
    cases d with
    | kind kind =>
      obtain ⟨hspells, hasks⟩ :=
        Component.parse_kind hne hname (hgroup.known_kind hfits.toWritable he hd) offset
      exact ⟨hspells, hgroup.select_kind (List.Subset.refl _) he hd rfl hasks⟩
    | hash hash =>
      obtain ⟨hspells, hasks⟩ := Component.parse_hash hne hname
        (hgroup.isHash_hash hfits.toWritable he hd) (hgroup.noKind_hash hfits he hd) offset
      exact ⟨hspells, hgroup.select_hash hfits.telling he hd hasks⟩

/-- A fix ends no path and starts no fragment. -/
theorem fixText_chars (hfits : Writable fits) (hes : HolderGroup t es ∨ SymbolGroup fits t es)
    (he : e ∈ es) {k : Candidate} (hk : k.suffix = e.disambiguator? es) :
    Closes k.fixText.toList ∧ '/' ∉ k.fixText.toList ∧ '#' ∉ k.fixText.toList := by
  unfold Candidate.fixText
  rw [hk]
  cases hd : e.disambiguator? es with
  | none =>
    simp only [Option.elim_none, String.toList_empty]
    exact ⟨fun c hc => (nomatch hc), List.not_mem_nil, List.not_mem_nil⟩
  | some d =>
    have hgroup := SymbolGroup.of_disambiguator? hes he hd
    have htext : '/' ∉ d.text.toList ∧ '#' ∉ d.text.toList := by
      cases d with
      | kind kind =>
        have hknown := hgroup.known_kind hfits he hd
        exact ⟨Kind.not_mem_of_known hknown (by decide), Kind.not_mem_of_known hknown (by decide)⟩
      | hash hash =>
        have hhash := hgroup.isHash_hash hfits he hd
        exact ⟨ShortHash.not_mem_of_isHash hhash (by decide),
          ShortHash.not_mem_of_isHash hhash (by decide)⟩
    simp only [Option.elim_some, String.toList_append]
    exact ⟨Link.closes_cons _ (.inl rfl), by simp [htext.1], by simp [htext.2]⟩

/-! ## Stops at suffixes -/

theorem offer?_missing (t : PathTree) (parent : NodeId) (c : Component) :
    (t.missing parent c).offer? = none := by
  unfold missing
  cases t.node? parent with
  | none => rfl
  | some n => exact (apply_ite WalkError.offer? _ _ _).trans (ite_self none)

/-- A step that offers candidates has found a container of a plain name. -/
theorem exists_container_of_offer (hplain : t.PlainNames) {below : NodeId} {raw : List Char}
    {offset : Nat} {next : Option Component} {err : WalkError} {offer : List Candidate × Component}
    (hne : raw ≠ []) (h : t.step below (Component.parse raw offset) next = .error err)
    (hoffer : err.offer? = some offer) : ∃ name j es, Plain name.toList ∧
      Component.Writes raw offset name ∧ t.container? below name = some (j, es) ∧
      t.choose j es (Component.parse raw offset) (Component.parse raw offset).suffix.isSome next =
        .error err := by
  have hfound : t.step below (Component.parse raw offset) next ≠
      .error (t.missing below (Component.parse raw offset)) := by
    intro hmissing
    rw [h] at hmissing
    cases hmissing
    rw [offer?_missing] at hoffer
    cases hoffer
  have hwrites : ∃ name, Plain name.toList ∧ Component.Writes raw offset name := by
    obtain ⟨i, es, hfull | ⟨hsuffix, hname⟩⟩ := exists_group?_of_step hfound
    · exact ⟨_, hplain hfull, Component.writes_of_full (hplain hfull) hne rfl⟩
    · exact ⟨_, hplain hname, Component.writes_of_name (hplain hname) rfl hsuffix⟩
  obtain ⟨name, hname, hwrites⟩ := hwrites
  have hstep := step_of_spells hplain hwrites.spells below next
  cases hcontainer : t.container? below name with
  | none =>
    rw [hcontainer] at hstep
    exact absurd hstep hfound
  | some found =>
    rw [hcontainer] at hstep
    exact ⟨name, found.1, found.2, hname, hwrites, hcontainer, hstep.symm.trans h⟩

/-- Several entries at one name all have suffixes. -/
theorem disambiguator?_ne_none (hes : HolderGroup t es ∨ SymbolGroup fits t es)
    (hlength : 2 ≤ es.length) (he : e ∈ es) : e.disambiguator? es ≠ none := by
  intro hnone
  rw [eq_singleton_of_disambiguator? hes (List.Subset.refl _) he hnone] at hlength
  simp at hlength

/-- So do the candidates among them. -/
theorem suffix_ne_none_of_mem_candidates (hes : HolderGroup t es ∨ SymbolGroup fits t es)
    (hlength : 2 ≤ es.length) (keep : Entry → Bool) :
    ∀ k ∈ candidates es keep, k.suffix ≠ none := by
  intro k hk
  obtain ⟨e, he, rfl⟩ := List.mem_map.mp hk
  exact disambiguator?_ne_none hes hlength (List.mem_filter.mp he).1

theorem length_select_le (t : PathTree) (suffix : Option Link.Suffix) (es : List Entry) :
    (Entry.select t suffix es).length ≤ es.length := by
  cases suffix with
  | none => exact Nat.le_refl _
  | some s => exact List.length_filter_le ..

/-- A link is read with the components of another one, and its walk selects a node at
the i-th of them. -/
def SelectsLike (t : PathTree) (start : Option NodeId) (link : Link) (i : Nat) (authored : String)
    (node : NodeId) : Prop :=
  ∃ link', Link.parse authored = .ok link' ∧
    link'.components.length = link.components.length ∧ (t.visited link' start)[i]? = some node

/-- Links that agree in front of a component, and look alike from there, start alike. -/
theorem origin_congr {link link' : Link} {i : Nat} (h : link.AgreeBefore link' i) {c c' : Component}
    (hc : link.components[i]? = some c) (hc' : link'.components[i]? = some c')
    (hahead : t.hasChildFor c' = t.hasChildFor c) (start : Option NodeId) :
    t.origin link' start = t.origin link start := by
  have htake := h.take
  unfold origin
  rw [h.isAbsolute]
  cases hcs : link.components with
  | nil =>
    rw [hcs] at hc
    cases hc
  | cons first rest =>
    cases hcs' : link'.components with
    | nil =>
      rw [hcs'] at hc'
      cases hc'
    | cons first' rest' =>
      have hfirst : t.hasChildFor first' = t.hasChildFor first := by
        rw [hcs] at hc htake
        rw [hcs'] at hc' htake
        cases i with
        | zero =>
          cases hc
          cases hc'
          exact hahead
        | succ i =>
          cases (List.cons.inj htake).1
          rfl
      simp only [relativeOrigin, hfirst]

/-- The fix for an entry of the container where a walk stops selects the node of this
entry. -/
theorem selectsLike_fix (hinv : Inv fits t) (hplain : t.PlainNames) (hfits : Legible fits)
    (hmodules : ∀ {name : String} {es : List Entry}, t.group? root name = some es →
      name ≠ "documentation")
    {authored : String} {link : Link} {start : Option NodeId} {err : WalkError} {c : Component}
    {below : NodeId} (hstops : WalkStops t (t.origin link start) link.components err c below)
    {before raw after : List Char} (htext : authored.toList = before ++ raw ++ after)
    (hplace : link.Place (t.visited link start).length before raw after)
    (hc : c = Component.parse raw (Text.byteLength before))
    (hwrites : Component.Writes raw (Text.byteLength before) name) (hname : Plain name.toList)
    {j : NodeId} (hfound : t.container? below name = some (j, es)) (he : e ∈ es) {k : Candidate}
    (hk : k.suffix = e.disambiguator? es) {s : Solution}
    (hs : s.edits = [⟨c.suffixRange.start, c.suffixRange.stop, k.fixText⟩]) :
    t.SelectsLike start link (t.visited link start).length (s.apply authored) e.node := by
  have hes := hinv.grouped _ _ _ (group?_of_container? hfound)
  obtain ⟨hspells, hselect⟩ :=
    parse_fixText hfits hname hwrites.ne_empty hes he (Text.byteLength before) hk
  obtain ⟨hcloses, hslash, hhash⟩ := fixText_chars hfits.toWritable hes he hk
  obtain ⟨suffix, rfl⟩ := hwrites.raw_eq
  have happly : s.apply authored =
      String.ofList (before ++ (name.toList ++ k.fixText.toList) ++ after) := by
    rw [Solution.apply_of_edits hs, htext, hc, hwrites.suffixRange_eq]
    have hedit := Edit.apply_middle (before ++ name.toList) suffix after k.fixText
    simp only [Text.byteLength_append, List.append_assoc, Nat.add_assoc] at hedit ⊢
    rw [hedit]
  have hfull : link.isAbsolute = true → (t.visited link start).length = 0 →
      (Component.parse (name.toList ++ k.fixText.toList) (Text.byteLength before)).full ≠
        "documentation" := by
    intro habs hzero
    refine hspells.full_ne (hmodules (?_ : t.group? root name = some es)) (by decide)
    have hbelow : below = root := by
      rw [hstops.start (List.length_eq_zero_iff.mp hzero), origin]
      split <;> simp [habs]
    rw [hbelow, container?_of_alone (spellingsOf_of_no_symbol hinv.root_symbol)] at hfound
    obtain ⟨_, hgroup, heq⟩ := Option.map_eq_some_iff.mp hfound
    cases heq
    exact hgroup
  obtain ⟨link', hparse, hagree, hcomponent⟩ :=
    hplace.rewrite name.toList suffix k.fixText.toList rfl (by simpa using hwrites.ne_empty) hcloses
      hslash hhash hfull
  have hahead := hasChildFor_congr hplain hwrites.spells hspells
  rw [← hc] at hahead
  refine ⟨link', happly ▸ hparse, hagree.length, ?_⟩
  rw [visited, origin_congr hagree.toAgreeBefore hstops.component hcomponent hahead]
  exact hstops.retry hagree.take hcomponent hahead fun next =>
    step_only hplain hspells hfound hselect next

end PathTree

namespace Destinations

open Link (Component)
open PathTree

variable {fits : Labelling} {d : Destinations}

/-- A choice that fails offers some of its entries, and a fix for each. -/
theorem editsSuffix_of_choose (hinv : Inv fits d.tree) (hplain : d.tree.PlainNames)
    {c : Component} {name : String} (hc : c.Spells name) {j : NodeId} {es : List Entry}
    (hg : d.tree.group? j name = some es) {next : Option Component} {err : WalkError}
    (h : d.tree.choose j es c c.suffix.isSome next = .error err) {candidates : List Candidate}
    {c₀ : Component} (hoffer : err.offer? = some (candidates, c₀)) :
    c₀ = c ∧ (∃ keep, candidates = PathTree.candidates es keep) ∧
      EditsSuffix c candidates (d.describe err).solutions := by
  have hes := hinv.grouped _ _ _ hg
  obtain ⟨hnone, rfl⟩ | ⟨hlength, -, rfl⟩ := choose_error (ite_isSome_suffix c) h
  · cases hoffer
    refine ⟨rfl, ⟨_, rfl⟩, ?_⟩
    cases hs : c.suffix with
    | none =>
      rw [hs] at hnone
      exact absurd hnone (hinv.rooted.nonempty hg)
    | some s =>
      refine editsSuffix_invalidSuffix hs ?_ j
      by_cases htwo : 2 ≤ es.length
      · exact .inr ⟨by simpa [PathTree.candidates] using htwo,
          suffix_ne_none_of_mem_candidates hes htwo _⟩
      · have hpos := List.length_pos_iff.mpr (hinv.rooted.nonempty hg)
        obtain ⟨e, rfl⟩ := List.length_eq_one_iff.mp (by omega : es.length = 1)
        exact .inl ⟨e.node, rfl⟩
  · cases hoffer
    have htwo := Nat.le_trans hlength (length_select_le d.tree c.suffix es)
    exact ⟨rfl, ⟨_, rfl⟩, editsSuffix_ambiguous (suffix_ne_none_of_mem_candidates hes htwo _) hplain
      hc (lt_size_of_group? hg)⟩

/-- The fixes that a failed walk offers select the candidates, one fix each. -/
theorem fixes_select (hinv : Inv fits d.tree) (hplain : d.tree.PlainNames) (hfits : Legible fits)
    (hmodules : ∀ {name : String} {es : List Entry}, d.tree.group? root name = some es →
      name ≠ "documentation")
    {authored : String} {link : Link} (hparse : Link.parse authored = .ok link)
    {start : Option NodeId} {err : WalkError} (hfind : d.tree.find link start = .error err)
    {candidates : List Candidate} {c : Component} (hoffer : err.offer? = some (candidates, c)) :
    link.components[(d.tree.visited link start).length]? = some c ∧
      (candidates.map (·.node)).Nodup ∧
      ∃ ks : List Candidate, ks.Perm candidates ∧ List.Forall₂ (fun k s =>
        d.tree.SelectsLike start link (d.tree.visited link start).length (s.apply authored) k.node)
        ks (d.describe err).solutions := by
  rw [find_eq_walkFrom] at hfind
  obtain ⟨c', below, hstops⟩ := exists_walkStops _ hfind
  obtain ⟨before, raw, after, htext, hplace, hc'⟩ := Link.exists_place hparse hstops.component
  have hstep := hstops.step
  rw [hc'] at hstep
  obtain ⟨name, j, es, hname, hwrites, hfound, hchoose⟩ :=
    exists_container_of_offer hplain hplace.ne_nil hstep hoffer
  have hgroup := group?_of_container? hfound
  rw [← hc'] at hchoose
  obtain ⟨rfl, ⟨keep, rfl⟩, ks, hperm, hedits⟩ :=
    editsSuffix_of_choose hinv hplain (hc' ▸ hwrites.spells) hgroup hchoose hoffer
  refine ⟨hstops.component, ?_, ks, hperm, ?_⟩
  · -- The candidates are different entries of one container.
    have hnodes : (PathTree.candidates es keep).map (·.node) = (es.filter keep).map (·.node) := by
      simp [PathTree.candidates]
    rw [hnodes]
    exact (List.filter_sublist.map _).nodup (hinv.rooted.nodup hgroup)
  · have hpairs : List.Forall₂ (fun k (s : Solution) =>
        s.edits = [⟨c.suffixRange.start, c.suffixRange.stop, k.fixText⟩]) ks
        (d.describe err).solutions := by
      rw [← List.forall₂_eq_eq_eq, List.forall₂_map_left_iff, List.forall₂_map_right_iff] at hedits
      exact hedits.flip
    refine ((List.forall₂_and_left _ _).mpr ⟨fun k hk => hk, hpairs⟩).imp fun k s ⟨hk, hs⟩ => ?_
    obtain ⟨e, he, rfl⟩ := List.mem_map.mp (hperm.subset hk)
    exact selectsLike_fix hinv hplain hfits hmodules hstops htext hplace hc' hwrites hname hfound
      (List.mem_filter.mp he).1 rfl hs

theorem resolve_of_find_error [NameDistance] {authored : String} {link : Link}
    (hparse : Link.parse authored = .ok link) {origin : Option String} {err : WalkError}
    (hfind : d.tree.find link (origin.bind d.tree.primary.get?) = .error err) :
    d.resolve authored origin = .error (d.describe err) := by
  simp only [resolve, hparse, hfind, Except.mapError, bind, Except.bind]

/-- Offered fixes of suffixes work. In documentation whose names have no dash and no
backslash, a link may fail where a name needs a suffix, or another one than it has.
Then the fixes belong to the candidates, one each: the fixed link has as many
components, and at the component of the failure it selects the node of its candidate. -/
theorem offered_fixes_select_candidates (graphs : List SymbolGraph) (o : CatalogOptions)
    (hplain : ∀ g ∈ graphs, ∀ name ∈ g.names, Link.Plain name.toList)
    (hmodules : ∀ g ∈ graphs, g.moduleName ≠ "documentation")
    (hkinds : ∀ g ∈ graphs, ∀ x ∈ g.symbols, (Kind.known? x.kind.identifier.toList).isSome = true)
    (hdiffer : (Catalog.build graphs o).1.HashesDiffer)
    (hhashes : (Catalog.build graphs o).1.HashesNoKinds)
    {d : Destinations} (hd : d = ofCatalog (Catalog.build graphs o).1)
    {authored : String} {link : Link} (hparse : Link.parse authored = .ok link)
    {origin : Option String} {start : Option NodeId}
    (hstart : start = origin.bind d.tree.primary.get?)
    {err : WalkError} (hfind : d.tree.find link start = .error err)
    {candidates : List Candidate} {c : Component} (hoffer : err.offer? = some (candidates, c)) :
    d.resolve authored origin = .error (d.describe err) ∧
      link.components[(d.tree.visited link start).length]? = some c ∧
      (candidates.map (·.node)).Nodup ∧
      ∃ ks : List Candidate, ks.Perm candidates ∧ List.Forall₂ (fun k s =>
        d.tree.SelectsLike start link (d.tree.visited link start).length (s.apply authored) k.node)
        ks (d.describe err).solutions := by
  subst hstart
  refine ⟨resolve_of_find_error hparse hfind, ?_⟩
  have hinv : Inv (LabelOf (Catalog.build graphs o).1.model.store) d.tree := by
    rw [hd]
    exact (Catalog.growth_tree graphs o).inv
  refine fixes_select hinv ?_ (Catalog.legible hkinds hdiffer hhashes) ?_ hparse hfind hoffer
  · intro p name es hg
    rw [hd] at hg
    obtain ⟨g, hmem, hname, -⟩ := Catalog.name_of_group? hg
    exact hplain g hmem name hname
  · intro name es hg
    rw [hd] at hg
    obtain ⟨g, hmem, -, hroot⟩ := Catalog.name_of_group? hg
    rw [hroot rfl]
    exact hmodules g hmem

theorem offered_fixes_select_candidates_widgets :
    ∃ d link start err candidates c, d = ofCatalog Catalog.widgets ∧
      Link.parse "doc:Widget-class/spin#more" = .ok link ∧ start = d.tree.primary.get? "s:V" ∧
      d.tree.find link start = .error err ∧ err.offer? = some (candidates, c) ∧
      candidates.length = 2 ∧
      ∃ ks : List Candidate, ks.Perm candidates ∧ List.Forall₂ (fun k s =>
        d.tree.SelectsLike start link (d.tree.visited link start).length
          (s.apply "doc:Widget-class/spin#more") k.node)
        ks (d.describe err).solutions := by
  let link : Link :=
    ⟨[Component.parse "Widget-class".toList 4, Component.parse "spin".toList 17], false⟩
  have hparse : Link.parse "doc:Widget-class/spin#more" = .ok link := rfl
  have hhashes := Catalog.hashes_of_perm (c := Catalog.widgets) (by decide +kernel)
  have htree : Catalog.widgets.tree = _ := build_of_sorted (by decide +kernel) _
  have hoffers : (Catalog.widgets.tree.find link (Catalog.widgets.tree.primary.get? "s:V")).mapError
      (fun err => err.offer?.map (·.1.length)) = .error (some 2) := by
    rw [htree]
    decide +kernel
  cases hfind : Catalog.widgets.tree.find link (Catalog.widgets.tree.primary.get? "s:V") with
  | ok node =>
    rw [hfind] at hoffers
    cases hoffers
  | error err =>
    rw [hfind] at hoffers
    obtain ⟨⟨candidates, component⟩, hoffer, hlength⟩ :=
      Option.map_eq_some_iff.mp (Except.error.inj hoffers)
    obtain ⟨-, -, -, hfixes⟩ := offered_fixes_select_candidates [Catalog.widgetGraph]
      ⟨"org.example.kit", false⟩ (by decide) (by decide) (by decide) hhashes.1 hhashes.2
      (d := ofCatalog Catalog.widgets) rfl hparse (rfl : _ = (some "s:V").bind _) hfind hoffer
    exact ⟨_, link, _, err, candidates, component, rfl, hparse, rfl, hfind, hoffer, hlength, hfixes⟩

end Destinations

end SymbolLinks
