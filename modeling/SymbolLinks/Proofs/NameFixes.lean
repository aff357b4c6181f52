import SymbolLinks.Proofs.ListLaws
import SymbolLinks.Proofs.SuffixFixes
import SymbolLinks.Proofs.WalkOutcomes

/-! Fixes of missing names lead on. A walk that stops because there is no such name suggests
similar ones, the closest first, and a fix for each. A fix writes the name in the place of
the whole component, or of its name alone if an entry of the suggested name fits the suffix.
The link that it makes is walked by the same nodes up to the component of the fix. There it
selects a node or finds several, but it no longer misses the name. -/
namespace SymbolLinks

/-- The names that a walk error suggests, in the place of which component and below which
node. -/
def WalkError.suggestions? : WalkError → Option (List String × Link.Component × NodeId)
  | .doesNotExist names c parent | .notFound names c parent => some (names, c, parent)
  | .ambiguous _ _ _ | .invalidSuffix _ _ _ => none

/-- A name that a link can hold as it is. -/
def Link.PlainName (name : String) : Prop :=
  name ≠ "" ∧ ∀ c ∈ ['/', '#', '-', '\\'], c ∉ name.toList

instance (name : String) : Decidable (Link.PlainName name) :=
  @instDecidableAnd _ _ _ (List.decidableBAll _ _)

section PlainName

variable {name : String}

theorem Link.PlainName.plain (h : Link.PlainName name) : Link.Plain name.toList :=
  ⟨h.2 '-' (by simp), h.2 '\\' (by simp)⟩

theorem Link.PlainName.slash (h : Link.PlainName name) : '/' ∉ name.toList := h.2 '/' (by simp)

theorem Link.PlainName.hash (h : Link.PlainName name) : '#' ∉ name.toList := h.2 '#' (by simp)

end PlainName

namespace PathTree

open Link (Component PlainName)
open NameDistance (distance)

variable {t : PathTree} {here below : NodeId} {c : Component} {next : Option Component}
  {err : WalkError} {name : String}

/-! ## The order of suggestions -/

/-- One suggestion comes before another: it is closer to the name in the link, or as close
and alphabetically first. -/
def Precedes [NameDistance] (name a b : String) : Prop :=
  distance name a < distance name b ∨ distance name a = distance name b ∧ a < b

theorem Precedes.ne [NameDistance] {name a b : String} (h : Precedes name a b) : a ≠ b := by
  rintro rfl
  rcases h with hless | ⟨-, hless⟩
  · exact Nat.lt_irrefl _ hless
  · exact String.lt_irrefl _ hless

theorem pairwise_ranked [NameDistance] (name : String) {names : List String} (h : names.Nodup) :
    (ranked name names).Pairwise (Precedes name) := by
  have hsorted : (ranked name names).Pairwise fun a b => (rankOrder name a b).isLE = true := by
    rw [ranked_eq]
    exact pairwise_mergeSort_isLE id names
  have hnodup : (ranked name names).Nodup := (perm_ranked name names).nodup_iff.mpr h
  refine (hsorted.and hnodup).imp fun {a b} hab => ?_
  obtain hless | ⟨hequal, hle⟩ := Ordering.isLE_then_iff_or.mp hab.1
  · exact .inl (Nat.compare_eq_lt.mp hless)
  · refine .inr ⟨Nat.compare_eq_eq.mp hequal, ?_⟩
    cases horder : compare a b with
    | lt => exact compareOfLessAndEq_eq_lt.mp horder
    | eq => exact absurd (Std.LawfulEqCmp.eq_of_compare horder) hab.2
    | gt =>
      rw [horder] at hle
      cases hle

/-- The suggestions for a missing name are in order, and no two are the same. -/
theorem pairwise_missing [NameDistance] {names : List String} {c' : Component} {parent : NodeId}
    (h : (t.missing here c).suggestions? = some (names, c', parent)) :
    names.Pairwise (Precedes c.name) := by
  unfold missing at h
  cases hn : t.node? here with
  | none =>
    rw [hn] at h
    cases h
    exact .nil
  | some n =>
    have hkeys : n.children.keys.Nodup := KeyMap.nodup_keys _
    cases hs : c.suffix with
    | none =>
      rw [hn, hs] at h
      cases h
      exact pairwise_ranked _ (hkeys.filter _)
    | some s =>
      rw [hn, hs] at h
      simp only at h
      split at h
      · cases h
        exact pairwise_ranked _ (hkeys.filter _)
      · cases h
        exact pairwise_ranked _ ((List.filter_sublist.map _).nodup hkeys)

/-! ## Names in the place of a component -/

/-- A text that is read as a name with or without a suffix, where the suffix fits some entry
of the name. -/
structure Renames (t : PathTree) (below : NodeId) (name : String) (offset : Nat)
    (raw : List Char) : Prop where
  ne_nil : raw ≠ []
  slash : '/' ∉ raw
  hash : '#' ∉ raw
  spells : (Component.parse raw offset).Spells name
  fits : ∀ es, t.group? below name = some es →
    Entry.select t (Component.parse raw offset).suffix es ≠ []

theorem renames_whole (h : Snapshot.Restorable t) (hname : PlainName name) (below : NodeId)
    (offset : Nat) : t.Renames below name offset name.toList := by
  obtain ⟨hspells, hsuffix⟩ := Component.parse_name hname.plain offset
  refine ⟨by simpa using hname.1, hname.slash, hname.hash, hspells, fun es hes => ?_⟩
  rw [hsuffix]
  exact h.nonempty hes

/-- A name in front of a suffix that fits one of its entries. -/
theorem renames_name {raw : List Char} {offset : Nat} (hslash : '/' ∉ raw) (hhash : '#' ∉ raw)
    {r : Link.Reading} (hr : Link.reading? raw = some r) (hname : PlainName name)
    {s : Link.Suffix} (hs : (Component.parse raw offset).suffix = some s)
    (hfits : ∀ es, t.group? below name = some es → ∃ e ∈ es, Entry.matchesSuffix t s e = true) :
    t.Renames below name offset (name.toList ++ '-' :: r.text) := by
  have hof := Link.of_reading? hr
  have hread := hof.textRead.reading? (by simpa using hname.1) hname.plain
  obtain ⟨hspells, hasks⟩ := Component.parse_suffixed hname.plain hread rfl offset
  have htext : ∀ c : Char, c ≠ '-' → c ∉ name.toList → c ∉ raw →
      c ∉ name.toList ++ '-' :: r.text := by
    intro c hdash hc hraw
    rw [hof.raw_eq] at hraw
    simp only [List.mem_append, List.mem_cons, not_or] at hraw ⊢
    exact ⟨hc, hdash, hraw.2.2⟩
  refine ⟨by simp, htext _ (by decide) hname.slash hslash, htext _ (by decide) hname.hash hhash,
    hspells, fun es hes => ?_⟩
  have hselect : Entry.select t (Component.parse (name.toList ++ '-' :: r.text) offset).suffix es =
      Entry.select t (some s) es := by
    refine select_congr ?_ es
    rw [hasks, ← hs, Component.parse_of_reading?_some hr]
    rfl
  obtain ⟨e, he, hmatches⟩ := hfits es hes
  rw [hselect]
  exact List.ne_nil_of_mem (List.mem_filter.mpr ⟨he, hmatches⟩)

/-! ## Walking on -/

/-- A choice among entries of which some are left gives one of them, or finds several. -/
theorem choose_of_ne_nil {es : List Entry} (h : Entry.select t c.suffix es ≠ []) (i : NodeId)
    (next : Option Component) :
    (∃ node, t.choose i es c c.suffix.isSome next = .ok node) ∨
      ∃ candidates, t.choose i es c c.suffix.isSome next = .error (.ambiguous candidates c i) := by
  cases hchoose : t.choose i es c c.suffix.isSome next with
  | ok node => exact .inl ⟨node, rfl⟩
  | error e =>
    obtain ⟨hnil, -⟩ | ⟨-, -, rfl⟩ := choose_error (ite_isSome_suffix c) hchoose
    · exact absurd hnil h
    · exact .inr ⟨_, rfl⟩

/-- A name below the node itself is looked up there, before its other spellings. -/
theorem step_of_group? [NameDistance] (hplain : t.PlainNames) (hc : c.Spells name) {es : List Entry}
    (hes : t.group? here name = some es) (next : Option Component) :
    t.step here c next = t.choose here es c c.suffix.isSome next := by
  have hfound : t.container? here name = some (here, es) := by
    rw [container?, spellingsOf, containerAmong?_cons, hes]
    rfl
  rw [step_of_spells hplain hc, hfound]
  rfl

/-- A step that suggests names has found no container. -/
theorem lookup?_of_suggestions [NameDistance] (h : t.step here c next = .error err)
    (hsuggests : err.suggestions? ≠ none) :
    t.lookup? c here = none ∧ err = t.missing here c := by
  rw [step_eq] at h
  cases hlookup : t.lookup? c here with
  | none =>
    rw [hlookup] at h
    exact ⟨rfl, (Except.error.inj h).symm⟩
  | some x =>
    rw [hlookup] at h
    obtain ⟨-, rfl⟩ | ⟨-, -, rfl⟩ := choose_error rfl h
    · exact absurd rfl hsuggests
    · exact absurd rfl hsuggests

theorem origin_of_absolute {link : Link} (h : link.isAbsolute = true) (start : Option NodeId) :
    t.origin link start = root := by
  unfold origin
  split <;> simp [h]

/-- A link has as many components as another one, whose walk stopped below `parent`, and a name
in the place where it stopped. It is walked to that place by the same nodes, and there it
selects a node, or it finds several. -/
def WalksOn [NameDistance] (t : PathTree) (start : Option NodeId) (link : Link) (parent : NodeId) (name : String)
    (authored : String) : Prop :=
  ∃ link' c', Link.parse authored = .ok link' ∧
    link'.components.length = link.components.length ∧
    link'.components[(t.visited link start).length]? = some c' ∧ c'.name = name ∧
    (t.visited link' start).take (t.visited link start).length = t.visited link start ∧
    ((∃ node, (t.visited link' start)[(t.visited link start).length]? = some node) ∨
      ∃ candidates, t.find link' start = .error (.ambiguous candidates c' parent))

theorem walksOn_renamed [NameDistance] (hplain : t.PlainNames) {link : Link} (habsolute : link.isAbsolute = true)
    {start : Option NodeId} (hstops : WalkStops t root link.components err c below)
    (hmissing : t.lookup? c below = none) {before raw after raw' : List Char}
    (hplace : link.Place (t.trail root link.components).length before raw after)
    (hrenames : t.Renames below name (Text.byteLength before) raw') {es : List Entry}
    (hes : t.group? below name = some es)
    (hmodules : below = root → name ≠ "documentation") :
    t.WalksOn start link below name (String.ofList (before ++ raw' ++ after)) := by
  have hfull : link.isAbsolute = true → (t.trail root link.components).length = 0 →
      (Component.parse raw' (Text.byteLength before)).full ≠ "documentation" := by
    intro _ hzero
    have hroot := hmodules (hstops.start (List.length_eq_zero_iff.mp hzero))
    exact hrenames.spells.full_ne hroot (by decide)
  obtain ⟨link', hparse, hdiffer, hcomponent⟩ := hplace.replace raw' hrenames.ne_nil hrenames.slash
    hrenames.hash (fun hrelative => absurd (habsolute.symm.trans hrelative) (by decide)) hfull
  have habsolute' : link'.isAbsolute = true := hdiffer.isAbsolute.trans habsolute
  have hunseen : t.hasChildFor c ((t.trail root link.components).getLastD root) = false := by
    rw [hstops.below_eq, hasChildFor_eq, hmissing]
    rfl
  obtain ⟨htrail, hwalk⟩ :=
    trail_again link.components hstops.component hcomponent hdiffer.take (.inr hunseen)
  rw [hstops.below_eq] at htrail hwalk
  obtain ⟨rest, hdrop⟩ : ∃ rest, link'.components.drop (t.trail root link.components).length =
      Component.parse raw' (Text.byteLength before) :: rest :=
    List.head?_eq_some_iff.mp (by rw [List.head?_drop]; exact hcomponent)
  rw [hdrop] at htrail hwalk
  have hstep := step_of_group? hplain hrenames.spells hes rest.head?
  refine ⟨link', Component.parse raw' (Text.byteLength before), hparse, hdiffer.length, ?_⟩
  simp only [visited, find_eq_walkFrom, origin_of_absolute habsolute,
    origin_of_absolute habsolute', htrail, hwalk]
  refine ⟨hcomponent, hrenames.spells.name_eq, by simp, ?_⟩
  obtain ⟨node, hnode⟩ | ⟨candidates, hcandidates⟩ :=
    choose_of_ne_nil (hrenames.fits es hes) below rest.head?
  · exact .inl ⟨node, by simp [trail, hstep, hnode]⟩
  · refine .inr ⟨candidates, ?_⟩
    simp only [walkFrom, hstep, hcandidates, bind, Except.bind]

end PathTree

namespace Destinations

open Link (Component PlainName)
open PathTree

variable {d : Destinations}

/-! ## The edits on offer -/

theorem forall₂_renamings {old : String} {span : Link.Span} {names : List String}
    {holds : String → Solution → Prop} (h : ∀ name ∈ names, ∀ s : Solution,
      s.edits = [⟨span.start, span.stop, name⟩] → holds name s) :
    List.Forall₂ holds names (renamings old span names) := by
  rw [renamings, List.forall₂_map_right_iff, List.forall₂_same]
  intro name hname
  exact h name hname _ rfl

/-- The fix for a suggested name writes a component that stands for it. -/
theorem forall₂_renames [NameDistance] (h : Snapshot.Restorable d.tree) {below parent : NodeId}
    {before raw : List Char} (after : List Char) {next : Option Component} {err : WalkError}
    (hslash : '/' ∉ raw) (hhash : '#' ∉ raw)
    (hexplained : err.Explained d.tree below (Component.parse raw (Text.byteLength before)) next)
    {names : List String} {c : Component}
    (hsuggests : err.suggestions? = some (names, c, parent))
    (hnames : ∀ name es, d.tree.group? below name = some es → PlainName name) :
    c = Component.parse raw (Text.byteLength before) ∧ parent = below ∧
      List.Forall₂ (fun name s => (∃ es, d.tree.group? below name = some es) ∧
        ∃ raw', d.tree.Renames below name (Text.byteLength before) raw' ∧
          s.apply (String.ofList (before ++ raw ++ after)) =
            String.ofList (before ++ raw' ++ after)) names (d.describe err).solutions := by
  cases err with
  | ambiguous candidates c' parent' => cases hsuggests
  | invalidSuffix candidates c' parent' => cases hsuggests
  | notFound nearMisses c' parent' =>
    cases hsuggests
    obtain ⟨rfl, rfl, -, hmem, -⟩ := hexplained
    refine ⟨rfl, rfl, forall₂_renamings fun name hname s hs => ?_⟩
    obtain ⟨es, hes, -⟩ := (hmem name).mp hname
    refine ⟨⟨es, hes⟩, name.toList, renames_whole h (hnames name es hes) parent _, ?_⟩
    rw [Solution.apply_of_edits hs, String.toList_ofList, Component.range_parse,
      Edit.apply_middle]
  | doesNotExist siblings c' parent' =>
    cases hsuggests
    obtain ⟨rfl, rfl, -, -, s, hsuffix, hmem⟩ := hexplained
    refine ⟨rfl, rfl, forall₂_renamings fun name hname sol hsol => ?_⟩
    obtain ⟨es, ⟨hes, -⟩, hfits⟩ := (hmem name).mp hname
    cases hr : Link.reading? raw with
    | none =>
      rw [Component.parse_of_reading?_none hr] at hsuffix
      cases hsuffix
    | some r =>
      refine ⟨⟨es, hes⟩, _, renames_name hslash hhash hr (hnames name es hes) hsuffix ?_, ?_⟩
      · intro es' hes'
        cases hes.symm.trans hes'
        exact hfits
      · rw [Component.parse_of_reading?_some hr] at hsol
        rw [Solution.apply_of_edits hsol, String.toList_ofList, (Link.of_reading? hr).raw_eq]
        have hedit := Edit.apply_middle before r.name ('-' :: r.text ++ after) name
        simp only [List.append_assoc, List.cons_append] at hedit ⊢
        rw [hedit]

/-- The names that a failed walk suggests are below the node it stopped at, and the fixed
links walk on. -/
theorem renamings_walk_on [NameDistance] (h : Snapshot.Restorable d.tree) (hplain : d.tree.PlainNames)
    (hnames : ∀ {p : NodeId} {name : String} {es : List Entry},
      d.tree.group? p name = some es → PlainName name ∧ (p = root → name ≠ "documentation"))
    {authored : String} {link : Link} (hparse : Link.parse authored = .ok link)
    (habsolute : link.isAbsolute = true) {start : Option NodeId} {err : WalkError}
    (hfind : d.tree.find link start = .error err) {names : List String} {c : Component}
    {parent : NodeId} (hsuggests : err.suggestions? = some (names, c, parent)) :
    link.components[(d.tree.visited link start).length]? = some c ∧
      (d.tree.visited link start).getLastD root = parent ∧ names.Pairwise (Precedes c.name) ∧
      List.Forall₂ (fun name s => (∃ es, d.tree.group? parent name = some es) ∧
        d.tree.WalksOn start link parent name (s.apply authored)) names
        (d.describe err).solutions := by
  rw [find_eq_walkFrom, origin_of_absolute habsolute] at hfind
  obtain ⟨c', below, hstops⟩ := exists_walkStops _ hfind
  obtain ⟨before, raw, after, htext, hplace, rfl⟩ := Link.exists_place hparse hstops.component
  obtain ⟨hmissing, herr⟩ := lookup?_of_suggestions hstops.step (by simp [hsuggests])
  obtain ⟨rfl, rfl, hrenames⟩ := forall₂_renames h after hplace.slash hplace.hash
    (explained_step h hstops.step) hsuggests fun name es hes => (hnames hes).1
  rw [visited, origin_of_absolute habsolute]
  refine ⟨hstops.component, hstops.below_eq, pairwise_missing (herr ▸ hsuggests), ?_⟩
  refine hrenames.imp fun name s hs => ?_
  obtain ⟨⟨es, hes⟩, raw', hrenames, happly⟩ := hs
  rw [← htext, String.ofList_toList] at happly
  rw [happly]
  exact ⟨⟨es, hes⟩, walksOn_renamed hplain habsolute hstops hmissing hplace hrenames hes
    (hnames hes).2⟩

/-- Suggested names lead on. In documentation whose names can be written into links as they
are, an absolute link may fail because there is no such name. Then the suggested names are
below the node where its walk stopped, no two are the same, and they are ordered by their
distance from the name in the link, however distances are measured. There is one fix for
each: the fixed link is walked to that node as before, and there it selects a node or finds
several. -/
theorem suggested_names_lead_on [NameDistance] (graphs : List SymbolGraph) (o : CatalogOptions)
    (hnames : ∀ g ∈ graphs, ∀ name ∈ g.names, PlainName name)
    (hmodules : ∀ g ∈ graphs, g.moduleName ≠ "documentation")
    {d : Destinations} (hd : d = ofCatalog (Catalog.build graphs o).1)
    {authored : String} {link : Link} (hparse : Link.parse authored = .ok link)
    (habsolute : link.isAbsolute = true)
    {origin : Option String} {start : Option NodeId}
    (hstart : start = origin.bind d.tree.primary.get?)
    {err : WalkError} (hfind : d.tree.find link start = .error err)
    {names : List String} {c : Component} {parent : NodeId}
    (hsuggests : err.suggestions? = some (names, c, parent)) :
    d.resolve authored origin = .error (d.describe err) ∧
      link.components[(d.tree.visited link start).length]? = some c ∧
      (d.tree.visited link start).getLastD root = parent ∧
      names.Nodup ∧ names.Pairwise (Precedes c.name) ∧
      List.Forall₂ (fun name s => (∃ es, d.tree.group? parent name = some es) ∧
        d.tree.WalksOn start link parent name (s.apply authored)) names
        (d.describe err).solutions := by
  subst hstart
  have htree : ∀ {p : NodeId} {name : String} {es : List Entry},
      d.tree.group? p name = some es → PlainName name ∧ (p = root → name ≠ "documentation") := by
    intro p name es hg
    rw [hd] at hg
    obtain ⟨g, hmem, hname, hroot⟩ := Catalog.name_of_group? hg
    refine ⟨hnames g hmem name hname, fun hp => ?_⟩
    rw [hroot hp]
    exact hmodules g hmem
  have hrestorable : Snapshot.Restorable d.tree := by
    rw [hd]
    exact Snapshot.restorable_of_inv (Catalog.growth_tree graphs o).inv
  obtain ⟨hcomponent, hparent, hordered, hfixes⟩ := renamings_walk_on hrestorable
    (fun hg => (htree hg).1.plain) htree hparse habsolute hfind hsuggests
  exact ⟨resolve_of_find_error hparse hfind, hcomponent, hparent, hordered.imp Precedes.ne,
    hordered, hfixes⟩

/-- The suffix stays behind the suggested name, where it fits two methods. -/
theorem suggested_names_lead_on_widgets : ∃ d link c s, d = ofCatalog Catalog.widgets ∧
    Link.parse "/Kit/Widget/spi-method#more" = .ok link ∧ link.components[2]? = some c ∧
    d.tree.find link none = .error (.doesNotExist ["spin"] c 2) ∧
    (d.describe (.doesNotExist ["spin"] c 2)).solutions = [s] ∧
    s.apply "/Kit/Widget/spi-method#more" = "/Kit/Widget/spin-method#more" ∧
    d.tree.WalksOn none link 2 "spin" "/Kit/Widget/spin-method#more" := by
  let link : Link := ⟨[Component.parse "Kit".toList 1, Component.parse "Widget".toList 5,
    Component.parse "spi-method".toList 12], true⟩
  have hparse : Link.parse "/Kit/Widget/spi-method#more" = .ok link := rfl
  have htree : Catalog.widgets.tree = _ := build_of_sorted (by decide +kernel) _
  have hfind : Catalog.widgets.tree.find link none =
      .error (.doesNotExist ["spin"] (Component.parse "spi-method".toList 12) 2) := by
    rw [htree]
    decide +kernel
  obtain ⟨-, -, -, -, -, hfixes⟩ := suggested_names_lead_on [Catalog.widgetGraph]
    ⟨"org.example.kit", false⟩ (by decide) (by decide) (d := ofCatalog Catalog.widgets) rfl hparse
    rfl (show none = (none : Option String).bind _ from rfl) hfind rfl
  obtain ⟨-, hwalks⟩ := (List.forall₂_cons.mp hfixes).1
  have happly : Solution.apply ⟨[⟨12, 15, "spin"⟩], "Replace 'spi' with 'spin'"⟩
      "/Kit/Widget/spi-method#more" = "/Kit/Widget/spin-method#more" := by decide +kernel
  exact ⟨_, link, _, _, rfl, hparse, rfl, hfind, rfl, happly, happly ▸ hwalks⟩

end Destinations

end SymbolLinks
