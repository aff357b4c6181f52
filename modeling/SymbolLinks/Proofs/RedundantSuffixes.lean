import SymbolLinks.Proofs.ExceptLaws
import SymbolLinks.Proofs.SuffixFixes

/-! Suffixes that a link does not need. Where a component without suffix selects the node
of a symbol, a suffix that is true of this node may be written behind it: it is read as
such, it leaves some of the entries of the name and that of the node among them, and so
the next component, if it was needed, still tells the node from the others. What follows
moves in the text, which no step notices. -/
namespace SymbolLinks

/-- The text of a link with a suffix written behind one of its components. -/
def Link.appendSuffix? (authored : String) (c : Link.Component) (text : String) : Option String :=
  (Text.splitAtByte c.range.stop authored.toList).map fun parts =>
    String.ofList (parts.1 ++ '-' :: text.toList ++ parts.2)

namespace PathTree

open Link (Component Plain Closes)

/-! ## True suffixes -/

/-- How the kind of a symbol may be written: by itself, or behind the tag of a language
that its node has. -/
def kindTexts (t : PathTree) (i : NodeId) (s : Symbol) : List String :=
  s.kind.identifier ::
    ([Language.swift, .objectiveC].filter (t.hasLanguage i)).map (·.linkTag ++ "." ++ s.kind.identifier)

/-- All suffixes that are true of a node which stands for a symbol: its kind, its hash, or
both. -/
def trueSuffixes (t : PathTree) (i : NodeId) (s : Symbol) : List String :=
  t.kindTexts i s ++ ShortHash.ofIdentifier s.id ::
    (t.kindTexts i s).map (· ++ "-" ++ ShortHash.ofIdentifier s.id)

section Texts

variable {t : PathTree} {i : NodeId} {s : Symbol} {text : String}

theorem kindSuffix?_of_mem_kindTexts (hknown : (Kind.known? s.kind.identifier.toList).isSome = true)
    (h : text ∈ t.kindTexts i s) :
    (∃ l, Link.kindSuffix? text.toList = some (l, s.kind.identifier.toList) ∧
      l.all (t.hasLanguage i) = true) ∧
    ∀ {c : Char}, Kind.isKindChar c = false → c ∉ text.toList := by
  rcases List.mem_cons.mp h with rfl | h
  · exact ⟨⟨none, Link.kindSuffix?_known hknown, rfl⟩, Kind.not_mem_of_known hknown⟩
  · obtain ⟨l, hl, rfl⟩ := List.mem_map.mp h
    obtain ⟨hmem, hlanguage⟩ := List.mem_filter.mp hl
    have htag : Language.ofLinkTag? l.linkTag.toList = some l := by
      simp only [List.mem_cons, List.not_mem_nil, or_false] at hmem
      rcases hmem with rfl | rfl <;> decide
    have htext : (l.linkTag ++ "." ++ s.kind.identifier).toList =
        l.linkTag.toList ++ '.' :: s.kind.identifier.toList := by
      simp
    rw [htext]
    refine ⟨⟨some l, Link.kindSuffix?_tagged htag hknown, hlanguage⟩, fun {c} hc => ?_⟩
    obtain ⟨hlower, hdot⟩ : c.isLower = false ∧ c ≠ '.' := by
      simpa [Kind.isKindChar] using hc
    simp [Language.not_mem_of_ofLinkTag? htag hlower, hdot, Kind.not_mem_of_known hknown hc]

theorem reading?_of_mem_trueSuffixes (hknown : (Kind.known? s.kind.identifier.toList).isSome = true)
    (hhash : Kind.known? (ShortHash.ofIdentifier s.id).toList = none) (h : text ∈ t.trueSuffixes i s)
    {name : List Char} (hne : name ≠ []) (hname : Plain name) : ∃ hash kind l,
      Link.reading? (name ++ '-' :: text.toList) = some ⟨name, text.toList, hash, kind, l⟩ ∧
      (∀ x ∈ hash, x = (ShortHash.ofIdentifier s.id).toList) ∧
      (∀ x ∈ kind, x = s.kind.identifier.toList) ∧ l.all (t.hasLanguage i) = true := by
  have hdigits := ShortHash.isHash_ofIdentifier s.id
  rcases List.mem_append.mp h with h | h
  · obtain ⟨⟨l, hread, hl⟩, hchars⟩ := kindSuffix?_of_mem_kindTexts hknown h
    exact ⟨none, _, l, Link.reading?_kind hne hname (hchars (by decide)) hread, by simp, by simp, hl⟩
  · rcases List.mem_cons.mp h with rfl | h
    · exact ⟨_, none, none, Link.reading?_hash hne hname hdigits hhash, by simp, by simp, rfl⟩
    · obtain ⟨kindText, hmem, rfl⟩ := List.mem_map.mp h
      obtain ⟨⟨l, hread, hl⟩, hchars⟩ := kindSuffix?_of_mem_kindTexts hknown hmem
      have hplain : Plain kindText.toList := ⟨hchars (by decide), hchars (by decide)⟩
      have htext : (kindText ++ "-" ++ ShortHash.ofIdentifier s.id).toList =
          kindText.toList ++ '-' :: (ShortHash.ofIdentifier s.id).toList := by
        simp
      rw [htext]
      exact ⟨_, _, l, Link.reading?_kindHash hne hname hplain hread hdigits hhash, by simp, by simp, hl⟩

theorem chars_of_mem_trueSuffixes (hknown : (Kind.known? s.kind.identifier.toList).isSome = true)
    (h : text ∈ t.trueSuffixes i s) : '/' ∉ text.toList ∧ '#' ∉ text.toList := by
  have hhash : ∀ {c : Char}, ShortHash.isDigit c = false → c ∉ (ShortHash.ofIdentifier s.id).toList :=
    ShortHash.not_mem_of_isHash (ShortHash.isHash_ofIdentifier s.id)
  rcases List.mem_append.mp h with h | h
  · obtain ⟨-, hchars⟩ := kindSuffix?_of_mem_kindTexts hknown h
    exact ⟨hchars (by decide), hchars (by decide)⟩
  · rcases List.mem_cons.mp h with rfl | h
    · exact ⟨hhash (by decide), hhash (by decide)⟩
    · obtain ⟨kindText, hmem, rfl⟩ := List.mem_map.mp h
      obtain ⟨-, hchars⟩ := kindSuffix?_of_mem_kindTexts hknown hmem
      constructor
      · simp [hchars (c := '/') (by decide), hhash (c := '/') (by decide)]
      · simp [hchars (c := '#') (by decide), hhash (c := '#') (by decide)]

/-- Behind a plain name, a true suffix makes a component of that name, which matches the
entry of the node. -/
theorem parse_trueSuffix (hknown : (Kind.known? s.kind.identifier.toList).isSome = true)
    (hhash : Kind.known? (ShortHash.ofIdentifier s.id).toList = none) (h : text ∈ t.trueSuffixes i s)
    {name : String} (hne : name ≠ "") (hname : Plain name.toList) (offset : Nat) :
    (Component.parse (name.toList ++ '-' :: text.toList) offset).Spells name ∧
      ∃ suffix, (Component.parse (name.toList ++ '-' :: text.toList) offset).suffix = some suffix ∧
        Entry.matchesSuffix t suffix
          ⟨some (ShortHash.ofIdentifier s.id), some s.kind.identifier, i⟩ = true := by
  obtain ⟨hash, kind, l, hread, hhashes, hkinds, hl⟩ :=
    reading?_of_mem_trueSuffixes hknown hhash h (by simpa using hne) hname
  obtain ⟨hspells, hasks⟩ := Component.parse_suffixed hname hread rfl offset
  obtain ⟨suffix, hsuffix, hsome⟩ := Option.map_eq_some_iff.mp hasks
  refine ⟨hspells, suffix, hsuffix, ?_⟩
  obtain ⟨hsHash, hsKind, hsLanguage⟩ : suffix.hash = hash.map String.ofList ∧
      suffix.kind = kind.map String.ofList ∧ suffix.language = l := by
    simpa [Link.Suffix.asks] using hsome
  rw [Entry.matchesSuffix, hsHash, hsKind, hsLanguage, hl]
  cases hash <;> cases kind <;> simp_all

end Texts

/-! ## Steps with a true suffix -/

section Steps

variable {st : SymbolStore} {t : PathTree} {c c' : Component} {name : String} {m : NodeId}
  {id : String} {s : Symbol}

theorem Inv.entry_eq (hinv : Inv (LabelOf st) t) {p : NodeId}
    {es : List Entry} (hg : t.group? p name = some es) {e : Entry} (he : e ∈ es)
    (hid : t.symbolAt? e.node = some id) (hs : st.get? id = some s) :
    e = ⟨some (ShortHash.ofIdentifier s.id), some s.kind.identifier, e.node⟩ := by
  rcases hinv.grouped _ _ _ hg with ⟨i, rfl, hnone⟩ | hgroup
  · rw [List.mem_singleton.mp he] at hid
    cases hnone.symm.trans hid
  · obtain ⟨id', hash, kind, hid', hhash, hkind, s', hs', rfl, rfl, rfl⟩ := hgroup.labelled e he
    cases hid.symm.trans hid'
    cases (SymbolStore.get?_of_mem hs').symm.trans hs
    rw [← hhash, ← hkind]

theorem step_of_matches (hinv : Inv (LabelOf st) t) (hplain : t.PlainNames)
    (hid : t.symbolAt? m = some id) (hs : st.get? id = some s) (hc : c.Spells name)
    (hnone : c.suffix = none) (hc' : c'.Spells name) {suffix : Link.Suffix}
    (hsuffix : c'.suffix = some suffix) (hmatches : Entry.matchesSuffix t suffix
      ⟨some (ShortHash.ofIdentifier s.id), some s.kind.identifier, m⟩ = true)
    {here : NodeId} {next : Option Component} (h : t.step here c next = .ok m) :
    t.step here c' next = .ok m := by
  rw [step_of_spells hplain hc] at h
  rw [step_of_spells hplain hc']
  cases hfound : t.container? here name with
  | none =>
    rw [hfound] at h
    cases h
  | some found =>
    simp only [hfound, Option.elim_some, choose_eq_ok_iff, hnone, hsuffix, Option.isSome_some,
      Option.isSome_none, if_true, ite_self] at h ⊢
    obtain ⟨e, he, rfl⟩ := List.mem_map.mp h.mem
    have hentry := hinv.entry_eq (group?_of_container? hfound) he hid hs
    -- The suffix leaves fewer entries, and that of the node among them.
    refine h.of_sublist (List.filter_sublist.map _) (List.mem_map_of_mem ?_)
    exact List.mem_filter.mpr ⟨he, hentry ▸ hmatches⟩

end Steps

/-! ## Walks with other components -/

section Walks

variable {t : PathTree}

/-- A walk goes the same way along other components, if each of them looks the same from
in front of it and leads to the same node. -/
theorem walkFrom_of_steps {cs cs' : List Component} (hlength : cs'.length = cs.length)
    (hahead : ∀ {j : Nat} {c c' : Component}, cs[j]? = some c → cs'[j]? = some c' →
      t.hasChildFor c' = t.hasChildFor c)
    {here n : NodeId}
    (hstep : ∀ {j : Nat} {c c' : Component} {m below : NodeId} {next : Option Component},
      cs[j]? = some c → cs'[j]? = some c' → (t.trail here cs)[j]? = some m →
        t.step below c next = .ok m → t.step below c' next = .ok m)
    (h : t.walkFrom here cs = .ok n) :
    t.walkFrom here cs' = .ok n ∧ t.trail here cs' = t.trail here cs := by
  induction cs generalizing cs' here with
  | nil =>
    cases List.length_eq_zero_iff.mp hlength
    exact ⟨h, rfl⟩
  | cons c rest ih =>
    obtain ⟨c', rest', rfl⟩ := List.exists_cons_of_length_eq_add_one hlength
    obtain ⟨m, hm, hrest⟩ := bind_ok_iff.mp h
    have htrail : t.trail here (c :: rest) = m :: t.trail m rest := by
      simp only [trail, hm]
    have hm' : t.step here c' rest'.head? = .ok m := by
      have hown : t.step here c' rest.head? = .ok m := by
        refine hstep (j := 0) rfl rfl ?_ hm
        rw [htrail]
        rfl
      -- The step may look ahead, at a component that may be another one, too.
      cases rest with
      | nil =>
        cases List.length_eq_zero_iff.mp (Nat.succ_inj.mp hlength)
        exact hown
      | cons d rest =>
        obtain ⟨d', rest', rfl⟩ := List.exists_cons_of_length_eq_add_one (Nat.succ_inj.mp hlength)
        exact (step_congr (hahead (j := 1) rfl rfl) here).trans hown
    obtain ⟨hwalk, hsame⟩ := ih (by simpa using hlength) (fun {j} => hahead (j := j + 1))
      (fun {j} _ _ _ _ _ hc hc' hj => by
        refine hstep (j := j + 1) hc hc' ?_
        rw [htrail]
        exact hj) hrest
    refine ⟨bind_ok_iff.mpr ⟨m, hm', hwalk⟩, ?_⟩
    simp only [trail, hm', hm, hsame]

theorem exists_step_of_trail {cs : List Component} {here m : NodeId} {i : Nat} {c : Component}
    (hc : cs[i]? = some c) (hm : (t.trail here cs)[i]? = some m) :
    ∃ below next, t.step below c next = .ok m := by
  induction cs generalizing here i with
  | nil => cases hc
  | cons first rest ih =>
    cases hfirst : t.step here first rest.head? with
    | error e => simp [trail, hfirst] at hm
    | ok node =>
      simp only [trail, hfirst] at hm
      cases i with
      | zero =>
        cases hc
        cases hm
        exact ⟨here, _, hfirst⟩
      | succ i => exact ih hc hm

theorem find_of_differAt {link link' : Link} {i : Nat} (hdiffer : link.DifferAt link' i)
    {c c' : Component} (hc : link.components[i]? = some c) (hc' : link'.components[i]? = some c')
    (hahead : t.hasChildFor c' = t.hasChildFor c) {start : Option NodeId} {m n : NodeId}
    (hm : (t.visited link start)[i]? = some m)
    (hstep : ∀ {below : NodeId} {next : Option Component},
      t.step below c next = .ok m → t.step below c' next = .ok m)
    (hfind : t.find link start = .ok n) :
    t.find link' start = .ok n ∧ t.visited link' start = t.visited link start := by
  rw [find_eq_walkFrom] at hfind
  rw [find_eq_walkFrom, visited, origin_congr hdiffer.toAgreeBefore hc hc' hahead]
  refine walkFrom_of_steps hdiffer.length (fun {j d d'} hd hd' => ?_)
    (fun {j d d' k below next} hd hd' hk h => ?_) hfind
  · by_cases hj : j = i
    · subst hj
      cases hc.symm.trans hd
      cases hc'.symm.trans hd'
      exact hahead
    · exact hasChildFor_of_alike (hdiffer.alike hj hd hd')
  · by_cases hj : j = i
    · subst hj
      cases hc.symm.trans hd
      cases hc'.symm.trans hd'
      cases hm.symm.trans hk
      exact hstep h
    · exact step_of_alike (hdiffer.alike hj hd hd') h

theorem exists_plain_of_step (hplain : t.PlainNames) {raw : List Char} {offset : Nat}
    {below m : NodeId} {next : Option Component}
    (hnone : (Component.parse raw offset).suffix = none)
    (h : t.step below (Component.parse raw offset) next = .ok m) :
    ∃ name : String, Plain name.toList ∧ raw = name.toList := by
  have hfound : t.step below (Component.parse raw offset) next ≠
      .error (t.missing below (Component.parse raw offset)) := by
    rw [h]
    exact nofun
  obtain ⟨i, es, hfull | ⟨hsuffix, -⟩⟩ := exists_group?_of_step hfound
  · exact ⟨_, hplain hfull, Component.raw_of_full (hplain hfull) rfl⟩
  · exact absurd hnone hsuffix

end Walks

end PathTree

/-! ## Catalogs -/

namespace Catalog

open PathTree
open Link (Component Plain)

/-- Suffixes that a link does not need are accepted. In documentation whose names have no
dash and no backslash, whose kinds are known and whose hashes are no kinds, take a link
that leads to a node, and one of its components without suffix that selects a node with a
symbol. Whatever suffix is true of this node may be written behind the component: the new
link goes the same way, also if the component needed the next one to select its node. -/
theorem redundant_suffixes_accepted (graphs : List SymbolGraph) (o : CatalogOptions)
    (hplain : ∀ g ∈ graphs, ∀ name ∈ g.names, Plain name.toList)
    (hkinds : ∀ g ∈ graphs, ∀ x ∈ g.symbols, (Kind.known? x.kind.identifier.toList).isSome = true)
    {c : Catalog} (hc : c = (build graphs o).1) (hhashes : c.HashesNoKinds)
    {authored : String} {link : Link} (hparse : Link.parse authored = .ok link)
    {start : Option NodeId} {n : NodeId} (hfind : c.tree.find link start = .ok n)
    {i : Nat} {component : Component} (hcomponent : link.components[i]? = some component)
    (hnone : component.suffix = none) {m : NodeId} (hm : (c.tree.visited link start)[i]? = some m)
    {id : String} (hid : c.tree.symbolAt? m = some id)
    {s : Symbol} (hs : c.model.store.get? id = some s)
    {text : String} (htext : text ∈ c.tree.trueSuffixes m s) :
    ∃ authored' link', Link.appendSuffix? authored component text = some authored' ∧
      Link.parse authored' = .ok link' ∧ c.tree.find link' start = .ok n ∧
      c.tree.visited link' start = c.tree.visited link start := by
  subst hc
  have hnames : (build graphs o).1.tree.PlainNames := by
    intro p name es hg
    obtain ⟨g, hmem, hname, -⟩ := name_of_group? hg
    exact hplain g hmem name hname
  have hmem : s ∈ (build graphs o).1.model.store.symbols := SymbolStore.mem_of_get? hs
  have hknown := known_kind hkinds hmem
  have hnoKind := hhashes s.id (List.mem_map_of_mem hmem)
  obtain ⟨before, raw, after, hauthored, hplace, rfl⟩ := Link.exists_place hparse hcomponent
  obtain ⟨below, next, hstep⟩ := exists_step_of_trail hcomponent hm
  obtain ⟨name, hname, rfl⟩ := exists_plain_of_step hnames hnone hstep
  have hne : name ≠ "" := by simpa using hplace.ne_nil
  -- The component is read as before and with the suffix behind it.
  obtain ⟨hspells, -⟩ := Component.parse_name hname (Text.byteLength before)
  obtain ⟨hspells', suffix, hsuffix, hmatches⟩ :=
    parse_trueSuffix hknown hnoKind htext hne hname (Text.byteLength before)
  obtain ⟨hslash, hsharp⟩ := chars_of_mem_trueSuffixes hknown htext
  obtain ⟨link', hparse', hdiffer, hcomponent'⟩ := hplace.rewrite name.toList [] ('-' :: text.toList)
    (List.append_nil _).symm hplace.ne_nil (Link.closes_cons _ (.inl rfl)) (by simp [hslash])
    (by simp [hsharp]) fun _ _ hdoc => by
      have hdash := hspells'.full_dash (by simp [hsuffix])
      rw [hdoc] at hdash
      revert hdash
      decide
  refine ⟨_, link', ?_, hparse', ?_⟩
  · have hsplit := Text.splitAtByte_byteLength (before ++ name.toList) after
    rw [Text.byteLength_append] at hsplit
    rw [Link.appendSuffix?, Component.range_parse, hauthored, hsplit, Option.map_some,
      List.append_assoc before]
  · exact find_of_differAt hdiffer hcomponent hcomponent' (hasChildFor_congr hnames hspells hspells')
      hm (step_of_matches (growth_tree graphs o).inv hnames hid hs hspells hnone
        hspells' hsuffix hmatches) hfind

/-- Two classes of one name, each with a method of its own. -/
def twinGraph : SymbolGraph :=
  let symbol := fun (kind : Kind) (id : String) (path : List String) =>
    ({ language := .swift, id, kind, title := id, path } : GraphSymbol)
  { moduleName := "Kit", symbols := [
      symbol .class_ "c:W" ["Widget"], symbol .class_ "s:V" ["Widget"],
      symbol .method "c:W.spin" ["Widget", "spin"], symbol .method "s:V.spin" ["Widget", "turn"]]
    edges := [{ kind := .memberOf, source := "s:V.spin", target := "s:V" }] }

def twins : Catalog := (build [twinGraph] ⟨"org.example.kit", false⟩).1

/-- Both classes match the name, and both still do with their kind as suffix: it is the method
behind it that tells them apart. -/
theorem redundant_suffixes_accepted_twins : ∃ link component s,
    Link.parse "Kit/Widget/turn" = .ok link ∧ link.components[1]? = some component ∧
    twins.tree.find link none = .ok 5 ∧ (twins.tree.visited link none)[1]? = some 3 ∧
    twins.tree.symbolAt? 3 = some "s:V" ∧ twins.model.store.get? "s:V" = some s ∧
    twins.tree.trueSuffixes 3 s =
      ["class", "swift.class", "6ryk5", "class-6ryk5", "swift.class-6ryk5"] ∧
    ∀ text ∈ twins.tree.trueSuffixes 3 s, ∃ authored' link',
      Link.appendSuffix? "Kit/Widget/turn" component text = some authored' ∧
      Link.parse authored' = .ok link' ∧ twins.tree.find link' none = .ok 5 := by
  let component := Component.parse "Widget".toList 4
  let link : Link :=
    ⟨[Component.parse "Kit".toList 0, component, Component.parse "turn".toList 11], false⟩
  have hparse : Link.parse "Kit/Widget/turn" = .ok link := rfl
  have hcomponent : link.components[1]? = some component := rfl
  have hhashes := hashes_of_perm (c := twins) (by decide +kernel)
  have htree : twins.tree = _ := build_of_sorted (by decide +kernel) _
  have hfind : twins.tree.find link none = .ok 5 := by
    rw [htree]
    decide +kernel
  have hvisited : (twins.tree.visited link none)[1]? = some 3 := by
    rw [htree]
    decide +kernel
  have hsymbol : twins.tree.symbolAt? 3 = some "s:V" := by
    rw [htree]
    decide +kernel
  obtain ⟨s, hs, hkind⟩ : ∃ s, twins.model.store.get? "s:V" = some s ∧ s.kind = .class_ :=
    ⟨_, rfl, rfl⟩
  have htexts : twins.tree.trueSuffixes 3 s =
      ["class", "swift.class", "6ryk5", "class-6ryk5", "swift.class-6ryk5"] := by
    have hid : s.id = "s:V" := SymbolStore.id_of_get? hs
    have hhash : ShortHash.ofIdentifier "s:V" = "6ryk5" :=
      Option.some.inj (congrArg (·[2]?) hashes_widgetIds :)
    rw [trueSuffixes, kindTexts, hid, hkind, hhash, htree]
    decide +kernel
  refine ⟨link, component, s, hparse, hcomponent, hfind, hvisited, hsymbol, hs, htexts,
    fun text htext => ?_⟩
  obtain ⟨authored', link', happend, hparse', hfind', -⟩ := redundant_suffixes_accepted [twinGraph]
    ⟨"org.example.kit", false⟩ (by decide) (by decide) (c := twins) rfl hhashes.2 hparse hfind
    hcomponent rfl hvisited hsymbol hs htext
  exact ⟨authored', link', happend, hparse', hfind'⟩

end Catalog

end SymbolLinks
