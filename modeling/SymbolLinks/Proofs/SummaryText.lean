import SymbolLinks.Proofs.DocumentedSymbols

/-! Summaries that are written and read. A kind is written as its identifier and read as
the kind that this identifier names. An identifier gives up one language tag when it is
read, so a kind comes back unless it was read from an identifier with two of them
(`Kind.reads_back_iff`), and the summaries of a catalog come back if no symbol with a page
has such a kind (`Catalog.summaries_read_back`). -/
namespace SymbolLinks

/-! ## Language tags of kinds -/

namespace Kind

/-- An identifier with a language name and a dot in front. -/
def Tagged (cs : List Char) : Prop :=
  ∃ tag ∈ languageTags, ∃ rest, cs = tag.toList ++ '.' :: rest

/-- An identifier with two language names in front, each with its dot. -/
def TwiceTagged (text : String) : Prop :=
  ∃ first ∈ languageTags, ∃ second ∈ languageTags, ∃ rest,
    text = first ++ "." ++ second ++ "." ++ rest

theorem withoutLanguage_tag {tag : String} (h : tag ∈ languageTags) (rest : List Char) :
    withoutLanguage (tag.toList ++ '.' :: rest) = rest := by
  have hdots : languageTags.all (fun tag => !tag.toList.contains '.') = true := by decide
  have hdot : '.' ∉ tag.toList := by simpa using List.all_eq_true.mp hdots tag h
  simp only [withoutLanguage, Text.takeWhile_ne_append hdot, List.drop_left, String.ofList_toList,
    if_pos h]

theorem withoutLanguage_of_not_tagged {cs : List Char} (h : ¬ Tagged cs) :
    withoutLanguage cs = cs := by
  by_cases hdot : '.' ∈ cs
  · obtain ⟨before, after, hcs, hbefore⟩ := List.eq_append_cons_of_mem hdot
    have hother : String.ofList before ∉ languageTags := by
      intro hmem
      exact h ⟨_, hmem, after, by rw [hcs, String.toList_ofList]⟩
    simp only [hcs, withoutLanguage, Text.takeWhile_ne_append hbefore, List.drop_left,
      if_neg hother]
  · simp only [withoutLanguage, Text.takeWhile_ne_eq_self hdot, List.drop_length]

theorem withoutLanguage_eq_self_iff {cs : List Char} : withoutLanguage cs = cs ↔ ¬ Tagged cs := by
  refine ⟨fun heq => ?_, withoutLanguage_of_not_tagged⟩
  intro h
  obtain ⟨tag, htag, rest, hcs⟩ := h
  rw [hcs, withoutLanguage_tag htag] at heq
  have hlength := congrArg List.length heq
  simp only [List.length_append, List.length_cons] at hlength
  omega

/-- What is left of an identifier has a tag of its own if the identifier has two. -/
theorem tagged_withoutLanguage_iff {text : String} :
    Tagged (withoutLanguage text.toList) ↔ TwiceTagged text := by
  constructor
  · intro h
    by_cases hfirst : Tagged text.toList
    · obtain ⟨first, hmem, rest, htext⟩ := hfirst
      rw [htext, withoutLanguage_tag hmem] at h
      obtain ⟨second, hmem', rest', rfl⟩ := h
      refine ⟨first, hmem, second, hmem', String.ofList rest', String.toList_injective ?_⟩
      simp [htext]
    · rw [withoutLanguage_of_not_tagged hfirst] at h
      exact absurd h hfirst
  · intro h
    obtain ⟨first, hmem, second, hmem', rest, htext⟩ := h
    have hlist : text.toList = first.toList ++ '.' :: (second.toList ++ '.' :: rest.toList) := by
      simp [htext]
    rw [hlist, withoutLanguage_tag hmem]
    exact ⟨second, hmem', rest.toList, rfl⟩

theorem identifier_ofIdentifier (text : String) :
    (ofIdentifier text).identifier = String.ofList (withoutLanguage text.toList) := by
  simp only [ofIdentifier]
  cases hknown : known? (withoutLanguage text.toList) with
  | none => rfl
  | some k =>
    obtain ⟨-, hid⟩ := known?_eq_some hknown
    rw [Option.getD_some, ← hid, String.ofList_toList]

theorem reads_back_ofIdentifier_iff (text : String) :
    ofIdentifier (ofIdentifier text).identifier = ofIdentifier text ↔ ¬ TwiceTagged text := by
  rw [← tagged_withoutLanguage_iff, ← withoutLanguage_eq_self_iff]
  constructor
  · intro h
    have hid := congrArg identifier h
    rw [identifier_ofIdentifier, identifier_ofIdentifier, String.toList_ofList] at hid
    exact String.ofList_injective hid
  · intro h
    rw [identifier_ofIdentifier]
    simp only [ofIdentifier, String.toList_ofList, h]

/-- The kinds that are read back are those of identifiers with at most one language tag. -/
theorem reads_back_iff (k : Kind) :
    ofIdentifier k.identifier = k ↔ ∃ text, k = ofIdentifier text ∧ ¬ TwiceTagged text := by
  constructor
  · intro h
    refine ⟨k.identifier, h.symm, (reads_back_ofIdentifier_iff k.identifier).mp ?_⟩
    rw [h, h]
  · intro h
    obtain ⟨text, hk, htext⟩ := h
    rw [hk]
    exact (reads_back_ofIdentifier_iff text).mpr htext

end Kind

/-! ## Summaries -/

theorem Summary.reread_eq_self_iff (s : Summary) :
    s.reread = s ↔ ∃ text, s.kind = .ofIdentifier text ∧ ¬ Kind.TwiceTagged text := by
  rw [← Kind.reads_back_iff]
  constructor
  · exact congrArg Summary.kind
  · intro h
    rw [reread, h]

namespace Catalog

variable (graphs : List SymbolGraph) (o : CatalogOptions)

/-- The symbols with a page are summarized. -/
theorem mem_summaries_iff {x : Summary} : x ∈ (build graphs o).1.summaries ↔
    ∃ s ∈ (build graphs o).1.model.store.symbols, ∃ page,
      (build graphs o).1.pages.get? s.id = some page ∧ x = summarize s.id page s := by
  simp only [summaries, List.mem_filterMap, Option.map_eq_some_iff,
    SymbolStore.get?_eq_some_iff]
  constructor
  · intro h
    obtain ⟨⟨id, page⟩, hentry, s, ⟨hs, hid⟩, hx⟩ := h
    subst hid
    exact ⟨s, hs, page, KeyMap.mem_entries_iff.mp hentry, hx.symm⟩
  · intro h
    obtain ⟨s, hs, page, hpage, hx⟩ := h
    exact ⟨(s.id, page), KeyMap.mem_entries_iff.mpr hpage, s, ⟨hs, rfl⟩, hx.symm⟩

theorem forall_kind_summaries_iff {P : Kind → Prop} :
    (∀ x ∈ (build graphs o).1.summaries, P x.kind) ↔
      ∀ s ∈ (build graphs o).1.model.store.symbols, s.Documentable → P s.kind := by
  constructor
  · intro h s hs hdoc
    obtain ⟨page, hpage⟩ := KeyMap.mem_keys_iff.mp
      ((mem_pages_iff_documentable graphs o).mpr ⟨s, hs, rfl, hdoc⟩)
    exact h _ ((mem_summaries_iff graphs o).mpr ⟨s, hs, page, hpage, rfl⟩)
  · intro h x hx
    obtain ⟨s, hs, page, hpage, rfl⟩ := (mem_summaries_iff graphs o).mp hx
    obtain ⟨s', hs', hid, hdoc⟩ :=
      (mem_pages_iff_documentable graphs o).mp (KeyMap.mem_keys_iff.mpr ⟨page, hpage⟩)
    have hsame : s' = s := SymbolStore.eq_of_id hs' hs hid
    exact h s hs (hsame ▸ hdoc)

theorem decodeList?_eq_summaries_iff :
    Summary.decodeList? (Summary.encodeList (build graphs o).1.summaries) =
        some (build graphs o).1.summaries ↔
      ∀ s ∈ (build graphs o).1.model.store.symbols, s.Documentable →
        ∃ text, s.kind = .ofIdentifier text ∧ ¬ Kind.TwiceTagged text := by
  have hself : ∀ ss : List Summary, ss.map Summary.reread = ss ↔ ∀ s ∈ ss, s.reread = s := by
    intro ss
    conv => lhs; rhs; rw [← List.map_id ss]
    exact List.map_inj_left
  rw [Summary.decodeList?_encodeList, Option.some_inj, hself]
  simp only [Summary.reread_eq_self_iff]
  exact forall_kind_summaries_iff graphs o
    (P := fun k => ∃ text, k = .ofIdentifier text ∧ ¬ Kind.TwiceTagged text)

/-- In the documentation of any graphs, the summaries come back from their text with
everything but the kinds as it was, and each kind is the one that its identifier names. They
are the same summaries if and only if the kind of every symbol with a page is that of an
identifier with at most one language tag, so at least if all graphs have such identifiers. -/
theorem summaries_read_back (graphs : List SymbolGraph) (o : CatalogOptions) :
    let c := (build graphs o).1
    let readBack := Summary.decodeList? (Summary.encodeList c.summaries)
    readBack = some (c.summaries.map fun s => { s with kind := .ofIdentifier s.kind.identifier }) ∧
    (readBack = some c.summaries ↔ ∀ s ∈ c.model.store.symbols, s.Documentable →
      ∃ text, s.kind = .ofIdentifier text ∧ ¬ Kind.TwiceTagged text) ∧
    ((∀ g ∈ graphs, ∀ x ∈ g.symbols, ∃ text, x.kind = .ofIdentifier text ∧ ¬ Kind.TwiceTagged text) →
      readBack = some c.summaries) := by
  intro c readBack
  have hsame := decodeList?_eq_summaries_iff graphs o
  refine ⟨Summary.decodeList?_encodeList c.summaries, hsame, fun hgraphs => hsame.mpr ?_⟩
  intro s hs _
  rcases (fromGraphs graphs o hs).kind with hmodule | ⟨g, hg, x, hx, hkind⟩
  · rw [hmodule]
    exact (Kind.reads_back_iff .module_).mp (by decide)
  · rw [hkind]
    exact hgraphs g hg x hx

/-- A graph with a single symbol, of the kind that an identifier names. -/
def kindGraph (identifier : String) : SymbolGraph where
  moduleName := "Kit"
  symbols := [
    { language := .swift, id := "c:W", kind := .ofIdentifier identifier, title := "Widget",
      path := ["Widget"] }]

/-- A kind without special treatment comes back. -/
theorem summaries_read_back_union :
    let c := (build [kindGraph "swift.union"] ⟨"org.example.kit", false⟩).1
    Summary.decodeList? (Summary.encodeList c.summaries) = some c.summaries := by
  refine (summaries_read_back [kindGraph "swift.union"] ⟨"org.example.kit", false⟩).2.2 ?_
  intro g hg x hx
  cases List.mem_singleton.mp hg
  cases List.mem_singleton.mp hx
  exact (Kind.reads_back_iff _).mp (by decide)

/-- A kind that is named with two language tags comes back as another one. -/
theorem summaries_misread_twice_tagged :
    let c := (build [kindGraph "swift.swift.enum"] ⟨"org.example.kit", false⟩).1
    Summary.decodeList? (Summary.encodeList c.summaries) ≠ some c.summaries := by
  intro c hsame
  let widget : Symbol := (c.model.store.get? "c:W").get (by decide +kernel)
  have hmem : widget ∈ c.model.store.symbols := by decide +kernel
  have hdoc : widget.Documentable := by decide +kernel
  have hkind := (decodeList?_eq_summaries_iff _ _).mp hsame widget hmem hdoc
  have hother : widget.kind = .other "swift.enum" := by decide +kernel
  rw [hother, ← Kind.reads_back_iff] at hkind
  exact absurd hkind (by decide)

end Catalog

end SymbolLinks
