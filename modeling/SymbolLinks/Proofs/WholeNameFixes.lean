import SymbolLinks.Proofs.LinkPlaces
import SymbolLinks.Proofs.SuffixFixes

/-! Fixes of whole names. A component that is a name as a whole is taken as that name, also if
it ends in what reads as a suffix. The fixes for such a name that is ambiguous go by the
reading alone. So they write the suffix of a candidate into the name, in front of the part
that reads as a suffix. -/
namespace SymbolLinks

theorem Edit.apply_between (before after : List Char) (text : String) :
    (⟨Text.byteLength before, Text.byteLength before, text⟩ : Edit).apply (before ++ after) =
      before ++ text.toList ++ after := by
  simpa [Text.byteLength] using apply_middle before [] after text

/-- Solutions of one edit each. -/
theorem Solution.map_apply_of_edits {α : Type} {ss : List Solution} {xs : List α} {f : α → Edit}
    (h : ss.map (·.edits) = xs.map fun x => [f x]) (text : String) :
    ss.map (·.apply text) = xs.map fun x => String.ofList ((f x).apply text.toList) := by
  have hedits : ss.map (·.apply text) =
      (ss.map (·.edits)).map fun edits => apply ⟨edits, ""⟩ text := by
    rw [List.map_map]
    rfl
  rw [hedits, h, List.map_map]
  exact List.map_congr_left fun x _ => apply_of_edits rfl text

namespace Link.Component

/-- The suffix of a component with its dash, as it is written. -/
def suffixText (c : Component) : String := c.suffix.elim "" fun s => "-" ++ s.text

/-- A component is written as its name and its suffix. -/
theorem exists_nameText (raw : List Char) (offset : Nat) : ∃ name,
    raw = name ++ (parse raw offset).suffixText.toList ∧
      (parse raw offset).nameRange.stop = offset + Text.byteLength name := by
  cases hr : reading? raw with
  | none =>
    rw [parse_of_reading?_none hr]
    exact ⟨raw, by simp [suffixText], rfl⟩
  | some r =>
    rw [parse_of_reading?_some hr]
    refine ⟨r.name, ?_, rfl⟩
    rw [(of_reading? hr).raw_eq]
    simp [suffixText]

end Link.Component

namespace PathTree

open Link (Component)

variable {t : PathTree} {c : Component} {parent : NodeId} {es : List Entry}

/-- Where a whole name is ambiguous, all its entries are candidates. -/
theorem candidates_of_whole {below : NodeId} {next : Option Component} {ks : List Candidate}
    {c' : Component} (h : t.step below c' next = .error (.ambiguous ks c parent))
    (hwhole : t.group? parent c.full = some es) :
    c' = c ∧ 2 ≤ es.length ∧ ks = candidates es fun _ => true := by
  rw [step_eq] at h
  cases hlookup : t.lookup? c' below with
  | none =>
    rw [hlookup] at h
    have hoffer := offer?_missing t below c'
    rw [Except.error.inj h] at hoffer
    cases hoffer
  | some x =>
    obtain ⟨i, es', useSuffix⟩ := x
    rw [hlookup] at h
    obtain ⟨-, hfound⟩ := entriesFor?_of_lookup? hlookup
    obtain ⟨-, heq⟩ | ⟨hlength, -, heq⟩ := choose_error rfl h
    · cases heq
    · cases heq
      obtain ⟨rfl, hes⟩ | ⟨-, -, hnone, -⟩ := entriesFor?_eq_some_iff.mp hfound
      · cases hes.symm.trans hwhole
        refine ⟨rfl, hlength, ?_⟩
        simp only [candidates]
        congr 1
        refine List.filter_congr fun e he => ?_
        simpa [Entry.select] using ⟨e, he, rfl⟩
      · rw [hwhole] at hnone
        cases hnone

end PathTree

namespace Destinations

open Link (Component)
open PathTree

variable {d : Destinations} {c : Component} {parent : NodeId} {es : List Entry}

/-- What reads as a suffix in a whole name is not replaced. -/
theorem solutions_of_whole (hwhole : d.tree.group? parent c.full = some es)
    (candidates : List Candidate) :
    (d.describe (.ambiguous candidates c parent)).solutions =
      insertions c (d.choices c candidates) := by
  simp only [describe, any_not_hasChild (lt_size_of_group? hwhole), hwhole, Option.isNone_some]
  cases c.suffix <;> rfl

/-- The fixes for a whole name write the suffixes of its candidates behind its part that
reads as a name. -/
theorem exists_perm_apply_whole (hwhole : d.tree.group? parent c.full = some es)
    {ks : List Candidate} (hsuffix : ∀ k ∈ ks, k.suffix ≠ none) {authored : String}
    {before raw after : List Char} (htext : authored.toList = before ++ raw ++ after)
    (hc : c = Component.parse raw (Text.byteLength before)) :
    ∃ name, raw = name ++ c.suffixText.toList ∧ ∃ ks' : List Candidate, ks'.Perm ks ∧
      (d.describe (.ambiguous ks c parent)).solutions.map (·.apply authored) =
        ks'.map fun k => String.ofList
          (before ++ (name ++ k.fixText.toList ++ c.suffixText.toList) ++ after) := by
  obtain ⟨name, hraw, hstop⟩ := Component.exists_nameText raw (Text.byteLength before)
  rw [← hc] at hraw hstop
  obtain ⟨ks', hperm, hedits⟩ := exists_perm_insertions (d := d) (c := c) hsuffix
  refine ⟨name, hraw, ks', hperm, ?_⟩
  rw [solutions_of_whole hwhole, Solution.map_apply_of_edits hedits]
  refine List.map_congr_left fun k _ => congrArg String.ofList ?_
  have hbetween := Edit.apply_between (before ++ name) (c.suffixText.toList ++ after) k.fixText
  rw [Text.byteLength_append, ← hstop] at hbetween
  rw [htext, hraw]
  simpa using hbetween

/-- The fixes for a whole name. In any built tree, a component may be a name as a whole that is
ambiguous. Then its entries are the candidates, each of them has a suffix, and the fixes
belong to them, one each. A fix writes the suffix behind the part of the component that reads
as a name: behind the whole component, if nothing of it reads as a suffix. -/
theorem whole_name_fixes_insert_behind_name (st : SymbolStore) (members : MemberTable)
    (hd : d.tree = PathTree.build st members) {authored : String} {link : Link}
    (hparse : Link.parse authored = .ok link) (origin : Option String) {start : Option NodeId}
    (hstart : start = origin.bind d.tree.primary.get?) {ks : List Candidate}
    (hfind : d.tree.find link start = .error (.ambiguous ks c parent))
    (hwhole : d.tree.group? parent c.full = some es) :
    d.resolve authored origin = .error (d.describe (.ambiguous ks c parent)) ∧
      link.components[(d.tree.visited link start).length]? = some c ∧
      ks = es.map (fun e => ⟨e.disambiguator? es, e.node⟩) ∧ (∀ k ∈ ks, k.suffix ≠ none) ∧
      ∃ before name after, c.range.Cuts authored before (name ++ c.suffixText) after ∧
        ∃ ks' : List Candidate, ks'.Perm ks ∧
          (d.describe (.ambiguous ks c parent)).solutions.map (·.apply authored) =
            ks'.map fun k => before ++ (name ++ k.fixText ++ c.suffixText) ++ after := by
  subst hstart
  refine ⟨resolve_of_find_error hparse hfind, ?_⟩
  rw [find_eq_walkFrom] at hfind
  obtain ⟨c', below, hstops⟩ := exists_walkStops _ hfind
  obtain ⟨rfl, hlength, rfl⟩ := candidates_of_whole hstops.step hwhole
  obtain ⟨before, raw, after, htext, -, hc⟩ := Link.exists_place hparse hstops.component
  have hinv : Inv (LabelOf st) d.tree := hd ▸ inv_build st members
  have hsuffix := suffix_ne_none_of_mem_candidates (hinv.grouped _ _ _ hwhole) hlength fun _ => true
  obtain ⟨name, hraw, ks', hperm, happly⟩ := exists_perm_apply_whole hwhole hsuffix htext hc
  refine ⟨hstops.component, by simp [candidates], hsuffix, String.ofList before,
    String.ofList name, String.ofList after, ?_, ks', hperm, ?_⟩
  · have hcuts : c'.range.Cuts authored (String.ofList before) (String.ofList raw)
        (String.ofList after) := by
      rw [hc, Component.range_parse]
      exact Link.Span.cuts_of_toList htext
    rwa [hraw, String.ofList_append, String.ofList_toList] at hcuts
  · simpa [String.ofList_append, String.append_assoc] using happly

end Destinations

/-! ## An example -/

namespace Catalog

open PathTree Link

/-- A class and a method with a name that reads as a name and a kind. -/
def dashGraph : SymbolGraph :=
  let symbol := fun (kind : Kind) (id : String) =>
    ({ language := .swift, id, kind, title := "my-func", path := ["my-func"] } : GraphSymbol)
  { moduleName := "Kit", symbols := [symbol .class_ "c:W", symbol .method "s:V"] }

def dashes : Catalog := (build [dashGraph] ⟨"org.example.kit", false⟩).1

def dashName : Component := Component.parse "my-func".toList 5

def dashLink : Link := ⟨[Component.parse "Kit".toList 1, dashName], true⟩

theorem parse_dashLink : Link.parse "/Kit/my-func" = .ok dashLink := rfl

/-- The class and the method, with the suffixes that select them. -/
def dashCandidates : List Candidate := [⟨some (.kind "class"), 2⟩, ⟨some (.kind "method"), 3⟩]

/-- The link stops at the name, below the module. -/
theorem find_dashLink :
    dashes.tree.find dashLink none = .error (.ambiguous dashCandidates dashName 1) ∧
      (dashes.tree.group? 1 dashName.full).isSome = true ∧
      dashes.tree.symbolAt? 2 = some "c:W" ∧ dashes.tree.symbolAt? 3 = some "s:V" := by
  have htree : dashes.tree = _ := build_of_sorted (by decide +kernel) _
  rw [htree]
  decide +kernel

theorem whole_name_fixes_insert_behind_name_dashes :
    dashes.tree.find dashLink none = .error (.ambiguous dashCandidates dashName 1) ∧
      (dashes.tree.group? 1 dashName.full).isSome = true ∧
      ∃ before name after, dashName.range.Cuts "/Kit/my-func" before (name ++ "-func") after ∧
        ∃ ks : List Candidate, ks.Perm dashCandidates ∧
          ((Destinations.ofCatalog dashes).describe
              (.ambiguous dashCandidates dashName 1)).solutions.map (·.apply "/Kit/my-func") =
            ks.map fun k => before ++ (name ++ k.fixText ++ "-func") ++ after := by
  obtain ⟨hfind, hwhole, -⟩ := find_dashLink
  refine ⟨hfind, hwhole, ?_⟩
  obtain ⟨es, hes⟩ := Option.isSome_iff_exists.mp hwhole
  obtain ⟨-, -, -, -, hfixes⟩ := Destinations.whole_name_fixes_insert_behind_name
    (d := .ofCatalog dashes) dashes.model.store (members (ordered [dashGraph])) rfl parse_dashLink
    none rfl hfind hes
  exact hfixes

/-- The suffixes of the class and the method are not written behind their name. They end up in
the middle of it. -/
theorem whole_name_fixes_split_dashes :
    Link.parse "/Kit/my-func" = .ok dashLink ∧
      dashes.tree.find dashLink none = .error (.ambiguous dashCandidates dashName 1) ∧
      (dashes.tree.group? 1 dashName.full).isSome = true ∧
      ((Destinations.ofCatalog dashes).describe
          (.ambiguous dashCandidates dashName 1)).solutions.map (·.apply "/Kit/my-func") =
        ["/Kit/my-class-func", "/Kit/my-method-func"] ∧
      ∀ k ∈ dashCandidates, "/Kit/my-func" ++ k.fixText ∉
        ["/Kit/my-class-func", "/Kit/my-method-func"] := by
  obtain ⟨hfind, hwhole, hclass, hmethod⟩ := find_dashLink
  refine ⟨parse_dashLink, hfind, hwhole, ?_, by decide⟩
  obtain ⟨es, hes⟩ := Option.isSome_iff_exists.mp hwhole
  have hchoices : (Destinations.ofCatalog dashes).choices dashName dashCandidates =
      [("my-func", "class"), ("my-func", "method")] := by
    have hpairs : (dashCandidates.filterMap fun k => k.suffix.map fun s =>
        ((Destinations.ofCatalog dashes).hint dashName k.node, s.text)) =
          [("my-func", "class"), ("my-func", "method")] := by
      simp only [dashCandidates, List.filterMap_cons, List.filterMap_nil, Option.map_some,
        Destinations.hint, Destinations.ofCatalog, hclass, hmethod]
      decide +kernel
    rw [Destinations.choices, hpairs]
    exact List.mergeSort_of_pairwise (by decide)
  have hedits : (Destinations.insertions dashName
      [("my-func", "class"), ("my-func", "method")]).map (·.edits) =
        ["-class", "-method"].map fun x => [⟨7, 7, x⟩] := by
    decide
  rw [Destinations.solutions_of_whole hes, hchoices, Solution.map_apply_of_edits hedits]
  decide

end Catalog

end SymbolLinks
