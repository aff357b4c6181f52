import SymbolLinks.Proofs.CatalogTree
import SymbolLinks.Proofs.SnapshotRoundTrip
import SymbolLinks.Proofs.Walks
import SymbolLinks.Resolve

/-! What a failed walk says is true. The errors of a walk name a component, a node and
either candidates or similar names, and a failure is described from that alone.
`WalkError.Explained` says what each error promises about the tree. Every walk keeps these
promises, through built trees and through trees that were read from a snapshot. -/
namespace SymbolLinks

open Link (Component)

namespace PathTree

/-! ## Spellings of one symbol -/

/-- A node and itself, or two nodes of one symbol. -/
def SameSymbol (t : PathTree) (i j : NodeId) : Prop :=
  j = i ∨ ∃ id, t.symbolAt? i = some id ∧ t.symbolAt? j = some id

theorem mem_spellings_iff {t : PathTree} (h : Snapshot.Restorable t) {id : String} {i : NodeId} :
    i ∈ (t.spellings.get? id).getD [] ↔ t.symbolAt? i = some id := by
  have hget := KeyMap.get?_foldl_group (fun c : String × NodeId => c.1) (·.2) id
    (Snapshot.carriers t.nodes.toList)
  have hcarries : t.symbolAt? i = some id ↔ (id, i) ∈ Snapshot.carriers t.nodes.toList := by
    rw [Snapshot.mem_carriers_iff, symbolAt?, node?, Array.getElem?_toList]
  rw [hcarries, h.spellings_eq, Snapshot.spellingsIn, hget]
  split
  · rename_i hnil
    have hnone : (id, i) ∉ Snapshot.carriers t.nodes.toList := by
      intro hmem
      exact List.filter_eq_nil_iff.mp hnil (id, i) hmem (by simp)
    simp [hnone]
  · simp

theorem mem_spellingsOf_iff {t : PathTree} (h : Snapshot.Restorable t) {i j : NodeId} :
    j ∈ t.spellingsOf i ↔ t.SameSymbol i j := by
  rw [spellingsOf, List.mem_cons, List.mem_filter, SameSymbol]
  cases hi : t.symbolAt? i with
  | none => simp
  | some id =>
    simp only [Option.bind_some, mem_spellings_iff h, bne_iff_ne, Option.some.injEq,
      exists_eq_left']
    by_cases hji : j = i
    · simp [hji]
    · simp [hji]

/-! ## Names on offer -/

/-- The order of suggestions for a name. -/
def rankOrder [NameDistance] (name : String) : String → String → Ordering :=
  compareLex (compareOn (NameDistance.distance name)) compare

instance [NameDistance] (name : String) : Std.TransCmp (rankOrder name) :=
  inferInstanceAs (Std.TransCmp (compareLex _ _))

theorem ranked_eq [NameDistance] (name : String) (names : List String) :
    ranked name names = names.mergeSort fun a b => (rankOrder name a b).isLE := by
  have hscored := List.map_mergeSort (f := fun n => (NameDistance.distance name n, n)) (l := names)
    (s := fun a b => ((compare a.1 b.1).then (compare a.2 b.2)).isLE)
    (r := fun a b => (rankOrder name a b).isLE) fun _ _ _ _ => rfl
  rw [ranked, ← hscored, List.map_map]
  exact List.map_id _

theorem perm_ranked [NameDistance] (name : String) (names : List String) : (ranked name names).Perm names := by
  rw [ranked_eq]
  exact List.mergeSort_perm ..

/-- A node has a container that a component could mean. -/
def Offers (t : PathTree) (i : NodeId) (c : Component) : Prop :=
  (∃ es, t.group? i c.full = some es) ∨ (c.suffix ≠ none ∧ ∃ es, t.group? i c.name = some es)

theorem isSome_entriesFor?_iff {t : PathTree} {i : NodeId} {c : Component} :
    (t.entriesFor? c i).isSome = true ↔ t.Offers i c := by
  rw [entriesFor?, Offers, Option.isSome_or, Option.isSome_map, Bool.or_eq_true,
    Option.isSome_iff_exists]
  cases c.suffix <;> simp [Option.isSome_iff_exists]

theorem hasChildFor_iff {t : PathTree} {here : NodeId} {c : Component} :
    t.hasChildFor c here = true ↔ ∃ i ∈ t.spellingsOf here, t.Offers i c := by
  simp only [hasChildFor_eq, lookup?, List.isSome_findSome?, List.any_eq_true, Option.isSome_map,
    isSome_entriesFor?_iff]

/-- A name below a node that is similar to that of a component. -/
def Suggests [NameDistance] (t : PathTree) (parent : NodeId) (c : Component) (name : String) (es : List Entry) :
    Prop :=
  t.group? parent name = some es ∧ isSuggestion c.name name = true

/-- The entries of a container below a node that a component matches: all of them if the
whole component is its name, else those that the suffix fits. -/
inductive Matches (t : PathTree) (parent : NodeId) (c : Component) :
    List Entry → List Entry → Prop where
  | whole {es : List Entry} : t.group? parent c.full = some es → t.Matches parent c es es
  | suffix {es : List Entry} {s : Link.Suffix} : t.group? parent c.full = none →
      c.suffix = some s → t.group? parent c.name = some es →
      t.Matches parent c es (es.filter (Entry.matchesSuffix t s))

end PathTree

open PathTree in
/-- What the error of a step from `below` promises, at a component and what follows it. -/
def WalkError.Explained [NameDistance] (t : PathTree) (below : NodeId) (c : Component) (next : Option Component) :
    WalkError → Prop
  | .ambiguous candidates c' parent =>
    c' = c ∧ t.SameSymbol below parent ∧
      (∃ es matching, t.Matches parent c es matching ∧
        candidates = matching.map fun e => ⟨e.disambiguator? es, e.node⟩) ∧
      2 ≤ candidates.length ∧ (candidates.map (·.node)).Nodup ∧
      ∀ d, next = some d → ¬ ∃! n, n ∈ candidates.map (·.node) ∧
        ∃ i, t.SameSymbol n i ∧ t.Offers i d
  | .invalidSuffix candidates c' parent =>
    c' = c ∧ t.SameSymbol below parent ∧ t.group? parent c.full = none ∧
      ∃ s es, c.suffix = some s ∧ t.group? parent c.name = some es ∧ es ≠ [] ∧
        candidates = (es.map fun e => ⟨e.disambiguator? es, e.node⟩) ∧
        ∀ e ∈ es, Entry.matchesSuffix t s e = false
  | .notFound nearMisses c' parent =>
    c' = c ∧ parent = below ∧ (∀ i, t.SameSymbol parent i → ¬ t.Offers i c) ∧
      (∀ name, name ∈ nearMisses ↔ ∃ es, t.Suggests parent c name es) ∧
      ∀ s, c.suffix = some s → ∀ name es, t.Suggests parent c name es →
        ∀ e ∈ es, Entry.matchesSuffix t s e = false
  | .doesNotExist siblings c' parent =>
    c' = c ∧ parent = below ∧ (∀ i, t.SameSymbol parent i → ¬ t.Offers i c) ∧ siblings ≠ [] ∧
      ∃ s, c.suffix = some s ∧ ∀ name, name ∈ siblings ↔
        ∃ es, t.Suggests parent c name es ∧ ∃ e ∈ es, Entry.matchesSuffix t s e = true

/-- The kind of failure that a walk error is named for. -/
def WalkError.kind : WalkError → FailureKind
  | .ambiguous _ _ _ => .ambiguous
  | .doesNotExist _ _ _ => .doesNotExist
  | .invalidSuffix _ _ _ => .invalidDisambiguation
  | .notFound _ _ _ => .pathComponentNotFound

namespace PathTree

section Outcomes

variable {t : PathTree} {here : NodeId} {c : Component} {es : List Entry}

/-! ## Missing names -/

theorem mem_fitting_iff [NameDistance] {s : Link.Suffix} {n : Node} {parent : NodeId}
    (hn : t.node? parent = some n) {name : String} :
    name ∈ ranked c.name ((n.children.entries.filter fun x =>
      x.2.any (Entry.matchesSuffix t s) && isSuggestion c.name x.1).map (·.1)) ↔
    ∃ es, t.Suggests parent c name es ∧ ∃ e ∈ es, Entry.matchesSuffix t s e = true := by
  rw [(perm_ranked ..).mem_iff, List.mem_map]
  simp only [List.mem_filter, Bool.and_eq_true, List.any_eq_true, Suggests, group?_of_node? hn,
    ← KeyMap.mem_entries_iff]
  constructor
  · rintro ⟨⟨_, es⟩, ⟨hmem, hfits, hsimilar⟩, rfl⟩
    exact ⟨es, ⟨hmem, hsimilar⟩, hfits⟩
  · rintro ⟨es, ⟨hmem, hsimilar⟩, hfits⟩
    exact ⟨(name, es), ⟨hmem, hfits, hsimilar⟩, rfl⟩

theorem mem_similar_iff [NameDistance] {n : Node} {parent : NodeId} (hn : t.node? parent = some n)
    {name : String} : name ∈ ranked c.name (n.children.keys.filter (isSuggestion c.name)) ↔
      ∃ es, t.Suggests parent c name es := by
  rw [(perm_ranked ..).mem_iff, List.mem_filter, KeyMap.mem_keys_iff, ← exists_and_right]
  simp only [Suggests, group?_of_node? hn]

/-- The error for a component that no spelling of a node offers. -/
theorem explained_missing [NameDistance] (h : ∀ i, t.SameSymbol here i → ¬ t.Offers i c)
    (next : Option Component) : (t.missing here c).Explained t here c next := by
  unfold missing
  cases hn : t.node? here with
  | none =>
    have hnone : ∀ name es, ¬ t.Suggests here c name es := by
      intro name es hname
      rw [Suggests, group?, hn] at hname
      cases hname.1
    exact ⟨rfl, rfl, h, by simp [hnone], fun s _ name es hname => absurd hname (hnone name es)⟩
  | some n =>
    cases hs : c.suffix with
    | none =>
      refine ⟨rfl, rfl, h, fun name => mem_similar_iff hn, fun s hsuffix => ?_⟩
      rw [hs] at hsuffix
      cases hsuffix
    | some s =>
      simp only
      split
      · rename_i hempty
        refine ⟨rfl, rfl, h, fun name => mem_similar_iff hn, ?_⟩
        intro s' hs' name es hname e he
        rw [hs] at hs'
        cases hs'
        rw [← Bool.not_eq_true]
        intro hfits
        have hmem := (mem_fitting_iff hn).mpr ⟨es, hname, e, he, hfits⟩
        rw [List.isEmpty_iff.mp hempty] at hmem
        cases hmem
      · rename_i hne
        exact ⟨rfl, rfl, h, fun hnil => hne (List.isEmpty_iff.mpr hnil), s, hs, fun name =>
          mem_fitting_iff hn⟩

/-! ## Choices that fail -/

/-- In a container with one entry a node, the candidates are the selected entries. -/
theorem candidates_filter (hnodup : (es.map (·.node)).Nodup) (p : Entry → Bool) :
    candidates es (fun e => ((es.filter p).map (·.node)).contains e.node) =
      (es.filter p).map fun e => ⟨e.disambiguator? es, e.node⟩ := by
  rw [candidates]
  congr 1
  refine List.filter_congr fun e he => ?_
  rw [Bool.eq_iff_iff, List.contains_iff_mem, List.mem_map]
  constructor
  · rintro ⟨e', he', hnode⟩
    obtain ⟨hmem, hp⟩ := List.mem_filter.mp he'
    rwa [← List.inj_on_of_nodup_map hnodup hmem he hnode]
  · intro hp
    exact ⟨e, List.mem_filter.mpr ⟨he, hp⟩, rfl⟩

theorem matches_of_entriesFor? {parent : NodeId} {useSuffix : Bool}
    (h : t.entriesFor? c parent = some (es, useSuffix)) :
    t.Matches parent c es (Entry.select t (if useSuffix then c.suffix else none) es) := by
  obtain ⟨rfl, hfull⟩ | ⟨rfl, hsuffix, hfull, hname⟩ := entriesFor?_eq_some_iff.mp h
  · exact .whole hfull
  · obtain ⟨s, hs⟩ := Option.isSome_iff_exists.mp hsuffix
    rw [hs]
    exact .suffix hfull hs hname

theorem Matches.group? {parent : NodeId} {matching : List Entry}
    (h : t.Matches parent c es matching) : ∃ name, t.group? parent name = some es := by
  cases h with
  | whole hfull => exact ⟨_, hfull⟩
  | suffix _ _ hname => exact ⟨_, hname⟩

theorem Matches.candidates_eq {parent : NodeId} {matching : List Entry}
    (h : t.Matches parent c es matching) (hnodup : (es.map (·.node)).Nodup) :
    candidates es (fun e => (matching.map (·.node)).contains e.node) =
      matching.map fun e => ⟨e.disambiguator? es, e.node⟩ := by
  cases h with
  | whole _ => simpa using candidates_filter hnodup fun _ => true
  | suffix _ _ _ => exact candidates_filter hnodup _

theorem Matches.sublist {parent : NodeId} {matching : List Entry}
    (h : t.Matches parent c es matching) : matching.Sublist es := by
  cases h with
  | whole _ => exact .refl es
  | suffix _ _ _ => exact List.filter_sublist

/-- A step that fails keeps the promises of its error. -/
theorem explained_step [NameDistance] (h : Snapshot.Restorable t) {next : Option Component} {e : WalkError}
    (hstep : t.step here c next = .error e) : e.Explained t here c next := by
  rw [step_eq] at hstep
  cases hlookup : t.lookup? c here with
  | none =>
    rw [hlookup] at hstep
    cases hstep
    refine explained_missing (fun i hi hoffers => ?_) next
    have hnone := lookup?_eq_none_iff.mp hlookup i ((mem_spellingsOf_iff h).mpr hi)
    rw [← isSome_entriesFor?_iff, hnone] at hoffers
    cases hoffers
  | some x =>
    obtain ⟨parent, es, useSuffix⟩ := x
    rw [hlookup] at hstep
    obtain ⟨hparent, hes⟩ := entriesFor?_of_lookup? hlookup
    have hspelling := (mem_spellingsOf_iff h).mp hparent
    have hmatches := matches_of_entriesFor? hes
    obtain ⟨name, hgroup⟩ := hmatches.group?
    have hnodup := h.nodup hgroup
    obtain ⟨hnil, rfl⟩ | ⟨htwo, hnarrow, rfl⟩ := choose_error rfl hstep
    · -- The container has entries, so it was a suffix that left none of them.
      obtain ⟨rfl, -⟩ | ⟨rfl, hsuffix, hfull, hname⟩ := entriesFor?_eq_some_iff.mp hes
      · exact absurd hnil (h.nonempty hgroup)
      · obtain ⟨s, hs⟩ := Option.isSome_iff_exists.mp hsuffix
        rw [hs] at hnil
        refine ⟨rfl, hspelling, hfull, s, es, hs, hname, h.nonempty hname, by simp [candidates], ?_⟩
        intro e he
        rw [← Bool.not_eq_true]
        exact List.filter_eq_nil_iff.mp hnil e he
    · have hnodes := (hmatches.sublist.map (·.node)).nodup hnodup
      rw [hmatches.candidates_eq hnodup]
      refine ⟨rfl, hspelling, ⟨es, _, hmatches, rfl⟩, by simpa using htwo,
        by simpa [Function.comp_def] using hnodes, ?_⟩
      rintro d hd ⟨n, ⟨hn, hchild⟩, honly⟩
      simp only [List.map_map, Function.comp_def] at hn honly
      have hiff : ∀ n, t.hasChildFor d n = true ↔ ∃ i, t.SameSymbol n i ∧ t.Offers i d := by
        intro n
        simp only [hasChildFor_iff, mem_spellingsOf_iff h]
      refine hnarrow d hd ?_
      rw [filter_eq_singleton hnodes hn ((hiff n).mpr hchild) fun n' hn' hchild' =>
        honly n' ⟨hn', (hiff n').mp hchild'⟩]
      rfl

end Outcomes

/-- A described failure is of the kind of its walk error. -/
theorem kind_describe [NameDistance] {t : PathTree} {below : NodeId} {c : Component} {next : Option Component}
    {e : WalkError} (h : e.Explained t below c next) (d : Destinations) :
    (d.describe e).kind = e.kind := by
  cases e with
  | ambiguous candidates c' parent => rfl
  | doesNotExist siblings c' parent => rfl
  | notFound nearMisses c' parent => rfl
  | invalidSuffix candidates c' parent =>
    obtain ⟨rfl, -, -, s, -, hs, -⟩ := h
    simp only [Destinations.describe, hs, WalkError.kind]

/-- The errors of walks are true. A walk fails at a component, with what it says about it and
about the node that it stands on. A description as a failure keeps the kind of the error. -/
theorem walk_errors_explained [NameDistance] (t : PathTree)
    (origin : (∃ st members, t = build st members) ∨ ∃ s : Snapshot, s.toTree = .ok t)
    (link : Link) (start : Option NodeId) {e : WalkError} (hfind : t.find link start = .error e) :
    ∃ c, link.components[(t.visited link start).length]? = some c ∧
      e.Explained t ((t.visited link start).getLastD (t.origin link start)) c
        link.components[(t.visited link start).length + 1]? ∧
      ∀ d : Destinations, (d.describe e).kind = e.kind := by
  have h := Snapshot.restorable_of_origin origin
  rw [find_eq_walkFrom] at hfind
  obtain ⟨c, below, hstops⟩ := exists_walkStops _ hfind
  have hexplained := explained_step h hstops.step
  refine ⟨c, hstops.component, ?_, kind_describe hexplained⟩
  rw [visited, hstops.below_eq]
  exact hexplained

/-- Two methods share a name and a kind, and neither has anything below it. -/
theorem walk_errors_explained_widgets : ∃ link c next e,
    Link.parse "/Kit/Widget/spin-method/axis" = .ok link ∧
    link.components[2]? = some c ∧ link.components[3]? = some next ∧
    Catalog.widgets.tree.find link none = .error e ∧ e.kind = .ambiguous ∧
    e.Explained Catalog.widgets.tree 2 c (some next) := by
  let link : Link := ⟨[Component.parse "Kit".toList 1, Component.parse "Widget".toList 5,
    Component.parse "spin-method".toList 12, Component.parse "axis".toList 24], true⟩
  have hparse : Link.parse "/Kit/Widget/spin-method/axis" = .ok link := rfl
  have htree : Catalog.widgets.tree = _ := build_of_sorted (by decide +kernel) _
  have hvisited : Catalog.widgets.tree.visited link none = [1, 2] := by
    rw [htree]
    decide +kernel
  have hkind : (Catalog.widgets.tree.find link none).mapError WalkError.kind =
      .error .ambiguous := by
    rw [htree]
    decide +kernel
  cases hfind : Catalog.widgets.tree.find link none with
  | ok node =>
    rw [hfind] at hkind
    cases hkind
  | error e =>
    rw [hfind] at hkind
    obtain ⟨c, hc, hexplained, -⟩ :=
      walk_errors_explained Catalog.widgets.tree (.inl ⟨_, _, rfl⟩) link none hfind
    rw [hvisited] at hc hexplained
    cases hc
    exact ⟨link, _, _, e, hparse, rfl, rfl, hfind, Except.error.inj hkind, hexplained⟩

end PathTree

end SymbolLinks
