import SymbolLinks.Proofs.CanonicalPaths
import SymbolLinks.Proofs.SuffixSelection

/-! Where canonical paths come from. The path of a symbol is written along the way
from the root to its primary node, one segment for each node on it (`At`). The segment
of a primary node is its name and the suffix that tells it from its peers, the primary
nodes beside it whose names agree with its own without regard to case. The segment of
another node is its name. -/
namespace SymbolLinks.PathTree

variable {t : PathTree}

/-! ## Segments below one node -/

/-- The primary entries below a node whose names agree with a name without regard to
case. -/
def peers (t : PathTree) (n : Node) (name : String) : List Entry :=
  (((namedEntries n).filter (Text.lowercase ·.1 = Text.lowercase name)).map (·.2)).filter
    fun e => t.isPrimary e.node

theorem mem_peers {n : Node} {name name' : String} {es : List Entry} {e : Entry}
    (hes : n.children.get? name = some es) (he : e ∈ es) (hprimary : t.isPrimary e.node = true)
    (hname : Text.lowercase name = Text.lowercase name') : e ∈ t.peers n name' := by
  refine List.mem_filter.mpr ⟨List.mem_map.mpr ⟨(name, e), ?_, rfl⟩, hprimary⟩
  exact List.mem_filter.mpr ⟨mem_namedEntries_iff.mpr ⟨es, hes, he⟩, by simpa using hname⟩

/-- The suffix of an entry tells it from its peers. An entry that is not primary has
none. -/
def suffix? (t : PathTree) (n : Node) (name : String) (e : Entry) : Option Disambiguator :=
  if t.isPrimary e.node = true then e.disambiguator? (t.peers n name) else none

theorem suffix?_of_primary {e : Entry} (h : t.isPrimary e.node = true) (n : Node) (name : String) :
    t.suffix? n name e = e.disambiguator? (t.peers n name) := if_pos h

theorem suffix?_of_not_primary {e : Entry} (h : ¬t.isPrimary e.node = true) (n : Node)
    (name : String) : t.suffix? n name e = none := if_neg h

/-- Only primary entries have suffixes. -/
theorem suffix?_eq_some_iff {n : Node} {name : String} {e : Entry} {d : Disambiguator} :
    t.suffix? n name e = some d ↔
      t.isPrimary e.node = true ∧ e.disambiguator? (t.peers n name) = some d := by
  simp [suffix?]

/-- A node is listed once below its parent. -/
theorem Rooted.entry_unique (h : Rooted t) {p : NodeId} {n : Node} (hn : t.node? p = some n)
    {name name' : String} {es es' : List Entry} {e e' : Entry}
    (hes : n.children.get? name = some es) (he : e ∈ es) (hes' : n.children.get? name' = some es')
    (he' : e' ∈ es') (heq : e'.node = e.node) : e' = e := by
  rw [← group?_of_node? hn] at hes hes'
  have hname := (h.below hes e he).2
  rw [← heq, (h.below hes' e' he').2] at hname
  cases hname
  cases hes.symm.trans hes'
  exact List.inj_on_of_nodup_map (h.nodup hes) he' he heq

/-- Among the peers, a primary entry is found by its node. -/
theorem Rooted.find?_peers (h : Rooted t) {p : NodeId} {n : Node} (hn : t.node? p = some n)
    {name : String} {es : List Entry} {e : Entry} (hes : n.children.get? name = some es)
    (he : e ∈ es) (hprimary : t.isPrimary e.node = true) :
    (t.peers n name).find? (fun x => x.node == e.node) = some e := by
  cases hfind : (t.peers n name).find? (fun x => x.node == e.node) with
  | none => exact absurd (List.find?_eq_none.mp hfind e (mem_peers hes he hprimary rfl)) (by simp)
  | some e' =>
    have hmem := List.mem_of_find?_eq_some hfind
    obtain ⟨⟨name', e''⟩, hnamed, rfl⟩ := List.mem_map.mp (List.mem_filter.mp hmem).1
    obtain ⟨es', hes', he'⟩ := mem_namedEntries_iff.mp (List.mem_filter.mp hnamed).1
    have heq := List.find?_some hfind
    rw [h.entry_unique hn hes he hes' he' (by simpa using heq)]

theorem Rooted.bind_find?_peers (h : Rooted t) {p : NodeId} {n : Node} (hn : t.node? p = some n)
    {name : String} {es : List Entry} {e : Entry} (hes : n.children.get? name = some es)
    (he : e ∈ es) :
    ((t.peers n name).find? fun x => x.node == e.node).bind (Entry.disambiguator? (t.peers n name)) =
      t.suffix? n name e := by
  by_cases hprimary : t.isPrimary e.node = true
  · rw [h.find?_peers hn hes he hprimary, suffix?_of_primary hprimary]
    rfl
  · have hnone : (t.peers n name).find? (fun x => x.node == e.node) = none := by
      refine List.find?_eq_none.mpr fun x hx heq => hprimary ?_
      rw [← beq_iff_eq.mp heq]
      exact (List.mem_filter.mp hx).2
    rw [hnone, suffix?_of_not_primary hprimary]
    rfl

/-- The segments below a node are the names of its entries with their suffixes. -/
theorem Rooted.segment_of_mem (h : Rooted t) {p : NodeId} {n : Node} (hn : t.node? p = some n)
    {seg : String} {i : NodeId} (hseg : (seg, i) ∈ t.segments n) :
    ∃ name es e, t.group? p name = some es ∧ e ∈ es ∧ e.node = i ∧
      seg = t.segment name e (t.suffix? n name e) := by
  simp only [segments, List.mem_flatMap, List.mem_filterMap, Prod.exists, Option.map_eq_some_iff,
    Prod.mk.injEq] at hseg
  obtain ⟨g, hg, name, e, he, m, -, rfl, rfl⟩ := hseg
  obtain ⟨-, k, rfl⟩ := mem_caseGroups_iff.mp hg
  obtain ⟨hnamed, hk⟩ := List.mem_filter.mp he
  obtain ⟨es, hes, hmem⟩ := mem_namedEntries_iff.mp hnamed
  refine ⟨name, es, e, (group?_of_node? hn name).trans hes, hmem, rfl, ?_⟩
  have hpeers : (((namedEntries n).filter (Text.lowercase ·.1 = k)).map (·.2)).filter
      (fun e => t.isPrimary e.node) = t.peers n name := by
    rw [peers, of_decide_eq_true hk]
  rw [hpeers, h.bind_find?_peers hn hes hmem]

/-! ## The text of a segment -/

/-- The language tag that stands in front of the kind of a node. -/
def tagAt (t : PathTree) (i : NodeId) : String :=
  (((t.node? i).bind (·.primaryLanguage?)).map Language.linkTag).getD "swift"

/-- The tag is that of a language of the node, if it has any. -/
theorem tagAt_eq (t : PathTree) (i : NodeId) :
    (∃ l, t.hasLanguage i l = true ∧ t.tagAt i = l.linkTag) ∨
      ((∀ l, t.hasLanguage i l = false) ∧ t.tagAt i = "swift") := by
  cases hn : t.node? i with
  | none => exact .inr ⟨fun l => by simp [hasLanguage, hn], by simp [tagAt, hn]⟩
  | some n =>
    cases hl : n.primaryLanguage? with
    | some l =>
      have hmem : n.languages.contains l = true := by
        unfold Node.primaryLanguage? at hl
        split at hl
        · cases hl
          assumption
        · exact KeySet.mem_toList_iff.mp (List.mem_of_head? hl)
      exact .inl ⟨l, by simp [hasLanguage, hn, hmem], by simp [tagAt, hn, hl]⟩
    | none =>
      have hempty : n.languages.toList = [] := by
        unfold Node.primaryLanguage? at hl
        split at hl
        · cases hl
        · exact List.head?_eq_none_iff.mp hl
      refine .inr ⟨fun l => ?_, by simp [tagAt, hn, hl]⟩
      rw [← Bool.not_eq_true]
      simp [hasLanguage, hn, ← KeySet.mem_toList_iff, hempty]

/-- Links know the language tags of all nodes. -/
def TagsKnown (t : PathTree) : Prop :=
  ∀ i, ∃ l, Language.ofLinkTag? (t.tagAt i).toList = some l

/-- Links know the language tag of every node with a symbol, and the node has that
language. -/
def TagsFit (t : PathTree) : Prop := ∀ {i : Nat} {id : String}, t.symbolAt? i = some id →
  ∃ l, Language.ofLinkTag? (t.tagAt i).toList = some l ∧ t.hasLanguage i l = true

/-- What the segment of a node has behind the name. -/
def suffixText (t : PathTree) (i : NodeId) : Option Disambiguator → List Char
  | none => []
  | some (.hash h) => '-' :: h.toList
  | some (.kind k) => '-' :: ((t.tagAt i).toList ++ '.' :: k.toList)

theorem suffixText_eq_nil_iff {i : NodeId} {d : Option Disambiguator} :
    t.suffixText i d = [] ↔ d = none := by
  cases d with
  | none => simp [suffixText]
  | some d => cases d <;> simp [suffixText]

theorem toList_segment (t : PathTree) (name : String) (e : Entry) (d : Option Disambiguator) :
    (t.segment name e d).toList = name.toList ++ t.suffixText e.node d := by
  cases d with
  | none => simp [segment, suffixText]
  | some d => cases d <;> simp [segment, suffixText, tagAt]

section Text

variable {fits : Labelling} {es : List Entry} {e : Entry} {n : Node} {name : String}

/-- A character that stands in no kind and no hash stands in no suffix. -/
theorem not_mem_suffixText (hfits : Writable fits) (htags : TagsKnown t)
    (hes : HolderGroup t es ∨ SymbolGroup fits t es) (he : e ∈ es) {c : Char} (hdash : c ≠ '-')
    (hkind : Kind.isKindChar c = false) (hdigit : ShortHash.isDigit c = false) :
    c ∉ t.suffixText e.node (t.suffix? n name e) := by
  cases hsuffix : t.suffix? n name e with
  | none => exact List.not_mem_nil
  | some d =>
    have hd := (suffix?_eq_some_iff.mp hsuffix).2
    have hgroup := SymbolGroup.of_disambiguator? hes he hd
    cases d with
    | hash hash =>
      have hhash := ShortHash.not_mem_of_isHash (hgroup.isHash_hash hfits he hd) hdigit
      simp [suffixText, hdash, hhash]
    | kind kind =>
      obtain ⟨l, hl⟩ := htags e.node
      have hlower : c.isLower = false ∧ c ≠ '.' := by
        simpa [Kind.isKindChar] using hkind
      have htag := Language.not_mem_of_ofLinkTag? hl hlower.1
      have hknown := Kind.not_mem_of_known (hgroup.known_kind hfits he hd) hkind
      simp [suffixText, hdash, htag, hknown, hlower.2]

end Text

/-! ## Segments from the root down -/

/-- The segments on the way from the root to a node. -/
inductive At (t : PathTree) : NodeId → List String → Prop
  | root : At t root []
  | child {p : NodeId} {n : Node} {segs : List String} {name : String} {es : List Entry} {e : Entry}
      (above : At t p segs) (hn : t.node? p = some n) (hes : t.group? p name = some es)
      (he : e ∈ es) : At t e.node (segs ++ [t.segment name e (t.suffix? n name e)])

theorem At.eq_root {i : NodeId} (h : At t i []) : i = PathTree.root := by
  generalize hnil : ([] : List String) = segs at h
  cases h with
  | root => rfl
  | child => simp at hnil

/-- No name in the tree has a character. -/
def NamesLack (t : PathTree) (c : Char) : Prop :=
  ∀ {p : Nat} {name : String} {es : List Entry}, t.group? p name = some es → c ∉ name.toList

theorem At.not_mem {fits : Labelling} (hinv : Inv fits t) (hfits : Writable fits)
    (htags : TagsKnown t) {c : Char} (hnames : NamesLack t c) (hdash : c ≠ '-')
    (hkind : Kind.isKindChar c = false) (hdigit : ShortHash.isDigit c = false) {i : NodeId}
    {segs : List String} (h : At t i segs) : ∀ seg ∈ segs, c ∉ seg.toList := by
  induction h with
  | root =>
    intro seg hseg
    cases hseg
  | child above hn hes he ih =>
    intro seg hseg
    rcases List.mem_append.mp hseg with hseg | hseg
    · exact ih seg hseg
    · rw [List.mem_singleton.mp hseg, toList_segment, List.mem_append, not_or]
      exact ⟨hnames hes, not_mem_suffixText hfits htags (hinv.grouped _ _ _ hes) he hdash hkind hdigit⟩

/-! ## Canonical paths -/

/-- Segments written one after another, each behind a slash. -/
def urlPath (segs : List String) : String := segs.foldl (fun path seg => path ++ "/" ++ seg) ""

theorem urlPath_append (segs : List String) (seg : String) :
    urlPath (segs ++ [seg]) = urlPath segs ++ "/" ++ seg := by
  simp [urlPath]

theorem toList_urlPath (segs : List String) :
    (urlPath segs).toList = (segs.map String.toList).flatMap ('/' :: ·) := by
  induction segs using List.reverseRecOn with
  | nil => rfl
  | append_singleton segs seg ih => simp [urlPath_append, ih]

/-- Every recorded path is the one of the symbol's primary node. -/
def PathsAt (t : PathTree) (paths : KeyMap String String) : Prop :=
  ∀ {id path : String}, paths.get? id = some path →
    ∃ i segs, t.symbolAt? i = some id ∧ t.isPrimary i = true ∧ At t i segs ∧ path = urlPath segs

theorem PathsAt.recordPath {paths : KeyMap String String} (h : PathsAt t paths) {i : NodeId}
    {segs : List String} (hat : At t i segs) : PathsAt t (t.recordPath i (urlPath segs) paths) := by
  unfold PathTree.recordPath
  split
  · rename_i id hid
    split
    · rename_i hprimary
      intro id' path hget
      by_cases hsame : id' = id
      · rw [hsame, KeyMap.get?_insert_self] at hget
        cases hget
        exact ⟨i, segs, hsame ▸ hid, hprimary, hat, rfl⟩
      · rw [KeyMap.get?_insert_of_ne _ _ hsame] at hget
        exact h hget
    · exact h
  · exact h

theorem PathsAt.collectPaths (hrooted : Rooted t) {fuel : Nat} {i : NodeId} {segs : List String}
    {paths : KeyMap String String} (h : PathsAt t paths) (hat : At t i segs) :
    PathsAt t (t.collectPaths fuel i (urlPath segs) paths) := by
  induction fuel generalizing i segs paths with
  | zero => exact h
  | succ fuel ih =>
    unfold PathTree.collectPaths
    split
    · exact h
    · rename_i n hn
      refine List.foldlRecOn (motive := (PathsAt t ·)) _ _ h fun paths hpaths x hx => ?_
      have hchild : At t x.2 (segs ++ [x.1]) := by
        obtain ⟨name, es, e, hes, he, hi, hseg⟩ := hrooted.segment_of_mem hn hx
        rw [← hi, hseg]
        exact .child hat hn hes he
      show PathsAt t (t.collectPaths fuel x.2 (urlPath segs ++ "/" ++ x.1)
        (t.recordPath x.2 (urlPath segs ++ "/" ++ x.1) paths))
      rw [← urlPath_append]
      exact ih (hpaths.recordPath hchild) hchild

/-- The canonical path of a symbol is that of its primary node. -/
theorem at_of_canonicalPath (hrooted : Rooted t) {id path : String}
    (h : t.canonicalPaths.get? id = some path) : ∃ i segs, t.symbolAt? i = some id ∧ t.isPrimary i = true ∧ At t i segs ∧
      path = urlPath segs := by
  have hempty : PathsAt t ∅ := fun hget => nomatch hget
  exact (hempty.collectPaths hrooted .root) h

/-! ## Trees with one node for each symbol -/

/-- Every symbol has one node. -/
def NodesUnique (t : PathTree) : Prop :=
  ∀ {i j : Nat} {id : String}, t.symbolAt? i = some id → t.symbolAt? j = some id → i = j

theorem NodesUnique.isPrimary (h : NodesUnique t) (hindexed : Indexed t) {i : Nat}
    (hi : i < t.size) : t.isPrimary i = true := by
  obtain ⟨n, hn⟩ := exists_node hi
  cases hs : n.symbol with
  | none => simp [PathTree.isPrimary, hn, hs]
  | some id =>
    have hid : t.symbolAt? i = some id := (symbolAt?_of_node? hn).trans hs
    obtain ⟨j, hj⟩ := hindexed.exists_primary hid
    simp [PathTree.isPrimary, hn, hs, hj, h (hindexed.primary_mem hj) hid]

theorem NodesUnique.spellingsOf (h : NodesUnique t) (hindexed : Indexed t) (i : Nat) :
    t.spellingsOf i = [i] := by
  cases hs : t.symbolAt? i with
  | none => simp [PathTree.spellingsOf, hs]
  | some id =>
    have hall : ((t.spellings.get? id).getD []).filter (· != i) = [] := by
      refine List.filter_eq_nil_iff.mpr fun j hj => ?_
      simp [h (hindexed.mem_iff.mp hj) hs]
    simp [PathTree.spellingsOf, hs, hall]

end SymbolLinks.PathTree
