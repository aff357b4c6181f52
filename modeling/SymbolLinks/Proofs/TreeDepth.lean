import Mathlib.Data.Finset.Range
import Mathlib.Data.Finset.Card
import SymbolLinks.Proofs.TreeInvariant
import SymbolLinks.Tree.CanonicalPath
import SymbolLinks.Tree.Outline

/-! Depth, and why the walks over a tree end. Where every node climbs to the root,
no climb visits a node twice, so it takes fewer steps than there are nodes. The
walks that carry fuel are given as much fuel as there are nodes: more fuel changes
none of them. -/
namespace SymbolLinks.PathTree

/-- The node that is `k` steps above a node. -/
def climb (t : PathTree) : Nat → NodeId → Option NodeId
  | 0, i => some i
  | k + 1, i => (t.parentAt? i).bind (t.climb k)

/-- Every node climbs to the root, and what is listed below a node has it as its
parent. -/
structure Grounded (t : PathTree) : Prop where
  root_lt : root < t.size
  root_parent : t.parentAt? root = none
  climbs : ∀ {i : Nat}, i < t.size → ∃ k, t.climb k i = some root
  below : ∀ {p : Nat} {name : String} {es : List Entry}, t.group? p name = some es →
    ∀ e ∈ es, t.parentAt? e.node = some p

theorem Rooted.grounded {t : PathTree} (h : Rooted t) : Grounded t where
  root_lt := h.root_lt
  root_parent := h.root_parent
  climbs := by
    intro i
    induction i using Nat.strong_induction_on with
    | _ i ih =>
      intro hi
      by_cases hroot : i = root
      · exact ⟨0, by rw [hroot]; rfl⟩
      · obtain ⟨p, hp, hlt⟩ := h.parent_lt hi hroot
        obtain ⟨k, hk⟩ := ih p hlt (Nat.lt_trans hlt hi)
        exact ⟨k + 1, by simp [climb, hp, hk]⟩
  below := fun hg e he => (h.below hg e he).1

/-! ## Depth -/

section Depth

variable {t : PathTree}

theorem climb_add (t : PathTree) (a b : Nat) (i : NodeId) :
    t.climb (a + b) i = (t.climb a i).bind (t.climb b) := by
  induction a generalizing i with
  | zero => simp [climb]
  | succ a ih =>
    rw [Nat.succ_add]
    simp only [climb]
    cases t.parentAt? i with
    | none => rfl
    | some p => exact ih p

/-- The root is above a node at one distance only, for nothing is above the root. -/
theorem climb_root_unique (hroot : t.parentAt? root = none) {k m : Nat} {i : Nat}
    (hk : t.climb k i = some root) (hm : t.climb m i = some root) : k = m := by
  induction k generalizing i m with
  | zero =>
    cases hk
    cases m with
    | zero => rfl
    | succ m => simp [climb, hroot] at hm
  | succ k ih =>
    cases m with
    | zero =>
      cases hm
      simp [climb, hroot] at hk
    | succ m =>
      obtain ⟨p, hp, hk⟩ := Option.bind_eq_some_iff.mp hk
      obtain ⟨q, hq, hm⟩ := Option.bind_eq_some_iff.mp hm
      cases hp.symm.trans hq
      rw [ih hk hm]

theorem lt_size_of_climb (hroot : root < t.size) {k : Nat} {i : Nat}
    (hk : t.climb k i = some root) : i < t.size := by
  cases k with
  | zero =>
    cases hk
    exact hroot
  | succ k =>
    obtain ⟨p, hp, _⟩ := Option.bind_eq_some_iff.mp hk
    exact lt_size_of_parentAt? hp

/-- Nodes at different heights of one climb differ, so a climb is shorter than the
number of nodes. -/
theorem Grounded.climb_lt (h : Grounded t) {k : Nat} {i : Nat} (hk : t.climb k i = some root) :
    k < t.size := by
  have hsplit : ∀ a ≤ k, ∃ j : Nat, t.climb a i = some j ∧ t.climb (k - a) j = some root := by
    intro a ha
    rw [← Nat.add_sub_cancel' ha, climb_add] at hk
    exact Option.bind_eq_some_iff.mp hk
  choose! visited hvisited hrest using hsplit
  have hinj : ∀ a ≤ k, ∀ b ≤ k, visited a = visited b → a = b := by
    intro a ha b hb hab
    have hb' := hrest b hb
    rw [← hab] at hb'
    have := climb_root_unique h.root_parent (hrest a ha) hb'
    omega
  have hcard : (Finset.range (k + 1)).card ≤ (Finset.range t.size).card := by
    refine Finset.card_le_card_of_injOn visited ?_ ?_
    · intro a ha
      have ha : a ≤ k := Nat.lt_succ_iff.mp (Finset.mem_range.mp ha)
      exact Finset.mem_coe.mpr (Finset.mem_range.mpr (lt_size_of_climb h.root_lt (hrest a ha)))
    · intro a ha b hb hab
      exact hinj a (Nat.lt_succ_iff.mp (Finset.mem_range.mp ha)) b
        (Nat.lt_succ_iff.mp (Finset.mem_range.mp hb)) hab
  rw [Finset.card_range, Finset.card_range] at hcard
  exact hcard

/-- Every node reaches the root in fewer steps than there are nodes. -/
theorem Grounded.exists_depth (h : Grounded t) {i : Nat} (hi : i < t.size) :
    ∃ k < t.size, t.climb k i = some root := by
  obtain ⟨k, hk⟩ := h.climbs hi
  exact ⟨k, h.climb_lt hk, hk⟩

/-- A child is one step deeper than its parent. -/
theorem climb_child {c p : Nat} {k : Nat} (hc : t.parentAt? c = some p)
    (hp : t.climb k p = some root) : t.climb (k + 1) c = some root := by
  simp [climb, hc, hp]

end Depth

/-! ## Climbing with fuel -/

theorem lineageUpTo_eq {t : PathTree} (hroot : t.parentAt? root = none) {k f g : Nat} {i : Nat}
    (hk : t.climb k i = some root) (hf : k < f) (hg : k < g) :
    t.lineageUpTo f i = t.lineageUpTo g i := by
  induction k generalizing i f g with
  | zero =>
    cases hk
    obtain ⟨f, rfl⟩ := Nat.exists_eq_add_of_lt hf
    obtain ⟨g, rfl⟩ := Nat.exists_eq_add_of_lt hg
    have hnone : (t.node? root).bind (·.parent) = none := hroot
    simp only [lineageUpTo, hnone]
  | succ k ih =>
    obtain ⟨p, hp, hk⟩ := Option.bind_eq_some_iff.mp hk
    have hsome : (t.node? i).bind (·.parent) = some p := hp
    cases f with
    | zero => exact absurd hf (Nat.not_lt_zero _)
    | succ f =>
      cases g with
      | zero => exact absurd hg (Nat.not_lt_zero _)
      | succ g =>
        simp only [lineageUpTo, hsome]
        rw [ih hk (Nat.lt_of_succ_lt_succ hf) (Nat.lt_of_succ_lt_succ hg)]

/-- More fuel does not lengthen the climb that a display path and the search for a
relative origin follow. -/
theorem Grounded.lineage_fuel {t : PathTree} (h : Grounded t) {i : Nat} (hi : i < t.size) (extra : Nat) :
    t.lineageUpTo (t.size + extra) i = t.lineage i := by
  obtain ⟨k, hlt, hk⟩ := h.exists_depth hi
  exact lineageUpTo_eq h.root_parent hk (by omega) hlt

theorem Rooted.lineage_child {t : PathTree} (h : Rooted t) {i p : NodeId} (hp : t.parentAt? i = some p) :
    t.lineage i = i :: t.lineage p := by
  have hi := lt_size_of_parentAt? hp
  have hsize : p < t.size := by
    obtain ⟨q, hq, hlt⟩ := h.parent_lt hi (h.ne_root hp)
    cases hp.symm.trans hq
    exact Nat.lt_trans hlt hi
  obtain ⟨k, -, hk⟩ := h.grounded.exists_depth hsize
  have hlt := h.grounded.climb_lt (climb_child hp hk)
  obtain ⟨m, hm⟩ : ∃ m, t.size = m + 1 := ⟨t.size - 1, by omega⟩
  have hparent : (t.node? i).bind (·.parent) = some p := hp
  rw [lineage, hm, lineageUpTo, hparent, lineage,
    lineageUpTo_eq h.root_parent hk (by omega) (by omega : k < m)]

/-! ## Going down with fuel -/

theorem mem_namedEntries_iff {n : Node} {name : String} {e : Entry} :
    (name, e) ∈ namedEntries n ↔ ∃ es, n.children.get? name = some es ∧ e ∈ es := by
  simp [namedEntries, KeyMap.mem_entries_iff]

/-- A group holds all entries whose names agree without regard to case. -/
theorem mem_caseGroups_iff {n : Node} {g : List (String × Entry)} :
    g ∈ caseGroups n ↔
      g ≠ [] ∧ ∃ k, g = (namedEntries n).filter (Text.lowercase ·.1 = k) := by
  simp only [caseGroups, KeyMap.values, List.mem_map, Prod.exists, exists_eq_right,
    KeyMap.mem_entries_iff]
  have hget := fun k => KeyMap.get?_foldl_group (fun a : String × Entry => Text.lowercase a.1)
    (fun a => a) k (namedEntries n)
  simp only [List.map_id'] at hget
  constructor
  · rintro ⟨k, hg⟩
    rw [hget] at hg
    split at hg
    · cases hg
    · rename_i hne
      cases hg
      exact ⟨hne, k, rfl⟩
  · rintro ⟨hne, k, rfl⟩
    exact ⟨k, by rw [hget, if_neg hne]⟩

/-- Grouping by case loses no entry and invents none. -/
theorem exists_mem_caseGroups_iff {n : Node} {name : String} {e : Entry} :
    (∃ g ∈ caseGroups n, (name, e) ∈ g) ↔ ∃ es, n.children.get? name = some es ∧ e ∈ es := by
  rw [← mem_namedEntries_iff]
  constructor
  · rintro ⟨g, hg, hmem⟩
    obtain ⟨-, k, rfl⟩ := mem_caseGroups_iff.mp hg
    exact (List.mem_filter.mp hmem).1
  · intro hmem
    have hfiltered : (name, e) ∈ (namedEntries n).filter
        (Text.lowercase ·.1 = Text.lowercase name) := List.mem_filter.mpr ⟨hmem, by simp⟩
    exact ⟨_, mem_caseGroups_iff.mpr ⟨List.ne_nil_of_mem hfiltered, _, rfl⟩, hfiltered⟩

/-- The nodes with a URL segment are the nodes that are listed. -/
theorem exists_mem_segments_iff {t : PathTree} {n : Node} {c : Nat} :
    (∃ seg, (seg, c) ∈ t.segments n) ↔
      c < t.size ∧ ∃ name es, n.children.get? name = some es ∧ ∃ e ∈ es, e.node = c := by
  simp only [segments, List.mem_flatMap, List.mem_filterMap, Prod.exists, Option.map_eq_some_iff,
    Prod.mk.injEq]
  constructor
  · rintro ⟨seg, g, hg, name, e, he, m, hm, _, rfl⟩
    obtain ⟨es, hes, he⟩ := exists_mem_caseGroups_iff.mp ⟨g, hg, he⟩
    exact ⟨lt_size hm, name, es, hes, e, he, rfl⟩
  · rintro ⟨hlt, name, es, hes, e, he, rfl⟩
    obtain ⟨g, hg, hmem⟩ := exists_mem_caseGroups_iff.mpr ⟨es, hes, he⟩
    obtain ⟨m, hm⟩ := exists_node hlt
    exact ⟨_, g, hg, name, e, hmem, m, hm, rfl, rfl⟩

theorem mem_labelledChildren {t : PathTree} {i : Nat} {label : String} {c : Nat}
    (h : (label, c) ∈ t.labelledChildren i) :
    ∃ name es, t.group? i name = some es ∧ ∃ e ∈ es, e.node = c := by
  simp only [labelledChildren, List.mem_mergeSort] at h
  cases hn : t.node? i with
  | none => simp [hn] at h
  | some n =>
    simp only [hn, Option.elim_some, List.mem_flatMap, List.mem_map, Prod.exists,
      KeyMap.mem_entries_iff] at h
    obtain ⟨name, es, hes, e, he, heq⟩ := h
    refine ⟨name, es, (group?_of_node? hn name).trans hes, e, he, ?_⟩
    split at heq
    · exact (Prod.mk.inj heq).2
    · exact (Prod.mk.inj heq).2

section Down

variable {t : PathTree}

/-- With fuel for the levels below a node, more fuel changes nothing. -/
theorem Grounded.collectPaths_eq (h : Grounded t) {f g d : Nat} {i : Nat}
    (hd : t.climb d i = some root) (hf : t.size ≤ f + d) (hg : t.size ≤ g + d) (path : String)
    (paths : KeyMap String String) : t.collectPaths f i path paths = t.collectPaths g i path paths := by
  induction f generalizing i g d path paths with
  | zero => exact absurd (h.climb_lt hd) (by omega)
  | succ f ih =>
    cases g with
    | zero => exact absurd (h.climb_lt hd) (by omega)
    | succ g =>
      simp only [collectPaths]
      cases hn : t.node? i with
      | none => rfl
      | some n =>
        refine List.foldl_ext _ _ _ fun acc seg hseg => ?_
        obtain ⟨_, name, es, hes, e, he, hec⟩ := exists_mem_segments_iff.mp ⟨seg.1, hseg⟩
        have hgroup : t.group? i name = some es := (group?_of_node? hn name).trans hes
        have hparent : t.parentAt? seg.2 = some i := hec ▸ h.below hgroup e he
        exact ih (climb_child hparent hd) (by omega) (by omega) _ _

theorem Grounded.canonicalPaths_fuel (h : Grounded t) (extra : Nat) :
    t.collectPaths (t.size + extra) root "" ∅ = t.canonicalPaths :=
  h.collectPaths_eq (rfl : t.climb 0 root = some root) (by omega) (by omega) _ _

theorem Grounded.outlineBelow_eq (h : Grounded t) {f g d : Nat} {i : Nat}
    (hd : t.climb d i = some root) (hf : t.size ≤ f + d) (hg : t.size ≤ g + d) (indent : String) :
    t.outlineBelow f i indent = t.outlineBelow g i indent := by
  induction f generalizing i g d indent with
  | zero => exact absurd (h.climb_lt hd) (by omega)
  | succ f ih =>
    cases g with
    | zero => exact absurd (h.climb_lt hd) (by omega)
    | succ g =>
      simp only [outlineBelow]
      refine List.flatMap_congr fun x hx => ?_
      obtain ⟨k, hk, rfl⟩ := List.mem_mapIdx.mp hx
      obtain ⟨name, es, hgr, e, he, hec⟩ := mem_labelledChildren (List.getElem_mem hk)
      have hparent : t.parentAt? ((t.labelledChildren i)[k]).2 = some i := hec ▸ h.below hgr e he
      have hchild := climb_child hparent hd
      rw [ih hchild (by omega) (by omega : t.size ≤ g + (d + 1))]

theorem Grounded.outline_fuel (h : Grounded t) {i : Nat} (hi : i < t.size) (extra : Nat)
    (indent : String) : t.outlineBelow (t.size + extra) i indent = t.outlineBelow t.size i indent := by
  obtain ⟨d, _, hd⟩ := h.exists_depth hi
  exact h.outlineBelow_eq hd (by omega) (by omega) indent

end Down

end SymbolLinks.PathTree
