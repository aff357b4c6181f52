import SymbolLinks.Proofs.SnapshotTree
import SymbolLinks.Proofs.TreeDepth

/-! The tree that a snapshot is read as: its parents are the nodes that list a
node, its containers hold what the snapshot lists under a name, without
repetitions, and every node climbs to the root, so all walks over it end. -/
namespace SymbolLinks.Snapshot

open PathTree (root)

/-! ## Containers -/

section ListEntry

variable {es : List SnapshotEntry} {listed : List Entry}

theorem mem_nodes_listEntry {e : SnapshotEntry} {i : Nat} :
    i ∈ (listEntry listed e).map (·.node) ↔ i ∈ listed.map (·.node) ∨ i = e.node := by
  unfold listEntry
  split
  · rename_i h
    obtain ⟨e', he', heq⟩ := List.any_eq_true.mp h
    have hmem : e.node ∈ listed.map (·.node) := List.mem_map.mpr ⟨e', he', by simpa using heq⟩
    constructor
    · exact .inl
    · rintro (hi | rfl)
      · exact hi
      · exact hmem
  · simp

theorem mem_nodes_foldl_listEntry {i : Nat} : i ∈ (es.foldl listEntry listed).map (·.node) ↔
    i ∈ listed.map (·.node) ∨ ∃ e ∈ es, e.node = i := by
  induction es generalizing listed with
  | nil => simp
  | cons e es ih =>
    rw [List.foldl_cons, ih, mem_nodes_listEntry, or_assoc]
    simp [eq_comm]

theorem nodup_listEntry {e : SnapshotEntry} (h : (listed.map (·.node)).Nodup) :
    ((listEntry listed e).map (·.node)).Nodup := by
  unfold listEntry
  split
  · exact h
  · rename_i hnew
    rw [List.map_append, List.map_singleton]
    refine List.nodup_append.mpr ⟨h, by simp, ?_⟩
    intro i hi j hj hij
    cases List.mem_singleton.mp hj
    obtain ⟨e', he', rfl⟩ := List.mem_map.mp hi
    exact hnew (List.any_eq_true.mpr ⟨e', he', by simpa using hij⟩)

theorem nodup_foldl_listEntry (h : (listed.map (·.node)).Nodup) :
    ((es.foldl listEntry listed).map (·.node)).Nodup :=
  List.foldlRecOn (motive := fun listed => (listed.map (·.node)).Nodup) es listEntry h
    fun _ h _ _ => nodup_listEntry h

/-- Entries of different nodes are all listed, in their order. -/
theorem foldl_listEntry_eq (name : String) (new : List Entry)
    (h : ((listed ++ new).map (·.node)).Nodup) :
    (new.map (SnapshotEntry.ofEntry name)).foldl listEntry listed = listed ++ new := by
  induction new generalizing listed with
  | nil => simp
  | cons e new ih =>
    have hnew : listed.any (·.node == e.node) = false := by
      refine List.any_eq_false.mpr fun e' he' heq => ?_
      rw [List.map_append] at h
      exact (List.nodup_append.mp h).2.2 e'.node (List.mem_map.mpr ⟨e', he', rfl⟩) e.node
        (List.mem_map.mpr ⟨e, by simp, rfl⟩) (by simpa using heq)
    have hsnoc : listed ++ e :: new = (listed ++ [e]) ++ new := by simp
    have hstep : listEntry listed (.ofEntry name e) = listed ++ [e] :=
      if_neg (by rw [← Bool.not_eq_true] at hnew; exact hnew)
    rw [List.map_cons, List.foldl_cons, hstep, hsnoc]
    exact ih (hsnoc ▸ h)

end ListEntry

theorem get?_childrenOf (es : List SnapshotEntry) (name : String) : (childrenOf es).get? name =
    if es.filter (·.name = name) = [] then none
    else some ((es.filter (·.name = name)).foldl listEntry []) :=
  KeyMap.get?_foldl_alter (fun e : SnapshotEntry => e.name) listEntry [] name es ∅

/-- What a container holds: the nodes listed under its name, each once. -/
theorem childrenOf_group {es : List SnapshotEntry} {name : String} {g : List Entry}
    (h : (childrenOf es).get? name = some g) : g ≠ [] ∧ (g.map (·.node)).Nodup ∧
      ∀ i, i ∈ g.map (·.node) ↔ ∃ e ∈ es, e.name = name ∧ e.node = i := by
  rw [get?_childrenOf] at h
  split at h
  · cases h
  · rename_i hne
    cases h
    have hmem : ∀ i, i ∈ ((es.filter (·.name = name)).foldl listEntry []).map (·.node) ↔
        ∃ e ∈ es, e.name = name ∧ e.node = i := by
      intro i
      rw [mem_nodes_foldl_listEntry]
      simp [and_assoc]
    refine ⟨?_, nodup_foldl_listEntry List.nodup_nil, hmem⟩
    obtain ⟨e, he⟩ := List.exists_mem_of_ne_nil _ hne
    obtain ⟨he, hname⟩ := List.mem_filter.mp he
    intro hnil
    have := (hmem e.node).mpr ⟨e, he, by simpa using hname, rfl⟩
    rw [hnil] at this
    cases this

/-! ## Views of the restored tree -/

section Restored

variable {s : Snapshot} {parents : Parents}

theorem node?_restoredTree (i : Nat) : (s.restoredTree parents).node? i =
    s.nodes[i]?.map fun n => restored s.symbols n (parents[i]?.join) := by
  simp only [PathTree.node?, restoredTree, restoredNodes, List.getElem?_toArray, List.getElem?_map,
    List.getElem?_zipIdx, Option.map_map]
  cases s.nodes[i]? <;> simp

theorem size_restoredTree : (s.restoredTree parents).size = s.nodes.length := by
  simp [PathTree.size, restoredTree, restoredNodes]

theorem parentAt?_restoredTree (h : Noted s.nodes.length (links s.nodes) parents) {p c : Nat} :
    (s.restoredTree parents).parentAt? c = some p ↔ Lists s.nodes p c := by
  rw [PathTree.parentAt?, node?_restoredTree, ← mem_links_iff, ← h.exact]
  constructor
  · intro hp
    cases hn : s.nodes[c]? with
    | none => rw [hn] at hp; cases hp
    | some n =>
      rw [hn] at hp
      exact Option.join_eq_some_iff.mp hp
  · intro hp
    have hlt := (h.range p c ((h.exact p c).mp hp)).2
    rw [List.getElem?_eq_getElem hlt, hp]
    rfl

theorem group?_restoredTree {p : Nat} {name : String} {g : List Entry}
    (h : (s.restoredTree parents).group? p name = some g) : g ≠ [] ∧ (g.map (·.node)).Nodup ∧
      ∀ i ∈ g.map (·.node), Lists s.nodes p i := by
  rw [PathTree.group?, node?_restoredTree] at h
  cases hn : s.nodes[p]? with
  | none => rw [hn] at h; cases h
  | some n =>
    rw [hn] at h
    obtain ⟨hne, hnodup, hmem⟩ := childrenOf_group h
    refine ⟨hne, hnodup, fun i hi => ?_⟩
    obtain ⟨e, he, _, rfl⟩ := (hmem i).mp hi
    exact (lists_iff_of_getElem? hn).mpr ⟨e, he, rfl⟩

/-- Every entry of the snapshot stands in a container. -/
theorem exists_group?_of_lists {p c : Nat} (h : Lists s.nodes p c) :
    ∃ name g, (s.restoredTree parents).group? p name = some g ∧ ∃ e ∈ g, e.node = c := by
  obtain ⟨n, hn⟩ : ∃ n, s.nodes[p]? = some n := ⟨_, List.getElem?_eq_getElem h.parent_lt⟩
  obtain ⟨e, he, rfl⟩ := (lists_iff_of_getElem? hn).mp h
  have hfiltered : e ∈ n.children.filter (·.name = e.name) := List.mem_filter.mpr ⟨he, by simp⟩
  have hg : (childrenOf n.children).get? e.name =
      some ((n.children.filter (·.name = e.name)).foldl listEntry []) := by
    rw [get?_childrenOf, if_neg (List.ne_nil_of_mem hfiltered)]
  refine ⟨e.name, (n.children.filter (·.name = e.name)).foldl listEntry [], ?_, ?_⟩
  · rw [PathTree.group?, node?_restoredTree, hn]
    exact hg
  · have := ((childrenOf_group hg).2.2 e.node).mpr ⟨e, he, rfl, rfl⟩
    exact List.mem_map.mp this

/-- A node that can be reached climbs to the root. -/
theorem climb_of_reachable (h : Noted s.nodes.length (links s.nodes) parents) {i : Nat}
    (hi : Relation.ReflTransGen (Lists s.nodes) 0 i) :
    ∃ k, (s.restoredTree parents).climb k i = some root := by
  -- the last entry of the way down is the first step up
  induction hi with
  | refl => exact ⟨0, rfl⟩
  | tail _ hlast ih =>
    obtain ⟨k, hk⟩ := ih
    exact ⟨k + 1, PathTree.climb_child ((parentAt?_restoredTree h).mpr hlast) hk⟩

theorem grounded_restoredTree (h : Noted s.nodes.length (links s.nodes) parents)
    (htree : s.IsTree) : (s.restoredTree parents).Grounded where
  root_lt := by
    rw [size_restoredTree]
    exact List.length_pos_of_ne_nil htree.nonempty
  root_parent := by
    cases hp : (s.restoredTree parents).parentAt? root with
    | none => rfl
    | some p => exact absurd rfl (htree.child_range p 0 ((parentAt?_restoredTree h).mp hp)).1
  climbs := by
    intro i hi
    rw [size_restoredTree] at hi
    exact climb_of_reachable h (htree.reachable i hi)
  below := by
    intro p name g hg e he
    exact (parentAt?_restoredTree h).mpr
      ((group?_restoredTree hg).2.2 e.node (List.mem_map.mpr ⟨e, he, rfl⟩))

end Restored

/-- In a tree every node but the root is listed. -/
theorem IsTree.exists_parent {s : Snapshot} (h : s.IsTree) {c : Nat} (hc : c < s.nodes.length)
    (hne : c ≠ 0) : ∃ p, Lists s.nodes p c := by
  cases (Relation.ReflTransGen.cases_tail_iff _ _ _).mp (h.reachable c hc) with
  | inl heq => exact absurd heq hne
  | inr hlast =>
    obtain ⟨p, _, hp⟩ := hlast
    exact ⟨p, hp⟩

/-- Reading a snapshot accepts exactly the trees, whatever its lists hold. In the
tree that it gives, parents are the nodes that list a node, every climb comes to
the root in fewer steps than there are nodes, and no walk over the tree runs out
of fuel. -/
theorem toTree_accepts_trees (s : Snapshot) :
    ((∃ t, s.toTree = .ok t) ↔ s.IsTree) ∧
    ∀ t, s.toTree = .ok t →
      t.size = s.nodes.length ∧ t.parentAt? root = none ∧
      (∀ c < t.size, c ≠ root → ∃ p, t.parentAt? c = some p ∧ ∀ q, Lists s.nodes q c ↔ q = p) ∧
      (∀ i < t.size, ∃ k < t.size, t.climb k i = some root) ∧
      (∀ i < t.size, ∀ extra, t.lineageUpTo (t.size + extra) i = t.lineage i) ∧
      (∀ extra, t.collectPaths (t.size + extra) root "" ∅ = t.canonicalPaths) ∧
      (∀ i < t.size, ∀ extra indent,
        t.outlineBelow (t.size + extra) i indent = t.outlineBelow t.size i indent) := by
  refine ⟨exists_toTree_iff s, fun t ht => ?_⟩
  obtain ⟨parents, hparents, htree, rfl⟩ := toTree_ok_iff.mp ht
  have hnoted := parentsOf_ok hparents
  have hgrounded := grounded_restoredTree hnoted htree
  refine ⟨size_restoredTree, hgrounded.root_parent, ?_, fun i hi => hgrounded.exists_depth hi,
    fun i hi => hgrounded.lineage_fuel hi, hgrounded.canonicalPaths_fuel,
    fun i hi => hgrounded.outline_fuel hi⟩
  intro c hc hne
  rw [size_restoredTree] at hc
  obtain ⟨p, hp⟩ := htree.exists_parent hc hne
  refine ⟨p, (parentAt?_restoredTree hnoted).mpr hp, fun q => ⟨fun hq => ?_, fun hq => hq ▸ hp⟩⟩
  exact htree.one_parent q p c hq hp

/-- A snapshot as nobody writes it: a node comes before its parent and is listed
twice, a symbol is entered twice, and another one's primary node is not its own. -/
def rearranged : Snapshot where
  bundle := "org.example.Kit"
  nodes := [{ name := "", children := [{ name := "Kit", node := 2 }] },
    { name := "Leaf", symbol := some 0 },
    { name := "Kit", children := [{ name := "Leaf", node := 1 }, { name := "Leaf", node := 1 }] }]
  symbols := [⟨"s:Leaf", 2⟩, ⟨"s:Twig", 2⟩, ⟨"s:Leaf", 1⟩]
  version := 1

theorem isTree_rearranged : rearranged.IsTree where
  nonempty := by decide
  child_range := by
    have hrange : ∀ p < 3, ∀ c ∈ childNodes rearranged.nodes p, c ≠ 0 ∧ c < 3 := by decide
    intro p c h
    exact hrange p h.parent_lt c h
  one_parent := by
    have hone : ∀ p < 3, ∀ q < 3, ∀ c ∈ childNodes rearranged.nodes p,
        c ∈ childNodes rearranged.nodes q → p = q := by decide
    intro p q c hp hq
    exact hone p hp.parent_lt q hq.parent_lt c hp hq
  reachable := by
    have hkit : Relation.ReflTransGen (Lists rearranged.nodes) 0 2 := .single (by decide)
    intro i hi
    match i with
    | 0 => exact .refl
    | 1 => exact hkit.tail (by decide)
    | 2 => exact hkit
    | k + 3 => exact absurd hi (Nat.not_lt.mpr (Nat.le_add_left 3 k))
  primary_range := by decide
  symbol_range := by simp [rearranged]

theorem toTree_accepts_rearranged : ∃ t, rearranged.toTree = .ok t ∧
    t.size = 3 ∧ t.parentAt? root = none ∧ t.parentAt? 1 = some 2 := by
  obtain ⟨haccepts, htree⟩ := toTree_accepts_trees rearranged
  obtain ⟨t, ht⟩ := haccepts.mpr isTree_rearranged
  obtain ⟨hsize, hroot, hparent, _⟩ := htree t ht
  refine ⟨t, ht, hsize, hroot, ?_⟩
  obtain ⟨p, hp, honly⟩ := hparent 1 (by rw [hsize]; decide) (by decide)
  rw [hp, (honly 2).mp (by decide)]

end SymbolLinks.Snapshot
