import Mathlib.Logic.Relation
import SymbolLinks.Proofs.ExceptLaws
import SymbolLinks.Proofs.KeyMapLaws
import SymbolLinks.Snapshot

/-! Reading a snapshot accepts exactly the trees. Each check of `toTree` has one
lemma that says when it passes and what it then returns: the table of parents
(`parentsOf_ok`, `parentsOf_total`), the search from the root (`orphan?_eq_none_iff`),
the primary nodes and the symbols of the nodes. -/
namespace SymbolLinks.Snapshot

/-- Node `p` has an entry for node `c`. -/
def Lists (nodes : List SnapshotNode) (p c : Nat) : Prop := c ∈ childNodes nodes p

instance (nodes : List SnapshotNode) (p c : Nat) : Decidable (Lists nodes p c) :=
  inferInstanceAs (Decidable (c ∈ childNodes nodes p))

/-- What makes a snapshot a tree. -/
structure IsTree (s : Snapshot) : Prop where
  /-- There is a root. -/
  nonempty : s.nodes ≠ []
  /-- No entry is for the root or for a node that does not exist. -/
  child_range : ∀ p c, Lists s.nodes p c → c ≠ 0 ∧ c < s.nodes.length
  /-- No two nodes list the same node. -/
  one_parent : ∀ p q c, Lists s.nodes p c → Lists s.nodes q c → p = q
  /-- Every node can be reached from the root along entries. -/
  reachable : ∀ i < s.nodes.length, Relation.ReflTransGen (Lists s.nodes) 0 i
  primary_range : ∀ sym ∈ s.symbols, sym.primaryNode < s.nodes.length
  symbol_range : ∀ n ∈ s.nodes, ∀ k, n.symbol = some k → k < s.symbols.length

theorem lists_iff_of_getElem? {nodes : List SnapshotNode} {p : Nat} {n : SnapshotNode}
    (hn : nodes[p]? = some n) {c : Nat} : Lists nodes p c ↔ ∃ e ∈ n.children, e.node = c := by
  simp [Lists, childNodes, hn]

/-- Only nodes list something. -/
theorem Lists.parent_lt {nodes : List SnapshotNode} {p c : Nat} (h : Lists nodes p c) :
    p < nodes.length := by
  unfold Lists childNodes at h
  cases hn : nodes[p]? with
  | none => simp [hn] at h
  | some n =>
    obtain ⟨hlt, _⟩ := List.getElem?_eq_some_iff.mp hn
    exact hlt

theorem mem_links_iff {nodes : List SnapshotNode} {p c : Nat} :
    (p, c) ∈ links nodes ↔ Lists nodes p c := by
  simp only [links, List.mem_flatMap, Prod.exists, List.mem_zipIdx_iff_getElem?, List.mem_map,
    Prod.mk.injEq]
  constructor
  · rintro ⟨n, i, hn, e, he, rfl, rfl⟩
    exact (lists_iff_of_getElem? hn).mpr ⟨e, he, rfl⟩
  · intro h
    have hn := List.getElem?_eq_getElem h.parent_lt
    obtain ⟨e, he, rfl⟩ := (lists_iff_of_getElem? hn).mp h
    exact ⟨_, p, hn, e, he, rfl, rfl⟩

/-! ## The table of parents -/

/-- The table that is right for the links seen so far. -/
structure Noted (count : Nat) (seen : List (Nat × Nat)) (parents : Parents) : Prop where
  size : parents.size = count
  exact : ∀ p c, parents[c]? = some (some p) ↔ (p, c) ∈ seen
  range : ∀ p c, (p, c) ∈ seen → c ≠ 0 ∧ c < count

section Noted

variable {count : Nat} {seen : List (Nat × Nat)} {parents parents' : Parents} {p c : Nat}

/-- In a right table no node has two parents. -/
theorem Noted.unique (h : Noted count seen parents) {q : Nat} (hp : (p, c) ∈ seen)
    (hq : (q, c) ∈ seen) : p = q := by
  have hp := (h.exact p c).mpr hp
  have hq := (h.exact q c).mpr hq
  rw [hp] at hq
  cases hq
  rfl

theorem noted_replicate (count : Nat) : Noted count [] (Array.replicate count none) where
  size := Array.size_replicate
  exact := by
    intro p c
    simp only [List.not_mem_nil, iff_false]
    intro h
    have hmem := Array.mem_of_getElem? h
    simp at hmem
  range := by intro p c h; cases h

theorem Noted.congr {seen' : List (Nat × Nat)} (h : Noted count seen parents)
    (hs : ∀ x, x ∈ seen' ↔ x ∈ seen) : Noted count seen' parents where
  size := h.size
  exact := by intro p c; rw [hs]; exact h.exact p c
  range := by intro p c hm; rw [hs] at hm; exact h.range p c hm

/-- A link that passes is in range and agrees with the links before it. -/
theorem Noted.noteParent_ok (h : Noted count seen parents)
    (hok : noteParent parents (p, c) = .ok parents') :
    Noted count (seen ++ [(p, c)]) parents' := by
  simp only [noteParent] at hok
  split at hok
  · cases hok
  · rename_i hrange
    rw [h.size, not_or, Nat.not_le] at hrange
    split at hok
    · rename_i q hq
      split at hok
      · rename_i hqp
        cases hok
        subst hqp
        have hseen := (h.exact q c).mp hq
        refine h.congr fun x => ?_
        rw [List.mem_append, List.mem_singleton, or_iff_left_iff_imp]
        rintro rfl
        exact hseen
      · cases hok
    · rename_i hnone
      cases hok
      refine ⟨by rw [Array.size_setIfInBounds, h.size], ?_, ?_⟩
      · intro q d
        rw [List.mem_append, List.mem_singleton, Prod.mk.injEq, ← h.exact,
          Array.getElem?_setIfInBounds]
        by_cases hd : c = d
        · subst hd
          rw [if_pos rfl, if_pos (h.size ▸ hrange.2)]
          have hno : ¬ parents[c]? = some (some q) := fun hq => hnone q hq
          simp [hno, eq_comm]
        · rw [if_neg hd]
          simp [Ne.symm hd]
      · intro q d hm
        rcases List.mem_append.mp hm with hm | hm
        · exact h.range q d hm
        · cases List.mem_singleton.mp hm
          exact hrange

/-- A link in range that agrees with the links before it passes. -/
theorem Noted.noteParent_total (h : Noted count seen parents) (hrange : c ≠ 0 ∧ c < count)
    (hagree : ∀ q, (q, c) ∈ seen → q = p) : ∃ parents', noteParent parents (p, c) = .ok parents' := by
  simp only [noteParent]
  rw [if_neg (by rw [h.size, not_or, Nat.not_le]; exact hrange)]
  split
  · rename_i q hq
    rw [if_pos (hagree q ((h.exact q c).mp hq))]
    exact ⟨_, rfl⟩
  · exact ⟨_, rfl⟩

theorem Noted.foldlM_ok (links : List (Nat × Nat)) (h : Noted count seen parents)
    (hok : links.foldlM noteParent parents = .ok parents') :
    Noted count (seen ++ links) parents' := by
  induction links generalizing seen parents with
  | nil =>
    cases hok
    rw [List.append_nil]
    exact h
  | cons link links ih =>
    obtain ⟨p, c⟩ := link
    rw [List.foldlM_cons] at hok
    cases hnote : noteParent parents (p, c) with
    | error e => rw [hnote] at hok; cases hok
    | ok next =>
      rw [hnote] at hok
      have := ih (h.noteParent_ok hnote) hok
      rwa [List.append_assoc, List.singleton_append] at this

theorem Noted.foldlM_total (links : List (Nat × Nat)) (h : Noted count seen parents)
    (hrange : ∀ p c, (p, c) ∈ links → c ≠ 0 ∧ c < count)
    (hone : ∀ p q c, (p, c) ∈ seen ++ links → (q, c) ∈ seen ++ links → p = q) :
    ∃ parents', links.foldlM noteParent parents = .ok parents' := by
  induction links generalizing seen parents with
  | nil => exact ⟨parents, rfl⟩
  | cons link links ih =>
    obtain ⟨p, c⟩ := link
    have hagree : ∀ q, (q, c) ∈ seen → q = p := fun q hq =>
      hone q p c (List.mem_append_left _ hq) (List.mem_append_right _ List.mem_cons_self)
    obtain ⟨next, hnext⟩ := h.noteParent_total (hrange p c List.mem_cons_self) hagree
    rw [List.foldlM_cons, hnext]
    refine ih (h.noteParent_ok hnext) (fun q d hm => hrange q d (List.mem_cons_of_mem _ hm)) ?_
    rw [List.append_assoc, List.singleton_append]
    exact hone

end Noted

/-- A table of parents that passes holds exactly the links. -/
theorem parentsOf_ok {nodes : List SnapshotNode} {parents : Parents}
    (h : parentsOf nodes = .ok parents) : Noted nodes.length (links nodes) parents := by
  have := (noted_replicate nodes.length).foldlM_ok (links nodes) h
  rwa [List.nil_append] at this

theorem parentsOf_total {nodes : List SnapshotNode}
    (hrange : ∀ p c, Lists nodes p c → c ≠ 0 ∧ c < nodes.length)
    (hone : ∀ p q c, Lists nodes p c → Lists nodes q c → p = q) :
    ∃ parents, parentsOf nodes = .ok parents := by
  simp only [← mem_links_iff] at hrange hone
  exact (noted_replicate nodes.length).foldlM_total (links nodes) hrange hone

/-! ## The search from the root -/

/-- What holds between two visits: all that is marked or pending can be reached,
and what a marked node lists is marked, pending or no node. -/
structure Searching (nodes : List SnapshotNode) (reached : Array Bool) (pending : List Nat) :
    Prop where
  size : reached.size = nodes.length
  marked_sound : ∀ i, reached[i]? = some true → Relation.ReflTransGen (Lists nodes) 0 i
  pending_sound : ∀ i ∈ pending, Relation.ReflTransGen (Lists nodes) 0 i
  start : reached[0]? ≠ some false ∨ 0 ∈ pending
  closed : ∀ i c, reached[i]? = some true → Lists nodes i c →
    reached[c]? ≠ some false ∨ c ∈ pending

section Searching

variable {nodes : List SnapshotNode} {reached : Array Bool} {pending : List Nat} {i : Nat}

theorem searching_start (nodes : List SnapshotNode) :
    Searching nodes (Array.replicate nodes.length false) [PathTree.root] where
  size := Array.size_replicate
  marked_sound := by
    intro i h
    have hmem := Array.mem_of_getElem? h
    simp at hmem
  pending_sound := by
    intro i hi
    cases List.mem_singleton.mp hi
    exact .refl
  start := .inr (List.mem_singleton.mpr rfl)
  closed := by
    intro i c h
    have hmem := Array.mem_of_getElem? h
    simp at hmem

/-- Visiting an unmarked node marks it and leaves its children to visit. -/
theorem Searching.visit (h : Searching nodes reached (i :: pending))
    (hi : reached[i]? = some false) : Searching nodes (reached.setIfInBounds i true)
      ((childNodes nodes i).reverse ++ pending) := by
  have hlt : i < reached.size := by
    obtain ⟨hlt, _⟩ := Array.getElem?_eq_some_iff.mp hi
    exact hlt
  have hreach := h.pending_sound i List.mem_cons_self
  have hmark : ∀ j, (reached.setIfInBounds i true)[j]? =
      if i = j then some true else reached[j]? := by
    intro j
    rw [Array.getElem?_setIfInBounds]
    simp [hlt]
  -- what is not unmarked or was pending stays so
  have hkeep : ∀ j, reached[j]? ≠ some false ∨ j ∈ i :: pending →
      (reached.setIfInBounds i true)[j]? ≠ some false ∨
        j ∈ (childNodes nodes i).reverse ++ pending := by
    intro j hj
    rw [hmark]
    by_cases hij : i = j
    · rw [if_pos hij]
      exact .inl (by simp)
    · rw [if_neg hij]
      rcases hj with hj | hj
      · exact .inl hj
      · rcases List.mem_cons.mp hj with rfl | hj
        · exact absurd rfl hij
        · exact .inr (List.mem_append_right _ hj)
  refine ⟨by rw [Array.size_setIfInBounds, h.size], ?_, ?_, hkeep 0 h.start, ?_⟩
  · intro j hj
    rw [hmark] at hj
    split at hj
    · rename_i hij
      exact hij ▸ hreach
    · exact h.marked_sound j hj
  · intro j hj
    rcases List.mem_append.mp hj with hj | hj
    · exact hreach.tail (List.mem_reverse.mp hj)
    · exact h.pending_sound j (List.mem_cons_of_mem _ hj)
  · intro j c hj hc
    by_cases hij : i = j
    · subst hij
      exact .inr (List.mem_append_left _ (List.mem_reverse.mpr hc))
    · rw [hmark, if_neg hij] at hj
      exact hkeep c (h.closed j c hj hc)

/-- A node that is marked, or no node at all, is passed over. -/
theorem Searching.skip (h : Searching nodes reached (i :: pending))
    (hi : reached[i]? ≠ some false) : Searching nodes reached pending := by
  have hkeep : ∀ j, reached[j]? ≠ some false ∨ j ∈ i :: pending →
      reached[j]? ≠ some false ∨ j ∈ pending := by
    intro j hj
    rcases hj with hj | hj
    · exact .inl hj
    · rcases List.mem_cons.mp hj with rfl | hj
      · exact .inl hi
      · exact .inr hj
  exact ⟨h.size, h.marked_sound, fun j hj => h.pending_sound j (List.mem_cons_of_mem _ hj),
    hkeep 0 h.start, fun j c hj hc => hkeep c (h.closed j c hj hc)⟩

theorem Searching.reach (h : Searching nodes reached pending) :
    Searching nodes (Snapshot.reach nodes reached pending) [] := by
  fun_induction Snapshot.reach nodes reached pending with
  | case1 reached => exact h
  | case2 reached i pending hi ih => exact ih (h.visit hi)
  | case3 reached i pending hi ih => exact ih (h.skip hi)

end Searching

/-- The search leaves no node unmarked exactly if all nodes can be reached. -/
theorem orphan?_eq_none_iff {nodes : List SnapshotNode} :
    orphan? nodes = none ↔ ∀ i < nodes.length, Relation.ReflTransGen (Lists nodes) 0 i := by
  have h := (searching_start nodes).reach
  have hmarked : ∀ i < nodes.length, Relation.ReflTransGen (Lists nodes) 0 i →
      (reach nodes (Array.replicate nodes.length false) [PathTree.root])[i]? = some true := by
    intro i hi hreach
    have hsome : ∀ j < nodes.length,
        (reach nodes (Array.replicate nodes.length false) [PathTree.root])[j]? ≠ some false →
        (reach nodes (Array.replicate nodes.length false) [PathTree.root])[j]? = some true := by
      intro j hj hne
      rw [← h.size] at hj
      rw [Array.getElem?_eq_getElem hj] at hne ⊢
      simpa using hne
    induction hreach with
    | refl => exact hsome 0 hi (h.start.resolve_right (by simp))
    | tail _ hlast ih =>
      rename_i j c hj
      exact hsome c hi ((h.closed j c (ih hlast.parent_lt) hlast).resolve_right (by simp))
  rw [orphan?, Array.findIdx?_eq_none_iff]
  constructor
  · intro hall i hi
    apply h.marked_sound
    rw [← h.size] at hi
    rw [Array.getElem?_eq_getElem hi]
    simpa using hall _ (Array.getElem_mem hi)
  · intro hall b hb
    obtain ⟨i, hi, rfl⟩ := Array.getElem_of_mem hb
    have hi' : i < nodes.length := h.size ▸ hi
    have := hmarked i hi' (hall i hi')
    rw [Array.getElem?_eq_getElem hi] at this
    simpa using this

/-! ## Symbols -/

theorem primaryIn_ok_iff {count : Nat} {symbols : List SnapshotSymbol}
    {primary : KeyMap String NodeId} : primaryIn count symbols = .ok primary ↔
      (∀ sym ∈ symbols, sym.primaryNode < count) ∧
        primary = .ofList (symbols.map fun sym => (sym.id, sym.primaryNode)) := by
  simp only [primaryIn, KeyMap.ofList, List.foldl_map]
  generalize (∅ : KeyMap String NodeId) = start
  induction symbols generalizing start with
  | nil => simp [pure, Except.pure, eq_comm]
  | cons sym symbols ih =>
    rw [List.foldlM_cons, List.foldl_cons]
    by_cases hle : count ≤ sym.primaryNode
    · rw [if_pos hle]
      constructor
      · intro h; cases h
      · intro h
        exact absurd (h.1 sym List.mem_cons_self) (Nat.not_lt.mpr hle)
    · rw [if_neg hle]
      refine (ih (start.insert sym.id sym.primaryNode)).trans (and_congr_left fun _ => ?_)
      rw [List.forall_mem_cons]
      exact (and_iff_right (Nat.lt_of_not_le hle)).symm

/-- A node as it is written, under a parent. -/
def restored (symbols : List SnapshotSymbol) (n : SnapshotNode) (parent : Option Nat) : Node where
  children := childrenOf n.children
  languages := .ofList n.languages
  name := n.name
  parent := parent
  symbol := n.symbol.bind fun k => symbols[k]?.map (·.id)

theorem restoreNode_ok_iff {symbols : List SnapshotSymbol} {n : SnapshotNode} {parent : Option Nat}
    {m : Node} : restoreNode symbols n parent = .ok m ↔
      (∀ k, n.symbol = some k → k < symbols.length) ∧ m = restored symbols n parent := by
  unfold restoreNode restored
  cases hn : n.symbol with
  | none => simp [bind, Except.bind, pure, Except.pure, eq_comm]
  | some k =>
    cases hk : symbols[k]? with
    | none =>
      have hle := List.getElem?_eq_none_iff.mp hk
      simp [bind, Except.bind, throw, throwThe, MonadExceptOf.throw, hk]
      omega
    | some sym =>
      obtain ⟨hlt, _⟩ := List.getElem?_eq_some_iff.mp hk
      simp [bind, Except.bind, pure, Except.pure, hlt, eq_comm]

/-! ## The whole tree -/

/-- The nodes of a snapshot under the parents of a table. -/
def restoredNodes (s : Snapshot) (parents : Parents) : List Node :=
  s.nodes.zipIdx.map fun (n, i) => restored s.symbols n (parents[i]?.join)

/-- The tree that a snapshot is read as, given its table of parents. -/
def restoredTree (s : Snapshot) (parents : Parents) : PathTree where
  nodes := (s.restoredNodes parents).toArray
  primary := .ofList (s.symbols.map fun sym => (sym.id, sym.primaryNode))
  spellings := spellingsIn (s.restoredNodes parents)

theorem restoreNodes_ok_iff {s : Snapshot} {parents : Parents} {nodes : List Node} :
    (s.nodes.zipIdx.mapM fun (n, i) => restoreNode s.symbols n (parents[i]?.join)) = .ok nodes ↔
      (∀ n ∈ s.nodes, ∀ k, n.symbol = some k → k < s.symbols.length) ∧
        nodes = s.restoredNodes parents := by
  rw [mapM_ok_iff (P := fun x => ∀ k, x.1.symbol = some k → k < s.symbols.length)
    (g := fun x => restored s.symbols x.1 (parents[x.2]?.join)) fun a b => restoreNode_ok_iff]
  refine and_congr_left fun _ => ⟨?_, ?_⟩
  · intro h n hn
    obtain ⟨i, hi⟩ := List.mem_iff_getElem?.mp hn
    exact h (n, i) (List.mem_zipIdx_iff_getElem?.mpr hi)
  · rintro h ⟨n, i⟩ hn
    exact h n (List.mem_of_getElem? (List.mem_zipIdx_iff_getElem?.mp hn))

theorem checkRoot_ok_iff {nodes : List SnapshotNode} {u : Unit} :
    checkRoot nodes = .ok u ↔ nodes ≠ [] := by
  cases nodes <;> simp [checkRoot]

theorem checkReached_ok_iff {nodes : List SnapshotNode} {u : Unit} : checkReached nodes = .ok u ↔
    ∀ i < nodes.length, Relation.ReflTransGen (Lists nodes) 0 i := by
  rw [← orphan?_eq_none_iff, checkReached]
  cases orphan? nodes <;> simp

/-- Reading succeeds exactly if every check does, and gives the tree as written. -/
theorem toTree_ok_iff {s : Snapshot} {t : PathTree} : s.toTree = .ok t ↔
    ∃ parents, parentsOf s.nodes = .ok parents ∧ s.IsTree ∧ t = s.restoredTree parents := by
  simp only [toTree, bind_ok_iff, checkRoot_ok_iff, checkReached_ok_iff, primaryIn_ok_iff,
    restoreNodes_ok_iff, pure, Except.pure, Except.ok.injEq]
  constructor
  · rintro ⟨_, hroot, parents, hparents, _, hreach, _, ⟨hprimary, rfl⟩, _, ⟨hsymbols, rfl⟩, rfl⟩
    have hnoted := parentsOf_ok hparents
    refine ⟨parents, hparents, ⟨hroot, ?_, ?_, hreach, hprimary, hsymbols⟩, rfl⟩
    · intro p c hc
      exact hnoted.range p c (mem_links_iff.mpr hc)
    · intro p q c hp hq
      exact hnoted.unique (mem_links_iff.mpr hp) (mem_links_iff.mpr hq)
  · rintro ⟨parents, hparents, h, rfl⟩
    exact ⟨(), h.nonempty, parents, hparents, (), h.reachable, _, ⟨h.primary_range, rfl⟩, _,
      ⟨h.symbol_range, rfl⟩, rfl⟩

/-- The trees are the snapshots that can be read. -/
theorem exists_toTree_iff (s : Snapshot) : (∃ t, s.toTree = .ok t) ↔ s.IsTree := by
  simp only [toTree_ok_iff]
  constructor
  · rintro ⟨_, _, _, h, _⟩
    exact h
  · intro h
    obtain ⟨parents, hparents⟩ := parentsOf_total h.child_range h.one_parent
    exact ⟨_, parents, hparents, h, rfl⟩

end SymbolLinks.Snapshot
