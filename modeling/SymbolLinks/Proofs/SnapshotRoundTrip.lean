import SymbolLinks.Proofs.SnapshotRestore
import SymbolLinks.Proofs.TreeBuild

/-! Flattening a tree and restoring it gives the tree back. A snapshot leaves out
parents and the table of spellings; both can be computed again for every tree that
is built from symbols and for every tree that was itself read from a snapshot. -/
namespace SymbolLinks.Snapshot

open PathTree (root)

/-! ## The table of spellings -/

theorem eq_of_ascending {is js : List Nat} (hi : is.Pairwise (· < ·)) (hj : js.Pairwise (· < ·))
    (h : ∀ k, k ∈ is ↔ k ∈ js) : is = js := by
  have hperm : is.Perm js := (List.perm_ext_iff_of_nodup (hi.imp Nat.ne_of_lt)
    (hj.imp Nat.ne_of_lt)).mpr h
  exact hperm.eq_of_pairwise (fun a b _ _ hab hba => absurd hab (Nat.lt_asymm hba)) hi hj

theorem mem_carriers_iff {nodes : List Node} {id : String} {i : Nat} :
    (id, i) ∈ carriers nodes ↔ nodes[i]?.bind (·.symbol) = some id := by
  simp only [carriers, List.mem_filterMap, Prod.exists, List.mem_zipIdx_iff_getElem?,
    Option.map_eq_some_iff, Prod.mk.injEq, Option.bind_eq_some_iff]
  constructor
  · rintro ⟨n, _, hn, _, hid, rfl, rfl⟩
    exact ⟨n, hn, hid⟩
  · rintro ⟨n, hn, hid⟩
    exact ⟨n, i, hn, id, hid, rfl, rfl⟩

theorem ascending_carriers (nodes : List Node) :
    (carriers nodes).Pairwise fun a b => a.2 < b.2 := by
  refine List.pairwise_filterMap.mpr ?_
  have hzip : nodes.zipIdx.Pairwise fun a b => a.2 < b.2 := by
    rw [← List.pairwise_map (f := fun x : Node × Nat => x.2), List.zipIdx_map_snd]
    exact List.pairwise_lt_range'
  refine hzip.imp fun {a b} hlt x hx y hy => ?_
  obtain ⟨_, _, rfl⟩ := Option.map_eq_some_iff.mp hx
  obtain ⟨_, _, rfl⟩ := Option.map_eq_some_iff.mp hy
  exact hlt

/-- A table that lists exactly the nodes of each symbol is the computed one. -/
theorem spellingsIn_eq {t : PathTree} (h : t.Indexed) : spellingsIn t.nodes.toList = t.spellings := by
  refine KeyMap.ext_get? fun id => ?_
  have hmem : ∀ i, i ∈ ((carriers t.nodes.toList).filter (·.1 = id)).map (·.2) ↔
      i ∈ (t.spellings.get? id).getD [] := by
    intro i
    rw [h.mem_iff, PathTree.symbolAt?, PathTree.node?, ← Array.getElem?_toList, ← mem_carriers_iff]
    simp
  have hget := KeyMap.get?_foldl_group (fun c : String × NodeId => c.1) (·.2) id
    (carriers t.nodes.toList)
  rw [spellingsIn, hget]
  -- both lists ascend and have the same members; only absent keys need a word of their own
  cases hs : t.spellings.get? id with
  | none =>
    refine if_pos (List.eq_nil_iff_forall_not_mem.mpr fun c hc => ?_)
    have := (hmem c.2).mp (List.mem_map.mpr ⟨c, hc, rfl⟩)
    rw [hs] at this
    cases this
  | some is =>
    rw [hs] at hmem
    obtain ⟨i, hi⟩ := Option.isSome_iff_exists.mp (h.has_primary.symm.trans (by rw [hs]; rfl))
    have hne : (carriers t.nodes.toList).filter (·.1 = id) ≠ [] := by
      intro hnil
      have := h.mem_iff.mpr (h.primary_mem hi)
      rw [hs, ← hmem i, hnil] at this
      cases this
    rw [if_neg hne]
    refine congrArg some (eq_of_ascending ?_ (h.ascending hs) hmem)
    exact List.pairwise_map.mpr ((ascending_carriers _).filter _)

/-! ## What can be restored -/

/-- What a tree has to have in common with its snapshot: a snapshot holds no
parents and no spellings, no empty containers and no symbols without primary
node. -/
structure Restorable (t : PathTree) : Prop where
  grounded : t.Grounded
  listed : ∀ {i p : Nat}, t.parentAt? i = some p →
    ∃ name es, t.group? p name = some es ∧ ∃ e ∈ es, e.node = i
  nonempty : ∀ {p : Nat} {name : String} {es : List Entry}, t.group? p name = some es → es ≠ []
  nodup : ∀ {p : Nat} {name : String} {es : List Entry}, t.group? p name = some es →
    (es.map (·.node)).Nodup
  spellings_eq : t.spellings = spellingsIn t.nodes.toList
  has_primary : ∀ {i : Nat} {id : String}, t.symbolAt? i = some id → id ∈ t.primary.keys
  primary_lt : ∀ {id : String} {i : Nat}, (id, i) ∈ t.primary.entries → i < t.size

theorem restorable_of_inv {fits : PathTree.Labelling} {t : PathTree} (h : t.Inv fits) :
    Restorable t where
  grounded := h.rooted.grounded
  listed := h.rooted.exists_entry
  nonempty := h.rooted.nonempty
  nodup := h.rooted.nodup
  spellings_eq := (spellingsIn_eq h.indexed).symm
  has_primary := fun hid => KeyMap.mem_keys_iff.mpr (h.indexed.exists_primary hid)
  primary_lt := by
    intro id i hi
    exact PathTree.lt_size_of_symbolAt? (h.indexed.primary_mem (KeyMap.mem_entries_iff.mp hi))

theorem restorable_of_toTree {s : Snapshot} {t : PathTree} (h : s.toTree = .ok t) :
    Restorable t := by
  obtain ⟨parents, hparents, htree, rfl⟩ := toTree_ok_iff.mp h
  have hnoted := parentsOf_ok hparents
  refine
    { grounded := grounded_restoredTree hnoted htree
      listed := fun hp => exists_group?_of_lists ((parentAt?_restoredTree hnoted).mp hp)
      nonempty := fun hg => (group?_restoredTree hg).1
      nodup := fun hg => (group?_restoredTree hg).2.1
      spellings_eq := rfl
      has_primary := ?_
      primary_lt := ?_ }
  · intro i id hid
    rw [PathTree.symbolAt?, node?_restoredTree] at hid
    obtain ⟨m, hm, hid⟩ := Option.bind_eq_some_iff.mp hid
    obtain ⟨n, _, rfl⟩ := Option.map_eq_some_iff.mp hm
    obtain ⟨k, _, hk⟩ := Option.bind_eq_some_iff.mp hid
    obtain ⟨sym, hsym, rfl⟩ := Option.map_eq_some_iff.mp hk
    refine KeyMap.mem_keys_iff.mpr (KeyMap.exists_get?_ofList ?_)
    exact List.mem_map.mpr ⟨(sym.id, sym.primaryNode),
      List.mem_map.mpr ⟨sym, List.mem_of_getElem? hsym, rfl⟩, rfl⟩
  · intro id i hi
    have := KeyMap.mem_of_get?_ofList (KeyMap.mem_entries_iff.mp hi)
    obtain ⟨sym, hsym, heq⟩ := List.mem_map.mp this
    cases heq
    rw [size_restoredTree]
    exact htree.primary_range sym hsym

theorem restorable_of_origin {t : PathTree}
    (origin : (∃ st members, t = PathTree.build st members) ∨ ∃ s : Snapshot, s.toTree = .ok t) :
    Restorable t := by
  rcases origin with ⟨st, members, rfl⟩ | ⟨s, hs⟩
  · exact restorable_of_inv (PathTree.inv_build st members)
  · exact restorable_of_toTree hs

/-! ## Restoring a flattened tree -/

theorem filter_entriesOf (n : Node) (name : String) : (entriesOf n).filter (·.name = name) =
    ((n.children.get? name).getD []).map (SnapshotEntry.ofEntry name) := by
  have hname : ∀ (k : String) (es : List Entry),
      (es.map (SnapshotEntry.ofEntry k)).filter (·.name = name) =
        if k = name then es.map (SnapshotEntry.ofEntry k) else [] := by
    intro k es
    by_cases hk : k = name
    · rw [if_pos hk]
      exact List.filter_eq_self.mpr (by simp [SnapshotEntry.ofEntry, hk])
    · rw [if_neg hk]
      exact List.filter_eq_nil_iff.mpr (by simp [SnapshotEntry.ofEntry, hk])
  have hordered := n.children.ordered
  unfold entriesOf KeyMap.get?
  generalize n.children.entries = groups at hordered ⊢
  induction groups with
  | nil => rfl
  | cons x rest ih =>
    obtain ⟨k, es⟩ := x
    obtain ⟨hfirst, hrest⟩ := List.pairwise_cons.mp hordered
    rw [List.flatMap_cons, List.filter_append, ih hrest, hname]
    by_cases hk : k = name
    · subst hk
      rw [KeyMap.findEntry_eq_none_of_lt hfirst]
      simp [KeyMap.findEntry]
    · have hk' : name ≠ k := fun h => hk h.symm
      simp [KeyMap.findEntry, hk, hk']

/-- The containers of a node are those of its entries, if none is empty and none
lists a node twice. -/
theorem childrenOf_entriesOf {n : Node}
    (hne : ∀ name es, n.children.get? name = some es → es ≠ [])
    (hnodup : ∀ name es, n.children.get? name = some es → (es.map (·.node)).Nodup) :
    childrenOf (entriesOf n) = n.children := by
  refine KeyMap.ext_get? fun name => ?_
  rw [get?_childrenOf, filter_entriesOf]
  cases hg : n.children.get? name with
  | none => rfl
  | some es =>
    have hsome : ((some es).getD []).map (SnapshotEntry.ofEntry name) ≠ [] := by
      simpa using hne name es hg
    rw [if_neg hsome, Option.getD_some, foldl_listEntry_eq name es (by simpa using hnodup name es hg)]
    rfl

theorem mem_entriesOf_iff {n : Node} {c : Nat} : c ∈ (entriesOf n).map (·.node) ↔
    ∃ name es, n.children.get? name = some es ∧ ∃ e ∈ es, e.node = c := by
  simp only [entriesOf, List.mem_map, List.mem_flatMap, Prod.exists, KeyMap.mem_entries_iff]
  constructor
  · rintro ⟨_, ⟨name, es, hes, e, he, rfl⟩, rfl⟩
    exact ⟨name, es, hes, e, he, rfl⟩
  · rintro ⟨name, es, hes, e, he, rfl⟩
    exact ⟨_, ⟨name, es, hes, e, he, rfl⟩, rfl⟩

section OfTree

variable {t : PathTree} (bundle : String)

theorem getElem?_nodes_ofTree (i : Nat) : (ofTree bundle t).nodes[i]? = (t.node? i).map fun n =>
    { children := entriesOf n, languages := n.languages.toList, name := n.name,
      symbol := n.symbol.bind fun id => t.primary.keys.findIdx? (· == id) } := by
  simp [ofTree, PathTree.node?]

theorem length_nodes_ofTree : (ofTree bundle t).nodes.length = t.size := by
  simp [ofTree, PathTree.size]

theorem length_symbols_ofTree : (ofTree bundle t).symbols.length = t.primary.keys.length := by
  simp [ofTree, KeyMap.keys]

/-- Positions in the table of symbols stand for the identifiers. -/
theorem symbol_ofTree {id : String} (h : id ∈ t.primary.keys) :
    ∃ k < t.primary.keys.length, t.primary.keys.findIdx? (· == id) = some k ∧
      (ofTree bundle t).symbols[k]?.map (·.id) = some id := by
  obtain ⟨k, hk⟩ : ∃ k, t.primary.keys.findIdx? (· == id) = some k :=
    Option.isSome_iff_exists.mp (by simpa using h)
  obtain ⟨hlt, hkey, _⟩ := List.findIdx?_eq_some_iff_getElem.mp hk
  refine ⟨k, hlt, hk, ?_⟩
  have : (ofTree bundle t).symbols.map (·.id) = t.primary.keys := by
    simp [ofTree, KeyMap.keys, Function.comp_def]
  rw [← List.getElem?_map, this, List.getElem?_eq_getElem hlt, eq_of_beq hkey]

variable (h : Restorable t)
include h

theorem Restorable.lists_iff {p c : Nat} :
    Lists (ofTree bundle t).nodes p c ↔ t.parentAt? c = some p := by
  unfold Lists childNodes
  rw [getElem?_nodes_ofTree]
  constructor
  · intro hc
    cases hn : t.node? p with
    | none => simp [hn] at hc
    | some n =>
      rw [hn] at hc
      obtain ⟨name, es, hes, e, he, rfl⟩ := mem_entriesOf_iff.mp hc
      exact h.grounded.below ((PathTree.group?_of_node? hn name).trans hes) e he
  · intro hc
    obtain ⟨name, es, hg, he⟩ := h.listed hc
    obtain ⟨n, hn, hes⟩ := Option.bind_eq_some_iff.mp hg
    rw [hn]
    exact mem_entriesOf_iff.mpr ⟨name, es, hes, he⟩

theorem Restorable.reachable_of_climb {k i : Nat} (hk : t.climb k i = some root) :
    Relation.ReflTransGen (Lists (ofTree bundle t).nodes) 0 i := by
  induction k generalizing i with
  | zero =>
    cases hk
    exact .refl
  | succ k ih =>
    obtain ⟨p, hp, hk⟩ := Option.bind_eq_some_iff.mp hk
    exact .tail (ih hk) ((h.lists_iff bundle).mpr hp)

theorem Restorable.isTree : (ofTree bundle t).IsTree where
  nonempty := by
    rw [← List.length_pos_iff, length_nodes_ofTree]
    exact h.grounded.root_lt
  child_range := by
    intro p c hc
    rw [h.lists_iff] at hc
    rw [length_nodes_ofTree]
    refine ⟨fun h0 => ?_, PathTree.lt_size_of_parentAt? hc⟩
    rw [h0] at hc
    cases h.grounded.root_parent.symm.trans hc
  one_parent := by
    intro p q c hp hq
    rw [h.lists_iff] at hp hq
    exact Option.some_inj.mp (hp.symm.trans hq)
  reachable := by
    intro i hi
    rw [length_nodes_ofTree] at hi
    obtain ⟨k, hk⟩ := h.grounded.climbs hi
    exact h.reachable_of_climb bundle hk
  primary_range := by
    intro sym hsym
    obtain ⟨⟨id, i⟩, hi, rfl⟩ := List.mem_map.mp hsym
    rw [length_nodes_ofTree]
    exact h.primary_lt hi
  symbol_range := by
    intro m hm k hk
    obtain ⟨n, _, rfl⟩ := List.mem_map.mp hm
    obtain ⟨id, _, hfind⟩ := Option.bind_eq_some_iff.mp hk
    rw [length_symbols_ofTree]
    exact (List.findIdx?_eq_some_iff_getElem.mp hfind).1

theorem Restorable.restored_eq {i : Nat} {n : Node} (hn : t.node? i = some n) {parents : Parents}
    (hnoted : Noted (ofTree bundle t).nodes.length (links (ofTree bundle t).nodes) parents) :
    restored (ofTree bundle t).symbols
      { children := entriesOf n, languages := n.languages.toList, name := n.name,
        symbol := n.symbol.bind fun id => t.primary.keys.findIdx? (· == id) }
      (parents[i]?.join) = n := by
  have hgroup : ∀ name es, n.children.get? name = some es → t.group? i name = some es :=
    fun name _ hes => (PathTree.group?_of_node? hn name).trans hes
  have hchildren : childrenOf (entriesOf n) = n.children :=
    childrenOf_entriesOf (fun name es hes => h.nonempty (hgroup name es hes))
      fun name es hes => h.nodup (hgroup name es hes)
  have hparent : parents[i]?.join = n.parent := by
    refine Option.ext fun p => ?_
    rw [Option.join_eq_some_iff, hnoted.exact, mem_links_iff, h.lists_iff,
      PathTree.parentAt?_of_node? hn]
  have hsymbol : ((n.symbol.bind fun id => t.primary.keys.findIdx? (· == id)).bind fun k =>
      (ofTree bundle t).symbols[k]?.map (·.id)) = n.symbol := by
    cases hs : n.symbol with
    | none => rfl
    | some id =>
      have hid : t.symbolAt? i = some id := (PathTree.symbolAt?_of_node? hn).trans hs
      obtain ⟨k, _, hk, hsym⟩ := symbol_ofTree bundle (h.has_primary hid)
      rw [Option.bind_some, hk]
      exact hsym
  simp only [restored, hchildren, hparent, hsymbol, KeySet.ofList_toList]

/-- A flattened tree is read as the tree. -/
theorem Restorable.toTree_ofTree : (ofTree bundle t).toTree = .ok t := by
  have htree := h.isTree bundle
  obtain ⟨parents, hparents⟩ := parentsOf_total htree.child_range htree.one_parent
  refine toTree_ok_iff.mpr ⟨parents, hparents, htree, ?_⟩
  have hnoted := parentsOf_ok hparents
  have hnodes : ((ofTree bundle t).restoredTree parents).nodes = t.nodes := by
    refine Array.ext_getElem? fun i => ?_
    have : ((ofTree bundle t).restoredTree parents).node? i = _ := node?_restoredTree i
    rw [getElem?_nodes_ofTree, Option.map_map] at this
    cases hn : t.node? i with
    | none => exact this.trans (by rw [hn]; rfl) |>.trans hn.symm
    | some n =>
      rw [hn, Option.map_some, Function.comp_apply, h.restored_eq bundle hn hnoted] at this
      exact this.trans hn.symm
  have hprimary : ((ofTree bundle t).restoredTree parents).primary = t.primary := by
    have : (ofTree bundle t).symbols.map (fun sym => (sym.id, sym.primaryNode)) =
        t.primary.entries := by simp [ofTree, Function.comp_def]
    simp only [restoredTree, this, KeyMap.ofList_entries]
  -- the table of spellings is computed from the nodes, which are already the same
  have hspellings : ((ofTree bundle t).restoredTree parents).spellings = t.spellings := by
    have : spellingsIn ((ofTree bundle t).restoredTree parents).nodes.toList = t.spellings := by
      rw [hnodes, h.spellings_eq]
    exact this
  cases t
  simp only [restoredTree, PathTree.mk.injEq] at *
  exact ⟨hnodes.symm, hprimary.symm, hspellings.symm⟩

end OfTree

end SymbolLinks.Snapshot
