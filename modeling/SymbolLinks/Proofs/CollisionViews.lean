import SymbolLinks.Proofs.PageUniqueness

/-! Suffixes seen from the nodes. The suffix of a primary node depends on what stands
beside it under a name that agrees with its own without regard to case: whether a node
without symbol does, whether the primary node of another symbol does, and whether one of
its kind does (`suffix?_eq`). So two trees that agree on this have the same segments, and
a node has one way of segments only (`At.unique`). -/
namespace SymbolLinks.PathTree

/-- Every symbol has the hash of its identifier and a kind that its identifier decides. -/
def Labels (kinds : String → String) : Labelling := fun id hash kind =>
  hash = ShortHash.ofIdentifier id ∧ kind = kinds id

/-- The kinds of the symbols of a store. -/
def kindsOf (st : SymbolStore) (id : String) : String :=
  ((st.get? id).map (·.kind.identifier)).getD ""

theorem labels_of_labelOf {st : SymbolStore} {id hash kind : String}
    (h : LabelOf st id hash kind) : Labels (kindsOf st) id hash kind := by
  obtain ⟨s, hs, rfl, hhash, hkind⟩ := h
  refine ⟨hhash, ?_⟩
  rw [kindsOf, SymbolStore.get?_of_mem hs, hkind]
  rfl

theorem Inv.relabel {fits fits' : Labelling} {t : PathTree} (h : Inv fits t)
    (hfits : ∀ {id hash kind}, fits id hash kind → fits' id hash kind) : Inv fits' t where
  rooted := h.rooted
  grouped p name es hes := by
    refine (h.grouped p name es hes).imp_right fun hgroup => ⟨hgroup.distinct, fun e he => ?_⟩
    obtain ⟨id, hash, kind, hid, hhash, hkind, hlabel⟩ := hgroup.labelled e he
    exact ⟨id, hash, kind, hid, hhash, hkind, hfits hlabel⟩
  indexed := h.indexed
  root_symbol := h.root_symbol

/-! ## What stands beside a node -/

/-- Two nodes below one node whose names agree without regard to case. -/
def Beside (t : PathTree) (i k : NodeId) : Prop :=
  k ≠ i ∧ t.parentAt? k = t.parentAt? i ∧
    (t.nameAt? k).map Text.lowercase = (t.nameAt? i).map Text.lowercase

instance (t : PathTree) (i k : NodeId) : Decidable (Beside t i k) :=
  inferInstanceAs (Decidable (_ ∧ _ ∧ _))

/-- A node without symbol stands beside a node. -/
def HolderBeside (t : PathTree) (i : NodeId) : Prop :=
  ∃ k, k < t.size ∧ Beside t i k ∧ t.symbolAt? k = none

instance (t : PathTree) (i : NodeId) : Decidable (HolderBeside t i) :=
  inferInstanceAs (Decidable (∃ k, k < t.size ∧ _))

/-- The primary node of a symbol with some property stands beside a node. -/
def SymbolBeside (t : PathTree) (p : String → Prop) (i : NodeId) : Prop :=
  ∃ k id, Beside t i k ∧ t.primary.get? id = some k ∧ p id

section Views

variable {t : PathTree} {kinds : String → String} {p : NodeId} {n : Node} {name : String}
  {es : List Entry} {e : Entry}

/-- A node without symbol has no suffix. -/
theorem suffix?_of_holder {fits : Labelling} (h : Inv fits t) (hes : t.group? p name = some es)
    (he : e ∈ es) (hsym : t.symbolAt? e.node = none) (n : Node) : t.suffix? n name e = none := by
  cases hd : t.suffix? n name e with
  | none => rfl
  | some d =>
    have hgroup := SymbolGroup.of_disambiguator? (h.grouped p name es hes) he
      (suffix?_eq_some_iff.mp hd).2
    obtain ⟨id, -, -, hid, -⟩ := hgroup.labelled e he
    cases hsym.symm.trans hid

/-- An entry is labelled by the symbol of its node. -/
theorem Inv.label (h : Inv (Labels kinds) t) (hes : t.group? p name = some es) (he : e ∈ es) :
    (t.symbolAt? e.node = none ∧ e.kind = none) ∨ ∃ id, t.symbolAt? e.node = some id ∧
      e.hash = some (ShortHash.ofIdentifier id) ∧ e.kind = some (kinds id) := by
  rcases h.grouped p name es hes with ⟨i, rfl, hi⟩ | hgroup
  · cases List.mem_singleton.mp he
    exact .inl ⟨hi, rfl⟩
  · obtain ⟨id, hash, kind, hid, hhash, hkind, rfl, rfl⟩ := hgroup.labelled e he
    exact .inr ⟨id, hid, hhash, hkind⟩

theorem isPrimary_iff {k : NodeId} (hindexed : Indexed t) : t.isPrimary k = true ↔
    (k < t.size ∧ t.symbolAt? k = none) ∨ ∃ id, t.primary.get? id = some k := by
  constructor
  · intro h
    unfold PathTree.isPrimary at h
    split at h
    · cases h
    · rename_i n hn
      split at h
      · rename_i hs
        exact .inl ⟨lt_size hn, (symbolAt?_of_node? hn).trans hs⟩
      · exact .inr ⟨_, beq_iff_eq.mp h⟩
  · rintro (⟨hk, hs⟩ | ⟨id, hid⟩)
    · obtain ⟨n, hn⟩ := exists_node hk
      rw [symbolAt?_of_node? hn] at hs
      simp [PathTree.isPrimary, hn, hs]
    · obtain ⟨n, hn, hs⟩ := Option.bind_eq_some_iff.mp (hindexed.primary_mem hid)
      simp [PathTree.isPrimary, hn, hs, hid]

/-! ## Peers by node -/

theorem Rooted.nodup_namedEntries (h : Rooted t) (hn : t.node? p = some n) :
    ((namedEntries n).map (·.2.node)).Nodup := by
  have hmap : (namedEntries n).map (·.2.node) =
      n.children.entries.flatMap fun x => x.2.map (·.node) := by
    rw [namedEntries, List.map_flatMap]
    simp only [List.map_map]
    rfl
  have hgroup : ∀ x ∈ n.children.entries, t.group? p x.1 = some x.2 := fun x hx =>
    (group?_of_node? hn x.1).trans (KeyMap.mem_entries_iff.mp hx)
  rw [hmap]
  refine List.nodup_flatMap.mpr ⟨fun x hx => h.nodup (hgroup x hx), ?_⟩
  -- a node stands under its own name only
  refine (List.pairwise_map.mp (KeyMap.nodup_keys n.children)).imp_of_mem fun {x y} hx hy hne i hi hj => ?_
  obtain ⟨e, he, rfl⟩ := List.mem_map.mp hi
  obtain ⟨e', he', heq⟩ := List.mem_map.mp hj
  exact hne (h.group_unique (hgroup y hy) (hgroup x hx) he' he heq).2

theorem Rooted.nodup_peers (h : Rooted t) (hn : t.node? p = some n) (name : String) :
    (t.peers n name).Nodup := by
  refine List.Nodup.filter _ (.of_map (·.node) ?_)
  rw [List.map_map]
  exact (List.filter_sublist.map _).nodup (h.nodup_namedEntries hn)

theorem mem_peers_iff {x : Entry} (hn : t.node? p = some n) : x ∈ t.peers n name ↔
    ∃ name' es', t.group? p name' = some es' ∧ x ∈ es' ∧
      Text.lowercase name' = Text.lowercase name ∧ t.isPrimary x.node = true := by
  constructor
  · intro hx
    obtain ⟨hmap, hprimary⟩ := List.mem_filter.mp hx
    obtain ⟨⟨name', x⟩, hfilter, rfl⟩ := List.mem_map.mp hmap
    obtain ⟨hnamed, hname⟩ := List.mem_filter.mp hfilter
    obtain ⟨es', hes', hx⟩ := mem_namedEntries_iff.mp hnamed
    exact ⟨name', es', (group?_of_node? hn name').trans hes', hx, of_decide_eq_true hname, hprimary⟩
  · rintro ⟨name', es', hes', hx, hname, hprimary⟩
    rw [group?_of_node? hn] at hes'
    exact mem_peers hes' hx hprimary hname

/-- The other peers of an entry are the primary nodes beside its node. -/
theorem Inv.exists_peer_iff (h : Inv (Labels kinds) t) (hn : t.node? p = some n)
    (hes : t.group? p name = some es) (he : e ∈ es) {q : Entry → Prop} {r : NodeId → Prop}
    (hqr : ∀ {name' es' x}, t.group? p name' = some es' → x ∈ es' → (q x ↔ r x.node)) :
    (∃ x ∈ t.peers n name, x ≠ e ∧ q x) ↔
      ∃ k, Beside t e.node k ∧ t.isPrimary k = true ∧ r k := by
  obtain ⟨hparent, hname⟩ := h.rooted.below hes e he
  constructor
  · rintro ⟨x, hx, hne, hq⟩
    obtain ⟨name', es', hes', hx, hlower, hprimary⟩ := (mem_peers_iff hn).mp hx
    obtain ⟨hparent', hname'⟩ := h.rooted.below hes' x hx
    refine ⟨x.node, ⟨fun hnode => hne ?_, ?_, ?_⟩, hprimary, (hqr hes' hx).mp hq⟩
    · rw [group?_of_node? hn] at hes hes'
      exact h.rooted.entry_unique hn hes he hes' hx hnode
    · rw [hparent, hparent']
    · rw [hname, hname', Option.map_some, Option.map_some, hlower]
  · rintro ⟨k, ⟨hne, hparent', hname'⟩, hprimary, hr⟩
    rw [hparent] at hparent'
    rw [hname] at hname'
    obtain ⟨name', hk, hlower⟩ := Option.map_eq_some_iff.mp hname'
    obtain ⟨x, hx, rfl⟩ := h.rooted.listed hparent' hk
    obtain ⟨es', hes', hx⟩ := mem_entries_iff.mp hx
    refine ⟨x, (mem_peers_iff hn).mpr ⟨name', es', hes', hx, hlower, hprimary⟩, ?_, (hqr hes' hx).mpr hr⟩
    rintro rfl
    exact hne rfl

end Views

/-! ## Suffixes -/

section Suffixes

variable {group : List Entry} {e : Entry} {hash kind : String}

open scoped Classical in
/-- The suffix of a labelled entry among others. -/
theorem disambiguator?_eq (hnodup : group.Nodup) (he : e ∈ group) (hhash : e.hash = some hash)
    (hkind : e.kind = some kind) : e.disambiguator? group =
      if ∃ x ∈ group, x ≠ e then
        if ∃ x ∈ group, x ≠ e ∧ x.kind = some kind then some (.hash hash) else some (.kind kind)
      else none := by
  have hlength : group.length ≤ 1 ↔ ¬∃ x ∈ group, x ≠ e := by
    constructor
    · rintro hle ⟨x, hx, hne⟩
      exact hne (eq_of_length_le_one hle hx he)
    · intro hall
      have hone := filter_eq_singleton (p := fun _ => true) hnodup he rfl fun x hx _ => by
        by_contra hne
        exact hall ⟨x, hx, hne⟩
      rw [List.filter_true] at hone
      rw [hone]
      exact Nat.le_refl 1
  have hsame : (group.filter (·.kind == some kind)).length = 1 ↔
      ¬∃ x ∈ group, x ≠ e ∧ x.kind = some kind := by
    constructor
    · rintro hone ⟨x, hx, hne, hxkind⟩
      have hmem : ∀ y ∈ group, y.kind = some kind → y ∈ group.filter (·.kind == some kind) :=
        fun y hy hyk => List.mem_filter.mpr ⟨hy, beq_iff_eq.mpr hyk⟩
      exact hne (eq_of_length_le_one (Nat.le_of_eq hone) (hmem x hx hxkind) (hmem e he hkind))
    · intro hall
      have hone := filter_eq_singleton (p := fun x => x.kind == some kind) hnodup he
        (beq_iff_eq.mpr hkind) fun x hx hxkind => by
          by_contra hne
          exact hall ⟨x, hx, hne, beq_iff_eq.mp hxkind⟩
      rw [hone]
      rfl
  simp only [Entry.disambiguator?, hkind, hhash, hlength, hsame, Option.map_some, ite_not]

end Suffixes

section Segments

variable {t : PathTree} {kinds : String → String} {p : NodeId} {n : Node} {name : String}
  {es : List Entry} {e : Entry}

open scoped Classical in
/-- The suffix of a primary node depends on what stands beside it. -/
theorem Inv.suffix?_eq (h : Inv (Labels kinds) t) (hn : t.node? p = some n)
    (hes : t.group? p name = some es) (he : e ∈ es) {id : String}
    (hid : t.primary.get? id = some e.node) : t.suffix? n name e =
      if HolderBeside t e.node ∨ SymbolBeside t (fun _ => True) e.node then
        if SymbolBeside t (fun id' => kinds id' = kinds id) e.node then
          some (.hash (ShortHash.ofIdentifier id))
        else some (.kind (kinds id))
      else none := by
  have hsym := h.indexed.primary_mem hid
  have hprimary : t.isPrimary e.node = true := (isPrimary_iff h.indexed).mpr (.inr ⟨id, hid⟩)
  obtain ⟨hnone, -⟩ | ⟨id', hid', hhash, hkind⟩ := h.label hes he
  · cases hnone.symm.trans hsym
  cases hid'.symm.trans hsym
  have hpeer : e ∈ t.peers n name := (mem_peers_iff hn).mpr ⟨name, es, hes, he, rfl, hprimary⟩
  have hothers : (∃ x ∈ t.peers n name, x ≠ e) ↔
      HolderBeside t e.node ∨ SymbolBeside t (fun _ => True) e.node := by
    have hiff := h.exists_peer_iff hn hes he (q := fun _ => True) (r := fun _ => True) fun _ _ => Iff.rfl
    simp only [and_true] at hiff
    rw [hiff]
    constructor
    · rintro ⟨k, hbeside, hk⟩
      rcases (isPrimary_iff h.indexed).mp hk with ⟨hlt, hs⟩ | ⟨id', hk⟩
      · exact .inl ⟨k, hlt, hbeside, hs⟩
      · exact .inr ⟨k, id', hbeside, hk, trivial⟩
    · rintro (⟨k, hlt, hbeside, hs⟩ | ⟨k, id', hbeside, hk, -⟩)
      · exact ⟨k, hbeside, (isPrimary_iff h.indexed).mpr (.inl ⟨hlt, hs⟩)⟩
      · exact ⟨k, hbeside, (isPrimary_iff h.indexed).mpr (.inr ⟨id', hk⟩)⟩
  have hsame : (∃ x ∈ t.peers n name, x ≠ e ∧ x.kind = some (kinds id)) ↔
      SymbolBeside t (fun id' => kinds id' = kinds id) e.node := by
    have hiff := h.exists_peer_iff hn hes he (q := fun x => x.kind = some (kinds id))
      (r := fun k => ∃ id', t.symbolAt? k = some id' ∧ kinds id' = kinds id) fun {name' es' x} hes' hx => by
        obtain ⟨hnone, hnokind⟩ | ⟨id', hid', -, hxkind⟩ := h.label hes' hx
        · simp [hnone, hnokind]
        · simp [hid', hxkind]
    rw [hiff]
    constructor
    · rintro ⟨k, hbeside, hk, id', hid', hkinds⟩
      rcases (isPrimary_iff h.indexed).mp hk with ⟨-, hs⟩ | ⟨id'', hk⟩
      · cases hs.symm.trans hid'
      · cases (h.indexed.primary_mem hk).symm.trans hid'
        exact ⟨k, id', hbeside, hk, hkinds⟩
    · rintro ⟨k, id', hbeside, hk, hkinds⟩
      exact ⟨k, hbeside, (isPrimary_iff h.indexed).mpr (.inr ⟨id', hk⟩), id', h.indexed.primary_mem hk, hkinds⟩
  rw [suffix?_of_primary hprimary,
    disambiguator?_eq (h.rooted.nodup_peers hn name) hpeer hhash hkind]
  simp only [hothers, hsame]

/-- There is one way from the root to a node. -/
theorem At.unique (h : Rooted t) {i : NodeId} {segs segs' : List String} (hi : At t i segs)
    (hi' : At t i segs') : segs = segs' := by
  induction hi generalizing segs' with
  | root =>
    generalize hroot : PathTree.root = i at hi'
    cases hi' with
    | root => rfl
    | child above hn hes he =>
      exact absurd hroot.symm (h.ne_root (h.below hes _ he).1)
  | @child p n segs name es e above hn hes he ih =>
    generalize hnode : e.node = i at hi'
    cases hi' with
    | root => exact absurd hnode (h.ne_root (h.below hes _ he).1)
    | @child p' n' segs' name' es' e' above' hn' hes' he' =>
      obtain ⟨rfl, rfl⟩ := h.group_unique hes hes' he he' hnode
      cases hn.symm.trans hn'
      rw [ih above']
      rw [group?_of_node? hn] at hes hes'
      rw [h.entry_unique hn hes he hes' he' hnode.symm]

end Segments

end SymbolLinks.PathTree
