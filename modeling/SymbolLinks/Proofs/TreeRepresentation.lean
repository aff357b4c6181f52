import Mathlib.Data.List.Nodup
import SymbolLinks.Proofs.StoreLaws
import SymbolLinks.Proofs.TreeBuild

/-! What a built tree looks like, said about its records: which node is listed
where, what the entries of one container have in common, and what the two tables
of symbols hold. All of it follows from the invariant of growing trees. -/
namespace SymbolLinks.PathTree

/-- One place where an entry stands. -/
structure Listing where
  parent : NodeId
  name : String
  entry : Entry
  deriving DecidableEq

/-- All entries of all containers of all nodes. -/
def listings (t : PathTree) : List Listing :=
  t.nodes.toList.zipIdx.flatMap fun (n, i) =>
    n.children.entries.flatMap fun (name, es) => es.map fun e => ⟨i, name, e⟩

theorem mem_listings_iff {t : PathTree} {l : Listing} :
    l ∈ t.listings ↔ ∃ es, t.group? l.parent l.name = some es ∧ l.entry ∈ es := by
  obtain ⟨p, name, e⟩ := l
  simp only [listings, List.mem_flatMap, Prod.exists, List.mem_zipIdx_iff_getElem?, List.mem_map,
    Listing.mk.injEq, KeyMap.mem_entries_iff, Array.getElem?_toList]
  constructor
  · rintro ⟨n, i, hn, name', es, hes, e', he', rfl, rfl, rfl⟩
    exact ⟨es, by simp [group?, node?, hn, hes], he'⟩
  · rintro ⟨es, hg, he⟩
    obtain ⟨n, hn, hes⟩ := Option.bind_eq_some_iff.mp hg
    exact ⟨n, p, hn, name, es, hes, e, he, rfl, rfl, rfl⟩

/-- An entry stands in one place at most if no container repeats a node. -/
theorem nodup_listings {t : PathTree} (h : Rooted t) : t.listings.Nodup := by
  refine List.nodup_flatMap.mpr ⟨?_, ?_⟩
  · rintro ⟨n, i⟩ hn
    have hn : t.node? i = some n := by
      simpa [node?, List.mem_zipIdx_iff_getElem?] using hn
    refine List.nodup_flatMap.mpr ⟨?_, ?_⟩
    · rintro ⟨name, es⟩ hes
      have hg : t.group? i name = some es := by
        rw [group?_of_node? hn]
        exact KeyMap.mem_entries_iff.mp hes
      exact (h.nodup hg).of_map.map fun a b hab => (Listing.mk.inj hab).2.2
    · refine (List.pairwise_map.mp n.children.nodup_keys).imp fun {a b} hne => ?_
      rintro l ha hb
      obtain ⟨_, _, rfl⟩ := List.mem_map.mp ha
      obtain ⟨_, _, heq⟩ := List.mem_map.mp hb
      exact hne (Listing.mk.inj heq).2.1.symm
  · have hindices : (t.nodes.toList.zipIdx.map Prod.snd).Nodup := by
      rw [List.zipIdx_map_snd]
      exact List.nodup_range' _
    refine (List.pairwise_map.mp hindices).imp fun {a b} hne => ?_
    rintro l ha hb
    simp only [List.mem_flatMap, List.mem_map] at ha hb
    obtain ⟨_, _, _, _, rfl⟩ := ha
    obtain ⟨_, _, _, _, heq⟩ := hb
    exact hne (Listing.mk.inj heq).1.symm

/-- What holds of every tree that is built from the symbols of a store. -/
structure Represents (st : SymbolStore) (t : PathTree) : Prop where
  /-- Node 0 is there, and it is the only node without a parent. -/
  root_exists : ∃ n, t.node? root = some n
  no_parent_iff : ∀ i n, t.node? i = some n → (n.parent = none ↔ i = root)
  /-- Parents come before their children. -/
  parent_before : ∀ i n p, t.node? i = some n → n.parent = some p → p < i
  /-- Among all entries of the tree exactly one is the node's, and it stands below
  the node's parent under the node's own name. -/
  listed_once : ∀ i n p, t.node? i = some n → n.parent = some p →
    ∃ e, t.listings.filter (·.entry.node == i) = [⟨p, n.name, e⟩]
  /-- Only nodes with a parent are listed. -/
  listed_node : ∀ l ∈ t.listings, ∃ n, t.node? l.entry.node = some n ∧ n.parent = some l.parent
  container_nonempty : ∀ i n name es, t.node? i = some n → n.children.get? name = some es → es ≠ []
  /-- A container is one holder's, or it holds different symbols with the hashes and
  kinds that the store gives them. -/
  container_kinds : ∀ i n name es, t.node? i = some n → n.children.get? name = some es →
    (∃ j c, es = [⟨none, none, j⟩] ∧ t.node? j = some c ∧ c.symbol = none) ∨
    ((es.map fun e => t.symbolAt? e.node).Nodup ∧
      ∀ e ∈ es, ∃ s, st.get? s.id = some s ∧ t.symbolAt? e.node = some s.id ∧
        e.hash = some (ShortHash.ofIdentifier s.id) ∧ e.kind = some s.kind.identifier)
  /-- The spellings of a symbol are its nodes, in ascending order. -/
  spellings_ascending : ∀ id is, t.spellings.get? id = some is → is.Pairwise (· < ·)
  spellings_exact : ∀ id i, i ∈ (t.spellings.get? id).getD [] ↔ t.symbolAt? i = some id
  /-- The same symbols have spellings and a primary node, which is one of them. -/
  primary_keys : ∀ id, t.primary.contains id = t.spellings.contains id
  primary_spelling : ∀ id i, t.primary.get? id = some i →
    ∃ is, t.spellings.get? id = some is ∧ i ∈ is

theorem Rooted.parent_before {t : PathTree} (h : Rooted t) {i p : Nat}
    (hp : t.parentAt? i = some p) : p < i := by
  have hne : i ≠ root := by
    rintro rfl
    rw [h.root_parent] at hp
    cases hp
  obtain ⟨q, hq, hlt⟩ := h.parent_lt (lt_size_of_parentAt? hp) hne
  rw [hp] at hq
  cases hq
  exact hlt

theorem Rooted.listed_once {t : PathTree} (h : Rooted t) {i p : Nat} {name : String}
    (hp : t.parentAt? i = some p) (hname : t.nameAt? i = some name) :
    ∃ e, t.listings.filter (·.entry.node == i) = [⟨p, name, e⟩] := by
  obtain ⟨e, hlisted, hei⟩ := h.listed hp hname
  obtain ⟨es, hg, he⟩ := mem_entries_iff.mp hlisted
  refine ⟨e, ?_⟩
  have hmem : (⟨p, name, e⟩ : Listing) ∈ t.listings.filter (·.entry.node == i) :=
    List.mem_filter.mpr ⟨mem_listings_iff.mpr ⟨es, hg, he⟩, by simpa using hei⟩
  -- an entry of the same node stands in the same container, where nodes do not repeat
  have honly : ∀ l ∈ t.listings.filter (·.entry.node == i), l = ⟨p, name, e⟩ := by
    rintro ⟨q, name', e'⟩ hl
    obtain ⟨hl, he'i⟩ := List.mem_filter.mp hl
    obtain ⟨es', hg', he'⟩ := mem_listings_iff.mp hl
    have hsame : e.node = e'.node := hei.trans (by simpa using he'i : e'.node = i).symm
    obtain ⟨rfl, rfl⟩ := h.group_unique hg hg' he he' hsame
    cases hg.symm.trans hg'
    rw [List.inj_on_of_nodup_map (h.nodup hg) he he' hsame]
  refine List.perm_singleton.mp ((List.perm_ext_iff_of_nodup ((nodup_listings h).filter _)
    (List.nodup_singleton _)).mpr fun l => ?_)
  rw [List.mem_singleton]
  exact ⟨honly l, fun heq => heq ▸ hmem⟩

/-- The invariant of growing trees, read off the records of a tree. -/
theorem Inv.represents {st : SymbolStore} {t : PathTree} (h : Inv (LabelOf st) t) :
    Represents st t where
  root_exists := exists_node h.rooted.root_lt
  no_parent_iff := by
    intro i n hn
    rw [← parentAt?_of_node? hn]
    constructor
    · intro hnone
      by_contra hne
      obtain ⟨p, hp, _⟩ := h.rooted.parent_lt (lt_size hn) hne
      rw [hnone] at hp
      cases hp
    · intro hroot
      rw [hroot]
      exact h.rooted.root_parent
  parent_before := by
    intro i n p hn hp
    exact h.rooted.parent_before ((parentAt?_of_node? hn).trans hp)
  listed_once := by
    intro i n p hn hp
    exact h.rooted.listed_once ((parentAt?_of_node? hn).trans hp) (nameAt?_of_node? hn)
  listed_node := by
    intro l hl
    obtain ⟨es, hg, he⟩ := mem_listings_iff.mp hl
    obtain ⟨n, hn⟩ := exists_node (h.rooted.node_lt hg he)
    exact ⟨n, hn, (parentAt?_of_node? hn).symm.trans (h.rooted.below hg _ he).1⟩
  container_nonempty := by
    intro i n name es hn hes
    exact h.rooted.nonempty ((group?_of_node? hn name).trans hes)
  container_kinds := by
    intro i n name es hn hes
    have hg := (group?_of_node? hn name).trans hes
    rcases h.grouped i name es hg with ⟨j, rfl, hj⟩ | hsym
    · obtain ⟨c, hc⟩ := exists_node (h.rooted.node_lt hg (List.mem_singleton.mpr rfl))
      exact .inl ⟨j, c, rfl, hc, (symbolAt?_of_node? hc).symm.trans hj⟩
    · refine .inr ⟨hsym.distinct, fun e he => ?_⟩
      obtain ⟨id, hash, kind, hid, hhash, hkind, s, hs, rfl, rfl, rfl⟩ := hsym.labelled e he
      exact ⟨s, SymbolStore.get?_of_mem hs, hid, hhash, hkind⟩
  spellings_ascending := fun _ _ his => h.indexed.ascending his
  spellings_exact := fun _ _ => h.indexed.mem_iff
  primary_keys := fun _ => h.indexed.has_primary.symm
  primary_spelling := by
    intro id i hi
    have hmem := h.indexed.mem_iff.mpr (h.indexed.primary_mem hi)
    cases his : t.spellings.get? id with
    | none => rw [his] at hmem; cases hmem
    | some is => rw [his] at hmem; exact ⟨is, rfl, hmem⟩

/-- Whatever symbols a store is filled with, and whatever the table of members
holds, the built tree represents the store. -/
theorem represents_build (inserts : List Symbol) (members : MemberTable) :
    Represents (.ofInserts inserts) (build (.ofInserts inserts) members) :=
  (inv_build (.ofInserts inserts) members).represents

end SymbolLinks.PathTree
