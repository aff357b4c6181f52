import SymbolLinks.Proofs.TreeViews

/-! The invariant of a growing tree. `Rooted` says that parents and containers
describe one tree, `Grouped` what the entries of one container have in common, and
`Indexed` that the tables of symbols are in step with the nodes. Adding a symbol
and adding a holder keep all three, whatever node they start from. -/
namespace SymbolLinks.PathTree

/-- Parents come before their children, and a node is listed exactly in the
container of its own name below its parent. -/
structure Rooted (t : PathTree) : Prop where
  root_lt : root < t.size
  root_parent : t.parentAt? root = none
  parent_lt : ∀ {i : Nat}, i < t.size → i ≠ root → ∃ p : Nat, t.parentAt? i = some p ∧ p < i
  listed : ∀ {i p : Nat} {name : String}, t.parentAt? i = some p → t.nameAt? i = some name →
    ∃ e ∈ t.entries p name, e.node = i
  below : ∀ {p : Nat} {name : String} {es : List Entry}, t.group? p name = some es →
    ∀ e ∈ es, t.parentAt? e.node = some p ∧ t.nameAt? e.node = some name
  nonempty : ∀ {p : Nat} {name : String} {es : List Entry}, t.group? p name = some es → es ≠ []
  nodup : ∀ {p : Nat} {name : String} {es : List Entry}, t.group? p name = some es →
    (es.map (·.node)).Nodup

/-- The one entry of a node without symbol. -/
def HolderGroup (t : PathTree) (es : List Entry) : Prop :=
  ∃ i, es = [⟨none, none, i⟩] ∧ t.symbolAt? i = none

/-- Which hashes and kinds an identifier may be labelled with. -/
abbrev Labelling := String → String → String → Prop

/-- Entries of pairwise different symbols, each with a label that fits its symbol. -/
structure SymbolGroup (fits : Labelling) (t : PathTree) (es : List Entry) : Prop where
  distinct : (es.map fun e => t.symbolAt? e.node).Nodup
  labelled : ∀ e ∈ es, ∃ id hash kind, t.symbolAt? e.node = some id ∧ e.hash = some hash ∧
    e.kind = some kind ∧ fits id hash kind

def Grouped (fits : Labelling) (t : PathTree) : Prop :=
  ∀ p name es, t.group? p name = some es → HolderGroup t es ∨ SymbolGroup fits t es

/-- The tables list exactly the nodes of each symbol, in ascending order, and
choose one of them. -/
structure Indexed (t : PathTree) : Prop where
  ascending : ∀ {id : String} {is : List NodeId}, t.spellings.get? id = some is →
    is.Pairwise (· < ·)
  mem_iff : ∀ {id : String} {i : Nat},
    i ∈ (t.spellings.get? id).getD [] ↔ t.symbolAt? i = some id
  primary_mem : ∀ {id : String} {i : Nat}, t.primary.get? id = some i → t.symbolAt? i = some id
  has_primary : ∀ {id : String}, (t.spellings.get? id).isSome = (t.primary.get? id).isSome

/-- A symbol with a node has a primary node. -/
theorem Indexed.exists_primary {t : PathTree} (h : Indexed t) {i : Nat} {id : String}
    (hi : t.symbolAt? i = some id) : ∃ j, t.primary.get? id = some j := by
  rw [← Option.isSome_iff_exists, ← h.has_primary]
  cases hs : t.spellings.get? id with
  | some is => rfl
  | none =>
    have := h.mem_iff.mpr hi
    rw [hs] at this
    cases this

structure Inv (fits : Labelling) (t : PathTree) : Prop where
  rooted : Rooted t
  grouped : Grouped fits t
  indexed : Indexed t
  root_symbol : t.symbolAt? root = none

/-! ## The tree of the root -/

theorem rooted_initial : Rooted initial where
  root_lt := by decide
  root_parent := rfl
  parent_lt := by
    intro i hi hne
    exact absurd (Nat.lt_one_iff.mp hi) hne
  listed := by
    intro i p name hp _
    cases Nat.lt_one_iff.mp (lt_size_of_parentAt? hp)
    cases hp
  below := by
    intro p name es h
    cases Nat.lt_one_iff.mp (lt_size_of_group? h)
    cases h
  nonempty := by
    intro p name es h
    cases Nat.lt_one_iff.mp (lt_size_of_group? h)
    cases h
  nodup := by
    intro p name es h
    cases Nat.lt_one_iff.mp (lt_size_of_group? h)
    cases h

theorem indexed_initial : Indexed initial where
  ascending := by intro id is h; cases h
  mem_iff := by
    intro id i
    constructor
    · intro h; cases h
    · intro h
      cases Nat.lt_one_iff.mp (lt_size_of_symbolAt? h)
      cases h
  primary_mem := by intro id i h; cases h
  has_primary := by intro id; rfl

theorem inv_initial (fits : Labelling) : Inv fits initial where
  rooted := rooted_initial
  grouped := by
    intro p name es h
    cases Nat.lt_one_iff.mp (lt_size_of_group? h)
    cases h
  indexed := indexed_initial
  root_symbol := rfl

/-! ## What one change keeps -/

section Keep

variable {t : PathTree} {p : Nat} {name : String}

theorem Rooted.ne_root (h : Rooted t) {i : Nat} (hi : t.parentAt? i = some p) : i ≠ root := by
  intro heq
  rw [heq, h.root_parent] at hi
  cases hi

theorem Rooted.node_lt (h : Rooted t) {es : List Entry} (hg : t.group? p name = some es)
    {e : Entry} (he : e ∈ es) : e.node < t.size :=
  lt_size_of_parentAt? (h.below hg e he).1

theorem Rooted.entries_node_lt (h : Rooted t) {e : Entry} (he : e ∈ t.entries p name) :
    e.node < t.size := by
  obtain ⟨es, hg, he⟩ := mem_entries_iff.mp he
  exact h.node_lt hg he

theorem Rooted.pushChild (h : Rooted t) (hp : p < t.size) (hash kind : Option String) :
    Rooted (t.pushChild p name hash kind) where
  root_lt := by
    rw [size_pushChild]
    exact Nat.lt_succ_of_lt h.root_lt
  root_parent := by
    rw [parentAt?_pushChild, if_neg (Nat.ne_of_lt h.root_lt)]
    exact h.root_parent
  parent_lt := by
    intro i hi hne
    rw [size_pushChild] at hi
    rw [parentAt?_pushChild]
    split
    · rename_i hi
      exact ⟨p, rfl, hi ▸ hp⟩
    · exact h.parent_lt (by omega) hne
  listed := by
    intro i q name' hq hname
    rw [parentAt?_pushChild] at hq
    rw [nameAt?_pushChild] at hname
    simp only [mem_entries_iff, group?_pushChild t name hash kind hp]
    split at hq
    · rename_i hi
      rw [if_pos hi] at hname
      cases hq
      cases hname
      exact ⟨⟨hash, kind, t.size⟩, ⟨_, if_pos ⟨rfl, rfl⟩, by simp⟩, hi.symm⟩
    · rename_i hi
      rw [if_neg hi] at hname
      obtain ⟨e, he, hei⟩ := h.listed hq hname
      refine ⟨e, ?_, hei⟩
      by_cases hsame : q = p ∧ name' = name
      · obtain ⟨rfl, rfl⟩ := hsame
        exact ⟨_, if_pos ⟨rfl, rfl⟩, by simp [he]⟩
      · obtain ⟨es, hg, he⟩ := mem_entries_iff.mp he
        exact ⟨es, (if_neg hsame).trans hg, he⟩
  below := by
    intro q name' es hg e he
    rw [group?_pushChild t name hash kind hp] at hg
    rw [parentAt?_pushChild, nameAt?_pushChild]
    split at hg
    · rename_i hsame
      obtain ⟨rfl, rfl⟩ := hsame
      cases hg
      rcases List.mem_append.mp he with he | he
      · obtain ⟨es, hg, he⟩ := mem_entries_iff.mp he
        have hne := Nat.ne_of_lt (h.node_lt hg he)
        rw [if_neg hne, if_neg hne]
        exact h.below hg e he
      · cases List.mem_singleton.mp he
        exact ⟨if_pos rfl, if_pos rfl⟩
    · have hne := Nat.ne_of_lt (h.node_lt hg he)
      rw [if_neg hne, if_neg hne]
      exact h.below hg e he
  nonempty := by
    intro q name' es hg
    rw [group?_pushChild t name hash kind hp] at hg
    split at hg
    · cases hg
      simp
    · exact h.nonempty hg
  nodup := by
    intro q name' es hg
    rw [group?_pushChild t name hash kind hp] at hg
    split at hg
    · cases hg
      rw [List.map_append, List.map_singleton]
      refine List.nodup_append.mpr ⟨?_, by simp, ?_⟩
      · rw [entries_eq_group?]
        cases hg : t.group? p name with
        | none => exact List.nodup_nil
        | some es => exact h.nodup hg
      · intro i hi j hj
        obtain ⟨e, he, rfl⟩ := List.mem_map.mp hi
        cases List.mem_singleton.mp hj
        exact Nat.ne_of_lt (h.entries_node_lt he)
    · exact h.nodup hg

theorem Rooted.labelChild (h : Rooted t) {es : List Entry} (hg : t.group? p name = some es)
    (i : Nat) (sp : Spelling) : Rooted (t.labelChild p name i sp) where
  root_lt := by rw [size_labelChild]; exact h.root_lt
  root_parent := by rw [parentAt?_labelChild]; exact h.root_parent
  parent_lt := by
    intro j hj hne
    rw [size_labelChild] at hj
    rw [parentAt?_labelChild]
    exact h.parent_lt hj hne
  listed := by
    intro j q name' hq hname
    rw [parentAt?_labelChild] at hq
    rw [nameAt?_labelChild] at hname
    obtain ⟨e, he, hej⟩ := h.listed hq hname
    obtain ⟨es', hg', he⟩ := mem_entries_iff.mp he
    simp only [mem_entries_iff, group?_labelChild hg]
    by_cases hsame : q = p ∧ name' = name
    · obtain ⟨rfl, rfl⟩ := hsame
      cases hg.symm.trans hg'
      have hmem : j ∈ (labelEntry i sp.hash sp.kind es).map (·.node) := by
        rw [map_node_labelEntry]
        exact List.mem_map.mpr ⟨e, he, hej⟩
      obtain ⟨e', he', hej'⟩ := List.mem_map.mp hmem
      exact ⟨e', ⟨_, if_pos ⟨rfl, rfl⟩, he'⟩, hej'⟩
    · exact ⟨e, ⟨es', (if_neg hsame).trans hg', he⟩, hej⟩
  below := by
    intro q name' es' hg' e he
    rw [group?_labelChild hg] at hg'
    rw [parentAt?_labelChild, nameAt?_labelChild]
    split at hg'
    · rename_i hsame
      obtain ⟨rfl, rfl⟩ := hsame
      cases hg'
      have hmem : e.node ∈ es.map (·.node) := by
        rw [← map_node_labelEntry i sp.hash sp.kind es]
        exact List.mem_map.mpr ⟨e, he, rfl⟩
      obtain ⟨e', he', hee'⟩ := List.mem_map.mp hmem
      rw [← hee']
      exact h.below hg e' he'
    · exact h.below hg' e he
  nonempty := by
    intro q name' es' hg'
    rw [group?_labelChild hg] at hg'
    split at hg'
    · cases hg'
      intro hnil
      have hmap := map_node_labelEntry i sp.hash sp.kind es
      rw [hnil] at hmap
      exact h.nonempty hg (List.map_eq_nil_iff.mp hmap.symm)
    · exact h.nonempty hg'
  nodup := by
    intro q name' es' hg'
    rw [group?_labelChild hg] at hg'
    split at hg'
    · cases hg'
      rw [map_node_labelEntry]
      exact h.nodup hg
    · exact h.nodup hg'

/-- A change that keeps parents, names and containers keeps the shape. -/
theorem Rooted.congr {t' : PathTree} (h : Rooted t) (hsize : t'.size = t.size)
    (hparent : ∀ i, t'.parentAt? i = t.parentAt? i) (hname : ∀ i, t'.nameAt? i = t.nameAt? i)
    (hgroup : ∀ p name, t'.group? p name = t.group? p name) : Rooted t' where
  root_lt := by rw [hsize]; exact h.root_lt
  root_parent := by rw [hparent]; exact h.root_parent
  parent_lt := by
    intro i hi hne
    rw [hparent]
    exact h.parent_lt (hsize ▸ hi) hne
  listed := by
    intro i p name hp hn
    rw [hparent] at hp
    rw [hname] at hn
    rw [entries_eq_group?, hgroup, ← entries_eq_group?]
    exact h.listed hp hn
  below := by
    intro p name es hg e he
    rw [hparent, hname]
    rw [hgroup] at hg
    exact h.below hg e he
  nonempty := by intro p name es hg; rw [hgroup] at hg; exact h.nonempty hg
  nodup := by intro p name es hg; rw [hgroup] at hg; exact h.nodup hg

theorem Rooted.occupy (h : Rooted t) (i : Nat) (sp : Spelling) : Rooted (t.occupy i sp) :=
  h.congr (size_occupy t i sp) (parentAt?_occupy t i sp) (nameAt?_occupy t i sp)
    (group?_occupy t i sp)

/-- Tables that stay the same stay right while no node changes its symbol. -/
theorem Indexed.congr {t' : PathTree} (h : Indexed t)
    (hsym : ∀ i : Nat, t'.symbolAt? i = t.symbolAt? i) (hp : t'.primary = t.primary)
    (hs : t'.spellings = t.spellings) : Indexed t' where
  ascending := by intro id is hi; rw [hs] at hi; exact h.ascending hi
  mem_iff := by intro id i; rw [hs, hsym]; exact h.mem_iff
  primary_mem := by intro id i hi; rw [hsym]; rw [hp] at hi; exact h.primary_mem hi
  has_primary := by intro id; rw [hs, hp]; exact h.has_primary

/-- A node without symbol, or one that has the symbol already, takes a symbol. -/
theorem Indexed.occupy (h : Indexed t) {i : Nat} (hi : i < t.size) (sp : Spelling)
    (hfree : t.symbolAt? i = none ∨ t.symbolAt? i = some sp.id) : Indexed (t.occupy i sp) where
  ascending := by
    intro id is hs
    rw [spellings_occupy] at hs
    split at hs
    · cases hs
      apply pairwise_insertAscending
      cases hold : t.spellings.get? id with
      | none => exact List.Pairwise.nil
      | some old => exact h.ascending hold
    · exact h.ascending hs
  mem_iff := by
    intro id j
    rw [spellings_occupy, symbolAt?_occupy _ _ hi]
    by_cases hid : id = sp.id
    · rw [if_pos hid, Option.getD_some, mem_insertAscending, h.mem_iff, hid]
      by_cases hj : j = i <;> simp [hj]
    · rw [if_neg hid, h.mem_iff]
      by_cases hj : j = i
      · subst hj
        rw [if_pos rfl]
        rcases hfree with hf | hf <;> simp [hf, Ne.symm hid]
      · rw [if_neg hj]
  primary_mem := by
    intro id j hj
    rw [primary_occupy] at hj
    rw [symbolAt?_occupy _ _ hi]
    split at hj
    · rename_i hid
      cases hold : t.primary.get? id with
      | none =>
        rw [hold] at hj
        have hji : i = j := Option.some.inj hj
        rw [if_pos hji.symm, hid]
      | some k =>
        rw [hold] at hj
        have hkj : k = j := Option.some.inj hj
        rw [← hkj, h.primary_mem hold, hid, ite_self]
    · rename_i hid
      have hsym := h.primary_mem hj
      have hne : j ≠ i := by
        intro hji
        subst hji
        rw [hsym] at hfree
        simp [hid] at hfree
      rw [if_neg hne]
      exact hsym
  has_primary := by
    intro id
    rw [primary_occupy, spellings_occupy]
    split
    · rfl
    · exact h.has_primary

end Keep

/-! ## Adding a symbol -/

theorem any_symbol_iff {t : PathTree} {i : Nat} {s : Option String} (hi : i < t.size) :
    ((t.node? i).any fun n => n.symbol == s) = true ↔ t.symbolAt? i = s := by
  obtain ⟨n, hn⟩ := exists_node hi
  simp [symbolAt?, hn]

/-- A node is taken over if it is an entry of the name that has the symbol already
or none at all. -/
theorem reusable?_eq_some {t : PathTree} (h : Rooted t) {p : Nat} {name id : String} {i : Nat}
    (hr : t.reusable? p name id = some i) : ∃ es, t.group? p name = some es ∧
      (∃ e ∈ es, e.node = i) ∧ (t.symbolAt? i = none ∨ t.symbolAt? i = some id) := by
  have hfound : ∃ s, (s = none ∨ s = some id) ∧ ((t.entries p name).map (·.node)).find?
      (fun i => (t.node? i).any fun n => n.symbol == s) = some i := by
    rcases Option.or_eq_some_iff.mp hr with hr | ⟨_, hr⟩
    · exact ⟨_, .inr rfl, hr⟩
    · exact ⟨_, .inl rfl, hr⟩
  obtain ⟨s, hs, hfind⟩ := hfound
  obtain ⟨e, he, rfl⟩ := List.mem_map.mp (List.mem_of_find?_eq_some hfind)
  have hany := List.find?_some hfind
  have hsym := (any_symbol_iff (h.entries_node_lt he)).mp hany
  obtain ⟨es, hg, he⟩ := mem_entries_iff.mp he
  refine ⟨es, hg, ⟨e, he, rfl⟩, ?_⟩
  rcases hs with rfl | rfl
  · exact .inl hsym
  · exact .inr hsym

theorem reusable?_eq_none {t : PathTree} (h : Rooted t) {p : Nat} {name id : String}
    (hr : t.reusable? p name id = none) {e : Entry} (he : e ∈ t.entries p name) :
    t.symbolAt? e.node ≠ none ∧ t.symbolAt? e.node ≠ some id := by
  obtain ⟨hid, hfree⟩ := Option.or_eq_none_iff.mp hr
  have hmem : e.node ∈ (t.entries p name).map (·.node) := List.mem_map.mpr ⟨e, he, rfl⟩
  have hlt := h.entries_node_lt he
  constructor
  · intro hs
    exact List.find?_eq_none.mp hfree _ hmem ((any_symbol_iff hlt).mpr hs)
  · intro hs
    exact List.find?_eq_none.mp hid _ hmem ((any_symbol_iff hlt).mpr hs)

section Groups

variable {fits : Labelling} {t t' : PathTree}

theorem HolderGroup.congr {es : List Entry} (h : HolderGroup t es)
    (hsym : ∀ e ∈ es, t'.symbolAt? e.node = t.symbolAt? e.node) : HolderGroup t' es := by
  obtain ⟨i, rfl, hi⟩ := h
  exact ⟨i, rfl, (hsym _ (List.mem_singleton.mpr rfl)).trans hi⟩

theorem SymbolGroup.congr {es : List Entry} (h : SymbolGroup fits t es)
    (hsym : ∀ e ∈ es, t'.symbolAt? e.node = t.symbolAt? e.node) : SymbolGroup fits t' es where
  distinct := by
    rw [List.map_congr_left hsym]
    exact h.distinct
  labelled := by
    intro e he
    rw [hsym e he]
    exact h.labelled e he

theorem group_congr {es : List Entry} (h : HolderGroup t es ∨ SymbolGroup fits t es)
    (hsym : ∀ e ∈ es, t'.symbolAt? e.node = t.symbolAt? e.node) :
    HolderGroup t' es ∨ SymbolGroup fits t' es :=
  h.imp (·.congr hsym) (·.congr hsym)

/-- A container whose nodes all have symbols is no holder's. -/
theorem SymbolGroup.of_symbols {es : List Entry} (h : HolderGroup t es ∨ SymbolGroup fits t es)
    (hsym : ∀ e ∈ es, t.symbolAt? e.node ≠ none) : SymbolGroup fits t es := by
  rcases h with ⟨i, rfl, hi⟩ | h
  · exact absurd hi (hsym _ (List.mem_singleton.mpr rfl))
  · exact h

/-- One more entry, of a symbol that is new to the container. -/
theorem SymbolGroup.snoc {es : List Entry} {e : Entry} {id hash kind : String}
    (h : SymbolGroup fits t es) (hnew : ∀ e' ∈ es, t.symbolAt? e'.node ≠ some id)
    (hsym : t.symbolAt? e.node = some id) (hhash : e.hash = some hash) (hkind : e.kind = some kind)
    (hfits : fits id hash kind) : SymbolGroup fits t (es ++ [e]) where
  distinct := by
    rw [List.map_append, List.map_singleton, hsym]
    refine List.nodup_append.mpr ⟨h.distinct, by simp, ?_⟩
    intro s hs s' hs'
    obtain ⟨e', he', rfl⟩ := List.mem_map.mp hs
    cases List.mem_singleton.mp hs'
    exact hnew e' he'
  labelled := by
    intro e' he'
    rcases List.mem_append.mp he' with he' | he'
    · exact h.labelled e' he'
    · cases List.mem_singleton.mp he'
      exact ⟨id, hash, kind, hsym, hhash, hkind, hfits⟩

/-- A holder's entry becomes a symbol's, and a symbol's entry keeps its symbol. -/
theorem SymbolGroup.label {es : List Entry} {i : Nat} {id hash kind : String}
    (h : HolderGroup t es ∨ SymbolGroup fits t es) (hn : (es.map (·.node)).Nodup)
    (hi : ∃ e ∈ es, e.node = i) (hfree : t.symbolAt? i = none ∨ t.symbolAt? i = some id)
    (hsym : ∀ j, t'.symbolAt? j = if j = i then some id else t.symbolAt? j)
    (hfits : fits id hash kind) : SymbolGroup fits t' (labelEntry i hash kind es) where
  distinct := by
    have hmap : (labelEntry i hash kind es).map (fun e => t'.symbolAt? e.node) =
        es.map fun e => t'.symbolAt? e.node := by
      have := congrArg (List.map t'.symbolAt?) (map_node_labelEntry i hash kind es)
      simpa only [List.map_map, Function.comp_def] using this
    rw [hmap]
    obtain ⟨e₀, he₀, rfl⟩ := hi
    rcases h with ⟨j, rfl, hj⟩ | h
    · simp
    · obtain ⟨id', hash', kind', hs, _⟩ := h.labelled e₀ he₀
      have hsame : ∀ e ∈ es, t'.symbolAt? e.node = t.symbolAt? e.node := by
        intro e he
        rw [hsym]
        split
        · rename_i heq
          rw [heq]
          rcases hfree with hf | hf
          · rw [hs] at hf; cases hf
          · exact hf.symm
        · rfl
      rw [List.map_congr_left hsame]
      exact h.distinct
  labelled := by
    intro e he
    rcases mem_labelEntry hn he with ⟨hei, hhash, hkind⟩ | ⟨hei, hmem⟩
    · exact ⟨id, hash, kind, by rw [hsym, if_pos hei], hhash, hkind, hfits⟩
    · rcases h with ⟨j, rfl, hj⟩ | h
      · obtain ⟨e₀, he₀, rfl⟩ := hi
        cases List.mem_singleton.mp he₀
        cases List.mem_singleton.mp hmem
        exact absurd rfl hei
      · rw [hsym, if_neg hei]
        exact h.labelled e hmem

end Groups

section Add

variable {fits : Labelling} {t : PathTree} {p : Nat} {name : String}

/-- A node belongs to one container only. -/
theorem Rooted.group_unique (h : Rooted t) {q : Nat} {name' : String} {es es' : List Entry}
    (hg : t.group? p name = some es) (hg' : t.group? q name' = some es') {e e' : Entry}
    (he : e ∈ es) (he' : e' ∈ es') (hee : e.node = e'.node) : q = p ∧ name' = name := by
  obtain ⟨hp, hn⟩ := h.below hg e he
  obtain ⟨hp', hn'⟩ := h.below hg' e' he'
  rw [hee] at hp hn
  exact ⟨Option.some.inj (hp'.symm.trans hp), Option.some.inj (hn'.symm.trans hn)⟩

/-- A node with a parent stands in one of its containers. -/
theorem Rooted.exists_entry (h : Rooted t) {i : Nat} (hp : t.parentAt? i = some p) :
    ∃ name es, t.group? p name = some es ∧ ∃ e ∈ es, e.node = i := by
  obtain ⟨n, hn⟩ := exists_node (lt_size_of_parentAt? hp)
  obtain ⟨e, he, hei⟩ := h.listed hp (nameAt?_of_node? hn)
  obtain ⟨es, hes, he⟩ := mem_entries_iff.mp he
  exact ⟨n.name, es, hes, e, he, hei⟩

theorem Inv.addSymbol_new (h : Inv fits t) (hp : p < t.size) {sp : Spelling}
    (hs : fits sp.id sp.hash sp.kind) (hr : t.reusable? p name sp.id = none) :
    Inv fits ((t.pushChild p name (some sp.hash) (some sp.kind)).occupy t.size sp) := by
  have hsize : t.size < (t.pushChild p name (some sp.hash) (some sp.kind)).size := by
    rw [size_pushChild]
    exact Nat.lt_succ_self _
  have hsym : ∀ j, ((t.pushChild p name (some sp.hash) (some sp.kind)).occupy t.size sp).symbolAt? j
      = if j = t.size then some sp.id else t.symbolAt? j := by
    intro j
    rw [symbolAt?_occupy _ _ hsize, symbolAt?_pushChild]
  have hfree : (t.pushChild p name (some sp.hash) (some sp.kind)).symbolAt? t.size = none := by
    rw [symbolAt?_pushChild, symbolAt?, node?_eq_none_iff.mpr (Nat.le_refl _)]
    rfl
  refine ⟨(h.rooted.pushChild hp _ _).occupy _ _, ?_,
    (h.indexed.congr (symbolAt?_pushChild t p name _ _) rfl rfl).occupy hsize sp (.inl hfree), ?_⟩
  case refine_2 =>
    rw [hsym, if_neg (Nat.ne_of_lt h.rooted.root_lt)]
    exact h.root_symbol
  intro q name' es hg
  rw [group?_occupy, group?_pushChild t name _ _ hp] at hg
  split at hg
  · cases hg
    have hold : ∀ e ∈ t.entries p name, _ := fun e he => (hsym e.node).trans
      (if_neg (Nat.ne_of_lt (h.rooted.entries_node_lt he)))
    have hsymbols : SymbolGroup fits t (t.entries p name) := by
      rw [entries_eq_group?]
      cases hg : t.group? p name with
      | none => exact ⟨List.nodup_nil, fun e he => by cases he⟩
      | some es =>
        refine .of_symbols (h.grouped _ _ _ hg) fun e he => ?_
        exact (reusable?_eq_none h.rooted hr (mem_entries_iff.mpr ⟨es, hg, he⟩)).1
    have hnew : ∀ e ∈ t.entries p name,
        ((t.pushChild p name (some sp.hash) (some sp.kind)).occupy t.size sp).symbolAt? e.node ≠
          some sp.id := by
      intro e he
      rw [hold e he]
      exact (reusable?_eq_none h.rooted hr he).2
    exact .inr ((hsymbols.congr hold).snoc hnew (by rw [hsym, if_pos rfl]) rfl rfl hs)
  · refine group_congr (h.grouped q name' es hg) fun e he => ?_
    rw [hsym, if_neg (Nat.ne_of_lt (h.rooted.node_lt hg he))]

theorem Inv.addSymbol_reuse (h : Inv fits t) {sp : Spelling} (hs : fits sp.id sp.hash sp.kind)
    {i : Nat} (hr : t.reusable? p name sp.id = some i) :
    Inv fits ((t.labelChild p name i sp).occupy i sp) ∧ i < t.size := by
  obtain ⟨es, hg, ⟨e, he, rfl⟩, hfree⟩ := reusable?_eq_some h.rooted hr
  have hi : e.node < t.size := h.rooted.node_lt hg he
  have hi' : e.node < (t.labelChild p name e.node sp).size := by rw [size_labelChild]; exact hi
  have hsym : ∀ j, ((t.labelChild p name e.node sp).occupy e.node sp).symbolAt? j =
      if j = e.node then some sp.id else t.symbolAt? j := by
    intro j
    rw [symbolAt?_occupy _ _ hi', symbolAt?_labelChild]
  refine ⟨⟨(h.rooted.labelChild hg _ _).occupy _ _, ?_, ?_, ?_⟩, hi⟩
  · intro q name' es' hg'
    rw [group?_occupy, group?_labelChild hg] at hg'
    split at hg'
    · cases hg'
      exact .inr (.label (h.grouped p name es hg) (h.rooted.nodup hg) ⟨e, he, rfl⟩ hfree hsym hs)
    · rename_i hother
      refine group_congr (h.grouped q name' es' hg') fun e' he' => ?_
      rw [hsym, if_neg]
      intro hee
      exact hother (h.rooted.group_unique hg hg' he he' hee.symm)
  · refine (h.indexed.congr (symbolAt?_labelChild t p name e.node sp) rfl rfl).occupy hi' sp ?_
    rw [symbolAt?_labelChild]
    exact hfree
  · rw [hsym, if_neg]
    · exact h.root_symbol
    · intro hroot
      have hparent := (h.rooted.below hg e he).1
      rw [← hroot, h.rooted.root_parent] at hparent
      cases hparent

/-- Adding a symbol keeps the invariant; its node is a node of the larger tree. -/
theorem Inv.addSymbol (h : Inv fits t) (hp : p < t.size) (name : String) {sp : Spelling}
    (hs : fits sp.id sp.hash sp.kind) :
    Inv fits (t.addSymbol p name sp).1 ∧ t.size ≤ (t.addSymbol p name sp).1.size ∧
      (t.addSymbol p name sp).2 < (t.addSymbol p name sp).1.size := by
  unfold PathTree.addSymbol
  split
  · rename_i i hr
    obtain ⟨hinv, hi⟩ := h.addSymbol_reuse hs hr
    rw [size_occupy, size_labelChild]
    exact ⟨hinv, Nat.le_refl _, hi⟩
  · rename_i hr
    rw [size_occupy, size_pushChild]
    exact ⟨h.addSymbol_new hp hs hr, Nat.le_succ _, Nat.lt_succ_self _⟩

/-! ## Adding a holder -/

theorem Inv.modifyLanguages (h : Inv fits t) (i : Nat) (f : KeySet Language → KeySet Language) :
    Inv fits (t.modifyNode i fun n => { n with languages := f n.languages }) := by
  have hsym := fun j => symbolAt?_modifyNode t i j
    (f := fun n => { n with languages := f n.languages }) fun _ => rfl
  have hgroup := fun q name => group?_modifyNode t i q
    (f := fun n => { n with languages := f n.languages }) name fun _ => rfl
  refine ⟨h.rooted.congr (size_modifyNode _ _ _) (fun j => parentAt?_modifyNode _ _ _ fun _ => rfl)
    (fun j => nameAt?_modifyNode _ _ _ fun _ => rfl) hgroup, ?_, h.indexed.congr hsym rfl rfl,
    (hsym root).trans h.root_symbol⟩
  intro q name es hg
  rw [hgroup] at hg
  exact group_congr (h.grouped q name es hg) fun e _ => hsym e.node

theorem Inv.pushHolder (h : Inv fits t) (hp : p < t.size) (hnone : t.entries p name = []) :
    Inv fits (t.pushChild p name none none) := by
  refine ⟨h.rooted.pushChild hp _ _, ?_,
    h.indexed.congr (symbolAt?_pushChild t p name _ _) rfl rfl,
    (symbolAt?_pushChild t p name _ _ root).trans h.root_symbol⟩
  intro q name' es hg
  rw [group?_pushChild t name _ _ hp] at hg
  split at hg
  · cases hg
    refine .inl ⟨t.size, by rw [hnone, List.nil_append], ?_⟩
    rw [symbolAt?_pushChild, symbolAt?, node?_eq_none_iff.mpr (Nat.le_refl _)]
    rfl
  · exact group_congr (h.grouped q name' es hg) fun e _ => symbolAt?_pushChild t p name _ _ e.node

/-- Finding or adding a holder keeps the invariant. -/
theorem Inv.addHolder (h : Inv fits t) (hp : p < t.size) (name : String) (l : Language) :
    Inv fits (t.addHolder p name l).1 ∧ t.size ≤ (t.addHolder p name l).1.size ∧
      (t.addHolder p name l).2 < (t.addHolder p name l).1.size := by
  cases hes : t.entries p name with
  | nil =>
    simp only [PathTree.addHolder, hes, size_modifyNode, size_pushChild]
    exact ⟨(h.pushHolder hp hes).modifyLanguages _ (·.add l), Nat.le_succ _, Nat.lt_succ_self _⟩
  | cons e es =>
    have he : e ∈ t.entries p name := by rw [hes]; simp
    simp only [PathTree.addHolder, hes, size_modifyNode]
    exact ⟨h.modifyLanguages _ (·.add l), Nat.le_refl _, h.rooted.entries_node_lt he⟩

end Add

end SymbolLinks.PathTree
