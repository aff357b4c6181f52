import Mathlib.Data.List.Induction
import SymbolLinks.Proofs.KeyMapLaws
import SymbolLinks.SymbolStore

/-! Stores and their identifiers. Since a store's indexes agree with its symbols, looking an
identifier up is searching the symbols for it (`get?_eq_find?`). However a store is filled,
its identifiers stand in the order of their first insertions. But for its names a symbol is
what was inserted first under its identifier. -/
namespace SymbolLinks.SymbolStore

/-- The store after inserting symbols in turn. -/
def ofInserts (ss : List Symbol) : SymbolStore := ss.foldl insert ∅

theorem ofInserts_snoc (ss : List Symbol) (x : Symbol) :
    ofInserts (ss ++ [x]) = (ofInserts ss).insert x := by
  simp [ofInserts]

def ids (st : SymbolStore) : List String := st.symbols.map (·.id)

/-! ## Looking up identifiers -/

theorem nodup_ids (st : SymbolStore) : st.ids.Nodup := st.distinct

/-- Identifiers find the positions of their symbols. -/
theorem indexOf?_eq_some_iff {st : SymbolStore} {id : String} {i : ℕ} :
    st.indexOf? id = some i ↔ st.ids[i]? = some id := by
  have hindex : st.indexOf? id = st.ids.idxOf? id := st.index_agrees id
  rw [hindex, List.idxOf?_eq_some_iff, List.getElem?_eq_some_iff]
  constructor
  · intro hfound
    obtain ⟨hi, hid, -⟩ := hfound
    exact ⟨hi, hid⟩
  · intro hat
    obtain ⟨hi, hid⟩ := hat
    refine ⟨hi, hid, fun j hji hj => ?_⟩
    have hne : st.ids[j] ≠ st.ids[i] :=
      List.pairwise_iff_getElem.mp st.nodup_ids j i (Nat.lt_trans hji hi) hi hji
    exact hne (hj.trans hid.symm)

theorem indexOf?_eq_none_iff {st : SymbolStore} {id : String} :
    st.indexOf? id = none ↔ id ∉ st.ids := by
  rw [indexOf?, st.index_agrees, List.idxOf?_eq_none_iff]
  rfl

theorem contains_iff_mem_ids {st : SymbolStore} {id : String} :
    st.contains id = true ↔ id ∈ st.ids := by
  rw [contains, Option.isSome_iff_ne_none, ne_eq, indexOf?_eq_none_iff, not_not]

theorem get?_eq_some_iff {st : SymbolStore} {id : String} {s : Symbol} :
    st.get? id = some s ↔ s ∈ st.symbols ∧ s.id = id := by
  simp only [get?, Option.bind_eq_some_iff, indexOf?_eq_some_iff, ids, List.getElem?_map,
    Option.map_eq_some_iff, List.mem_iff_getElem?]
  constructor
  · intro h
    obtain ⟨i, ⟨s', hs', hid⟩, hs⟩ := h
    cases hs'.symm.trans hs
    exact ⟨⟨i, hs⟩, hid⟩
  · intro h
    obtain ⟨⟨i, hs⟩, hid⟩ := h
    exact ⟨i, ⟨s, hs, hid⟩, hs⟩

theorem mem_of_get? {st : SymbolStore} {a : String} {s : Symbol} (h : st.get? a = some s) :
    s ∈ st.symbols :=
  (get?_eq_some_iff.mp h).1

theorem id_of_get? {st : SymbolStore} {a : String} {s : Symbol} (h : st.get? a = some s) :
    s.id = a :=
  (get?_eq_some_iff.mp h).2

/-- Identifiers find their symbols. -/
theorem get?_of_mem {st : SymbolStore} {s : Symbol} (hs : s ∈ st.symbols) :
    st.get? s.id = some s :=
  get?_eq_some_iff.mpr ⟨hs, rfl⟩

/-- Symbols with the same identifier are the same. -/
theorem eq_of_id {st : SymbolStore} {s s' : Symbol} (hs : s ∈ st.symbols) (hs' : s' ∈ st.symbols)
    (hid : s.id = s'.id) : s = s' :=
  Option.some.inj ((get?_eq_some_iff.mpr ⟨hs, hid⟩).symm.trans (get?_of_mem hs'))

/-- Looking an identifier up is searching for it. -/
theorem get?_eq_find? (st : SymbolStore) (id : String) :
    st.get? id = st.symbols.find? (·.id == id) :=
  st.index_agrees.bind_getElem? id

theorem contains_eq_isSome_get? (st : SymbolStore) (id : String) :
    st.contains id = (st.get? id).isSome := by
  rw [Bool.eq_iff_iff, contains_iff_mem_ids, get?_eq_find?, List.find?_isSome]
  simp [ids]

/-! ## Changing and adding symbols -/

/-- A change is made to the symbol that has the identifier. -/
theorem symbols_update (st : SymbolStore) (id : String) {f : Symbol → Symbol}
    (keeps : ∀ s, (f s).id = s.id) :
    (st.update id f keeps).symbols = st.symbols.map fun s => if s.id = id then f s else s := by
  unfold update
  split
  · rename_i hnone
    have hother : ∀ s ∈ st.symbols, (if s.id = id then f s else s) = s := by
      intro s hs
      refine if_neg fun hid => indexOf?_eq_none_iff.mp hnone ?_
      exact hid ▸ List.mem_map_of_mem hs
    exact (List.map_congr_left hother).trans (List.map_id' _) |>.symm
  · rename_i i hi
    refine List.ext_getElem? fun j => ?_
    rw [withSymbols, List.getElem?_modify, List.getElem?_map]
    cases hj : st.symbols[j]? with
    | none => rfl
    | some s =>
      -- The symbol at the position of the identifier is the one that has it.
      have hid : i = j ↔ s.id = id := by
        have hat : st.ids[j]? = some s.id := by rw [ids, List.getElem?_map, hj, Option.map_some]
        constructor
        · rintro rfl
          exact Option.some.inj (hat.symm.trans (indexOf?_eq_some_iff.mp hi))
        · rintro rfl
          exact Option.some.inj (hi.symm.trans (indexOf?_eq_some_iff.mpr hat))
      simp only [hid]
      rfl

theorem ids_update (st : SymbolStore) (id : String) {f : Symbol → Symbol}
    (keeps : ∀ s, (f s).id = s.id) : (st.update id f keeps).ids = st.ids := by
  unfold update
  split
  · rfl
  · exact map_id_modify keeps _ _

theorem index_update (st : SymbolStore) (id : String) {f : Symbol → Symbol}
    (keeps : ∀ s, (f s).id = s.id) : (st.update id f keeps).index = st.index := by
  unfold update
  split <;> rfl

theorem byPlace_update (st : SymbolStore) (id : String) {f : Symbol → Symbol}
    (keeps : ∀ s, (f s).id = s.id) : (st.update id f keeps).byPlace = st.byPlace := by
  unfold update
  split <;> rfl

theorem ids_insert (st : SymbolStore) (s : Symbol) :
    (st.insert s).ids = if st.contains s.id then st.ids else st.ids ++ [s.id] := by
  unfold insert
  split
  · exact ids_update st s.id _
  · exact List.map_append

/-- Identifiers stand in the order of their first insertions. -/
theorem ids_ofInserts (ss : List Symbol) : (ofInserts ss).ids = (ss.map (·.id)).eraseDups := by
  induction ss using List.reverseRecOn with
  | nil => rfl
  | append_singleton ss x ih =>
    have hknown : (ofInserts ss).contains x.id = (ss.map (·.id)).elem x.id := by
      rw [Bool.eq_iff_iff, contains_iff_mem_ids, ih, List.mem_eraseDups, List.elem_iff]
    rw [ofInserts_snoc, ids_insert, hknown, List.map_append, List.eraseDups_append, ← ih,
      List.map_singleton, List.removeAll]
    cases hx : (ss.map (·.id)).elem x.id with
    | true =>
      rw [if_pos rfl, List.filter_cons_of_neg (by rw [hx]; decide), List.filter_nil, List.eraseDups_nil,
        List.append_nil]
    | false =>
      rw [if_neg (by decide), List.filter_cons_of_pos (by rw [hx]; decide), List.filter_nil]
      rfl

theorem mem_ids_ofInserts {ss : List Symbol} {id : String} :
    id ∈ (ofInserts ss).ids ↔ ∃ x ∈ ss, x.id = id := by
  rw [ids_ofInserts, List.mem_eraseDups, List.mem_map]

/-- Symbols with distinct identifiers are stored as they are. -/
theorem symbols_ofInserts {ss : List Symbol} (h : (ss.map (·.id)).Nodup) :
    (ofInserts ss).symbols = ss := by
  induction ss using List.reverseRecOn with
  | nil => rfl
  | append_singleton ss x ih =>
    rw [List.map_append] at h
    obtain ⟨hdistinct, -, hnew⟩ := List.nodup_append.mp h
    have hnot : ¬(ofInserts ss).contains x.id = true := by
      rw [contains_iff_mem_ids, mem_ids_ofInserts]
      intro hmem
      obtain ⟨y, hy, hid⟩ := hmem
      exact hnew y.id (List.mem_map_of_mem hy) x.id (List.mem_singleton_self _) hid
    rw [ofInserts_snoc, insert, dif_neg hnot]
    exact congrArg (· ++ [x]) (ih hdistinct)

theorem names_mergeNames (old new : Symbol) (l : Language) :
    (mergeNames old new).names.get? l = (old.names.get? l).or (new.names.get? l) :=
  KeyMap.get?_foldl_insertIfNew new.names.entries old.names l

/-- After an insertion a store holds the symbols with other identifiers, and the known symbol
with more names or else the new one. -/
theorem mem_symbols_insert {st : SymbolStore} {x s : Symbol} (h : s ∈ (st.insert x).symbols) :
    (s ∈ st.symbols ∧ s.id ≠ x.id) ∨ (∃ old ∈ st.symbols, old.id = x.id ∧ s = mergeNames old x) ∨
      (s = x ∧ x.id ∉ st.ids) := by
  unfold insert at h
  split at h
  · rw [symbols_update] at h
    obtain ⟨old, hold, rfl⟩ := List.mem_map.mp h
    split
    · rename_i hid
      exact .inr (.inl ⟨old, hold, hid, rfl⟩)
    · rename_i hid
      exact .inl ⟨hold, hid⟩
  · rename_i hnew
    have hnot : x.id ∉ st.ids := fun hmem => hnew (contains_iff_mem_ids.mpr hmem)
    rcases List.mem_append.mp h with h | h
    · exact .inl ⟨h, fun heq => hnot (heq ▸ List.mem_map_of_mem h)⟩
    · exact .inr (.inr ⟨List.mem_singleton.mp h, hnot⟩)

/-- What holds of all symbols holds of them after one more is inserted. -/
theorem forall_insert {P : Symbol → Prop} {st : SymbolStore} {new : Symbol}
    (hst : ∀ s ∈ st.symbols, P s) (hnew : P new) (hmerge : ∀ old, P old → P (mergeNames old new)) :
    ∀ s ∈ (st.insert new).symbols, P s := by
  intro s hs
  obtain ⟨hs, -⟩ | ⟨old, hold, -, rfl⟩ | ⟨rfl, -⟩ := mem_symbols_insert hs
  · exact hst s hs
  · exact hmerge old (hst old hold)
  · exact hnew

/-- The first insertion under an identifier decides all but the names. -/
theorem exists_first {ss : List Symbol} {s : Symbol} (hs : s ∈ (ofInserts ss).symbols) :
    ∃ first, ss.find? (·.id == s.id) = some first ∧ s = { first with names := s.names } := by
  induction ss using List.reverseRecOn generalizing s with
  | nil => exact absurd hs List.not_mem_nil
  | append_singleton ss x ih =>
    have hold : ∀ s' ∈ (ofInserts ss).symbols, ∃ first,
        (ss ++ [x]).find? (·.id == s'.id) = some first ∧ s' = { first with names := s'.names } := by
      intro s' hs'
      obtain ⟨first, hfirst, heq⟩ := ih hs'
      exact ⟨first, by rw [List.find?_append, hfirst, Option.some_or], heq⟩
    rw [ofInserts_snoc] at hs
    obtain ⟨hs, -⟩ | ⟨old, hmem, -, rfl⟩ | ⟨rfl, hnew⟩ := mem_symbols_insert hs
    · exact hold s hs
    · obtain ⟨first, hfirst, heq⟩ := hold old hmem
      refine ⟨first, hfirst, ?_⟩
      exact congrArg (fun t : Symbol => { t with names := (mergeNames old x).names }) heq
    · have hnone : ss.find? (·.id == s.id) = none := by
        refine List.find?_eq_none.mpr fun y hy heq => hnew ?_
        exact mem_ids_ofInserts.mpr ⟨y, hy, eq_of_beq heq⟩
      exact ⟨s, by simp [List.find?_append, hnone], rfl⟩

end SymbolLinks.SymbolStore
