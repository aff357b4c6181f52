import SymbolLinks.Data.KeyMap

/-! Laws of finite maps. A map is known by its lookups (`ext_get?`), so two maps
that were filled in different ways are compared key by key, and filling a map with
the entries of another one gives that map again (`ofList_entries`). -/
namespace SymbolLinks.KeyMap

variable {κ ν : Type} [Ord κ]

@[simp] theorem get?_empty (k : κ) : (∅ : KeyMap κ ν).get? k = none := rfl

@[simp] theorem entries_empty : (∅ : KeyMap κ ν).entries = [] := rfl

section Lawful

variable [Std.LawfulEqOrd κ]

theorem get?_map {μ : Type} (f : κ → ν → μ) (m : KeyMap κ ν) (k : κ) :
    (m.map f).get? k = (m.get? k).map (f k) := by
  show findEntry k (m.entries.map _) = (findEntry k m.entries).map (f k)
  induction m.entries with
  | nil => rfl
  | cons e rest ih =>
    simp only [List.map_cons, findEntry]
    split
    · rename_i h
      have hk : k = e.1 := Std.LawfulEqCmp.eq_of_compare h
      rw [hk, Option.map_some]
    · exact ih

theorem findEntry_eq_some_iff {es : List (κ × ν)} {k : κ} {v : ν}
    (h : es.Pairwise fun a b => compare a.1 b.1 = .lt) :
    findEntry k es = some v ↔ (k, v) ∈ es := by
  induction es with
  | nil => simp [findEntry]
  | cons e rest ih =>
    obtain ⟨hrest, ht⟩ := List.pairwise_cons.mp h
    obtain ⟨k₀, v₀⟩ := e
    simp only [findEntry, List.mem_cons, Prod.mk.injEq]
    by_cases hk : k = k₀
    · subst hk
      have hnot : (k, v) ∉ rest := by
        intro hm
        have hlt := hrest (k, v) hm
        simp at hlt
      rw [if_pos Std.ReflCmp.compare_self]
      simp [hnot, eq_comm]
    · rw [if_neg fun hc => hk (Std.LawfulEqCmp.eq_of_compare hc), ih ht]
      simp [hk]

theorem mem_entries_iff {m : KeyMap κ ν} {k : κ} {v : ν} :
    (k, v) ∈ m.entries ↔ m.get? k = some v :=
  (findEntry_eq_some_iff m.ordered).symm

theorem mem_keys_iff {m : KeyMap κ ν} {k : κ} : k ∈ m.keys ↔ ∃ v, m.get? k = some v := by
  simp only [keys, List.mem_map, Prod.exists, exists_and_right, exists_eq_right, mem_entries_iff]

theorem mem_values_iff {m : KeyMap κ ν} {v : ν} : v ∈ m.values ↔ ∃ k, m.get? k = some v := by
  simp [values, ← mem_entries_iff]

theorem nodup_keys (m : KeyMap κ ν) : m.keys.Nodup := by
  refine List.pairwise_map.mpr (m.ordered.imp fun {a b} hlt heq => ?_)
  simp [heq] at hlt

theorem nodup_entries (m : KeyMap κ ν) : m.entries.Nodup :=
  m.ordered.imp fun {a b} hlt heq => by simp [heq] at hlt

section Update

variable [Std.TransOrd κ]

/-- Maps with the same lookups are equal. -/
theorem ext_get? {m n : KeyMap κ ν} (h : ∀ k, m.get? k = n.get? k) : m = n := by
  have hperm : m.entries.Perm n.entries := by
    refine (List.perm_ext_iff_of_nodup m.nodup_entries n.nodup_entries).mpr ?_
    rintro ⟨k, v⟩
    rw [mem_entries_iff, mem_entries_iff, h]
  refine ext (hperm.eq_of_pairwise ?_ m.ordered n.ordered)
  intro a b _ _ hab hba
  exact absurd hba (Std.OrientedCmp.not_lt_of_lt hab)

@[simp] theorem get?_alter_self (m : KeyMap κ ν) (k : κ) (f : Option ν → ν) :
    (m.alter k f).get? k = some (f (m.get? k)) := by
  rw [get?_alter, if_pos Std.ReflCmp.compare_self]

theorem get?_alter_of_ne (m : KeyMap κ ν) {k k' : κ} (f : Option ν → ν) (h : k' ≠ k) :
    (m.alter k f).get? k' = m.get? k' := by
  rw [get?_alter, if_neg fun hc => h (Std.LawfulEqCmp.eq_of_compare hc)]

@[simp] theorem get?_insert_self (m : KeyMap κ ν) (k : κ) (v : ν) :
    (m.insert k v).get? k = some v := get?_alter_self m k _

theorem get?_insert_of_ne (m : KeyMap κ ν) {k k' : κ} (v : ν) (h : k' ≠ k) :
    (m.insert k v).get? k' = m.get? k' := get?_alter_of_ne m _ h

theorem mem_keys_insert {m : KeyMap κ ν} {k k' : κ} {v : ν} :
    k' ∈ (m.insert k v).keys ↔ k' ∈ m.keys ∨ k' = k := by
  rw [mem_keys_iff, mem_keys_iff]
  by_cases h : k' = k
  · subst h
    simp
  · simp [get?_insert_of_ne _ _ h, h]

theorem get?_singleton {k k' : κ} {v v' : ν} (h : (singleton k v).get? k' = some v') :
    k' = k ∧ v' = v := by
  by_cases hk : k' = k
  · subst hk
    rw [singleton, get?_insert_self] at h
    exact ⟨rfl, (Option.some.inj h).symm⟩
  · rw [singleton, get?_insert_of_ne _ _ hk] at h
    cases h

/-- Two changes at one key. -/
theorem alter_alter_self (m : KeyMap κ ν) (k : κ) (f g : Option ν → ν) :
    (m.alter k f).alter k g = m.alter k fun v => g (some (f v)) := by
  refine ext_get? fun k' => ?_
  by_cases hk : k' = k
  · subst hk
    simp only [get?_alter_self]
  · simp only [get?_alter_of_ne _ _ hk]

/-- Changes at different keys do not meet. -/
theorem alter_alter_of_ne (m : KeyMap κ ν) {k l : κ} (h : k ≠ l) (f g : Option ν → ν) :
    (m.alter k f).alter l g = (m.alter l g).alter k f := by
  refine ext_get? fun k' => ?_
  by_cases hk : k' = k
  · subst hk
    rw [get?_alter_of_ne _ _ h, get?_alter_self, get?_alter_self, get?_alter_of_ne _ _ h]
  · rw [get?_alter_of_ne _ f hk]
    by_cases hl : k' = l
    · subst hl
      rw [get?_alter_self, get?_alter_self, get?_alter_of_ne _ _ (Ne.symm h)]
    · rw [get?_alter_of_ne _ _ hl, get?_alter_of_ne _ _ hk, get?_alter_of_ne _ _ hl]

theorem alter_comm (m : KeyMap κ ν) (k l : κ) {f g : Option ν → ν}
    (h : ∀ v, g (some (f v)) = f (some (g v))) :
    (m.alter k f).alter l g = (m.alter l g).alter k f := by
  by_cases hkl : k = l
  · subst hkl
    rw [alter_alter_self, alter_alter_self]
    simp only [h]
  · exact alter_alter_of_ne m hkl f g

/-- A change that is made again later need not be made before. -/
theorem alter_replaced (m : KeyMap κ ν) (k l : κ) {f g : Option ν → ν}
    (hself : ∀ v, f (some (f v)) = f v) (h : ∀ v, f (some (g (some (f v)))) = f (some (g v))) :
    ((m.alter k f).alter l g).alter k f = (m.alter l g).alter k f := by
  by_cases hkl : k = l
  · subst hkl
    rw [alter_alter_self, alter_alter_self, alter_alter_self]
    simp only [h]
  · rw [← alter_alter_of_ne _ hkl, alter_alter_self, ← alter_alter_of_ne _ hkl]
    simp only [hself]

/-- A change that keeps the value at its key changes nothing. -/
theorem alter_eq_self {m : KeyMap κ ν} {k : κ} {f : Option ν → ν} {v : ν} (hv : m.get? k = some v)
    (hf : f (some v) = v) : m.alter k f = m := by
  refine ext_get? fun k' => ?_
  by_cases hk : k' = k
  · subst hk
    rw [get?_alter_self, hv, hf]
  · rw [get?_alter_of_ne _ _ hk]

theorem map_alter {μ : Type} {m : KeyMap κ ν} {k : κ} {f : Option ν → ν} {F : κ → ν → μ}
    {g : Option μ → μ} (h : ∀ v, F k (f v) = g (v.map (F k))) :
    (m.alter k f).map F = (m.map F).alter k g := by
  refine ext_get? fun k' => ?_
  by_cases hk : k' = k
  · subst hk
    rw [get?_map, get?_alter_self, get?_alter_self, get?_map, Option.map_some, h]
  · rw [get?_map, get?_alter_of_ne _ _ hk, get?_alter_of_ne _ _ hk, get?_map]

/-- Values gathered key by key: at a key stands what the elements with that key add
up to, and keys without elements keep their value. -/
theorem get?_foldl_alter [DecidableEq κ] {α : Type} (key : α → κ) (step : ν → α → ν) (start : ν)
    (k : κ) (xs : List α) (m : KeyMap κ ν) :
    (xs.foldl (fun m x => m.alter (key x) fun v => step (v.getD start) x) m).get? k =
      if xs.filter (key · = k) = [] then m.get? k
      else some ((xs.filter (key · = k)).foldl step ((m.get? k).getD start)) := by
  induction xs generalizing m with
  | nil => rfl
  | cons x xs ih =>
    rw [List.foldl_cons, ih]
    by_cases hx : key x = k
    · subst hx
      rw [List.filter_cons_of_pos (by simp), get?_alter_self, if_neg (List.cons_ne_nil _ _),
        List.foldl_cons]
      split
      · rename_i hnil
        rw [hnil]
        rfl
      · rfl
    · rw [List.filter_cons_of_neg (by simpa using hx), get?_alter_of_ne _ _ (Ne.symm hx)]

/-- Elements listed by key, in their order. -/
theorem get?_foldl_group [DecidableEq κ] {α β : Type} (key : α → κ) (f : α → β) (k : κ)
    (xs : List α) :
    (xs.foldl (fun (m : KeyMap κ (List β)) x => m.alter (key x) fun v => v.getD [] ++ [f x]) ∅).get? k =
      if xs.filter (key · = k) = [] then none else some ((xs.filter (key · = k)).map f) := by
  have hsnoc : ∀ ys : List α, ys.foldl (fun v x => v ++ [f x]) [] = ys.map f := by
    intro ys
    rw [List.foldl_append_eq_append, List.nil_append, ← List.flatMap_def, List.map_eq_flatMap]
  rw [get?_foldl_alter key (fun v x => v ++ [f x]) [], get?_empty]
  simp only [Option.getD_none, hsnoc]

theorem get?_foldl_insert [DecidableEq κ] (pairs : List (κ × ν)) (m : KeyMap κ ν) (k : κ) :
    (pairs.foldl (fun m p => m.insert p.1 p.2) m).get? k =
      ((pairs.filter (·.1 = k)).getLast?.map (·.2)).or (m.get? k) := by
  induction pairs generalizing m with
  | nil => rfl
  | cons p rest ih =>
    rw [List.foldl_cons, ih]
    by_cases hp : p.1 = k
    · rw [List.filter_cons_of_pos (by simpa using hp), List.getLast?_cons, ← hp, get?_insert_self]
      cases (rest.filter (·.1 = p.1)).getLast? <;> rfl
    · rw [List.filter_cons_of_neg (by simpa using hp), get?_insert_of_ne _ _ (Ne.symm hp)]

/-- The last pair of a key decides. -/
theorem get?_ofList [DecidableEq κ] (pairs : List (κ × ν)) (k : κ) :
    (ofList pairs).get? k = (pairs.filter (·.1 = k)).getLast?.map (·.2) := by
  rw [ofList, get?_foldl_insert, get?_empty, Option.or_none]

/-- Keys that are only filled where they are new: the map decides, then the first pair. -/
theorem get?_foldl_insertIfNew (pairs : List (κ × ν)) (m : KeyMap κ ν) (k : κ) :
    (pairs.foldl (fun m x => m.insertIfNew x.1 x.2) m).get? k = (m.get? k).or (findEntry k pairs) := by
  induction pairs generalizing m with
  | nil => exact Option.or_none.symm
  | cons x pairs ih =>
    rw [List.foldl_cons, ih, findEntry, insertIfNew, get?_alter]
    by_cases hk : compare k x.1 = .eq
    · cases Std.LawfulEqCmp.eq_of_compare hk
      simp only [hk, if_true]
      cases m.get? x.1 <;> rfl
    · simp only [hk, if_false]

theorem mem_of_get?_ofList [DecidableEq κ] {pairs : List (κ × ν)} {k : κ} {v : ν}
    (h : (ofList pairs).get? k = some v) : (k, v) ∈ pairs := by
  rw [get?_ofList] at h
  obtain ⟨p, hp, rfl⟩ := Option.map_eq_some_iff.mp h
  obtain ⟨hp, hk⟩ := List.mem_filter.mp (List.mem_of_getLast? hp)
  rwa [← of_decide_eq_true hk]

theorem exists_get?_ofList [DecidableEq κ] {pairs : List (κ × ν)} {k : κ}
    (h : k ∈ pairs.map (·.1)) : ∃ v, (ofList pairs).get? k = some v := by
  obtain ⟨p, hp, rfl⟩ := List.mem_map.mp h
  have hne : pairs.filter (·.1 = p.1) ≠ [] :=
    List.ne_nil_of_mem (List.mem_filter.mpr ⟨hp, by simp⟩)
  rw [get?_ofList, List.getLast?_eq_some_getLast hne]
  exact ⟨_, rfl⟩

end Update

end Lawful

/-! Filling a map in ascending order. -/

section Fill

variable [Std.TransOrd κ]

theorem alterEntries_last {es : List (κ × ν)} {k : κ} (f : Option ν → ν)
    (h : ∀ e ∈ es, compare e.1 k = .lt) : alterEntries k f es = es ++ [(k, f none)] := by
  induction es with
  | nil => rfl
  | cons e rest ih =>
    have hgt : compare k e.1 = .gt := Std.OrientedCmp.gt_of_lt (h e (by simp))
    simp only [alterEntries, hgt, List.cons_append]
    rw [ih fun e' he' => h e' (by simp [he'])]

theorem entries_foldl_insert (m : KeyMap κ ν) (es : List (κ × ν))
    (h : (m.entries ++ es).Pairwise fun a b => compare a.1 b.1 = .lt) :
    (es.foldl (fun m p => m.insert p.1 p.2) m).entries = m.entries ++ es := by
  induction es generalizing m with
  | nil => simp
  | cons e rest ih =>
    have hlast : (m.insert e.1 e.2).entries = m.entries ++ [e] :=
      alterEntries_last _ fun e' he' => (List.pairwise_append.mp h).2.2 e' he' e (by simp)
    rw [List.foldl_cons, ih]
    · rw [hlast, List.append_assoc, List.singleton_append]
    · rw [hlast, List.append_assoc, List.singleton_append]
      exact h

/-- A map is filled by its own entries. -/
theorem ofList_entries (m : KeyMap κ ν) : ofList m.entries = m := by
  apply ext
  have := entries_foldl_insert (∅ : KeyMap κ ν) m.entries (by simpa using m.ordered)
  simpa [ofList] using this

end Fill

end SymbolLinks.KeyMap

namespace SymbolLinks.KeySet

variable {κ : Type} [Ord κ] [Std.TransOrd κ]

/-- A set is filled by its own list. -/
theorem ofList_toList (s : KeySet κ) : ofList s.toList = s := by
  have h : ofList s.toList = KeyMap.ofList s.entries := by
    simp only [ofList, toList, KeyMap.keys, KeyMap.ofList, List.foldl_map]
    rfl
  rw [h, KeyMap.ofList_entries]

section Members

variable [Std.LawfulEqOrd κ]

omit [Std.TransOrd κ] in
theorem mem_toList_iff {s : KeySet κ} {k : κ} : k ∈ s.toList ↔ s.contains k = true := by
  rw [toList, KeyMap.mem_keys_iff, KeyMap.contains, Option.isSome_iff_exists]

/-- Two sets with the same elements are the same. -/
theorem ext_contains {a b : KeySet κ} (h : ∀ k, a.contains k = true ↔ b.contains k = true) :
    a = b := by
  refine KeyMap.ext_get? fun k => ?_
  have hk := h k
  simp only [KeyMap.contains] at hk
  cases ha : KeyMap.get? a k <;> cases hb : KeyMap.get? b k <;> simp_all

theorem contains_add {s : KeySet κ} {k k' : κ} :
    (s.add k).contains k' = true ↔ k' = k ∨ s.contains k' = true := by
  by_cases h : k' = k
  · subst h
    simp [add, KeyMap.contains]
  · simp [add, KeyMap.contains, KeyMap.get?_insert_of_ne _ _ h, h]

theorem add_comm (s : KeySet κ) (a b : κ) : (s.add a).add b = (s.add b).add a := by
  by_cases h : a = b
  · rw [h]
  · exact KeyMap.alter_alter_of_ne s h _ _

theorem contains_foldl_add {ks : List κ} {s : KeySet κ} {k : κ} :
    (ks.foldl add s).contains k = true ↔ k ∈ ks ∨ s.contains k = true := by
  induction ks generalizing s with
  | nil => simp
  | cons k' ks ih =>
    rw [List.foldl_cons, ih, contains_add, List.mem_cons]
    exact or_left_comm.trans or_assoc.symm

@[simp] theorem contains_ofList {ks : List κ} {k : κ} : (ofList ks).contains k = true ↔ k ∈ ks := by
  rw [ofList, contains_foldl_add]
  simp [KeyMap.contains]

end Members

end SymbolLinks.KeySet
