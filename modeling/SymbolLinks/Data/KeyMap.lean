/-! Finite maps kept in key order. The entries are a strictly ascending list, so
two maps with the same bindings are equal and listing a map is reading its
entries. Every update goes through `alter`; `get?_alter` says what it does. -/

namespace SymbolLinks

/-- A map whose entries ascend strictly by key. -/
structure KeyMap (κ : Type) (ν : Type) [Ord κ] where
  entries : List (κ × ν)
  ordered : entries.Pairwise fun a b => compare a.1 b.1 = .lt

namespace KeyMap

variable {κ ν : Type} [Ord κ]

/-- Change the value at `k` in an ascending list, adding it in place if absent. -/
def alterEntries (k : κ) (f : Option ν → ν) : List (κ × ν) → List (κ × ν)
  | [] => [(k, f none)]
  | (k', v) :: rest =>
    match compare k k' with
    | .lt => (k, f none) :: (k', v) :: rest
    | .eq => (k', f (some v)) :: rest
    | .gt => (k', v) :: alterEntries k f rest

def findEntry (k : κ) : List (κ × ν) → Option ν
  | [] => none
  | (k', v) :: rest => if compare k k' = .eq then some v else findEntry k rest

theorem mem_alterEntries {k : κ} {f : Option ν → ν} {es : List (κ × ν)} {e : κ × ν}
    (h : e ∈ alterEntries k f es) : e.1 = k ∨ ∃ e' ∈ es, e'.1 = e.1 := by
  induction es with
  | nil =>
    simp only [alterEntries, List.mem_singleton] at h
    exact .inl (by rw [h])
  | cons hd rest ih =>
    obtain ⟨k', v⟩ := hd
    simp only [alterEntries] at h
    split at h
    · rcases List.mem_cons.mp h with rfl | h
      · exact .inl rfl
      · exact .inr ⟨e, h, rfl⟩
    · rcases List.mem_cons.mp h with rfl | h
      · exact .inr ⟨(k', v), by simp, rfl⟩
      · exact .inr ⟨e, by simp [h], rfl⟩
    · rcases List.mem_cons.mp h with rfl | h
      · exact .inr ⟨(k', v), by simp, rfl⟩
      · rcases ih h with hk | ⟨e', he', hk⟩
        · exact .inl hk
        · exact .inr ⟨e', by simp [he'], hk⟩

theorem ordered_alterEntries [Std.TransOrd κ] (k : κ) (f : Option ν → ν) {es : List (κ × ν)}
    (h : es.Pairwise fun a b => compare a.1 b.1 = .lt) :
    (alterEntries k f es).Pairwise fun a b => compare a.1 b.1 = .lt := by
  induction es with
  | nil => simp [alterEntries]
  | cons hd rest ih =>
    obtain ⟨k', v⟩ := hd
    have hrest := (List.pairwise_cons.mp h).1
    simp only [alterEntries]
    split
    · rename_i hlt
      refine List.pairwise_cons.mpr ⟨fun e he => ?_, h⟩
      rcases List.mem_cons.mp he with rfl | he
      · exact hlt
      · exact Std.TransCmp.lt_trans hlt (hrest e he)
    · exact List.pairwise_cons.mpr ⟨hrest, (List.pairwise_cons.mp h).2⟩
    · rename_i hgt
      refine List.pairwise_cons.mpr ⟨fun e he => ?_, ih (List.pairwise_cons.mp h).2⟩
      rcases mem_alterEntries he with hk | ⟨e', he', hk⟩
      · rw [hk]
        exact Std.OrientedCmp.lt_of_gt hgt
      · rw [← hk]
        exact hrest e' he'

def empty : KeyMap κ ν := ⟨[], .nil⟩

instance : EmptyCollection (KeyMap κ ν) := ⟨empty⟩
instance : Inhabited (KeyMap κ ν) := ⟨empty⟩

/-- Two maps with the same entries are the same map. -/
@[ext] theorem ext {m n : KeyMap κ ν} (h : m.entries = n.entries) : m = n := by
  cases m; cases n; simp_all

instance [DecidableEq κ] [DecidableEq ν] : DecidableEq (KeyMap κ ν) := fun m n =>
  decidable_of_iff (m.entries = n.entries) ⟨ext, fun h => h ▸ rfl⟩

def get? (m : KeyMap κ ν) (k : κ) : Option ν := findEntry k m.entries

def contains (m : KeyMap κ ν) (k : κ) : Bool := (m.get? k).isSome

def keys (m : KeyMap κ ν) : List κ := m.entries.map (·.1)

def values (m : KeyMap κ ν) : List ν := m.entries.map (·.2)

/-- A key below every entry is absent. -/
theorem findEntry_eq_none_of_lt {k : κ} {es : List (κ × ν)}
    (h : ∀ e ∈ es, compare k e.1 = .lt) : findEntry k es = none := by
  induction es with
  | nil => rfl
  | cons e rest ih =>
    have he := h e (by simp)
    simp only [findEntry, he]
    exact ih fun e' he' => h e' (by simp [he'])

theorem ordered_map {μ : Type} (f : κ → ν → μ) {es : List (κ × ν)}
    (h : es.Pairwise fun a b => compare a.1 b.1 = .lt) :
    (es.map fun e => (e.1, f e.1 e.2)).Pairwise fun a b => compare a.1 b.1 = .lt :=
  List.pairwise_map.mpr h

/-- Change every value, keeping the keys. -/
def map {μ : Type} (f : κ → ν → μ) (m : KeyMap κ ν) : KeyMap κ μ :=
  ⟨m.entries.map fun e => (e.1, f e.1 e.2), ordered_map f m.ordered⟩

section Update

variable [Std.TransOrd κ]

/-- Replace the value at `k` by `f` of the present one. -/
def alter (m : KeyMap κ ν) (k : κ) (f : Option ν → ν) : KeyMap κ ν :=
  ⟨alterEntries k f m.entries, ordered_alterEntries k f m.ordered⟩

/-- The last insertion at a key wins. -/
def insert (m : KeyMap κ ν) (k : κ) (v : ν) : KeyMap κ ν := m.alter k fun _ => v

/-- The first insertion at a key wins. -/
def insertIfNew (m : KeyMap κ ν) (k : κ) (v : ν) : KeyMap κ ν := m.alter k (·.getD v)

def singleton (k : κ) (v : ν) : KeyMap κ ν := (∅ : KeyMap κ ν).insert k v

/-- Insert the pairs in turn, later ones winning. -/
def ofList (pairs : List (κ × ν)) : KeyMap κ ν :=
  pairs.foldl (fun m p => m.insert p.1 p.2) ∅

theorem findEntry_alterEntries (k k' : κ) (f : Option ν → ν) {es : List (κ × ν)}
    (h : es.Pairwise fun a b => compare a.1 b.1 = .lt) :
    findEntry k' (alterEntries k f es) =
      if compare k' k = .eq then some (f (findEntry k es)) else findEntry k' es := by
  induction es with
  | nil => simp [alterEntries, findEntry]
  | cons hd rest ih =>
    obtain ⟨k₀, v⟩ := hd
    obtain ⟨hrest, ht⟩ := List.pairwise_cons.mp h
    simp only [alterEntries]
    split
    · rename_i hlt
      have hn : findEntry k ((k₀, v) :: rest) = none := by
        refine findEntry_eq_none_of_lt fun e he => ?_
        rcases List.mem_cons.mp he with rfl | he
        · exact hlt
        · exact Std.TransCmp.lt_trans hlt (hrest e he)
      rw [hn]
      simp [findEntry]
    · rename_i heq
      by_cases hk : compare k' k = .eq
      · have : compare k' k₀ = .eq := Std.TransCmp.eq_trans hk heq
        simp [findEntry, hk, heq, this]
      · have : compare k' k₀ ≠ .eq := fun hc =>
          hk (Std.TransCmp.eq_trans hc (Std.OrientedCmp.eq_symm heq))
        simp [findEntry, hk, this]
    · rename_i hgt
      simp only [findEntry, ih ht]
      by_cases hk : compare k' k = .eq
      · have hgt' : compare k' k₀ = .gt := by
          rw [Std.TransCmp.congr_left hk]
          exact hgt
        simp [hk, hgt, hgt']
      · simp [hk]

theorem get?_alter (m : KeyMap κ ν) (k k' : κ) (f : Option ν → ν) :
    (m.alter k f).get? k' = if compare k' k = .eq then some (f (m.get? k)) else m.get? k' :=
  findEntry_alterEntries k k' f m.ordered

end Update

end KeyMap

/-- Finite sets listed in ascending order. -/
abbrev KeySet (κ : Type) [Ord κ] := KeyMap κ Unit

namespace KeySet

variable {κ : Type} [Ord κ]

def toList (s : KeySet κ) : List κ := KeyMap.keys s

def add [Std.TransOrd κ] (s : KeySet κ) (k : κ) : KeySet κ := KeyMap.insert s k ()

def ofList [Std.TransOrd κ] (ks : List κ) : KeySet κ := ks.foldl add ∅

end KeySet

end SymbolLinks
