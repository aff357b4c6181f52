import Mathlib.Data.List.Induction
import Mathlib.Logic.Equiv.Basic
import SymbolLinks.Proofs.ListLaws
import SymbolLinks.Proofs.ModuleNodes
import SymbolLinks.Proofs.TreeRenaming

/-! The order of a store does not show in URLs. Trees are built from a part of each
symbol, its core. Where two stores have the same cores in another order, the passes over
the languages add the same symbols in the same order, and only the nodes of the modules,
which come first, have other numbers (`canonicalPaths_build_of_perm`). -/
namespace SymbolLinks

def SymbolStore.cores (st : SymbolStore) : List SymbolCore := st.symbols.map Symbol.core

theorem SymbolStore.ids_eq_map_cores (st : SymbolStore) : st.ids = st.cores.map (·.id) := by
  rw [ids, cores, List.map_map]
  rfl

namespace PathTree

/-! ## What passes see of the order -/

def placementOf? (l : Language) (c : SymbolCore) : Option Placement :=
  if c.kind = .module_ then none
  else match c.names.get? l with
    | none | some [] => none
    | some path => some ⟨c.moduleName, path, c.id, c.kind⟩

theorem placements_spelled (st : SymbolStore) (l : Language) :
    (spelled st l).map placement = st.cores.filterMap (placementOf? l) := by
  rw [spelled, SymbolStore.cores, List.map_filterMap, List.filterMap_map]
  refine List.filterMap_congr fun s _ => ?_
  simp only [Function.comp_apply, placementOf?, Symbol.core]
  by_cases hkind : s.kind = .module_
  · simp [hkind]
  · simp only [hkind, if_false]
    cases s.names.get? l with
    | none => rfl
    | some path => cases path <;> rfl

/-- The languages that some symbol is spelled in, in their own order. -/
def languagesOf (st : SymbolStore) : List Language :=
  (KeySet.ofList (st.symbols.flatMap (·.names.keys))).toList

theorem languages_eq (st : SymbolStore) : languages st =
    (languagesOf st).filter (· = .swift) ++ (languagesOf st).filter (· ≠ .swift) := rfl

theorem mem_languagesOf {st : SymbolStore} {l : Language} :
    l ∈ languagesOf st ↔ ∃ s ∈ st.symbols, l ∈ s.names.keys := by
  rw [languagesOf, KeySet.mem_toList_iff, KeySet.contains_ofList, List.mem_flatMap]

theorem mem_languages {st : SymbolStore} {l : Language} :
    l ∈ languages st ↔ ∃ s ∈ st.symbols, l ∈ s.names.keys := by
  rw [← mem_languagesOf, languages_eq]
  simp only [List.mem_append, List.mem_filter, ← and_or_left]
  simp [Decidable.em]

/-- A module is added in all languages it has a name in, any other symbol in those it has a
path in. -/
theorem mem_additions {st : SymbolStore} {id : String} {l : Language} :
    (id, l) ∈ additions st ↔ ∃ s ∈ st.symbols, s.id = id ∧
      ∃ path, s.names.get? l = some path ∧ (s.kind ≠ .module_ → path ≠ []) := by
  rw [additions, List.mem_append, List.mem_flatMap, List.mem_flatMap]
  constructor
  · rintro (⟨s, hs, hadded⟩ | ⟨l', -, hadded⟩)
    · obtain ⟨hmem, hkind⟩ := List.mem_filter.mp hs
      obtain ⟨l', hl, heq⟩ := List.mem_map.mp hadded
      cases heq
      obtain ⟨path, hpath⟩ := KeyMap.mem_keys_iff.mp hl
      exact ⟨s, hmem, rfl, path, hpath, fun hne => absurd (of_decide_eq_true hkind) hne⟩
    · obtain ⟨⟨s, path⟩, hx, heq⟩ := List.mem_map.mp hadded
      cases heq
      obtain ⟨hs, -, hpath, hne⟩ := mem_spelledIn hx
      exact ⟨s, hs, rfl, path, hpath, fun _ => hne⟩
  · rintro ⟨s, hs, rfl, path, hpath, hne⟩
    have hl : l ∈ s.names.keys := KeyMap.mem_keys_iff.mpr ⟨path, hpath⟩
    by_cases hkind : s.kind = .module_
    · exact .inl ⟨s, List.mem_filter.mpr ⟨hs, decide_eq_true hkind⟩, List.mem_map.mpr ⟨l, hl, rfl⟩⟩
    · refine .inr ⟨l, mem_languages.mpr ⟨s, hs, hl⟩, List.mem_map.mpr ⟨(s, path), ?_, rfl⟩⟩
      exact mem_spelledIn_iff.mpr ⟨hs, hkind, hpath, hne hkind⟩

theorem languages_eq_of_perm {st st' : SymbolStore} (h : st.cores.Perm st'.cores) :
    languages st = languages st' := by
  have hkeys : ∀ st : SymbolStore, st.symbols.flatMap (·.names.keys) = st.cores.flatMap (·.names.keys) := by
    intro st
    rw [SymbolStore.cores, List.flatMap_map]
    rfl
  have hall : languagesOf st = languagesOf st' := by
    refine congrArg KeySet.toList (KeySet.ext_contains fun l => ?_)
    rw [KeySet.contains_ofList, KeySet.contains_ofList, hkeys, hkeys]
    exact (h.flatMap_right _).mem_iff
  rw [languages_eq, languages_eq, hall]

/-! ## Modules in another order -/

/-- A renaming that keeps zero and moves all other numbers as another one moves their
predecessors. -/
def keepZero (σ : Equiv.Perm ℕ) : Equiv.Perm ℕ where
  toFun
    | 0 => 0
    | i + 1 => σ i + 1
  invFun
    | 0 => 0
    | i + 1 => σ.symm i + 1
  left_inv i := by cases i <;> simp
  right_inv i := by cases i <;> simp

@[simp] theorem keepZero_succ (σ : Equiv.Perm ℕ) (i : ℕ) : keepZero σ (i + 1) = σ i + 1 := rfl

/-- The positions of one list are those of another one, renamed. -/
structure Moves {α : Type} (σ : Equiv.Perm ℕ) (xs ys : List α) : Prop where
  getElem? : ∀ i, ys[σ i]? = xs[i]?
  fixed : ∀ i, xs.length ≤ i → σ i = i

theorem exists_moves {α : Type} {xs ys : List α} (h : xs.Perm ys) : ∃ σ, Moves σ xs ys := by
  induction h with
  | nil => exact ⟨Equiv.refl ℕ, fun _ => rfl, fun _ _ => rfl⟩
  | @cons x xs ys _ ih =>
    obtain ⟨σ, hσ⟩ := ih
    refine ⟨keepZero σ, fun i => ?_, fun i hi => ?_⟩
    · cases i with
      | zero => rfl
      | succ i => simpa using hσ.getElem? i
    · cases i with
      | zero => rfl
      | succ i => rw [keepZero_succ, hσ.fixed i (by simpa using hi)]
  | swap x y xs =>
    refine ⟨Equiv.swap 0 1, fun i => ?_, fun i hi => ?_⟩
    · match i with
      | 0 => simp
      | 1 => simp
      | i + 2 => rw [Equiv.swap_apply_of_ne_of_ne (by omega) (by omega)]; rfl
    · have hi : 2 ≤ i := Nat.le_trans (by simp) hi
      exact Equiv.swap_apply_of_ne_of_ne (by omega) (by omega)
  | @trans xs ys zs hxy _ ih₁ ih₂ =>
    obtain ⟨σ, hσ⟩ := ih₁
    obtain ⟨τ, hτ⟩ := ih₂
    refine ⟨σ.trans τ, fun i => ?_, fun i hi => ?_⟩
    · rw [Equiv.trans_apply, hτ.getElem?, hσ.getElem?]
    · rw [Equiv.trans_apply, hσ.fixed i hi, hτ.fixed i (hxy.length_eq ▸ hi)]

theorem Moves.symm {α : Type} {σ : Equiv.Perm ℕ} {xs ys : List α} (h : Moves σ xs ys)
    (hlength : ys.length = xs.length) : Moves σ.symm ys xs where
  getElem? i := by rw [← h.getElem?, σ.apply_symm_apply]
  fixed i hi := σ.symm_apply_eq.mpr (h.fixed i (hlength ▸ hi)).symm

/-- A table with one binding for each module, under a key of its own. Module `i` has
node `i + 1`. -/
def Tabulates {α : Type} (cs : List SymbolCore) (key : SymbolCore → String)
    (value : SymbolCore → NodeId → α) (table : String → Option α) : Prop :=
  ∀ k v, table k = some v ↔ ∃ i c, cs[i]? = some c ∧ key c = k ∧ v = value c (i + 1)

section Tables

variable {α : Type} {cs cs' : List SymbolCore} {key : SymbolCore → String}
  {value : SymbolCore → NodeId → α} {table table' : String → Option α}

theorem Tabulates.snoc (h : Tabulates cs key value table) {c : SymbolCore}
    (hnew : table (key c) = none)
    (htable : ∀ k, table' k = if k = key c then some (value c (cs.length + 1)) else table k) :
    Tabulates (cs ++ [c]) key value table' := by
  intro k v
  rw [htable]
  simp only [getElem?_snoc]
  split
  · rename_i hk
    subst hk
    constructor
    · intro hv
      exact ⟨cs.length, c, .inr ⟨rfl, rfl⟩, rfl, (Option.some.inj hv).symm⟩
    · rintro ⟨i, c', hc' | ⟨rfl, rfl⟩, hkey, rfl⟩
      · cases hnew.symm.trans ((h (key c) _).mpr ⟨i, c', hc', hkey, rfl⟩)
      · rfl
  · rename_i hk
    rw [h]
    constructor
    · rintro ⟨i, c', hc', hkey, hv⟩
      exact ⟨i, c', .inl hc', hkey, hv⟩
    · rintro ⟨i, c', hc' | ⟨rfl, rfl⟩, hkey, hv⟩
      · exact ⟨i, c', hc', hkey, hv⟩
      · exact absurd hkey.symm hk

/-- Tables of modules in another order name corresponding nodes. -/
theorem Tabulates.moved (h : Tabulates cs key value table) (h' : Tabulates cs' key value table')
    {σ : Equiv.Perm ℕ} (hσ : Moves σ cs cs') {rename : α → α}
    (hvalue : ∀ c i, value c (σ i + 1) = rename (value c (i + 1))) (k : String) :
    table' k = (table k).map rename := by
  cases hk : table k with
  | some v =>
    obtain ⟨i, c, hc, hkey, rfl⟩ := (h k v).mp hk
    exact (h' k _).mpr ⟨σ i, c, (hσ.getElem? i).trans hc, hkey, (hvalue c i).symm⟩
  | none =>
    refine Option.eq_none_iff_forall_ne_some.mpr fun v hv => ?_
    obtain ⟨i, c, hc, hkey, -⟩ := (h' k v).mp hv
    have hc : cs[σ.symm i]? = some c := by rw [← hσ.getElem?, σ.apply_symm_apply, hc]
    cases hk.symm.trans ((h k _).mpr ⟨σ.symm i, c, hc, hkey, rfl⟩)

end Tables

/-- A builder that has seen some modules and nothing else. -/
structure ModulesIn (cs : List SymbolCore) (b : Builder) : Prop where
  size : b.tree.size = cs.length + 1
  node : ∀ {i : ℕ} {c : SymbolCore}, cs[i]? = some c →
    b.tree.node? (i + 1) = some (nodeOfModule c (KeySet.ofList c.names.keys))
  root : ∃ children, b.tree.node? root = some { name := "", parent := none, children } ∧
    Tabulates cs (·.moduleName) (fun c i => [entryOfModule c i]) children.get?
  primary : Tabulates cs (·.id) (fun _ i => i) b.tree.primary.get?
  modules : Tabulates cs (·.moduleName) (fun _ i => i) fun name => b.modules.lookup name

theorem modulesIn_nil : ModulesIn [] ⟨initial, []⟩ where
  size := rfl
  node := by simp
  root := ⟨∅, rfl, fun k v => by simp⟩
  primary := fun k v => by simp [initial]
  modules := fun k v => by simp

theorem Tabulates.eq_none {α : Type} {cs : List SymbolCore} {key : SymbolCore → String}
    {value : SymbolCore → NodeId → α} {table : String → Option α} (h : Tabulates cs key value table)
    {k : String} (hk : k ∉ cs.map key) : table k = none := by
  refine Option.eq_none_iff_forall_ne_some.mpr fun v hv => hk ?_
  obtain ⟨i, c, hc, hkey, -⟩ := (h k v).mp hv
  exact List.mem_map.mpr ⟨c, List.mem_of_getElem? hc, hkey⟩

/-- One more module. -/
theorem ModulesIn.addModule {cs : List SymbolCore} {b : Builder} (h : ModulesIn cs b)
    (hrooted : Rooted b.tree) {s : Symbol} (hid : s.id ∉ cs.map (·.id))
    (hname : s.moduleName ∉ cs.map (·.moduleName)) (hkeys : s.names.keys ≠ []) :
    ModulesIn (cs ++ [s.core]) (b.addModule s) := by
  obtain ⟨children, hroot, hchildren⟩ := h.root
  have hgroup : children.get? s.moduleName = none := hchildren.eq_none hname
  have hlacks : LacksModule b.tree s := by
    refine ⟨hrooted, ?_, h.primary.eq_none hid⟩
    have hentries : b.tree.entries PathTree.root s.moduleName = [] := by
      rw [entries_eq_group?, group?_of_node? hroot, hgroup]
      rfl
    simp [PathTree.reusable?, hentries]
  obtain ⟨htree, htable⟩ := Builder.added_addModule hlacks hkeys
  refine ⟨?_, fun {i c} hc => ?_, ?_, ?_, ?_⟩
  · rw [htree.size, h.size, List.length_append]
    rfl
  · rw [htree.node, h.size]
    rcases getElem?_snoc.mp hc with hc | ⟨rfl, rfl⟩
    · have hi : i < cs.length := (List.getElem?_eq_some_iff.mp hc).1
      have hlast : i + 1 ≠ cs.length + 1 := by omega
      have hroot : i + 1 ≠ PathTree.root := Nat.succ_ne_zero i
      rw [if_neg hlast, if_neg hroot, h.node hc]
    · exact if_pos rfl
  · refine ⟨(listModule s b.tree.size { name := "", parent := none, children }).children, ?_, ?_⟩
    · rw [htree.node, if_neg (Nat.ne_of_lt hrooted.root_lt), if_pos rfl, hroot]
      rfl
    · refine hchildren.snoc hgroup fun k => ?_
      rw [listModule, ← h.size]
      split
      · rename_i hk
        subst hk
        exact (KeyMap.get?_alter_self ..).trans (by rw [hgroup]; rfl)
      · rename_i hk
        exact KeyMap.get?_alter_of_ne _ _ hk
  · refine h.primary.snoc (h.primary.eq_none hid) fun k => ?_
    rw [htree.primary, h.size]
    rfl
  · refine h.modules.snoc (h.modules.eq_none hname) fun k => ?_
    rw [htable, h.size]
    rfl

/-- All modules of a list, in turn. -/
theorem modulesIn_foldl (st : SymbolStore) {ms : List Symbol} (hms : ∀ s ∈ ms, s ∈ st.symbols)
    (hkinds : ∀ s ∈ ms, s.kind = .module_) (hkeys : ∀ s ∈ ms, s.names.keys ≠ [])
    (hids : (ms.map (·.id)).Nodup) (hnames : (ms.map (·.moduleName)).Nodup) :
    ModulesIn (ms.map Symbol.core) (ms.foldl Builder.addModule ⟨initial, []⟩) ∧
      ∃ added, (ms.foldl Builder.addModule ⟨initial, []⟩).Grown st added := by
  induction ms using List.reverseRecOn with
  | nil => exact ⟨modulesIn_nil, [], .initial, .nil⟩
  | append_singleton ms s ih =>
    rw [List.map_append] at hids hnames
    obtain ⟨hids, -, hid⟩ := List.nodup_append.mp hids
    obtain ⟨hnames, -, hname⟩ := List.nodup_append.mp hnames
    obtain ⟨hin, added, hgrown⟩ := ih (fun s hs => hms s (List.mem_append_left _ hs))
      (fun s hs => hkinds s (List.mem_append_left _ hs))
      (fun s hs => hkeys s (List.mem_append_left _ hs)) hids hnames
    have hs : s ∈ ms ++ [s] := List.mem_append_right _ (List.mem_singleton_self s)
    rw [List.foldl_append, List.map_append]
    refine ⟨hin.addModule hgrown.tree.inv.rooted ?_ ?_ (hkeys s hs), _,
      hgrown.addModule (hms s hs) (hkinds s hs)⟩
    · rw [List.map_map]
      exact fun hmem => hid s.id hmem s.id (by simp) rfl
    · rw [List.map_map]
      exact fun hmem => hname s.moduleName hmem s.moduleName (by simp) rfl

/-- Builders that have seen the same modules differ in the numbers of their nodes. -/
theorem ModulesIn.renamed {cs cs' : List SymbolCore} {b b' : Builder} (h : ModulesIn cs b)
    (h' : ModulesIn cs' b') {σ : Equiv.Perm ℕ} (hσ : Moves σ cs cs') (hlength : cs'.length = cs.length) :
    b.Renamed (keepZero σ) b' := by
  obtain ⟨children, hroot, hchildren⟩ := h.root
  obtain ⟨children', hroot', hchildren'⟩ := h'.root
  refine ⟨⟨?_, fun {i n} hn => ?_, ?_, rfl, fun i hi => ?_⟩, ?_⟩
  · rw [h.size, h'.size, hlength]
  · cases i with
    | zero =>
      cases hroot.symm.trans hn
      refine ⟨_, hroot', KeyMap.ext_get? fun name => ?_, fun _ hl => hl, rfl, rfl, rfl⟩
      rw [KeyMap.get?_map]
      exact hchildren.moved hchildren' hσ (fun c i => rfl) name
    | succ i =>
      have hi : i < cs.length := by
        have := lt_size hn
        rw [h.size] at this
        omega
      have hc : cs[i]? = some cs[i] := List.getElem?_eq_getElem hi
      cases (h.node hc).symm.trans hn
      exact ⟨_, h'.node ((hσ.getElem? i).trans hc), rfl, fun _ hl => hl, rfl, rfl, rfl⟩
  · exact h.primary.moved h'.primary hσ fun c i => rfl
  · rw [h.size] at hi
    cases i with
    | zero => rfl
    | succ i => rw [keepZero_succ, hσ.fixed i (by omega)]
  · exact h.modules.moved h'.modules hσ fun c i => rfl

theorem modulesIn_of_store {st : SymbolStore}
    (hmodules : ∀ c ∈ st.cores, c.kind = .module_ → c.moduleName = c.id ∧ c.names.keys ≠ []) :
    ModulesIn (st.cores.filter (·.kind = .module_))
      ((st.symbols.filter (·.kind = .module_)).foldl Builder.addModule ⟨initial, []⟩) := by
  have hcores : st.cores.filter (·.kind = .module_) =
      (st.symbols.filter (·.kind = .module_)).map Symbol.core := List.filter_map
  have hmem : ∀ s ∈ st.symbols.filter (·.kind = .module_), s ∈ st.symbols ∧ s.kind = .module_ :=
    fun s hs => by simpa using hs
  have hcore : ∀ s ∈ st.symbols.filter (·.kind = .module_),
      s.moduleName = s.id ∧ s.names.keys ≠ [] :=
    fun s hs => hmodules s.core (List.mem_map_of_mem (hmem s hs).1) (hmem s hs).2
  have hnodup : ((st.symbols.filter (·.kind = .module_)).map (·.id)).Nodup :=
    (List.filter_sublist.map _).nodup st.nodup_ids
  rw [hcores]
  refine (modulesIn_foldl st (fun s hs => (hmem s hs).1) (fun s hs => (hmem s hs).2)
    (fun s hs => (hcore s hs).2) hnodup ?_).1
  rwa [List.map_congr_left fun s hs => (hcore s hs).1]

/-- Stores with the same cores give trees with the same URLs, if each module is named by
its identifier. -/
theorem canonicalPaths_build_of_perm {st st' : SymbolStore} (hperm : st.cores.Perm st'.cores)
    (hmodules : ∀ c ∈ st.cores, c.kind = .module_ → c.moduleName = c.id ∧ c.names.keys ≠ [])
    (members : MemberTable) :
    (build st' members).canonicalPaths = (build st members).canonicalPaths := by
  obtain ⟨σ, hσ⟩ := exists_moves (hperm.filter (·.kind = .module_))
  have hlength := (hperm.filter (·.kind = .module_)).length_eq
  have hspelled : ∀ l, (spelledIn st l).map placement = (spelledIn st' l).map placement := by
    intro l
    refine placements_spelledIn ?_
    rw [placements_spelled, placements_spelled]
    exact hperm.filterMap _
  have hstart := modulesIn_of_store hmodules
  have hstart' := modulesIn_of_store fun c hc => hmodules c (hperm.mem_iff.mpr hc)
  have hthere := (hstart.renamed hstart' hσ hlength.symm).foldl_addLanguage members
    (languages st) fun l _ => hspelled l
  have hback := (hstart'.renamed hstart (hσ.symm hlength.symm) hlength).foldl_addLanguage members
    (languages st) fun l _ => (hspelled l).symm
  unfold build
  rw [← languages_eq_of_perm hperm]
  exact hthere.tree.canonicalPaths hback.tree

end PathTree

end SymbolLinks
