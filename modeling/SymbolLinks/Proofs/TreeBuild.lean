import SymbolLinks.Proofs.ListLaws
import SymbolLinks.Proofs.TreeGrowth

/-! Every tree that `build` makes is a grown tree. A symbol is added below a node that
some table names: the modules, the paths of the pass, its latest nodes, or the
primary nodes. So the invariant of a pass says that these tables name nodes of the
tree other than its root, and each step of a pass keeps it. -/
namespace SymbolLinks.PathTree

/-- All nodes that a table names are nodes of a tree with `n` nodes, below its root. -/
def Within {κ : Type} (n : Nat) (table : List (κ × NodeId)) : Prop :=
  ∀ x ∈ table, x.2 < n ∧ x.2 ≠ root

section Within

variable {κ : Type} {n m : Nat} {table : List (κ × NodeId)}

theorem Within.nil : Within n ([] : List (κ × NodeId)) := by
  intro x hx
  cases hx

theorem Within.mono (h : Within n table) (hle : n ≤ m) : Within m table :=
  fun x hx => ⟨Nat.lt_of_lt_of_le (h x hx).1 hle, (h x hx).2⟩

theorem Within.cons (h : Within n table) {k : κ} {i : Nat} (hi : i < n ∧ i ≠ root) :
    Within n ((k, i) :: table) := by
  intro x hx
  rcases List.mem_cons.mp hx with rfl | hx
  · exact hi
  · exact h x hx

theorem Within.lookup [BEq κ] [LawfulBEq κ] (h : Within n table) {k : κ} {i : Nat}
    (hl : table.lookup k = some i) : i < n ∧ i ≠ root := by
  obtain ⟨before, after, rfl, _⟩ := List.lookup_eq_some_iff.mp hl
  exact h (k, i) (by simp)

end Within

/-- Growing keeps the nodes, and gives one that is not the root. -/
theorem Growth.step_addSymbol {st : SymbolStore} {added : List (String × Language)} {t : PathTree}
    (h : Growth st added t) {s : Symbol} (hs : s ∈ st.symbols) {l : Language} {parent : Nat}
    {name : String} (hparent : parent < t.size) (hgoes : GoesTo s l parent name) :
    Growth st (added ++ [(s.id, l)]) (t.addSymbol parent name (spellingOf s l)).1 ∧
      t.size ≤ (t.addSymbol parent name (spellingOf s l)).1.size ∧
      (t.addSymbol parent name (spellingOf s l)).2 <
        (t.addSymbol parent name (spellingOf s l)).1.size ∧
      (t.addSymbol parent name (spellingOf s l)).2 ≠ root := by
  obtain ⟨hinv, hle, hlt⟩ := h.inv.addSymbol hparent name (labelOf_spellingOf hs l)
  obtain ⟨ext, -, -⟩ := h.inv.rooted.extends_addSymbol parent name (spellingOf s l)
  exact ⟨.addSymbol h hs hparent hgoes, hle, hlt,
    hinv.rooted.ne_root ext.parent_self⟩

theorem Growth.step_addHolder {st : SymbolStore} {added : List (String × Language)} {t : PathTree}
    (h : Growth st added t) {s : Symbol} (hs : s ∈ st.symbols) {l : Language} {parent : Nat}
    {name : String} (hparent : parent < t.size) (hasks : AsksFor s l parent name) :
    Growth st added (t.addHolder parent name l).1 ∧
      t.size ≤ (t.addHolder parent name l).1.size ∧
      (t.addHolder parent name l).2 < (t.addHolder parent name l).1.size ∧
      (t.addHolder parent name l).2 ≠ root := by
  obtain ⟨hinv, hle, hlt⟩ := h.inv.addHolder hparent name l
  obtain ⟨ext, -, -⟩ := h.inv.rooted.extends_addHolder parent name l
  exact ⟨.addHolder h hs hparent hasks, hle, hlt,
    hinv.rooted.ne_root ext.parent_self⟩

/-! ## Modules -/

structure Builder.Grown (st : SymbolStore) (added : List (String × Language)) (b : Builder) :
    Prop where
  tree : Growth st added b.tree
  modules : Within b.tree.size b.modules

theorem Builder.Grown.addModuleIn {st : SymbolStore} {added : List (String × Language)} {b : Builder}
    (h : b.Grown st added) {s : Symbol} (hs : s ∈ st.symbols) (hkind : s.kind = .module_)
    {l : Language} (hl : l ∈ s.names.keys) :
    Builder.Grown st (added ++ [(s.id, l)])
      ⟨(b.tree.addSymbol root s.moduleName (spellingOf s l)).1,
        (s.moduleName, (b.tree.addSymbol root s.moduleName (spellingOf s l)).2) :: b.modules⟩ := by
  obtain ⟨hgrown, hle, hlt⟩ :=
    h.tree.step_addSymbol hs h.tree.inv.rooted.root_lt (.ofModule hkind hl)
  exact ⟨hgrown, (h.modules.mono hle).cons hlt⟩

theorem Builder.Grown.addModule {st : SymbolStore} {added : List (String × Language)} {b : Builder}
    (h : b.Grown st added) {s : Symbol} (hs : s ∈ st.symbols) (hkind : s.kind = .module_) :
    (b.addModule s).Grown st (added ++ s.names.keys.map (s.id, ·)) := by
  rw [← List.flatMap_singleton' (s.names.keys.map _), List.flatMap_map]
  exact foldl_added (fun l hl added b hb => hb.addModuleIn hs hkind hl) h

/-! ## Passes -/

namespace Pass

structure Grown (st : SymbolStore) (added : List (String × Language)) (p : Pass) : Prop where
  tree : Growth st added p.tree
  modules : Within p.tree.size p.modules
  paths : Within p.tree.size p.paths
  placed : Within p.tree.size p.placed

variable {st : SymbolStore} {added : List (String × Language)} {p : Pass} {s : Symbol}
  {l : Language} {path : List String}

/-- The tables of a pass hold for a larger tree, too. -/
theorem Grown.grow (h : p.Grown st added) {added' : List (String × Language)} {t : PathTree}
    (ht : Growth st added' t) (hle : p.tree.size ≤ t.size) : Grown st added' { p with tree := t } :=
  ⟨ht, h.modules.mono hle, h.paths.mono hle, h.placed.mono hle⟩

theorem Grown.moduleNode (h : p.Grown st added) (hs : s ∈ st.symbols) (hl : l ∈ s.names.keys) :
    (p.moduleNode l s.moduleName).1.Grown st added ∧
      (p.moduleNode l s.moduleName).2 < (p.moduleNode l s.moduleName).1.tree.size ∧
      (p.moduleNode l s.moduleName).2 ≠ root := by
  unfold Pass.moduleNode
  split
  · rename_i i hi
    exact ⟨h, h.modules.lookup hi⟩
  · obtain ⟨hgrown, hle, hlt⟩ :=
      h.tree.step_addHolder hs h.tree.inv.rooted.root_lt (.ofModule hl)
    have hlarger := h.grow hgrown hle
    exact ⟨⟨hgrown, hlarger.modules.cons hlt, hlarger.paths, hlarger.placed⟩, hlt⟩

/-- What holds of the node where a descent starts holds of the one where it ends, if finding
the next node keeps it, and adding one as well. -/
theorem descend_induction {moduleName : String} {names : List String}
    {R : Pass → NodeId → List String → Prop}
    (hfound : ∀ {p parent walked name i}, R p parent walked →
      p.nodeAt? moduleName (walked ++ [name]) = some i → R p i (walked ++ [name]))
    (hadded : ∀ {p parent walked name}, R p parent walked → name ∈ names →
      R { p with
          tree := (p.tree.addHolder parent name l).1
          paths := ((moduleName, walked ++ [name]), (p.tree.addHolder parent name l).2) :: p.paths }
        (p.tree.addHolder parent name l).2 (walked ++ [name]))
    (rest : List String) : ∀ {p : Pass} {parent : NodeId} {walked : List String},
      R p parent walked → (∀ name ∈ rest, name ∈ names) →
      R (Pass.descend l moduleName p parent walked rest).1
        (Pass.descend l moduleName p parent walked rest).2 (walked ++ rest) := by
  induction rest with
  | nil =>
    intro p parent walked h _
    rw [List.append_nil]
    exact h
  | cons name rest ih =>
    intro p parent walked h hrest
    have hrest' : ∀ n ∈ rest, n ∈ names := fun n hn => hrest n (List.mem_cons_of_mem name hn)
    rw [List.append_cons]
    simp only [Pass.descend]
    split
    · rename_i i hi
      exact ih (hfound h hi) hrest'
    · exact ih (hadded h (hrest name (by simp))) hrest'

/-- A name that is missing on the way down gets a node. -/
theorem Grown.descend_added (h : p.Grown st added) (hs : s ∈ st.symbols)
    (hpath : s.names.get? l = some path) {parent : Nat}
    (hparent : parent < p.tree.size ∧ parent ≠ root) {name : String} (hname : name ∈ path)
    (walked : List String) :
    Grown st added { p with
        tree := (p.tree.addHolder parent name l).1
        paths := ((s.moduleName, walked ++ [name]), (p.tree.addHolder parent name l).2) :: p.paths } ∧
      (p.tree.addHolder parent name l).2 < (p.tree.addHolder parent name l).1.size ∧
      (p.tree.addHolder parent name l).2 ≠ root := by
  obtain ⟨hgrown, hle, hnode⟩ := h.tree.step_addHolder hs hparent.1 (.ofPath hpath hname hparent.2)
  have hlarger := h.grow hgrown hle
  exact ⟨⟨hgrown, hlarger.modules, hlarger.paths.cons hnode, hlarger.placed⟩, hnode⟩

/-- Going down along names ends at a node of the tree, however many are missing. -/
theorem Grown.descend (hs : s ∈ st.symbols) (hpath : s.names.get? l = some path)
    (h : p.Grown st added) {parent : Nat} (hparent : parent < p.tree.size ∧ parent ≠ root)
    {rest : List String} (hrest : ∀ name ∈ rest, name ∈ path) (walked : List String) :
    (Pass.descend l s.moduleName p parent walked rest).1.Grown st added ∧
      (Pass.descend l s.moduleName p parent walked rest).2 <
        (Pass.descend l s.moduleName p parent walked rest).1.tree.size ∧
      (Pass.descend l s.moduleName p parent walked rest).2 ≠ root := by
  refine descend_induction (R := fun p i _ => p.Grown st added ∧ i < p.tree.size ∧ i ≠ root)
    ?_ ?_ rest ⟨h, hparent⟩ hrest
  · intro p parent walked name i hR hi
    exact ⟨hR.1, hR.1.paths.lookup hi⟩
  · intro p parent walked name hR hname
    exact hR.1.descend_added hs hpath hR.2 hname walked

theorem Grown.containerOf? (h : p.Grown st added) {members : MemberTable} {above : List String}
    {i : Nat} (hi : p.containerOf? members l s above = some i) : i < p.tree.size ∧ i ≠ root := by
  unfold Pass.containerOf? at hi
  obtain ⟨target, _, hi⟩ := Option.bind_eq_some_iff.mp hi
  obtain ⟨j, hj, hi⟩ := Option.bind_eq_some_iff.mp hi
  split at hi
  · cases hi
    rcases Option.or_eq_some_iff.mp hj with hj | ⟨_, hj⟩
    · exact h.placed.lookup hj
    · have hsym := h.tree.inv.indexed.primary_mem hj
      refine ⟨lt_size_of_symbolAt? hsym, ?_⟩
      rintro rfl
      cases h.tree.inv.root_symbol.symm.trans hsym
  · cases hi

/-- All three ways to choose a parent give a node of the tree. -/
theorem Grown.parentFor (h : p.Grown st added) (members : MemberTable) (hs : s ∈ st.symbols)
    (hpath : s.names.get? l = some path) :
    (p.parentFor members l s path.dropLast).1.Grown st added ∧
      (p.parentFor members l s path.dropLast).2 <
        (p.parentFor members l s path.dropLast).1.tree.size ∧
      (p.parentFor members l s path.dropLast).2 ≠ root := by
  obtain ⟨hm, hmod⟩ := h.moduleNode hs (KeyMap.mem_keys_iff.mpr ⟨path, hpath⟩)
  simp only [Pass.parentFor]
  split
  · rename_i parent hor
    refine ⟨hm, ?_⟩
    rcases Option.or_eq_some_iff.mp hor with hc | ⟨_, hat⟩
    · exact hm.containerOf? hc
    · exact hm.paths.lookup hat
  · exact Grown.descend hs hpath hm hmod (fun _ hn => (List.dropLast_sublist path).subset hn) []

theorem Grown.notePath (h : p.Grown st added) (moduleName : String) (path : List String) {i : Nat}
    (hi : i < p.tree.size ∧ i ≠ root) : (p.notePath moduleName path i).Grown st added := by
  unfold Pass.notePath
  split
  · exact h
  · exact ⟨h.tree, h.modules, h.paths.cons hi, h.placed⟩

/-- One symbol of a pass. -/
theorem Grown.addSymbol (h : p.Grown st added) (members : MemberTable) (hs : s ∈ st.symbols)
    (hkind : s.kind ≠ .module_) (hpath : s.names.get? l = some path) (hne : path ≠ []) :
    (p.addSymbol members l s path).Grown st (added ++ [(s.id, l)]) := by
  unfold Pass.addSymbol
  split
  · rename_i hlast
    exact absurd (List.getLast?_eq_none_iff.mp hlast) hne
  · rename_i name hlast
    obtain ⟨hq, hlt, hroot⟩ := h.parentFor members hs hpath
    obtain ⟨hgrown, hle, hnode⟩ :=
      hq.tree.step_addSymbol hs hlt (.ofPath hkind hpath hlast hroot)
    have hlarger := hq.grow hgrown hle
    refine Grown.notePath ?_ s.moduleName path hnode
    exact ⟨hgrown, hlarger.modules, hlarger.paths, hlarger.placed.cons hnode⟩

end Pass

/-! ## The whole tree -/

/-- The symbols other than modules that a language spells, in the order of the store. -/
def spelled (st : SymbolStore) (l : Language) : List (Symbol × List String) :=
  st.symbols.filterMap fun s =>
    if s.kind = .module_ then none
    else match s.names.get? l with
      | none | some [] => none
      | some path => some (s, path)

theorem perm_spelledIn (st : SymbolStore) (l : Language) : (spelledIn st l).Perm (spelled st l) :=
  List.mergeSort_perm ..

theorem mem_spelledIn {st : SymbolStore} {l : Language} {s : Symbol} {path : List String}
    (h : (s, path) ∈ spelledIn st l) : s ∈ st.symbols ∧ s.kind ≠ .module_ ∧
      s.names.get? l = some path ∧ path ≠ [] := by
  obtain ⟨s', hs', heq⟩ := List.mem_filterMap.mp ((perm_spelledIn st l).subset h)
  split at heq
  · cases heq
  · rename_i hkind
    split at heq
    · cases heq
    · cases heq
    · rename_i path' hne hpath
      cases heq
      exact ⟨hs', hkind, hpath, hne⟩

theorem mem_spelledIn_iff {st : SymbolStore} {l : Language} {s : Symbol} {path : List String} :
    (s, path) ∈ spelledIn st l ↔ s ∈ st.symbols ∧ s.kind ≠ .module_ ∧
      s.names.get? l = some path ∧ path ≠ [] := by
  refine ⟨mem_spelledIn, fun ⟨hs, hkind, hpath, hne⟩ => (perm_spelledIn st l).mem_iff.mpr ?_⟩
  refine List.mem_filterMap.mpr ⟨s, hs, ?_⟩
  rw [if_neg hkind, hpath]
  cases path with
  | nil => exact absurd rfl hne
  | cons name path => rfl

theorem Builder.Grown.addLanguage {st : SymbolStore} {added : List (String × Language)} {b : Builder}
    (h : b.Grown st added) (members : MemberTable) (l : Language) :
    (b.addLanguage members st l).Grown st (added ++ (spelledIn st l).map fun x => (x.1.id, l)) := by
  have hstart : Pass.Grown st added { b with paths := [], placed := [] } :=
    ⟨h.tree, h.modules, .nil, .nil⟩
  have hpass : (Pass.addAll { b with paths := [], placed := [] } members l (spelledIn st l)).Grown st
      (added ++ (spelledIn st l).map fun x => (x.1.id, l)) := by
    rw [← List.flatMap_singleton' ((spelledIn st l).map _), List.flatMap_map]
    refine foldl_added (fun x hx added p hp => ?_) hstart
    obtain ⟨hs, hkind, hpath, hne⟩ := mem_spelledIn hx
    exact hp.addSymbol members hs hkind hpath hne
  exact ⟨hpass.tree, hpass.modules⟩

/-- A store whose symbols are in order needs no sorting. -/
theorem build_of_sorted {st : SymbolStore} (h : ∀ l ∈ languages st,
      (spelled st l).Pairwise fun a b => (compareSpelled a b).isLE) (members : MemberTable) :
    build st members = ((languages st).foldl (fun b l =>
      (Pass.addAll { b with paths := [], placed := [] } members l (spelled st l)).toBuilder)
      ((st.symbols.filter (·.kind = .module_)).foldl Builder.addModule ⟨initial, []⟩)).tree := by
  refine congrArg Builder.tree (List.foldl_ext _ _ _ fun b l hl => ?_)
  have hsorted : spelledIn st l = spelled st l := List.mergeSort_of_pairwise (h l hl)
  rw [Builder.addLanguage, hsorted]

/-- What `build` adds, in order. -/
def additions (st : SymbolStore) : List (String × Language) :=
  ((st.symbols.filter (·.kind = .module_)).flatMap fun s => s.names.keys.map (s.id, ·)) ++
    (languages st).flatMap fun l => (spelledIn st l).map fun x => (x.1.id, l)

theorem nodup_languages (st : SymbolStore) : (languages st).Nodup := by
  let all := (KeySet.ofList (st.symbols.flatMap (·.names.keys))).toList
  have hall : all.Nodup := KeyMap.nodup_keys _
  have hperm : (languages st).Perm all := by
    simpa [languages] using List.filter_append_perm (fun l => decide (l = Language.swift)) all
  exact hperm.nodup_iff.mpr hall

theorem sublist_spelled (st : SymbolStore) (l : Language) :
    ((spelled st l).map (·.1.id)).Sublist st.ids := by
  unfold spelled SymbolStore.ids
  induction st.symbols with
  | nil => exact .slnil
  | cons s ss ih =>
    rw [List.filterMap_cons]
    split
    · exact ih.cons _
    · rename_i x hx
      have hid : x.1 = s := by
        split at hx
        · cases hx
        · split at hx
          · cases hx
          · cases hx
          · cases hx
            rfl
      rw [List.map_cons, List.map_cons, hid]
      exact ih.cons_cons _

/-- A symbol other than a module is added once, if all are spelled in one language. -/
theorem count_additions_le {st : SymbolStore} {l : Language}
    (hone : ∀ {l' : Language} x, x ∈ spelledIn st l' → l' = l) {s : Symbol} (hs : s ∈ st.symbols)
    (hkind : s.kind ≠ .module_) : ((additions st).map (·.1)).count s.id ≤ 1 := by
  have hmodules : s.id ∉ ((st.symbols.filter (·.kind = .module_)).flatMap fun s =>
      s.names.keys.map (s.id, ·)).map (·.1) := by
    intro hmem
    simp only [List.map_flatMap, List.map_map, List.mem_flatMap, List.mem_map, List.mem_filter,
      decide_eq_true_eq] at hmem
    obtain ⟨s', ⟨hs', hmodule⟩, _, _, hid⟩ := hmem
    cases SymbolStore.eq_of_id hs' hs hid
    exact hkind hmodule
  have hspelled : (((languages st).flatMap fun l => (spelledIn st l).map fun x =>
      (x.1.id, l)).map (·.1)).Nodup := by
    simp only [List.map_flatMap, List.map_map, Function.comp_def]
    refine List.nodup_flatMap.mpr ⟨fun l' _ => ?_, ?_⟩
    · rw [((perm_spelledIn st l').map _).nodup_iff]
      exact (sublist_spelled st l').nodup st.nodup_ids
    · -- Of two languages, one spells nothing.
      refine (nodup_languages st).imp fun {l₁ l₂} hne id h₁ h₂ => ?_
      obtain ⟨x₁, hx₁, -⟩ := List.mem_map.mp h₁
      obtain ⟨x₂, hx₂, -⟩ := List.mem_map.mp h₂
      exact hne ((hone x₁ hx₁).trans (hone x₂ hx₂).symm)
  rw [additions, List.map_append, List.count_append, List.count_eq_zero_of_not_mem hmodules,
    Nat.zero_add]
  exact List.nodup_iff_count_le_one.mp hspelled s.id

/-- Every built tree has grown, whatever its store and its table of members hold. -/
theorem growth_build (st : SymbolStore) (members : MemberTable) :
    Growth st (additions st) (build st members) := by
  have hmodules : Builder.Grown st
      ([] ++ (st.symbols.filter (·.kind = .module_)).flatMap fun s => s.names.keys.map (s.id, ·))
      ((st.symbols.filter (·.kind = .module_)).foldl Builder.addModule ⟨initial, []⟩) := by
    refine foldl_added (P := Builder.Grown st) (fun s hs added b hb => ?_) ⟨.initial, .nil⟩
    have hs := List.mem_filter.mp hs
    exact hb.addModule hs.1 (by simpa using hs.2)
  have hlanguages : Builder.Grown st
      (_ ++ (languages st).flatMap fun l => (spelledIn st l).map fun x => (x.1.id, l))
      ((languages st).foldl (Builder.addLanguage members st) _) :=
    foldl_added (fun l _ added b hb => hb.addLanguage members l) hmodules
  exact hlanguages.tree

/-- So it satisfies the invariant. -/
theorem inv_build (st : SymbolStore) (members : MemberTable) :
    Inv (LabelOf st) (build st members) := (growth_build st members).inv

/-- A node of a built tree stands for a symbol of the store, if for any. -/
theorem Inv.exists_symbol {st : SymbolStore} {t : PathTree} (h : Inv (LabelOf st) t) {i : Nat}
    {id : String} (hi : t.symbolAt? i = some id) : ∃ s, st.get? id = some s := by
  have hne : i ≠ root := by
    rintro rfl
    cases h.root_symbol.symm.trans hi
  obtain ⟨p, hp, _⟩ := h.rooted.parent_lt (lt_size_of_symbolAt? hi) hne
  obtain ⟨name, es, hg, e, he, rfl⟩ := h.rooted.exists_entry hp
  rcases h.grouped p name es hg with ⟨j, rfl, hj⟩ | hsymbols
  · cases List.mem_singleton.mp he
    cases hj.symm.trans hi
  · obtain ⟨id', hash, kind, hid, _, _, s, hs, rfl, _⟩ := hsymbols.labelled e he
    cases hid.symm.trans hi
    exact ⟨s, SymbolStore.get?_of_mem hs⟩

end SymbolLinks.PathTree
