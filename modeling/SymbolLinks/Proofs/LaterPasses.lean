import SymbolLinks.Proofs.TreeBuild

/-! What later passes keep. A property of trees lasts if adding a symbol and adding a
holder keep it; then every pass over a language keeps it. A pass only makes the tree larger:
nodes stay where they are, with their symbols and languages (`Grows`), and once all symbols
have a primary node, none of these changes (`Keeps`). -/
namespace SymbolLinks.PathTree

/-- A property of trees that the additions of a pass over a language keep. -/
structure Lasting (st : SymbolStore) (l : Language) (P : PathTree → Prop) : Prop where
  addHolder : ∀ {added t s parent name}, Growth st added t → s ∈ st.symbols → parent < t.size →
    AsksFor s l parent name → P t → P (t.addHolder parent name l).1
  addSymbol : ∀ {added t s parent name}, Growth st added t → s ∈ st.symbols → parent < t.size →
    GoesTo s l parent name → P t → P (t.addSymbol parent name (spellingOf s l)).1

namespace Lasting

variable {st : SymbolStore} {l : Language} {P : PathTree → Prop} {p : Pass} {s : Symbol}
  {added : List (String × Language)} {path : List String}

theorem moduleNode (hP : Lasting st l P) (h : p.Grown st added) (hs : s ∈ st.symbols)
    (hl : l ∈ s.names.keys) (hp : P p.tree) : P (p.moduleNode l s.moduleName).1.tree := by
  unfold Pass.moduleNode
  split
  · exact hp
  · exact hP.addHolder h.tree hs h.tree.inv.rooted.root_lt (.ofModule hl) hp

theorem descend (hP : Lasting st l P) (hs : s ∈ st.symbols) (hpath : s.names.get? l = some path)
    (h : p.Grown st added) (hp : P p.tree) {parent : Nat}
    (hparent : parent < p.tree.size ∧ parent ≠ root) {rest : List String}
    (hrest : ∀ name ∈ rest, name ∈ path) (walked : List String) :
    P (Pass.descend l s.moduleName p parent walked rest).1.tree := by
  refine (Pass.descend_induction (R := fun p i _ => P p.tree ∧ p.Grown st added ∧
    i < p.tree.size ∧ i ≠ root) ?_ ?_ rest ⟨hp, h, hparent⟩ hrest).1
  · intro p parent walked name i hR hi
    exact ⟨hR.1, hR.2.1, hR.2.1.paths.lookup hi⟩
  · intro p parent walked name hR hname
    obtain ⟨hp, h, hlt, hroot⟩ := hR
    exact ⟨hP.addHolder h.tree hs hlt (.ofPath hpath hname hroot) hp,
      h.descend_added hs hpath ⟨hlt, hroot⟩ hname walked⟩

theorem parentFor (hP : Lasting st l P) (h : p.Grown st added) (members : MemberTable)
    (hs : s ∈ st.symbols) (hpath : s.names.get? l = some path) (hp : P p.tree) :
    P (p.parentFor members l s path.dropLast).1.tree := by
  have hl : l ∈ s.names.keys := KeyMap.mem_keys_iff.mpr ⟨path, hpath⟩
  obtain ⟨hm, hmod⟩ := h.moduleNode hs hl
  have hp := hP.moduleNode h hs hl hp
  simp only [Pass.parentFor]
  split
  · exact hp
  · exact hP.descend hs hpath hm hp hmod (fun _ hn => (List.dropLast_sublist path).subset hn) []

theorem passSymbol (hP : Lasting st l P) (h : p.Grown st added) (members : MemberTable)
    (hs : s ∈ st.symbols) (hkind : s.kind ≠ .module_) (hpath : s.names.get? l = some path)
    (hp : P p.tree) : P (p.addSymbol members l s path).tree := by
  have hnote : ∀ (p : Pass) (i : NodeId), (p.notePath s.moduleName path i).tree = p.tree := by
    intro p i
    unfold Pass.notePath
    split <;> rfl
  unfold Pass.addSymbol
  split
  · exact hp
  · rename_i name hlast
    obtain ⟨hq, hlt, hroot⟩ := h.parentFor members hs hpath
    simp only [hnote]
    exact hP.addSymbol hq.tree hs hlt (.ofPath hkind hpath hlast hroot)
      (hP.parentFor h members hs hpath hp)

/-- What lasts is kept by a whole pass. -/
theorem addLanguage (hP : Lasting st l P) {b : Builder} (h : b.Grown st added)
    (members : MemberTable) (hb : P b.tree) : P (b.addLanguage members st l).tree := by
  have hpass : ∀ (xs : List (Symbol × List String)), (∀ x ∈ xs, x ∈ spelledIn st l) →
      ∀ (added : List (String × Language)) (p : Pass), p.Grown st added → P p.tree →
        P (p.addAll members l xs).tree := by
    intro xs
    induction xs with
    | nil => exact fun _ _ _ _ hp => hp
    | cons x xs ih =>
      intro hxs added p hgrown hp
      obtain ⟨hs, hkind, hpath, hne⟩ := mem_spelledIn (hxs x (by simp))
      exact ih (fun y hy => hxs y (List.mem_cons_of_mem x hy)) _ _
        (hgrown.addSymbol members hs hkind hpath hne) (hP.passSymbol hgrown members hs hkind hpath hp)
  exact hpass _ (fun _ hx => hx) added _ ⟨h.tree, h.modules, .nil, .nil⟩ hb

/-- And by the passes over several languages. -/
theorem foldl_addLanguage (ls : List Language) (hP : ∀ l ∈ ls, Lasting st l P) {b : Builder}
    (h : b.Grown st added) (members : MemberTable) (hb : P b.tree) :
    P (ls.foldl (Builder.addLanguage members st) b).tree := by
  induction ls generalizing b added with
  | nil => exact hb
  | cons l ls ih =>
    exact ih (fun l' hl' => hP l' (List.mem_cons_of_mem l hl')) (h.addLanguage members l)
      ((hP l (by simp)).addLanguage h members hb)

end Lasting

theorem Builder.Grown.foldl_addLanguage {st : SymbolStore} {added : List (String × Language)}
    {b : Builder} (h : b.Grown st added) (members : MemberTable) (ls : List Language) :
    ∃ added', (ls.foldl (Builder.addLanguage members st) b).Grown st added' :=
  ⟨_, foldl_added (P := Builder.Grown st) (fun l _ _ _ hb => hb.addLanguage members l) h⟩

/-! ## Larger trees -/

/-- A tree in which the nodes of another one still have the parents, names, symbols and
languages that they had. -/
structure Grows (t u : PathTree) : Prop where
  parent : ∀ {i p : Nat}, t.parentAt? i = some p → u.parentAt? i = some p
  name : ∀ {i : Nat} {name : String}, t.nameAt? i = some name → u.nameAt? i = some name
  symbol : ∀ {i : Nat} {id : String}, t.symbolAt? i = some id → u.symbolAt? i = some id
  language : ∀ {i : Nat} {l : Language}, t.hasLanguage i l = true → u.hasLanguage i l = true

theorem Rooted.grows_addHolder {t : PathTree} (h : Rooted t) (p : Nat) (name : String)
    (l : Language) : Grows t (t.addHolder p name l).1 := by
  obtain ⟨ext, hsymbol, -⟩ := h.extends_addHolder p name l
  exact ⟨fun hp => ext.parent_iff.mpr (.inr hp), fun hn => ext.name_iff.mpr (.inr hn),
    fun hs => (hsymbol _).trans hs, fun hl => ext.language_iff.mpr (.inr hl)⟩

/-- A symbol takes another node only if that has no symbol. -/
theorem Rooted.grows_addSymbol {t : PathTree} (h : Rooted t) (p : Nat) (name : String)
    (sp : Spelling) : Grows t (t.addSymbol p name sp).1 := by
  obtain ⟨ext, hsymbol, -⟩ := h.extends_addSymbol p name sp
  have hfree : t.symbolAt? (t.addSymbol p name sp).2 = none ∨
      t.symbolAt? (t.addSymbol p name sp).2 = some sp.id := by
    unfold PathTree.addSymbol
    split
    · rename_i i hr
      obtain ⟨-, -, -, hfree⟩ := reusable?_eq_some h hr
      exact hfree
    · exact .inl (by rw [symbolAt?, node?_eq_none_iff.mpr (Nat.le_refl _)]; rfl)
  refine ⟨fun hp => ext.parent_iff.mpr (.inr hp), fun hn => ext.name_iff.mpr (.inr hn),
    fun {j id} hj => ?_, fun hl => ext.language_iff.mpr (.inr hl)⟩
  rw [hsymbol]
  split
  · rename_i hnode
    rw [← hnode, hj] at hfree
    rcases hfree with hfree | hfree
    · cases hfree
    · exact hfree.symm
  · exact hj

/-- What holds of larger trees, too, lasts. -/
theorem lasting_of_grows {P : PathTree → Prop} (hP : ∀ {t u}, Grows t u → P t → P u)
    (st : SymbolStore) (l : Language) : Lasting st l P where
  addHolder hgrown _ _ _ := hP (hgrown.inv.rooted.grows_addHolder _ _ _)
  addSymbol hgrown _ _ _ := hP (hgrown.inv.rooted.grows_addSymbol _ _ _)

/-- A tree with the nodes of another one, and perhaps more. Nodes that were there keep
their place, their symbol and their languages, and no primary node changes. -/
structure Keeps (t u : PathTree) : Prop where
  size_le : t.size ≤ u.size
  parent : ∀ {i : Nat}, i < t.size → u.parentAt? i = t.parentAt? i
  name : ∀ {i : Nat}, i < t.size → u.nameAt? i = t.nameAt? i
  symbol : ∀ {i : Nat} {id : String}, t.symbolAt? i = some id → u.symbolAt? i = some id
  primary : ∀ id, u.primary.get? id = t.primary.get? id
  language : ∀ {i : Nat} {l : Language}, t.hasLanguage i l = true → u.hasLanguage i l = true

namespace Keeps

variable {t u v : PathTree}

theorem refl (t : PathTree) : Keeps t t :=
  ⟨Nat.le_refl _, fun _ => rfl, fun _ => rfl, fun h => h, fun _ => rfl, fun h => h⟩

theorem trans (h : Keeps t u) (h' : Keeps u v) : Keeps t v where
  size_le := Nat.le_trans h.size_le h'.size_le
  parent hi := (h'.parent (Nat.lt_of_lt_of_le hi h.size_le)).trans (h.parent hi)
  name hi := (h'.name (Nat.lt_of_lt_of_le hi h.size_le)).trans (h.name hi)
  symbol hi := h'.symbol (h.symbol hi)
  primary id := (h'.primary id).trans (h.primary id)
  language hl := h'.language (h.language hl)

/-- Nodes of a larger tree keep what they had, and those without parent have none. -/
theorem of_grows (ht : Rooted t) (hu : Rooted u) (h : Grows t u) (hsize : t.size ≤ u.size)
    (hprimary : ∀ id, u.primary.get? id = t.primary.get? id) : Keeps t u where
  size_le := hsize
  parent := by
    intro j hj
    by_cases hroot : j = root
    · rw [hroot, ht.root_parent, hu.root_parent]
    · obtain ⟨q, hq, -⟩ := ht.parent_lt hj hroot
      rw [hq, h.parent hq]
  name := by
    intro j hj
    obtain ⟨n, hn⟩ := exists_node hj
    rw [nameAt?_of_node? hn, h.name (nameAt?_of_node? hn)]
  symbol := h.symbol
  primary := hprimary
  language := h.language

theorem addHolder {fits : Labelling} (h : Inv fits t) {p : Nat} (hp : p < t.size) (name : String)
    (l : Language) : Keeps t (t.addHolder p name l).1 := by
  obtain ⟨hinv, hle, -⟩ := h.addHolder hp name l
  refine of_grows h.rooted hinv.rooted (h.rooted.grows_addHolder p name l) hle fun id => ?_
  unfold PathTree.addHolder
  cases t.entries p name <;> rfl

/-- A symbol with a primary node keeps it. -/
theorem addSymbol {fits : Labelling} (h : Inv fits t) {p : Nat} (hp : p < t.size) (name : String)
    {sp : Spelling} (hs : fits sp.id sp.hash sp.kind) (hknown : ∃ i, t.primary.get? sp.id = some i) :
    Keeps t (t.addSymbol p name sp).1 := by
  obtain ⟨hinv, hle, -⟩ := h.addSymbol hp name hs
  refine of_grows h.rooted hinv.rooted (h.rooted.grows_addSymbol p name sp) hle fun id => ?_
  have hoccupy : ∀ (t' : PathTree) (i : NodeId), t'.primary = t.primary →
      (t'.occupy i sp).primary.get? id = t.primary.get? id := by
    intro t' i hprimary
    rw [primary_occupy, hprimary]
    split
    · rename_i hid
      obtain ⟨j, hj⟩ := hknown
      rw [hid, hj]
      rfl
    · rfl
  unfold PathTree.addSymbol
  split
  · exact hoccupy _ _ rfl
  · exact hoccupy _ _ rfl

end Keeps

/-- Where all symbols have a primary node, what is there stays. -/
theorem lasting_keeps {st : SymbolStore} {base : PathTree}
    (hknown : ∀ s ∈ st.symbols, ∃ i, base.primary.get? s.id = some i) (l : Language) :
    Lasting st l (Keeps base) where
  addHolder hgrown _ hparent _ hkeeps := hkeeps.trans (.addHolder hgrown.inv hparent _ l)
  addSymbol hgrown hs hparent _ hkeeps := by
    refine hkeeps.trans (.addSymbol hgrown.inv hparent _ (labelOf_spellingOf hs l) ?_)
    exact (hkeeps.primary _).symm ▸ hknown _ hs

/-- A symbol that was added has a primary node. -/
theorem Growth.exists_primary {st : SymbolStore} {added : List (String × Language)} {t : PathTree}
    (h : Growth st added t) {id : String} (hid : id ∈ added.map (·.1)) :
    ∃ i, t.primary.get? id = some i := by
  have hspelled : (t.spellings.get? id).isSome = true := by
    induction h with
    | initial => cases hid
    | @addSymbol added t s l parent name grown hs hparent hgoes ih =>
      obtain ⟨-, -, hspellings⟩ := grown.inv.rooted.extends_addSymbol parent name (spellingOf s l)
      rw [hspellings]
      split
      · rfl
      · rename_i hne
        rw [List.map_append, List.mem_append] at hid
        exact ih (hid.resolve_right fun hlast => hne (List.mem_singleton.mp hlast))
    | @addHolder added t s l parent name grown hs hparent hasks ih =>
      obtain ⟨-, -, hspellings⟩ := grown.inv.rooted.extends_addHolder parent name l
      rw [hspellings]
      exact ih hid
  rw [h.inv.indexed.has_primary] at hspelled
  exact Option.isSome_iff_exists.mp hspelled

end SymbolLinks.PathTree
