import SymbolLinks.Proofs.StoreLaws
import SymbolLinks.Proofs.SuffixSelection
import SymbolLinks.Tree.Build

/-! How trees grow. A tree grows from its root by adding symbols and nodes without
symbol; `Growth` keeps the list of the symbols that were added. What every addition
keeps holds of every grown tree: the invariant of `TreeInvariant`, and where the
names, the symbols and the languages of its nodes come from. -/
namespace SymbolLinks.PathTree

/-! ## What one addition does -/

/-- One tree is another one with a node of a name and a language below `p`, which may
have been there already. -/
structure Extends (t : PathTree) (p : NodeId) (name : String) (l : Language) (t' : PathTree)
    (i : NodeId) : Prop where
  parent_iff : ∀ {j q : Nat}, t'.parentAt? j = some q ↔ (j = i ∧ q = p) ∨ t.parentAt? j = some q
  name_iff : ∀ {j : Nat} {n : String},
    t'.nameAt? j = some n ↔ (j = i ∧ n = name) ∨ t.nameAt? j = some n
  language_iff : ∀ {j : Nat} {l' : Language},
    t'.hasLanguage j l' = true ↔ (j = i ∧ l' = l) ∨ t.hasLanguage j l' = true

section Additions

variable {t t' : PathTree} {p i : Nat} {name : String} {l : Language}

theorem Extends.parent_self (h : Extends t p name l t' i) : t'.parentAt? i = some p :=
  h.parent_iff.mpr (.inl ⟨rfl, rfl⟩)

theorem Extends.name_self (h : Extends t p name l t' i) : t'.nameAt? i = some name :=
  h.name_iff.mpr (.inl ⟨rfl, rfl⟩)

theorem Extends.language_self (h : Extends t p name l t' i) : t'.hasLanguage i l = true :=
  h.language_iff.mpr (.inl ⟨rfl, rfl⟩)

/-- The node was there. -/
theorem Extends.of_old (hp : t.parentAt? i = some p) (hname : t.nameAt? i = some name)
    (hparents : ∀ j, t'.parentAt? j = t.parentAt? j) (hnames : ∀ j, t'.nameAt? j = t.nameAt? j)
    (hlanguages : ∀ {j : Nat} {l' : Language},
      t'.hasLanguage j l' = true ↔ (j = i ∧ l' = l) ∨ t.hasLanguage j l' = true) :
    Extends t p name l t' i := by
  refine ⟨?_, ?_, hlanguages⟩
  · intro j q
    rw [hparents]
    refine ⟨.inr, ?_⟩
    rintro (⟨rfl, rfl⟩ | h)
    · exact hp
    · exact h
  · intro j n
    rw [hnames]
    refine ⟨.inr, ?_⟩
    rintro (⟨rfl, rfl⟩ | h)
    · exact hname
    · exact h

/-- The node is new. -/
theorem Extends.of_new {hash kind : Option String}
    (hparents : ∀ j, t'.parentAt? j = (t.pushChild p name hash kind).parentAt? j)
    (hnames : ∀ j, t'.nameAt? j = (t.pushChild p name hash kind).nameAt? j)
    (hlanguages : ∀ {j : Nat} {l' : Language},
      t'.hasLanguage j l' = true ↔ (j = t.size ∧ l' = l) ∨ t.hasLanguage j l' = true) :
    Extends t p name l t' t.size := by
  have hnone : t.node? t.size = none := node?_eq_none_iff.mpr (Nat.le_refl _)
  refine ⟨?_, ?_, hlanguages⟩
  · intro j q
    rw [hparents, parentAt?_pushChild]
    by_cases hj : j = t.size
    · simp [hj, parentAt?, hnone, eq_comm]
    · simp [hj]
  · intro j n
    rw [hnames, nameAt?_pushChild]
    by_cases hj : j = t.size
    · simp [hj, nameAt?, hnone, eq_comm]
    · simp [hj]

/-- A place with a name is that of the node, or it was there. -/
theorem Extends.place (h : Extends t p name l t' i) {j q : Nat} {n : String}
    (hq : t'.parentAt? j = some q) (hn : t'.nameAt? j = some n) :
    (q = p ∧ n = name) ∨ (t.parentAt? j = some q ∧ t.nameAt? j = some n) := by
  by_cases hj : j = i
  · rw [h.parent_iff.mpr (.inl ⟨hj, rfl⟩)] at hq
    rw [h.name_iff.mpr (.inl ⟨hj, rfl⟩)] at hn
    cases hq
    cases hn
    exact .inl ⟨rfl, rfl⟩
  · exact .inr ⟨(h.parent_iff.mp hq).resolve_left fun hnode => hj hnode.1,
      (h.name_iff.mp hn).resolve_left fun hnode => hj hnode.1⟩

/-- Adding a symbol gives its node the symbol, and changes no other. -/
theorem Rooted.extends_addSymbol (h : Rooted t) (p : Nat) (name : String) (sp : Spelling) :
    Extends t p name sp.language (t.addSymbol p name sp).1 (t.addSymbol p name sp).2 ∧
      (∀ j, (t.addSymbol p name sp).1.symbolAt? j =
        if j = (t.addSymbol p name sp).2 then some sp.id else t.symbolAt? j) ∧
      ∀ id, (t.addSymbol p name sp).1.spellings.get? id =
        if id = sp.id then
          some (insertAscending (t.addSymbol p name sp).2 ((t.spellings.get? id).getD []))
        else t.spellings.get? id := by
  unfold PathTree.addSymbol
  split
  · rename_i i hr
    obtain ⟨es, hg, ⟨e, he, rfl⟩, -⟩ := reusable?_eq_some h hr
    obtain ⟨hparent, hname⟩ := h.below hg e he
    have hi : e.node < (t.labelChild p name e.node sp).size := by
      rw [size_labelChild]
      exact h.node_lt hg he
    refine ⟨.of_old hparent hname (fun j => ?_) (fun j => ?_) ?_, fun j => ?_,
      fun id => spellings_occupy _ _ _ _⟩
    · rw [parentAt?_occupy, parentAt?_labelChild]
    · rw [nameAt?_occupy, nameAt?_labelChild]
    · intro j l
      rw [hasLanguage_occupy _ _ hi, hasLanguage_labelChild]
    · rw [symbolAt?_occupy _ _ hi, symbolAt?_labelChild]
  · have hi : t.size < (t.pushChild p name (some sp.hash) (some sp.kind)).size := by
      rw [size_pushChild]
      exact Nat.lt_succ_self _
    refine ⟨.of_new (parentAt?_occupy _ _ _) (nameAt?_occupy _ _ _) ?_, fun j => ?_,
      fun id => spellings_occupy _ _ _ _⟩
    · intro j l
      rw [hasLanguage_occupy _ _ hi, hasLanguage_pushChild]
    · rw [symbolAt?_occupy _ _ hi, symbolAt?_pushChild]

/-- Adding a holder changes no symbol. -/
theorem Rooted.extends_addHolder (h : Rooted t) (p : Nat) (name : String) (l : Language) :
    Extends t p name l (t.addHolder p name l).1 (t.addHolder p name l).2 ∧
      (∀ j, (t.addHolder p name l).1.symbolAt? j = t.symbolAt? j) ∧
      (t.addHolder p name l).1.spellings = t.spellings := by
  cases hes : t.entries p name with
  | nil =>
    simp only [PathTree.addHolder, hes]
    have hi : t.size < (t.pushChild p name none none).size := by
      rw [size_pushChild]
      exact Nat.lt_succ_self _
    refine ⟨.of_new (fun j => parentAt?_modifyNode _ _ _ fun _ => ?_)
      (fun j => nameAt?_modifyNode _ _ _ fun _ => ?_) ?_, fun j => ?_, rfl⟩
    · rfl
    · rfl
    · intro j l'
      rw [hasLanguage_modifyNode_add _ _ hi, hasLanguage_pushChild]
      intro n
      rfl
    · rw [symbolAt?_modifyNode, symbolAt?_pushChild]
      intro n
      rfl
  | cons e es =>
    have he : e ∈ t.entries p name := by
      rw [hes]
      simp
    obtain ⟨es', hg, he'⟩ := mem_entries_iff.mp he
    obtain ⟨hparent, hname⟩ := h.below hg e he'
    simp only [PathTree.addHolder, hes]
    refine ⟨.of_old hparent hname (fun j => parentAt?_modifyNode _ _ _ fun _ => ?_)
      (fun j => nameAt?_modifyNode _ _ _ fun _ => ?_) ?_, fun j => ?_, rfl⟩
    · rfl
    · rfl
    · intro j l'
      rw [hasLanguage_modifyNode_add _ _ (h.entries_node_lt he)]
      intro n
      rfl
    · rw [symbolAt?_modifyNode]
      intro n
      rfl

end Additions

/-! ## Grown trees -/

/-- A label that a symbol of the store gives to its identifier. -/
def LabelOf (st : SymbolStore) : Labelling := fun id hash kind =>
  ∃ s ∈ st.symbols, s.id = id ∧ hash = ShortHash.ofIdentifier id ∧ kind = s.kind.identifier

theorem labelOf_spellingOf {st : SymbolStore} {s : Symbol} (h : s ∈ st.symbols) (l : Language) :
    LabelOf st (spellingOf s l).id (spellingOf s l).hash (spellingOf s l).kind :=
  ⟨s, h, rfl, rfl, rfl⟩

/-- Where the symbol of a language goes: a module below the root, any other symbol
below another node, under the last part of its path. -/
inductive GoesTo (s : Symbol) (l : Language) : NodeId → String → Prop
  | ofModule (hkind : s.kind = .module_) (hl : l ∈ s.names.keys) : GoesTo s l root s.moduleName
  | ofPath {parent : NodeId} {path : List String} {name : String} (hkind : s.kind ≠ .module_)
      (hpath : s.names.get? l = some path) (hname : path.getLast? = some name)
      (hparent : parent ≠ root) : GoesTo s l parent name

/-- Where a language of a symbol asks for a name: the name of its module below the
root, a part of its path below another node. -/
inductive AsksFor (s : Symbol) (l : Language) : NodeId → String → Prop
  | ofModule (hl : l ∈ s.names.keys) : AsksFor s l root s.moduleName
  | ofPath {parent : NodeId} {path : List String} {name : String}
      (hpath : s.names.get? l = some path) (hname : name ∈ path) (hparent : parent ≠ root) :
      AsksFor s l parent name

section Places

variable {s : Symbol} {l : Language} {parent : NodeId} {name : String}

theorem GoesTo.asksFor (h : GoesTo s l parent name) : AsksFor s l parent name := by
  cases h with
  | ofModule _ hl => exact .ofModule hl
  | ofPath _ hpath hname hparent => exact .ofPath hpath (List.mem_of_getLast? hname) hparent

theorem AsksFor.mem_keys (h : AsksFor s l parent name) : l ∈ s.names.keys := by
  cases h with
  | ofModule hl => exact hl
  | ofPath hpath _ _ => exact KeyMap.mem_keys_iff.mpr ⟨_, hpath⟩

end Places

/-- A tree that has grown from its root for the symbols of a store, with the symbols
that were added on the way, each with the language it was added for. -/
inductive Growth (st : SymbolStore) : List (String × Language) → PathTree → Prop
  | initial : Growth st [] initial
  | addSymbol {added : List (String × Language)} {t : PathTree} {s : Symbol} {l : Language}
      {parent : NodeId} {name : String} (grown : Growth st added t) (hs : s ∈ st.symbols)
      (hparent : parent < t.size) (hgoes : GoesTo s l parent name) :
      Growth st (added ++ [(s.id, l)]) (t.addSymbol parent name (spellingOf s l)).1
  | addHolder {added : List (String × Language)} {t : PathTree} {s : Symbol} {l : Language}
      {parent : NodeId} {name : String} (grown : Growth st added t) (hs : s ∈ st.symbols)
      (hparent : parent < t.size) (hasks : AsksFor s l parent name) :
      Growth st added (t.addHolder parent name l).1

namespace Growth

variable {st : SymbolStore} {added : List (String × Language)} {t : PathTree}

theorem inv (h : Growth st added t) : Inv (LabelOf st) t := by
  induction h with
  | initial => exact inv_initial _
  | addSymbol _ hs hparent _ ih => exact (ih.addSymbol hparent _ (labelOf_spellingOf hs _)).1
  | addHolder _ _ hparent _ ih => exact (ih.addHolder hparent _ _).1

/-- Every name in the tree is one that a symbol asks for in its place. -/
theorem asksFor (h : Growth st added t) {i p : Nat} {name : String}
    (hp : t.parentAt? i = some p) (hname : t.nameAt? i = some name) :
    ∃ s ∈ st.symbols, ∃ l, AsksFor s l p name := by
  induction h with
  | initial =>
    cases Nat.lt_one_iff.mp (lt_size_of_parentAt? hp)
    cases hp
  | @addSymbol _ t s l parent name' grown hs hparent hgoes ih =>
    obtain ⟨ext, -, -⟩ := grown.inv.rooted.extends_addSymbol parent name' (spellingOf s l)
    obtain ⟨rfl, rfl⟩ | ⟨hp, hname⟩ := ext.place hp hname
    · exact ⟨s, hs, l, hgoes.asksFor⟩
    · exact ih hp hname
  | @addHolder _ t s l parent name' grown hs hparent hasks ih =>
    obtain ⟨ext, -, -⟩ := grown.inv.rooted.extends_addHolder parent name' l
    obtain ⟨rfl, rfl⟩ | ⟨hp, hname⟩ := ext.place hp hname
    · exact ⟨s, hs, l, hasks⟩
    · exact ih hp hname

/-- Every language of a node is one that a symbol has a name in. -/
theorem exists_language (h : Growth st added t) {i : Nat} {l : Language}
    (hl : t.hasLanguage i l = true) : ∃ s ∈ st.symbols, l ∈ s.names.keys := by
  induction h with
  | initial =>
    cases i <;> cases hl
  | @addSymbol _ t s l' parent name grown hs hparent hgoes ih =>
    obtain ⟨ext, -, -⟩ := grown.inv.rooted.extends_addSymbol parent name (spellingOf s l')
    rcases ext.language_iff.mp hl with ⟨-, rfl⟩ | hl
    · exact ⟨s, hs, hgoes.asksFor.mem_keys⟩
    · exact ih hl
  | @addHolder _ t s l' parent name grown hs hparent hasks ih =>
    obtain ⟨ext, -, -⟩ := grown.inv.rooted.extends_addHolder parent name l'
    rcases ext.language_iff.mp hl with ⟨-, rfl⟩ | hl
    · exact ⟨s, hs, hasks.mem_keys⟩
    · exact ih hl

/-- A node with a symbol stands where the symbol goes to in one of its languages, and
the node has that language. -/
theorem goesTo (h : Growth st added t) {i : Nat} {id : String} (hi : t.symbolAt? i = some id) :
    ∃ s ∈ st.symbols, s.id = id ∧ ∃ l p name, GoesTo s l p name ∧ t.parentAt? i = some p ∧
      t.nameAt? i = some name ∧ t.hasLanguage i l = true := by
  induction h with
  | initial =>
    cases Nat.lt_one_iff.mp (lt_size_of_symbolAt? hi)
    cases hi
  | @addSymbol _ t s l parent name grown hs hparent hgoes ih =>
    obtain ⟨ext, hsym, -⟩ := grown.inv.rooted.extends_addSymbol parent name (spellingOf s l)
    rw [hsym] at hi
    split at hi
    · rename_i hnode
      cases hi
      exact ⟨s, hs, rfl, l, parent, name, hgoes, ext.parent_iff.mpr (.inl ⟨hnode, rfl⟩),
        ext.name_iff.mpr (.inl ⟨hnode, rfl⟩), ext.language_iff.mpr (.inl ⟨hnode, rfl⟩)⟩
    · obtain ⟨s', hs', hid, l', p, n, hgoes', hp, hn, hl⟩ := ih hi
      exact ⟨s', hs', hid, l', p, n, hgoes', ext.parent_iff.mpr (.inr hp),
        ext.name_iff.mpr (.inr hn), ext.language_iff.mpr (.inr hl)⟩
  | @addHolder _ t s l parent name grown hs hparent hasks ih =>
    obtain ⟨ext, hsym, -⟩ := grown.inv.rooted.extends_addHolder parent name l
    rw [hsym] at hi
    obtain ⟨s', hs', hid, l', p, n, hgoes', hp, hn, hl⟩ := ih hi
    exact ⟨s', hs', hid, l', p, n, hgoes', ext.parent_iff.mpr (.inr hp),
      ext.name_iff.mpr (.inr hn), ext.language_iff.mpr (.inr hl)⟩

theorem length_insertAscending_le (n : Nat) (ns : List Nat) :
    (insertAscending n ns).length ≤ ns.length + 1 := by
  induction ns with
  | nil => simp [insertAscending]
  | cons m ns ih =>
    simp only [insertAscending]
    split
    · simp
    · split
      · simp
      · simpa using ih

/-- A symbol has no more nodes than it was added times. -/
theorem length_spellings_le (h : Growth st added t) (id : String) :
    ((t.spellings.get? id).getD []).length ≤ (added.map (·.1)).count id := by
  induction h with
  | initial => exact Nat.le_refl 0
  | @addSymbol added t s l parent name grown hs hparent hgoes ih =>
    obtain ⟨-, -, hspellings⟩ := grown.inv.rooted.extends_addSymbol parent name (spellingOf s l)
    rw [hspellings, List.map_append, List.count_append]
    split
    · rename_i hid
      have hone : List.count id ([(s.id, l)].map (·.1)) = 1 := by
        rw [hid]
        simp [spellingOf]
      rw [hone, Option.getD_some]
      exact Nat.le_trans (length_insertAscending_le _ _) (Nat.succ_le_succ ih)
    · exact Nat.le_trans ih (Nat.le_add_right _ _)
  | @addHolder added t s l parent name grown hs hparent hasks ih =>
    obtain ⟨-, -, hspellings⟩ := grown.inv.rooted.extends_addHolder parent name l
    rw [hspellings]
    exact ih

/-- A name that heads a container is one that a symbol asks for there. -/
theorem asksFor_of_group? (h : Growth st added t) {p : Nat} {name : String} {es : List Entry}
    (hg : t.group? p name = some es) : ∃ s ∈ st.symbols, ∃ l, AsksFor s l p name := by
  obtain ⟨e, he⟩ := List.exists_mem_of_ne_nil es (h.inv.rooted.nonempty hg)
  obtain ⟨hp, hname⟩ := h.inv.rooted.below hg e he
  exact h.asksFor hp hname

/-- A symbol that is added once, or whose places are all the same, has one node. -/
theorem node_unique (h : Growth st added t)
    (hadded : ∀ s ∈ st.symbols, s.kind ≠ .module_ → (added.map (·.1)).count s.id ≤ 1)
    {i j : Nat} {id : String} (hi : t.symbolAt? i = some id) (hj : t.symbolAt? j = some id) :
    i = j := by
  obtain ⟨s, hs, rfl, l, p, name, hgoes, hp, hname, -⟩ := h.goesTo hi
  obtain ⟨s', hs', hid, l', p', name', hgoes', hp', hname', -⟩ := h.goesTo hj
  obtain rfl := SymbolStore.eq_of_id hs' hs hid
  by_cases hkind : s'.kind = .module_
  · -- Both nodes stand below the root under the name of the module.
    have hplace : p = root ∧ name = s'.moduleName := by
      cases hgoes with
      | ofModule => exact ⟨rfl, rfl⟩
      | ofPath hother => exact absurd hkind hother
    have hplace' : p' = root ∧ name' = s'.moduleName := by
      cases hgoes' with
      | ofModule => exact ⟨rfl, rfl⟩
      | ofPath hother => exact absurd hkind hother
    obtain ⟨rfl, rfl⟩ := hplace
    obtain ⟨rfl, rfl⟩ := hplace'
    obtain ⟨e, he, rfl⟩ := h.inv.rooted.listed hp hname
    obtain ⟨e', he', rfl⟩ := h.inv.rooted.listed hp' hname'
    obtain ⟨es, hg, he⟩ := mem_entries_iff.mp he
    obtain ⟨es', hg', he'⟩ := mem_entries_iff.mp he'
    cases hg.symm.trans hg'
    have hgroup : SymbolGroup (LabelOf st) t es := by
      rcases h.inv.grouped _ _ _ hg with ⟨k, rfl, hk⟩ | hgroup
      · cases List.mem_singleton.mp he
        cases hk.symm.trans hi
      · exact hgroup
    rw [hgroup.eq_of_symbol he he' (hi.trans hj.symm)]
  · have hlength := Nat.le_trans (h.length_spellings_le s'.id) (hadded s' hs hkind)
    exact eq_of_length_le_one hlength (h.inv.indexed.mem_iff.mpr hi) (h.inv.indexed.mem_iff.mpr hj)

end Growth

end SymbolLinks.PathTree
