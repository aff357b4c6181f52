import SymbolLinks.Proofs.KeyMapLaws
import SymbolLinks.Tree.Basic

/-! What the operations on trees change. A tree is looked at through five views:
the parent, the name, the symbol and the languages of a node, and the group of
entries below a node and a name. Every operation has one lemma a view; later proofs use these
lemmas and never the node records. -/
namespace SymbolLinks.PathTree

/-! ## The views -/

def parentAt? (t : PathTree) (i : Nat) : Option NodeId := (t.node? i).bind (·.parent)

def nameAt? (t : PathTree) (i : Nat) : Option String := (t.node? i).map (·.name)

/-- The entries below a node and a name, if there is such a container. -/
def group? (t : PathTree) (p : Nat) (name : String) : Option (List Entry) :=
  (t.node? p).bind fun n => n.children.get? name

section OfNode

variable {t : PathTree} {i : Nat} {n : Node}

theorem parentAt?_of_node? (h : t.node? i = some n) : t.parentAt? i = n.parent := by
  rw [parentAt?, h]
  rfl

theorem nameAt?_of_node? (h : t.node? i = some n) : t.nameAt? i = some n.name := by
  rw [nameAt?, h]
  rfl

theorem symbolAt?_of_node? (h : t.node? i = some n) : t.symbolAt? i = n.symbol := by
  rw [symbolAt?, h]
  rfl

theorem group?_of_node? (h : t.node? i = some n) (name : String) :
    t.group? i name = n.children.get? name := by
  rw [group?, h]
  rfl

end OfNode

theorem entries_eq_group? (t : PathTree) (p : Nat) (name : String) :
    t.entries p name = (t.group? p name).getD [] := by
  simp only [entries, group?, Node.entries]
  cases t.node? p <;> rfl

theorem mem_entries_iff {t : PathTree} {p : Nat} {name : String} {e : Entry} :
    e ∈ t.entries p name ↔ ∃ es, t.group? p name = some es ∧ e ∈ es := by
  rw [entries_eq_group?]
  cases t.group? p name <;> simp

theorem node?_eq_none_iff {t : PathTree} {i : Nat} : t.node? i = none ↔ t.size ≤ i :=
  Array.getElem?_eq_none_iff

theorem exists_node {t : PathTree} {i : Nat} (h : i < t.size) : ∃ n, t.node? i = some n :=
  ⟨_, Array.getElem?_eq_getElem h⟩

theorem lt_size {t : PathTree} {i : Nat} {n : Node} (h : t.node? i = some n) : i < t.size := by
  apply Nat.lt_of_not_le
  intro hle
  rw [node?_eq_none_iff.mpr hle] at h
  cases h

theorem lt_size_of_parentAt? {t : PathTree} {i p : Nat} (h : t.parentAt? i = some p) :
    i < t.size := by
  obtain ⟨n, hn, _⟩ := Option.bind_eq_some_iff.mp h
  exact lt_size hn

theorem lt_size_of_symbolAt? {t : PathTree} {i : Nat} {s : String}
    (h : t.symbolAt? i = some s) : i < t.size := by
  obtain ⟨n, hn, _⟩ := Option.bind_eq_some_iff.mp h
  exact lt_size hn

theorem lt_size_of_group? {t : PathTree} {p : Nat} {name : String} {es : List Entry}
    (h : t.group? p name = some es) : p < t.size := by
  obtain ⟨n, hn, _⟩ := Option.bind_eq_some_iff.mp h
  exact lt_size hn

/-! ## Changing one node -/

theorem node?_modifyNode (t : PathTree) (i j : Nat) (f : Node → Node) :
    (t.modifyNode i f).node? j = if i = j then (t.node? j).map f else t.node? j := by
  simp only [modifyNode, node?, Array.getElem?_modify]

@[simp] theorem size_modifyNode (t : PathTree) (i : Nat) (f : Node → Node) :
    (t.modifyNode i f).size = t.size := by simp [modifyNode, size]

section Modify

variable (t : PathTree) (i j : Nat) {f : Node → Node}

theorem parentAt?_modifyNode (h : ∀ n, (f n).parent = n.parent) :
    (t.modifyNode i f).parentAt? j = t.parentAt? j := by
  simp only [parentAt?, node?_modifyNode]
  split
  · cases t.node? j <;> simp [h]
  · rfl

theorem nameAt?_modifyNode (h : ∀ n, (f n).name = n.name) :
    (t.modifyNode i f).nameAt? j = t.nameAt? j := by
  simp only [nameAt?, node?_modifyNode]
  split
  · cases t.node? j <;> simp [h]
  · rfl

theorem symbolAt?_modifyNode (h : ∀ n, (f n).symbol = n.symbol) :
    (t.modifyNode i f).symbolAt? j = t.symbolAt? j := by
  simp only [symbolAt?, node?_modifyNode]
  split
  · cases t.node? j <;> simp [h]
  · rfl

theorem group?_modifyNode (name : String) (h : ∀ n, (f n).children = n.children) :
    (t.modifyNode i f).group? j name = t.group? j name := by
  simp only [group?, node?_modifyNode]
  split
  · cases t.node? j <;> simp [h]
  · rfl

theorem hasLanguage_modifyNode (l : Language) (h : ∀ n, (f n).languages = n.languages) :
    (t.modifyNode i f).hasLanguage j l = t.hasLanguage j l := by
  simp only [hasLanguage, node?_modifyNode]
  split
  · cases t.node? j <;> simp [h]
  · rfl

/-- A node that gets a language has it, and nothing else changes. -/
theorem hasLanguage_modifyNode_add {i : Nat} (hi : i < t.size) {l : Language}
    (h : ∀ n, (f n).languages = n.languages.add l) (l' : Language) :
    (t.modifyNode i f).hasLanguage j l' = true ↔ (j = i ∧ l' = l) ∨ t.hasLanguage j l' = true := by
  obtain ⟨n, hn⟩ := exists_node hi
  simp only [hasLanguage, node?_modifyNode]
  by_cases hj : j = i
  · subst hj
    simp [hn, h, KeySet.contains_add]
  · simp [hj, Ne.symm hj]

end Modify

section AlterGroup

variable (t : PathTree) (p : Nat) (name : String) (f : Option (List Entry) → List Entry)

@[simp] theorem size_alterGroup : (t.alterGroup p name f).size = t.size := size_modifyNode _ _ _

@[simp] theorem parentAt?_alterGroup (j : Nat) :
    (t.alterGroup p name f).parentAt? j = t.parentAt? j :=
  parentAt?_modifyNode _ _ _ fun _ => rfl

@[simp] theorem nameAt?_alterGroup (j : Nat) :
    (t.alterGroup p name f).nameAt? j = t.nameAt? j :=
  nameAt?_modifyNode _ _ _ fun _ => rfl

@[simp] theorem symbolAt?_alterGroup (j : Nat) :
    (t.alterGroup p name f).symbolAt? j = t.symbolAt? j :=
  symbolAt?_modifyNode _ _ _ fun _ => rfl

@[simp] theorem hasLanguage_alterGroup (j : Nat) (l : Language) :
    (t.alterGroup p name f).hasLanguage j l = t.hasLanguage j l :=
  hasLanguage_modifyNode _ _ _ _ fun _ => rfl

theorem group?_alterGroup {p : Nat} (hp : p < t.size) (q : Nat) (name' : String) :
    (t.alterGroup p name f).group? q name' =
      if q = p ∧ name' = name then some (f (t.group? p name)) else t.group? q name' := by
  obtain ⟨n, hn⟩ := exists_node hp
  simp only [alterGroup, group?, node?_modifyNode]
  by_cases hq : q = p
  · subst hq
    by_cases hname : name' = name
    · subst hname
      simp [hn]
    · simp [hn, hname, KeyMap.get?_alter_of_ne _ _ hname]
  · simp [hq, Ne.symm hq]

end AlterGroup

/-! ## A new node -/

theorem node?_pushNode (t : PathTree) (n : Node) (j : Nat) :
    (t.pushNode n).node? j = if j = t.size then some n else t.node? j :=
  Array.getElem?_push

theorem group?_pushNode (t : PathTree) {n : Node} (hn : n.children = ∅) (q : Nat)
    (name : String) : (t.pushNode n).group? q name = t.group? q name := by
  rw [group?, node?_pushNode]
  split
  · rename_i h
    subst h
    rw [group?, node?_eq_none_iff.mpr (Nat.le_refl _)]
    simp [hn]
  · rfl

@[simp] theorem size_pushNode (t : PathTree) (n : Node) : (t.pushNode n).size = t.size + 1 :=
  Array.size_push _

section Push

variable (t : PathTree) (p : Nat) (name : String) (hash kind : Option String)

@[simp] theorem size_pushChild : (t.pushChild p name hash kind).size = t.size + 1 := by
  simp [pushChild]

theorem parentAt?_pushChild (j : Nat) :
    (t.pushChild p name hash kind).parentAt? j = if j = t.size then some p else t.parentAt? j := by
  rw [pushChild, parentAt?_alterGroup, parentAt?, node?_pushNode]
  split <;> rfl

theorem nameAt?_pushChild (j : Nat) :
    (t.pushChild p name hash kind).nameAt? j = if j = t.size then some name else t.nameAt? j := by
  rw [pushChild, nameAt?_alterGroup, nameAt?, node?_pushNode]
  split <;> rfl

/-- A new node stands for nothing yet. -/
@[simp] theorem symbolAt?_pushChild (j : Nat) :
    (t.pushChild p name hash kind).symbolAt? j = t.symbolAt? j := by
  rw [pushChild, symbolAt?_alterGroup, symbolAt?, node?_pushNode]
  split
  · rename_i h
    subst h
    rw [symbolAt?, node?_eq_none_iff.mpr (Nat.le_refl _)]
    rfl
  · rfl

/-- A new node has no language yet. -/
@[simp] theorem hasLanguage_pushChild (j : Nat) (l : Language) :
    (t.pushChild p name hash kind).hasLanguage j l = t.hasLanguage j l := by
  rw [pushChild, hasLanguage_alterGroup, hasLanguage, node?_pushNode]
  split
  · rename_i h
    subst h
    rw [hasLanguage, node?_eq_none_iff.mpr (Nat.le_refl _)]
    rfl
  · rfl

theorem group?_pushChild {p : Nat} (hp : p < t.size) (q : Nat) (name' : String) :
    (t.pushChild p name hash kind).group? q name' =
      if q = p ∧ name' = name then some (t.entries p name ++ [⟨hash, kind, t.size⟩])
      else t.group? q name' := by
  have hp' : p < (t.pushNode { name, parent := some p }).size :=
    (size_pushNode t _).symm ▸ Nat.lt_succ_of_lt hp
  rw [pushChild, group?_alterGroup _ _ _ hp', group?_pushNode t rfl, group?_pushNode t rfl,
    entries_eq_group?]

end Push

/-! ## A new label -/

section Label

variable (t : PathTree) (p : Nat) (name : String) (i : Nat) (sp : Spelling)

@[simp] theorem size_labelChild : (t.labelChild p name i sp).size = t.size :=
  size_alterGroup _ _ _ _

@[simp] theorem parentAt?_labelChild (j : Nat) :
    (t.labelChild p name i sp).parentAt? j = t.parentAt? j := parentAt?_alterGroup _ _ _ _ _

@[simp] theorem nameAt?_labelChild (j : Nat) :
    (t.labelChild p name i sp).nameAt? j = t.nameAt? j := nameAt?_alterGroup _ _ _ _ _

@[simp] theorem symbolAt?_labelChild (j : Nat) :
    (t.labelChild p name i sp).symbolAt? j = t.symbolAt? j := symbolAt?_alterGroup _ _ _ _ _

@[simp] theorem hasLanguage_labelChild (j : Nat) (l : Language) :
    (t.labelChild p name i sp).hasLanguage j l = t.hasLanguage j l :=
  hasLanguage_alterGroup _ _ _ _ _ _

end Label

theorem group?_labelChild {t : PathTree} {p : Nat} {name : String} {es : List Entry}
    (h : t.group? p name = some es) (i : Nat) (sp : Spelling) (q : Nat) (name' : String) :
    (t.labelChild p name i sp).group? q name' =
      if q = p ∧ name' = name then some (labelEntry i sp.hash sp.kind es)
      else t.group? q name' := by
  rw [labelChild, group?_alterGroup _ _ _ (lt_size_of_group? h), h]
  rfl

@[simp] theorem map_node_labelEntry (i : Nat) (hash kind : String) (es : List Entry) :
    (labelEntry i hash kind es).map (·.node) = es.map (·.node) := by
  induction es with
  | nil => rfl
  | cons e es ih =>
    simp only [labelEntry]
    split
    · rfl
    · simp [ih]

/-- What a label changes in a list with one entry a node. -/
theorem mem_labelEntry {i : Nat} {hash kind : String} {es : List Entry} {e : Entry}
    (hn : (es.map (·.node)).Nodup) (h : e ∈ labelEntry i hash kind es) :
    (e.node = i ∧ e.hash = some hash ∧ e.kind = some kind) ∨ (e.node ≠ i ∧ e ∈ es) := by
  induction es with
  | nil => cases h
  | cons e₀ es ih =>
    obtain ⟨hnot, hn'⟩ := List.nodup_cons.mp hn
    simp only [labelEntry] at h
    split at h
    · rename_i he₀
      rcases List.mem_cons.mp h with rfl | hmem
      · exact .inl ⟨he₀, rfl, rfl⟩
      · refine .inr ⟨fun he => hnot ?_, by simp [hmem]⟩
        exact List.mem_map.mpr ⟨e, hmem, he.trans he₀.symm⟩
    · rename_i he₀
      rcases List.mem_cons.mp h with rfl | hmem
      · exact .inr ⟨he₀, by simp⟩
      · rcases ih hn' hmem with hl | ⟨hne, hmem⟩
        · exact .inl hl
        · exact .inr ⟨hne, by simp [hmem]⟩

/-! ## A node that takes a symbol -/

section Occupy

variable (t : PathTree) (i : Nat) (sp : Spelling)

@[simp] theorem size_occupy : (t.occupy i sp).size = t.size := size_modifyNode _ _ _

@[simp] theorem parentAt?_occupy (j : Nat) : (t.occupy i sp).parentAt? j = t.parentAt? j :=
  parentAt?_modifyNode _ _ _ fun _ => rfl

@[simp] theorem nameAt?_occupy (j : Nat) : (t.occupy i sp).nameAt? j = t.nameAt? j :=
  nameAt?_modifyNode _ _ _ fun _ => rfl

@[simp] theorem group?_occupy (q : Nat) (name : String) :
    (t.occupy i sp).group? q name = t.group? q name :=
  group?_modifyNode _ _ _ _ fun _ => rfl

theorem symbolAt?_occupy {i : Nat} (hi : i < t.size) (j : Nat) :
    (t.occupy i sp).symbolAt? j = if j = i then some sp.id else t.symbolAt? j := by
  obtain ⟨n, hn⟩ := exists_node hi
  have h := node?_modifyNode t i j fun n =>
    { n with symbol := some sp.id, languages := n.languages.add sp.language }
  show ((t.modifyNode i _).node? j).bind (·.symbol) = _
  rw [h]
  by_cases hj : j = i
  · subst hj
    simp [hn]
  · simp [hj, Ne.symm hj, symbolAt?]

theorem hasLanguage_occupy {i : Nat} (hi : i < t.size) (j : Nat) (l : Language) :
    (t.occupy i sp).hasLanguage j l = true ↔
      (j = i ∧ l = sp.language) ∨ t.hasLanguage j l = true :=
  hasLanguage_modifyNode_add t j hi (fun _ => rfl) l

theorem primary_occupy (s : String) : (t.occupy i sp).primary.get? s =
    if s = sp.id then some ((t.primary.get? s).getD i) else t.primary.get? s := by
  show (t.primary.insertIfNew sp.id i).get? s = _
  split
  · rename_i h
    subst h
    exact KeyMap.get?_alter_self _ _ _
  · rename_i h
    exact KeyMap.get?_alter_of_ne _ _ h

theorem spellings_occupy (s : String) : (t.occupy i sp).spellings.get? s =
    if s = sp.id then some (insertAscending i ((t.spellings.get? s).getD []))
    else t.spellings.get? s := by
  show (t.spellings.alter sp.id _).get? s = _
  split
  · rename_i h
    subst h
    exact KeyMap.get?_alter_self _ _ _
  · rename_i h
    exact KeyMap.get?_alter_of_ne _ _ h

end Occupy

theorem mem_insertAscending {m n : Nat} {ns : List Nat} :
    m ∈ insertAscending n ns ↔ m = n ∨ m ∈ ns := by
  induction ns with
  | nil => simp [insertAscending]
  | cons k ks ih =>
    simp only [insertAscending]
    split
    · simp
    · split
      · rename_i h
        subst h
        simp
      · simp only [List.mem_cons, ih]
        exact or_left_comm

theorem pairwise_insertAscending {n : Nat} {ns : List Nat} (h : ns.Pairwise (· < ·)) :
    (insertAscending n ns).Pairwise (· < ·) := by
  induction ns with
  | nil => simp [insertAscending]
  | cons k ks ih =>
    obtain ⟨hk, hks⟩ := List.pairwise_cons.mp h
    simp only [insertAscending]
    split
    · rename_i hlt
      refine List.pairwise_cons.mpr ⟨fun m hm => ?_, h⟩
      rcases List.mem_cons.mp hm with rfl | hm
      · exact hlt
      · exact Nat.lt_trans hlt (hk m hm)
    · split
      · exact h
      · refine List.pairwise_cons.mpr ⟨fun m hm => ?_, ih hks⟩
        rcases mem_insertAscending.mp hm with rfl | hm
        · omega
        · exact hk m hm

end SymbolLinks.PathTree
