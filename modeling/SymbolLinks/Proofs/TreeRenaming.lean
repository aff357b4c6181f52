import Mathlib.Logic.Equiv.Defs
import SymbolLinks.Proofs.ListLaws
import SymbolLinks.Proofs.TreeBuild
import SymbolLinks.Tree.CanonicalPath

/-! Trees that differ in the numbers of their nodes. `Renamed σ t u` says that node `i` of
`t` is node `σ i` of `u`, with at least the languages of `i`. Every operation on trees keeps
the relation if it is made at corresponding nodes, and so does every pass over the symbols
of a language: the nodes that it adds get the same numbers on both sides. -/
namespace SymbolLinks

def Entry.rename (σ : Equiv.Perm NodeId) (e : Entry) : Entry := { e with node := σ e.node }

/-- One node is another one with its neighbours renamed, perhaps with more languages. -/
structure Node.Renamed (σ : Equiv.Perm NodeId) (n n' : Node) : Prop where
  children : n'.children = n.children.map fun _ es => es.map (Entry.rename σ)
  languages : ∀ l, n.languages.contains l = true → n'.languages.contains l = true
  name : n'.name = n.name
  parent : n'.parent = n.parent.map σ
  symbol : n'.symbol = n.symbol

namespace PathTree

structure Renamed (σ : Equiv.Perm NodeId) (t u : PathTree) : Prop where
  size : u.size = t.size
  node : ∀ {i n}, t.node? i = some n → ∃ n', u.node? (σ i) = some n' ∧ n.Renamed σ n'
  primary : ∀ id, u.primary.get? id = (t.primary.get? id).map σ
  root : σ root = root
  /-- Nodes to come are not renamed. -/
  fixed : ∀ i, t.size ≤ i → σ i = i

namespace Renamed

variable {σ : Equiv.Perm NodeId} {t u : PathTree}

/-! ## Looking at renamed trees -/

theorem node_cases (h : Renamed σ t u) (i : NodeId) :
    (t.node? i = none ∧ u.node? (σ i) = none) ∨
      ∃ n n', t.node? i = some n ∧ u.node? (σ i) = some n' ∧ n.Renamed σ n' := by
  cases hn : t.node? i with
  | none =>
    have hi := node?_eq_none_iff.mp hn
    rw [h.fixed i hi]
    exact .inl ⟨rfl, node?_eq_none_iff.mpr (h.size ▸ hi)⟩
  | some n =>
    obtain ⟨n', hn', hrenamed⟩ := h.node hn
    exact .inr ⟨n, n', rfl, hn', hrenamed⟩

theorem nameAt? (h : Renamed σ t u) (i : NodeId) : u.nameAt? (σ i) = t.nameAt? i := by
  unfold PathTree.nameAt?
  obtain ⟨ht, hu⟩ | ⟨n, n', ht, hu, hn⟩ := h.node_cases i
  · rw [ht, hu]
  · simp [ht, hu, hn.name]

theorem parentAt? (h : Renamed σ t u) (i : NodeId) : u.parentAt? (σ i) = (t.parentAt? i).map σ := by
  unfold PathTree.parentAt?
  obtain ⟨ht, hu⟩ | ⟨n, n', ht, hu, hn⟩ := h.node_cases i
  · rw [ht, hu]
    rfl
  · simp [ht, hu, hn.parent]

theorem symbolAt? (h : Renamed σ t u) (i : NodeId) : u.symbolAt? (σ i) = t.symbolAt? i := by
  unfold PathTree.symbolAt?
  obtain ⟨ht, hu⟩ | ⟨n, n', ht, hu, hn⟩ := h.node_cases i
  · rw [ht, hu]
  · simp [ht, hu, hn.symbol]

theorem hasLanguage (h : Renamed σ t u) {i : NodeId} {l : Language} (hl : t.hasLanguage i l = true) :
    u.hasLanguage (σ i) l = true := by
  unfold PathTree.hasLanguage at hl ⊢
  obtain ⟨ht, -⟩ | ⟨n, n', ht, hu, hn⟩ := h.node_cases i
  · rw [ht] at hl
    cases hl
  · rw [ht] at hl
    rw [hu]
    exact hn.languages l hl

theorem entries (h : Renamed σ t u) (p : NodeId) (name : String) :
    u.entries (σ p) name = (t.entries p name).map (Entry.rename σ) := by
  unfold PathTree.entries Node.entries
  obtain ⟨ht, hu⟩ | ⟨n, n', ht, hu, hn⟩ := h.node_cases p
  · rw [ht, hu]
    rfl
  · simp only [ht, hu, Option.elim_some, hn.children, KeyMap.get?_map]
    cases n.children.get? name <;> rfl

/-- The node that a symbol can take is the same one. -/
theorem reusable? (h : Renamed σ t u) (p : NodeId) (name id : String) :
    u.reusable? (σ p) name id = (t.reusable? p name id).map σ := by
  have hsymbol : ∀ (s : Option String) (i : NodeId),
      ((u.node? (σ i)).any fun n => n.symbol == s) = (t.node? i).any fun n => n.symbol == s := by
    intro s i
    obtain ⟨ht, hu⟩ | ⟨n, n', ht, hu, hn⟩ := h.node_cases i
    · rw [ht, hu]
    · simp [ht, hu, hn.symbol]
  have hnodes : (u.entries (σ p) name).map (·.node) = ((t.entries p name).map (·.node)).map σ := by
    rw [h.entries, List.map_map, List.map_map]
    rfl
  have hfind : ∀ s : Option String, ((u.entries (σ p) name).map (·.node)).find?
      (fun i => (u.node? i).any fun n => n.symbol == s) =
        (((t.entries p name).map (·.node)).find? fun i => (t.node? i).any fun n => n.symbol == s).map σ := by
    intro s
    rw [hnodes, List.find?_map]
    simp only [Function.comp_def, hsymbol]
  simp only [PathTree.reusable?, hfind]
  exact (Option.map_or ..).symm

/-! ## Changing renamed trees -/

theorem modifyNode (h : Renamed σ t u) (i : NodeId) {f g : Node → Node}
    (hfg : ∀ n n', n.Renamed σ n' → (f n).Renamed σ (g n')) :
    Renamed σ (t.modifyNode i f) (u.modifyNode (σ i) g) where
  size := by rw [size_modifyNode, size_modifyNode, h.size]
  node := by
    intro j m hm
    rw [node?_modifyNode] at hm ⊢
    simp only [σ.injective.eq_iff]
    split at hm
    · rename_i hij
      obtain ⟨n, hn, rfl⟩ := Option.map_eq_some_iff.mp hm
      obtain ⟨n', hn', hrenamed⟩ := h.node hn
      exact ⟨g n', by simp [hij, hn'], hfg n n' hrenamed⟩
    · rename_i hij
      simpa [hij] using h.node hm
  primary := h.primary
  root := h.root
  fixed := by rw [size_modifyNode]; exact h.fixed

theorem pushNode (h : Renamed σ t u) {n n' : Node} (hn : n.Renamed σ n') :
    Renamed σ (t.pushNode n) (u.pushNode n') where
  size := by rw [size_pushNode, size_pushNode, h.size]
  node := by
    intro j m hm
    have hlast : σ j = u.size ↔ j = t.size := by
      rw [h.size, ← h.fixed t.size (Nat.le_refl _), σ.injective.eq_iff, h.fixed _ (Nat.le_refl _)]
    rw [node?_pushNode] at hm ⊢
    simp only [hlast]
    split at hm
    · rename_i hj
      cases hm
      exact ⟨n', by simp [hj], hn⟩
    · rename_i hj
      simpa [hj] using h.node hm
  primary := h.primary
  root := h.root
  fixed := by
    intro i hi
    rw [size_pushNode] at hi
    exact h.fixed i (by omega)

theorem alterGroup (h : Renamed σ t u) (p : NodeId) (name : String)
    {f g : Option (List Entry) → List Entry}
    (hfg : ∀ es, g (es.map (List.map (Entry.rename σ))) = (f es).map (Entry.rename σ)) :
    Renamed σ (t.alterGroup p name f) (u.alterGroup (σ p) name g) := by
  refine h.modifyNode p fun n n' hn => ⟨?_, hn.languages, hn.name, hn.parent, hn.symbol⟩
  refine KeyMap.ext_get? fun name' => ?_
  rw [hn.children, KeyMap.get?_map]
  by_cases hname : name' = name
  · subst hname
    rw [KeyMap.get?_alter_self, KeyMap.get?_alter_self, KeyMap.get?_map, hfg, Option.map_some]
  · rw [KeyMap.get?_alter_of_ne _ _ hname, KeyMap.get?_alter_of_ne _ _ hname, KeyMap.get?_map]

theorem pushChild (h : Renamed σ t u) (p : NodeId) (name : String) (hash kind : Option String) :
    Renamed σ (t.pushChild p name hash kind) (u.pushChild (σ p) name hash kind) := by
  have hnode : Node.Renamed σ { name, parent := some p } { name, parent := some (σ p) } :=
    ⟨rfl, fun _ hl => hl, rfl, rfl, rfl⟩
  refine (h.pushNode hnode).alterGroup p name fun es => ?_
  have hlast : Entry.rename σ ⟨hash, kind, t.size⟩ = ⟨hash, kind, u.size⟩ := by
    rw [Entry.rename, h.fixed _ (Nat.le_refl _), h.size]
  cases es <;> simp [hlast]

theorem labelEntry_rename (i : NodeId) (hash kind : String) (es : List Entry) :
    labelEntry (σ i) hash kind (es.map (Entry.rename σ)) =
      (labelEntry i hash kind es).map (Entry.rename σ) := by
  induction es with
  | nil => rfl
  | cons e es ih =>
    simp only [List.map_cons, labelEntry, Entry.rename, σ.injective.eq_iff]
    split
    · rfl
    · exact congrArg _ ih

theorem labelChild (h : Renamed σ t u) (p : NodeId) (name : String) (i : NodeId) {sp sp' : Spelling}
    (hhash : sp'.hash = sp.hash) (hkind : sp'.kind = sp.kind) :
    Renamed σ (t.labelChild p name i sp) (u.labelChild (σ p) name (σ i) sp') := by
  refine h.alterGroup p name fun es => ?_
  rw [hhash, hkind]
  cases es with
  | none => rfl
  | some es => exact labelEntry_rename i sp.hash sp.kind es

/-- Languages that a node gets on both sides. -/
theorem contains_add_of_contains {a b : KeySet Language} (h : ∀ l, a.contains l = true → b.contains l = true)
    (new l : Language) (hl : (a.add new).contains l = true) : (b.add new).contains l = true :=
  KeySet.contains_add.mpr ((KeySet.contains_add.mp hl).imp_right (h l))

theorem occupy (h : Renamed σ t u) (i : NodeId) {sp sp' : Spelling} (hid : sp'.id = sp.id)
    (hlanguage : sp'.language = sp.language) : Renamed σ (t.occupy i sp) (u.occupy (σ i) sp') := by
  have hnode := h.modifyNode i
    (f := fun n => { n with symbol := some sp.id, languages := n.languages.add sp.language })
    (g := fun n => { n with symbol := some sp'.id, languages := n.languages.add sp'.language })
    fun n n' hn => ⟨hn.children, hlanguage ▸ fun l => contains_add_of_contains hn.languages _ l, hn.name, hn.parent,
      congrArg some hid⟩
  refine ⟨hnode.size, hnode.node, fun id => ?_, hnode.root, hnode.fixed⟩
  rw [primary_occupy, primary_occupy, hid, h.primary]
  split
  · cases t.primary.get? id <;> rfl
  · rfl

/-- Adding a symbol at corresponding nodes gives corresponding nodes. -/
theorem addSymbol (h : Renamed σ t u) (p : NodeId) (name : String) {sp sp' : Spelling}
    (hhash : sp'.hash = sp.hash) (hkind : sp'.kind = sp.kind) (hlanguage : sp'.language = sp.language)
    (hid : sp'.id = sp.id) :
    Renamed σ (t.addSymbol p name sp).1 (u.addSymbol (σ p) name sp').1 ∧
      (u.addSymbol (σ p) name sp').2 = σ (t.addSymbol p name sp).2 := by
  unfold PathTree.addSymbol
  rw [hid, h.reusable?]
  cases t.reusable? p name sp.id with
  | some i => exact ⟨(h.labelChild p name i hhash hkind).occupy i hid hlanguage, rfl⟩
  | none =>
    have hlast : u.size = σ t.size := by rw [h.fixed _ (Nat.le_refl _), h.size]
    simp only [Option.map_none, hhash, hkind, hlast]
    exact ⟨(h.pushChild p name (some sp.hash) (some sp.kind)).occupy t.size hid hlanguage, trivial⟩

theorem addHolder (h : Renamed σ t u) (p : NodeId) (name : String) (l : Language) :
    Renamed σ (t.addHolder p name l).1 (u.addHolder (σ p) name l).1 ∧
      (u.addHolder (σ p) name l).2 = σ (t.addHolder p name l).2 := by
  have hlanguage : ∀ n n' : Node, n.Renamed σ n' → Node.Renamed σ
      { n with languages := n.languages.add l } { n' with languages := n'.languages.add l } :=
    fun n n' hn => ⟨hn.children, fun l' => contains_add_of_contains hn.languages l l', hn.name, hn.parent, hn.symbol⟩
  unfold PathTree.addHolder
  rw [h.entries]
  cases t.entries p name with
  | cons e es => exact ⟨h.modifyNode e.node hlanguage, rfl⟩
  | nil =>
    have hlast : u.size = σ t.size := by rw [h.fixed _ (Nat.le_refl _), h.size]
    simp only [List.map_nil, hlast]
    exact ⟨(h.pushChild p name none none).modifyNode t.size hlanguage, trivial⟩

end Renamed

/-! ## Passes over renamed trees -/

/-- Tables that name corresponding nodes. -/
def SameLookups {κ : Type} [BEq κ] (σ : Equiv.Perm NodeId) (table table' : List (κ × NodeId)) : Prop :=
  ∀ k, table'.lookup k = (table.lookup k).map σ

theorem SameLookups.cons {κ : Type} [BEq κ] {σ : Equiv.Perm NodeId} {table table' : List (κ × NodeId)}
    (h : SameLookups σ table table') (k : κ) (i : NodeId) :
    SameLookups σ ((k, i) :: table) ((k, σ i) :: table') := by
  intro k'
  rw [List.lookup_cons, List.lookup_cons]
  split
  · rfl
  · exact h k'

structure Pass.Renamed (σ : Equiv.Perm NodeId) (p q : Pass) : Prop where
  tree : PathTree.Renamed σ p.tree q.tree
  modules : SameLookups σ p.modules q.modules
  paths : SameLookups σ p.paths q.paths
  placed : SameLookups σ p.placed q.placed

namespace Pass.Renamed

variable {σ : Equiv.Perm NodeId} {p q : Pass}

theorem moduleNode (h : Renamed σ p q) (l : Language) (name : String) :
    Renamed σ (p.moduleNode l name).1 (q.moduleNode l name).1 ∧
      (q.moduleNode l name).2 = σ (p.moduleNode l name).2 := by
  unfold Pass.moduleNode
  rw [h.modules name]
  cases p.modules.lookup name with
  | some i => exact ⟨h, rfl⟩
  | none =>
    obtain ⟨htree, hnode⟩ := h.tree.addHolder root name l
    rw [h.tree.root] at htree hnode
    refine ⟨⟨htree, ?_, h.paths, h.placed⟩, hnode⟩
    simp only [Option.map_none, hnode]
    exact h.modules.cons name _

theorem descend (l : Language) (moduleName : String) (rest : List String) :
    ∀ {p q : Pass}, Renamed σ p q → ∀ parent walked,
      Renamed σ (Pass.descend l moduleName p parent walked rest).1
          (Pass.descend l moduleName q (σ parent) walked rest).1 ∧
        (Pass.descend l moduleName q (σ parent) walked rest).2 =
          σ (Pass.descend l moduleName p parent walked rest).2 := by
  induction rest with
  | nil => exact fun h parent _ => ⟨h, rfl⟩
  | cons name rest ih =>
    intro p q h parent walked
    have hat : q.nodeAt? moduleName (walked ++ [name]) =
        (p.nodeAt? moduleName (walked ++ [name])).map σ := h.paths _
    simp only [Pass.descend, hat]
    cases p.nodeAt? moduleName (walked ++ [name]) with
    | some i => exact ih h i _
    | none =>
      obtain ⟨htree, hnode⟩ := h.tree.addHolder parent name l
      simp only [Option.map_none, hnode]
      refine ih ?_ _ _
      exact ⟨htree, h.modules, h.paths.cons _ _, h.placed⟩

theorem containerOf? (h : Renamed σ p q) (members : MemberTable) (l : Language) {s s' : Symbol}
    (hid : s'.id = s.id) (above : List String) :
    q.containerOf? members l s' above = (p.containerOf? members l s above).map σ := by
  unfold Pass.containerOf?
  rw [hid]
  cases members l s.id with
  | none => rfl
  | some target =>
    have hnode : (q.placed.lookup target).or (q.tree.primary.get? target) =
        ((p.placed.lookup target).or (p.tree.primary.get? target)).map σ := by
      rw [h.placed, h.tree.primary, Option.map_or]
    simp only [Option.bind_eq_bind, Option.bind_some, hnode]
    cases (p.placed.lookup target).or (p.tree.primary.get? target) with
    | none => rfl
    | some i =>
      have hname : (q.tree.node? (σ i)).map (·.name) = (p.tree.node? i).map (·.name) :=
        h.tree.nameAt? i
      simp only [Option.map_some, Option.bind_some, hname]
      split <;> rfl

theorem parentFor (h : Renamed σ p q) (members : MemberTable) (l : Language) {s s' : Symbol}
    (hid : s'.id = s.id) (hmodule : s'.moduleName = s.moduleName) (above : List String) :
    Renamed σ (p.parentFor members l s above).1 (q.parentFor members l s' above).1 ∧
      (q.parentFor members l s' above).2 = σ (p.parentFor members l s above).2 := by
  obtain ⟨hm, hnode⟩ := h.moduleNode l s.moduleName
  have hparent := congrArg₂ Option.or (hm.containerOf? members l hid above) (hm.paths (s.moduleName, above))
  rw [← Option.map_or] at hparent
  simp only [Pass.parentFor, hmodule, Pass.nodeAt?, hparent]
  cases ((p.moduleNode l s.moduleName).1.containerOf? members l s above).or
      ((p.moduleNode l s.moduleName).1.paths.lookup (s.moduleName, above)) with
  | some i => exact ⟨hm, rfl⟩
  | none =>
    simp only [Option.map_none, hnode]
    exact descend l s.moduleName above hm _ []

theorem notePath (h : Renamed σ p q) (moduleName : String) (path : List String) (i : NodeId) :
    Renamed σ (p.notePath moduleName path i) (q.notePath moduleName path (σ i)) := by
  have hat : q.nodeAt? moduleName path = (p.nodeAt? moduleName path).map σ := h.paths _
  unfold Pass.notePath
  rw [hat]
  cases p.nodeAt? moduleName path with
  | some _ => exact h
  | none => exact ⟨h.tree, h.modules, h.paths.cons _ _, h.placed⟩

/-- Where a symbol goes depends on its identifier, its kind and its module. -/
theorem addSymbol (h : Renamed σ p q) (members : MemberTable) (l : Language) {s s' : Symbol}
    (hid : s'.id = s.id) (hkind : s'.kind = s.kind) (hmodule : s'.moduleName = s.moduleName)
    (path : List String) :
    Renamed σ (p.addSymbol members l s path) (q.addSymbol members l s' path) := by
  unfold Pass.addSymbol
  cases path.getLast? with
  | none => exact h
  | some name =>
    obtain ⟨hp, hparent⟩ := h.parentFor members l hid hmodule path.dropLast
    have hlabel : (spellingOf s' l).hash = (spellingOf s l).hash ∧
        (spellingOf s' l).kind = (spellingOf s l).kind :=
      ⟨congrArg ShortHash.ofIdentifier hid, congrArg Kind.identifier hkind⟩
    obtain ⟨htree, hnode⟩ := hp.tree.addSymbol (p.parentFor members l s path.dropLast).2 name
      hlabel.1 hlabel.2 rfl hid
    simp only [hparent, hnode, hid, hmodule]
    refine notePath ?_ s.moduleName path _
    exact ⟨htree, hp.modules, hp.paths, hp.placed.cons _ _⟩

end Pass.Renamed

/-! ## The order of symbols in a pass -/

/-- What decides where a spelled symbol goes. -/
structure Placement where
  moduleName : String
  path : List String
  id : String
  kind : Kind

def placement (x : Symbol × List String) : Placement := ⟨x.1.moduleName, x.2, x.1.id, x.1.kind⟩

/-- The order of `compareSpelled`. -/
def comparePlacements : Placement → Placement → Ordering :=
  compareLex (compareOn Placement.moduleName) <| compareLex (compareOn (·.path.length)) <|
    compareLex (compareOn Placement.path) (compareOn Placement.id)

theorem comparePlacements_placement (a b : Symbol × List String) :
    comparePlacements (placement a) (placement b) = compareSpelled a b := rfl

instance : Std.TransCmp comparePlacements :=
  inferInstanceAs (Std.TransCmp (compareLex _ (compareLex _ (compareLex _ _))))

theorem pairwise_spelledIn (st : SymbolStore) (l : Language) :
    ((spelledIn st l).map placement).Pairwise fun a b => (comparePlacements a b).isLE = true := by
  exact List.pairwise_map.mpr (pairwise_mergeSort_isLE placement _)

/-- Spelled symbols that are compared as equal are the same. -/
theorem placement_eq_of_compare {st : SymbolStore} {l : Language}
    {a b : Placement} (ha : a ∈ (spelled st l).map placement) (hb : b ∈ (spelled st l).map placement)
    (h : comparePlacements a b = .eq) : a = b := by
  obtain ⟨x, hx, rfl⟩ := List.mem_map.mp ha
  obtain ⟨y, hy, rfl⟩ := List.mem_map.mp hb
  obtain ⟨-, h⟩ := compareLex_eq_eq.mp h
  obtain ⟨-, h⟩ := compareLex_eq_eq.mp h
  obtain ⟨hpath, hid⟩ := compareLex_eq_eq.mp h
  have hpath : x.2 = y.2 := Std.LawfulEqCmp.eq_of_compare hpath
  have hid : x.1.id = y.1.id := Std.LawfulEqCmp.eq_of_compare hid
  have hmem : ∀ {z : Symbol × List String}, z ∈ spelled st l → z.1 ∈ st.symbols :=
    fun hz => (mem_spelledIn ((perm_spelledIn st l).mem_iff.mpr hz)).1
  have hsymbol : x.1 = y.1 := SymbolStore.eq_of_id (hmem hx) (hmem hy) hid
  rw [show x = y from Prod.ext hsymbol hpath]

/-- The order of the store does not show in a pass. -/
theorem placements_spelledIn {st st' : SymbolStore} {l : Language}
    (hperm : ((spelled st l).map placement).Perm ((spelled st' l).map placement)) :
    (spelledIn st l).map placement = (spelledIn st' l).map placement := by
  have hleft := (perm_spelledIn st l).map placement
  have hright := (perm_spelledIn st' l).map placement
  refine List.Perm.eq_of_pairwise ?_ (pairwise_spelledIn st l) (pairwise_spelledIn st' l)
    (hleft.trans (hperm.trans hright.symm))
  intro a b ha hb hab hba
  exact placement_eq_of_compare (hleft.mem_iff.mp ha)
    (hperm.mem_iff.mpr (hright.mem_iff.mp hb)) (Std.OrientedCmp.isLE_antisymm hab hba)

theorem Pass.Renamed.addAll {σ : Equiv.Perm NodeId} {p q : Pass} (h : p.Renamed σ q)
    (members : MemberTable) (l : Language) {xs ys : List (Symbol × List String)}
    (hxy : xs.map placement = ys.map placement) :
    (p.addAll members l xs).Renamed σ (q.addAll members l ys) := by
  induction xs generalizing ys p q with
  | nil =>
    cases List.map_eq_nil_iff.mp hxy.symm
    exact h
  | cons x xs ih =>
    obtain ⟨⟨s', path⟩, ys, rfl, hy, hys⟩ := List.map_eq_cons_iff.mp hxy.symm
    obtain ⟨hmodule, rfl, hid, hkind⟩ := Placement.mk.inj hy
    exact ih (h.addSymbol members l hid hkind hmodule _) hys.symm

structure Builder.Renamed (σ : Equiv.Perm NodeId) (b c : Builder) : Prop where
  tree : PathTree.Renamed σ b.tree c.tree
  modules : SameLookups σ b.modules c.modules

/-- Passes over the same placements keep two trees in step. -/
theorem Builder.Renamed.foldl_addLanguage {σ : Equiv.Perm NodeId} {b c : Builder}
    (h : b.Renamed σ c) (members : MemberTable) {st st' : SymbolStore} (ls : List Language)
    (hspelled : ∀ l ∈ ls, (spelledIn st l).map placement = (spelledIn st' l).map placement) :
    (ls.foldl (addLanguage members st) b).Renamed σ (ls.foldl (addLanguage members st') c) := by
  induction ls generalizing b c with
  | nil => exact h
  | cons l ls ih =>
    have hstart : Pass.Renamed σ { b with paths := [], placed := [] }
        { c with paths := [], placed := [] } := ⟨h.tree, h.modules, fun _ => rfl, fun _ => rfl⟩
    have hpass := hstart.addAll members l (hspelled l (by simp))
    exact ih ⟨hpass.tree, hpass.modules⟩ fun l' hl' => hspelled l' (List.mem_cons_of_mem l hl')

/-! ## URL paths of renamed trees -/

section Paths

variable {σ : Equiv.Perm NodeId} {t u : PathTree}

theorem Renamed.isPrimary (h : Renamed σ t u) (i : NodeId) : u.isPrimary (σ i) = t.isPrimary i := by
  unfold PathTree.isPrimary
  obtain ⟨ht, hu⟩ | ⟨n, n', ht, hu, hn⟩ := h.node_cases i
  · rw [ht, hu]
  · simp only [ht, hu, hn.symbol]
    cases n.symbol with
    | none => rfl
    | some s => cases hs : t.primary.get? s <;> simp [h.primary, hs]

/-- Trees that are renamed both ways have the same languages. -/
theorem Renamed.primaryLanguage? (h : Renamed σ t u) (hback : Renamed σ.symm u t) (i : NodeId) :
    (u.node? (σ i)).bind (·.primaryLanguage?) = (t.node? i).bind (·.primaryLanguage?) := by
  obtain ⟨ht, hu⟩ | ⟨n, n', ht, hu, hn⟩ := h.node_cases i
  · rw [ht, hu]
  · obtain ⟨m, hm, hback⟩ := hback.node hu
    rw [σ.symm_apply_apply, ht] at hm
    cases hm
    have hlanguages : n'.languages = n.languages :=
      KeySet.ext_contains fun l => ⟨hback.languages l, hn.languages l⟩
    rw [ht, hu, Option.bind_some, Option.bind_some, Node.primaryLanguage?, hlanguages]
    rfl

/-- Named entries with their nodes renamed. -/
def renameNamed (σ : Equiv.Perm NodeId) (x : String × Entry) : String × Entry := (x.1, x.2.rename σ)

theorem namedEntries_renamed {n n' : Node} (h : n.Renamed σ n') :
    namedEntries n' = (namedEntries n).map (renameNamed σ) := by
  rw [namedEntries, h.children, namedEntries, KeyMap.map, List.map_flatMap, List.flatMap_map]
  simp only [List.map_map]
  rfl

theorem caseGroups_renamed {n n' : Node} (h : n.Renamed σ n') :
    caseGroups n' = (caseGroups n).map (List.map (renameNamed σ)) := by
  have hgroups : ∀ (xs : List (String × Entry)) (gs : KeyMap String (List (String × Entry))),
      (xs.map (renameNamed σ)).foldl (fun gs x => gs.alter (Text.lowercase x.1) fun g => g.getD [] ++ [x])
          (gs.map fun _ g => g.map (renameNamed σ)) =
        (xs.foldl (fun gs x => gs.alter (Text.lowercase x.1) fun g => g.getD [] ++ [x]) gs).map
          fun _ g => g.map (renameNamed σ) := by
    intro xs
    induction xs with
    | nil => exact fun _ => rfl
    | cons x xs ih =>
      intro gs
      rw [List.map_cons, List.foldl_cons, List.foldl_cons, ← ih]
      congr 1
      refine (KeyMap.map_alter fun g => ?_).symm
      cases g <;> simp [renameNamed]
  have hempty := hgroups (namedEntries n) ∅
  rw [← namedEntries_renamed h] at hempty
  refine (congrArg KeyMap.values hempty).trans ?_
  rw [caseGroups, KeyMap.values, KeyMap.map, KeyMap.values, List.map_map, List.map_map]
  rfl

theorem disambiguator?_rename (group : List Entry) (e : Entry) :
    (e.rename σ).disambiguator? (group.map (Entry.rename σ)) = e.disambiguator? group := by
  simp only [Entry.disambiguator?, List.length_map, List.filter_map, Function.comp_def]
  rfl

theorem Renamed.segment (h : Renamed σ t u) (hback : Renamed σ.symm u t) (name : String) (e : Entry)
    (d : Option Disambiguator) : u.segment name (e.rename σ) d = t.segment name e d := by
  unfold PathTree.segment
  simp only [Entry.rename, h.primaryLanguage? hback]

/-- A walk goes to corresponding nodes by the same segments. -/
theorem Renamed.segments (h : Renamed σ t u) (hback : Renamed σ.symm u t) {n n' : Node}
    (hn : n.Renamed σ n') : u.segments n' = (t.segments n).map fun x => (x.1, σ x.2) := by
  unfold PathTree.segments
  rw [caseGroups_renamed hn, List.flatMap_map, List.map_flatMap]
  refine List.flatMap_congr fun group _ => ?_
  have hprimary : ((group.map (renameNamed σ)).map (·.2)).filter (fun e => u.isPrimary e.node) =
      ((group.map (·.2)).filter fun e => t.isPrimary e.node).map (Entry.rename σ) := by
    have hentries : (group.map (renameNamed σ)).map (·.2) = (group.map (·.2)).map (Entry.rename σ) := by
      rw [List.map_map, List.map_map]
      rfl
    rw [hentries, List.filter_map]
    simp only [Function.comp_def, Entry.rename, h.isPrimary]
  simp only [hprimary]
  rw [List.filterMap_map, List.map_filterMap]
  refine List.filterMap_congr fun x _ => ?_
  have hsame : (((group.map (·.2)).filter fun e => t.isPrimary e.node).map (Entry.rename σ)).find?
        (fun p => p.node == σ x.2.node) =
      (((group.map (·.2)).filter fun e => t.isPrimary e.node).find?
        fun p => p.node == x.2.node).map (Entry.rename σ) := by
    rw [List.find?_map]
    simp [Function.comp_def, Entry.rename]
  simp only [Function.comp_apply, renameNamed, Entry.rename, hsame]
  obtain ⟨ht, hu⟩ | ⟨m, m', ht, hu, -⟩ := h.node_cases x.2.node
  · rw [ht, hu]
    rfl
  · rw [ht, hu]
    refine congrArg some (Prod.ext ?_ rfl)
    refine (congrArg (u.segment x.1 (x.2.rename σ)) ?_).trans (h.segment hback x.1 x.2 _)
    cases List.find? _ _ with
    | none => rfl
    | some e => exact disambiguator?_rename _ e

theorem Renamed.recordPath (h : Renamed σ t u) (i : NodeId) (path : String)
    (paths : KeyMap String String) : u.recordPath (σ i) path paths = t.recordPath i path paths := by
  rw [PathTree.recordPath, PathTree.recordPath, h.symbolAt?, h.isPrimary]

theorem Renamed.collectPaths (h : Renamed σ t u) (hback : Renamed σ.symm u t) (fuel : Nat)
    (i : NodeId) (path : String) (paths : KeyMap String String) :
    u.collectPaths fuel (σ i) path paths = t.collectPaths fuel i path paths := by
  induction fuel generalizing i path paths with
  | zero => rfl
  | succ fuel ih =>
    unfold PathTree.collectPaths
    obtain ⟨ht, hu⟩ | ⟨n, n', ht, hu, hn⟩ := h.node_cases i
    · rw [ht, hu]
    · simp only [ht, hu, h.segments hback hn, List.foldl_map, h.recordPath, ih]

/-- The numbers of nodes do not show in URLs. -/
theorem Renamed.canonicalPaths (h : Renamed σ t u) (hback : Renamed σ.symm u t) :
    u.canonicalPaths = t.canonicalPaths := by
  have hpaths := h.collectPaths hback t.size PathTree.root "" ∅
  rw [h.root] at hpaths
  rw [PathTree.canonicalPaths, h.size, hpaths, PathTree.canonicalPaths]

end Paths

end PathTree

end SymbolLinks
