import SymbolLinks.Proofs.TreeBuild

/-! The nodes of modules. They are added first, each language of a module symbol in turn:
the first one makes the node, the others only give it their language. So a module symbol
makes one new node below the root, whatever the order of its languages
(`Builder.added_addModule`). -/
namespace SymbolLinks

/-- The part of a symbol that trees are built from. -/
structure SymbolCore where
  id : String
  kind : Kind
  moduleName : String
  names : KeyMap Language (List String)

def Symbol.core (s : Symbol) : SymbolCore := ⟨s.id, s.kind, s.moduleName, s.names⟩

namespace PathTree

/-- The node of a module symbol. -/
def nodeOfModule (c : SymbolCore) (ls : KeySet Language) : Node :=
  { name := c.moduleName, parent := some root, symbol := some c.id, languages := ls }

def entryOfModule (c : SymbolCore) (i : NodeId) : Entry :=
  ⟨some (ShortHash.ofIdentifier c.id), some c.kind.identifier, i⟩

/-- The root with an entry for a module symbol. -/
def listModule (s : Symbol) (i : NodeId) (n : Node) : Node :=
  { n with children := n.children.alter s.moduleName fun es => es.getD [] ++ [entryOfModule s.core i] }

/-- One tree is another one with a new node for a module symbol. -/
structure ModuleAdded (t : PathTree) (s : Symbol) (ls : KeySet Language) (u : PathTree) : Prop where
  size : u.size = t.size + 1
  node : ∀ j, u.node? j =
    if j = t.size then some (nodeOfModule s.core ls)
    else if j = root then (t.node? j).map (listModule s t.size) else t.node? j
  primary : ∀ id, u.primary.get? id = if id = s.id then some t.size else t.primary.get? id

/-- A tree without the symbol, and with no node that the symbol could take. -/
structure LacksModule (t : PathTree) (s : Symbol) : Prop where
  rooted : Rooted t
  reusable : t.reusable? root s.moduleName s.id = none
  primary : t.primary.get? s.id = none

theorem node?_occupy (t : PathTree) (i : NodeId) (sp : Spelling) (j : NodeId) :
    (t.occupy i sp).node? j = if i = j then (t.node? j).map fun n =>
      { n with symbol := some sp.id, languages := n.languages.add sp.language } else t.node? j :=
  node?_modifyNode t i j _

/-- The label that an entry has already. -/
theorem labelEntry_eq_self {i : NodeId} {hash kind : String} {es : List Entry}
    (h : ∀ e ∈ es, e.node = i → e.hash = some hash ∧ e.kind = some kind) :
    labelEntry i hash kind es = es := by
  induction es with
  | nil => rfl
  | cons e es ih =>
    rw [labelEntry]
    split
    · rename_i he
      obtain ⟨hhash, hkind⟩ := h e (by simp) he
      rw [← hhash, ← hkind]
    · rw [ih fun e' he' => h e' (List.mem_cons_of_mem e he')]

section Add

variable {t u : PathTree} {s : Symbol} {ls : KeySet Language}

/-- The first language of a module symbol. -/
theorem LacksModule.addSymbol (h : LacksModule t s) (l : Language) :
    ModuleAdded t s (KeySet.add ∅ l) (t.addSymbol root s.moduleName (spellingOf s l)).1 ∧
      (t.addSymbol root s.moduleName (spellingOf s l)).2 = t.size := by
  have hroot : t.size ≠ root := Nat.ne_of_gt h.rooted.root_lt
  have hreusable : t.reusable? root s.moduleName (spellingOf s l).id = none := h.reusable
  simp only [PathTree.addSymbol, hreusable]
  refine ⟨⟨?_, fun j => ?_, fun id => ?_⟩, trivial⟩
  · rw [size_occupy, size_pushChild]
  · rw [node?_occupy, PathTree.pushChild, PathTree.alterGroup, node?_modifyNode, node?_pushNode]
    by_cases hj : j = t.size
    · subst hj
      simp [hroot.symm, nodeOfModule, Symbol.core, spellingOf]
    · simp only [hj, Ne.symm hj, if_false, eq_comm (a := root)]
      rfl
  · rw [primary_occupy]
    by_cases hid : id = s.id
    · subst hid
      have hnone : (t.pushChild root s.moduleName (some (spellingOf s l).hash)
          (some (spellingOf s l).kind)).primary.get? s.id = none := h.primary
      rw [hnone, if_pos rfl]
      exact if_pos rfl
    · rw [if_neg hid]
      exact if_neg hid

theorem ModuleAdded.group? (h : ModuleAdded t s ls u) (hrooted : Rooted t) :
    u.group? root s.moduleName = some (t.entries root s.moduleName ++ [entryOfModule s.core t.size]) := by
  obtain ⟨n, hn⟩ := exists_node hrooted.root_lt
  have hu : u.node? root = some (listModule s t.size n) := by
    rw [h.node, if_neg (Nat.ne_of_lt hrooted.root_lt), if_pos rfl, hn]
    rfl
  rw [group?_of_node? hu, listModule, KeyMap.get?_alter_self, entries_eq_group?, group?_of_node? hn]

theorem ModuleAdded.symbolAt? (h : ModuleAdded t s ls u) {j : NodeId} (hj : j ≠ t.size) :
    u.symbolAt? j = t.symbolAt? j := by
  rw [PathTree.symbolAt?, h.node, if_neg hj, PathTree.symbolAt?]
  split
  · cases t.node? j <;> rfl
  · rfl

/-- The node is found by its symbol. -/
theorem ModuleAdded.reusable? (h : ModuleAdded t s ls u) (hlacks : LacksModule t s) :
    u.reusable? root s.moduleName s.id = some t.size := by
  have hsize : t.size < u.size := h.size ▸ Nat.lt_succ_self _
  have hold : ((t.entries root s.moduleName).map (·.node)).find?
      (fun i => (u.node? i).any fun n => n.symbol == some s.id) = none := by
    refine List.find?_eq_none.mpr fun i hi => ?_
    obtain ⟨e, he, rfl⟩ := List.mem_map.mp hi
    have hlt := hlacks.rooted.entries_node_lt he
    rw [any_symbol_iff (Nat.lt_trans hlt hsize), h.symbolAt? (Nat.ne_of_lt hlt)]
    exact (reusable?_eq_none hlacks.rooted hlacks.reusable he).2
  have hnew : ((u.node? t.size).any fun n => n.symbol == some s.id) = true := by
    rw [h.node, if_pos rfl]
    simp [nodeOfModule, Symbol.core]
  simp only [PathTree.reusable?, entries_eq_group? u, h.group? hlacks.rooted, Option.getD_some,
    List.map_append, List.find?_append, hold]
  simp [entryOfModule, hnew]

/-- Every other language of a module symbol. -/
theorem ModuleAdded.addSymbol (h : ModuleAdded t s ls u) (hlacks : LacksModule t s) (l : Language) :
    ModuleAdded t s (ls.add l) (u.addSymbol root s.moduleName (spellingOf s l)).1 ∧
      (u.addSymbol root s.moduleName (spellingOf s l)).2 = t.size := by
  have hreusable : u.reusable? root s.moduleName (spellingOf s l).id = some t.size :=
    h.reusable? hlacks
  have hlabel : ∀ j, (u.labelChild root s.moduleName t.size (spellingOf s l)).node? j = u.node? j := by
    intro j
    rw [PathTree.labelChild, PathTree.alterGroup, node?_modifyNode]
    split
    · rename_i hj
      subst hj
      obtain ⟨n, hn, hgroup⟩ := Option.bind_eq_some_iff.mp (h.group? hlacks.rooted)
      rw [hn, Option.map_some, KeyMap.alter_eq_self hgroup]
      refine labelEntry_eq_self fun e he hnode => ?_
      rcases List.mem_append.mp he with he | he
      · exact absurd hnode (Nat.ne_of_lt (hlacks.rooted.entries_node_lt he))
      · cases List.mem_singleton.mp he
        exact ⟨rfl, rfl⟩
    · rfl
  simp only [PathTree.addSymbol, hreusable]
  refine ⟨⟨?_, fun j => ?_, fun id => ?_⟩, trivial⟩
  · rw [size_occupy, size_labelChild, h.size]
  · rw [node?_occupy, hlabel, h.node]
    by_cases hj : j = t.size
    · subst hj
      simp [nodeOfModule, Symbol.core, spellingOf]
    · simp only [hj, Ne.symm hj, if_false]
  · rw [primary_occupy]
    have hprimary : (u.labelChild root s.moduleName t.size (spellingOf s l)).primary.get? id =
      if id = s.id then some t.size else t.primary.get? id := h.primary id
    rw [hprimary]
    by_cases hid : id = s.id
    · simp [hid, spellingOf]
    · rw [if_neg hid]
      exact if_neg hid

end Add

/-- A builder with a new node for a module symbol. -/
structure Builder.ModuleAdded (b : Builder) (s : Symbol) (ls : KeySet Language) (c : Builder) : Prop where
  tree : PathTree.ModuleAdded b.tree s ls c.tree
  modules : ∀ name, c.modules.lookup name =
    if name = s.moduleName then some b.tree.size else b.modules.lookup name

/-- A module symbol makes one node, with all its languages. -/
theorem Builder.added_addModule {b : Builder} {s : Symbol} (h : LacksModule b.tree s)
    (hkeys : s.names.keys ≠ []) :
    b.ModuleAdded s (KeySet.ofList s.names.keys) (b.addModule s) := by
  have hlookup : ∀ (modules : List (String × NodeId)) (i : NodeId) (name : String),
      List.lookup name ((s.moduleName, i) :: modules) =
        if name = s.moduleName then some i else modules.lookup name := by
    intro modules i name
    rw [List.lookup_cons]
    by_cases hname : name = s.moduleName
    · simp [hname]
    · simp [hname, beq_false_of_ne hname]
  -- once the node is there, the languages that are left only add to its set
  have hrest : ∀ (rest : List Language) (ls : KeySet Language) (c : Builder), b.ModuleAdded s ls c →
      b.ModuleAdded s (rest.foldl KeySet.add ls) (rest.foldl (fun c l =>
        ⟨(c.tree.addSymbol root s.moduleName (spellingOf s l)).1,
          (s.moduleName, (c.tree.addSymbol root s.moduleName (spellingOf s l)).2) :: c.modules⟩) c) := by
    intro rest
    induction rest with
    | nil => exact fun _ _ hc => hc
    | cons l rest ih =>
      intro ls c hc
      obtain ⟨htree, hnode⟩ := hc.tree.addSymbol h l
      refine ih _ _ ⟨htree, fun name => ?_⟩
      refine (hlookup c.modules _ name).trans ?_
      rw [hnode, hc.modules]
      split <;> rfl
  unfold Builder.addModule KeySet.ofList
  cases hlist : s.names.keys with
  | nil => exact absurd hlist hkeys
  | cons l rest =>
    obtain ⟨htree, hnode⟩ := h.addSymbol l
    refine hrest rest _ _ ⟨htree, fun name => ?_⟩
    exact (hlookup b.modules _ name).trans (by rw [hnode])

end PathTree

end SymbolLinks
