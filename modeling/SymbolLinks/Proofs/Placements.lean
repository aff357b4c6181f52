import SymbolLinks.Proofs.LaterPasses
import SymbolLinks.Proofs.ListLaws
import SymbolLinks.Proofs.StoreOrder
import SymbolLinks.Proofs.TreeDepth

/-! Symbols are placed where they are declared. A pass adds shorter paths first, so when it
comes to a symbol, the containers that are spelled above it have their nodes. The invariant of
a pass says where the nodes of its tables stand and where the symbols so far were placed
(`Pass.Settled`). A later pass moves no node, so what one pass has placed stays there. -/
namespace SymbolLinks.PathTree

/-! ## Ways from the root -/

/-- The names on the way from the root to a node. -/
inductive WayTo (t : PathTree) : NodeId → List String → Prop where
  | root : WayTo t root []
  | child {p i : NodeId} {names : List String} {name : String} : WayTo t p names →
      t.parentAt? i = some p → t.nameAt? i = some name → WayTo t i (names ++ [name])

theorem WayTo.grows {t u : PathTree} (hgrows : Grows t u) {i : NodeId} {names : List String}
    (h : t.WayTo i names) : u.WayTo i names := by
  induction h with
  | root => exact .root
  | child _ hparent hname ih => exact .child ih (hgrows.parent hparent) (hgrows.name hname)

/-- A display path is written along the way to its node. -/
theorem Rooted.displayPath_of_wayTo {t : PathTree} (h : Rooted t) {i : NodeId} {names : List String}
    (hway : t.WayTo i names) : t.displayPath i = "/" ++ String.intercalate "/" names := by
  have hnames : ((t.lineage i).reverse.filterMap fun i =>
      (t.node? i).bind fun n => n.parent.map fun _ => n.name) = names := by
    induction hway with
    | root =>
      obtain ⟨n, hn⟩ := exists_node h.root_lt
      have hparent : n.parent = none := by
        simpa [parentAt?, hn] using h.root_parent
      obtain ⟨m, hm⟩ := Nat.exists_eq_add_of_lt h.root_lt
      simp [lineage, hm, lineageUpTo, hn, hparent]
    | @child p i names name _ hparent hname ih =>
      obtain ⟨n, hn, hparent'⟩ := Option.bind_eq_some_iff.mp hparent
      have hname' : n.name = name := by
        simpa [nameAt?, hn] using hname
      rw [h.lineage_child hparent, List.reverse_cons, List.filterMap_append, ih]
      simp [hn, hparent', hname']
  simp only [displayPath, hnames]

/-! ## Declared places -/

/-- A node at a path of a module, as far as its name shows. Where the `whole` way is known,
all names on it are those of the path. -/
structure StandsAt (t : PathTree) (whole : Prop) (moduleName : String) (path : List String)
    (i : NodeId) : Prop where
  ofModule : path = [] → t.parentAt? i = some root ∧ t.nameAt? i = some moduleName
  name : path ≠ [] → t.nameAt? i = path.getLast?
  way : whole → t.WayTo i (moduleName :: path)

namespace StandsAt

variable {t u : PathTree} {whole : Prop} {moduleName : String} {path : List String} {i p : NodeId}

theorem grows (hgrows : Grows t u) (h : t.StandsAt whole moduleName path i) :
    u.StandsAt whole moduleName path i where
  ofModule hnil := ⟨hgrows.parent (h.ofModule hnil).1, hgrows.name (h.ofModule hnil).2⟩
  name hne := by
    have hlast := List.getLast?_eq_some_getLast hne
    exact (hgrows.name ((h.name hne).trans hlast)).trans hlast.symm
  way hwhole := (h.way hwhole).grows hgrows

theorem of_module (hparent : t.parentAt? i = some root) (hname : t.nameAt? i = some moduleName) :
    t.StandsAt whole moduleName [] i where
  ofModule _ := ⟨hparent, hname⟩
  name hne := absurd rfl hne
  way _ := .child .root hparent hname

theorem child {name : String} (h : t.StandsAt whole moduleName path p)
    (hparent : t.parentAt? i = some p) (hname : t.nameAt? i = some name) :
    t.StandsAt whole moduleName (path ++ [name]) i where
  ofModule hnil := absurd hnil (by simp)
  name _ := by rw [hname, List.getLast?_concat]
  way hwhole := .child (h.way hwhole) hparent hname

end StandsAt

/-- A container is declared above a symbol: in its module, at its path without the last name. -/
structure DeclaredAbove (l : Language) (s : Symbol) (path : List String) (c : Symbol) : Prop where
  kind : c.kind ≠ .module_
  moduleName : c.moduleName = s.moduleName
  names : c.names.get? l = some path.dropLast

instance (l : Language) (s : Symbol) (path : List String) (c : Symbol) :
    Decidable (DeclaredAbove l s path c) :=
  decidable_of_iff (c.kind ≠ .module_ ∧ c.moduleName = s.moduleName ∧
    c.names.get? l = some path.dropLast) ⟨fun h => ⟨h.1, h.2.1, h.2.2⟩, fun h => ⟨h.1, h.2, h.3⟩⟩

/-- All containers that the table names for symbols of a language are declared above them, as
far as they are stored. -/
def ContainersDeclared (st : SymbolStore) (members : MemberTable) (l : Language) : Prop :=
  ∀ s ∈ st.symbols, ∀ c ∈ st.symbols, ∀ path ∈ s.names.get? l, s.kind ≠ .module_ → path ≠ [] →
    members l s.id = some c.id → DeclaredAbove l s path c

instance (st : SymbolStore) (members : MemberTable) (l : Language) :
    Decidable (ContainersDeclared st members l) :=
  inferInstanceAs (Decidable (∀ s ∈ st.symbols, ∀ c ∈ st.symbols, ∀ path ∈ s.names.get? l, _))

/-- A node stands for the recorded container of a symbol, if that is declared above it. -/
def HoldsMember (st : SymbolStore) (members : MemberTable) (l : Language) (t : PathTree) (s : Symbol)
    (path : List String) (p : NodeId) : Prop :=
  ∀ c ∈ st.symbols, members l s.id = some c.id → DeclaredAbove l s path c → path.dropLast ≠ [] →
    t.symbolAt? p = some c.id

theorem HoldsMember.grows {st : SymbolStore} {members : MemberTable} {l : Language} {t u : PathTree}
    {s : Symbol} {path : List String} {p : NodeId} (hgrows : Grows t u)
    (h : HoldsMember st members l t s path p) : HoldsMember st members l u s path p :=
  fun c hc hmember habove hne => hgrows.symbol (h c hc hmember habove hne)

/-- The node of a symbol in a language, at its path there. -/
structure PlacedAt (whole : Prop) (st : SymbolStore) (members : MemberTable) (l : Language)
    (t : PathTree) (s : Symbol) (path : List String) (n : NodeId) : Prop where
  symbol : t.symbolAt? n = some s.id
  language : t.hasLanguage n l = true
  stands : t.StandsAt whole s.moduleName path n
  parent : ∃ p, t.parentAt? n = some p ∧ t.StandsAt whole s.moduleName path.dropLast p ∧
    HoldsMember st members l t s path p

theorem PlacedAt.grows {whole : Prop} {st : SymbolStore} {members : MemberTable} {l : Language}
    {t u : PathTree} {s : Symbol} {path : List String} {n : NodeId} (hgrows : Grows t u)
    (h : PlacedAt whole st members l t s path n) : PlacedAt whole st members l u s path n where
  symbol := hgrows.symbol h.symbol
  language := hgrows.language h.language
  stands := h.stands.grows hgrows
  parent := by
    obtain ⟨p, hp, hstands, hholds⟩ := h.parent
    exact ⟨p, hgrows.parent hp, hstands.grows hgrows, hholds.grows hgrows⟩

/-! ## Passes -/

/-- The table of modules names nodes of these names below the root. -/
def Builder.ModulesNamed (b : Builder) : Prop :=
  ∀ m i, b.modules.lookup m = some i → b.tree.parentAt? i = some root ∧ b.tree.nameAt? i = some m

theorem Builder.ModulesNamed.grows {b : Builder} (h : b.ModulesNamed) {t : PathTree}
    (hgrows : Grows b.tree t) : Builder.ModulesNamed { b with tree := t } :=
  fun m i hi => ⟨hgrows.parent (h m i hi).1, hgrows.name (h m i hi).2⟩

theorem Builder.ModulesNamed.cons {b : Builder} (h : b.ModulesNamed) {m : String} {i : NodeId}
    (hparent : b.tree.parentAt? i = some root) (hname : b.tree.nameAt? i = some m) :
    Builder.ModulesNamed { b with modules := (m, i) :: b.modules } := by
  intro m' j hj
  obtain ⟨rfl, rfl⟩ | hj := lookup_cons_eq_some hj
  · exact ⟨hparent, hname⟩
  · exact h m' j hj

namespace Pass

/-- The tables of a pass name the nodes that they should, and the symbols in `done` are placed. -/
structure Settled (whole : Prop) (st : SymbolStore) (members : MemberTable) (l : Language)
    (done : List (Symbol × List String)) (p : Pass) : Prop where
  modules : p.toBuilder.ModulesNamed
  paths : ∀ {m path i}, p.nodeAt? m path = some i → p.tree.StandsAt whole m path i
  latest : ∀ {id i}, p.placed.lookup id = some i → p.tree.symbolAt? i = some id
  placed : ∀ {s path}, (s, path) ∈ done →
    ∃ n, p.placed.lookup s.id = some n ∧ PlacedAt whole st members l p.tree s path n

/-- What a pass knows when it comes to a symbol: that it has placed what is declared above it,
and, where whole ways are asked for, that the table names nothing else. -/
structure Reached (whole : Prop) (st : SymbolStore) (members : MemberTable) (l : Language)
    (done : List (Symbol × List String)) (s : Symbol) (path : List String) : Prop where
  stored : s ∈ st.symbols
  kind : s.kind ≠ .module_
  spelled : s.names.get? l = some path
  ne_nil : path ≠ []
  above : ∀ {c}, c ∈ st.symbols → DeclaredAbove l s path c → path.dropLast ≠ [] →
    (c, path.dropLast) ∈ done
  declared : whole → ContainersDeclared st members l

namespace Settled

variable {whole : Prop} {st : SymbolStore} {members : MemberTable} {l : Language}
  {done : List (Symbol × List String)} {p : Pass} {added : List (String × Language)} {s : Symbol}
  {path : List String}

theorem grow (h : p.Settled whole st members l done) {t : PathTree} (hgrows : Grows p.tree t) :
    Settled whole st members l done { p with tree := t } where
  modules := h.modules.grows hgrows
  paths hi := (h.paths hi).grows hgrows
  latest hi := hgrows.symbol (h.latest hi)
  placed hx := by
    obtain ⟨n, hn, hplaced⟩ := h.placed hx
    exact ⟨n, hn, hplaced.grows hgrows⟩

theorem moduleNode (h : p.Settled whole st members l done) (hrooted : Rooted p.tree) (m : String) :
    (p.moduleNode l m).1.Settled whole st members l done ∧
      (p.moduleNode l m).1.tree.StandsAt whole m [] (p.moduleNode l m).2 := by
  unfold Pass.moduleNode
  split
  · rename_i i hi
    exact ⟨h, .of_module (h.modules m i hi).1 (h.modules m i hi).2⟩
  · obtain ⟨ext, -, -⟩ := hrooted.extends_addHolder root m l
    have hlarger := h.grow (hrooted.grows_addHolder root m l)
    have hmodules := hlarger.modules.cons ext.parent_self ext.name_self
    exact ⟨⟨hmodules, hlarger.paths, hlarger.latest, hlarger.placed⟩,
      .of_module ext.parent_self ext.name_self⟩

/-- A node at a path may be recorded there. -/
theorem cons_path (h : p.Settled whole st members l done) {m : String} {i : NodeId}
    (hi : p.tree.StandsAt whole m path i) :
    Settled whole st members l done { p with paths := ((m, path), i) :: p.paths } := by
  refine ⟨h.modules, fun {m' path' j} hj => ?_, h.latest, h.placed⟩
  obtain ⟨heq, rfl⟩ | hj := lookup_cons_eq_some hj
  · cases heq
    exact hi
  · exact h.paths hj

/-- Going down along names from a node at a path ends at the node of the longer path. -/
theorem descend (hs : s ∈ st.symbols) (hpath : s.names.get? l = some path)
    (h : p.Settled whole st members l done) (hgrown : p.Grown st added) {parent : NodeId}
    (hparent : parent < p.tree.size ∧ parent ≠ root) {walked rest : List String}
    (hstands : p.tree.StandsAt whole s.moduleName walked parent)
    (hrest : ∀ name ∈ rest, name ∈ path) :
    (Pass.descend l s.moduleName p parent walked rest).1.Settled whole st members l done ∧
      (Pass.descend l s.moduleName p parent walked rest).1.tree.StandsAt whole s.moduleName
        (walked ++ rest) (Pass.descend l s.moduleName p parent walked rest).2 := by
  refine (descend_induction (R := fun p i walked =>
    (p.Grown st added ∧ i < p.tree.size ∧ i ≠ root) ∧
      p.Settled whole st members l done ∧ p.tree.StandsAt whole s.moduleName walked i)
    ?_ ?_ rest ⟨⟨hgrown, hparent⟩, h, hstands⟩ hrest).2
  · intro p parent walked name i hR hi
    exact ⟨⟨hR.1.1, hR.1.1.paths.lookup hi⟩, hR.2.1, hR.2.1.paths hi⟩
  · intro p parent walked name hR hname
    obtain ⟨⟨hgrown, hlt, hroot⟩, h, hstands⟩ := hR
    have hrooted := hgrown.tree.inv.rooted
    refine ⟨hgrown.descend_added hs hpath ⟨hlt, hroot⟩ hname walked, ?_⟩
    obtain ⟨ext, -, -⟩ := hrooted.extends_addHolder parent name l
    have hgrows := hrooted.grows_addHolder parent name l
    have hnode := (hstands.grows hgrows).child ext.parent_self ext.name_self
    exact ⟨(h.grow hgrows).cons_path hnode, hnode⟩

/-- A container that was placed is found, for its node has the name that is asked for. -/
theorem exists_containerOf? (h : p.Settled whole st members l done) {c : Symbol} {above : List String}
    (hc : (c, above) ∈ done) (hne : above ≠ []) (hmember : members l s.id = some c.id) :
    ∃ n, p.containerOf? members l s above = some n ∧ PlacedAt whole st members l p.tree c above n := by
  obtain ⟨n, hn, hplaced⟩ := h.placed hc
  have hname : above.getLast? = (p.tree.node? n).map (·.name) := (hplaced.stands.name hne).symm
  exact ⟨n, by simp [Pass.containerOf?, hmember, hn, hname], hplaced⟩

/-- What is found is a node of the recorded container, which has the name that is asked for. -/
theorem exists_of_containerOf? (h : p.Settled whole st members l done) (hgrown : p.Grown st added)
    {above : List String} {i : NodeId} (hi : p.containerOf? members l s above = some i) :
    above ≠ [] ∧ p.tree.nameAt? i = above.getLast? ∧
      ∃ c ∈ st.symbols, members l s.id = some c.id := by
  obtain ⟨target, htarget, hfound⟩ := Option.bind_eq_some_iff.mp hi
  obtain ⟨j, hj, hfound⟩ := Option.bind_eq_some_iff.mp hfound
  split at hfound
  · rename_i hname
    cases hfound
    have hsymbol : p.tree.symbolAt? i = some target := by
      rcases Option.or_eq_some_iff.mp hj with hj | ⟨-, hj⟩
      · exact h.latest hj
      · exact hgrown.tree.inv.indexed.primary_mem hj
    obtain ⟨n, hn⟩ := exists_node (lt_size_of_symbolAt? hsymbol)
    obtain ⟨c, hc⟩ := hgrown.tree.inv.exists_symbol hsymbol
    refine ⟨?_, hname.symm, c, SymbolStore.mem_of_get? hc, ?_⟩
    · rintro rfl
      rw [hn] at hname
      cases hname
    · rw [htarget, SymbolStore.id_of_get? hc]
  · cases hfound

/-- A container that is found stands at the path above the symbol. -/
theorem standsAt_containerOf? (h : p.Settled whole st members l done) (hgrown : p.Grown st added)
    (hs : Reached whole st members l done s path) {i : NodeId}
    (hi : p.containerOf? members l s path.dropLast = some i) :
    p.tree.StandsAt whole s.moduleName path.dropLast i := by
  obtain ⟨hne, hname, c, hc, hmember⟩ := h.exists_of_containerOf? hgrown hi
  refine ⟨fun hnil => absurd hnil hne, fun _ => hname, fun hwhole => ?_⟩
  have habove := hs.declared hwhole s hs.stored c hc path hs.spelled hs.kind hs.ne_nil hmember
  obtain ⟨n, hn, hplaced⟩ := h.exists_containerOf? (hs.above hc habove hne) hne hmember
  cases hi.symm.trans hn
  exact habove.moduleName ▸ hplaced.stands.way hwhole

/-- The parent of a symbol stands at the path above it, and for its container if that is
declared there. -/
theorem parentFor (h : p.Settled whole st members l done) (hgrown : p.Grown st added)
    (hs : Reached whole st members l done s path) :
    (p.parentFor members l s path.dropLast).1.Settled whole st members l done ∧
      (p.parentFor members l s path.dropLast).1.tree.StandsAt whole s.moduleName path.dropLast
        (p.parentFor members l s path.dropLast).2 ∧
      HoldsMember st members l (p.parentFor members l s path.dropLast).1.tree s path
        (p.parentFor members l s path.dropLast).2 := by
  obtain ⟨hm, hmod⟩ := hgrown.moduleNode hs.stored (KeyMap.mem_keys_iff.mpr ⟨path, hs.spelled⟩)
  obtain ⟨hq, hstands⟩ := h.moduleNode hgrown.tree.inv.rooted s.moduleName
  have hcontainer : ∀ {c}, c ∈ st.symbols → members l s.id = some c.id → DeclaredAbove l s path c →
      path.dropLast ≠ [] → ∃ n,
        (p.moduleNode l s.moduleName).1.containerOf? members l s path.dropLast = some n ∧
        (p.moduleNode l s.moduleName).1.tree.symbolAt? n = some c.id := by
    intro c hc hmember habove hne
    obtain ⟨n, hn, hplaced⟩ := hq.exists_containerOf? (hs.above hc habove hne) hne hmember
    exact ⟨n, hn, hplaced.symbol⟩
  simp only [Pass.parentFor]
  split
  · rename_i parent hor
    refine ⟨hq, ?_, fun c hc hmember habove hne => ?_⟩
    · rcases Option.or_eq_some_iff.mp hor with hi | ⟨-, hi⟩
      · exact hq.standsAt_containerOf? hm hs hi
      · exact hq.paths hi
    · obtain ⟨n, hn, hsymbol⟩ := hcontainer hc hmember habove hne
      rw [hn] at hor
      cases hor
      exact hsymbol
  · rename_i hor
    obtain ⟨hsettled, hlast⟩ := hq.descend hs.stored hs.spelled hm hmod hstands
      (fun _ hn => (List.dropLast_sublist path).subset hn)
    refine ⟨hsettled, hlast, fun c hc hmember habove hne => ?_⟩
    obtain ⟨n, hn, -⟩ := hcontainer hc hmember habove hne
    rw [hn] at hor
    cases hor

theorem notePath (h : p.Settled whole st members l done) {m : String} {i : NodeId}
    (hi : p.tree.StandsAt whole m path i) : (p.notePath m path i).Settled whole st members l done := by
  unfold Pass.notePath
  split
  · exact h
  · exact h.cons_path hi

/-- One symbol of a pass, after the symbols before it. -/
theorem addSymbol (h : p.Settled whole st members l done) (hgrown : p.Grown st added)
    (hs : Reached whole st members l done s path) (hnew : ∀ x ∈ done, x.1.id ≠ s.id) :
    (p.addSymbol members l s path).Settled whole st members l (done ++ [(s, path)]) := by
  unfold Pass.addSymbol
  split
  · rename_i hlast
    exact absurd (List.getLast?_eq_none_iff.mp hlast) hs.ne_nil
  · rename_i name hlast
    obtain ⟨hq, hstands, hholds⟩ := h.parentFor hgrown hs
    have hrooted := (hgrown.parentFor members hs.stored hs.spelled).1.tree.inv.rooted
    generalize p.parentFor members l s path.dropLast = q at hq hstands hholds hrooted ⊢
    obtain ⟨ext, hsymbol, -⟩ := hrooted.extends_addSymbol q.2 name (spellingOf s l)
    have hgrows := hrooted.grows_addSymbol q.2 name (spellingOf s l)
    have hself := (hsymbol (q.1.tree.addSymbol q.2 name (spellingOf s l)).2).trans (if_pos rfl)
    have hnode := (hstands.grows hgrows).child ext.parent_self ext.name_self
    rw [List.dropLast_append_getLast? name hlast] at hnode
    have hlarger := hq.grow hgrows
    refine notePath ?_ hnode
    refine ⟨hlarger.modules, hlarger.paths, fun {id i} hi => ?_, fun {x xpath} hx => ?_⟩
    · obtain ⟨rfl, rfl⟩ | hi := lookup_cons_eq_some hi
      · exact hself
      · exact hlarger.latest hi
    · rcases List.mem_append.mp hx with hx | hx
      · obtain ⟨n, hn, hplaced⟩ := hlarger.placed hx
        have hne : (x.id == s.id) = false := beq_eq_false_iff_ne.mpr (hnew _ hx)
        exact ⟨n, by simp only [List.lookup_cons, hne]; exact hn, hplaced⟩
      · cases List.mem_singleton.mp hx
        exact ⟨_, List.lookup_cons_self, hself, ext.language_self, hnode, q.2, ext.parent_self,
          hstands.grows hgrows, hholds.grows hgrows⟩

end Settled

end Pass

/-! ## A pass over a language -/

section Order

variable {st : SymbolStore} {l : Language} {done rest : List (Symbol × List String)} {s : Symbol}
  {path : List String}

/-- Of the symbols of a module, those with shorter paths come first. -/
theorem mem_of_shorter (hsplit : done ++ (s, path) :: rest = spelledIn st l) {c : Symbol}
    {above : List String} (hc : (c, above) ∈ spelledIn st l) (hmodule : c.moduleName = s.moduleName)
    (hshorter : above.length < path.length) : (c, above) ∈ done := by
  have hsorted := List.pairwise_map.mp (pairwise_spelledIn st l)
  rw [← hsplit] at hsorted hc
  rcases List.mem_append.mp hc with hdone | hlater
  · exact hdone
  · rcases List.mem_cons.mp hlater with hsame | hlater
    · cases hsame
      exact absurd hshorter (Nat.lt_irrefl _)
    · have hle := (List.pairwise_cons.mp (List.pairwise_append.mp hsorted).2.1).1 _ hlater
      have hgt : compareSpelled (s, path) (c, above) = .gt := by
        simp [compareSpelled, hmodule, Nat.compare_eq_gt.mpr hshorter]
      rw [comparePlacements_placement, hgt] at hle
      cases hle

/-- A pass comes to every symbol once. -/
theorem ne_of_mem_done (hsplit : done ++ (s, path) :: rest = spelledIn st l) :
    ∀ x ∈ done, x.1.id ≠ s.id := by
  have hnodup : ((spelledIn st l).map (·.1.id)).Nodup := by
    rw [((perm_spelledIn st l).map _).nodup_iff]
    exact (sublist_spelled st l).nodup st.nodup_ids
  rw [← hsplit, List.map_append, List.map_cons] at hnodup
  intro x hx
  exact (List.nodup_append.mp hnodup).2.2 _ (List.mem_map_of_mem hx) _ (by simp)

end Order

section Build

variable {whole : Prop} {st : SymbolStore} {members : MemberTable} {l : Language}
  {added : List (String × Language)} {b : Builder}

/-- A whole pass places all symbols that its language spells. -/
theorem Pass.Settled.addAll (hdeclared : whole → ContainersDeclared st members l)
    (rest : List (Symbol × List String)) : ∀ {done : List (Symbol × List String)} {p : Pass}
      {added : List (String × Language)}, done ++ rest = spelledIn st l → p.Grown st added →
      p.Settled whole st members l done →
      (p.addAll members l rest).Settled whole st members l (spelledIn st l) := by
  induction rest with
  | nil =>
    intro done p added hsplit _ h
    rw [← hsplit, List.append_nil]
    exact h
  | cons x rest ih =>
    intro done p added hsplit hgrown h
    obtain ⟨s, path⟩ := x
    obtain ⟨hs, hkind, hpath, hne⟩ := mem_spelledIn (hsplit ▸ List.mem_append_right done List.mem_cons_self)
    have hreached : Pass.Reached whole st members l done s path := by
      refine ⟨hs, hkind, hpath, hne, fun {c} hc habove hne' => ?_, hdeclared⟩
      refine mem_of_shorter hsplit (mem_spelledIn_iff.mpr ⟨hc, habove.kind, habove.names, hne'⟩)
        habove.moduleName ?_
      rw [List.length_dropLast]
      exact Nat.sub_lt (List.length_pos_iff.mpr hne) Nat.one_pos
    have hnext := h.addSymbol hgrown hreached (ne_of_mem_done hsplit)
    exact ih (by rw [← hsplit, List.append_assoc, List.singleton_append])
      (hgrown.addSymbol members hs hkind hpath hne) hnext

theorem Builder.Grown.settled (h : b.Grown st added) (hnamed : b.ModulesNamed)
    (hdeclared : whole → ContainersDeclared st members l) :
    (Pass.addAll { b with paths := [], placed := [] } members l (spelledIn st l)).Settled whole st
      members l (spelledIn st l) := by
  refine Pass.Settled.addAll hdeclared _ (List.nil_append _) ⟨h.tree, h.modules, .nil, .nil⟩ ?_
  exact ⟨hnamed, fun hi => absurd hi (by simp [Pass.nodeAt?]), fun hi => absurd hi (by simp),
    fun hx => absurd hx List.not_mem_nil⟩

/-! ## The whole tree -/

/-- A builder between two passes. -/
def Builder.Ready (st : SymbolStore) (b : Builder) : Prop :=
  (∃ added, b.Grown st added) ∧ b.ModulesNamed

theorem Builder.Ready.addModule (h : b.Ready st) {s : Symbol} (hs : s ∈ st.symbols)
    (hkind : s.kind = .module_) : (b.addModule s).Ready st := by
  unfold Builder.addModule
  refine List.foldlRecOn s.names.keys _ h fun b hb l hl => ?_
  obtain ⟨⟨added, hgrown⟩, hnamed⟩ := hb
  refine ⟨⟨_, hgrown.addModuleIn hs hkind hl⟩, ?_⟩
  have hrooted := hgrown.tree.inv.rooted
  obtain ⟨ext, -, -⟩ := hrooted.extends_addSymbol root s.moduleName (spellingOf s l)
  have hgrows := hrooted.grows_addSymbol root s.moduleName (spellingOf s l)
  exact (hnamed.grows hgrows).cons ext.parent_self ext.name_self

theorem Builder.Ready.addLanguage (h : b.Ready st) (members : MemberTable) (l : Language) :
    (b.addLanguage members st l).Ready st := by
  obtain ⟨⟨added, hgrown⟩, hnamed⟩ := h
  exact ⟨⟨_, hgrown.addLanguage members l⟩, (hgrown.settled hnamed False.elim).modules⟩

/-- A built tree has a node for every symbol in every language that spells it. The pass over
the language places the symbol, and the later ones leave it there. -/
theorem exists_placedAt_build (hdeclared : whole → ContainersDeclared st members l) {s : Symbol}
    (hs : s ∈ st.symbols) (hkind : s.kind ≠ .module_) {path : List String} (hpath : s.names.get? l = some path)
    (hne : path ≠ []) : ∃ n, PlacedAt whole st members l (build st members) s path n := by
  have hstart : Builder.Ready st
      ((st.symbols.filter (·.kind = .module_)).foldl Builder.addModule ⟨initial, []⟩) := by
    refine List.foldlRecOn _ _ ⟨⟨[], .initial, .nil⟩, fun m i hi => absurd hi (by simp)⟩ ?_
    intro b hb m hm
    have hm := List.mem_filter.mp hm
    exact hb.addModule hm.1 (by simpa using hm.2)
  have hl := mem_languages.mpr ⟨s, hs, KeyMap.mem_keys_iff.mpr ⟨path, hpath⟩⟩
  obtain ⟨before, after, hlanguages⟩ := List.append_of_mem hl
  have hbefore := List.foldlRecOn (motive := Builder.Ready st) before (Builder.addLanguage members st)
    hstart fun b hb l' _ => hb.addLanguage members l'
  obtain ⟨⟨added, hgrown⟩, hnamed⟩ := hbefore
  obtain ⟨n, -, hplaced⟩ := (hgrown.settled hnamed hdeclared).placed
    (mem_spelledIn_iff.mpr ⟨hs, hkind, hpath, hne⟩)
  have hafter := Lasting.foldl_addLanguage after
    (fun l' _ => lasting_of_grows (fun hgrows h => PlacedAt.grows hgrows h) st l')
    (hgrown.addLanguage members l) members hplaced
  refine ⟨n, ?_⟩
  simp only [build, hlanguages, List.foldl_append, List.foldl_cons]
  exact hafter

end Build

/-- A symbol that is spelled in a language has a node of its last name there, below a node of
the name before it, or of its module. If its container is declared above it, that is a node of
the container, and if all containers are, the whole way is the path of the symbol. -/
theorem exists_node_where_declared (inserts : List Symbol) (members : MemberTable) {s : Symbol}
    (hs : s ∈ (SymbolStore.ofInserts inserts).symbols) (hkind : s.kind ≠ .module_) {l : Language}
    {path : List String} (hpath : s.names.get? l = some path) (hne : path ≠ []) :
    ∃ n p, (build (.ofInserts inserts) members).symbolAt? n = some s.id ∧
      (build (.ofInserts inserts) members).hasLanguage n l = true ∧
      (build (.ofInserts inserts) members).nameAt? n = path.getLast? ∧
      (build (.ofInserts inserts) members).parentAt? n = some p ∧
      (path.dropLast ≠ [] →
        (build (.ofInserts inserts) members).nameAt? p = path.dropLast.getLast?) ∧
      (path.dropLast = [] → (build (.ofInserts inserts) members).parentAt? p = some root ∧
        (build (.ofInserts inserts) members).nameAt? p = some s.moduleName) ∧
      (∀ c ∈ (SymbolStore.ofInserts inserts).symbols, members l s.id = some c.id →
        DeclaredAbove l s path c → path.dropLast ≠ [] →
        (build (.ofInserts inserts) members).symbolAt? p = some c.id) ∧
      (ContainersDeclared (.ofInserts inserts) members l →
        (build (.ofInserts inserts) members).displayPath n =
          "/" ++ String.intercalate "/" (s.moduleName :: path)) := by
  -- one node for all parts: whole ways are known as far as the containers are declared
  obtain ⟨n, hplaced⟩ := exists_placedAt_build
    (id : ContainersDeclared (.ofInserts inserts) members l → _) hs hkind hpath hne
  obtain ⟨p, hparent, hstands, hholds⟩ := hplaced.parent
  refine ⟨n, p, hplaced.symbol, hplaced.language, hplaced.stands.name hne, hparent, hstands.name,
    hstands.ofModule, hholds, fun hdeclared => ?_⟩
  exact (inv_build _ members).rooted.displayPath_of_wayTo (hplaced.stands.way hdeclared)

/-- A symbol with a path in Swift, and perhaps one in Objective-C. -/
def kitSymbol (kind : Kind) (id : String) (path : List String)
    (objectiveC : List (Language × List String)) : Symbol :=
  { kind, language := .swift, moduleName := "Kit", names := .ofList ((.swift, path) :: objectiveC), id,
    title := id }

def oneMember (member container : String) : MemberTable :=
  fun _ id => if id = member then some container else none

/-- A method of the second of two types that share their path. -/
def sharedPath : List Symbol :=
  [kitSymbol .module_ "Kit" [] [], kitSymbol .class_ "c:W" ["Widget"] [],
    kitSymbol .struct "s:V" ["Widget"] [], kitSymbol .method "s:V.spin" ["Widget", "spin"] []]

theorem exists_node_where_declared_sharedPath : ∃ t n p,
    t = build (.ofInserts sharedPath) (oneMember "s:V.spin" "s:V") ∧
    t.symbolAt? n = some "s:V.spin" ∧ t.parentAt? n = some p ∧ t.symbolAt? p = some "s:V" ∧
    t.displayPath n = "/Kit/Widget/spin" := by
  have hpath : (kitSymbol .method "s:V.spin" ["Widget", "spin"] []).names.get? .swift =
      some ["Widget", "spin"] := rfl
  obtain ⟨n, p, hsymbol, -, -, hparent, -, -, hcontainer, hdisplay⟩ :=
    exists_node_where_declared sharedPath (oneMember "s:V.spin" "s:V") (by decide +kernel) (by decide)
      hpath (by decide)
  refine ⟨_, n, p, rfl, hsymbol, hparent, ?_, hdisplay (by decide +kernel)⟩
  exact hcontainer (kitSymbol .struct "s:V" ["Widget"] []) (by decide +kernel) rfl (by decide) (by decide)

/-- A method at the top of its module, of a class that has no name in Swift. -/
def namelessClass : List Symbol :=
  [kitSymbol .module_ "Kit" [] [(.objectiveC, [])],
    kitSymbol .class_ "c:W" [] [(.objectiveC, ["Widget"])], kitSymbol .method "c:W.spin" ["spin"] []]

def namelessClassTree : PathTree :=
  build (.ofInserts namelessClass) (oneMember "c:W.spin" "c:W")

/-- A container with an empty path has no node in the language. Its member goes below the
module, though the container is declared above it. -/
theorem member_of_nameless_below_module :
    (∃ s ∈ (SymbolStore.ofInserts namelessClass).symbols,
      ∃ c ∈ (SymbolStore.ofInserts namelessClass).symbols, s.id = "c:W.spin" ∧ c.id = "c:W" ∧
        s.kind ≠ .module_ ∧ s.names.get? .swift = some ["spin"] ∧
        oneMember "c:W.spin" "c:W" .swift s.id = some c.id ∧ DeclaredAbove .swift s ["spin"] c) ∧
    ∀ n p, namelessClassTree.symbolAt? n = some "c:W.spin" → namelessClassTree.parentAt? n = some p →
      namelessClassTree.symbolAt? p = some "Kit" := by
  have htree : namelessClassTree = _ := build_of_sorted (by decide +kernel) _
  have hall : ∀ n < namelessClassTree.size, ∀ p ∈ namelessClassTree.parentAt? n,
      namelessClassTree.symbolAt? n = some "c:W.spin" → namelessClassTree.symbolAt? p = some "Kit" := by
    rw [htree]
    decide +kernel
  exact ⟨by decide +kernel, fun n p hn hp => hall n (lt_size_of_symbolAt? hn) p hp hn⟩

end SymbolLinks.PathTree
