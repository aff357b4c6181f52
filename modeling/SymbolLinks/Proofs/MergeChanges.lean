import SymbolLinks.Merge
import SymbolLinks.Proofs.StoreLaws

/-! Merging as a list of changes. A plan lists the changes of symbols, the pages that are put
under others and the problems that are reported. An action of merging does what a plan says
if it makes the changes of the plan and adds the problems of the plan to those that were
reported before (`Merging.Does`); for actions in turn, plans are joined (`Does.bind`). Plans
leave alone what graphs declare of the symbols, where the symbols are filed and which pages
there are (`Model.like_plan`). -/
namespace SymbolLinks

/-! ## Changes of a symbol -/

/-- What a graph declares of a symbol, without what merging adds. -/
def Symbol.declared (s : Symbol) : Symbol :=
  { s with implementations := ∅, comment := none, isRequired := false, origin := none,
           relations := ∅, extensionInfo := none }

/-- Changes leave alone what graphs declare. -/
theorem Change.declared_apply (s : Symbol) (c : Change) : (apply s c).declared = s.declared := by
  cases c <;> rfl

namespace Symbol

/-- A symbol after changes in turn. -/
def changed (s : Symbol) (cs : List Change) : Symbol := cs.foldl Change.apply s

theorem changed_append (s : Symbol) (cs ds : List Change) :
    s.changed (cs ++ ds) = (s.changed cs).changed ds := List.foldl_append

theorem declared_changed (s : Symbol) (cs : List Change) : (s.changed cs).declared = s.declared :=
  List.foldlRecOn (motive := fun s' : Symbol => s'.declared = s.declared) cs _ rfl
    fun s' hs' c _ => (Change.declared_apply s' c).trans hs'

theorem id_changed (s : Symbol) (cs : List Change) : (s.changed cs).id = s.id :=
  (congrArg Symbol.id (s.declared_changed cs) :)

end Symbol

/-! ## Changes of a model -/

/-- A change of the symbol with an identifier. -/
structure AddressedChange where
  id : String
  change : Change

/-- The changes that are addressed to an identifier. -/
def changesOf (id : String) (cs : List AddressedChange) : List Change :=
  (cs.filter (·.id == id)).map (·.change)

theorem changesOf_append (id : String) (cs ds : List AddressedChange) :
    changesOf id (cs ++ ds) = changesOf id cs ++ changesOf id ds := by
  simp [changesOf]

theorem mem_changesOf {id : String} {c : Change} {cs : List AddressedChange} :
    c ∈ changesOf id cs ↔ ⟨id, c⟩ ∈ cs := by
  simp only [changesOf, List.mem_map, List.mem_filter, beq_iff_eq]
  constructor
  · rintro ⟨⟨id', c'⟩, ⟨hmem, rfl⟩, rfl⟩
    exact hmem
  · intro hmem
    exact ⟨⟨id, c⟩, ⟨hmem, rfl⟩, rfl⟩

/-- One page under another one. -/
structure TopicEdge where
  parent : String
  child : String

namespace TopicGraph

/-- Put one page under another, if both are pages. -/
def put (g : TopicGraph) (e : TopicEdge) : TopicGraph := (g.addEdge? e.parent e.child).getD g

theorem nodes_put (g : TopicGraph) (e : TopicEdge) : (g.put e).nodes = g.nodes := by
  unfold put addEdge?
  split <;> rfl

theorem nodes_foldl_put (es : List TopicEdge) (g : TopicGraph) : (es.foldl put g).nodes = g.nodes :=
  List.foldlRecOn (motive := fun g' : TopicGraph => g'.nodes = g.nodes) es _ rfl
    fun g' hg' e _ => (g'.nodes_put e).trans hg'

end TopicGraph

/-- What merging does, decided beforehand. -/
structure Plan where
  changes : List AddressedChange := []
  topics : List TopicEdge := []
  problems : List Problem := []

namespace Plan

/-- One plan after another. -/
def append (p q : Plan) : Plan :=
  ⟨p.changes ++ q.changes, p.topics ++ q.topics, p.problems ++ q.problems⟩

/-- Plans one after another. -/
def concat (ps : List Plan) : Plan := ps.foldr append {}

theorem map_id_changed (ss : List Symbol) (cs : List AddressedChange) :
    (ss.map fun s => s.changed (changesOf s.id cs)).map (·.id) = ss.map (·.id) := by
  rw [List.map_map]
  exact List.map_congr_left fun s _ => s.id_changed _

/-- The model after a plan. -/
def model (p : Plan) (m : Model) : Model where
  store := m.store.withSymbols (m.store.symbols.map fun s => s.changed (changesOf s.id p.changes))
    (map_id_changed _ _)
  topics := p.topics.foldl TopicGraph.put m.topics

def run (p : Plan) (m : Model) : Model × List Problem := (p.model m, p.problems)

theorem get?_model (p : Plan) (m : Model) (id : String) : (p.model m).store.get? id =
    (m.store.get? id).map fun s => s.changed (changesOf s.id p.changes) := by
  rw [SymbolStore.get?_eq_find?, SymbolStore.get?_eq_find?]
  refine (List.find?_map ..).trans ?_
  simp only [Function.comp_def, Symbol.id_changed]

/-- A plan without changes only reports. -/
theorem model_refused (problems : List Problem) (m : Model) :
    ({ problems } : Plan).model m = m := by
  refine congrArg (Model.mk · m.topics) (SymbolStore.ext ?_ rfl rfl)
  exact List.map_id' _

theorem model_append (p q : Plan) (m : Model) : (p.append q).model m = q.model (p.model m) := by
  simp only [model, append, List.foldl_append]
  refine congrArg (Model.mk · _) (SymbolStore.ext ?_ rfl rfl)
  simp only [SymbolStore.withSymbols, List.map_map]
  refine List.map_congr_left fun s _ => ?_
  rw [Function.comp_apply, Symbol.id_changed, ← Symbol.changed_append, ← changesOf_append]

/-- A plan with one change of a symbol. -/
theorem model_change (id : String) (c : Change) (m : Model) :
    ({ changes := [⟨id, c⟩] } : Plan).model m = m.change id c := by
  refine congrArg (Model.mk · m.topics) (SymbolStore.ext ?_ ?_ (m.store.byPlace_update _ _).symm)
  · refine Eq.trans ?_ (m.store.symbols_update id (Change.id_apply · c)).symm
    refine List.map_congr_left fun s _ => ?_
    by_cases h : s.id = id
    · simp [changesOf, h, Symbol.changed]
    · simp [changesOf, h, Ne.symm h, Symbol.changed]
  · exact (m.store.index_update _ _).symm

theorem changes_concat (ps : List Plan) : (concat ps).changes = ps.flatMap (·.changes) := by
  induction ps with
  | nil => rfl
  | cons p ps ih =>
    rw [List.flatMap_cons, ← ih]
    rfl

theorem problems_concat (ps : List Plan) : (concat ps).problems = ps.flatMap (·.problems) := by
  induction ps with
  | nil => rfl
  | cons p ps ih =>
    rw [List.flatMap_cons, ← ih]
    rfl

theorem model_concat (ps : List Plan) (m : Model) :
    (concat ps).model m = ps.foldl (fun m p => p.model m) m := by
  induction ps generalizing m with
  | nil => exact model_refused [] m
  | cons p ps ih =>
    rw [concat, List.foldr_cons, model_append]
    exact ih (p.model m)

end Plan

/-! ## Plans of actions -/

namespace Merging

/-- Started in a model, an action gives a result and does what a plan says, whatever was
reported before. -/
def Does {α : Type} (x : Merging α) (m : Model) (a : α) (p : Plan) : Prop :=
  ∀ problems, x.run (m, problems) = (a, p.model m, problems ++ p.problems)

variable {α β : Type} {m : Model}

theorem Does.bind {x : Merging α} {f : α → Merging β} {a : α} {b : β} {p q : Plan}
    (hx : x.Does m a p) (hf : (f a).Does (p.model m) b q) : (x >>= f).Does m b (p.append q) := by
  intro problems
  have hrun : (x >>= f).run (m, problems) = (f a).run (p.model m, problems ++ p.problems) :=
    congrArg (fun r : α × Model × List Problem => (f r.1).run r.2) (hx problems)
  rw [hrun, hf, Plan.model_append, Plan.append, List.append_assoc]

theorem Does.andThen {x : Merging α} {y : Merging β} {a : α} {b : β} {p q : Plan}
    (hx : x.Does m a p) (hy : y.Does (p.model m) b q) : (x >>= fun _ => y).Does m b (p.append q) :=
  hx.bind hy

/-- An action that has looked something up goes on with what it found. -/
theorem Does.bind_of_nothing {x : Merging α} {f : α → Merging β} {a : α} {b : β} {p : Plan}
    (hx : x.Does m a {}) (hf : (f a).Does m b p) : (x >>= f).Does m b p := by
  have hmodel : (f a).Does (({} : Plan).model m) b p := by rwa [Plan.model_refused]
  exact hx.bind hmodel

theorem does_pure (a : α) (m : Model) : (pure a : Merging α).Does m a {} := by
  intro problems
  rw [Plan.model_refused, List.append_nil]
  rfl

/-- What follows a lookup goes on with what is found. -/
theorem Does.of_read {f : Model → α} {g : α → Merging β} {b : β} {p : Plan}
    (h : (g (f m)).Does m b p) : (read f >>= g).Does m b p := h

theorem does_write (id : String) (c : Change) (m : Model) :
    (write id c).Does m () { changes := [⟨id, c⟩] } := by
  intro problems
  rw [Plan.model_change, List.append_nil]
  rfl

theorem does_report (p : Problem) (m : Model) : (report p).Does m () { problems := [p] } := by
  intro problems
  rw [Plan.model_refused]
  rfl

theorem does_putUnder (parent child : String) (m : Model) :
    (putUnder parent child).Does m () { topics := [⟨parent, child⟩] } := by
  intro problems
  have hstore : m.store = (({ topics := [⟨parent, child⟩] } : Plan).model m).store :=
    (congrArg Model.store (Plan.model_refused [] m)).symm
  rw [List.append_nil]
  exact congrArg (fun store => ((), Model.mk store (m.topics.put ⟨parent, child⟩), problems)) hstore

/-- What reports all of a list has a plan without changes. -/
theorem does_forM_report {f : α → Problem} (xs : List α) (m : Model) :
    (xs.forM fun x => report (f x)).Does m () { problems := xs.map f } := by
  induction xs with
  | nil => exact does_pure () m
  | cons x xs ih =>
    have hrest : (xs.forM fun x => report (f x)).Does (({ problems := [f x] } : Plan).model m) ()
        { problems := xs.map f } := by
      rw [Plan.model_refused]
      exact ih
    exact (does_report (f x) m).andThen hrest

end Merging

/-! ## What plans depend on -/

/-- What graphs declare of the symbols of a store. -/
def SymbolStore.declared (st : SymbolStore) : List Symbol := st.symbols.map Symbol.declared

namespace Model

/-- Two models with the same declarations at the same places and with the same pages. -/
structure Like (m m' : Model) : Prop where
  declared : m.store.declared = m'.store.declared
  byPlace : m.store.byPlace = m'.store.byPlace
  nodes : m.topics.nodes = m'.topics.nodes

theorem Like.refl (m : Model) : m.Like m := ⟨rfl, rfl, rfl⟩

theorem Like.trans {m m' m'' : Model} (h : m.Like m') (h' : m'.Like m'') : m.Like m'' :=
  ⟨h.declared.trans h'.declared, h.byPlace.trans h'.byPlace, h.nodes.trans h'.nodes⟩

theorem like_plan (p : Plan) (m : Model) : (p.model m).Like m where
  declared := by
    simp only [Plan.model, SymbolStore.withSymbols, SymbolStore.declared, List.map_map]
    exact List.map_congr_left fun s _ => s.declared_changed _
  byPlace := rfl
  nodes := TopicGraph.nodes_foldl_put _ _

variable {m m' : Model}

theorem Like.map_get? (h : m'.Like m) (id : String) :
    (m'.store.get? id).map Symbol.declared = (m.store.get? id).map Symbol.declared := by
  have hfind : ∀ st : SymbolStore, (st.get? id).map Symbol.declared =
      st.declared.find? (·.id == id) := by
    intro st
    rw [SymbolStore.get?_eq_find?, SymbolStore.declared, List.find?_map]
    rfl
  rw [hfind, hfind, h.declared]

theorem Like.map_moduleName (h : m'.Like m) (id : String) :
    (m'.store.get? id).map (·.moduleName) = (m.store.get? id).map (·.moduleName) := by
  have hmap := congrArg (Option.map Symbol.moduleName) (h.map_get? id)
  rwa [Option.map_map, Option.map_map] at hmap

theorem Like.contains (h : m'.Like m) (id : String) :
    m'.store.contains id = m.store.contains id := by
  have hsome := congrArg Option.isSome (h.map_get? id)
  rwa [Option.isSome_map, Option.isSome_map, ← SymbolStore.contains_eq_isSome_get?,
    ← SymbolStore.contains_eq_isSome_get?] at hsome

theorem Like.get?_eq_none (h : m'.Like m) {id : String} (hid : m.store.get? id = none) :
    m'.store.get? id = none := by
  have hmap := h.map_get? id
  rw [hid, Option.map_none, Option.map_eq_none_iff] at hmap
  exact hmap

theorem Like.get?_eq_some (h : m'.Like m) {id : String} {s : Symbol}
    (hid : m.store.get? id = some s) :
    ∃ s', m'.store.get? id = some s' ∧ s'.declared = s.declared := by
  have hmap := h.map_get? id
  rw [hid, Option.map_some] at hmap
  exact Option.map_eq_some_iff.mp hmap

theorem Like.pages (h : m'.Like m) (id : String) : m'.topics.contains id = m.topics.contains id := by
  rw [TopicGraph.contains, TopicGraph.contains, h.nodes]

/-- The symbol around a symbol is declared alike. -/
theorem Like.parent (h : m'.Like m) {s s' : Symbol} (hs : s'.declared = s.declared) :
    (m'.store.parentOf? s').map Symbol.declared = (m.store.parentOf? s).map Symbol.declared := by
  have hpath : s'.path = s.path := (congrArg Symbol.path hs :)
  have hmodule : s'.moduleName = s.moduleName := (congrArg Symbol.moduleName hs :)
  unfold SymbolStore.parentOf?
  rw [hpath, hmodule, h.byPlace]
  split
  · rfl
  · cases m.store.byPlace.get? ⟨s.moduleName, s.path.dropLast⟩ with
    | none => rfl
    | some i =>
      have hat := congrArg (·[i]?) h.declared
      simpa [SymbolStore.declared] using hat

theorem Like.parent_title (h : m'.Like m) {s s' : Symbol} (hs : s'.declared = s.declared) :
    (m'.store.parentOf? s').map (·.title) = (m.store.parentOf? s).map (·.title) := by
  have hparent := congrArg (Option.map Symbol.title) (h.parent hs)
  rwa [Option.map_map, Option.map_map] at hparent

end Model

/-- Actions that do the same in all models like one, in turn. -/
theorem Merging.does_forM {α : Type} {f : α → Merging Unit} {plan : α → Plan} {m : Model}
    (h : ∀ x m', m'.Like m → (f x).Does m' () (plan x)) (xs : List α) {m' : Model} (hm' : m'.Like m) :
    (xs.forM f).Does m' () (Plan.concat (xs.map plan)) := by
  induction xs generalizing m' with
  | nil => exact does_pure () m'
  | cons x xs ih => exact (h x m' hm').andThen (ih ((Model.like_plan (plan x) m').trans hm'))

end SymbolLinks
