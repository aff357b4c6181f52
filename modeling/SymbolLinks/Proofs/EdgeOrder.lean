import Mathlib.Data.List.Forall2
import SymbolLinks.Proofs.EdgeOutcomes
import SymbolLinks.Proofs.ListedFacts

/-! The order of edges. What a symbol lists after merging is what it listed before and
what its changes add, in whatever order they come; a comment is dropped if some change
drops it. So permuted edges give the same model up to the order of lists and up to the
names and flags of which the last one counts (`mergeAll_perm`). -/
namespace SymbolLinks

/-! ## Comments -/

namespace Change

/-- Whether a change drops the comment of a symbol. -/
def drops (s : Symbol) : Change → Bool
  | .dropComment originModule o => !decide (s.KeepsComment originModule o)
  | _ => false

theorem comment_apply (s : Symbol) (c : Change) :
    (apply s c).comment = if c.drops s then none else s.comment := by
  cases c with
  | dropComment originModule o => by_cases h : s.KeepsComment originModule o <;> simp [apply, drops, h]
  | _ => rfl

/-- Whether a comment is dropped depends on the comment and the module of the symbol. -/
theorem drops_congr {s s' : Symbol} (hmodule : s'.moduleName = s.moduleName)
    (hcomment : s'.comment = s.comment) (c : Change) : c.drops s' = c.drops s := by
  cases c with
  | dropComment originModule o =>
    refine congrArg not (decide_eq_decide.mpr ?_)
    unfold Symbol.KeepsComment Symbol.commentIsFrom?
    rw [hmodule, hcomment]
  | _ => rfl

end Change

namespace Symbol

theorem moduleName_apply (s : Symbol) (c : Change) : (c.apply s).moduleName = s.moduleName :=
  (congrArg Symbol.moduleName (Change.declared_apply s c) :)

/-- A comment is dropped if some change drops it, whatever comes before that change. -/
theorem comment_changed (s : Symbol) (cs : List Change) :
    (s.changed cs).comment = if cs.any (·.drops s) then none else s.comment := by
  induction cs generalizing s with
  | nil => rfl
  | cons c cs ih =>
    refine (ih (c.apply s)).trans ?_
    have hcomment := Change.comment_apply s c
    cases hdrops : c.drops s with
    | true =>
      rw [hdrops, if_pos rfl] at hcomment
      simp [hcomment, hdrops]
    | false =>
      rw [hdrops, if_neg Bool.false_ne_true] at hcomment
      have hsame : ∀ d : Change, d.drops (c.apply s) = d.drops s :=
        fun d => d.drops_congr (s.moduleName_apply c) hcomment
      simp [hcomment, hdrops, hsame]

end Symbol

/-! ## Permuted changes -/

/-- Two symbols that differ at most in the order of lists, and in the names and flags of
which merging keeps the last one. -/
structure Symbol.SameContents (a b : Symbol) : Prop where
  declared : a.declared = b.declared
  relations : ∀ sel r, r ∈ (a.relationSection sel).relations ↔ r ∈ (b.relationSection sel).relations
  targets : ∀ sel id, id ∈ (a.relationSection sel).fallbacks.keys ↔
    id ∈ (b.relationSection sel).fallbacks.keys
  implementations : ∀ sel i, i ∈ (a.implementationSection sel).implementations ↔
    i ∈ (b.implementationSection sel).implementations
  requirements : ∀ sel id, id ∈ (a.implementationSection sel).fallbacks.keys ↔
    id ∈ (b.implementationSection sel).fallbacks.keys
  constraints : ∀ c, c ∈ a.extensionConstraints ↔ c ∈ b.extensionConstraints
  comment : a.comment = b.comment

theorem Symbol.sameContents_of_perm (s : Symbol) {cs ds : List Change} (h : cs.Perm ds) :
    (s.changed cs).SameContents (s.changed ds) := by
  have hfact : ∀ f : Fact, (s.changed cs).Holds f ↔ (s.changed ds).Holds f := by
    intro f
    rw [holds_changed, holds_changed]
    simp only [h.mem_iff]
  exact {
    declared := (s.declared_changed cs).trans (s.declared_changed ds).symm
    relations := fun sel r => hfact (.relation sel r)
    targets := fun sel id => hfact (.namedTarget sel id)
    implementations := fun sel i => hfact (.implementation sel i)
    requirements := fun sel id => hfact (.namedRequirement sel id)
    constraints := fun c => hfact (.constraint c)
    comment := by rw [comment_changed, comment_changed, h.any_eq] }

namespace TopicGraph

/-- Whether both ends of an edge are pages. -/
def admits (g : TopicGraph) (e : TopicEdge) : Bool := g.contains e.parent && g.contains e.child

theorem put_of_admits {g : TopicGraph} {e : TopicEdge} (h : g.admits e = true) :
    g.put e = { g with edges := g.edges.alter e.parent fun cs => (cs.getD ∅).add e.child } := by
  unfold admits at h
  rw [put, addEdge?, if_pos h]
  rfl

theorem put_of_not_admits {g : TopicGraph} {e : TopicEdge} (h : ¬g.admits e = true) :
    g.put e = g := by
  unfold admits at h
  rw [put, addEdge?, if_neg h]
  rfl

theorem admits_put (g : TopicGraph) (e e' : TopicEdge) : (g.put e).admits e' = g.admits e' := by
  simp only [admits, contains, nodes_put]

theorem put_comm (g : TopicGraph) (a b : TopicEdge) : (g.put a).put b = (g.put b).put a := by
  by_cases ha : g.admits a = true
  · by_cases hb : g.admits b = true
    · rw [put_of_admits ((g.admits_put a b).trans hb), put_of_admits ((g.admits_put b a).trans ha),
        put_of_admits ha, put_of_admits hb]
      refine congrArg (TopicGraph.mk · g.nodes) ?_
      by_cases h : a.parent = b.parent
      · rw [h, KeyMap.alter_alter_self, KeyMap.alter_alter_self]
        simp only [Option.getD_some, KeySet.add_comm _ a.child b.child]
      · exact KeyMap.alter_alter_of_ne g.edges h _ _
    · have hb' : ¬(g.put a).admits b = true := by rwa [admits_put]
      rw [put_of_not_admits hb, put_of_not_admits hb']
  · have ha' : ¬(g.put b).admits a = true := by rwa [admits_put]
    rw [put_of_not_admits ha, put_of_not_admits ha']

theorem foldl_put_perm (g : TopicGraph) {es es' : List TopicEdge} (h : es.Perm es') :
    es.foldl put g = es'.foldl put g :=
  h.foldl_eq' (fun a _ b _ g => put_comm g a b) g

end TopicGraph

/-! ## Permuted edges -/

namespace Plan

theorem topics_concat (ps : List Plan) : (concat ps).topics = ps.flatMap (·.topics) := by
  induction ps with
  | nil => rfl
  | cons p ps ih =>
    rw [List.flatMap_cons, ← ih]
    rfl

/-- Plans that do the same in another order. -/
structure Permuted (p q : Plan) : Prop where
  changes : p.changes.Perm q.changes
  topics : p.topics.Perm q.topics
  problems : p.problems.Perm q.problems

theorem permuted_concat {ps qs : List Plan} (h : ps.Perm qs) : (concat ps).Permuted (concat qs) where
  changes := by rw [changes_concat, changes_concat]; exact h.flatMap_right _
  topics := by rw [topics_concat, topics_concat]; exact h.flatMap_right _
  problems := by rw [problems_concat, problems_concat]; exact h.flatMap_right _

theorem Permuted.append {p p' q q' : Plan} (h : p.Permuted q) (h' : p'.Permuted q') :
    (p.append p').Permuted (q.append q') :=
  ⟨h.changes.append h'.changes, h.topics.append h'.topics, h.problems.append h'.problems⟩

theorem Permuted.sameContents {p q : Plan} (h : p.Permuted q) (m : Model) :
    List.Forall₂ Symbol.SameContents (p.model m).store.symbols (q.model m).store.symbols := by
  simp only [model, SymbolStore.withSymbols, List.forall₂_map_left_iff, List.forall₂_map_right_iff]
  refine List.forall₂_same.mpr fun s _ => s.sameContents_of_perm ?_
  exact (h.changes.filter _).map _

end Plan

namespace Model

/-- Edges in another order give the same symbols up to the order of what they list, the
same pages under pages, and the same problems in some order. -/
theorem mergeAll_perm (extended : ExtendedModules) (o : MergeOptions) (sel : Selector)
    {edges edges' : List Edge} (h : edges.Perm edges') (m : Model) :
    List.Forall₂ Symbol.SameContents (m.mergeAll extended o sel edges).1.store.symbols
      (m.mergeAll extended o sel edges').1.store.symbols ∧
    (m.mergeAll extended o sel edges).1.topics = (m.mergeAll extended o sel edges').1.topics ∧
    (m.mergeAll extended o sel edges).2.Perm (m.mergeAll extended o sel edges').2 := by
  obtain ⟨merge, -, hplan⟩ := exists_mergeAll_plan extended o sel m
  have hpermuted := (Plan.permuted_concat (h.map merge)).append
    (Plan.permuted_concat (h.map (·.originPlan o m)))
  rw [hplan edges m (.refl m), hplan edges' m (.refl m)]
  exact ⟨hpermuted.sameContents m, TopicGraph.foldl_put_perm m.topics hpermuted.topics,
    hpermuted.problems⟩

/-- The structure conforms to the protocol and to one outside the model, for which two
edges give different names; one edge starts nowhere. -/
def conflictingEdges : List Edge :=
  [{ kind := .conformsTo, source := "s:Box", target := "s:Shape" },
    { kind := .conformsTo, source := "s:Box", target := "s:Solid", fallback := some "Solid" },
    { kind := .inheritsFrom, source := "s:Box", target := "s:Solid", fallback := some "Kit.Solid" },
    { kind := .inheritsFrom, source := "s:Gone", target := "s:Shape" }]

/-- The order of these edges shows, but not in what is listed. -/
theorem mergeAll_perm_conflictingEdges :
    let merged := fun edges => conformancePair.mergeAll (fun _ => none)
      ⟨"org.example.kit", false, "Kit"⟩ ⟨.swift, none⟩ edges
    conflictingEdges.reverse.Perm conflictingEdges ∧
      (merged conflictingEdges.reverse).1 ≠ (merged conflictingEdges).1 ∧
      (merged conflictingEdges).2 ≠ [] ∧
      List.Forall₂ Symbol.SameContents (merged conflictingEdges.reverse).1.store.symbols
        (merged conflictingEdges).1.store.symbols ∧
      (merged conflictingEdges.reverse).2.Perm (merged conflictingEdges).2 := by
  have hperm := List.reverse_perm conflictingEdges
  have hsame := mergeAll_perm (fun _ => none) ⟨"org.example.kit", false, "Kit"⟩ ⟨.swift, none⟩ hperm
    conformancePair
  exact ⟨hperm, by decide, by decide, hsame.1, hsame.2.2⟩

end Model

end SymbolLinks
