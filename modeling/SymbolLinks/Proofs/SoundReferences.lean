import SymbolLinks.Proofs.EdgeOrder

/-! References in a merged model lead somewhere. A reference names a symbol of the model,
or it is a placeholder for one outside of it; names are kept for listed placeholders only,
nothing is listed twice, and pages appear under the requirements they implement. Each edge
has a plan that adds nothing else (`Edge.Merges.sound`), and a sound model stays sound
under such a plan (`Model.SoundReferences.plan`). -/
namespace SymbolLinks

/-- A reference names a symbol of the model, or it stands in for one that is not there,
with the URL that this one would have in the bundle. -/
def TopicReference.Sound (bundle : String) (m : Model) : TopicReference → Prop
  | .resolved id => m.store.contains id = true
  | .unresolved p => m.store.contains p.id = false ∧ p.id ≠ "" ∧
      (∀ c ∈ p.id.toList, Text.isBlank c = false ∧ Text.isControl c = false) ∧
      p.path = "doc://" ++ bundle ++ "/documentation/" ++ p.id

/-- No list of a symbol has an element twice. -/
structure Symbol.ListsOnce (s : Symbol) : Prop where
  relations : ∀ sel, (s.relationSection sel).relations.Nodup
  implementations : ∀ sel, (s.implementationSection sel).implementations.Nodup
  constraints : s.extensionConstraints.Nodup

/-- What holds of the references in a model that was merged for a bundle. -/
structure Model.SoundReferences (bundle : String) (m : Model) : Prop where
  relations : ∀ s ∈ m.store.symbols, ∀ sel, ∀ r ∈ (s.relationSection sel).relations,
    r.target.Sound bundle m
  implementations : ∀ s ∈ m.store.symbols, ∀ sel,
    ∀ i ∈ (s.implementationSection sel).implementations, i.reference.Sound bundle m
  /-- Display names belong to placeholders in the same section. -/
  names : ∀ s ∈ m.store.symbols, ∀ sel, ∀ id ∈ (s.relationSection sel).fallbacks.keys,
    ∃ r ∈ (s.relationSection sel).relations, ∃ p, r.target = .unresolved p ∧ p.id = id
  once : ∀ s ∈ m.store.symbols, s.ListsOnce
  /-- One page is under another exactly if it implements that one. -/
  topics : ∀ a b, b ∈ m.topics.children a ↔ ∃ s ∈ m.store.symbols, s.id = a ∧
    ∃ sel, ∃ i ∈ (s.implementationSection sel).implementations, i.reference = .resolved b
  pages : ∀ a b, b ∈ m.topics.children a →
    m.topics.contains a = true ∧ m.topics.contains b = true

/-! ## Lists without repetitions -/

namespace Symbol.ListsOnce

variable {s : Symbol} (h : s.ListsOnce)

include h

theorem modifyRelations (sel : Selector) {f : RelationSection → RelationSection}
    (hf : ∀ sec, sec.relations.Nodup → (f sec).relations.Nodup) :
    (s.modifyRelations sel f).ListsOnce where
  relations := by
    intro sel'
    rw [relationSection_modifyRelations]
    split
    · exact hf _ (h.relations sel')
    · exact h.relations sel'
  implementations := h.implementations
  constraints := h.constraints

theorem modifyImplementations (sel : Selector) {f : ImplementationSection → ImplementationSection}
    (hf : ∀ sec, sec.implementations.Nodup → (f sec).implementations.Nodup) :
    (s.modifyImplementations sel f).ListsOnce where
  relations := h.relations
  implementations := by
    intro sel'
    rw [implementationSection_modifyImplementations]
    split
    · exact hf _ (h.implementations sel')
    · exact h.implementations sel'
  constraints := h.constraints

theorem addExtensionConstraint (extendedModule : String) (kind : Kind) (c : Constraint) :
    (s.addExtensionConstraint extendedModule kind c).ListsOnce where
  relations := h.relations
  implementations := h.implementations
  constraints := by
    have hold := h.constraints
    unfold extensionConstraints at hold
    cases hinfo : s.extensionInfo with
    | none =>
      simpa [Symbol.addExtensionConstraint, extensionConstraints, hinfo] using
        nodup_addNew List.nodup_nil c
    | some info =>
      rw [hinfo] at hold
      simpa [Symbol.addExtensionConstraint, extensionConstraints, hinfo] using nodup_addNew hold c

theorem apply (c : Change) : (c.apply s).ListsOnce := by
  cases c with
  | relate sel r =>
    exact h.modifyRelations sel (f := fun sec => { sec with relations := addNew sec.relations r })
      fun _ hsec => nodup_addNew hsec r
  | nameTarget sel id name =>
    exact h.modifyRelations sel
      (f := fun sec => { sec with fallbacks := sec.fallbacks.insert id name }) fun _ hsec => hsec
  | implement sel i =>
    exact h.modifyImplementations sel
      (f := fun sec => { sec with implementations := addNew sec.implementations i })
      fun _ hsec => nodup_addNew hsec i
  | nameRequirement sel id name =>
    exact h.modifyImplementations sel
      (f := fun sec => { sec with fallbacks := sec.fallbacks.insert id name }) fun _ hsec => hsec
  | constrain extendedModule c => exact h.addExtensionConstraint extendedModule .protocol c
  | require | setOrigin | dropComment => exact ⟨h.relations, h.implementations, h.constraints⟩

theorem changed (cs : List Change) : (s.changed cs).ListsOnce :=
  List.foldlRecOn (motive := Symbol.ListsOnce) cs _ h fun _ hs c _ => hs.apply c

end Symbol.ListsOnce

/-! ## Pages under pages -/

namespace TopicGraph

theorem mem_children {g : TopicGraph} {a b : String} :
    b ∈ g.children a ↔ ∃ cs, g.edges.get? a = some cs ∧ cs.contains b = true := by
  unfold children
  cases g.edges.get? a with
  | none => simp
  | some cs => simp [KeySet.mem_toList_iff]

theorem mem_children_put {g : TopicGraph} {e : TopicEdge} {a b : String} :
    b ∈ (g.put e).children a ↔
      b ∈ g.children a ∨ (g.admits e = true ∧ a = e.parent ∧ b = e.child) := by
  by_cases hadmits : g.admits e = true
  · rw [put_of_admits hadmits, mem_children, mem_children]
    by_cases ha : a = e.parent
    · subst ha
      simp only [KeyMap.get?_alter_self, Option.some.injEq, exists_eq_left', KeySet.contains_add,
        hadmits, true_and]
      cases g.edges.get? e.parent with
      | none => simp [KeyMap.contains]
      | some cs => simp [or_comm]
    · simp [KeyMap.get?_alter_of_ne _ _ ha, ha]
  · rw [put_of_not_admits hadmits]
    simp [hadmits]

theorem mem_children_foldl_put {es : List TopicEdge} {g : TopicGraph} {a b : String} :
    b ∈ (es.foldl put g).children a ↔
      b ∈ g.children a ∨ (g.admits ⟨a, b⟩ = true ∧ ⟨a, b⟩ ∈ es) := by
  induction es generalizing g with
  | nil => simp
  | cons e es ih =>
    have he : (⟨a, b⟩ : TopicEdge) = e ↔ a = e.parent ∧ b = e.child := by
      cases e
      simp
    rw [List.foldl_cons, ih, mem_children_put, admits_put, List.mem_cons, he]
    constructor
    · rintro ((h | ⟨hadmits, rfl, rfl⟩) | ⟨hadmits, h⟩)
      · exact .inl h
      · exact .inr ⟨hadmits, .inl ⟨rfl, rfl⟩⟩
      · exact .inr ⟨hadmits, .inr h⟩
    · rintro (h | ⟨hadmits, ⟨rfl, rfl⟩ | h⟩)
      · exact .inl (.inl h)
      · exact .inl (.inr ⟨hadmits, rfl, rfl⟩)
      · exact .inr ⟨hadmits, h⟩

end TopicGraph

/-! ## Sound plans -/

/-- A plan that keeps the references of a model sound. -/
structure Plan.Sound (bundle : String) (m : Model) (p : Plan) : Prop where
  relations : ∀ {id sel r}, ⟨id, .relate sel r⟩ ∈ p.changes → r.target.Sound bundle m
  implementations : ∀ {id sel i}, ⟨id, .implement sel i⟩ ∈ p.changes → i.reference.Sound bundle m
  names : ∀ {id sel target name}, ⟨id, .nameTarget sel target name⟩ ∈ p.changes →
    ∃ r q, ⟨id, .relate sel r⟩ ∈ p.changes ∧ r.target = .unresolved q ∧ q.id = target
  topics : ∀ {a b}, ⟨a, b⟩ ∈ p.topics ↔
    ∃ sel i, ⟨a, .implement sel i⟩ ∈ p.changes ∧ i.reference = .resolved b
  pages : ∀ {a b}, ⟨a, b⟩ ∈ p.topics →
    m.store.contains a = true ∧ m.topics.contains a = true ∧ m.topics.contains b = true

section Planned

variable {bundle : String} {m : Model} {p : Plan}

theorem TopicReference.Sound.like {m' : Model} {r : TopicReference} (h : r.Sound bundle m)
    (hlike : m'.Like m) : r.Sound bundle m' := by
  cases r with
  | resolved id => exact (hlike.contains id).trans h
  | unresolved p => exact ⟨(hlike.contains p.id).trans h.1, h.2⟩

namespace Model.SoundReferences

variable (h : m.SoundReferences bundle) (hp : p.Sound bundle m)

include h hp

/-- After a sound plan, the pages under a page still are its implementations. -/
theorem topics_plan (a b : String) : b ∈ (p.model m).topics.children a ↔
    ∃ s ∈ (p.model m).store.symbols, s.id = a ∧
      ∃ sel, ∃ i ∈ (s.implementationSection sel).implementations, i.reference = .resolved b := by
  simp only [Plan.model, SymbolStore.withSymbols, TopicGraph.mem_children_foldl_put, List.mem_map, exists_exists_and_eq_and,
    Symbol.id_changed]
  rw [h.topics]
  constructor
  · rintro (⟨s, hs, rfl, sel, i, hi, hb⟩ | ⟨_, hmem⟩)
    · exact ⟨s, hs, rfl, sel, i, Symbol.holds_planned (f := .implementation sel i).mpr (.inl hi), hb⟩
    · obtain ⟨sel, i, hchange, hb⟩ := hp.topics.mp hmem
      obtain ⟨s, hs, rfl⟩ := List.mem_map.mp
        (SymbolStore.contains_iff_mem_ids.mp (hp.pages hmem).1)
      exact ⟨s, hs, rfl, sel, i,
        Symbol.holds_planned (f := .implementation sel i).mpr (.inr ⟨_, hchange, rfl⟩), hb⟩
  · rintro ⟨s, hs, rfl, sel, i, hi, hb⟩
    rcases Symbol.holds_planned (f := .implementation sel i).mp hi with hi | ⟨c, hchange, hfact⟩
    · exact .inl ⟨s, hs, rfl, sel, i, hi, hb⟩
    · have hmem : ⟨s.id, b⟩ ∈ p.topics := by
        cases c <;> cases hfact
        exact hp.topics.mpr ⟨sel, i, hchange, hb⟩
      exact .inr ⟨by simp [TopicGraph.admits, hp.pages hmem], hmem⟩

/-- A sound plan keeps a model sound. -/
theorem plan : (p.model m).SoundReferences bundle where
  relations := by
    intro s' hs' sel r hr
    obtain ⟨s, hs, rfl⟩ := List.mem_map.mp hs'
    refine TopicReference.Sound.like ?_ (like_plan p m)
    rcases Symbol.holds_planned (f := .relation sel r).mp hr with hr | ⟨c, hchange, hfact⟩
    · exact h.relations s hs sel r hr
    · cases c <;> cases hfact
      exact hp.relations hchange
  implementations := by
    intro s' hs' sel i hi
    obtain ⟨s, hs, rfl⟩ := List.mem_map.mp hs'
    refine TopicReference.Sound.like ?_ (like_plan p m)
    rcases Symbol.holds_planned (f := .implementation sel i).mp hi with hi | ⟨c, hchange, hfact⟩
    · exact h.implementations s hs sel i hi
    · cases c <;> cases hfact
      exact hp.implementations hchange
  names := by
    intro s' hs' sel id hid
    obtain ⟨s, hs, rfl⟩ := List.mem_map.mp hs'
    rcases Symbol.holds_planned (f := .namedTarget sel id).mp hid with hid | ⟨c, hchange, hfact⟩
    · obtain ⟨r, hr, q, hq⟩ := h.names s hs sel id hid
      exact ⟨r, Symbol.holds_planned (f := .relation sel r).mpr (.inl hr), q, hq⟩
    · cases c <;> cases hfact
      obtain ⟨r, q, hr, hq⟩ := hp.names hchange
      exact ⟨r, Symbol.holds_planned (f := .relation sel r).mpr (.inr ⟨_, hr, rfl⟩), q, hq⟩
  once := by
    intro s' hs'
    obtain ⟨s, hs, rfl⟩ := List.mem_map.mp hs'
    exact (h.once s hs).changed _
  topics := h.topics_plan hp
  pages := by
    intro a b hb
    simp only [(like_plan p m).pages]
    rcases TopicGraph.mem_children_foldl_put.mp hb with hb | ⟨_, hmem⟩
    · exact h.pages a b hb
    · exact (hp.pages hmem).2

end Model.SoundReferences

end Planned

/-! ## Edges -/

section Edges

variable {bundle : String} {m : Model} {e : Edge} {o : MergeOptions} {sel : Selector}

theorem Placeholder.sound_of_make? {id : String} {l : Language} {p : Placeholder}
    (h : Placeholder.make? id l bundle = some p) (hid : m.store.contains id = false) :
    (TopicReference.unresolved p).Sound bundle m := by
  unfold make? at h
  split at h
  · rename_i haddress
    cases h
    have hnot : ¬ (id = "" ∨ ∃ c ∈ id.toList, Text.isBlank c = true ∨ Text.isControl c = true) :=
      fun htext => Bool.false_ne_true ((isAddressable_eq_false_iff.mpr htext).symm.trans haddress)
    simp only [not_or, not_exists, not_and, Bool.not_eq_true] at hnot
    exact ⟨hid, hnot.1, hnot.2, rfl⟩
  · cases h

theorem Edge.Sides.target_eq {forward backward : TopicReference → Relation}
    (h : Sides forward backward) (r : TopicReference) :
    (forward r).target = r ∧ (backward r).target = r := by
  cases h <;> exact ⟨rfl, rfl⟩

/-- The plan of an edge is sound. -/
theorem Edge.Merges.sound {p : Plan} (h : e.Merges o sel m p) : p.Sound o.bundle m := by
  cases h with
  | related sides source target =>
    refine ⟨fun {id sel' r} hr => ?_, by simp, by simp, by simp, by simp⟩
    simp only [List.mem_cons, AddressedChange.mk.injEq, Change.relate.injEq, List.not_mem_nil,
      or_false] at hr
    rcases hr with ⟨-, -, rfl⟩ | ⟨-, -, rfl⟩
    · rw [(sides.target_eq _).1]
      exact target
    · rw [(sides.target_eq _).2]
      exact source
  | @relatedOutside forward _ sides _ q source target placeholder =>
    have hq := (sides.target_eq (.unresolved q)).1
    refine ⟨fun {id sel' r} hr => ?_, by simp, fun {id sel' target name} hname => ?_, by simp,
      by simp⟩
    · obtain ⟨-, -, rfl⟩ : id = e.source ∧ sel' = sel ∧ r = forward (.unresolved q) := by
        simpa using hr
      rw [hq]
      exact Placeholder.sound_of_make? placeholder target
    · obtain ⟨-, rfl, rfl, rfl⟩ : e.fallback = some name ∧ e.source = id ∧ sel = sel' ∧
          q.id = target := by
        simpa using hname
      exact ⟨forward (.unresolved q), q, by simp, hq, rfl⟩
  | implemented parent source target sourcePage targetPage =>
    refine ⟨by simp, fun {id sel' i} hi => ?_, by simp, fun {a b} => ?_, fun {a b} hmem => ?_⟩
    · simp only [List.mem_singleton, AddressedChange.mk.injEq, Change.implement.injEq] at hi
      rw [hi.2.2]
      exact source
    · simp [and_assoc, eq_comm]
    · obtain ⟨rfl, rfl⟩ : a = e.target ∧ b = e.source := by simpa using hmem
      exact ⟨target, targetPage, sourcePage⟩
  | nothing | required | constrained => constructor <;> simp
  | implementedOutside => constructor <;> simp

namespace Model

theorem SoundReferences.mergeEdge {m : Model} (h : m.SoundReferences o.bundle)
    (extended : ExtendedModules) (e : Edge) :
    (m.mergeEdge extended o sel e).1.SoundReferences o.bundle := by
  obtain ⟨p, hp, hrun⟩ := m.exists_outcome extended o sel e
  rw [hrun m (.refl m)]
  cases hp with
  | refused _ _ =>
    rw [Plan.run, Plan.model_refused]
    exact h
  | merged _ plan => exact h.plan plan.sound

/-- Symbols as graphs declare them, and pages that are not yet under others. -/
structure Fresh (m : Model) : Prop where
  relations : ∀ s ∈ m.store.symbols, s.relations = ∅
  implementations : ∀ s ∈ m.store.symbols, s.implementations = ∅
  extensions : ∀ s ∈ m.store.symbols, s.extensionInfo = none
  topics : m.topics.edges = ∅

theorem Fresh.sound {m : Model} (h : m.Fresh) (bundle : String) : m.SoundReferences bundle := by
  have hrelations : ∀ s ∈ m.store.symbols, ∀ sel, s.relationSection sel = {} := by
    intro s hs sel
    rw [Symbol.relationSection, h.relations s hs]
    rfl
  have himplementations : ∀ s ∈ m.store.symbols, ∀ sel, s.implementationSection sel = {} := by
    intro s hs sel
    rw [Symbol.implementationSection, h.implementations s hs]
    rfl
  have hchildren : ∀ a, m.topics.children a = [] := by
    intro a
    rw [TopicGraph.children, h.topics]
    rfl
  refine ⟨fun s hs sel r hr => ?_, fun s hs sel i hi => ?_, fun s hs sel id hid => ?_,
    fun s hs => ⟨fun sel => ?_, fun sel => ?_, ?_⟩, fun a b => ?_, fun a b hb => ?_⟩
  · rw [hrelations s hs] at hr
    cases hr
  · rw [himplementations s hs] at hi
    cases hi
  · rw [hrelations s hs] at hid
    cases hid
  · rw [hrelations s hs]
    exact List.nodup_nil
  · rw [himplementations s hs]
    exact List.nodup_nil
  · rw [Symbol.extensionConstraints, h.extensions s hs]
    exact List.nodup_nil
  · rw [hchildren]
    refine iff_of_false List.not_mem_nil ?_
    rintro ⟨s, hs, -, sel, i, hi, -⟩
    rw [himplementations s hs] at hi
    cases hi
  · rw [hchildren] at hb
    cases hb

/-- Whatever edges are merged into fresh symbols, under whatever selectors and options for
one bundle: all references of the model are sound. -/
theorem references_sound (m : Model) (hfresh : m.Fresh) (bundle : String) (calls : List MergeCall)
    (hbundle : ∀ c ∈ calls, c.options.bundle = bundle) :
    (m.mergeCalls calls).SoundReferences bundle := by
  refine List.foldlRecOn (motive := SoundReferences bundle) calls _ (hfresh.sound bundle)
    fun m hm c hc => ?_
  rw [← hbundle c hc] at hm ⊢
  exact hm.mergeEdge c.extended c.edge

/-- The structure and the protocol, both with pages. -/
def pagedPair : Model :=
  { conformancePair with topics := (TopicGraph.addNode ∅ "s:Box").addNode "s:Shape" }

/-- The structure implements the protocol and conforms to it, and to one outside. -/
def pagedCalls : List MergeCall :=
  let call := fun (kind : EdgeKind) (target : String) (fallback : Option String) => {
    extended := fun _ => none
    options := ⟨"org.example.kit", false, "Kit"⟩
    selector := ⟨.swift, none⟩
    edge := { kind, source := "s:Box", target, fallback } }
  [call .defaultImplementationOf "s:Shape" none, call .conformsTo "s:Shape" none,
    call .conformsTo "s:Solid" (some "Solid"), call .conformsTo "s:Solid" (some "Kit.Solid")]

theorem references_sound_pagedPair :
    pagedPair.Fresh ∧ (∀ c ∈ pagedCalls, c.options.bundle = "org.example.kit") ∧
      (pagedPair.mergeCalls pagedCalls).topics.children "s:Shape" = ["s:Box"] ∧
      (pagedPair.mergeCalls pagedCalls).SoundReferences "org.example.kit" := by
  have hfresh : pagedPair.Fresh := ⟨by decide, by decide, by decide, by decide⟩
  have hbundle : ∀ c ∈ pagedCalls, c.options.bundle = "org.example.kit" := by decide
  exact ⟨hfresh, hbundle, by decide, references_sound pagedPair hfresh _ pagedCalls hbundle⟩

end Model

end Edges

end SymbolLinks
