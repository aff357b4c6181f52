import Mathlib.Tactic.Choose
import SymbolLinks.Proofs.MergeChanges

/-! What merging one edge comes to. An edge is refused for one of three reasons, and then its
plan only reports; any other edge has a plan of the few forms that `Merges` lists, and reports
nothing. Every path through a merge is followed once (`Edge.settles_merge`), and in all models
with the same declarations and pages at the same time, since nothing else is looked at. So
merging a list of edges is running their plans one after another (`Model.exists_mergeAll_plan`),
and only those edges count that report nothing (`Model.reported_edges_change_nothing`). -/
namespace SymbolLinks

theorem Placeholder.isAddressable_eq_false_iff {id : String} : isAddressable id = false ↔
    id = "" ∨ ∃ c ∈ id.toList, Text.isBlank c = true ∨ Text.isControl c = true := by
  simp [isAddressable, or_iff_not_imp_left]

namespace Edge

/-! ## Refused edges and the others -/

/-- The sides of a relation as they stand on its two ends. -/
inductive Sides : (TopicReference → Relation) → (TopicReference → Relation) → Prop
  | conformance (cs : List Constraint) : Sides (.conformsTo cs) (.conformingType cs)
  | inheritance : Sides .inheritsFrom .inheritedBy

/-- What keeps an edge out of a model. -/
inductive Refused (e : Edge) (m : Model) : Prop
  | noSource (kind : e.kind ∈ [.conformsTo, .inheritsFrom, .defaultImplementationOf,
        .requirementOf, .optionalRequirementOf])
      (source : m.store.contains e.source = false)
  /-- The target is outside the model, and no URL can be made for it. -/
  | noAddress (kind : e.kind ∈ [.conformsTo, .inheritsFrom, .defaultImplementationOf])
      (source : m.store.contains e.source = true) (target : m.store.contains e.target = false)
      (text : e.target = "" ∨
        ∃ c ∈ e.target.toList, Text.isBlank c = true ∨ Text.isControl c = true)
  | noPage (kind : e.kind = .defaultImplementationOf)
      (source : m.store.contains e.source = true) (target : m.store.contains e.target = true)
      (page : m.topics.contains e.source = false ∨ m.topics.contains e.target = false)

/-- The plan of an edge that is merged under a selector. -/
inductive Merges (e : Edge) (o : MergeOptions) (sel : Selector) (m : Model) : Plan → Prop
  | nothing : Merges e o sel m {}
  | related {forward backward : TopicReference → Relation} (sides : Sides forward backward)
      (source : m.store.contains e.source = true) (target : m.store.contains e.target = true) :
      Merges e o sel m { changes := [⟨e.source, .relate sel (forward (.resolved e.target))⟩,
        ⟨e.target, .relate sel (backward (.resolved e.source))⟩] }
  /-- Only the source is related, to a placeholder that may have a display name. -/
  | relatedOutside {forward backward : TopicReference → Relation} (sides : Sides forward backward)
      {l : Language} {p : Placeholder} (source : m.store.contains e.source = true)
      (target : m.store.contains e.target = false)
      (placeholder : Placeholder.make? e.target l o.bundle = some p) :
      Merges e o sel m {
        changes := e.fallback.toList.map (fun name => ⟨e.source, .nameTarget sel p.id name⟩) ++
          [⟨e.source, .relate sel (forward (.unresolved p))⟩] }
  | implemented (parent : Option String) (source : m.store.contains e.source = true)
      (target : m.store.contains e.target = true) (sourcePage : m.topics.contains e.source = true)
      (targetPage : m.topics.contains e.target = true) :
      Merges e o sel m {
        changes := [⟨e.target, .implement sel ⟨e.fallback, parent, .resolved e.source⟩⟩]
        topics := [⟨e.target, e.source⟩] }
  /-- Of a requirement outside the model only the display name is kept. -/
  | implementedOutside (p : Placeholder) (source : m.store.contains e.source = true)
      (target : m.store.contains e.target = false) :
      Merges e o sel m {
        changes := e.fallback.toList.map fun name => ⟨e.source, .nameRequirement sel p.id name⟩ }
  | required (isRequired : Bool) (source : m.store.contains e.source = true) :
      Merges e o sel m { changes := [⟨e.source, .require isRequired⟩] }
  | constrained (moduleTitle : String) (c : Constraint) :
      Merges e o sel m { changes := [⟨e.source, .constrain moduleTitle c⟩] }

/-- The plan of an edge: a refused edge is reported, and any other one is merged. -/
inductive Outcome (e : Edge) (o : MergeOptions) (sel : Selector) (m : Model) : Plan → Prop
  | refused (reason : e.Refused m) {problems : List Problem} (reported : problems ≠ []) :
      Outcome e o sel m { problems }
  | merged (fine : ¬ e.Refused m) {p : Plan} (plan : e.Merges o sel m p) : Outcome e o sel m p

/-- In all models like one, an action does what one plan for the edge says. -/
def Settles (e : Edge) (o : MergeOptions) (sel : Selector) (m : Model) (x : Merging Unit) : Prop :=
  ∃ p, e.Outcome o sel m p ∧ ∀ m', m'.Like m → x.Does m' () p

/-- An action that goes on from the source of an edge settles the edge, whatever was merged
into the source. -/
def SettlesFrom (e : Edge) (o : MergeOptions) (sel : Selector) (m : Model) (source : Symbol)
    (x : Symbol → Merging Unit) : Prop :=
  ∃ p, e.Outcome o sel m p ∧
    ∀ m' source', m'.Like m → source'.declared = source.declared → (x source').Does m' () p

variable {e : Edge} {o : MergeOptions} {sel : Selector} {m : Model} {source : Symbol}

theorem Merges.problems_eq {p : Plan} (h : e.Merges o sel m p) : p.problems = [] := by
  cases h <;> rfl

/-- No edge is refused whose source is in the model, if its target can be referred to and
the ends of a default implementation are pages. -/
theorem not_refused (hsource : m.store.contains e.source = true)
    (htarget : e.kind ∈ [.conformsTo, .inheritsFrom, .defaultImplementationOf] →
      m.store.contains e.target = false → Placeholder.isAddressable e.target = true)
    (hpages : e.kind = .defaultImplementationOf → m.store.contains e.target = true →
      m.topics.contains e.source = true ∧ m.topics.contains e.target = true) : ¬ e.Refused m := by
  intro h
  cases h with
  | noSource _ source => cases hsource.symm.trans source
  | noAddress kind _ target text =>
    have hno := Placeholder.isAddressable_eq_false_iff.mpr text
    cases (htarget kind target).symm.trans hno
  | noPage kind _ target page => simp [hpages kind target] at page

theorem not_refused_of_kind (kind : e.kind ∉ [.conformsTo, .inheritsFrom, .defaultImplementationOf,
    .requirementOf, .optionalRequirementOf]) : ¬ e.Refused m := by
  intro h
  cases h with
  | noSource hsource => exact kind hsource
  | noAddress htarget =>
    have hall : e.kind ∈ [.conformsTo, .inheritsFrom, .defaultImplementationOf] ++
        [.requirementOf, .optionalRequirementOf] := List.mem_append_left _ htarget
    exact kind hall
  | noPage hpage => simp [hpage] at kind

/-! ## Steps of merging -/

theorem does_source?_of_none (h : m.store.get? e.source = none) :
    e.source?.Does m none { problems := [.symbolNotFound e.source] } := by
  refine Merging.Does.of_read ?_
  simp only [h, Option.isNone_none, if_true]
  exact (Merging.does_report _ m).andThen (Merging.does_pure none _)

theorem does_source?_of_some (h : m.store.get? e.source = some source) :
    e.source?.Does m (some source) {} := by
  refine Merging.Does.of_read ?_
  simp only [h, Option.isNone_some, Bool.false_eq_true, if_false]
  exact Merging.does_pure _ m

theorem does_target?_of_contains (h : m.store.contains e.target = true) :
    (e.target? o source).Does m (some (.resolved e.target)) {} := by
  refine Merging.Does.of_read ?_
  rw [if_pos h]
  exact Merging.does_pure _ m

/-- A reference to a target outside the model is to its placeholder. -/
theorem does_target?_of_make? (h : m.store.contains e.target = false) {p : Placeholder}
    (hp : Placeholder.make? e.target source.language o.bundle = some p) :
    (e.target? o source).Does m (some (.unresolved p)) {} := by
  refine Merging.Does.of_read ?_
  simp only [h, Bool.false_eq_true, if_false, hp, Option.isNone_some]
  exact Merging.does_pure _ m

theorem does_target?_of_none (h : m.store.contains e.target = false)
    (hp : Placeholder.make? e.target source.language o.bundle = none) :
    (e.target? o source).Does m none { problems := [.invalidReference e.target] } := by
  refine Merging.Does.of_read ?_
  simp only [h, Bool.false_eq_true, if_false, hp, Option.isNone_none, if_true]
  exact (Merging.does_report _ m).andThen (Merging.does_pure none _)

theorem does_writeName (e : Edge) (c : String → Change) (m : Model) :
    (e.writeName c).Does m () { changes := e.fallback.toList.map fun name => ⟨e.source, c name⟩ } := by
  unfold writeName
  cases e.fallback with
  | none => exact Merging.does_pure () m
  | some name => exact Merging.does_write e.source (c name) m

/-! ## Paths through a merge -/

/-- Without its source an edge is reported and left. -/
theorem settles_of_source {k : Option Symbol → Merging Unit} (hnone : k none = pure ())
    (kind : e.kind ∈ [.conformsTo, .inheritsFrom, .defaultImplementationOf, .requirementOf,
      .optionalRequirementOf])
    (h : ∀ source, m.store.contains e.source = true →
      e.SettlesFrom o sel m source fun s => k (some s)) :
    e.Settles o sel m (e.source? >>= k) := by
  have hcontains := m.store.contains_eq_isSome_get? e.source
  cases hs : m.store.get? e.source with
  | none =>
    rw [hs] at hcontains
    refine ⟨_, .refused (.noSource kind hcontains) (List.cons_ne_nil (.symbolNotFound e.source) []),
      fun m' hm' => ?_⟩
    refine (does_source?_of_none (hm'.get?_eq_none hs)).bind (q := {}) ?_
    rw [hnone]
    exact Merging.does_pure () _
  | some source =>
    rw [hs] at hcontains
    obtain ⟨p, hp, hdoes⟩ := h source hcontains
    refine ⟨p, hp, fun m' hm' => ?_⟩
    obtain ⟨source', hs', hdeclared⟩ := hm'.get?_eq_some hs
    exact (does_source?_of_some hs').bind_of_nothing (hdoes m' source' hm' hdeclared)

/-- The three ways to refer to a target: it is in the model, it has a placeholder, or it
keeps the edge out. -/
theorem settlesFrom_of_target {k : Symbol → Option TopicReference → Merging Unit}
    (hnone : ∀ s, k s none = pure ())
    (kind : e.kind ∈ [.conformsTo, .inheritsFrom, .defaultImplementationOf])
    (hs : m.store.contains e.source = true)
    (inside : m.store.contains e.target = true →
      e.SettlesFrom o sel m source fun s => k s (some (.resolved e.target)))
    (outside : ∀ {p}, m.store.contains e.target = false →
      Placeholder.make? e.target source.language o.bundle = some p →
      ∃ plan, e.Merges o sel m plan ∧ ∀ m' s, (k s (some (.unresolved p))).Does m' () plan) :
    e.SettlesFrom o sel m source fun s => e.target? o s >>= k s := by
  cases ht : m.store.contains e.target with
  | true =>
    obtain ⟨p, hp, hdoes⟩ := inside ht
    refine ⟨p, hp, fun m' s hm' hdeclared => ?_⟩
    exact (does_target?_of_contains ((hm'.contains e.target).trans ht)).bind_of_nothing
      (hdoes m' s hm' hdeclared)
  | false =>
    have hlanguage : ∀ {s : Symbol}, s.declared = source.declared → s.language = source.language :=
      fun hdeclared => (congrArg Symbol.language hdeclared :)
    cases haddress : Placeholder.isAddressable e.target with
    | false =>
      refine ⟨_, .refused (.noAddress kind hs ht (Placeholder.isAddressable_eq_false_iff.mp haddress))
        (List.cons_ne_nil (.invalidReference e.target) []), fun m' s hm' hdeclared => ?_⟩
      refine (does_target?_of_none ((hm'.contains e.target).trans ht) ?_).bind (q := {}) ?_
      · rw [Placeholder.make?, haddress, if_neg Bool.false_ne_true]
      · rw [hnone]
        exact Merging.does_pure () _
    | true =>
      have hmake : Placeholder.make? e.target source.language o.bundle = some _ := if_pos haddress
      obtain ⟨plan, hplan, hdoes⟩ := outside ht hmake
      have hfine : ¬ e.Refused m := not_refused hs (fun _ _ => haddress) fun _ hin => by
        cases ht.symm.trans hin
      refine ⟨plan, .merged hfine hplan, fun m' s hm' hdeclared => ?_⟩
      refine (does_target?_of_make? ((hm'.contains e.target).trans ht) ?_).bind_of_nothing
        (hdoes m' s)
      rw [hlanguage hdeclared]
      exact hmake

theorem settlesFrom_relate {forward backward : TopicReference → Relation}
    (sides : Sides forward backward) (kind : e.kind = .conformsTo ∨ e.kind = .inheritsFrom)
    (hs : m.store.contains e.source = true) :
    e.SettlesFrom o sel m source fun s => e.relate o sel s forward backward := by
  have hkind : e.kind ∈ [.conformsTo, .inheritsFrom, .defaultImplementationOf] := by
    rcases kind with hkind | hkind <;> simp [hkind]
  refine settlesFrom_of_target (fun _ => rfl) hkind hs (fun ht => ?_)
    fun ht hp => ⟨_, .relatedOutside sides hs ht hp, fun m' _ => ?_⟩
  · have hfine : ¬ e.Refused m := not_refused hs (fun _ hout => by cases ht.symm.trans hout)
      fun hpage => by simp [hpage] at kind
    exact ⟨_, .merged hfine (.related sides hs ht), fun m' _ _ _ =>
      (Merging.does_write _ _ m').andThen (Merging.does_write _ _ _)⟩
  · exact (e.does_writeName _ m').andThen (Merging.does_write _ _ _)

theorem settles_mergeImplementation (kind : e.kind = .defaultImplementationOf) :
    e.Settles o sel m (e.mergeImplementation o sel) := by
  refine settles_of_source rfl (by simp [kind]) fun source hs => ?_
  refine settlesFrom_of_target (fun _ => rfl) (by simp [kind]) hs (fun ht => ?_)
    fun {p} ht _ => ⟨_, .implementedOutside p hs ht, fun m' _ => e.does_writeName _ m'⟩
  cases hmissing : [e.target, e.source].filter (!m.topics.contains ·) with
  | nil =>
    obtain ⟨htarget, hsource⟩ : m.topics.contains e.target = true ∧ m.topics.contains e.source = true := by
      simpa [List.filter_eq_nil_iff] using hmissing
    have hfine : ¬ e.Refused m := not_refused hs (fun _ hout => by cases ht.symm.trans hout)
      fun _ _ => ⟨hsource, htarget⟩
    refine ⟨_, .merged hfine (.implemented ((m.store.parentOf? source).map (·.title)) hs ht hsource
      htarget), fun m' s hm' hdeclared => Merging.Does.of_read ?_⟩
    simp only [hm'.pages, hmissing]
    refine Merging.Does.of_read ?_
    rw [hm'.parent_title hdeclared]
    exact (Merging.does_write _ _ m').andThen (Merging.does_putUnder _ _ _)
  | cons id ids =>
    have hpage : m.topics.contains e.source = false ∨ m.topics.contains e.target = false := by
      have hid : id ∈ [e.target, e.source].filter (!m.topics.contains ·) := by simp [hmissing]
      simp only [List.mem_filter, List.mem_cons, List.not_mem_nil, or_false, Bool.not_eq_true'] at hid
      obtain ⟨rfl | rfl, hno⟩ := hid
      · exact .inr hno
      · exact .inl hno
    -- Only now, with nothing written, the missing pages are reported.
    refine ⟨_, .refused (.noPage kind hs ht hpage)
      (List.cons_ne_nil (.symbolNotFound id) (ids.map .symbolNotFound)), fun m' s hm' _ => ?_⟩
    refine Merging.Does.of_read ?_
    simp only [hm'.pages, hmissing]
    exact Merging.does_forM_report (id :: ids) m'

theorem settles_mergeRequirement {isRequired : Bool}
    (kind : e.kind = .requirementOf ∨ e.kind = .optionalRequirementOf) :
    e.Settles o sel m (e.mergeRequirement isRequired) := by
  have hkind : e.kind ∈ [.conformsTo, .inheritsFrom, .defaultImplementationOf, .requirementOf,
      .optionalRequirementOf] := by
    rcases kind with hkind | hkind <;> simp [hkind]
  refine settles_of_source rfl hkind fun source hs => ?_
  have hfine : ¬ e.Refused m := by
    refine not_refused hs (fun htarget => ?_) fun hpage => by simp [hpage] at kind
    rcases kind with kind | kind <;> simp [kind] at htarget
  exact ⟨_, .merged hfine (.required isRequired hs), fun m' _ _ _ => Merging.does_write _ _ m'⟩

/-- The extended protocol and its module are known by titles and kinds, which are declared. -/
theorem extendedProtocol?_congr (e : Edge) (extended : ExtendedModules) {m' : Model}
    (h : m'.Like m) : e.extendedProtocol? extended m' = e.extendedProtocol? extended m := by
  unfold extendedProtocol?
  cases extended e.target with
  | none => rfl
  | some moduleId =>
    cases hproto : m.store.get? e.target with
    | none => simp [h.get?_eq_none hproto]
    | some proto =>
      obtain ⟨proto', hproto', hdeclared⟩ := h.get?_eq_some hproto
      have hkind : proto'.kind = proto.kind := (congrArg Symbol.kind hdeclared :)
      have htitle : proto'.title = proto.title := (congrArg Symbol.title hdeclared :)
      cases hmodule : m.store.get? moduleId with
      | none => simp [hproto', hmodule, h.get?_eq_none hmodule]
      | some moduleSymbol =>
        obtain ⟨module', hmodule', hdeclared'⟩ := h.get?_eq_some hmodule
        have htitle' : module'.title = moduleSymbol.title := (congrArg Symbol.title hdeclared' :)
        by_cases hfits : proto.kind = .extendedProtocol <;>
          simp [Option.filter_some, hproto', hmodule, hmodule', hkind, htitle, htitle', hfits]

theorem settles_mergeExtensionMember (e : Edge) (extended : ExtendedModules) (kind : e.kind = .memberOf) :
    e.Settles o sel m (e.mergeExtensionMember extended) := by
  have hfine : ¬ e.Refused m := not_refused_of_kind (by simp [kind])
  cases hfound : e.extendedProtocol? extended m with
  | none =>
    refine ⟨_, .merged hfine .nothing, fun m' hm' => Merging.Does.of_read ?_⟩
    rw [e.extendedProtocol?_congr extended hm', hfound]
    exact Merging.does_pure () m'
  | some titles =>
    refine ⟨_, .merged hfine (.constrained titles.1 ⟨.sameType, "Self", titles.2⟩),
      fun m' hm' => Merging.Does.of_read ?_⟩
    rw [e.extendedProtocol?_congr extended hm', hfound]
    exact Merging.does_write _ _ m'

/-- Every path through the merge of an edge, by the kinds of edges. -/
theorem settles_merge (e : Edge) (extended : ExtendedModules) (o : MergeOptions) (sel : Selector)
    (m : Model) : e.Settles o sel m (e.merge extended o sel) := by
  unfold merge
  cases kind : e.kind with
  | conformsTo =>
    refine settles_of_source rfl (by simp [kind]) fun source hs => ?_
    -- What is related depends on the kind of the source, which merging leaves alone.
    have hsame : ∀ {s : Symbol}, s.declared = source.declared → s.kind = source.kind :=
      fun hdeclared => (congrArg Symbol.kind hdeclared :)
    by_cases hkind : source.kind = .protocol
    · obtain ⟨p, hp, hdoes⟩ : e.SettlesFrom o sel m source
          (e.relate o sel · .inheritsFrom .inheritedBy) := settlesFrom_relate .inheritance (.inl kind) hs
      refine ⟨p, hp, fun m' s hm' hdeclared => ?_⟩
      simp only [hsame hdeclared, if_pos hkind]
      exact hdoes m' s hm' hdeclared
    · obtain ⟨p, hp, hdoes⟩ : e.SettlesFrom o sel m source
          (e.relate o sel · (.conformsTo e.constraints) (.conformingType e.constraints)) :=
        settlesFrom_relate (.conformance e.constraints) (.inl kind) hs
      refine ⟨p, hp, fun m' s hm' hdeclared => ?_⟩
      simp only [hsame hdeclared, if_neg hkind]
      exact hdoes m' s hm' hdeclared
  | inheritsFrom =>
    exact settles_of_source rfl (by simp [kind]) fun source hs =>
      settlesFrom_relate .inheritance (.inr kind) hs
  | defaultImplementationOf => exact settles_mergeImplementation kind
  | requirementOf => exact settles_mergeRequirement (.inl kind)
  | optionalRequirementOf => exact settles_mergeRequirement (.inr kind)
  | memberOf => exact e.settles_mergeExtensionMember extended kind
  | declaredIn | extensionTo | other | overrides =>
    exact ⟨_, .merged (not_refused_of_kind (by simp [kind])) .nothing,
      fun m' _ => Merging.does_pure () m'⟩

theorem Outcome.problems_ne_nil_iff {p : Plan} (h : e.Outcome o sel m p) :
    p.problems ≠ [] ↔ e.Refused m := by
  cases h with
  | refused reason reported => exact iff_of_true reported reason
  | merged fine plan => exact iff_of_false (not_not.mpr plan.problems_eq) fine

theorem Outcome.model_of_problems {p : Plan} (h : e.Outcome o sel m p) (hp : p.problems ≠ []) :
    p.model m = m := by
  cases h with
  | refused _ _ => exact Plan.model_refused _ m
  | merged _ plan => exact absurd plan.problems_eq hp

/-! ## Origins of inherited members -/

/-- The origin that an edge records for its source. -/
def inherited? (e : Edge) : Option Origin :=
  if e.kind = .memberOf ∨ e.kind = .defaultImplementationOf then e.origin else none

/-- The changes that record the origin of an inherited member. -/
def originPlan (e : Edge) (o : MergeOptions) (m : Model) : Plan :=
  match e.inherited? with
  | none => {}
  | some origin => { changes := [⟨e.source, .setOrigin origin⟩,
      ⟨e.source, .dropComment ((m.store.get? origin.identifier).map (·.moduleName)) o⟩] }

theorem originPlan_congr {m' : Model} (h : m'.Like m) : e.originPlan o m' = e.originPlan o m := by
  simp only [originPlan, h.map_moduleName]

theorem problems_originPlan (e : Edge) (o : MergeOptions) (m : Model) :
    (e.originPlan o m).problems = [] := by
  unfold originPlan
  split <;> rfl

theorem mergeOrigin_eq (e : Edge) (o : MergeOptions) (m : Model) :
    e.mergeOrigin o m = (e.originPlan o m).model m := by
  unfold mergeOrigin originPlan inherited?
  split
  · cases e.origin with
    | none => exact (Plan.model_refused [] m).symm
    | some origin =>
      dsimp only
      rw [← Plan.model_change, ← Plan.model_change, ← Plan.model_append]
      rfl
  · exact (Plan.model_refused [] m).symm

end Edge

namespace Model

/-! ## Lists of edges -/

variable (extended : ExtendedModules) (o : MergeOptions) (sel : Selector)

/-- Merging an edge runs its plan, also in models that other edges were merged into. -/
theorem exists_outcome (e : Edge) (m : Model) : ∃ p, e.Outcome o sel m p ∧
    ∀ m', m'.Like m → m'.mergeEdge extended o sel e = p.run m' := by
  obtain ⟨p, hp, hdoes⟩ := e.settles_merge extended o sel m
  exact ⟨p, hp, fun m' hm' => congrArg Prod.snd (hdoes m' hm' [])⟩

theorem foldl_mergeOrigin (edges : List Edge) {m m' : Model} (hm' : m'.Like m) :
    edges.foldl (fun m e => e.mergeOrigin o m) m' =
      (Plan.concat (edges.map (·.originPlan o m))).model m' := by
  rw [Plan.model_concat]
  induction edges generalizing m' with
  | nil => rfl
  | cons e edges ih =>
    rw [List.foldl_cons, e.mergeOrigin_eq, Edge.originPlan_congr hm',
      ih ((like_plan _ _).trans hm')]
    rfl

/-- Every edge has a plan for its merge and a plan for its origin. Merging a list of
edges is running the first plans of all of them and then the second plans. -/
theorem exists_mergeAll_plan (m : Model) : ∃ merge : Edge → Plan,
    (∀ e : Edge, e.Outcome o sel m (merge e)) ∧ ∀ edges m', m'.Like m → m'.mergeAll extended o sel edges =
      ((Plan.concat (edges.map merge)).append (Plan.concat (edges.map (·.originPlan o m)))).run m' := by
  choose merge hmerge hdoes using fun e : Edge => e.settles_merge extended o sel m
  refine ⟨merge, hmerge, fun edges m' hm' => ?_⟩
  have hedges := congrArg Prod.snd (Merging.does_forM hdoes edges hm' [])
  have horigins := foldl_mergeOrigin o edges ((like_plan (Plan.concat (edges.map merge)) m').trans hm')
  have hsilent : (Plan.concat (edges.map (·.originPlan o m))).problems = [] := by
    simp [Plan.problems_concat, Edge.problems_originPlan]
  unfold mergeAll
  rw [hedges, Plan.run, Plan.model_append, ← horigins, Plan.append, hsilent, List.append_nil]
  rfl

theorem like_mergeAll (edges : List Edge) (m : Model) :
    (m.mergeAll extended o sel edges).1.Like m := by
  obtain ⟨merge, -, hplan⟩ := m.exists_mergeAll_plan extended o sel
  rw [hplan edges m (.refl m)]
  exact like_plan _ m

theorem like_mergeEdge (e : Edge) (m : Model) : (m.mergeEdge extended o sel e).1.Like m := by
  obtain ⟨p, -, hp⟩ := m.exists_outcome extended o sel e
  rw [hp m (.refl m)]
  exact like_plan p m

/-- What an edge reports depends on what graphs declare and on the pages there are. -/
theorem Like.problems_eq {m m' : Model} (h : m'.Like m) (e : Edge) :
    (m'.mergeEdge extended o sel e).2 = (m.mergeEdge extended o sel e).2 := by
  obtain ⟨p, -, hp⟩ := m.exists_outcome extended o sel e
  rw [hp m' h, hp m (.refl m)]
  rfl

/-- One edge to merge, with everything that its merge depends on. -/
structure MergeCall where
  extended : ExtendedModules
  options : MergeOptions
  selector : Selector
  edge : Edge

/-- The model after merging edges in turn, each with its own settings. -/
def mergeCalls (m : Model) (calls : List MergeCall) : Model :=
  calls.foldl (fun m c => (m.mergeEdge c.extended c.options c.selector c.edge).1) m

/-- The problems that a call reports. -/
def reports (m : Model) (c : MergeCall) : List Problem :=
  (m.mergeEdge c.extended c.options c.selector c.edge).2

variable (m : Model)

theorem like_mergeCalls (calls : List MergeCall) : (m.mergeCalls calls).Like m :=
  List.foldlRecOn (motive := fun m' : Model => m'.Like m) calls _ (.refl m) fun m' hm' c _ =>
    (m'.like_mergeEdge c.extended c.options c.selector c.edge).trans hm'

theorem reports_ne_nil_iff (c : MergeCall) : m.reports c ≠ [] ↔ c.edge.Refused m := by
  obtain ⟨p, hp, hrun⟩ := m.exists_outcome c.extended c.options c.selector c.edge
  rw [reports, hrun m (.refl m)]
  exact hp.problems_ne_nil_iff

theorem mergeEdge_of_reports {c : MergeCall} (h : m.reports c ≠ []) :
    (m.mergeEdge c.extended c.options c.selector c.edge).1 = m := by
  obtain ⟨p, hp, hrun⟩ := m.exists_outcome c.extended c.options c.selector c.edge
  rw [reports, hrun m (.refl m)] at h
  rw [hrun m (.refl m)]
  exact hp.model_of_problems h

/-- The calls that report something can be left out. -/
theorem mergeCalls_filter (calls : List MergeCall) {m' : Model} (h : m'.Like m) :
    m'.mergeCalls (calls.filter (m.reports · = [])) = m'.mergeCalls calls := by
  induction calls generalizing m' with
  | nil => rfl
  | cons c calls ih =>
    have hsame : m'.reports c = m.reports c := h.problems_eq _ _ _ c.edge
    have hstep : m'.mergeCalls (c :: calls) =
        (m'.mergeEdge c.extended c.options c.selector c.edge).1.mergeCalls calls := rfl
    by_cases hc : m.reports c = []
    · rw [List.filter_cons_of_pos (by simpa using hc), hstep]
      exact ih ((m'.like_mergeEdge _ _ _ c.edge).trans h)
    · rw [List.filter_cons_of_neg (by simpa using hc), hstep,
        m'.mergeEdge_of_reports (hsame ▸ hc)]
      exact ih h

/-- An edge is reported exactly if it is refused, and a reported edge changes nothing.
What is reported does not depend on the edges before it, so the model after a list of
edges is the model after those of them that report nothing. -/
theorem reported_edges_change_nothing :
    (∀ c : MergeCall, m.reports c ≠ [] ↔ c.edge.Refused m) ∧
    (∀ c : MergeCall, m.reports c ≠ [] →
      (m.mergeEdge c.extended c.options c.selector c.edge).1 = m) ∧
    (∀ calls c, (m.mergeCalls calls).reports c = m.reports c) ∧
    ∀ calls, m.mergeCalls calls = m.mergeCalls (calls.filter (m.reports · = [])) := by
  refine ⟨m.reports_ne_nil_iff, fun c => m.mergeEdge_of_reports,
    fun calls c => (m.like_mergeCalls calls).problems_eq _ _ _ c.edge, fun calls => ?_⟩
  exact (m.mergeCalls_filter calls (.refl m)).symm

/-- A structure and a protocol that conforms to itself. -/
def conformancePair : Model where
  store := .ofInserts [
    { kind := .struct, language := .swift, moduleName := "Kit",
      names := .singleton .swift ["Box"], id := "s:Box", title := "Box" },
    { kind := .protocol, language := .swift, moduleName := "Kit",
      names := .singleton .swift ["Shape"], id := "s:Shape", title := "Shape" }]
  topics := ∅

/-- One edge that is merged; then one without a source, one whose target has a blank, and
one between symbols without pages. -/
def refusedCalls : List MergeCall :=
  let call := fun (kind : EdgeKind) (source target : String) => {
    extended := fun _ => none
    options := ⟨"org.example.kit", false, "Kit"⟩
    selector := ⟨.swift, none⟩
    edge := { kind, source, target } }
  [call .conformsTo "s:Box" "s:Shape", call .requirementOf "s:Gone" "s:Shape",
    call .inheritsFrom "s:Box" "Solid Shape", call .defaultImplementationOf "s:Box" "s:Shape"]

theorem reported_edges_change_nothing_refusedCalls :
    (∀ c ∈ refusedCalls.drop 1, c.edge.Refused conformancePair) ∧
      conformancePair.mergeCalls (refusedCalls.take 1) ≠ conformancePair ∧
      conformancePair.mergeCalls refusedCalls = conformancePair.mergeCalls (refusedCalls.take 1) := by
  obtain ⟨hrefused, -, -, hfilter⟩ := reported_edges_change_nothing conformancePair
  have hreports : ∀ c ∈ refusedCalls.drop 1, conformancePair.reports c ≠ [] := by decide
  have hsilent : refusedCalls.filter (conformancePair.reports · = []) = refusedCalls.take 1 := rfl
  exact ⟨fun c hc => (hrefused c).mp (hreports c hc), by decide, hsilent ▸ hfilter refusedCalls⟩

end Model

end SymbolLinks
