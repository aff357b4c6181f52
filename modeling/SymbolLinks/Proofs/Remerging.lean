import SymbolLinks.Proofs.EdgeOrder

/-! Merging edges a second time. Some changes settle what they are about: once made, they
change nothing any more, whatever comes between. The others replace what earlier ones
wrote, and the last one counts. Settling changes do not meet with replacing ones, so
changes made twice in the same order give what they gave at first (`Stable.foldl_twice`),
and so does merging (`mergeAll_mergeAll`). -/
namespace SymbolLinks

/-! ## Steps that can be repeated -/

/-- Steps of which some settle something and the others replace what was there. -/
structure Stable {σ α : Type} (step : σ → α → σ) (settles : α → Bool) : Prop where
  again : ∀ s a, step (step s a) a = step s a
  settled : ∀ {s a}, settles a = true → step s a = s → ∀ b, step (step s b) a = step s b
  replaced : ∀ s {a b}, settles a = false → settles b = false →
    step (step (step s a) b) a = step (step s b) a
  comm : ∀ s {a b}, settles a = true → settles b = false → step (step s b) a = step (step s a) b

namespace Stable

variable {σ α : Type} {step : σ → α → σ} {settles : α → Bool} (h : Stable step settles)

include h

/-- What is settled stays settled. -/
theorem settled_foldl {s : σ} {a : α} (ha : settles a = true) (hs : step s a = s) (as : List α) :
    step (as.foldl step s) a = as.foldl step s :=
  List.foldlRecOn (motive := fun s => step s a = s) as step hs fun _ hs b _ => h.settled ha hs b

theorem settled_of_mem {a : α} (ha : settles a = true) {as : List α} (hmem : a ∈ as) (s : σ) :
    step (as.foldl step s) a = as.foldl step s := by
  obtain ⟨before, after, rfl⟩ := List.append_of_mem hmem
  rw [List.foldl_append, List.foldl_cons]
  exact h.settled_foldl ha (h.again _ a) after

/-- A step that is repeated later need not be made, if all replace. -/
theorem replaced_of_mem {a : α} {as : List α} (has : ∀ b ∈ as, settles b = false) (hmem : a ∈ as)
    (s : σ) : as.foldl step (step s a) = as.foldl step s := by
  induction as generalizing s with
  | nil => cases hmem
  | cons b as ih =>
    have has' : ∀ c ∈ as, settles c = false := fun c hc => has c (List.mem_cons_of_mem b hc)
    rw [List.foldl_cons, List.foldl_cons]
    rcases List.mem_cons.mp hmem with rfl | hmem
    · rw [h.again]
    · have ha : settles a = false := has' a hmem
      calc as.foldl step (step (step s a) b)
          = as.foldl step (step (step (step s a) b) a) := (ih has' hmem _).symm
        _ = as.foldl step (step (step s b) a) := by rw [h.replaced s ha (has b (by simp))]
        _ = as.foldl step (step s b) := ih has' hmem _

theorem replaced_foldl {as bs : List α} (hbs : ∀ b ∈ bs, settles b = false) (hsub : ∀ a ∈ as, a ∈ bs)
    (s : σ) : bs.foldl step (as.foldl step s) = bs.foldl step s := by
  induction as generalizing s with
  | nil => rfl
  | cons a as ih =>
    rw [List.foldl_cons, ih fun b hb => hsub b (List.mem_cons_of_mem a hb),
      h.replaced_of_mem hbs (hsub a (by simp))]

/-- A replacing step may as well come after settling ones. -/
theorem comm_foldl {a : α} (ha : settles a = false) {as : List α} (has : ∀ b ∈ as, settles b = true)
    (s : σ) : as.foldl step (step s a) = step (as.foldl step s) a := by
  induction as generalizing s with
  | nil => rfl
  | cons b as ih =>
    rw [List.foldl_cons, List.foldl_cons, h.comm s (has b (by simp)) ha]
    exact ih (fun c hc => has c (List.mem_cons_of_mem b hc)) _

/-- The settling steps may come first. -/
theorem foldl_eq (as : List α) (s : σ) : as.foldl step s =
    (as.filter (!settles ·)).foldl step ((as.filter settles).foldl step s) := by
  induction as generalizing s with
  | nil => rfl
  | cons a as ih =>
    rw [List.foldl_cons, ih]
    cases ha : settles a with
    | true => simp [ha]
    | false =>
      have has : ∀ b ∈ as.filter settles, settles b = true := fun b hb => (List.mem_filter.mp hb).2
      simp [ha, h.comm_foldl ha has]

/-- Made twice in the same order, steps give what they gave at first. -/
theorem foldl_twice (as : List α) (s : σ) : as.foldl step (as.foldl step s) = as.foldl step s := by
  have hsettled : (as.filter settles).foldl step (as.foldl step s) = as.foldl step s := by
    refine List.foldlRecOn (motive := fun t => t = as.foldl step s) _ step rfl fun t ht a ha => ?_
    obtain ⟨hmem, ha⟩ := List.mem_filter.mp ha
    rw [ht, h.settled_of_mem ha hmem]
  have hreplaced : ∀ b ∈ as.filter (!settles ·), settles b = false := fun b hb => by
    simpa using (List.mem_filter.mp hb).2
  rw [h.foldl_eq as (as.foldl step s), hsettled, h.foldl_eq as s]
  exact h.replaced_foldl hreplaced (fun _ hb => hb) _

end Stable

/-! ## The changes of merging -/

namespace Change

/-- Lists settle what they are given, and a dropped comment is gone. Names and flags are
replaced. -/
def settles : Change → Bool
  | .relate _ _ | .implement _ _ | .constrain _ _ | .dropComment _ _ => true
  | .nameTarget _ _ _ | .nameRequirement _ _ _ | .require _ | .setOrigin _ => false

variable {s : Symbol}

/-- What is listed already is not listed again. -/
theorem apply_eq_self_of_holds {c : Change} {f : Fact} (hc : c.settles = true)
    (hf : c.fact? = some f) (h : s.Holds f) : apply s c = s := by
  cases c with
  | relate sel r =>
    cases hf
    cases hsec : s.relations.get? sel with
    | none => simp [Symbol.Holds, Symbol.relationSection, hsec] at h
    | some sec =>
      have hr : r ∈ sec.relations := by simpa [Symbol.Holds, Symbol.relationSection, hsec] using h
      have halter := KeyMap.alter_eq_self (f := fun v : Option RelationSection =>
        { v.getD {} with relations := addNew (v.getD {}).relations r }) hsec (by simp [addNew_of_mem hr])
      exact congrArg (fun relations => { s with relations }) halter
  | implement sel i =>
    cases hf
    cases hsec : s.implementations.get? sel with
    | none => simp [Symbol.Holds, Symbol.implementationSection, hsec] at h
    | some sec =>
      have hi : i ∈ sec.implementations := by
        simpa [Symbol.Holds, Symbol.implementationSection, hsec] using h
      have halter := KeyMap.alter_eq_self (f := fun v : Option ImplementationSection =>
        { v.getD {} with implementations := addNew (v.getD {}).implementations i }) hsec
        (by simp [addNew_of_mem hi])
      exact congrArg (fun implementations => { s with implementations }) halter
  | constrain extendedModule c =>
    cases hf
    cases hinfo : s.extensionInfo with
    | none => simp [Symbol.Holds, Symbol.extensionConstraints, hinfo] at h
    | some info =>
      have hmem : c ∈ info.constraints := by
        simpa [Symbol.Holds, Symbol.extensionConstraints, hinfo] using h
      simp only [apply, Symbol.addExtensionConstraint, hinfo, Option.getD_some, addNew_of_mem hmem]
      rw [← hinfo]
  | dropComment => cases hf
  | nameTarget | nameRequirement | require | setOrigin => cases hc

/-- A comment that is kept stays kept: it is only dropped as a whole. -/
theorem keepsComment_apply {originModule : Option String} {o : MergeOptions}
    (h : s.KeepsComment originModule o) (d : Change) : (apply s d).KeepsComment originModule o := by
  have hcomment := comment_apply s d
  split at hcomment
  · exact .inr (.inr (by simp [Symbol.commentIsFrom?, hcomment]))
  · unfold Symbol.KeepsComment Symbol.commentIsFrom? at h ⊢
    rwa [s.moduleName_apply d, hcomment]

theorem dropComment_eq_self_iff {originModule : Option String} {o : MergeOptions} :
    apply s (.dropComment originModule o) = s ↔ s.KeepsComment originModule o := by
  constructor
  · intro h
    by_contra hdrops
    have hcomment : s.comment = none := by
      have heq := congrArg Symbol.comment h
      simpa [apply, hdrops] using heq.symm
    exact hdrops (.inr (.inr (by simp [Symbol.commentIsFrom?, hcomment])))
  · intro h
    simp [apply, h]

theorem again (s : Symbol) (c : Change) : apply (apply s c) c = apply s c := by
  cases c with
  | relate | implement | constrain =>
    exact apply_eq_self_of_holds rfl rfl ((holds_apply _).mpr (.inr rfl))
  | nameTarget sel id name =>
    refine congrArg (fun relations => { s with relations }) ((KeyMap.alter_alter_self ..).trans ?_)
    simp [KeyMap.insert, KeyMap.alter_alter_self]
  | nameRequirement sel id name =>
    refine congrArg (fun implementations => { s with implementations })
      ((KeyMap.alter_alter_self ..).trans ?_)
    simp [KeyMap.insert, KeyMap.alter_alter_self]
  | require | setOrigin => rfl
  | dropComment originModule o =>
    rw [dropComment_eq_self_iff]
    by_cases h : s.KeepsComment originModule o
    · exact keepsComment_apply h _
    · exact .inr (.inr (by simp [apply, h, Symbol.commentIsFrom?]))

theorem settled {c : Change} (hc : c.settles = true) (hs : apply s c = s) (d : Change) :
    apply (apply s d) c = apply s d := by
  have hlisted : ∀ f, c.fact? = some f → apply (apply s d) c = apply s d := by
    intro f hf
    have hholds : s.Holds f := hs ▸ (holds_apply c).mpr (.inr hf)
    exact apply_eq_self_of_holds hc hf ((holds_apply d).mpr (.inl hholds))
  cases c with
  | relate | implement | constrain => exact hlisted _ rfl
  | dropComment originModule o =>
    exact dropComment_eq_self_iff.mpr (keepsComment_apply (dropComment_eq_self_iff.mp hs) d)
  | nameTarget | nameRequirement | require | setOrigin => cases hc

/-- A change that does not meet with another one need not be made before it. -/
theorem replaced_of_comm {c d : Change} (h : ∀ s, apply (apply s c) d = apply (apply s d) c)
    (s : Symbol) : apply (apply (apply s c) d) c = apply (apply s d) c := by
  rw [h, again]

theorem replaced (s : Symbol) {c d : Change} (hc : c.settles = false) (hd : d.settles = false) :
    apply (apply (apply s c) d) c = apply (apply s d) c := by
  have hnames : ∀ (names : Fallbacks) (id id' name name' : String),
      ((names.insert id name).insert id' name').insert id name =
        (names.insert id' name').insert id name :=
    fun names id id' _ _ => names.alter_replaced id id' (fun _ => rfl) fun _ => rfl
  cases c with
  | relate | implement | constrain | dropComment => cases hc
  | nameTarget sel id name =>
    cases d with
    | relate | implement | constrain | dropComment => cases hd
    | nameTarget sel' id' name' =>
      refine congrArg (fun relations => { s with relations }) (KeyMap.alter_replaced _ _ _ ?_ ?_)
      · simp [KeyMap.insert, KeyMap.alter_alter_self]
      · simp [hnames]
    | nameRequirement | require | setOrigin =>
      refine replaced_of_comm ?_ s
      exact fun _ => rfl
  | nameRequirement sel id name =>
    cases d with
    | relate | implement | constrain | dropComment => cases hd
    | nameRequirement sel' id' name' =>
      refine congrArg (fun implementations => { s with implementations })
        (KeyMap.alter_replaced _ _ _ ?_ ?_)
      · simp [KeyMap.insert, KeyMap.alter_alter_self]
      · simp [hnames]
    | nameTarget | require | setOrigin =>
      refine replaced_of_comm ?_ s
      exact fun _ => rfl
  | require | setOrigin => cases d <;> rfl

/-- Lists and names of one section do not meet, nor do different parts of a symbol. -/
theorem comm (s : Symbol) {c d : Change} (hc : c.settles = true) (hd : d.settles = false) :
    apply (apply s d) c = apply (apply s c) d := by
  cases c with
  | nameTarget | nameRequirement | require | setOrigin => cases hc
  | relate sel r =>
    cases d with
    | relate | implement | constrain | dropComment => cases hd
    | nameTarget sel' id name =>
      refine congrArg (fun relations => { s with relations }) (KeyMap.alter_comm _ _ _ ?_)
      exact fun _ => rfl
    | nameRequirement | require | setOrigin => rfl
  | implement sel i =>
    cases d with
    | relate | implement | constrain | dropComment => cases hd
    | nameRequirement sel' id name =>
      refine congrArg (fun implementations => { s with implementations }) (KeyMap.alter_comm _ _ _ ?_)
      exact fun _ => rfl
    | nameTarget | require | setOrigin => rfl
  | constrain | dropComment =>
    cases d with
    | relate | implement | constrain | dropComment => cases hd
    | nameTarget | nameRequirement | require | setOrigin => rfl

theorem stable : Stable apply settles := ⟨again, settled, replaced, comm⟩

end Change

/-- Pages under pages settle. -/
theorem TopicGraph.stable_put : Stable TopicGraph.put fun _ => true where
  again := by
    intro g e
    by_cases h : g.admits e = true
    · rw [put_of_admits ((g.admits_put e e).trans h), put_of_admits h]
      refine congrArg (TopicGraph.mk · g.nodes) ((KeyMap.alter_alter_self ..).trans ?_)
      simp [KeySet.add, KeyMap.insert, KeyMap.alter_alter_self]
    · rw [put_of_not_admits h, put_of_not_admits h]
  settled := by
    intro g e _ hg e'
    rw [put_comm, hg]
  replaced := by
    intro g e e' h
    cases h
  comm := by
    intro g e e' _ h
    cases h

/-! ## Merging twice -/

theorem Plan.model_model (p : Plan) (m : Model) : p.model (p.model m) = p.model m := by
  have hsymbol : ∀ s : Symbol, (s.changed (changesOf s.id p.changes)).changed
      (changesOf (s.changed (changesOf s.id p.changes)).id p.changes) =
        s.changed (changesOf s.id p.changes) := by
    intro s
    rw [Symbol.id_changed]
    exact Change.stable.foldl_twice _ s
  simp only [model, SymbolStore.withSymbols, List.map_map, Function.comp_def, hsymbol,
    TopicGraph.stable_put.foldl_twice]

/-- Merging the same edges again changes nothing and reports the same problems. -/
theorem Model.mergeAll_mergeAll (extended : ExtendedModules) (o : MergeOptions) (sel : Selector)
    (edges : List Edge) (m : Model) :
    (m.mergeAll extended o sel edges).1.mergeAll extended o sel edges =
      m.mergeAll extended o sel edges := by
  obtain ⟨merge, -, hplan⟩ := exists_mergeAll_plan extended o sel m
  rw [hplan edges m (.refl m), Plan.run, hplan edges _ (like_plan _ m), Plan.run, Plan.model_model]

end SymbolLinks
