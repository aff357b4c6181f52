import SymbolLinks.Proofs.LinkText
import SymbolLinks.Proofs.TreeViews
import SymbolLinks.Tree.Walk

/-! Walks and their steps. A step looks up its component in one container, whatever
follows, and only the choice there may depend on the next component (`step_eq`). Another
component in the place where a walk stops leaves everything in front of it as it was, if it
looks the same from there, or if the one given could not be seen from there (`trail_again`).

In a tree whose names are plain a component stands for one name, with or without a
suffix: the name alone decides which container a step looks into, and what a look ahead
finds (`step_of_spells`, `hasChildFor_congr`). A component that moves in its link still
finds its node (`step_of_alike`). -/
namespace SymbolLinks.PathTree

open Link (Component Plain)

/-! ## Steps -/

section Lookup

variable {t : PathTree} {c : Component} {here i : NodeId} {es : List Entry} {useSuffix : Bool}

/-- The entries below a node that a component can mean, and whether its suffix applies to
them: those of the whole component, else those of its name if it has a suffix. -/
def entriesFor? (t : PathTree) (c : Component) (i : NodeId) : Option (List Entry × Bool) :=
  ((t.group? i c.full).map (·, false)).or
    (if c.suffix.isSome then (t.group? i c.name).map (·, true) else none)

/-- The entries that a step from a node chooses among, and the spelling of the node that they
are below. -/
def lookup? (t : PathTree) (c : Component) (here : NodeId) : Option (NodeId × List Entry × Bool) :=
  (t.spellingsOf here).findSome? fun i => (t.entriesFor? c i).map (i, ·)

theorem entriesFor?_eq_some_iff : t.entriesFor? c i = some (es, useSuffix) ↔
    (useSuffix = false ∧ t.group? i c.full = some es) ∨
      (useSuffix = true ∧ c.suffix.isSome = true ∧ t.group? i c.full = none ∧
        t.group? i c.name = some es) := by
  rw [entriesFor?]
  cases t.group? i c.full <;> cases t.group? i c.name <;> grind

theorem entriesFor?_of_lookup? (h : t.lookup? c here = some (i, es, useSuffix)) :
    i ∈ t.spellingsOf here ∧ t.entriesFor? c i = some (es, useSuffix) := by
  obtain ⟨j, hj, hfound⟩ := List.exists_of_findSome?_eq_some h
  obtain ⟨_, hes, heq⟩ := Option.map_eq_some_iff.mp hfound
  cases heq
  exact ⟨hj, hes⟩

theorem lookup?_eq_none_iff : t.lookup? c here = none ↔
    ∀ i ∈ t.spellingsOf here, t.entriesFor? c i = none := by
  simp [lookup?]

theorem stepAmong_eq [NameDistance] (parent : NodeId) (next : Option Component) (nodes : List NodeId) :
    t.stepAmong parent c next nodes =
      (nodes.findSome? fun i => (t.entriesFor? c i).map (i, ·)).elim
        (.error (t.missing parent c)) fun x => t.choose x.1 x.2.1 c x.2.2 next := by
  induction nodes with
  | nil => rfl
  | cons i nodes ih =>
    rw [List.findSome?_cons, entriesFor?]
    cases hn : t.node? i with
    | none => simpa [stepAmong, group?, hn] using ih
    | some n =>
      simp only [stepAmong, hn, group?_of_node? hn]
      cases n.children.get? c.full with
      | some es => rfl
      | none =>
        cases c.suffix.isSome with
        | false => exact ih
        | true =>
          cases n.children.get? c.name with
          | some es => rfl
          | none => exact ih

/-- A step chooses among the entries it looks up, which do not depend on what follows. -/
theorem step_eq [NameDistance] (next : Option Component) : t.step here c next =
    (t.lookup? c here).elim (.error (t.missing here c)) fun x => t.choose x.1 x.2.1 c x.2.2 next :=
  stepAmong_eq here next _

theorem hasChildFor_eq : t.hasChildFor c here = (t.lookup? c here).isSome := by
  rw [hasChildFor, lookup?, List.isSome_findSome?]
  congr 1
  funext i
  rw [entriesFor?, group?, group?]
  cases t.node? i with
  | none => cases c.suffix <;> rfl
  | some n => cases c.suffix <;> simp [Node.hasChild, KeyMap.contains]

/-- A step that does not miss its component finds a container for it. -/
theorem exists_group?_of_step [NameDistance] {next : Option Component}
    (h : t.step here c next ≠ .error (t.missing here c)) : ∃ i es,
      t.group? i c.full = some es ∨ (c.suffix ≠ none ∧ t.group? i c.name = some es) := by
  cases hlookup : t.lookup? c here with
  | none => exact absurd (by rw [step_eq, hlookup]; rfl) h
  | some x =>
    obtain ⟨-, hes⟩ := entriesFor?_of_lookup? hlookup
    obtain ⟨-, hfull⟩ | ⟨-, hsuffix, -, hname⟩ := entriesFor?_eq_some_iff.mp hes
    · exact ⟨_, _, .inl hfull⟩
    · exact ⟨_, _, .inr ⟨Option.isSome_iff_ne_none.mp hsuffix, hname⟩⟩

end Lookup

/-- No name in the tree has a dash or a backslash. -/
def PlainNames (t : PathTree) : Prop :=
  ∀ {p : Nat} {name : String} {es : List Entry}, t.group? p name = some es → Plain name.toList

/-- The container of a name that comes first among those of some nodes. -/
def containerAmong? (t : PathTree) (name : String) (nodes : List NodeId) :
    Option (NodeId × List Entry) :=
  nodes.findSome? fun i => (t.group? i name).map (i, ·)

theorem containerAmong?_cons (t : PathTree) (name : String) (i : NodeId) (nodes : List NodeId) :
    t.containerAmong? name (i :: nodes) =
      ((t.group? i name).map (i, ·)).or (t.containerAmong? name nodes) := by
  rw [containerAmong?, List.findSome?_cons]
  cases t.group? i name <;> rfl

/-- The container of a name that a step from a node looks into. -/
def container? (t : PathTree) (here : NodeId) (name : String) : Option (NodeId × List Entry) :=
  t.containerAmong? name (t.spellingsOf here)

theorem group?_of_container? {t : PathTree} {here i : NodeId} {name : String} {es : List Entry}
    (h : t.container? here name = some (i, es)) : t.group? i name = some es := by
  obtain ⟨j, -, hj⟩ := List.exists_of_findSome?_eq_some h
  obtain ⟨es', hes', heq⟩ := Option.map_eq_some_iff.mp hj
  cases heq
  exact hes'

theorem container?_of_alone {t : PathTree} {here : NodeId} (h : t.spellingsOf here = [here])
    (name : String) : t.container? here name = (t.group? here name).map (here, ·) := by
  rw [container?, h, containerAmong?_cons]
  exact Option.or_none

theorem spellingsOf_of_no_symbol {t : PathTree} {i : NodeId} (h : t.symbolAt? i = none) :
    t.spellingsOf i = [i] := by
  simp [spellingsOf, h]

/-! ## Steps by name -/

section Step

variable {t : PathTree} {c : Component} {name : String}

/-- A component with a suffix is as a whole no name of the tree. -/
theorem PlainNames.group?_full (h : t.PlainNames) (hc : c.Spells name) (hs : c.suffix ≠ none)
    (i : NodeId) : t.group? i c.full = none := by
  cases hg : t.group? i c.full with
  | none => rfl
  | some es => exact absurd (hc.full_dash hs) (h hg).1

theorem entriesFor?_of_spells (h : t.PlainNames) (hc : c.Spells name) (i : NodeId) :
    t.entriesFor? c i = (t.group? i name).map (·, c.suffix.isSome) := by
  rw [entriesFor?]
  cases hs : c.suffix with
  | none =>
    rw [hc.full_eq hs]
    exact Option.or_none
  | some s =>
    rw [h.group?_full hc (by simp [hs]), hc.name_eq]
    rfl

theorem lookup?_of_spells (h : t.PlainNames) (hc : c.Spells name) (here : NodeId) :
    t.lookup? c here = (t.container? here name).map fun x => (x.1, x.2, c.suffix.isSome) := by
  rw [lookup?, container?, containerAmong?, List.map_findSome?]
  congr 1
  funext i
  rw [entriesFor?_of_spells h hc, Function.comp_apply, Option.map_map, Option.map_map]
  rfl

/-- A step chooses among the entries of its name that the suffix leaves. -/
theorem step_of_spells [NameDistance] (h : t.PlainNames) (hc : c.Spells name) (here : NodeId)
    (next : Option Component) : t.step here c next =
      (t.container? here name).elim (.error (t.missing here c)) fun found =>
        t.choose found.1 found.2 c c.suffix.isSome next := by
  rw [step_eq, lookup?_of_spells h hc]
  cases t.container? here name <;> rfl

/-- Without a suffix there is none to apply. -/
theorem ite_isSome_suffix (c : Component) :
    (if c.suffix.isSome then c.suffix else none) = c.suffix := by
  cases c.suffix <;> rfl

/-- A choice that fails finds no entry, or several that the next component does not
tell apart. -/
theorem choose_error {i : NodeId} {es : List Entry} {useSuffix : Bool} {next : Option Component}
    {e : WalkError} {suffix : Option Link.Suffix}
    (hsuffix : (if useSuffix then c.suffix else none) = suffix)
    (h : t.choose i es c useSuffix next = .error e) :
    (Entry.select t suffix es = [] ∧ e = .invalidSuffix (candidates es fun _ => true) c i) ∨
      (2 ≤ (Entry.select t suffix es).length ∧
        (∀ d, next = some d →
          (((Entry.select t suffix es).map (·.node)).filter (t.hasChildFor d)).length ≠ 1) ∧
        e = .ambiguous (candidates es fun e =>
          ((Entry.select t suffix es).map (·.node)).contains e.node) c i) := by
  rw [choose, hsuffix] at h
  cases hselect : Entry.select t suffix es with
  | nil =>
    rw [hselect] at h
    cases h
    exact .inl ⟨rfl, rfl⟩
  | cons first rest =>
    cases rest with
    | nil =>
      rw [hselect] at h
      cases h
    | cons second rest =>
      rw [hselect] at h
      simp only [List.map_cons] at h ⊢
      split at h
      · cases h
      · rename_i hnarrow
        cases h
        refine .inr ⟨by simp, fun d hd hone => ?_, rfl⟩
        obtain ⟨only, honly⟩ := List.length_eq_one_iff.mp hone
        exact hnarrow only (hd ▸ honly)

/-- A node is all that is left of some nodes, at the latest once the next component is
looked at. -/
def Narrows (t : PathTree) (nodes : List NodeId) (next : Option Component) (n : NodeId) : Prop :=
  nodes = [n] ∨ ∃ d, next = some d ∧ nodes.filter (t.hasChildFor d) = [n]

theorem choose_eq_ok_iff {i n : NodeId} {es : List Entry} {useSuffix : Bool}
    {next : Option Component} : t.choose i es c useSuffix next = .ok n ↔
      t.Narrows ((Entry.select t (if useSuffix then c.suffix else none) es).map (·.node)) next n := by
  unfold choose Narrows
  generalize (Entry.select t (if useSuffix then c.suffix else none) es).map (·.node) = nodes
  match nodes with
  | [] => simp
  | [only] =>
    -- The next component is not looked at, and it could only leave this node, too.
    constructor
    · rintro ⟨⟩
      exact .inl rfl
    · rintro (⟨⟨⟩⟩ | ⟨d, -, hfilter⟩)
      · rfl
      · have hmem : n ∈ [only].filter (t.hasChildFor d) := hfilter ▸ List.mem_singleton_self n
        rw [List.mem_singleton.mp (List.mem_filter.mp hmem).1]
  | first :: second :: rest =>
    cases next with
    | none => simp
    | some d =>
      simp only [Option.elim_some, Option.some.injEq, exists_eq_left']
      constructor
      · intro h
        split at h
        · rename_i only honly
          cases h
          exact .inr honly
        · cases h
      · rintro (⟨⟨⟩⟩ | hfilter)
        rw [hfilter]

/-- Fewer nodes are narrowed to the same one, as long as it is among them. -/
theorem Narrows.of_sublist {nodes nodes' : List NodeId} {next : Option Component} {n : NodeId}
    (h : t.Narrows nodes next n) (hsub : nodes'.Sublist nodes) (hn : n ∈ nodes') :
    t.Narrows nodes' next n := by
  have honly : ∀ {xs : List NodeId}, xs.Sublist [n] → n ∈ xs → xs = [n] := by
    intro xs hxs hmem
    exact (List.sublist_singleton.mp hxs).resolve_left (List.ne_nil_of_mem hmem)
  rcases h with rfl | ⟨d, hd, hfilter⟩
  · exact .inl (honly hsub hn)
  · have hchild : n ∈ nodes.filter (t.hasChildFor d) := hfilter ▸ List.mem_singleton_self n
    refine .inr ⟨d, hd, honly (hfilter ▸ hsub.filter _) ?_⟩
    exact List.mem_filter.mpr ⟨hn, (List.mem_filter.mp hchild).2⟩

theorem Narrows.mem {nodes : List NodeId} {next : Option Component} {n : NodeId}
    (h : t.Narrows nodes next n) : n ∈ nodes := by
  rcases h with rfl | ⟨d, -, hfilter⟩
  · exact List.mem_singleton_self n
  · have hmem : n ∈ nodes.filter (t.hasChildFor d) := hfilter ▸ List.mem_singleton_self n
    exact (List.mem_filter.mp hmem).1

theorem choose_only {i : NodeId} {es : List Entry} {e : Entry}
    (h : Entry.select t c.suffix es = [e]) (next : Option Component) :
    t.choose i es c c.suffix.isSome next = .ok e.node := by
  simp only [choose, ite_isSome_suffix, h, List.map_cons, List.map_nil]

/-- A component whose suffix leaves one entry selects it, whatever follows. -/
theorem step_only [NameDistance] (h : t.PlainNames) (hc : c.Spells name) {here i : NodeId} {es : List Entry}
    (hfound : t.container? here name = some (i, es)) {e : Entry}
    (hselect : Entry.select t c.suffix es = [e]) (next : Option Component) :
    t.step here c next = .ok e.node := by
  rw [step_of_spells h hc, hfound]
  exact choose_only hselect next

/-- A look ahead only looks at the name. -/
theorem hasChildFor_of_spells (h : t.PlainNames) (hc : c.Spells name) (here : NodeId) :
    t.hasChildFor c here = (t.container? here name).isSome := by
  rw [hasChildFor_eq, lookup?_of_spells h hc, Option.isSome_map]

theorem hasChildFor_congr (h : t.PlainNames) {c' : Component} (hc : c.Spells name)
    (hc' : c'.Spells name) : t.hasChildFor c' = t.hasChildFor c := by
  funext here
  rw [hasChildFor_of_spells h hc, hasChildFor_of_spells h hc']

end Step

/-! ## Looking ahead -/

section Ahead

variable {t : PathTree} {c d d' : Component}

theorem choose_congr (h : t.hasChildFor d' = t.hasChildFor d) (i : NodeId) (es : List Entry)
    (useSuffix : Bool) :
    t.choose i es c useSuffix (some d') = t.choose i es c useSuffix (some d) := by
  simp only [choose, Option.elim_some, h]

/-- What follows a component only matters for the look ahead. -/
theorem step_congr [NameDistance] (h : t.hasChildFor d' = t.hasChildFor d) (here : NodeId) :
    t.step here c (some d') = t.step here c (some d) := by
  simp only [step_eq, choose_congr h]

/-- A step to a node that could not be told apart by what follows does not depend on it. -/
theorem step_of_not_hasChildFor [NameDistance] {here n : NodeId} (h : t.step here c (some d) = .ok n)
    (hd : t.hasChildFor d n = false) (next : Option Component) : t.step here c next = .ok n := by
  rw [step_eq] at h ⊢
  cases hlookup : t.lookup? c here with
  | none =>
    rw [hlookup] at h
    cases h
  | some x =>
    rw [hlookup] at h
    obtain honly | ⟨_, heq, hfilter⟩ := choose_eq_ok_iff.mp h
    · exact choose_eq_ok_iff.mpr (.inl honly)
    · cases heq
      have hmem : n ∈ List.filter (t.hasChildFor d) _ := hfilter ▸ List.mem_singleton_self n
      rw [(List.mem_filter.mp hmem).2] at hd
      cases hd

end Ahead

/-! ## Components at other places -/

section Alike

variable {t : PathTree} {c c' : Component}

/-- A suffix selects by what it asks for. -/
theorem select_congr {s s' : Option Link.Suffix}
    (h : s'.map Link.Suffix.asks = s.map Link.Suffix.asks) (es : List Entry) :
    Entry.select t s' es = Entry.select t s es := by
  match s, s', h with
  | none, none, _ => rfl
  | some s, some s', h =>
    obtain ⟨hhash, hkind, hlanguage⟩ :
        s'.hash = s.hash ∧ s'.kind = s.kind ∧ s'.language = s.language := by
      simpa [Link.Suffix.asks] using h
    refine List.filter_congr fun e _ => ?_
    rw [Entry.matchesSuffix, Entry.matchesSuffix, hhash, hkind, hlanguage]

theorem lookup?_of_alike (h : c.Alike c') (here : NodeId) :
    t.lookup? c' here = t.lookup? c here := by
  simp only [lookup?, entriesFor?, h.full, h.name, h.isSome_suffix]

theorem hasChildFor_of_alike (h : c.Alike c') : t.hasChildFor c' = t.hasChildFor c := by
  funext here
  rw [hasChildFor_eq, hasChildFor_eq, lookup?_of_alike h]

/-- A step that finds a node finds the same one wherever its component stands. -/
theorem step_of_alike [NameDistance] (h : c.Alike c') {here n : NodeId} {next : Option Component}
    (hstep : t.step here c next = .ok n) : t.step here c' next = .ok n := by
  rw [step_eq] at hstep ⊢
  rw [lookup?_of_alike h]
  cases hlookup : t.lookup? c here with
  | none =>
    rw [hlookup] at hstep
    cases hstep
  | some x =>
    rw [hlookup] at hstep
    have hselect : Entry.select t (if x.2.2 then c'.suffix else none) x.2.1 =
        Entry.select t (if x.2.2 then c.suffix else none) x.2.1 := by
      cases x.2.2 with
      | false => rfl
      | true => exact select_congr h.asks x.2.1
    refine choose_eq_ok_iff.mpr ?_
    rw [hselect]
    exact choose_eq_ok_iff.mp hstep

end Alike

/-! ## Where walks stop -/

variable [NameDistance]

/-- The nodes that a walk selects, one for each component until it stops. -/
def trail (t : PathTree) : NodeId → List Component → List NodeId
  | _, [] => []
  | here, c :: rest =>
    match t.step here c rest.head? with
    | .ok node => node :: t.trail node rest
    | .error _ => []

/-- The node that a walk of a link starts at. -/
def origin (t : PathTree) (link : Link) (start : Option NodeId) : NodeId :=
  match link.components with
  | first :: _ => if link.isAbsolute then root else t.relativeOrigin (start.getD root) first
  | [] => root

/-- The nodes that a link selects, one for each component until its walk stops. -/
def visited (t : PathTree) (link : Link) (start : Option NodeId) : List NodeId :=
  t.trail (t.origin link start) link.components

theorem find_eq_walkFrom (t : PathTree) (link : Link) (start : Option NodeId) :
    t.find link start = t.walkFrom (t.origin link start) link.components := rfl

/-- Another walk gets as far as one that stopped, if it differs only from the component where
that one stopped. The step in front of that component has looked ahead at it: either both
look the same, or the first could not be seen. -/
theorem trail_again {t : PathTree} {c c' : Component} (cs : List Component) :
    ∀ {here : NodeId} {cs' : List Component}, cs[(t.trail here cs).length]? = some c →
      cs'[(t.trail here cs).length]? = some c' →
      cs'.take (t.trail here cs).length = cs.take (t.trail here cs).length →
      (t.hasChildFor c' = t.hasChildFor c ∨
        t.hasChildFor c ((t.trail here cs).getLastD here) = false) →
      t.trail here cs' = t.trail here cs ++
        t.trail ((t.trail here cs).getLastD here) (cs'.drop (t.trail here cs).length) ∧
      t.walkFrom here cs' =
        t.walkFrom ((t.trail here cs).getLastD here) (cs'.drop (t.trail here cs).length) := by
  induction cs with
  | nil => intro here cs' hc; cases hc
  | cons c₀ rest ih =>
    intro here cs' hc hc' htake hahead
    cases hstep : t.step here c₀ rest.head? with
    | error e =>
      have htrail : t.trail here (c₀ :: rest) = [] := by simp [trail, hstep]
      rw [htrail]
      exact ⟨rfl, rfl⟩
    | ok node =>
      have htrail : t.trail here (c₀ :: rest) = node :: t.trail node rest := by
        simp [trail, hstep]
      rw [htrail] at hc hc' htake hahead ⊢
      cases cs' with
      | nil => cases hc'
      | cons c₁ rest' =>
        simp only [List.length_cons, List.take_succ_cons, List.cons.injEq] at htake
        obtain ⟨rfl, htake⟩ := htake
        simp only [List.length_cons, List.getElem?_cons_succ] at hc hc'
        simp only [List.getLastD_cons] at hahead ⊢
        -- The step in front of it sees another component if it stands right before it.
        have hstep' : t.step here c₁ rest'.head? = .ok node := by
          cases hk : t.trail node rest with
          | nil =>
            rw [hk] at hc hc' hahead
            rw [List.length_nil, ← List.head?_eq_getElem?] at hc hc'
            rw [hc] at hstep
            rw [hc']
            rcases hahead with hsame | hunseen
            · exact (step_congr hsame here).trans hstep
            · exact step_of_not_hasChildFor hstep hunseen _
          | cons _ _ =>
            have hhead := congrArg List.head? htake
            simp only [hk, List.length_cons, List.head?_take, Nat.add_one_ne_zero, if_false] at hhead
            rw [hhead]
            exact hstep
        obtain ⟨hnext, hwalk⟩ := ih hc hc' htake hahead
        refine ⟨?_, ?_⟩
        · simp [trail, hstep', hnext]
        · simpa [walkFrom, hstep', bind, Except.bind] using hwalk

/-- The component that a failed walk stops at, and the node that it stops below. -/
structure WalkStops (t : PathTree) (here : NodeId) (cs : List Component) (e : WalkError)
    (c : Component) (below : NodeId) : Prop where
  component : cs[(t.trail here cs).length]? = some c
  below_eq : (t.trail here cs).getLastD here = below
  step : t.step below c cs[(t.trail here cs).length + 1]? = .error e

theorem exists_walkStops {t : PathTree} {e : WalkError} (cs : List Component) :
    ∀ {here : NodeId}, t.walkFrom here cs = .error e → ∃ c below, WalkStops t here cs e c below := by
  induction cs with
  | nil => intro here h; cases h
  | cons c rest ih =>
    intro here h
    cases hstep : t.step here c rest.head? with
    | error e' =>
      simp only [walkFrom, hstep, bind, Except.bind] at h
      cases h
      have htrail : t.trail here (c :: rest) = [] := by simp [trail, hstep]
      refine ⟨c, here, ?_, ?_, ?_⟩
      · rw [htrail]
        rfl
      · rw [htrail]
        rfl
      · rw [htrail, ← hstep]
        cases rest <;> rfl
    | ok node =>
      simp only [walkFrom, hstep, bind, Except.bind] at h
      obtain ⟨d, below, hstops⟩ := ih h
      have htrail : t.trail here (c :: rest) = node :: t.trail node rest := by
        simp [trail, hstep]
      refine ⟨d, below, ?_, ?_, ?_⟩
      · rw [htrail]
        exact hstops.component
      · rw [htrail, List.getLastD_cons]
        exact hstops.below_eq
      · rw [htrail]
        exact hstops.step

section Stops

variable {t : PathTree} {here below : NodeId} {cs cs' : List Component} {e : WalkError}
  {c c' : Component}

theorem WalkStops.start (h : WalkStops t here cs e c below) (hnil : t.trail here cs = []) :
    below = here := by
  rw [← h.below_eq, hnil]
  rfl

/-- Another component in the place where a walk stopped, if it selects a node there and looks
the same from in front of it. -/
theorem WalkStops.retry (h : WalkStops t here cs e c below) {n : NodeId}
    (htake : cs'.take (t.trail here cs).length = cs.take (t.trail here cs).length)
    (hc' : cs'[(t.trail here cs).length]? = some c') (hahead : t.hasChildFor c' = t.hasChildFor c)
    (hn : ∀ next, t.step below c' next = .ok n) :
    (t.trail here cs')[(t.trail here cs).length]? = some n := by
  obtain ⟨htrail, -⟩ := trail_again cs h.component hc' htake (.inl hahead)
  rw [htrail, h.below_eq, List.getElem?_append_right (Nat.le_refl _), Nat.sub_self]
  rw [← List.head?_drop] at hc'
  cases hdrop : cs'.drop (t.trail here cs).length with
  | nil =>
    rw [hdrop] at hc'
    cases hc'
  | cons _ rest =>
    rw [hdrop] at hc'
    cases hc'
    simp [trail, hn]

end Stops

end SymbolLinks.PathTree
