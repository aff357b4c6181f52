import Mathlib.Data.List.Forall2
import SymbolLinks.Link.Basic
import SymbolLinks.Proofs.LinkComponents

/-! The text of a link and its components. A link is cut at its slashes
(`pieces_eq_iff`), and each component knows the place of its text. So another text
in the place of one component changes that component, and of those behind it the places
only (`Place`). A link that is not absolute has to start as before for that, as it does if
only the suffix of a component is rewritten (`Place.rewrite`). -/
namespace SymbolLinks

/-! ## Pieces -/

namespace Text

variable {sep : Char}

theorem pieces_of_not_mem {cs : List Char} (h : sep ∉ cs) : pieces sep cs = [cs] := by
  induction cs with
  | nil => rfl
  | cons c cs ih =>
    obtain ⟨hc, hcs⟩ := not_or.mp (mt List.mem_cons.mpr h)
    simp only [pieces, if_neg (Ne.symm hc), ih hcs]

theorem pieces_append {before : List Char} (h : sep ∉ before) (after : List Char) :
    pieces sep (before ++ sep :: after) = before :: pieces sep after := by
  induction before with
  | nil => simp [pieces]
  | cons c before ih =>
    obtain ⟨hc, hcs⟩ := not_or.mp (mt List.mem_cons.mpr h)
    simp only [List.cons_append, pieces, if_neg (Ne.symm hc), ih hcs]

/-- The pieces, with separators between them, make up the text. -/
theorem exists_pieces (sep : Char) (cs : List Char) : ∃ first rest,
    pieces sep cs = first :: rest ∧ cs = first ++ rest.flatMap (sep :: ·) ∧
      ∀ p ∈ first :: rest, sep ∉ p := by
  induction cs with
  | nil => exact ⟨[], [], rfl, rfl, by simp⟩
  | cons c cs ih =>
    obtain ⟨first, rest, hpieces, hcs, hsep⟩ := ih
    by_cases hc : c = sep
    · refine ⟨[], first :: rest, by simp [pieces, hc, hpieces], by simp [hc, ← hcs], ?_⟩
      intro p hp
      rcases List.mem_cons.mp hp with rfl | hp
      · simp
      · exact hsep p hp
    · refine ⟨c :: first, rest, by simp [pieces, hc, hpieces], by simp [← hcs], ?_⟩
      intro p hp
      rcases List.mem_cons.mp hp with rfl | hp
      · simpa [Ne.symm hc] using hsep first (by simp)
      · exact hsep p (by simp [hp])

/-- Separators between pieces stand behind the ones and in front of the others. -/
theorem flatMap_separated (sep : Char) (first : List Char) (before after : List (List Char))
    (piece : List Char) : first ++ (before ++ piece :: after).flatMap (sep :: ·) =
      (first :: before).flatMap (· ++ [sep]) ++ piece ++ after.flatMap (sep :: ·) := by
  induction before generalizing first with
  | nil => simp
  | cons p before ih => simpa using ih p

theorem pieces_eq_iff {cs piece : List Char} {before after : List (List Char)} :
    pieces sep cs = before ++ piece :: after ↔
      cs = before.flatMap (· ++ [sep]) ++ piece ++ after.flatMap (sep :: ·) ∧
        ∀ p ∈ before ++ piece :: after, sep ∉ p := by
  constructor
  · intro h
    obtain ⟨first, rest, hpieces, hcs, hsep⟩ := exists_pieces sep cs
    rw [hpieces] at h
    rw [← h]
    refine ⟨?_, hsep⟩
    cases before with
    | nil =>
      obtain ⟨rfl, rfl⟩ := List.cons.inj h
      simpa using hcs
    | cons p before =>
      obtain ⟨rfl, rfl⟩ := List.cons.inj h
      rw [hcs]
      exact flatMap_separated ..
  · rintro ⟨rfl, hsep⟩
    induction before generalizing piece after with
    | nil =>
      induction after generalizing piece with
      | nil => simpa using pieces_of_not_mem (hsep piece (by simp))
      | cons q after ih =>
        have hrest : pieces sep (q ++ after.flatMap (sep :: ·)) = q :: after := by
          simpa using ih fun p hp => hsep p (List.mem_cons_of_mem piece hp)
        simpa [hrest] using
          pieces_append (hsep piece (by simp)) (q ++ after.flatMap (sep :: ·))
    | cons p before ih =>
      have hrest := ih fun q hq => hsep q (List.mem_cons_of_mem p hq)
      rw [List.cons_append, ← hrest, ← pieces_append (hsep p (by simp))]
      simp

end Text

namespace Link

/-! ## Components of pieces -/

/-- The text of some pieces with a slash behind each. -/
abbrev slashed (ps : List (List Char)) : List Char := ps.flatMap (· ++ ['/'])

theorem componentsFrom_append (offset : Nat) (xs ys : List (List Char)) :
    componentsFrom offset (xs ++ ys) =
      componentsFrom offset xs ++ componentsFrom (offset + Text.byteLength (slashed xs)) ys := by
  induction xs generalizing offset with
  | nil => simp [componentsFrom, Text.byteLength]
  | cons x xs ih =>
    have hoffset : offset + Text.byteLength (slashed (x :: xs)) =
        offset + Text.byteLength x + 1 + Text.byteLength (slashed xs) := by
      simp only [slashed, List.flatMap_cons, Text.byteLength_append]
      have hslash : Text.byteLength ['/'] = 1 := rfl
      omega
    simp only [List.cons_append, componentsFrom, ih, hoffset]
    split <;> rfl

theorem componentsFrom_cons {raw : List Char} (h : raw ≠ []) (offset : Nat)
    (ys : List (List Char)) : componentsFrom offset (raw :: ys) =
      Component.parse raw offset :: componentsFrom (offset + Text.byteLength raw + 1) ys := by
  simp [componentsFrom, h]

/-- The component of one piece among others. -/
theorem componentsFrom_middle {raw : List Char} (h : raw ≠ []) (offset : Nat)
    (xs ys : List (List Char)) : ∃ offset', componentsFrom offset (xs ++ raw :: ys) =
      componentsFrom offset xs ++
        Component.parse raw (offset + Text.byteLength (slashed xs)) :: componentsFrom offset' ys :=
  ⟨_, by rw [componentsFrom_append, componentsFrom_cons h]⟩

/-- Where pieces start only shows in the places of their components. -/
theorem alike_componentsFrom (offset offset' : Nat) (ps : List (List Char)) :
    List.Forall₂ Component.Alike (componentsFrom offset ps) (componentsFrom offset' ps) := by
  induction ps generalizing offset offset' with
  | nil => exact .nil
  | cons p ps ih =>
    simp only [componentsFrom]
    split
    · exact ih _ _
    · exact .cons (Component.alike_parse p offset offset') (ih _ _)

/-- Every component comes from one of the pieces, at the place of that piece. -/
theorem exists_piece {offset k : Nat} {ps : List (List Char)} {c : Component}
    (h : (componentsFrom offset ps)[k]? = some c) : ∃ xs raw ys, ps = xs ++ raw :: ys ∧ raw ≠ [] ∧
      (componentsFrom offset xs).length = k ∧
      c = Component.parse raw (offset + Text.byteLength (slashed xs)) := by
  induction ps generalizing offset k with
  | nil => simp [componentsFrom] at h
  | cons p ps ih =>
    have hslash : Text.byteLength ['/'] = 1 := rfl
    have hshift : ∀ xs, offset + Text.byteLength p + 1 + Text.byteLength (slashed xs) =
        offset + Text.byteLength (slashed (p :: xs)) := by
      intro xs
      simp only [slashed, List.flatMap_cons, Text.byteLength_append]
      omega
    by_cases hp : p = []
    · simp only [componentsFrom, hp, List.isEmpty_nil, if_true] at h
      obtain ⟨xs, raw, ys, rfl, hne, hk, hc⟩ := ih h
      refine ⟨p :: xs, raw, ys, rfl, hne, ?_, ?_⟩
      · simpa [componentsFrom, hp] using hk
      · rw [hc, ← hshift, hp]
    · rw [componentsFrom_cons hp] at h
      cases k with
      | zero =>
        simp only [List.getElem?_cons_zero, Option.some.injEq] at h
        exact ⟨[], p, ps, rfl, hp, rfl, h.symm⟩
      | succ k =>
        simp only [List.getElem?_cons_succ] at h
        obtain ⟨xs, raw, ys, rfl, hne, hk, hc⟩ := ih h
        refine ⟨p :: xs, raw, ys, rfl, hne, ?_, ?_⟩
        · rw [componentsFrom_cons hp, List.length_cons, hk]
        · rw [hc, ← hshift]

/-! ## Starts of links -/

theorem after?_eq_some_iff {start cs rest : List Char} :
    after? start cs = some rest ↔ cs = start ++ rest := by
  fun_induction after? start cs with
  | case1 cs => simp [eq_comm]
  | case2 => simp
  | case3 p start cs ih => simpa using ih
  | case4 p start c cs hne => simp [Ne.symm hne]

theorem after?_eq_none {start cs : List Char} (h : ¬ start <+: cs) : after? start cs = none := by
  cases hafter : after? start cs with
  | none => rfl
  | some rest => exact absurd ⟨rest, (after?_eq_some_iff.mp hafter).symm⟩ h

theorem pathStart_bundle {host : List Char} (h : '/' ∉ host) (path : List Char) :
    pathStart ("doc://".toList ++ host ++ '/' :: path) =
      .ok (Text.byteLength ("doc://".toList ++ host), true, '/' :: path) := by
  have hafter : after? "doc://".toList ("doc://".toList ++ host ++ '/' :: path) =
      some (host ++ '/' :: path) := after?_eq_some_iff.mpr (by simp)
  have hdoc : Text.byteLength "doc://".toList = 6 := rfl
  simp only [pathStart, hafter, Text.takeWhile_ne_append h, List.drop_left, Text.byteLength_append,
    hdoc]

theorem pathStart_scheme {rest : List Char} (h : ¬ ['/', '/'] <+: rest) :
    pathStart ("doc:".toList ++ rest) = .ok (4, false, rest) := by
  have hbundle : after? "doc://".toList ("doc:".toList ++ rest) = none :=
    after?_eq_none fun hpre => h ((List.prefix_append_right_inj "doc:".toList).mp hpre)
  have hafter : after? "doc:".toList ("doc:".toList ++ rest) = some rest :=
    after?_eq_some_iff.mpr rfl
  simp only [pathStart, hbundle, hafter]

theorem pathStart_plain {cs : List Char} (h : ¬ "doc:".toList <+: cs) :
    pathStart cs = .ok (0, false, cs) := by
  have hbundle : after? "doc://".toList cs = none :=
    after?_eq_none fun hpre => h (.trans ⟨['/', '/'], rfl⟩ hpre)
  simp only [pathStart, hbundle, after?_eq_none h]

theorem pathStart_bundleOnly {host : List Char} (h : '/' ∉ host) :
    pathStart ("doc://".toList ++ host) = .error .noPathAfterBundle := by
  have hafter : after? "doc://".toList ("doc://".toList ++ host) = some host :=
    after?_eq_some_iff.mpr rfl
  simp only [pathStart, hafter, Text.takeWhile_ne_eq_self h, List.drop_length]

/-- What stands in front of the path of a link, and whether it names a bundle. -/
inductive Leads : List Char → Bool → List Char → Prop where
  | bundle {host path : List Char} : '/' ∉ host →
      Leads ("doc://".toList ++ host) true ('/' :: path)
  | scheme {rest : List Char} : ¬ ['/', '/'] <+: rest → Leads "doc:".toList false rest
  | bare {rest : List Char} : ¬ "doc:".toList <+: rest → Leads [] false rest

theorem Leads.pathStart {start rest : List Char} {hasBundle : Bool} (h : Leads start hasBundle rest) :
    pathStart (start ++ rest) = .ok (Text.byteLength start, hasBundle, rest) := by
  cases h with
  | bundle hhost => exact pathStart_bundle hhost _
  | scheme hrest => exact pathStart_scheme hrest
  | bare hrest => exact pathStart_plain hrest

theorem Leads.head? {start rest : List Char} (h : Leads start true rest) :
    rest.head? = some '/' := by
  cases h
  rfl

/-- A text has a path, or it ends in the name of a bundle. -/
theorem bundleOnly_or_leads (cs : List Char) :
    (∃ host, cs = "doc://".toList ++ host ∧ '/' ∉ host) ∨
      ∃ start hasBundle rest, cs = start ++ rest ∧ Leads start hasBundle rest := by
  by_cases hbundle : "doc://".toList <+: cs
  · obtain ⟨rest, rfl⟩ := hbundle
    by_cases hslash : '/' ∈ rest
    · obtain ⟨host, path, rfl, hhost⟩ := List.eq_append_cons_of_mem hslash
      exact .inr ⟨_, true, _, (List.append_assoc ..).symm, .bundle hhost⟩
    · exact .inl ⟨rest, rfl, hslash⟩
  · by_cases hscheme : "doc:".toList <+: cs
    · obtain ⟨path, rfl⟩ := hscheme
      have hslashes : ¬ ['/', '/'] <+: path := fun hpre =>
        hbundle ((List.prefix_append_right_inj "doc:".toList).mpr hpre)
      exact .inr ⟨_, false, path, rfl, .scheme hslashes⟩
    · exact .inr ⟨[], false, cs, rfl, .bare hscheme⟩

theorem leads_of_pathStart {cs rest : List Char} {offset : Nat} {hasBundle : Bool}
    (h : pathStart cs = .ok (offset, hasBundle, rest)) :
    ∃ start, cs = start ++ rest ∧ offset = Text.byteLength start ∧ Leads start hasBundle rest := by
  obtain ⟨host, rfl, hhost⟩ | ⟨start, hasBundle', rest', rfl, hleads⟩ := bundleOnly_or_leads cs
  · rw [pathStart_bundleOnly hhost] at h
    cases h
  · rw [hleads.pathStart] at h
    cases h
    exact ⟨start, rfl, rfl, hleads⟩

/-- The parts of two links behind the same start can both be paths. -/
structure StartsAlike (rest rest' : List Char) : Prop where
  head : rest'.head? = rest.head?
  slashes : ['/', '/'] <+: rest' → ['/', '/'] <+: rest
  scheme : "doc:".toList <+: rest' → "doc:".toList <+: rest

/-- Another path can take the place of the one that a link leads to. -/
theorem Leads.congr {start rest rest' : List Char} {hasBundle : Bool}
    (h : Leads start hasBundle rest) (alike : StartsAlike rest rest') :
    Leads start hasBundle rest' := by
  cases h with
  | bundle hhost =>
    obtain ⟨path', rfl⟩ := List.head?_eq_some_iff.mp alike.head
    exact .bundle hhost
  | scheme hrest => exact .scheme (mt alike.slashes hrest)
  | bare hrest => exact .bare (mt alike.scheme hrest)

/-- A text that can only follow a part of a link if that part is over. -/
def Closes (cs : List Char) : Prop := ∀ c, cs.head? = some c → c = '-' ∨ c = '/' ∨ c = '#'

theorem Closes.append {xs ys : List Char} (hx : Closes xs) (hy : Closes ys) : Closes (xs ++ ys) := by
  cases xs with
  | nil => exact hy
  | cons x xs => exact hx

theorem closes_cons {c : Char} (cs : List Char) (h : c = '-' ∨ c = '/' ∨ c = '#') :
    Closes (c :: cs) := by
  intro c' hc'
  cases hc'
  exact h

/-- A start that reaches past a part that is over is the part's own. -/
theorem prefix_of_closes {start part rest : List Char} (h : start <+: part ++ rest)
    (hrest : Closes rest) (hstart : '-' ∉ start ∧ '/' ∉ start ∧ '#' ∉ start) : start <+: part := by
  rcases List.prefix_or_prefix_of_prefix h (List.prefix_append part rest) with hpre | hpre
  · exact hpre
  · obtain ⟨more, rfl⟩ := hpre
    cases more with
    | nil => simp
    | cons c more =>
      obtain ⟨rest', rfl⟩ := (List.prefix_append_right_inj part).mp h
      rcases hrest c rfl with rfl | rfl | rfl <;> simp at hstart

/-- What stands behind a name decides nothing about how the link starts. -/
theorem StartsAlike.of_closes {name ys : List Char} (hne : name ≠ []) (hname : '/' ∉ name)
    (hy : Closes ys) (before xs : List Char) :
    StartsAlike (before ++ name ++ xs) (before ++ name ++ ys) := by
  have hpart : before ++ name ≠ [] := by simp [hne]
  obtain ⟨c, part, hcons⟩ := List.exists_cons_of_ne_nil hpart
  refine ⟨by rw [hcons]; rfl, ?_, ?_⟩
  · intro hpre
    cases part with
    | nil =>
      -- The name is all there is, and it has no slash.
      have hc : c ∈ name := by
        obtain ⟨a, name, rfl⟩ := List.exists_cons_of_ne_nil hne
        obtain ⟨-, hcs⟩ | ⟨-, hcs⟩ := List.append_eq_singleton_iff.mp hcons
        · simp [hcs]
        · cases hcs
      rw [hcons] at hpre
      obtain ⟨rfl, -⟩ := List.cons_prefix_cons.mp hpre
      exact absurd hc hname
    | cons d part =>
      rw [hcons] at hpre ⊢
      obtain ⟨rfl, hrest⟩ := List.cons_prefix_cons.mp hpre
      obtain ⟨rfl, -⟩ := List.cons_prefix_cons.mp hrest
      exact ⟨part ++ xs, rfl⟩
  · intro hpre
    exact (prefix_of_closes hpre hy (by decide)).trans (List.prefix_append _ xs)

theorem head?_of_ne_nil {raw : List Char} (h : raw ≠ []) (before xs ys : List Char) :
    (before ++ raw ++ xs).head? = (before ++ raw ++ ys).head? := by
  obtain ⟨c, cs, rfl⟩ := List.exists_cons_of_ne_nil h
  cases before <;> rfl

/-- A path that starts with a slash may go on with any other component. -/
theorem StartsAlike.of_slash {before raw raw' : List Char} (hbefore : before.head? = some '/')
    (hne : raw' ≠ []) (hraw' : '/' ∉ raw') (xs ys : List Char) :
    StartsAlike (before ++ raw ++ xs) (before ++ raw' ++ ys) := by
  obtain ⟨more, rfl⟩ := List.head?_eq_some_iff.mp hbefore
  refine ⟨rfl, ?_, ?_⟩
  · intro hpre
    obtain ⟨-, hrest⟩ := List.cons_prefix_cons.mp hpre
    cases more with
    | nil =>
      obtain ⟨c, raw', rfl⟩ := List.exists_cons_of_ne_nil hne
      obtain ⟨rfl, -⟩ := List.cons_prefix_cons.mp hrest
      simp at hraw'
    | cons d more =>
      obtain ⟨rfl, -⟩ := List.cons_prefix_cons.mp hrest
      exact ⟨more ++ raw ++ xs, rfl⟩
  · intro hpre
    obtain ⟨hslash, -⟩ := List.cons_prefix_cons.mp hpre
    exact absurd hslash (by decide)

/-! ## Rewriting a component -/

/-- Whether and where `documentation` is skipped only depends on the components up to
the one of interest, unless that one is `documentation` itself. -/
theorem exists_drop {isAbsolute : Bool} {all : List Component} {i : Nat} {c : Component}
    (h : (if isAbsolute then dropDocumentation all else all)[i]? = some c) :
    ∃ d, (if isAbsolute then dropDocumentation all else all) = all.drop d ∧
      ∀ all' : List Component, all'.length = all.length → all'.take (i + d) = all.take (i + d) →
        (isAbsolute = true → i = 0 → ∀ c', all'[i + d]? = some c' → c'.full ≠ "documentation") →
        (if isAbsolute then dropDocumentation all' else all') = all'.drop d := by
  cases isAbsolute with
  | false => exact ⟨0, rfl, fun _ _ _ _ => rfl⟩
  | true =>
    match all, h with
    | [only], _ =>
      refine ⟨0, rfl, fun all' hlength _ _ => ?_⟩
      obtain ⟨only', rfl⟩ := List.length_eq_one_iff.mp hlength
      rfl
    | first :: second :: rest, _ =>
      by_cases hfirst : first.full = "documentation"
      · refine ⟨1, by simp [dropDocumentation, hfirst], fun all' hlength htake _ => ?_⟩
        match all', hlength with
        | first' :: second' :: rest', _ =>
          obtain ⟨rfl, -⟩ := List.cons.inj htake
          simp [dropDocumentation, hfirst]
      · refine ⟨0, by simp [dropDocumentation, hfirst], fun all' hlength htake hne => ?_⟩
        match all', hlength with
        | first' :: second' :: rest', _ =>
          have hfirst' : first'.full ≠ "documentation" := by
            cases i with
            | zero => exact hne rfl rfl first' rfl
            | succ i =>
              obtain ⟨rfl, -⟩ := List.cons.inj htake
              exact hfirst
          simp [dropDocumentation, hfirst']

/-- The link of a path at a byte of the text, which may have no components. -/
def ofPath (offset : Nat) (hasBundle : Bool) (path : List Char) : Link where
  isAbsolute := hasBundle || path.head? = some '/'
  components :=
    let all := componentsFrom offset (Text.pieces '/' path)
    if hasBundle || path.head? = some '/' then dropDocumentation all else all

/-- A fragment starts with a number sign, and none stands in front of it. -/
structure Fragment (path tail : List Char) : Prop where
  path : '#' ∉ path
  tail : ∀ c, tail.head? = some c → c = '#'

theorem exists_fragment (rest : List Char) : ∃ path tail, rest = path ++ tail ∧ Fragment path tail := by
  by_cases h : '#' ∈ rest
  · obtain ⟨path, tail, rfl, hpath⟩ := List.eq_append_cons_of_mem h
    exact ⟨path, '#' :: tail, rfl, hpath, fun c hc => by cases hc; rfl⟩
  · exact ⟨rest, [], (List.append_nil rest).symm, h, fun c hc => by cases hc⟩

theorem parse_eq {cs path tail : List Char} {offset : Nat} {hasBundle : Bool}
    (hstart : pathStart cs = .ok (offset, hasBundle, path ++ tail)) (hfragment : Fragment path tail) :
    parse (String.ofList cs) =
      if (ofPath offset hasBundle path).components.isEmpty then .error .noComponents
      else .ok (ofPath offset hasBundle path) := by
  have htake : (path ++ tail).takeWhile (· != '#') = path := by
    cases tail with
    | nil => rw [List.append_nil, Text.takeWhile_ne_eq_self hfragment.path]
    | cons c tail =>
      obtain rfl := hfragment.tail c rfl
      exact Text.takeWhile_ne_append hfragment.path tail
  simp only [parse, String.toList_ofList, hstart, bind, Except.bind, htake, ofPath]
  split
  · rfl
  · rfl

theorem parse_ok {authored : String} {link : Link} (h : parse authored = .ok link) :
    ∃ offset hasBundle path tail,
      pathStart authored.toList = .ok (offset, hasBundle, path ++ tail) ∧ Fragment path tail ∧
        link = ofPath offset hasBundle path ∧ link.components ≠ [] := by
  cases hstart : pathStart authored.toList with
  | error e =>
    simp only [parse, hstart, bind, Except.bind] at h
    cases h
  | ok start =>
    obtain ⟨offset, hasBundle, rest⟩ := start
    obtain ⟨path, tail, rfl, hfragment⟩ := exists_fragment rest
    rw [← String.ofList_toList (s := authored), parse_eq hstart hfragment] at h
    split at h
    · cases h
    · rename_i hne
      cases h
      exact ⟨offset, hasBundle, path, tail, rfl, hfragment, rfl, fun hnil => hne (by simp [hnil])⟩

/-- Two links that can only differ in their components from `i` on. -/
structure AgreeBefore (link link' : Link) (i : Nat) : Prop where
  isAbsolute : link'.isAbsolute = link.isAbsolute
  length : link'.components.length = link.components.length
  take : link'.components.take i = link.components.take i

/-- Two links that can only differ in their i-th components, and in the places of those
behind. -/
structure DifferAt (link link' : Link) (i : Nat) : Prop extends AgreeBefore link link' i where
  later : List.Forall₂ Component.Alike (link.components.drop (i + 1)) (link'.components.drop (i + 1))

theorem DifferAt.alike {link link' : Link} {i j : Nat} (h : DifferAt link link' i) (hj : j ≠ i)
    {c c' : Component} (hc : link.components[j]? = some c) (hc' : link'.components[j]? = some c') :
    c.Alike c' := by
  rcases Nat.lt_or_gt_of_ne hj with hlt | hgt
  · have htake := congrArg (·[j]?) h.take
    simp only [List.getElem?_take_of_lt hlt, hc, hc'] at htake
    cases htake
    exact .refl c
  · obtain ⟨k, rfl⟩ := Nat.exists_eq_add_of_lt hgt
    have hj : i + k + 1 = i + 1 + k := by omega
    rw [hj, ← List.getElem?_drop] at hc hc'
    obtain ⟨hk, rfl⟩ := List.getElem?_eq_some_iff.mp hc
    obtain ⟨hk', rfl⟩ := List.getElem?_eq_some_iff.mp hc'
    exact (List.forall₂_iff_get.mp h.later).2 k hk hk'

/-- A component comes from a piece of the path, and another piece in that place leaves
the components around it alone. -/
theorem exists_piece_ofPath {offset i : Nat} {hasBundle : Bool} {path : List Char} {c : Component}
    (hc : (ofPath offset hasBundle path).components[i]? = some c) : ∃ xs raw ys,
      Text.pieces '/' path = xs ++ raw :: ys ∧ raw ≠ [] ∧
      c = Component.parse raw (offset + Text.byteLength (slashed xs)) ∧
      ∀ path' raw', Text.pieces '/' path' = xs ++ raw' :: ys → raw' ≠ [] →
        path'.head? = path.head? →
        ((ofPath offset hasBundle path).isAbsolute = true → i = 0 →
          (Component.parse raw' (offset + Text.byteLength (slashed xs))).full ≠ "documentation") →
        DifferAt (ofPath offset hasBundle path) (ofPath offset hasBundle path') i ∧
          (ofPath offset hasBundle path').components[i]? =
            some (Component.parse raw' (offset + Text.byteLength (slashed xs))) := by
  obtain ⟨d, hdrop, hother⟩ := exists_drop hc
  have hall := hc
  simp only [ofPath] at hall
  rw [hdrop, List.getElem?_drop] at hall
  obtain ⟨xs, raw, ys, hpieces, hne, hlength, rfl⟩ := exists_piece hall
  refine ⟨xs, raw, ys, hpieces, hne, rfl, fun path' raw' hpieces' hne' hhead hdoc => ?_⟩
  obtain ⟨offset₁, hmiddle⟩ := componentsFrom_middle hne offset xs ys
  obtain ⟨offset₂, hmiddle'⟩ := componentsFrom_middle hne' offset xs ys
  have htake : ∀ k ≤ d + i, (componentsFrom offset (Text.pieces '/' path')).take k =
      (componentsFrom offset (Text.pieces '/' path)).take k := by
    intro k hk
    rw [hpieces, hpieces', hmiddle, hmiddle', List.take_append_of_le_length (by omega),
      List.take_append_of_le_length (by omega)]
  have hcount : (componentsFrom offset (Text.pieces '/' path')).length =
      (componentsFrom offset (Text.pieces '/' path)).length := by
    rw [hpieces, hpieces', hmiddle, hmiddle']
    simp [(alike_componentsFrom offset₁ offset₂ ys).length_eq]
  have hcomponent : (componentsFrom offset (Text.pieces '/' path'))[d + i]? =
      some (Component.parse raw' (offset + Text.byteLength (slashed xs))) := by
    rw [hpieces', hmiddle', ← hlength]
    simp
  have hdrop' := hother (componentsFrom offset (Text.pieces '/' path')) hcount
    (htake _ (by omega)) ?_
  · have habs : (ofPath offset hasBundle path').isAbsolute = (ofPath offset hasBundle path).isAbsolute := by
      simp only [ofPath, hhead]
    have hcomponents : (ofPath offset hasBundle path').components =
        (componentsFrom offset (Text.pieces '/' path')).drop d := by
      rw [← hdrop']
      simp only [ofPath, hhead]
    have hcomponents₀ : (ofPath offset hasBundle path).components =
        (componentsFrom offset (Text.pieces '/' path)).drop d := hdrop
    refine ⟨⟨⟨habs, ?_, ?_⟩, ?_⟩, ?_⟩
    · rw [hcomponents, hcomponents₀, List.length_drop, List.length_drop, hcount]
    · rw [hcomponents, hcomponents₀, List.take_drop, List.take_drop, htake _ (by omega)]
    · rw [hcomponents, hcomponents₀, List.drop_drop, List.drop_drop, ← Nat.add_assoc, ← hlength,
        hpieces, hpieces', hmiddle, hmiddle', List.drop_length_add_append, List.drop_length_add_append]
      exact alike_componentsFrom offset₁ offset₂ ys
    · rw [hcomponents, List.getElem?_drop, hcomponent]
  · intro habs hi c' hc'
    rw [Nat.add_comm, hcomponent] at hc'
    cases hc'
    exact hdoc habs hi

/-- Two texts with a part in common that is over where they differ. -/
def SharesStart (raw raw' : List Char) : Prop :=
  ∃ part xs ys, raw = part ++ xs ∧ raw' = part ++ ys ∧ part ≠ [] ∧ Closes ys

/-- One component of a link, and the text in front of it and behind it. Another text may
stand there, which leaves the components around it alone. If the link is not absolute, its
start could be read in another way, unless the component starts as before. -/
structure Place (link : Link) (i : Nat) (before raw after : List Char) : Prop where
  ne_nil : raw ≠ []
  slash : '/' ∉ raw
  hash : '#' ∉ raw
  component : link.components[i]? = some (Component.parse raw (Text.byteLength before))
  replace : ∀ raw', raw' ≠ [] → '/' ∉ raw' → '#' ∉ raw' →
    (link.isAbsolute = false → SharesStart raw raw') →
    (link.isAbsolute = true → i = 0 →
      (Component.parse raw' (Text.byteLength before)).full ≠ "documentation") →
    ∃ link', parse (String.ofList (before ++ raw' ++ after)) = .ok link' ∧
      DifferAt link link' i ∧
      link'.components[i]? = some (Component.parse raw' (Text.byteLength before))

/-- The suffix of a component may be rewritten. -/
theorem Place.rewrite {link : Link} {i : Nat} {before raw after : List Char}
    (h : link.Place i before raw after) (name suffix suffix' : List Char)
    (hraw : raw = name ++ suffix) (hname : name ≠ []) (hcloses : Closes suffix')
    (hslash : '/' ∉ suffix') (hhash : '#' ∉ suffix')
    (hdoc : link.isAbsolute = true → i = 0 →
      (Component.parse (name ++ suffix') (Text.byteLength before)).full ≠ "documentation") :
    ∃ link', parse (String.ofList (before ++ (name ++ suffix') ++ after)) = .ok link' ∧
      DifferAt link link' i ∧
      link'.components[i]? = some (Component.parse (name ++ suffix') (Text.byteLength before)) := by
  have hlack : ∀ c : Char, c ∉ raw → c ∉ suffix' → c ∉ name ++ suffix' := by
    intro c hc hc'
    rw [hraw, List.mem_append, not_or] at hc
    rw [List.mem_append, not_or]
    exact ⟨hc.1, hc'⟩
  exact h.replace _ (by simp [hname]) (hlack _ h.slash hslash) (hlack _ h.hash hhash)
    (fun _ => ⟨name, suffix, suffix', hraw, rfl, hname, hcloses⟩) hdoc

theorem closes_slashes {tail : List Char} (htail : ∀ c, tail.head? = some c → c = '#')
    (after : List (List Char)) : Closes (after.flatMap ('/' :: ·) ++ tail) := by
  cases after with
  | nil => exact fun c hc => .inr (.inr (htail c hc))
  | cons p after => exact closes_cons _ (.inr (.inl rfl))

/-- The texts in front of a component and the component start alike, with another one in its
place. -/
theorem startsAlike_replaced {offset : Nat} {hasBundle : Bool} {xs ys : List (List Char)}
    {raw raw' tail : List Char} (hne : raw ≠ []) (hslash : '/' ∉ raw) (hne' : raw' ≠ [])
    (hslash' : '/' ∉ raw') (htail : ∀ c, tail.head? = some c → c = '#')
    (hbundle : hasBundle = true → (slashed xs ++ raw ++ ys.flatMap ('/' :: ·)).head? = some '/')
    (hstart : (ofPath offset hasBundle (slashed xs ++ raw ++ ys.flatMap ('/' :: ·))).isAbsolute =
      false → SharesStart raw raw') :
    StartsAlike (slashed xs ++ raw ++ (ys.flatMap ('/' :: ·) ++ tail))
      (slashed xs ++ raw' ++ (ys.flatMap ('/' :: ·) ++ tail)) := by
  by_cases hhead : (slashed xs).head? = some '/'
  · exact .of_slash hhead hne' hslash' _ _
  · -- Nothing in front starts with a slash, and neither does the component.
    have hpath : (slashed xs ++ raw ++ ys.flatMap ('/' :: ·)).head? ≠ some '/' := by
      obtain ⟨c, cs, rfl⟩ := List.exists_cons_of_ne_nil hne
      cases hxs : slashed xs with
      | nil =>
        intro heq
        cases heq
        simp at hslash
      | cons d ds =>
        rw [hxs] at hhead
        exact hhead
    have hrelative : (ofPath offset hasBundle
        (slashed xs ++ raw ++ ys.flatMap ('/' :: ·))).isAbsolute = false := by
      simp only [ofPath, decide_eq_false hpath, Bool.or_false]
      exact Bool.eq_false_iff.mpr fun htrue => hpath (hbundle htrue)
    obtain ⟨part, us, vs, rfl, rfl, hpart, hcloses⟩ := hstart hrelative
    have hpartSlash : '/' ∉ part := fun hmem => hslash (by simp [hmem])
    simpa using StartsAlike.of_closes hpart hpartSlash (hcloses.append (closes_slashes htail ys))
      (slashed xs) (us ++ (ys.flatMap ('/' :: ·) ++ tail))

/-- Every component of a link has a place in its text. -/
theorem exists_place {authored : String} {link : Link} (h : parse authored = .ok link) {i : Nat}
    {c : Component} (hc : link.components[i]? = some c) : ∃ before raw after,
      authored.toList = before ++ raw ++ after ∧ Place link i before raw after ∧
        c = Component.parse raw (Text.byteLength before) := by
  obtain ⟨offset, hasBundle, path, tail, hstart, hfragment, rfl, hnonempty⟩ := parse_ok h
  obtain ⟨start, hcs, rfl, hleads⟩ := leads_of_pathStart hstart
  obtain ⟨xs, raw, ys, hpieces, hne, rfl, hagree⟩ := exists_piece_ofPath hc
  obtain ⟨rfl, hslash⟩ := Text.pieces_eq_iff.mp hpieces
  rw [← Text.byteLength_append] at hc hagree ⊢
  have hpath := hfragment.path
  simp only [List.mem_append, not_or] at hpath
  have hbundle : hasBundle = true →
      (slashed xs ++ raw ++ ys.flatMap ('/' :: ·)).head? = some '/' := by
    rintro rfl
    rw [← hleads.head?, List.append_assoc _ _ tail]
    exact head?_of_ne_nil hne ..
  refine ⟨start ++ slashed xs, raw, ys.flatMap ('/' :: ·) ++ tail, by simp [hcs],
    ⟨hne, hslash raw (by simp), hpath.1.2, hc, ?_⟩, rfl⟩
  intro raw' hne' hslash' hhash' hshares hdoc
  -- The new text has the same start, and the same pieces but for one.
  have halike := startsAlike_replaced hne (hslash raw (by simp)) hne' hslash' hfragment.tail hbundle
    hshares
  have hfragment' : Fragment (slashed xs ++ raw' ++ ys.flatMap ('/' :: ·)) tail := by
    refine ⟨?_, hfragment.tail⟩
    simp only [List.mem_append, not_or]
    exact ⟨⟨hpath.1.1, hhash'⟩, hpath.2⟩
  have hpieces' : Text.pieces '/' (slashed xs ++ raw' ++ ys.flatMap ('/' :: ·)) =
      xs ++ raw' :: ys := by
    refine Text.pieces_eq_iff.mpr ⟨rfl, fun p hp => ?_⟩
    simp only [List.mem_append, List.mem_cons] at hp hslash
    rcases hp with hp | rfl | hp
    · exact hslash p (.inl hp)
    · exact hslash'
    · exact hslash p (.inr (.inr hp))
  have hhead : (slashed xs ++ raw' ++ ys.flatMap ('/' :: ·)).head? =
      (slashed xs ++ raw ++ ys.flatMap ('/' :: ·)).head? := by
    rw [head?_of_ne_nil hne _ _ (ys.flatMap ('/' :: ·) ++ tail), ← halike.head]
    exact head?_of_ne_nil hne' ..
  obtain ⟨agree, hcomponent⟩ := hagree _ _ hpieces' hne' hhead hdoc
  refine ⟨_, ?_, agree, hcomponent⟩
  have hparse := parse_eq (hleads.congr (by simpa using halike)).pathStart hfragment'
  have hcount := List.length_pos_iff.mpr hnonempty
  rw [if_neg] at hparse
  · simpa using hparse
  · rw [← agree.length, List.length_pos_iff] at hcount
    simpa using hcount

end Link

end SymbolLinks
