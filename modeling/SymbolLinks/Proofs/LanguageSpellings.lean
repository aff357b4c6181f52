import SymbolLinks.Proofs.PageUniqueness
import SymbolLinks.Proofs.WalkOutcomes

/-! A symbol that two languages spell differently has several nodes, and a link may go
through any of them. A walk looks below the node it stands on first, so the way in could
matter. It does not if only one node of the symbol offers the next component: that node is
then the only one that a step can look into, from wherever it starts. -/
namespace SymbolLinks.PathTree

open Link (Component)

variable {t : PathTree} {a b i : NodeId} {c : Component}

theorem SameSymbol.of_symbols {id : String} (ha : t.symbolAt? a = some id)
    (hb : t.symbolAt? b = some id) : t.SameSymbol a b :=
  .inr ⟨id, ha, hb⟩

theorem SameSymbol.symbolAt? {id : String} (h : t.SameSymbol a b) (ha : t.symbolAt? a = some id) :
    t.symbolAt? b = some id := by
  obtain rfl | ⟨id', ha', hb⟩ := h
  · exact ha
  · cases ha'.symm.trans ha
    exact hb

/-- A step looks into the only spelling of its node that offers the component. -/
theorem lookup?_of_only (h : Snapshot.Restorable t) (hi : t.SameSymbol a i)
    (honly : ∀ j, t.SameSymbol a j → t.Offers j c → j = i) :
    t.lookup? c a = (t.entriesFor? c i).map (i, ·) := by
  cases hlookup : t.lookup? c a with
  | none =>
    rw [lookup?_eq_none_iff.mp hlookup i ((mem_spellingsOf_iff h).mpr hi)]
    rfl
  | some found =>
    obtain ⟨j, es, useSuffix⟩ := found
    obtain ⟨hj, hes⟩ := entriesFor?_of_lookup? hlookup
    have hji : j = i := by
      refine honly j ((mem_spellingsOf_iff h).mp hj) (isSome_entriesFor?_iff.mp ?_)
      rw [hes]
      rfl
    rw [← hji, hes]
    rfl

/-- The result of a step that looks somewhere does not depend on where it started. -/
theorem step_eq_of_lookup?_eq (h : t.lookup? c a = t.lookup? c b)
    (hsome : (t.lookup? c a).isSome = true) (next : Option Component) :
    t.step a c next = t.step b c next := by
  obtain ⟨found, hfound⟩ := Option.isSome_iff_exists.mp hsome
  rw [step_eq, step_eq, ← h, hfound]
  rfl

/-- Either spelling leads to the same answer. If one node of a symbol offers the first
component, and no other node of this symbol does, then walks of the components from any two
of its nodes end alike: at the same node, or with the same error. -/
theorem walkFrom_eq_of_one_offer
    (origin : (∃ st members, t = build st members) ∨ ∃ s : Snapshot, s.toTree = .ok t)
    {id : String} (ha : t.symbolAt? a = some id) (hb : t.symbolAt? b = some id)
    (hone : ∃! i, t.symbolAt? i = some id ∧ t.Offers i c) (rest : List Component) :
    t.walkFrom a (c :: rest) = t.walkFrom b (c :: rest) := by
  have h := Snapshot.restorable_of_origin origin
  obtain ⟨i, ⟨hi, hoffers⟩, honly⟩ := hone
  have hlookup : ∀ {n : NodeId}, t.symbolAt? n = some id →
      t.lookup? c n = (t.entriesFor? c i).map (i, ·) := by
    intro n hn
    refine lookup?_of_only h (.of_symbols hn hi) fun j hj hoffers' => ?_
    exact honly j ⟨hj.symbolAt? hn, hoffers'⟩
  have hsome : (t.lookup? c a).isSome = true := by
    rw [hlookup ha, Option.isSome_map]
    exact isSome_entriesFor?_iff.mpr hoffers
  have hstep := step_eq_of_lookup?_eq ((hlookup ha).trans (hlookup hb).symm) hsome rest.head?
  rw [walkFrom, walkFrom, hstep]

/-- A method that only Objective-C has is found below the Swift name of its class. -/
theorem walkFrom_eq_of_one_offer_rivals : ∃ t c, t = (Catalog.rivals "KitWidget").tree ∧
    t.nameAt? 3 = some "Widget" ∧ t.nameAt? 5 = some "KITWidget" ∧ t.walkFrom 3 [c] = .ok 6 ∧
    ∀ rest, t.walkFrom 3 (c :: rest) = t.walkFrom 5 (c :: rest) := by
  let c := Component.parse "spin-method".toList 0
  have htree : (Catalog.rivals "KitWidget").tree = _ := build_of_sorted (by decide +kernel) _
  have hnodes : (Catalog.rivals "KitWidget").tree.nameAt? 3 = some "Widget" ∧
      (Catalog.rivals "KitWidget").tree.nameAt? 5 = some "KITWidget" ∧
      (Catalog.rivals "KitWidget").tree.symbolAt? 3 = some "c:W" ∧
      (Catalog.rivals "KitWidget").tree.symbolAt? 5 = some "c:W" ∧
      (Catalog.rivals "KitWidget").tree.walkFrom 3 [c] = .ok 6 := by
    rw [htree]
    decide +kernel
  have hspellings : (Catalog.rivals "KitWidget").tree.spellings.get? "c:W" = some [3, 5] ∧
      ((Catalog.rivals "KitWidget").tree.entriesFor? c 3).isSome = false ∧
      ((Catalog.rivals "KitWidget").tree.entriesFor? c 5).isSome = true := by
    rw [htree]
    decide +kernel
  obtain ⟨hname₃, hname₅, hsymbol₃, hsymbol₅, hwalk⟩ := hnodes
  obtain ⟨hboth, hnone, hsome⟩ := hspellings
  have horigin : (∃ st members, (Catalog.rivals "KitWidget").tree = build st members) ∨
      ∃ s : Snapshot, s.toTree = .ok (Catalog.rivals "KitWidget").tree := .inl ⟨_, _, rfl⟩
  refine ⟨_, c, rfl, hname₃, hname₅, hwalk, fun rest => ?_⟩
  refine walkFrom_eq_of_one_offer horigin hsymbol₃ hsymbol₅ ⟨5, ⟨hsymbol₅, ?_⟩, ?_⟩ rest
  · exact isSome_entriesFor?_iff.mp hsome
  · intro i hi
    have hmem := (mem_spellings_iff (Snapshot.restorable_of_origin horigin)).mpr hi.1
    rw [hboth] at hmem
    rcases List.mem_cons.mp hmem with rfl | hmem
    · rw [isSome_entriesFor?_iff.mpr hi.2] at hnone
      cases hnone
    · exact List.mem_singleton.mp hmem

end SymbolLinks.PathTree
