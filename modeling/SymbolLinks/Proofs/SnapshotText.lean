import SymbolLinks.Proofs.JsonFields
import SymbolLinks.Proofs.SnapshotRoundTrip

/-! Snapshots and summaries as text. Positions are written as numbers of 64 bits,
so a tree can be written if it does not have more nodes or symbols than such
numbers count; then its text is decoded to its snapshot, and that is read as the
tree. Summaries come back with everything but the kind as it was. -/
namespace SymbolLinks

open Json (Printable printable_ofList printable_objectOfSome printable_object_iff)

/-! ## Records -/

theorem Language.ofJson_toJson (l : Language) :
    (Json.text? l.toJson).map ofIdentifier = some l := by
  rw [toJson, Json.text?, Option.map_some, ofIdentifier_identifier]

theorem SnapshotEntry.ofJson?_toJson {e : SnapshotEntry} (h : e.node ≤ maxIndex) :
    ofJson? e.toJson = some e := by
  rw [toJson, ofJson?, Json.record?_objectOfSome (by simp), Option.bind_eq_bind, Option.bind_some,
    Json.optional?_text (o := e.hash) rfl, Json.optional?_text (o := e.kind) rfl,
    Json.required?_eq (a := e.name) rfl rfl, Json.required?_eq (a := e.node) rfl (Json.nat?_nat h)]
  rfl

theorem SnapshotEntry.printable_toJson (e : SnapshotEntry) : Printable e.toJson := by
  refine printable_objectOfSome ?_
  simp

theorem SnapshotNode.ofJson?_toJson {n : SnapshotNode} (hchildren : ∀ e ∈ n.children, e.node ≤ maxIndex)
    (hsymbol : ∀ k, n.symbol = some k → k ≤ maxIndex) : ofJson? n.toJson = some n := by
  rw [toJson, ofJson?, Json.record?_objectOfSome (by simp), Option.bind_eq_bind, Option.bind_some,
    Json.listed?_eq rfl fun e he => SnapshotEntry.ofJson?_toJson (hchildren e he),
    Json.listed?_eq rfl fun l _ => Language.ofJson_toJson l,
    Json.required?_eq (a := n.name) rfl rfl,
    Json.optional?_eq rfl fun k hk => congrArg (·.map some) (Json.nat?_nat (hsymbol k hk))]
  rfl

theorem SnapshotNode.printable_toJson (n : SnapshotNode) : Printable n.toJson := by
  refine printable_objectOfSome ?_
  have hchildren : Printable (.ofList SnapshotEntry.toJson n.children) :=
    printable_ofList fun e _ => e.printable_toJson
  have hlanguages : Printable (.ofList Language.toJson n.languages) :=
    printable_ofList fun _ _ => trivial
  simp [hchildren, hlanguages]

theorem SnapshotSymbol.ofJson?_toJson {s : SnapshotSymbol} (h : s.primaryNode ≤ maxIndex) :
    ofJson? s.toJson = some s := by
  rw [toJson, ofJson?, Json.record?_object (by simp), Option.bind_eq_bind, Option.bind_some,
    Json.required?_eq (a := s.id) rfl rfl,
    Json.required?_eq (a := s.primaryNode) rfl (Json.nat?_nat h)]
  rfl

theorem SnapshotSymbol.printable_toJson (s : SnapshotSymbol) : Printable s.toJson := by
  refine printable_object_iff.mpr ?_
  simp

/-! ## Summaries -/

theorem PageReference.ofJson?_toJson (r : PageReference) : ofJson? r.toJson = some r := by
  rw [toJson, ofJson?, Json.record?_object (by simp), Option.bind_eq_bind, Option.bind_some,
    Json.required?_eq (a := r.bundle) rfl rfl,
    Json.required?_eq (a := r.language.identifier) rfl rfl,
    Json.required?_eq (a := r.path) rfl rfl]
  simp

theorem PageReference.printable_toJson (r : PageReference) : Printable r.toJson := by
  refine printable_object_iff.mpr ?_
  simp [Language.toJson]

namespace Summary

/-- A summary as it is read back: the kind is looked up by its identifier. -/
def reread (s : Summary) : Summary := { s with kind := .ofIdentifier s.kind.identifier }

theorem ofJson?_toJson (s : Summary) : ofJson? s.toJson = some s.reread := by
  rw [toJson, ofJson?, Json.record?_objectOfSome (by simp), Option.bind_eq_bind, Option.bind_some,
    Json.optional?_text (o := s.abstract?) rfl, Json.optional?_text (o := s.declaration) rfl,
    Json.required?_eq (a := s.kind.identifier) rfl rfl,
    Json.required?_eq (a := s.language.identifier) rfl rfl,
    Json.required?_eq (a := s.id) rfl rfl,
    Json.required?_eq rfl (PageReference.ofJson?_toJson s.page),
    Json.required?_eq (a := s.title) rfl rfl]
  simp [reread]

theorem printable_toJson (s : Summary) : Printable s.toJson := by
  refine printable_objectOfSome ?_
  simp [Kind.toJson, Language.toJson, s.page.printable_toJson]

/-- The text of a list of summaries is read as the list. -/
theorem decodeList?_encodeList (ss : List Summary) :
    decodeList? (encodeList ss) = some (ss.map reread) := by
  have hprint : Printable (listToJson ss) := printable_ofList fun s _ => s.printable_toJson
  rw [decodeList?, encodeList, Json.parse?_pretty hprint]
  exact Json.items?_ofList fun s _ => s.ofJson?_toJson

end Summary

/-! ## Snapshots -/

namespace Snapshot

/-- All positions fit in 64 bits. -/
structure Writable (s : Snapshot) : Prop where
  children : ∀ n ∈ s.nodes, ∀ e ∈ n.children, e.node ≤ maxIndex
  symbol : ∀ n ∈ s.nodes, ∀ k, n.symbol = some k → k ≤ maxIndex
  primary : ∀ sym ∈ s.symbols, sym.primaryNode ≤ maxIndex

theorem printable_toJson (s : Snapshot) : Printable s.toJson := by
  have hnodes : Printable (.ofList SnapshotNode.toJson s.nodes) :=
    printable_ofList fun n _ => n.printable_toJson
  have hsymbols : Printable (.ofList SnapshotSymbol.toJson s.symbols) :=
    printable_ofList fun sym _ => sym.printable_toJson
  refine printable_object_iff.mpr ?_
  simp [printable_object_iff, hnodes, hsymbols]

theorem hierarchy?_toJson {s : Snapshot} (h : s.Writable) :
    hierarchy? (.object [("nodes", .ofList SnapshotNode.toJson s.nodes),
      ("symbols", .ofList SnapshotSymbol.toJson s.symbols)]) = some (s.nodes, s.symbols) := by
  have hnodes : Json.items? SnapshotNode.ofJson? (.ofList SnapshotNode.toJson s.nodes) =
      some s.nodes := by
    have := Json.items?_ofList (g := id) fun n hn =>
      SnapshotNode.ofJson?_toJson (h.children n hn) (h.symbol n hn)
    rwa [List.map_id] at this
  have hsymbols : Json.items? SnapshotSymbol.ofJson? (.ofList SnapshotSymbol.toJson s.symbols) =
      some s.symbols := by
    have := Json.items?_ofList (g := id) fun sym hsym =>
      SnapshotSymbol.ofJson?_toJson (h.primary sym hsym)
    rwa [List.map_id] at this
  rw [hierarchy?, Json.record?_object (by simp), Option.bind_eq_bind, Option.bind_some,
    Json.required?_eq rfl hnodes, Json.required?_eq rfl hsymbols]
  rfl

theorem version?_toJson {s : Snapshot} (hversion : s.version = currentVersion)
    (names : List String) : version? names s.toJson = some currentVersion := by
  rw [toJson, version?, Json.record?_object (by simp), Option.bind_eq_bind, Option.bind_some]
  rw [← hversion]
  exact Json.required?_eq rfl (Json.nat?_nat (by rw [hversion]; decide))

theorem ofJson_toJson {s : Snapshot} (hversion : s.version = currentVersion) (h : s.Writable) :
    ofJson s.toJson = .ok s := by
  have hbody : body? s.toJson = some s := by
    rw [body?, version?_toJson hversion]
    simp only []
    rw [toJson, Json.record?_object (by simp), Option.bind_eq_bind, Option.bind_some,
      Json.required?_eq (a := s.bundle) rfl rfl, Json.required?_eq rfl (hierarchy?_toJson h)]
    rw [← hversion]
    rfl
  simp only [ofJson, version?_toJson hversion, hbody]
  rfl

/-- The text of a snapshot is decoded to the snapshot. -/
theorem decode_encode {s : Snapshot} (hversion : s.version = currentVersion) (h : s.Writable) :
    decode s.encode = .ok s := by
  simp only [decode, encode, Json.parse?_pretty s.printable_toJson, ofJson_toJson hversion h]

theorem IsTree.writable {s : Snapshot} (h : s.IsTree) (hnodes : s.nodes.length ≤ maxIndex + 1)
    (hsymbols : s.symbols.length ≤ maxIndex + 1) : s.Writable where
  children := by
    intro n hn e he
    obtain ⟨p, hp⟩ := List.mem_iff_getElem?.mp hn
    have := (h.child_range p e.node ((lists_iff_of_getElem? hp).mpr ⟨e, he, rfl⟩)).2
    omega
  symbol := by
    intro n hn k hk
    have := h.symbol_range n hn k hk
    omega
  primary := by
    intro sym hsym
    have := h.primary_range sym hsym
    omega

theorem Restorable.decode_encode_ofTree {t : PathTree} (h : Restorable t) (bundle : String)
    (hnodes : t.size ≤ maxIndex + 1) (hsymbols : t.primary.keys.length ≤ maxIndex + 1) :
    decode (ofTree bundle t).encode = .ok (ofTree bundle t) := by
  refine decode_encode rfl ((h.isTree bundle).writable ?_ ?_)
  · rwa [length_nodes_ofTree]
  · rwa [length_symbols_ofTree]

/-- The snapshot of a tree is read as exactly this tree, also when it has been
written as text and decoded, for trees that are built from symbols and for trees
that were themselves read from some snapshot. Only a text needs the positions to
fit in 64 bits, which no tree in memory exceeds. -/
theorem ofTree_round_trip (bundle : String) (t : PathTree)
    (origin : (∃ st members, t = PathTree.build st members) ∨ ∃ s : Snapshot, s.toTree = .ok t) :
    (ofTree bundle t).bundle = bundle ∧ (ofTree bundle t).version = 1 ∧
    (ofTree bundle t).toTree = .ok t ∧
    (t.size ≤ maxIndex + 1 → t.primary.keys.length ≤ maxIndex + 1 →
      decode (ofTree bundle t).encode = .ok (ofTree bundle t)) := by
  have h : Restorable t := by
    rcases origin with ⟨st, members, rfl⟩ | ⟨s, hs⟩
    · exact restorable_of_inv (PathTree.inv_build st members)
    · exact restorable_of_toTree hs
  exact ⟨rfl, rfl, h.toTree_ofTree bundle, h.decode_encode_ofTree bundle⟩

theorem ofTree_round_trip_rearranged : ∃ t, rearranged.toTree = .ok t ∧
    ∃ s, decode (ofTree "Kit" t).encode = .ok s ∧ s.bundle = "Kit" ∧ s.version = 1 ∧
      s.toTree = .ok t := by
  obtain ⟨t, ht⟩ := (exists_toTree_iff rearranged).mpr isTree_rearranged
  obtain ⟨hbundle, hversion, htree, htext⟩ := ofTree_round_trip "Kit" t (.inr ⟨rearranged, ht⟩)
  obtain ⟨parents, _, _, rfl⟩ := toTree_ok_iff.mp ht
  have hsize : (rearranged.restoredTree parents).size = 3 := size_restoredTree
  have hsymbols : (rearranged.restoredTree parents).primary.keys.length = 2 := rfl
  refine ⟨_, ht, _, htext ?_ ?_, hbundle, hversion, htree⟩
  · rw [hsize]
    decide
  · rw [hsymbols]
    decide

end Snapshot

end SymbolLinks
