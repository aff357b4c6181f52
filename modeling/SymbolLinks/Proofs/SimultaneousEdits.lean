import SymbolLinks.Problem
import SymbolLinks.Proofs.LinkPlaces

/-! Edits that are made all at once. A solution applies its edits one after another, from
the back of a text to its front, and looks for the place of each in what the others have
left. Edits with places apart from one another come out as if they all were made in the text
that was given (`Solution.apply_at_once`): an edit changes nothing in front of its place, so
those still to come find their places unchanged. -/
namespace SymbolLinks

/-! ## Bytes of texts -/

namespace Text

/-- The bytes of a text in its UTF-8 form. -/
def bytes (text : String) : List UInt8 := text.toByteArray.data.toList

theorem bytes_append (a b : String) : bytes (a ++ b) = bytes a ++ bytes b := by
  simp only [bytes, String.toByteArray_append, ByteArray.data_append, Array.toList_append]

theorem length_bytes_ofList (cs : List Char) : (bytes (String.ofList cs)).length = byteLength cs :=
  (byteLength_eq_utf8ByteSize cs).symm

theorem bytes_injective {a b : String} (h : bytes a = bytes b) : a = b :=
  String.toByteArray_inj.mp (ByteArray.ext (Array.toList_inj.mp h))

theorem bytes_of_splitAtByte {n : Nat} {cs a b : List Char} (h : splitAtByte n cs = some (a, b)) :
    bytes (String.ofList a) = (bytes (String.ofList cs)).take n ∧
      bytes (String.ofList b) = (bytes (String.ofList cs)).drop n := by
  obtain ⟨hcs, hn⟩ := append_of_splitAtByte h
  rw [← length_bytes_ofList] at hn
  rw [hcs, String.ofList_append, bytes_append, hn, List.take_left, List.drop_left]
  exact ⟨rfl, rfl⟩

/-- The places between the characters of a text are those where it can be cut. -/
theorem isValid_iff_splitAtByte {n : Nat} {cs : List Char} :
    (⟨n⟩ : String.Pos.Raw).IsValid (String.ofList cs) ↔ ∃ parts, splitAtByte n cs = some parts := by
  constructor
  · intro h
    obtain ⟨a, b, ha, hcs⟩ := h.exists
    have hle : n ≤ (String.ofList cs).utf8ByteSize := h.le_utf8ByteSize
    have hn : n = byteLength a := by
      have hsize := congrArg ByteArray.size ha
      rw [← String.toByteArray_ofList, ByteArray.size_extract, String.size_toByteArray,
        String.size_toByteArray, ← byteLength_eq_utf8ByteSize] at hsize
      dsimp only at hsize
      omega
    rw [← String.ofList_injective hcs, hn]
    exact ⟨_, splitAtByte_byteLength a b⟩
  · intro h
    obtain ⟨⟨a, b⟩, hcut⟩ := h
    obtain ⟨hcs, hn⟩ := append_of_splitAtByte hcut
    have hvalid : (String.ofList a).rawEndPos.IsValid (String.ofList a ++ String.ofList b) :=
      String.Pos.Raw.isValid_rawEndPos.append_right _
    rw [hcs, String.ofList_append, hn, byteLength_eq_utf8ByteSize]
    exact hvalid

/-- What stands in front of a place does not depend on what comes after it. -/
theorem map_fst_splitAtByte_append {n : Nat} {before : List Char} (h : n ≤ byteLength before)
    (after : List Char) :
    (splitAtByte n (before ++ after)).map Prod.fst = (splitAtByte n before).map Prod.fst := by
  fun_induction splitAtByte n before with
  | case1 => simp [splitAtByte]
  | case2 => exact absurd h (Nat.not_succ_le_zero _)
  | case3 n c cs hc ih =>
    have hcs : n + 1 - c.utf8Size ≤ byteLength cs := by
      rw [byteLength] at h
      omega
    have hih := congrArg (Option.map (c :: ·)) (ih hcs)
    simp only [Option.map_map] at hih
    simp only [List.cons_append, splitAtByte, if_pos hc, Option.map_map]
    exact hih
  | case4 n c cs hc => simp only [List.cons_append, splitAtByte, if_neg hc]

end Text

/-! ## Edits of the text that was given -/

namespace Edit

/-- An edit that can be made in a text: its ends are in order and between characters. -/
def Fits (e : Edit) (text : String) : Prop :=
  e.start ≤ e.stop ∧ (⟨e.start⟩ : String.Pos.Raw).IsValid text ∧
    (⟨e.stop⟩ : String.Pos.Raw).IsValid text

instance (e : Edit) (text : String) : Decidable (e.Fits text) :=
  inferInstanceAs (Decidable (_ ∧ _ ∧ _))

/-- What comes in the place of one byte of a text when edits are made in it: the texts of the
edits that start there, and the byte itself unless one of the edits removes it. -/
def slot (edits : List Edit) (text : String) (i : Nat) : List UInt8 :=
  ((edits.filter fun e => e.Fits text ∧ e.start = i).flatMap fun e => Text.bytes e.text) ++
    if ∃ e ∈ edits, e.Fits text ∧ e.start ≤ i ∧ i < e.stop then []
    else (Text.bytes text)[i]?.toList

/-- What comes in the place of a text from one of its bytes on, its end included. -/
def slotsFrom (edits : List Edit) (text : String) (i : Nat) : List UInt8 :=
  (List.range' i ((Text.bytes text).length + 1 - i)).flatMap (slot edits text)

/-- The bytes of a text when all edits that can be made in it are made at once. -/
def atOnce (edits : List Edit) (text : String) : List UInt8 := slotsFrom edits text 0

/-- Edits at different places, none of which starts inside the other. -/
def Apart (a b : Edit) : Prop :=
  a.start ≠ b.start ∧ (a.stop ≤ b.start ∨ b.stop ≤ a.start)

instance (a b : Edit) : Decidable (a.Apart b) := inferInstanceAs (Decidable (_ ∧ _))

/-- Edits of which one is behind the other. -/
def Precedes (a b : Edit) : Prop := a.start < b.start ∧ a.stop ≤ b.start

theorem Fits.start_le {e : Edit} {text : String} (h : e.Fits text) : e.start ≤ e.stop := h.1

theorem Fits.stop_le {e : Edit} {text : String} (h : e.Fits text) :
    e.stop ≤ (Text.bytes text).length := h.2.2.le_utf8ByteSize

variable {text : String} {e : Edit} {edits : List Edit} {i : Nat}

theorem startingAt_eq_nil (h : ∀ e ∈ edits, i < e.start) :
    edits.filter (fun e => e.Fits text ∧ e.start = i) = [] := by
  refine List.filter_eq_nil_iff.mpr fun e he => ?_
  have hlt := h e he
  simp only [decide_eq_true_eq, not_and]
  omega

theorem slot_of_lt (h : ∀ e ∈ edits, i < e.start) :
    slot edits text i = (Text.bytes text)[i]?.toList := by
  have hremove : ¬ ∃ e ∈ edits, e.Fits text ∧ e.start ≤ i ∧ i < e.stop := by
    intro hex
    obtain ⟨e, he, _, hle, _⟩ := hex
    have hlt := h e he
    omega
  rw [slot, startingAt_eq_nil h, if_neg hremove]
  rfl

/-- An edit bears only on the bytes it removes and on the one where it starts. -/
theorem slot_cons_of_outside (h : e.Fits text → e.start ≠ i ∧ ¬ (e.start ≤ i ∧ i < e.stop)) :
    slot (e :: edits) text i = slot edits text i := by
  have hstart : ¬ (e.Fits text ∧ e.start = i) := fun hfits => (h hfits.1).1 hfits.2
  have hremove : ¬ (e.Fits text ∧ e.start ≤ i ∧ i < e.stop) := fun hfits => (h hfits.1).2 hfits.2
  simp only [slot, List.filter_cons, decide_eq_true_eq, if_neg hstart, List.exists_mem_cons_iff,
    hremove, false_or]

theorem slot_cons_of_removed (he : e.Fits text) (hstart : e.start ≤ i) (hstop : i < e.stop)
    (h : ∀ b ∈ edits, i < b.start) :
    slot (e :: edits) text i = if e.start = i then Text.bytes e.text else [] := by
  have hremove : ∃ b ∈ e :: edits, b.Fits text ∧ b.start ≤ i ∧ i < b.stop :=
    ⟨e, List.mem_cons_self, he, hstart, hstop⟩
  rw [slot, List.filter_cons, startingAt_eq_nil h, if_pos hremove, List.append_nil]
  by_cases heq : e.start = i <;> simp [he, heq]

/-- An insertion puts its text in front of the byte where it stands. -/
theorem slot_cons_of_inserted (he : e.Fits text) (heq : e.start = e.stop)
    (h : ∀ b ∈ edits, e.start < b.start) :
    slot (e :: edits) text e.start = Text.bytes e.text ++ slot edits text e.start := by
  have hremove : ¬ (e.Fits text ∧ e.start ≤ e.start ∧ e.start < e.stop) := by
    omega
  simp only [slot, List.filter_cons, List.exists_mem_cons_iff, hremove, false_or, startingAt_eq_nil h]
  simp [he]

theorem slotsFrom_cons_of_outside
    (h : ∀ j, i ≤ j → e.Fits text → e.start ≠ j ∧ ¬ (e.start ≤ j ∧ j < e.stop)) :
    slotsFrom (e :: edits) text i = slotsFrom edits text i :=
  List.flatMap_congr fun j hj => slot_cons_of_outside (h j (List.mem_range'_1.mp hj).1)

theorem slotsFrom_eq_append {j : Nat} (hij : i ≤ j) (hj : j ≤ (Text.bytes text).length) :
    slotsFrom edits text i =
      (List.range' i (j - i)).flatMap (slot edits text) ++ slotsFrom edits text j := by
  have hcount : (Text.bytes text).length + 1 - i = (j - i) + ((Text.bytes text).length + 1 - j) := by
    omega
  rw [slotsFrom, hcount, ← List.range'_append_1, List.flatMap_append, Nat.add_sub_cancel' hij]
  rfl

theorem slotsFrom_succ (hi : i ≤ (Text.bytes text).length) :
    slotsFrom edits text i = slot edits text i ++ slotsFrom edits text (i + 1) := by
  have hcount : (Text.bytes text).length + 1 - i = (Text.bytes text).length + 1 - (i + 1) + 1 := by
    omega
  rw [slotsFrom, hcount, List.range'_succ, List.flatMap_cons]
  rfl

/-- In front of all edits the text is as it was. -/
theorem flatMap_slot_of_le (h : ∀ e ∈ edits, i ≤ e.start) :
    (List.range' 0 i).flatMap (slot edits text) = (Text.bytes text).take i := by
  induction i with
  | zero => rfl
  | succ i ih =>
    rw [List.range'_1_concat, List.flatMap_append, ih fun e he => Nat.le_of_succ_le (h e he),
      List.take_add_one, Nat.zero_add, List.flatMap_singleton, slot_of_lt h]

theorem atOnce_nil : atOnce [] text = Text.bytes text := by
  refine (flatMap_slot_of_le fun e he => absurd he List.not_mem_nil).trans ?_
  exact List.take_of_length_le (Nat.le_succ _)

theorem atOnce_eq_append (hi : i ≤ (Text.bytes text).length) (h : ∀ e ∈ edits, i ≤ e.start) :
    atOnce edits text = (Text.bytes text).take i ++ slotsFrom edits text i := by
  rw [atOnce, slotsFrom_eq_append (Nat.zero_le i) hi, Nat.sub_zero, flatMap_slot_of_le h]

/-- An edit in front of all others puts its text in the place of what it removes. -/
theorem slotsFrom_cons_start (he : e.Fits text) (h : ∀ b ∈ edits, e.Precedes b) :
    slotsFrom (e :: edits) text e.start = Text.bytes e.text ++ slotsFrom edits text e.stop := by
  have hstop := he.stop_le
  have hle := he.start_le
  rw [slotsFrom_succ (Nat.le_trans hle hstop)]
  rcases Nat.lt_or_eq_of_le hle with hlt | heq
  · -- The text stands at the first byte that is removed, and nothing at the others.
    have hslot : ∀ j, e.start ≤ j → j < e.stop →
        slot (e :: edits) text j = if e.start = j then Text.bytes e.text else [] := by
      intro j hstart hj
      exact slot_cons_of_removed he hstart hj fun b hb => Nat.lt_of_lt_of_le hj (h b hb).2
    have hothers : (List.range' (e.start + 1) (e.stop - (e.start + 1))).flatMap
        (slot (e :: edits) text) = [] := by
      refine List.flatMap_eq_nil_iff.mpr fun j hj => ?_
      have hj := List.mem_range'_1.mp hj
      rw [hslot j (by omega) (by omega), if_neg (by omega)]
    have hrest : slotsFrom (e :: edits) text e.stop = slotsFrom edits text e.stop :=
      slotsFrom_cons_of_outside fun j hj _ => by omega
    rw [hslot e.start (Nat.le_refl _) hlt, if_pos rfl, slotsFrom_eq_append hlt hstop, hothers, hrest,
      List.nil_append]
  · -- Nothing is removed, and the text stands in front of what was there.
    have hrest : slotsFrom (e :: edits) text (e.start + 1) = slotsFrom edits text (e.start + 1) :=
      slotsFrom_cons_of_outside fun j hj _ => by omega
    rw [slot_cons_of_inserted he heq fun b hb => (h b hb).1, hrest, List.append_assoc,
      ← slotsFrom_succ (Nat.le_trans hle hstop), heq]

/-! ## Edits in turn -/

/-- Edits made in turn, the last of them first. -/
def inTurn (edits : List Edit) (cs : List Char) : List Char := edits.foldr apply cs

variable {cs : List Char}

theorem fits_ofList_iff : e.Fits (String.ofList cs) ↔ e.start ≤ e.stop ∧
    (∃ parts, Text.splitAtByte e.start cs = some parts) ∧
      ∃ parts, Text.splitAtByte e.stop cs = some parts := by
  rw [Fits, Text.isValid_iff_splitAtByte, Text.isValid_iff_splitAtByte]

theorem apply_of_not_fits (h : ¬ e.Fits (String.ofList cs)) : e.apply cs = cs := by
  rw [fits_ofList_iff] at h
  unfold apply
  split
  · rename_i hle
    split
    · rename_i before _ _ after hstart hstop
      exact absurd ⟨hle, ⟨_, hstart⟩, _, hstop⟩ h
    · rfl
  · rfl

theorem apply_of_splitAtByte {before old front after : List Char} (hle : e.start ≤ e.stop)
    (hstart : Text.splitAtByte e.start cs = some (before, old))
    (hstop : Text.splitAtByte e.stop cs = some (front, after)) :
    e.apply cs = before ++ (e.text.toList ++ after) := by
  simp only [apply, if_pos hle, hstart, hstop, List.append_assoc]

/-- An edit changes nothing in front of its place. -/
theorem map_fst_splitAtByte_apply (hi : i ≤ e.start) :
    (Text.splitAtByte i (e.apply cs)).map Prod.fst = (Text.splitAtByte i cs).map Prod.fst := by
  by_cases h : e.Fits (String.ofList cs)
  · obtain ⟨hle, ⟨⟨before, old⟩, hstart⟩, ⟨front, after⟩, hstop⟩ := fits_ofList_iff.mp h
    obtain ⟨hcs, hlength⟩ := Text.append_of_splitAtByte hstart
    rw [hlength] at hi
    rw [apply_of_splitAtByte hle hstart hstop, hcs, Text.map_fst_splitAtByte_append hi,
      Text.map_fst_splitAtByte_append hi]
  · rw [apply_of_not_fits h]

theorem map_fst_splitAtByte_inTurn (h : ∀ e ∈ edits, i ≤ e.start) :
    (Text.splitAtByte i (inTurn edits cs)).map Prod.fst = (Text.splitAtByte i cs).map Prod.fst := by
  induction edits with
  | nil => rfl
  | cons e edits ih =>
    refine (map_fst_splitAtByte_apply (h e List.mem_cons_self)).trans (ih fun b hb => ?_)
    exact h b (List.mem_cons_of_mem e hb)

/-- Where the given text can be cut in front of all edits, the edited one can be cut too. -/
theorem exists_splitAtByte_inTurn {before after : List Char} (h : ∀ e ∈ edits, i ≤ e.start)
    (hcut : Text.splitAtByte i cs = some (before, after)) :
    ∃ after', Text.splitAtByte i (inTurn edits cs) = some (before, after') := by
  have hfst : (Text.splitAtByte i (inTurn edits cs)).map Prod.fst = some before := by
    rw [map_fst_splitAtByte_inTurn h, hcut]
    rfl
  obtain ⟨⟨before', after'⟩, hcut', rfl⟩ := Option.map_eq_some_iff.mp hfst
  exact ⟨after', hcut'⟩

theorem apply_inTurn_of_not_fits (h : ∀ b ∈ edits, e.Precedes b) (he : ¬ e.Fits (String.ofList cs)) :
    e.apply (inTurn edits cs) = inTurn edits cs := by
  refine apply_of_not_fits fun hfits => he ?_
  have hcut : ∀ i, (∀ b ∈ edits, i ≤ b.start) →
      (∃ parts, Text.splitAtByte i (inTurn edits cs) = some parts) →
        ∃ parts, Text.splitAtByte i cs = some parts := by
    intro i hi hparts
    rw [← Option.isSome_iff_exists, ← Option.isSome_map, map_fst_splitAtByte_inTurn hi,
      Option.isSome_map, Option.isSome_iff_exists] at hparts
    exact hparts
  obtain ⟨hle, hstart, hstop⟩ := fits_ofList_iff.mp hfits
  exact fits_ofList_iff.mpr ⟨hle, hcut _ (fun b hb => Nat.le_of_lt (h b hb).1) hstart,
    hcut _ (fun b hb => (h b hb).2) hstop⟩

/-- Edits that follow one another in a text come out as if they were made at once. -/
theorem bytes_inTurn (h : edits.Pairwise Precedes) :
    Text.bytes (String.ofList (inTurn edits cs)) = atOnce edits (String.ofList cs) := by
  -- The edits behind `e` are made first. They leave `e` its place and all that is in front of it.
  induction edits with
  | nil => exact atOnce_nil.symm
  | cons e edits ih =>
    obtain ⟨hfirst, hrest⟩ := List.pairwise_cons.mp h
    by_cases he : e.Fits (String.ofList cs)
    · obtain ⟨hle, ⟨⟨before, old⟩, hstart⟩, ⟨front, behind⟩, hstop⟩ := fits_ofList_iff.mp he
      obtain ⟨_, hstart'⟩ :=
        exists_splitAtByte_inTurn (fun b hb => Nat.le_of_lt (hfirst b hb).1) hstart
      obtain ⟨after, hstop'⟩ := exists_splitAtByte_inTurn (fun b hb => (hfirst b hb).2) hstop
      have happly : inTurn (e :: edits) cs = before ++ (e.text.toList ++ after) :=
        apply_of_splitAtByte hle hstart' hstop'
      have hbefore := (Text.bytes_of_splitAtByte hstart).1
      have hafter : Text.bytes (String.ofList after) = slotsFrom edits (String.ofList cs) e.stop := by
        rw [(Text.bytes_of_splitAtByte hstop').2, ih hrest,
          atOnce_eq_append he.stop_le fun b hb => (hfirst b hb).2]
        exact List.drop_left' (List.length_take_of_le he.stop_le)
      have hstarts : ∀ b ∈ e :: edits, e.start ≤ b.start := by
        intro b hb
        rcases List.mem_cons.mp hb with rfl | hb
        · exact Nat.le_refl _
        · exact Nat.le_of_lt (hfirst b hb).1
      rw [happly, String.ofList_append, String.ofList_append, Text.bytes_append, Text.bytes_append,
        hbefore, hafter, String.ofList_toList, ← slotsFrom_cons_start he hfirst,
        atOnce_eq_append (Nat.le_trans hle he.stop_le) hstarts]
    · have hskip : inTurn (e :: edits) cs = inTurn edits cs := apply_inTurn_of_not_fits hfirst he
      rw [hskip, ih hrest]
      exact (slotsFrom_cons_of_outside fun _ _ hfits => absurd hfits he).symm

/-! ## Lists of edits -/

theorem Apart.symm {a b : Edit} (h : a.Apart b) : b.Apart a := ⟨h.1.symm, h.2.symm⟩

/-- Edits with places apart follow one another when they are sorted by their starts. -/
theorem pairwise_precedes (hordered : ∀ e ∈ edits, e.start ≤ e.stop) (hapart : edits.Pairwise Apart)
    (hsorted : edits.Pairwise fun a b => a.start ≤ b.start) : edits.Pairwise Precedes := by
  refine List.Pairwise.imp_of_mem ?_ (hsorted.and hapart)
  intro a b _ hb h
  obtain ⟨hle, hne, hends⟩ := h
  have hb := hordered b hb
  unfold Precedes
  omega

/-- At one place stands at most one edit, so their order does not count. -/
theorem slot_perm {edits' : List Edit} (hperm : edits.Perm edits') (hapart : edits.Pairwise Apart) :
    slot edits text i = slot edits' text i := by
  have hremove : (∃ e ∈ edits, e.Fits text ∧ e.start ≤ i ∧ i < e.stop) ↔
      ∃ e ∈ edits', e.Fits text ∧ e.start ≤ i ∧ i < e.stop := by
    simp only [hperm.mem_iff]
  have hstart : edits.filter (fun e => e.Fits text ∧ e.start = i) =
      edits'.filter fun e => e.Fits text ∧ e.start = i := by
    have hdifferent : ∀ l : List Edit, l.Pairwise Apart →
        (l.filter fun e => e.Fits text ∧ e.start = i).Pairwise fun a b => a.start ≠ b.start :=
      fun l hl => (hl.imp And.left).filter _
    refine List.Perm.eq_of_pairwise ?_ (hdifferent edits hapart)
      (hdifferent edits' (hperm.pairwise hapart Apart.symm)) (hperm.filter _)
    intro a b ha hb hne _
    have ha := of_decide_eq_true (List.mem_filter.mp ha).2
    have hb := of_decide_eq_true (List.mem_filter.mp hb).2
    exact absurd (ha.2.trans hb.2.symm) hne
  simp only [slot, hremove, hstart]

theorem atOnce_perm {edits' : List Edit} (hperm : edits.Perm edits') (hapart : edits.Pairwise Apart) :
    atOnce edits text = atOnce edits' text :=
  List.flatMap_congr fun _ _ => slot_perm hperm hapart

end Edit

namespace Solution

theorem bytes_apply (s : Solution) (text : String) (hordered : ∀ e ∈ s.edits, e.start ≤ e.stop)
    (hapart : s.edits.Pairwise Edit.Apart) :
    Text.bytes (s.apply text) = Edit.atOnce s.edits text := by
  let sorted := (s.edits.mergeSort fun a b => decide (b.start ≤ a.start)).reverse
  have hperm : sorted.Perm s.edits := (List.reverse_perm _).trans (List.mergeSort_perm _ _)
  have hsorted : sorted.Pairwise fun a b => a.start ≤ b.start := by
    refine List.pairwise_reverse.mpr (List.Pairwise.imp of_decide_eq_true ?_)
    refine List.pairwise_mergeSort ?_ ?_ _
    · intro a b c hab hbc
      simp only [decide_eq_true_eq] at hab hbc ⊢
      omega
    · intro a b
      simp only [Bool.or_eq_true, decide_eq_true_eq]
      omega
  have happly : s.apply text = String.ofList (Edit.inTurn sorted text.toList) := by
    rw [Edit.inTurn, List.foldr_reverse]
    rfl
  have hapart' := hperm.symm.pairwise hapart Edit.Apart.symm
  have hprecedes :=
    Edit.pairwise_precedes (fun e he => hordered e (hperm.mem_iff.mp he)) hapart' hsorted
  rw [happly, Edit.bytes_inTurn hprecedes, String.ofList_toList, Edit.atOnce_perm hperm hapart']

/-- Edits with their ends in order and their places apart are made as if all at once, at the
bytes of the text that is given: those that fit put their texts in the place of what they
remove, all other bytes stay and the others change nothing. The result is a text in its
UTF-8 form, and the order in which the edits are listed does not count. -/
theorem apply_at_once (s : Solution) (text : String) (hordered : ∀ e ∈ s.edits, e.start ≤ e.stop)
    (hapart : s.edits.Pairwise Edit.Apart) :
    Text.bytes (s.apply text) = Edit.atOnce s.edits text ∧
    (Edit.atOnce s.edits text).toByteArray.IsValidUTF8 ∧
    ∀ edits : List Edit, edits.Perm s.edits →
      ({ s with edits := edits } : Solution).apply text = s.apply text := by
  have hbytes := s.bytes_apply text hordered hapart
  refine ⟨hbytes, ?_, fun edits hperm => Text.bytes_injective ?_⟩
  · have hutf8 : (Edit.atOnce s.edits text).toByteArray = (s.apply text).toByteArray := by
      rw [← hbytes]
      exact ByteArray.ext (by simp [Text.bytes])
    rw [hutf8]
    exact (s.apply text).isValidUTF8
  · have hapart' := hperm.symm.pairwise hapart Edit.Apart.symm
    rw [hbytes, bytes_apply _ text (fun e he => hordered e (hperm.mem_iff.mp he)) hapart']
    exact Edit.atOnce_perm hperm hapart'

/-- Edits of `Maß/case`, of which one splits a character and one is past the end. -/
def respelling : Solution where
  edits := [⟨4, 4, "-enum"⟩, ⟨30, 40, "?"⟩, ⟨0, 1, ""⟩, ⟨3, 4, "?"⟩, ⟨5, 9, "Case"⟩]
  summary := ""

theorem apply_at_once_respelling :
    (∀ e ∈ respelling.edits, e.start ≤ e.stop) ∧ respelling.edits.Pairwise Edit.Apart ∧
      respelling.apply "Maß/case" = "aß-enum/Case" := by
  have hordered : ∀ e ∈ respelling.edits, e.start ≤ e.stop := by decide
  have hapart : respelling.edits.Pairwise Edit.Apart := by decide
  have hbytes := (respelling.apply_at_once "Maß/case" hordered hapart).1
  refine ⟨hordered, hapart, Text.bytes_injective (hbytes.trans ?_)⟩
  decide +kernel

end Solution

end SymbolLinks
