import SymbolLinks.Json.Parser
import SymbolLinks.Proofs.JsonTokens

/-! A printed JSON value is read back as the value (`parse?_pretty`). Printing and
reading meet in the tokens of a value: the printed text is scanned as them, and
the reader goes over them to the value. -/
namespace SymbolLinks.Json

mutual

/-- Whether a value has a text: its numbers are numbers, and nothing in it is
unreadable. -/
def Printable : Json → Prop
  | .null | .bool _ | .string _ => True
  | .number t => Token.isNumber t.toList = true
  | .array items => PrintableItems items
  | .object members => PrintableMembers members
  | .unreadable => False

def PrintableItems : List Json → Prop
  | [] => True
  | v :: vs => Printable v ∧ PrintableItems vs

def PrintableMembers : List (String × Json) → Prop
  | [] => True
  | (_, v) :: ms => Printable v ∧ PrintableMembers ms

end

@[simp] theorem printable_string (s : String) : Printable (.string s) := trivial

theorem printable_array_iff {items : List Json} :
    Printable (.array items) ↔ ∀ v ∈ items, Printable v := by
  show PrintableItems items ↔ _
  induction items with
  | nil => simp [PrintableItems]
  | cons v vs ih => simp [PrintableItems, ih]

theorem printable_object_iff {members : List (String × Json)} :
    Printable (.object members) ↔ ∀ m ∈ members, Printable m.2 := by
  show PrintableMembers members ↔ _
  induction members with
  | nil => simp [PrintableMembers]
  | cons m ms ih => simp [PrintableMembers, ih]

mutual

/-- The tokens of a value. -/
def tokensOf : Json → List Token
  | .null => [.null]
  | .bool b => [.bool b]
  | .number t => [.number t]
  | .string s => [.string (some s)]
  | .array items => .openBracket :: List.intercalate [.comma] (itemTokens items) ++ [.closeBracket]
  | .object members =>
    .openBrace :: List.intercalate [.comma] (memberTokens members) ++ [.closeBrace]
  | .unreadable => [.null]

def itemTokens : List Json → List (List Token)
  | [] => []
  | v :: vs => tokensOf v :: itemTokens vs

def memberTokens : List (String × Json) → List (List Token)
  | [] => []
  | (k, v) :: ms => (.string (some k) :: .colon :: tokensOf v) :: memberTokens ms

end

/-! ## Scanning -/

mutual

theorem scans_prettyAt (v : Json) (indent : String) (hv : Printable v)
    (hindent : Blank indent) :
    Scans (prettyAt indent v).toList (tokensOf v) := by
  cases v with
  | null => exact scans_word (w := "null".toList) (by decide) (by decide) rfl
  | bool b =>
    cases b
    · exact scans_word (w := "false".toList) (by decide) (by decide) rfl
    · exact scans_word (w := "true".toList) (by decide) (by decide) rfl
  | number t => exact scans_number hv
  | string s =>
    have := Scans.quote s Scans.nil
    rwa [List.append_nil] at this
  | array items =>
    exact scans_block rfl rfl rfl rfl hindent (scans_prettyItems items _ hv hindent.deeper)
  | object members =>
    exact scans_block rfl rfl rfl rfl hindent (scans_prettyMembers members _ hv hindent.deeper)
  | unreadable => exact hv.elim

theorem scans_prettyItems (items : List Json) (indent : String) (hitems : PrintableItems items)
    (hindent : Blank indent) :
    List.Forall₂ (fun text ts => Scans text.toList ts) (prettyItems indent items)
      (itemTokens items) := by
  cases items with
  | nil => exact .nil
  | cons v vs =>
    exact .cons (scans_prettyAt v indent hitems.1 hindent)
      (scans_prettyItems vs indent hitems.2 hindent)

theorem scans_prettyMembers (members : List (String × Json)) (indent : String)
    (hmembers : PrintableMembers members) (hindent : Blank indent) :
    List.Forall₂ (fun text ts => Scans text.toList ts) (prettyMembers indent members)
      (memberTokens members) := by
  cases members with
  | nil => exact .nil
  | cons m ms =>
    obtain ⟨k, v⟩ := m
    refine .cons ?_ (scans_prettyMembers ms indent hmembers.2 hindent)
    have hv := scans_prettyAt v indent hmembers.1 hindent
    have := Scans.quote k (Scans.mark (c := ':') rfl
      (hv.spaces (by decide : [' '].all Token.isSpace = true)))
    simpa using this

end

/-! ## Reading -/

section Reading

open Reader

/-- The first item of an array is read as any other value. -/
theorem step?_firstItem {t : Token} (ht : t ≠ .closeBracket) (stack : List Frame) :
    step? ⟨.firstItem, stack⟩ t = step? ⟨.value, stack⟩ t := by
  unfold step?
  split <;> simp_all

theorem head_tokensOf (v : Json) : ∃ t ts, tokensOf v = t :: ts ∧ t ≠ .closeBracket := by
  cases v <;> exact ⟨_, _, rfl, by simp⟩

theorem head_intercalate (sep ts : List Token) (t : Token) (tss : List (List Token)) :
    ∃ us, List.intercalate sep ((t :: ts) :: tss) = t :: us := by
  cases tss with
  | nil => exact ⟨ts, List.intercalate_singleton⟩
  | cons us tss => exact ⟨ts ++ sep ++ List.intercalate sep (us :: tss), by simp⟩

/-- Members as the reader keeps them. -/
def named (members : List (String × Json)) : List (Option String × Json) :=
  members.map fun m => (some m.1, m.2)

theorem objectOf_reverse (members : List (String × Json)) :
    objectOf (named members).reverse = .object members := by
  have : (named members).mapM (fun m => m.1.map (·, m.2)) = some members := by
    induction members with
    | nil => rfl
    | cons m ms ih =>
      rw [named, List.map_cons, List.mapM_cons]
      exact (congrArg (·.bind fun ms => some (m :: ms)) ih).trans rfl
  simp only [objectOf, List.reverse_reverse, this]

theorem foldlM_append_of_eq_some {ts us : List Token} {r r' : Reader}
    (h : ts.foldlM step? r = some r') : (ts ++ us).foldlM step? r = us.foldlM step? r' := by
  rw [List.foldlM_append, h]
  rfl

mutual

theorem read_tokensOf (v : Json) (hv : Printable v) (stack : List Frame) :
    (tokensOf v).foldlM step? ⟨.value, stack⟩ = some ⟨.closed v, stack⟩ := by
  cases v with
  | null | bool | number | string => rfl
  | array items =>
    cases items with
    | nil => rfl
    | cons v vs =>
      have hread := read_items (v :: vs) (by simp) hv [] stack
      -- only the first token is read in another state than `read_items` starts in
      obtain ⟨t, ts, htokens, ht⟩ := head_tokensOf v
      obtain ⟨us, hus⟩ := head_intercalate [.comma] ts t (itemTokens vs)
      rw [itemTokens, htokens, hus, List.cons_append, List.foldlM_cons,
        ← step?_firstItem ht] at hread
      rw [tokensOf, itemTokens, htokens, hus]
      exact hread
  | object members =>
    cases members with
    | nil => rfl
    | cons m ms =>
      have hread := read_members (m :: ms) (by simp) hv [] stack
      obtain ⟨us, hus⟩ := head_intercalate [.comma] (.colon :: tokensOf m.2) (.string (some m.1))
        (memberTokens ms)
      rw [memberTokens, hus] at hread
      rw [tokensOf, memberTokens, hus]
      exact hread
  | unreadable => exact hv.elim

theorem read_items (items : List Json) (hne : items ≠ []) (hitems : PrintableItems items)
    (read : List Json) (stack : List Frame) :
    (List.intercalate [Token.comma] (itemTokens items) ++ [Token.closeBracket]).foldlM step?
      ⟨.value, .array read :: stack⟩ = some ⟨.closed (.array (read.reverse ++ items)), stack⟩ := by
  cases items with
  | nil => exact absurd rfl hne
  | cons v vs =>
    have hv := read_tokensOf v hitems.1 (.array read :: stack)
    cases vs with
    | nil =>
      rw [itemTokens, itemTokens, List.intercalate_singleton, foldlM_append_of_eq_some hv,
        ← List.reverse_cons]
      rfl
    | cons w ws =>
      have hread := read_items (w :: ws) (by simp) hitems.2 (v :: read) stack
      rw [List.reverse_cons, List.append_assoc] at hread
      rw [itemTokens, itemTokens, List.intercalate_cons_cons, List.append_assoc, List.append_assoc,
        foldlM_append_of_eq_some hv]
      exact hread

theorem read_members (members : List (String × Json)) (hne : members ≠ [])
    (hmembers : PrintableMembers members) (read : List (String × Json)) (stack : List Frame) :
    (List.intercalate [Token.comma] (memberTokens members) ++ [Token.closeBrace]).foldlM step?
      ⟨.key (named read).reverse, stack⟩ =
        some ⟨.closed (.object (read ++ members)), stack⟩ := by
  cases members with
  | nil => exact absurd rfl hne
  | cons m ms =>
    obtain ⟨k, v⟩ := m
    have hmember : (Token.string (some k) :: .colon :: tokensOf v).foldlM step?
        ⟨.key (named read).reverse, stack⟩ =
          some ⟨.closed v, .object (named read).reverse (some k) :: stack⟩ :=
      read_tokensOf v hmembers.1 _
    have hsnoc : (some k, v) :: (named read).reverse = (named (read ++ [(k, v)])).reverse := by
      simp [named]
    cases ms with
    | nil =>
      rw [memberTokens, memberTokens, List.intercalate_singleton, foldlM_append_of_eq_some hmember,
        ← objectOf_reverse, ← hsnoc]
      rfl
    | cons m' ms =>
      have hread := read_members (m' :: ms) (by simp) hmembers.2 (read ++ [(k, v)]) stack
      rw [← hsnoc, List.append_assoc] at hread
      rw [memberTokens, memberTokens, List.intercalate_cons_cons, List.append_assoc,
        List.append_assoc, foldlM_append_of_eq_some hmember]
      exact hread

end

end Reading

/-- A printed value is read back. -/
theorem parse?_pretty {v : Json} (h : Printable v) : parse? v.pretty = some v := by
  have hscan := scans_prettyAt v "" h rfl [] (by intro c hc; cases hc)
  have htokens : tokens? v.pretty.toList = some (tokensOf v) := by
    rw [List.append_nil] at hscan
    rw [pretty, hscan, tokens?, Option.map_some, List.append_nil]
  unfold parse?
  rw [htokens]
  exact (congrArg (· >>= Reader.result?) (read_tokensOf v h [])).trans rfl

end SymbolLinks.Json
