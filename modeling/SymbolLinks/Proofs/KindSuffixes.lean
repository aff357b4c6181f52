import SymbolLinks.Proofs.SuffixGrammar
import SymbolLinks.Proofs.SuffixSelection

/-! Suffixes of kinds. The suffix of a node is its kind, behind the tag of a language in
URLs. Any text can be a kind, but links know a closed list of them. So such a suffix is read
back as that kind if and only if links know the kind. -/
namespace SymbolLinks

namespace Kind

/-- Links know the kind that a graph names, unless it has no special treatment. -/
theorem isSome_known?_ofIdentifier (s : String) :
    (known? (ofIdentifier s).identifier.toList).isSome = !(ofIdentifier s).isOther := by
  have hall : knownKinds.all (fun k => !k.isOther) = true := by decide
  simp only [ofIdentifier]
  cases hk : known? (withoutLanguage s.toList) with
  | none => simp [identifier, isOther, hk]
  | some k =>
    obtain ⟨hmem, hid⟩ := known?_eq_some hk
    rw [Option.getD_some, hid, hk, List.all_eq_true.mp hall k hmem]
    rfl

end Kind

namespace Link

theorem KindForm.known {text k : List Char} {l : Option Language} (h : KindForm text l k) :
    (Kind.known? k).isSome = true := by
  cases h with
  | bare hknown => exact hknown
  | swift hknown => exact hknown
  | objectiveC hknown => exact hknown

theorem SuffixForm.known {raw : List Char} {r : Reading} (h : SuffixForm raw r) {k : List Char}
    (hk : r.kind = some k) : (Kind.known? k).isSome = true := by
  cases h with
  | kind _ _ hkind =>
    cases hk
    exact hkind.known
  | kindHash _ _ _ _ _ hkind =>
    cases hk
    exact hkind.known
  | hash _ _ _ _ _ => cases hk

namespace Component

/-- A component of this name, with a suffix that asks for a kind, perhaps in one language,
and for nothing else. -/
def AsksKind (c : Component) (name kind : String) (l : Option Language) : Prop :=
  c.name = name ∧ c.suffix.map Suffix.asks = some (none, some kind, l)

instance (c : Component) (name kind : String) (l : Option Language) :
    Decidable (c.AsksKind name kind l) :=
  inferInstanceAs (Decidable (_ ∧ _))

/-- Components ask for known kinds only. -/
theorem AsksKind.known {raw : List Char} {offset : Nat} {name kind : String} {l : Option Language}
    (h : (parse raw offset).AsksKind name kind l) : (Kind.known? kind.toList).isSome = true := by
  cases hr : reading? raw with
  | none =>
    rw [AsksKind, parse_of_reading?_none hr] at h
    cases h.2
  | some r =>
    rw [AsksKind, parse_of_reading?_some hr] at h
    simp only [Option.map_some, Suffix.asks, Option.some.injEq, Prod.mk.injEq,
      Option.map_eq_some_iff] at h
    obtain ⟨k, hk, rfl⟩ := h.2.2.1
    rw [String.toList_ofList]
    exact (reading?_eq_some_iff.mp hr).known hk

/-- The suffix of a kind can be read back if and only if links know the kind: alone behind
the name, and behind the tag of either language that links know. -/
theorem kind_suffixes_read_iff_known (name : String) (hne : name ≠ "") (hname : Plain name.toList)
    (identifier : String) (offset : Nat) :
    ((parse (name ++ "-" ++ (Kind.ofIdentifier identifier).identifier).toList offset).AsksKind
        name (Kind.ofIdentifier identifier).identifier none ↔
      (Kind.ofIdentifier identifier).isOther = false) ∧
    ∀ l ∈ [Language.swift, Language.objectiveC],
      (parse (name ++ "-" ++ l.linkTag ++ "." ++
          (Kind.ofIdentifier identifier).identifier).toList offset).AsksKind
        name (Kind.ofIdentifier identifier).identifier (some l) ↔
      (Kind.ofIdentifier identifier).isOther = false := by
  have hiff : (Kind.ofIdentifier identifier).isOther = false ↔
      (Kind.known? (Kind.ofIdentifier identifier).identifier.toList).isSome = true := by
    rw [Kind.isSome_known?_ofIdentifier, Bool.not_eq_true']
  rw [hiff]
  refine ⟨⟨AsksKind.known, fun hk => ?_⟩, fun l hl => ⟨AsksKind.known, fun hk => ?_⟩⟩
  · obtain ⟨hspells, hasks⟩ := parse_kind hne hname hk offset
    simp only [AsksKind, String.toList_append, List.append_assoc]
    exact ⟨hspells.name_eq, hasks⟩
  · have htag : Language.ofLinkTag? l.linkTag.toList = some l := by
      rcases List.mem_cons.mp hl with rfl | hl
      · rfl
      · rw [List.mem_singleton.mp hl]
        rfl
    obtain ⟨hspells, hasks⟩ := parse_taggedKind hne hname htag hk offset
    simp only [AsksKind, String.toList_append, List.append_assoc]
    exact ⟨hspells.name_eq, hasks⟩

theorem kind_suffixes_read_iff_known_case :
    (parse "Value-enum.case".toList 5).AsksKind "Value" "enum.case" none ∧
      (parse "Value-objc.enum.case".toList 5).AsksKind "Value" "enum.case" (some .objectiveC) := by
  have hread := kind_suffixes_read_iff_known "Value" (by decide) (by decide) "swift.enum.case" 5
  exact ⟨hread.1.mpr (by decide), (hread.2 .objectiveC (by decide)).mpr (by decide)⟩

/-- Links do not know unions. Beside a class, the suffix of a union is its kind. But this is
read as a hash, and behind the tag of a language as a part of the name. -/
theorem kind_suffix_unread_union :
    Kind.ofIdentifier "swift.union" = .other "union" ∧
      Entry.disambiguator? [⟨some "1", some "union", 2⟩, ⟨some "2", some "class", 3⟩]
        ⟨some "1", some "union", 2⟩ = some (.kind "union") ∧
      (parse "Value-union".toList 0).suffix.map Suffix.asks = some (some "union", none, none) ∧
      ¬ (parse "Value-union".toList 0).AsksKind "Value" "union" none ∧
      (parse "Value-swift.union".toList 0).suffix = none ∧
      ¬ (parse "Value-swift.union".toList 0).AsksKind "Value" "union" (some .swift) := by
  decide

end Component

end Link

end SymbolLinks
