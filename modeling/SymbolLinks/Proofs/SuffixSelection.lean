import Mathlib.Data.List.Nodup
import SymbolLinks.Proofs.LinkComponents
import SymbolLinks.Proofs.ListLaws
import SymbolLinks.Proofs.TreeInvariant
import SymbolLinks.Tree.Walk

/-! Suffixes select the entries they are made for. The shortest suffix of an entry is
its kind, if no other entry has that kind, else its hash. Read back from a link, it
leaves that entry of its container and no other (`SymbolGroup.select_kind`,
`SymbolGroup.select_hash`). -/
namespace SymbolLinks

/-! ## Reading suffixes back -/

namespace Link.Component

variable {name : String}

/-- A component with the name and a suffix that asks for a kind. -/
theorem parse_kind (hne : name ≠ "") (hname : Plain name.toList) {k : String}
    (hk : (Kind.known? k.toList).isSome = true) (offset : Nat) :
    (parse (name.toList ++ '-' :: k.toList) offset).Spells name ∧
      (parse (name.toList ++ '-' :: k.toList) offset).suffix.map Suffix.asks =
        some (none, some k, none) := by
  have hdash : '-' ∉ k.toList := Kind.not_mem_of_known hk (by decide)
  have hread := reading?_kind (by simpa using hne) hname hdash (kindSuffix?_known hk)
  simpa using parse_suffixed hname hread rfl offset

/-- A component with the name and a suffix that asks for a kind in a language. -/
theorem parse_taggedKind (hne : name ≠ "") (hname : Plain name.toList) {tag k : String}
    {l : Language} (htag : Language.ofLinkTag? tag.toList = some l)
    (hk : (Kind.known? k.toList).isSome = true) (offset : Nat) :
    (parse (name.toList ++ '-' :: (tag.toList ++ '.' :: k.toList)) offset).Spells name ∧
      (parse (name.toList ++ '-' :: (tag.toList ++ '.' :: k.toList)) offset).suffix.map
        Suffix.asks = some (none, some k, some l) := by
  have htagDash : '-' ∉ tag.toList := Language.not_mem_of_ofLinkTag? htag (by decide)
  have hkDash : '-' ∉ k.toList := Kind.not_mem_of_known hk (by decide)
  have hdash : '-' ∉ tag.toList ++ '.' :: k.toList := by simp [htagDash, hkDash]
  have hread := reading?_kind (by simpa using hne) hname hdash (kindSuffix?_tagged htag hk)
  simpa using parse_suffixed hname hread rfl offset

/-- A component with the name and a suffix that asks for a hash. -/
theorem parse_hash (hne : name ≠ "") (hname : Plain name.toList) {h : String}
    (hhash : ShortHash.isHash h.toList = true) (hkind : Kind.known? h.toList = none)
    (offset : Nat) :
    (parse (name.toList ++ '-' :: h.toList) offset).Spells name ∧
      (parse (name.toList ++ '-' :: h.toList) offset).suffix.map Suffix.asks =
        some (some h, none, none) := by
  have hread := reading?_hash (by simpa using hne) hname hhash hkind
  simpa using parse_suffixed hname hread rfl offset

end Link.Component

/-! ## Shortest suffixes -/

namespace Entry

open Link (Suffix)

variable {group : List Entry} {e : Entry}

theorem disambiguator?_eq_kind {k : String} (h : e.disambiguator? group = some (.kind k)) :
    e.kind = some k ∧ (group.filter (·.kind == some k)).length = 1 := by
  unfold disambiguator? at h
  split at h
  · cases h
  · split at h
    · rename_i k' hk'
      split at h
      · rename_i hlength
        cases h
        exact ⟨hk', hlength⟩
      · simp [Option.map_eq_some_iff] at h
    · simp [Option.map_eq_some_iff] at h

theorem disambiguator?_eq_hash {hash : String} (h : e.disambiguator? group = some (.hash hash)) :
    e.hash = some hash := by
  unfold disambiguator? at h
  split at h
  · cases h
  · split at h
    · split at h
      · cases h
      · simpa [Option.map_eq_some_iff] using h
    · simpa [Option.map_eq_some_iff] using h

/-- Only an entry that is alone, or has no hash, goes without a suffix. -/
theorem length_le_of_disambiguator?_eq_none (h : e.disambiguator? group = none) :
    group.length ≤ 1 ∨ e.hash = none := by
  unfold disambiguator? at h
  split at h
  · exact .inl ‹_›
  · split at h
    · split at h
      · cases h
      · exact .inr (by simpa using h)
    · exact .inr (by simpa using h)

/-- No other entry of the group has a kind that is a shortest suffix. -/
theorem eq_of_disambiguator?_eq_kind {k : String} (h : e.disambiguator? group = some (.kind k))
    (he : e ∈ group) {e' : Entry} (he' : e' ∈ group) (hk : e'.kind = some k) : e' = e := by
  obtain ⟨hkind, hlength⟩ := disambiguator?_eq_kind h
  obtain ⟨only, honly⟩ := List.length_eq_one_iff.mp hlength
  have hmem : ∀ x ∈ group, x.kind = some k → x = only := by
    intro x hx hxk
    have hx' : x ∈ group.filter (·.kind == some k) := List.mem_filter.mpr ⟨hx, by simp [hxk]⟩
    rw [honly] at hx'
    exact List.mem_singleton.mp hx'
  rw [hmem e' he' hk, hmem e he hkind]

/-- What a suffix selects only depends on what it asks for. -/
theorem select_of_asks {t : PathTree} {suffix : Option Suffix} {hash kind : Option String}
    {l : Option Language} (h : suffix.map Suffix.asks = some (hash, kind, l)) (es : List Entry) :
    select t suffix es = es.filter fun e => kind.all (fun k => e.kind == some k) &&
      hash.all (fun h => e.hash == some h) && l.all (t.hasLanguage e.node) := by
  obtain ⟨s, rfl, hs⟩ := Option.map_eq_some_iff.mp h
  cases hs
  rfl

end Entry

namespace PathTree

/-! ## Selecting one entry -/

variable {fits : Labelling} {t : PathTree} {es : List Entry} {e : Entry}
  {suffix : Option Link.Suffix}

/-- Different identifiers have different hashes. -/
def Telling (fits : Labelling) : Prop :=
  ∀ {id id' hash kind kind' : String}, fits id hash kind → fits id' hash kind' → id = id'

/-- Labels that can be written in a link: hashes tell identifiers apart, and links know
all kinds. -/
structure Writable (fits : Labelling) : Prop where
  telling : Telling fits
  isHash : ∀ {id hash kind : String}, fits id hash kind → ShortHash.isHash hash.toList = true
  known : ∀ {id hash kind : String}, fits id hash kind → (Kind.known? kind.toList).isSome = true

/-- Labels that can be read back from a link, since no hash reads as a kind. -/
structure Legible (fits : Labelling) : Prop extends Writable fits where
  noKind : ∀ {id hash kind : String}, fits id hash kind → Kind.known? hash.toList = none

theorem SymbolGroup.nodup (h : SymbolGroup fits t es) : es.Nodup := List.Nodup.of_map _ h.distinct

theorem SymbolGroup.eq_of_symbol (h : SymbolGroup fits t es) {e' : Entry} (he : e ∈ es)
    (he' : e' ∈ es) (hsym : t.symbolAt? e.node = t.symbolAt? e'.node) : e = e' :=
  List.inj_on_of_nodup_map h.distinct he he' hsym

theorem SymbolGroup.eq_of_hash (h : SymbolGroup fits t es) (htell : Telling fits) {e' : Entry}
    (he : e ∈ es) (he' : e' ∈ es) (hhash : e.hash = e'.hash) : e = e' := by
  obtain ⟨id, hash, kind, hid, hh, _, hlabel⟩ := h.labelled e he
  obtain ⟨id', hash', kind', hid', hh', _, hlabel'⟩ := h.labelled e' he'
  have hsame : hash = hash' := Option.some.inj (hh.symm.trans (hhash.trans hh'))
  subst hsame
  refine h.eq_of_symbol he he' ?_
  rw [hid, hid', htell hlabel hlabel']

-- The entries of a container may have to be told from more entries than their own.
variable {group : List Entry}

/-- An entry that needs no suffix is alone. -/
theorem eq_singleton_of_disambiguator? (hes : HolderGroup t es ∨ SymbolGroup fits t es)
    (hsub : es ⊆ group) (he : e ∈ es) (h : e.disambiguator? group = none) : es = [e] := by
  rcases hes with ⟨i, rfl, _⟩ | hes
  · rw [List.mem_singleton.mp he]
  · rcases Entry.length_le_of_disambiguator?_eq_none h with hlength | hhash
    · have hall := filter_eq_singleton (p := fun _ => true) hes.nodup he rfl fun e' he' _ =>
        eq_of_length_le_one hlength (hsub he') (hsub he)
      simpa using hall
    · obtain ⟨id, hash, kind, _, hsome, _⟩ := hes.labelled e he
      cases hhash.symm.trans hsome

/-- Only entries of symbols have suffixes. -/
theorem SymbolGroup.of_disambiguator? (hes : HolderGroup t es ∨ SymbolGroup fits t es) (he : e ∈ es)
    {d : Disambiguator} (h : e.disambiguator? group = some d) : SymbolGroup fits t es := by
  rcases hes with ⟨i, rfl, _⟩ | hes
  · rw [List.mem_singleton.mp he] at h
    cases d with
    | hash text => cases Entry.disambiguator?_eq_hash h
    | kind text => cases (Entry.disambiguator?_eq_kind h).1
  · exact hes

/-- A kind that is a shortest suffix selects its entry, also in a language of its node. -/
theorem SymbolGroup.select_kind (hes : SymbolGroup fits t es) (hsub : es ⊆ group) (he : e ∈ es)
    {k : String} (h : e.disambiguator? group = some (.kind k)) {l : Option Language}
    (hl : l.all (t.hasLanguage e.node) = true)
    (hasks : suffix.map Link.Suffix.asks = some (none, some k, l)) :
    Entry.select t suffix es = [e] := by
  obtain ⟨hkind, -⟩ := Entry.disambiguator?_eq_kind h
  rw [Entry.select_of_asks hasks]
  refine filter_eq_singleton hes.nodup he (by simp [hkind, hl]) fun e' he' hp => ?_
  simp only [Option.all_some, Option.all_none, Bool.and_true, Bool.and_eq_true, beq_iff_eq] at hp
  exact Entry.eq_of_disambiguator?_eq_kind h (hsub he) (hsub he') hp.1

/-- A hash that is a shortest suffix selects its entry. -/
theorem SymbolGroup.select_hash (hes : SymbolGroup fits t es) (htell : Telling fits) (he : e ∈ es)
    {hash : String} (h : e.disambiguator? group = some (.hash hash))
    (hasks : suffix.map Link.Suffix.asks = some (some hash, none, none)) :
    Entry.select t suffix es = [e] := by
  have hhash := Entry.disambiguator?_eq_hash h
  rw [Entry.select_of_asks hasks]
  refine filter_eq_singleton hes.nodup he (by simp [hhash]) fun e' he' hp => ?_
  refine hes.eq_of_hash htell he' he ?_
  simpa [hhash] using hp

/-- A kind that is a shortest suffix is read as a kind. -/
theorem SymbolGroup.known_kind (hes : SymbolGroup fits t es) (hfits : Writable fits) (he : e ∈ es)
    {k : String} (h : e.disambiguator? group = some (.kind k)) :
    (Kind.known? k.toList).isSome = true := by
  obtain ⟨id, hash, kind, _, _, hkind, hlabel⟩ := hes.labelled e he
  cases hkind.symm.trans (Entry.disambiguator?_eq_kind h).1
  exact hfits.known hlabel

/-- A hash that is a shortest suffix is read as a hash. -/
theorem SymbolGroup.isHash_hash (hes : SymbolGroup fits t es) (hfits : Writable fits) (he : e ∈ es)
    {hash : String} (h : e.disambiguator? group = some (.hash hash)) :
    ShortHash.isHash hash.toList = true := by
  obtain ⟨id, hash', kind, _, hhash, _, hlabel⟩ := hes.labelled e he
  cases hhash.symm.trans (Entry.disambiguator?_eq_hash h)
  exact hfits.isHash hlabel

theorem SymbolGroup.noKind_hash (hes : SymbolGroup fits t es) (hfits : Legible fits) (he : e ∈ es)
    {hash : String} (h : e.disambiguator? group = some (.hash hash)) :
    Kind.known? hash.toList = none := by
  obtain ⟨id, hash', kind, _, hhash, _, hlabel⟩ := hes.labelled e he
  cases hhash.symm.trans (Entry.disambiguator?_eq_hash h)
  exact hfits.noKind hlabel

end PathTree

end SymbolLinks
