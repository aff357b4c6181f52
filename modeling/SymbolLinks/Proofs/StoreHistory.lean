import Mathlib.Data.List.Basic
import Mathlib.Data.List.Find
import SymbolLinks.Proofs.StoreLaws
import SymbolLinks.SymbolGraph

/-! A store is known by the history of its insertions. Symbols stand in the order in which
their identifiers were first inserted, each as it was inserted first, but a language spells
a symbol by the first path that was inserted for both. The first insertion settles the path
in the primary language for good, so the index of places stays right while names are merged
(`byPlace_insert`), and the history also tells which symbol stands around another one
(`ofHistory_follows`). -/
namespace SymbolLinks

/-- What is inserted into stores: a symbol that a graph of some module lists, or a module. -/
inductive Insertion where
  | listed (g : GraphSymbol) (moduleName : String)
  | ofModule (name : String) (language : Language)

namespace Insertion

def symbol : Insertion → Symbol
  | listed g moduleName => g.toSymbol moduleName
  | ofModule name language => .ofModule name language

def id : Insertion → String
  | listed g _ => g.id
  | ofModule name _ => name

def language : Insertion → Language
  | listed g _ => g.language
  | ofModule _ language => language

/-- Path below the module; that of a module itself is empty. -/
def path : Insertion → List String
  | listed g _ => g.path
  | ofModule _ _ => []

@[simp] theorem id_symbol (x : Insertion) : x.symbol.id = x.id := by
  cases x <;> rfl

@[simp] theorem language_symbol (x : Insertion) : x.symbol.language = x.language := by
  cases x <;> rfl

/-- An insertion brings one name. -/
theorem names_symbol (x : Insertion) (l : Language) :
    x.symbol.names.get? l = if x.language = l then some x.path else none := by
  have hnames : x.symbol.names = .singleton x.language x.path := by
    cases x <;> rfl
  rw [hnames]
  split
  · rename_i hl
    rw [← hl]
    exact KeyMap.get?_insert_self ..
  · rename_i hl
    exact KeyMap.get?_insert_of_ne _ _ (Ne.symm hl)

/-! ## What a history says of an identifier -/

/-- The first insertion under an identifier. -/
def first? (history : List Insertion) (id : String) : Option Insertion :=
  history.find? (·.id = id)

/-- The path of the first insertion under an identifier. -/
def primaryPath? (history : List Insertion) (id : String) : Option (List String) :=
  (first? history id).map (·.path)

/-- The path of the first insertion under an identifier that had the language. -/
def spelling? (history : List Insertion) (id : String) (l : Language) : Option (List String) :=
  (history.find? fun x => x.id = id ∧ x.language = l).map (·.path)

theorem spelling?_snoc (history : List Insertion) (x : Insertion) (id : String) (l : Language) :
    spelling? (history ++ [x]) id l =
      (spelling? history id l).or (if x.id = id then x.symbol.names.get? l else none) := by
  rw [spelling?, List.find?_append, spelling?, names_symbol]
  cases history.find? fun x => x.id = id ∧ x.language = l with
  | some y => rfl
  | none =>
    by_cases hid : x.id = id
    · by_cases hl : x.language = l <;> simp [hid, hl]
    · simp [hid]

theorem spelling?_eq_none {history : List Insertion} {id : String} (h : id ∉ history.map (·.id))
    (l : Language) : spelling? history id l = none := by
  rw [spelling?, Option.map_eq_none_iff, List.find?_eq_none]
  intro x hx hfits
  exact h (List.mem_map.mpr ⟨x, hx, (of_decide_eq_true hfits).1⟩)

/-- The first insertion spells its own language. -/
theorem spelling?_of_first? {history : List Insertion} {id : String} {x : Insertion}
    (h : first? history id = some x) : spelling? history id x.language = some x.path := by
  obtain ⟨hid, earlier, later, hhistory, hearlier⟩ := List.find?_eq_some_iff_append.mp h
  have hfind : (history.find? fun y => y.id = id ∧ y.language = x.language) = some x := by
    refine List.find?_eq_some_iff_append.mpr ⟨?_, earlier, later, hhistory, fun y hy => ?_⟩
    · simpa using hid
    · have hne : y.id ≠ id := by simpa using hearlier y hy
      simp [hne]
  rw [spelling?, hfind]
  rfl

end Insertion

namespace SymbolStore

open Insertion (first? primaryPath? spelling?)

/-- The store after some insertions. -/
def ofHistory (history : List Insertion) : SymbolStore := ofInserts (history.map (·.symbol))

theorem ofHistory_snoc (history : List Insertion) (x : Insertion) :
    ofHistory (history ++ [x]) = (ofHistory history).insert x.symbol := by
  rw [ofHistory, List.map_append]
  exact ofInserts_snoc _ _

theorem ids_ofHistory (history : List Insertion) :
    (ofHistory history).ids = (history.map (·.id)).eraseDups := by
  rw [ofHistory, ids_ofInserts, List.map_map]
  simp only [Function.comp_def, Insertion.id_symbol]

/-! ## Names and primary paths -/

/-- The names of the symbols of a store are those of a history. -/
def Spells (history : List Insertion) (st : SymbolStore) : Prop :=
  ∀ s ∈ st.symbols, ∀ l, s.names.get? l = spelling? history s.id l

/-- One more insertion brings its name to the symbol with its identifier. -/
theorem Spells.insert {history : List Insertion} {st : SymbolStore} (h : Spells history st)
    (hids : ∀ id, id ∈ history.map (·.id) → id ∈ st.ids) (x : Insertion) :
    Spells (history ++ [x]) (st.insert x.symbol) := by
  intro s hs l
  rw [Insertion.spelling?_snoc]
  obtain ⟨hs, hne⟩ | ⟨old, hold, hid, rfl⟩ | ⟨rfl, hnew⟩ := mem_symbols_insert hs
  · rw [Insertion.id_symbol] at hne
    rw [if_neg (Ne.symm hne), Option.or_none, h s hs]
  · have hsame : x.id = (mergeNames old x.symbol).id := (hid.trans x.id_symbol).symm
    rw [names_mergeNames, if_pos hsame, h old hold]
    rfl
  · rw [Insertion.id_symbol] at hnew ⊢
    have hnone := Insertion.spelling?_eq_none (fun hmem => hnew (hids _ hmem)) l
    rw [hnone, if_pos rfl, Option.none_or]

theorem spells_ofHistory (history : List Insertion) : Spells history (ofHistory history) := by
  induction history using List.reverseRecOn with
  | nil =>
    intro s hs
    cases hs
  | append_singleton history x ih =>
    rw [ofHistory_snoc]
    refine ih.insert (fun id hid => ?_) x
    rw [ids_ofHistory]
    exact List.mem_eraseDups.mpr hid

theorem exists_first? {history : List Insertion} {s : Symbol} (hs : s ∈ (ofHistory history).symbols) :
    ∃ x, first? history s.id = some x ∧ s = { x.symbol with names := s.names } := by
  obtain ⟨first, hfirst, heq⟩ := exists_first hs
  rw [List.find?_map] at hfirst
  obtain ⟨x, hx, rfl⟩ := Option.map_eq_some_iff.mp hfirst
  refine ⟨x, ?_, heq⟩
  rw [first?, ← hx]
  refine List.find?_congr fun y _ => ?_
  rw [Function.comp_apply, Insertion.id_symbol]
  rfl

/-- A symbol has a name in its primary language, and later insertions leave it as it is. -/
theorem exists_primaryPath {history : List Insertion} {s : Symbol}
    (hs : s ∈ (ofHistory history).symbols) :
    ∃ path, s.names.get? s.language = some path ∧ primaryPath? history s.id = some path := by
  obtain ⟨x, hx, heq⟩ := exists_first? hs
  have hlanguage : s.language = x.language := (congrArg Symbol.language heq).trans x.language_symbol
  refine ⟨x.path, ?_, by rw [primaryPath?, hx, Option.map_some]⟩
  rw [spells_ofHistory history s hs, hlanguage, Insertion.spelling?_of_first? hx]

theorem primaryPath?_of_mem {history : List Insertion} {s : Symbol}
    (hs : s ∈ (ofHistory history).symbols) : primaryPath? history s.id = some s.path := by
  obtain ⟨path, hname, hpath⟩ := exists_primaryPath hs
  rw [hpath, Symbol.path, hname, Option.getD_some]

/-! ## The index of places -/

/-- A symbol with a name in its primary language stays at its place. -/
theorem place_mergeNames {old : Symbol} (new : Symbol) (h : (old.names.get? old.language).isSome) :
    (mergeNames old new).place = old.place := by
  obtain ⟨path, hpath⟩ := Option.isSome_iff_exists.mp h
  have hnew : (mergeNames old new).names.get? old.language = some path := by
    rw [names_mergeNames, hpath, Option.some_or]
  exact congrArg (fun names : Option (List String) => Place.mk old.moduleName (names.getD []))
    (hnew.trans hpath.symm)

/-- While symbols have names in their primary languages, insertions keep the index of places
in step with the places of the symbols. -/
theorem byPlace_insert {st : SymbolStore} (h : st.byPlace.Indexes (st.symbols.map (·.place)))
    (hnamed : ∀ s ∈ st.symbols, (s.names.get? s.language).isSome) (x : Symbol) :
    (st.insert x).byPlace.Indexes ((st.insert x).symbols.map (·.place)) := by
  unfold insert
  split
  · have hplaces : (st.update x.id (mergeNames · x) (id_mergeNames · x)).symbols.map (·.place) =
        st.symbols.map (·.place) := by
      rw [symbols_update, List.map_map]
      refine List.map_congr_left fun s hs => ?_
      rw [Function.comp_apply]
      split
      · exact place_mergeNames x (hnamed s hs)
      · rfl
    rw [byPlace_update, hplaces]
    exact h
  · rw [push, List.map_append]
    refine h.snoc x.place ?_
    rw [List.length_map]
    rfl

theorem byPlace_ofHistory (history : List Insertion) :
    (ofHistory history).byPlace.Indexes ((ofHistory history).symbols.map (·.place)) := by
  induction history using List.reverseRecOn with
  | nil => exact .empty
  | append_singleton history x ih =>
    rw [ofHistory_snoc]
    refine byPlace_insert ih (fun s hs => ?_) x.symbol
    obtain ⟨path, hname, -⟩ := exists_primaryPath hs
    rw [hname]
    rfl

/-! ## Enclosing symbols -/

/-- A symbol of a module whose first insertion had a path. -/
def DeclaredAt (history : List Insertion) (moduleName : String) (path : List String) (s : Symbol) :
    Prop :=
  s.moduleName = moduleName ∧ primaryPath? history s.id = some path

instance (history : List Insertion) (moduleName : String) (path : List String) (s : Symbol) :
    Decidable (DeclaredAt history moduleName path s) :=
  inferInstanceAs (Decidable (_ ∧ _))

/-- The symbol around another one is the first that the history declares at the path without
its last component. -/
theorem parentOf?_cases {history : List Insertion} {s : Symbol} (hs : s ∈ (ofHistory history).symbols) :
    (primaryPath? history s.id = some [] ∧ (ofHistory history).parentOf? s = none) ∨
      ∃ path c, primaryPath? history s.id = some (path ++ [c]) ∧ (ofHistory history).parentOf? s =
        (ofHistory history).symbols.find? (DeclaredAt history s.moduleName path ·) := by
  rw [primaryPath?_of_mem hs, parentOf?]
  rcases List.eq_nil_or_concat' s.path with hpath | ⟨path, c, hpath⟩
  · rw [hpath]
    exact .inl ⟨rfl, rfl⟩
  · refine .inr ⟨path, c, congrArg some hpath, ?_⟩
    rw [hpath, List.dropLast_concat, if_neg (by simp), (byPlace_ofHistory history).bind_getElem?]
    refine List.find?_congr fun q hq => ?_
    -- The path that a stored symbol has now is the one it was first inserted with.
    rw [Bool.eq_iff_iff, beq_iff_eq, decide_eq_true_iff, DeclaredAt, primaryPath?_of_mem hq,
      Option.some.injEq, Symbol.place, Place.mk.injEq]

/-- A store holds what a history of insertions says. -/
structure Follows (history : List Insertion) (st : SymbolStore) : Prop where
  /-- One symbol for each identifier, in the order of the first insertions. -/
  ids : st.ids = (history.map (·.id)).eraseDups
  /-- Looking up an identifier gives the position of its symbol. -/
  position : ∀ id i, st.indexOf? id = some i ↔ (history.map (·.id)).eraseDups[i]? = some id
  unknown : ∀ id, st.indexOf? id = none ↔ ∀ x ∈ history, x.id ≠ id
  /-- But for its names, a symbol is what was inserted first. -/
  first : ∀ s ∈ st.symbols, ∃ x, first? history s.id = some x ∧ s = { x.symbol with names := s.names }
  names : ∀ s ∈ st.symbols, ∀ l, s.names.get? l = spelling? history s.id l
  /-- Symbols are filed where they are, though their names keep being merged. -/
  places : st.byPlace.Indexes (st.symbols.map (·.place))
  /-- The symbol around another one is the earliest with the rest of its path. -/
  parent : ∀ s ∈ st.symbols, ∀ p, st.parentOf? s = some p ↔
    ∃ path c, primaryPath? history s.id = some (path ++ [c]) ∧
      DeclaredAt history s.moduleName path p ∧
      ∃ earlier later, st.symbols = earlier ++ p :: later ∧
        ∀ q ∈ earlier, ¬ DeclaredAt history s.moduleName path q
  no_parent : ∀ s ∈ st.symbols, st.parentOf? s = none ↔
    primaryPath? history s.id = some [] ∨
      ∃ path c, primaryPath? history s.id = some (path ++ [c]) ∧
        ∀ q ∈ st.symbols, ¬ DeclaredAt history s.moduleName path q

/-- However a store is filled, it follows the history of its insertions. -/
theorem ofHistory_follows (history : List Insertion) : Follows history (ofHistory history) where
  ids := ids_ofHistory history
  position := by
    intro id i
    rw [indexOf?_eq_some_iff, ids_ofHistory]
  unknown := by
    intro id
    rw [indexOf?_eq_none_iff, ids_ofHistory, List.mem_eraseDups, List.mem_map]
    simp only [not_exists, not_and, ne_eq]
  first := fun _ => exists_first?
  names := spells_ofHistory history
  places := byPlace_ofHistory history
  parent := by
    intro s hs p
    obtain ⟨hpath, hparent⟩ | ⟨path, c, hpath, hparent⟩ := parentOf?_cases hs
    · rw [hpath, hparent]
      simp
    · rw [hpath, hparent, List.find?_eq_some_iff_append]
      simp
  no_parent := by
    intro s hs
    obtain ⟨hpath, hparent⟩ | ⟨path, c, hpath, hparent⟩ := parentOf?_cases hs
    · rw [hpath, hparent]
      simp
    · rw [hpath, hparent, List.find?_eq_none]
      simp

end SymbolStore

end SymbolLinks
