import SymbolLinks.Data.KeyIndex
import SymbolLinks.Symbol

/-! The symbols of one run, in the order they were first seen. Symbols are found by
identifier, and the symbol around another one by its place; a second symbol with a known
identifier only adds its names. Both ways to find symbols go through indexes, which agree
with the list of symbols in every store. -/

namespace SymbolLinks

/-- A module and a path below it. -/
structure Place where
  moduleName : String
  path : List String
  deriving DecidableEq

namespace Place

instance : Ord Place := ⟨compareLex (compareOn moduleName) (compareOn path)⟩

instance : Std.TransOrd Place :=
  inferInstanceAs (Std.TransCmp (compareLex (compareOn moduleName) (compareOn path)))

theorem eq_of_compare {a b : Place} (h : compare a b = .eq) : a = b := by
  obtain ⟨hmodule, hpath⟩ := compareLex_eq_eq.mp h
  have hmodule : a.moduleName = b.moduleName := Std.LawfulEqCmp.eq_of_compare hmodule
  have hpath : a.path = b.path := Std.LawfulEqCmp.eq_of_compare hpath
  cases a; cases b; simp_all

instance : Std.LawfulEqOrd Place where
  eq_of_compare := eq_of_compare

end Place

/-- Where a symbol is declared in its primary language. -/
def Symbol.place (s : Symbol) : Place := ⟨s.moduleName, s.path⟩

structure SymbolStore where
  symbols : List Symbol
  /-- Positions of identifiers. -/
  index : KeyMap String Nat
  /-- Position of the first symbol that was added at a place. -/
  byPlace : KeyMap Place Nat
  distinct : (symbols.map (·.id)).Nodup
  index_agrees : index.Indexes (symbols.map (·.id))
  /-- Each symbol was added at some place. A symbol that had no name in its primary language
  then may get one later, but it stays where it was filed. -/
  byPlace_agrees : ∃ places, places.length = symbols.length ∧ byPlace.Indexes places

namespace SymbolStore

instance : EmptyCollection SymbolStore := ⟨{
  symbols := []
  index := ∅
  byPlace := ∅
  distinct := .nil
  index_agrees := .empty
  byPlace_agrees := ⟨[], rfl, .empty⟩ }⟩

/-- Two stores with the same symbols at the same places are the same. -/
theorem ext {st st' : SymbolStore} (hsymbols : st.symbols = st'.symbols)
    (hindex : st.index = st'.index) (hplace : st.byPlace = st'.byPlace) : st = st' := by
  cases st; cases st'; simp_all

instance : DecidableEq SymbolStore := fun st st' =>
  decidable_of_iff (st.symbols = st'.symbols ∧ st.index = st'.index ∧ st.byPlace = st'.byPlace)
    ⟨fun h => ext h.1 h.2.1 h.2.2, fun h => h ▸ ⟨rfl, rfl, rfl⟩⟩

def size (st : SymbolStore) : Nat := st.symbols.length

/-- Position of a symbol in insertion order. -/
def indexOf? (st : SymbolStore) (id : String) : Option Nat := st.index.get? id

def get? (st : SymbolStore) (id : String) : Option Symbol := (st.indexOf? id).bind (st.symbols[·]?)

def contains (st : SymbolStore) (id : String) : Bool := (st.indexOf? id).isSome

/-- Replace symbols by others with the same identifiers. -/
def withSymbols (st : SymbolStore) (symbols : List Symbol)
    (keeps : symbols.map (·.id) = st.symbols.map (·.id)) : SymbolStore where
  symbols
  index := st.index
  byPlace := st.byPlace
  distinct := keeps ▸ st.distinct
  index_agrees := keeps ▸ st.index_agrees
  byPlace_agrees := by
    have hlength := congrArg List.length keeps
    rw [List.length_map, List.length_map] at hlength
    exact hlength ▸ st.byPlace_agrees

theorem map_id_modify {f : Symbol → Symbol} (keeps : ∀ s, (f s).id = s.id) (ss : List Symbol)
    (i : Nat) : (ss.modify i f).map (·.id) = ss.map (·.id) := by
  refine List.ext_getElem? fun j => ?_
  rw [List.getElem?_map, List.getElem?_map, List.getElem?_modify]
  cases ss[j]? with
  | none => rfl
  | some s => by_cases hij : i = j <;> simp [hij, keeps]

/-- Change the symbol with identifier `id`. -/
def update (st : SymbolStore) (id : String) (f : Symbol → Symbol)
    (keeps : ∀ s, (f s).id = s.id) : SymbolStore :=
  match st.indexOf? id with
  | none => st
  | some i => st.withSymbols (st.symbols.modify i f) (map_id_modify keeps _ _)

/-- Names of `new` in the languages that `old` has no name in. -/
def mergeNames (old new : Symbol) : Symbol :=
  { old with names := new.names.entries.foldl (fun ns (l, path) => ns.insertIfNew l path) old.names }

theorem id_mergeNames (old new : Symbol) : (mergeNames old new).id = old.id := rfl

/-- Add a symbol whose identifier is new. It is found by its place if it is the first one
there. -/
def push (st : SymbolStore) (s : Symbol) (new : st.contains s.id ≠ true) : SymbolStore where
  symbols := st.symbols ++ [s]
  index := st.index.insert s.id st.size
  byPlace := st.byPlace.insertIfNew s.place st.size
  distinct := by
    have hnone : st.index.get? s.id = none := by simpa [contains, indexOf?] using new
    rw [st.index_agrees, List.idxOf?_eq_none_iff] at hnone
    simpa [List.nodup_append, st.distinct] using hnone
  index_agrees := by
    have hnone : st.index.get? s.id = none := by simpa [contains, indexOf?] using new
    rw [List.map_append]
    refine st.index_agrees.snoc s.id ?_
    rw [hnone, List.length_map]
    rfl
  byPlace_agrees := by
    obtain ⟨places, hlength, hplaces⟩ := st.byPlace_agrees
    exact ⟨places ++ [s.place], by simp [hlength], hplaces.snoc s.place (by rw [hlength]; rfl)⟩

/-- Add a symbol, or its names if its identifier is known. The first insertion
decides everything else. -/
def insert (st : SymbolStore) (s : Symbol) : SymbolStore :=
  if h : st.contains s.id then st.update s.id (mergeNames · s) (id_mergeNames · s) else st.push s h

/-- The first symbol that was added in the same module at the path of `s` without its last
component. For a symbol at the top of its module that is the module. -/
def parentOf? (st : SymbolStore) (s : Symbol) : Option Symbol :=
  if s.path.isEmpty then none
  else (st.byPlace.get? ⟨s.moduleName, s.path.dropLast⟩).bind (st.symbols[·]?)

end SymbolStore

end SymbolLinks
