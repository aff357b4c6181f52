import SymbolLinks.Proofs.CollisionViews
import SymbolLinks.Proofs.LaterPasses
import SymbolLinks.Proofs.StoreOrder

/-! What other languages do to the URLs of Swift symbols. Their passes come last and only
make the tree larger, so primary nodes stay and no symbol's primary node gets company. But
they add nodes without symbol, and they give symbols to such nodes. Nodes without symbol
count as primary, so both can change the suffix of a symbol whose name differs from theirs
at most in case, and nothing else does (`canonicalPaths_inSwift`). -/
namespace SymbolLinks

/-- A symbol without its names in other languages than Swift. -/
def Symbol.inSwift (s : Symbol) : Symbol :=
  { s with names := (s.names.get? .swift).elim ∅ (.singleton .swift) }

def SymbolStore.inSwift (st : SymbolStore) : SymbolStore := ofInserts (st.symbols.map Symbol.inSwift)

namespace PathTree

/-! ## Segments that larger trees keep -/

section Keeps

variable {kinds : String → String} {t u : PathTree}

theorem Keeps.beside_iff (h : Keeps t u) {i k : NodeId} (hi : i < t.size) (hk : k < t.size) :
    Beside u i k ↔ Beside t i k := by
  rw [Beside, Beside, h.parent hi, h.parent hk, h.name hi, h.name hk]

theorem Keeps.symbolBeside_iff (h : Keeps t u) (hindexed : Indexed t) {i : NodeId} (hi : i < t.size)
    (p : String → Prop) : SymbolBeside u p i ↔ SymbolBeside t p i := by
  have hlt : ∀ {id : String} {k : NodeId}, t.primary.get? id = some k → k < t.size :=
    fun hk => lt_size_of_symbolAt? (hindexed.primary_mem hk)
  constructor
  · rintro ⟨k, id, hbeside, hk, hp⟩
    rw [h.primary] at hk
    exact ⟨k, id, (h.beside_iff hi (hlt hk)).mp hbeside, hk, hp⟩
  · rintro ⟨k, id, hbeside, hk, hp⟩
    exact ⟨k, id, (h.beside_iff hi (hlt hk)).mpr hbeside, (h.primary id).trans hk, hp⟩

/-- Only the primary node of a symbol has a suffix. -/
theorem Inv.suffix?_of_no_primary {fits : Labelling} (h : Inv fits t) {p : NodeId} {name : String}
    {es : List Entry} {e : Entry} (hes : t.group? p name = some es) (he : e ∈ es)
    (hno : ∀ id, t.primary.get? id ≠ some e.node) (n : Node) : t.suffix? n name e = none := by
  by_cases hprimary : t.isPrimary e.node = true
  · rcases (isPrimary_iff h.indexed).mp hprimary with ⟨-, hsym⟩ | ⟨id, hid⟩
    · exact suffix?_of_holder h hes he hsym n
    · exact absurd hid (hno id)
  · exact suffix?_of_not_primary hprimary n name

/-- Where nodes without symbol could decide, they stand beside a node in both trees or in
neither. -/
def HoldersAgree (t u : PathTree) (i : NodeId) : Prop :=
  t.symbolAt? i ≠ none → ¬SymbolBeside t (fun _ => True) i → (HolderBeside u i ↔ HolderBeside t i)

theorem Keeps.suffix?_eq (h : Keeps t u) (ht : Inv (Labels kinds) t) (hu : Inv (Labels kinds) u)
    {p : NodeId} {n n' : Node} {name : String} {es es' : List Entry} {e e' : Entry}
    (hn : t.node? p = some n) (hes : t.group? p name = some es) (he : e ∈ es)
    (hn' : u.node? p = some n') (hes' : u.group? p name = some es') (he' : e' ∈ es')
    (hnode : e'.node = e.node) (hagree : HoldersAgree t u e.node) :
    u.suffix? n' name e' = t.suffix? n name e := by
  classical
  have hlt := ht.rooted.node_lt hes he
  by_cases hprimary : ∃ id, t.primary.get? id = some e.node
  · obtain ⟨id, hid⟩ := hprimary
    have hid' : u.primary.get? id = some e'.node := by rw [h.primary, hid, hnode]
    have hsym : t.symbolAt? e.node ≠ none := by
      rw [ht.indexed.primary_mem hid]
      exact Option.some_ne_none id
    rw [ht.suffix?_eq hn hes he hid, hu.suffix?_eq hn' hes' he' hid', hnode]
    simp only [h.symbolBeside_iff ht.indexed hlt]
    by_cases hbeside : SymbolBeside t (fun _ => True) e.node
    · simp only [hbeside, or_true]
    · simp only [hagree hsym hbeside]
  · have hno : ∀ id, t.primary.get? id ≠ some e.node := fun id hid => hprimary ⟨id, hid⟩
    rw [ht.suffix?_of_no_primary hes he hno, hu.suffix?_of_no_primary hes' he' fun id => ?_]
    rw [h.primary, hnode]
    exact hno id

/-- A way whose nodes keep their suffixes is the same way in the larger tree. -/
theorem At.keep (h : Keeps t u) (ht : Inv (Labels kinds) t) (hu : Inv (Labels kinds) u)
    (htags : ∀ {i : NodeId} {id : String}, t.symbolAt? i = some id → u.tagAt i = t.tagAt i)
    {i : NodeId} {segs : List String} (hat : At t i segs)
    (hway : ∀ j ∈ t.lineage i, HoldersAgree t u j) : At u i segs := by
  induction hat with
  | root => exact .root
  | @child p n segs name es e above hn hes he ih =>
    have hlt := ht.rooted.node_lt hes he
    obtain ⟨hparent, hname⟩ := ht.rooted.below hes e he
    rw [ht.rooted.lineage_child hparent] at hway
    obtain ⟨e', he', hnode⟩ := hu.rooted.listed ((h.parent hlt).trans hparent) ((h.name hlt).trans hname)
    obtain ⟨es', hes', he'⟩ := mem_entries_iff.mp he'
    obtain ⟨n', hn'⟩ := exists_node (Nat.lt_of_lt_of_le (lt_size hn) h.size_le)
    have hsuffix := h.suffix?_eq ht hu hn hes he hn' hes' he' hnode (hway e.node (by simp))
    have hsegment : u.segment name e' (u.suffix? n' name e') = t.segment name e (t.suffix? n name e) := by
      rw [← String.toList_inj, toList_segment, toList_segment, hsuffix, hnode]
      congr 1
      cases hd : t.suffix? n name e with
      | none => rfl
      | some d =>
        -- a node with a suffix has a symbol, so its tag is known
        obtain ⟨-, hchoice⟩ := suffix?_eq_some_iff.mp hd
        obtain ⟨id, -, -, hid, -⟩ :=
          (SymbolGroup.of_disambiguator? (ht.grouped p name es hes) he hchoice).labelled e he
        cases d <;> simp only [suffixText, htags hid]
    have hchild := At.child (ih fun j hj => hway j (List.mem_cons_of_mem _ hj)) hn' hes' he'
    rwa [hsegment, hnode] at hchild

theorem Inv.exists_path_iff {fits : Labelling} (h : Inv fits t) {id : String} :
    (∃ path, t.canonicalPaths.get? id = some path) ↔ ∃ i, t.primary.get? id = some i := by
  constructor
  · rintro ⟨path, hpath⟩
    obtain ⟨i, -, hsym, -⟩ := at_of_canonicalPath h.rooted hpath
    exact h.indexed.exists_primary hsym
  · rintro ⟨i, hi⟩
    exact h.hasPath_canonicalPaths (h.indexed.primary_mem hi)

/-- The canonical path is written along the way to the primary node. -/
theorem Inv.at_of_primary {fits : Labelling} (h : Inv fits t) {id path : String} {i : NodeId}
    (hi : t.primary.get? id = some i) (hpath : t.canonicalPaths.get? id = some path) :
    ∃ segs, At t i segs ∧ path = urlPath segs := by
  obtain ⟨j, segs, hsym, hprimary, hat, hurl⟩ := at_of_canonicalPath h.rooted hpath
  obtain ⟨n, hn, hs⟩ := Option.bind_eq_some_iff.mp hsym
  have hj : t.primary.get? id = some j := by simpa [isPrimary, hn, hs] using hprimary
  cases hi.symm.trans hj
  exact ⟨segs, hat, hurl⟩

theorem Keeps.canonicalPath_eq (h : Keeps t u) (ht : Inv (Labels kinds) t) (hu : Inv (Labels kinds) u)
    (htags : ∀ {i : NodeId} {id : String}, t.symbolAt? i = some id → u.tagAt i = t.tagAt i) {id : String}
    (hway : ∀ i, t.primary.get? id = some i → ∀ j ∈ t.lineage i, HoldersAgree t u j) :
    u.canonicalPaths.get? id = t.canonicalPaths.get? id := by
  cases hi : t.primary.get? id with
  | none =>
    have hnone : ∀ {fits : Labelling} {v : PathTree}, Inv fits v → v.primary.get? id = none →
        v.canonicalPaths.get? id = none := by
      intro fits v hv hprimary
      refine Option.eq_none_iff_forall_ne_some.mpr fun path hpath => ?_
      obtain ⟨i, hi⟩ := hv.exists_path_iff.mp ⟨path, hpath⟩
      cases hprimary.symm.trans hi
    rw [hnone ht hi, hnone hu ((h.primary id).trans hi)]
  | some i =>
    have hi' := (h.primary id).trans hi
    obtain ⟨path, hpath⟩ := ht.exists_path_iff.mpr ⟨i, hi⟩
    obtain ⟨path', hpath'⟩ := hu.exists_path_iff.mpr ⟨i, hi'⟩
    obtain ⟨segs, hat, rfl⟩ := ht.at_of_primary hi hpath
    obtain ⟨segs', hat', rfl⟩ := hu.at_of_primary hi' hpath'
    rw [hpath, hpath', hat'.unique hu.rooted (hat.keep h ht hu htags (hway i hi))]

end Keeps

/-! ## Stores without other languages -/

section InSwift

variable {st : SymbolStore}

theorem get?_names_inSwift (s : Symbol) (l : Language) :
    s.inSwift.names.get? l = if l = .swift then s.names.get? .swift else none := by
  unfold Symbol.inSwift
  cases hs : s.names.get? .swift with
  | none => simp
  | some path =>
    simp only [Option.elim_some]
    split
    · rename_i hl
      rw [hl]
      exact KeyMap.get?_insert_self ∅ Language.swift path
    · rename_i hl
      exact KeyMap.get?_insert_of_ne ∅ path hl

theorem mem_keys_inSwift {s : Symbol} {l : Language} :
    l ∈ s.inSwift.names.keys ↔ l = .swift ∧ .swift ∈ s.names.keys := by
  simp only [KeyMap.mem_keys_iff, get?_names_inSwift]
  split <;> simp_all

theorem symbols_inSwift (st : SymbolStore) : st.inSwift.symbols = st.symbols.map Symbol.inSwift := by
  refine SymbolStore.symbols_ofInserts ?_
  rw [List.map_map]
  exact st.nodup_ids

theorem kindsOf_inSwift (st : SymbolStore) : kindsOf st.inSwift = kindsOf st := by
  funext id
  have hget : st.inSwift.get? id = (st.get? id).map Symbol.inSwift := by
    rw [SymbolStore.get?_eq_find?, SymbolStore.get?_eq_find?, symbols_inSwift]
    exact List.find?_map
  rw [kindsOf, kindsOf, hget, Option.map_map]
  rfl

theorem mem_inSwift {s : Symbol} (hs : s ∈ st.symbols) : s.inSwift ∈ st.inSwift.symbols := by
  rw [symbols_inSwift]
  exact List.mem_map_of_mem hs

/-- The first languages are the same: Swift, if any symbol is spelled in it. -/
theorem languages_inSwift (st : SymbolStore) :
    (∀ l ∈ languages st.inSwift, l = .swift) ∧ ∃ rest, languages st = languages st.inSwift ++ rest := by
  have hmem : ∀ {l : Language}, l ∈ languagesOf st.inSwift ↔ l = .swift ∧ .swift ∈ languagesOf st := by
    intro l
    rw [mem_languagesOf, mem_languagesOf, symbols_inSwift]
    constructor
    · rintro ⟨s', hs', hl⟩
      obtain ⟨s, hs, rfl⟩ := List.mem_map.mp hs'
      exact ⟨(mem_keys_inSwift.mp hl).1, s, hs, (mem_keys_inSwift.mp hl).2⟩
    · rintro ⟨hl, s, hs, hswift⟩
      exact ⟨s.inSwift, List.mem_map_of_mem hs, mem_keys_inSwift.mpr ⟨hl, hswift⟩⟩
  have hfirst : ∀ st : SymbolStore, (languagesOf st).filter (· = .swift) =
      if .swift ∈ languagesOf st then [.swift] else [] := by
    intro st
    split
    · rename_i hswift
      exact filter_eq_singleton (KeyMap.nodup_keys _) hswift (by simp) fun l _ hl => of_decide_eq_true hl
    · rename_i hno
      refine List.filter_eq_nil_iff.mpr fun l hl hswift => hno ?_
      exact of_decide_eq_true hswift ▸ hl
  have hothers : (languagesOf st.inSwift).filter (· ≠ .swift) = [] := by
    refine List.filter_eq_nil_iff.mpr fun l hl => ?_
    simp [(hmem.mp hl).1]
  have hlanguages : languages st.inSwift = (languagesOf st).filter (· = .swift) := by
    rw [languages_eq, hothers, List.append_nil, hfirst, hfirst]
    simp only [hmem, true_and]
  refine ⟨fun l hl => ?_, _, by rw [hlanguages]; exact languages_eq st⟩
  rw [hlanguages] at hl
  exact of_decide_eq_true (List.mem_filter.mp hl).2

/-- The placements of Swift symbols do not depend on other languages. -/
theorem placements_inSwift (st : SymbolStore) :
    (spelledIn st.inSwift .swift).map placement = (spelledIn st .swift).map placement := by
  refine placements_spelledIn (.of_eq ?_)
  rw [placements_spelled, placements_spelled, SymbolStore.cores, SymbolStore.cores, symbols_inSwift,
    List.map_map, List.filterMap_map, List.filterMap_map]
  refine List.filterMap_congr fun s _ => ?_
  simp only [Function.comp_apply, placementOf?, Symbol.core, get?_names_inSwift, if_true]
  rfl

end InSwift

/-! ## The first passes -/

section Start

variable {σ : Equiv.Perm NodeId} {t u t' u' : PathTree} {s s' : Symbol} {ls ls' : KeySet Language}

/-- New nodes for two symbols of one module correspond. -/
theorem ModuleAdded.renamed (h : Renamed σ t u) (ht : ModuleAdded t s ls t')
    (hu : ModuleAdded u s' ls' u') (hid : s'.id = s.id) (hkind : s'.kind = s.kind)
    (hmodule : s'.moduleName = s.moduleName)
    (hls : ∀ l, ls.contains l = true → ls'.contains l = true) : Renamed σ t' u' where
  size := by rw [ht.size, hu.size, h.size]
  node := by
    intro j n hn
    have hlast : σ j = u.size ↔ j = t.size := by
      rw [h.size, ← h.fixed t.size (Nat.le_refl _), σ.injective.eq_iff, h.fixed _ (Nat.le_refl _)]
    have hroot : σ j = PathTree.root ↔ j = PathTree.root := by
      rw [← h.root, σ.injective.eq_iff, h.root]
    rw [ht.node] at hn
    rw [hu.node]
    simp only [hlast, hroot]
    split at hn
    · rename_i hj
      cases hn
      refine ⟨_, if_pos hj, rfl, hls, hmodule, ?_, congrArg some hid⟩
      exact congrArg some h.root.symm
    · rename_i hj
      rw [if_neg hj]
      split at hn
      · rename_i hjroot
        obtain ⟨m, hm, rfl⟩ := Option.map_eq_some_iff.mp hn
        obtain ⟨m', hm', hrenamed⟩ := h.node hm
        refine ⟨listModule s' u.size m', by rw [if_pos hjroot, hm', Option.map_some], ?_,
          hrenamed.languages, hrenamed.name, hrenamed.parent, hrenamed.symbol⟩
        rw [listModule, listModule, hrenamed.children, hmodule]
        refine (KeyMap.map_alter fun es => ?_).symm
        have hentry : (entryOfModule s.core t.size).rename σ = entryOfModule s'.core u.size := by
          rw [Entry.rename, entryOfModule, entryOfModule, h.fixed _ (Nat.le_refl _), h.size]
          simp only [Symbol.core, hid, hkind]
        cases es <;> simp [hentry]
      · rename_i hjroot
        rw [if_neg hjroot]
        exact h.node hn
  primary := by
    intro id
    rw [hu.primary, ht.primary, hid]
    split
    · rw [Option.map_some, h.fixed _ (Nat.le_refl _), h.size]
    · exact h.primary id
  root := h.root
  fixed := by
    intro i hi
    rw [ht.size] at hi
    exact h.fixed i (by omega)

/-- Where every node stands for another symbol, a symbol gets a new node. -/
theorem lacksModule_of_occupied {fits : Labelling} (h : Inv fits t) {ids : List String}
    (hoccupied : ∀ i, i < t.size → i ≠ root → ∃ id ∈ ids, t.symbolAt? i = some id)
    (hs : s.id ∉ ids) : LacksModule t s := by
  refine ⟨h.rooted, ?_, ?_⟩
  · refine Option.eq_none_iff_forall_ne_some.mpr fun i hi => ?_
    obtain ⟨es, hes, ⟨e, he, rfl⟩, hfree⟩ := reusable?_eq_some h.rooted hi
    obtain ⟨id, hid, hsym⟩ := hoccupied e.node (h.rooted.node_lt hes he)
      (h.rooted.ne_root (h.rooted.below hes e he).1)
    rcases hfree with hfree | hfree
    · cases hfree.symm.trans hsym
    · cases hfree.symm.trans hsym
      exact hs hid
  · refine Option.eq_none_iff_forall_ne_some.mpr fun i hi => ?_
    have hsym := h.indexed.primary_mem hi
    have hne : i ≠ root := by
      rintro rfl
      cases h.root_symbol.symm.trans hsym
    obtain ⟨id, hid, hsym'⟩ := hoccupied i (lt_size_of_symbolAt? hsym) hne
    cases hsym.symm.trans hsym'
    exact hs hid

/-- A tree that is renamed to itself lacks the same modules. -/
theorem LacksModule.renamed (h : Renamed (Equiv.refl NodeId) t u) (ht : LacksModule t s)
    (hu : Rooted u) (hid : s'.id = s.id) (hmodule : s'.moduleName = s.moduleName) :
    LacksModule u s' where
  rooted := hu
  reusable := by
    rw [hid, hmodule]
    exact (h.reusable? root s.moduleName s.id).trans (by rw [ht.reusable]; rfl)
  primary := by
    rw [hid, h.primary, ht.primary]
    rfl

theorem renamed_initial : Renamed (Equiv.refl NodeId) initial initial where
  size := rfl
  node := by
    intro i n hn
    refine ⟨n, hn, ?_⟩
    cases Nat.lt_one_iff.mp (lt_size hn)
    cases hn
    exact ⟨rfl, fun _ hl => hl, rfl, rfl, rfl⟩
  primary _ := rfl
  root := rfl
  fixed _ _ := rfl

/-- Two builders, one of which has seen the names of other languages, too. -/
structure ModulePhase (st : SymbolStore) (ids : List String) (b c : Builder) : Prop where
  renamed : b.Renamed (Equiv.refl NodeId) c
  left : ∃ added, b.Grown st.inSwift added
  right : ∃ added, c.Grown st added
  occupied : ∀ i, i < b.tree.size → i ≠ root → ∃ id ∈ ids, b.tree.symbolAt? i = some id

theorem ModulePhase.addModule {st : SymbolStore} {ids : List String} {b c : Builder}
    (h : ModulePhase st ids b c) {s : Symbol} (hs : s ∈ st.symbols) (hkind : s.kind = .module_)
    (hswift : .swift ∈ s.names.keys) (hnew : s.id ∉ ids) :
    ModulePhase st (ids ++ [s.id]) (b.addModule s.inSwift) (c.addModule s) := by
  obtain ⟨added, hleft⟩ := h.left
  obtain ⟨added', hright⟩ := h.right
  have hlacks : LacksModule b.tree s.inSwift := lacksModule_of_occupied hleft.tree.inv h.occupied hnew
  have hlacks' : LacksModule c.tree s := hlacks.renamed h.renamed.tree hright.tree.inv.rooted rfl rfl
  have hkeys : .swift ∈ s.inSwift.names.keys := mem_keys_inSwift.mpr ⟨rfl, hswift⟩
  have hb := Builder.added_addModule hlacks (List.ne_nil_of_mem hkeys)
  have hc := Builder.added_addModule hlacks' (List.ne_nil_of_mem hswift)
  refine ⟨⟨?_, fun name => ?_⟩, ⟨_, hleft.addModule (mem_inSwift hs) hkind⟩,
    ⟨_, hright.addModule hs hkind⟩, fun i hi hne => ?_⟩
  · refine hb.tree.renamed h.renamed.tree hc.tree rfl rfl rfl fun l hl => ?_
    rw [KeySet.contains_ofList] at hl ⊢
    exact (mem_keys_inSwift.mp hl).1 ▸ hswift
  · have hname : s.inSwift.moduleName = s.moduleName := rfl
    rw [hb.modules, hc.modules, hname, h.renamed.tree.size]
    split
    · rfl
    · exact h.renamed.modules name
  · rw [hb.tree.size] at hi
    by_cases hlast : i = b.tree.size
    · refine ⟨s.id, by simp, ?_⟩
      rw [symbolAt?, hb.tree.node, if_pos hlast]
      rfl
    · obtain ⟨id, hid, hsym⟩ := h.occupied i (by omega) hne
      exact ⟨id, by simp [hid], (hb.tree.symbolAt? hlast).trans hsym⟩

theorem modulePhase_foldl {st : SymbolStore} {ms : List Symbol} (hms : ∀ s ∈ ms, s ∈ st.symbols)
    (hkinds : ∀ s ∈ ms, s.kind = .module_) (hswift : ∀ s ∈ ms, .swift ∈ s.names.keys)
    (hids : (ms.map (·.id)).Nodup) :
    ModulePhase st (ms.map (·.id)) ((ms.map Symbol.inSwift).foldl Builder.addModule ⟨initial, []⟩)
      (ms.foldl Builder.addModule ⟨initial, []⟩) := by
  induction ms using List.reverseRecOn with
  | nil =>
    refine ⟨⟨renamed_initial, fun _ => rfl⟩, ⟨[], .initial, .nil⟩, ⟨[], .initial, .nil⟩, ?_⟩
    exact fun i hi hne => absurd (Nat.lt_one_iff.mp hi) hne
  | append_singleton ms s ih =>
    rw [List.map_append] at hids
    obtain ⟨hids, -, hid⟩ := List.nodup_append.mp hids
    have hphase := ih (fun s hs => hms s (List.mem_append_left _ hs))
      (fun s hs => hkinds s (List.mem_append_left _ hs))
      (fun s hs => hswift s (List.mem_append_left _ hs)) hids
    have hs : s ∈ ms ++ [s] := List.mem_append_right _ (List.mem_singleton_self s)
    simp only [List.map_append, List.foldl_append, List.map_cons, List.map_nil, List.foldl_cons,
      List.foldl_nil]
    exact hphase.addModule (hms s hs) (hkinds s hs) (hswift s hs)
      fun hmem => hid s.id hmem s.id (by simp) rfl

end Start

/-! ## All passes -/

/-- Every module has a name in Swift, and every other symbol a path. -/
def SpelledInSwift (st : SymbolStore) : Prop :=
  ∀ s ∈ st.symbols, ∃ path, s.names.get? .swift = some path ∧ (s.kind ≠ .module_ → path ≠ [])

theorem Renamed.keeps {t u : PathTree} (h : Renamed (Equiv.refl NodeId) t u) : Keeps t u where
  size_le := Nat.le_of_eq h.size.symm
  parent {i} _ := (h.parentAt? i).trans Option.map_id_apply
  name {i} _ := h.nameAt? i
  symbol {i} _ hi := (h.symbolAt? i).trans hi
  primary id := (h.primary id).trans Option.map_id_apply
  language hl := h.hasLanguage hl

section Build

variable {st : SymbolStore}

/-- All symbols have a primary node once the Swift symbols are added. -/
theorem exists_primary_inSwift (hswift : SpelledInSwift st) (members : MemberTable) {s : Symbol}
    (hs : s ∈ st.symbols) : ∃ i, (build st.inSwift members).primary.get? s.id = some i := by
  obtain ⟨path, hpath, hne⟩ := hswift s hs
  have hget : s.inSwift.names.get? .swift = some path := by
    rw [get?_names_inSwift, if_pos rfl, hpath]
  have hadded : (s.id, .swift) ∈ additions st.inSwift :=
    mem_additions.mpr ⟨s.inSwift, mem_inSwift hs, rfl, path, hget, hne⟩
  exact (growth_build st.inSwift members).exists_primary (List.mem_map.mpr ⟨_, hadded, rfl⟩)

/-- Other languages make a tree larger, and change no place and no primary node. -/
theorem keeps_build (hswift : SpelledInSwift st) (members : MemberTable) :
    Keeps (build st.inSwift members) (build st members) := by
  have hmodules : st.inSwift.symbols.filter (·.kind = .module_) =
      (st.symbols.filter (·.kind = .module_)).map Symbol.inSwift := by
    rw [symbols_inSwift]
    exact List.filter_map
  have hmem : ∀ s ∈ st.symbols.filter (·.kind = .module_), s ∈ st.symbols ∧ s.kind = .module_ :=
    fun s hs => by simpa using hs
  have hphase := modulePhase_foldl (fun s hs => (hmem s hs).1) (fun s hs => (hmem s hs).2)
    (fun s hs => by
      obtain ⟨path, hpath, -⟩ := hswift s (hmem s hs).1
      exact KeyMap.mem_keys_iff.mpr ⟨path, hpath⟩)
    ((List.filter_sublist.map _).nodup st.nodup_ids)
  obtain ⟨hfirst, rest, hrest⟩ := languages_inSwift st
  have hspelled : ∀ l ∈ languages st.inSwift,
      (spelledIn st.inSwift l).map placement = (spelledIn st l).map placement := by
    intro l hl
    rw [hfirst l hl]
    exact placements_inSwift st
  have hpasses := hphase.renamed.foldl_addLanguage members (languages st.inSwift) hspelled
  have hbase : Keeps (build st.inSwift members) ((languages st.inSwift).foldl
      (Builder.addLanguage members st)
      ((st.symbols.filter (·.kind = .module_)).foldl Builder.addModule ⟨initial, []⟩)).tree := by
    unfold build
    rw [hmodules]
    exact hpasses.tree.keeps
  obtain ⟨added, hstart⟩ := hphase.right
  obtain ⟨added', hgrown⟩ := hstart.foldl_addLanguage members (languages st.inSwift)
  have hlast := Lasting.foldl_addLanguage rest
    (fun l _ => lasting_keeps (fun s hs => exists_primary_inSwift hswift members hs) l) hgrown members hbase
  rw [← List.foldl_append, ← hrest] at hlast
  exact hlast

theorem tagAt_of_swift {t : PathTree} {i : NodeId} (h : t.hasLanguage i .swift = true) :
    t.tagAt i = "swift" := by
  cases hn : t.node? i with
  | none => simp [tagAt, hn]
  | some n =>
    have hl : n.languages.contains .swift = true := by simpa [hasLanguage, hn] using h
    simp [tagAt, hn, Node.primaryLanguage?, hl, Language.linkTag]

/-- Names in other languages change no URL of a symbol whose way to the root keeps the
nodes without symbol beside it, and they neither give nor take URLs. -/
theorem canonicalPaths_inSwift (hswift : SpelledInSwift st) (members : MemberTable) :
    (∀ id, ((build st members).canonicalPaths.get? id).isSome =
      ((build st.inSwift members).canonicalPaths.get? id).isSome) ∧
    ∀ id, (∀ i, (build st.inSwift members).primary.get? id = some i →
        ∀ j ∈ (build st.inSwift members).lineage i,
          HoldersAgree (build st.inSwift members) (build st members) j) →
      (build st members).canonicalPaths.get? id = (build st.inSwift members).canonicalPaths.get? id := by
  have hkeeps := keeps_build hswift members
  have hgrowth := growth_build st.inSwift members
  have hinv : Inv (Labels (kindsOf st)) (build st.inSwift members) := by
    rw [← kindsOf_inSwift]
    exact hgrowth.inv.relabel labels_of_labelOf
  have hinv' : Inv (Labels (kindsOf st)) (build st members) :=
    (inv_build st members).relabel labels_of_labelOf
  refine ⟨fun id => ?_, fun id hway => hkeeps.canonicalPath_eq hinv hinv' (fun {i id} hi => ?_) hway⟩
  · rw [Bool.eq_iff_iff, Option.isSome_iff_exists, Option.isSome_iff_exists, hinv.exists_path_iff,
      hinv'.exists_path_iff, hkeeps.primary]
  · -- a node with a symbol has a name in Swift, and keeps it
    obtain ⟨s', hs', -, l, p, name, hgoes, -, -, hl⟩ := hgrowth.goesTo hi
    rw [symbols_inSwift] at hs'
    obtain ⟨s, -, rfl⟩ := List.mem_map.mp hs'
    obtain ⟨rfl, -⟩ := mem_keys_inSwift.mp hgoes.asksFor.mem_keys
    rw [tagAt_of_swift hl, tagAt_of_swift (hkeeps.language hl)]

end Build

/-- A class with a method. Objective-C has the method only, below some other name. -/
def spinStore (above : String) : SymbolStore :=
  let symbol := fun (kind : Kind) (id : String) (names : List (Language × List String)) =>
    ({ kind, language := .swift, moduleName := "Kit", names := .ofList names, id, title := id } : Symbol)
  .ofInserts [symbol .module_ "Kit" [(.swift, []), (.objectiveC, [])],
    symbol .class_ "c:W" [(.swift, ["Widget"])],
    symbol .method "c:W.spin" [(.swift, ["Widget", "spin"]), (.objectiveC, [above, "spin"])]]

theorem spelledInSwift_spinStore (above : String) : SpelledInSwift (spinStore above) := by
  intro s hs
  rw [spinStore, SymbolStore.symbols_ofInserts (by simp)] at hs
  simp only [List.mem_cons, List.not_mem_nil, or_false] at hs
  rcases hs with rfl | rfl | rfl
  · exact ⟨[], rfl, fun hkind => absurd rfl hkind⟩
  · exact ⟨["Widget"], rfl, fun _ => List.cons_ne_nil _ _⟩
  · exact ⟨["Widget", "spin"], rfl, fun _ => List.cons_ne_nil _ _⟩

/-- A new node without symbol that stands beside nothing on the way. -/
theorem canonicalPaths_inSwift_spin :
    (build (spinStore "KITWidget").inSwift fun _ _ => none).size <
      (build (spinStore "KITWidget") fun _ _ => none).size ∧
    (build (spinStore "KITWidget") fun _ _ => none).canonicalPaths.get? "c:W.spin" =
      (build (spinStore "KITWidget").inSwift fun _ _ => none).canonicalPaths.get? "c:W.spin" := by
  have htree : build (spinStore "KITWidget") (fun _ _ => none) = _ := build_of_sorted (by decide +kernel) _
  have htree' : build (spinStore "KITWidget").inSwift (fun _ _ => none) = _ :=
    build_of_sorted (by decide +kernel) _
  have hagree : ∀ i, (build (spinStore "KITWidget").inSwift fun _ _ => none).primary.get? "c:W.spin" = some i →
      ∀ j ∈ (build (spinStore "KITWidget").inSwift fun _ _ => none).lineage i,
        HoldersAgree (build (spinStore "KITWidget").inSwift fun _ _ => none)
          (build (spinStore "KITWidget") fun _ _ => none) j := by
    have hall : ((build (spinStore "KITWidget").inSwift fun _ _ => none).primary.get? "c:W.spin").all
        (fun i => ((build (spinStore "KITWidget").inSwift fun _ _ => none).lineage i).all fun j =>
          decide (HolderBeside (build (spinStore "KITWidget") fun _ _ => none) j ↔
            HolderBeside (build (spinStore "KITWidget").inSwift fun _ _ => none) j)) = true := by
      rw [htree, htree']
      decide +kernel
    intro i hi j hj _ _
    rw [hi] at hall
    exact of_decide_eq_true (List.all_eq_true.mp hall j hj)
  refine ⟨?_, (canonicalPaths_inSwift (spelledInSwift_spinStore _) _).2 _ hagree⟩
  rw [htree, htree']
  decide +kernel

/-- A new node without symbol whose name differs from that of the class in case. -/
theorem canonicalPaths_change_beside_holder :
    (spinStore "widget").ids.Nodup ∧ SpelledInSwift (spinStore "widget") ∧
    (build (spinStore "widget").inSwift fun _ _ => none).canonicalPaths.get? "c:W" = some "/Kit/Widget" ∧
    (build (spinStore "widget") fun _ _ => none).canonicalPaths.get? "c:W" =
      some "/Kit/Widget-swift.class" := by
  have htree : build (spinStore "widget") (fun _ _ => none) = _ := build_of_sorted (by decide +kernel) _
  have htree' : build (spinStore "widget").inSwift (fun _ _ => none) = _ :=
    build_of_sorted (by decide +kernel) _
  refine ⟨by decide, spelledInSwift_spinStore _, ?_, ?_⟩
  · rw [htree']
    decide +kernel
  · rw [htree]
    decide +kernel

end PathTree

end SymbolLinks
