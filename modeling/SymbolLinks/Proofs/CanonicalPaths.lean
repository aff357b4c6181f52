import SymbolLinks.Proofs.ListLaws
import SymbolLinks.Proofs.TreeDepth

/-! Every symbol of a tree has a canonical path. The walk that collects the paths
keeps what it has, and it comes by every node, so by every primary node. -/
namespace SymbolLinks.PathTree

/-- Whether a path is known for a symbol. -/
def HasPath (paths : KeyMap String String) (id : String) : Prop :=
  ∃ path, paths.get? id = some path

variable {t : PathTree} {id : String} {paths : KeyMap String String}

theorem HasPath.insert (h : HasPath paths id) (s path : String) :
    HasPath (paths.insert s path) id := by
  by_cases hs : id = s
  · exact ⟨path, hs ▸ KeyMap.get?_insert_self paths s path⟩
  · obtain ⟨old, hold⟩ := h
    exact ⟨old, (KeyMap.get?_insert_of_ne paths path hs).trans hold⟩

theorem HasPath.recordPath (h : HasPath paths id) (i : NodeId) (path : String) :
    HasPath (t.recordPath i path paths) id := by
  unfold PathTree.recordPath
  split
  · split
    · exact h.insert _ path
    · exact h
  · exact h

theorem HasPath.collectPaths {fuel : Nat} {i : NodeId} {path : String} (h : HasPath paths id) :
    HasPath (t.collectPaths fuel i path paths) id := by
  induction fuel generalizing i path paths with
  | zero => exact h
  | succ fuel ih =>
    unfold PathTree.collectPaths
    split
    · exact h
    · exact List.foldlRecOn (motive := (HasPath · id)) _ _ h fun paths hpaths _ _ =>
        ih (hpaths.recordPath _ _)

theorem hasPath_recordPath {i : NodeId} (hsym : t.symbolAt? i = some id)
    (hprimary : t.isPrimary i = true) (path : String) (paths : KeyMap String String) :
    HasPath (t.recordPath i path paths) id := by
  unfold recordPath
  simp only [hsym, hprimary, if_true]
  exact ⟨path, KeyMap.get?_insert_self paths id path⟩

/-- The last step of a climb. -/
theorem climb_succ_eq {k i j : Nat} (h : t.climb (k + 1) j = some i) :
    ∃ c : Nat, t.climb k j = some c ∧ t.parentAt? c = some i := by
  rw [climb_add] at h
  obtain ⟨c, hc, hi⟩ := Option.bind_eq_some_iff.mp h
  refine ⟨c, hc, ?_⟩
  cases hp : t.parentAt? c with
  | none => simp [climb, hp] at hi
  | some p => simpa [climb, hp] using hi

/-- From a node with fuel for the levels below it, the walk comes by every primary
node below. -/
theorem Rooted.hasPath_collectPaths (h : Rooted t) {j : Nat} (hsym : t.symbolAt? j = some id)
    (hprimary : t.isPrimary j = true) {fuel d k i : Nat} (hd : t.climb d i = some root)
    (hfuel : t.size ≤ fuel + d) (hk : t.climb (k + 1) j = some i) (path : String)
    (paths : KeyMap String String) : HasPath (t.collectPaths fuel i path paths) id := by
  induction fuel generalizing d k i path paths with
  | zero => exact absurd (h.grounded.climb_lt hd) (by omega)
  | succ fuel ih =>
    obtain ⟨c, hc, hparent⟩ := climb_succ_eq hk
    obtain ⟨name, es, hgroup, he⟩ := h.exists_entry hparent
    obtain ⟨n, hn, hes⟩ := Option.bind_eq_some_iff.mp hgroup
    obtain ⟨seg, hseg⟩ := exists_mem_segments_iff.mpr
      ⟨lt_size_of_parentAt? hparent, name, es, hes, he⟩
    simp only [collectPaths, hn]
    -- the step into `c` finds the path, whatever was found before
    refine foldl_of_mem (P := (HasPath · id)) hseg (fun paths => ?_) (fun paths _ hpaths =>
      (hpaths.recordPath _ _).collectPaths) paths
    cases k with
    | zero =>
      cases hc
      exact (hasPath_recordPath hsym hprimary _ _).collectPaths
    | succ k => exact ih (climb_child hparent hd) (by omega) hc _ _

/-- A symbol with a node has a canonical path. -/
theorem Inv.hasPath_canonicalPaths {fits : Labelling} (h : Inv fits t) {i : Nat}
    (hi : t.symbolAt? i = some id) : HasPath t.canonicalPaths id := by
  obtain ⟨j, hj⟩ := h.indexed.exists_primary hi
  have hsym := h.indexed.primary_mem hj
  have hprimary : t.isPrimary j = true := by
    obtain ⟨n, hn, hs⟩ := Option.bind_eq_some_iff.mp hsym
    simp [isPrimary, hn, hs, hj]
  obtain ⟨k, hk⟩ := h.rooted.grounded.climbs (lt_size_of_symbolAt? hsym)
  cases k with
  | zero =>
    cases hk
    cases h.root_symbol.symm.trans hsym
  | succ k =>
    exact h.rooted.hasPath_collectPaths hsym hprimary (rfl : t.climb 0 root = some root)
      (by omega) hk _ _

end SymbolLinks.PathTree
