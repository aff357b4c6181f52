import SymbolLinks.Text.Chars

/-! Paths as texts. They are put together and taken apart as they are written:
nothing is looked up and nothing is normalised. -/

namespace SymbolLinks.Path

def isAbsolute (path : String) : Bool := path.startsWith "/"

/-- Put a path under a directory. An absolute path stays as it is. -/
def join (directory path : String) : String :=
  if isAbsolute path || directory.isEmpty then path
  else if directory.endsWith "/" then directory ++ path
  else directory ++ "/" ++ path

/-- The texts between slashes. -/
def segments (path : String) : List String := (Text.pieces '/' path.toList).map String.ofList

/-- Leave off empty segments and dots at the end, except for the first segment. -/
def trimEnd : List String → List String
  | [] => []
  | first :: rest => first :: (rest.reverse.dropWhile fun s => s = "" ∨ s = ".").reverse

theorem trimEnd_length (segments : List String) : (trimEnd segments).length ≤ segments.length := by
  cases segments with
  | nil => exact Nat.le_refl _
  | cons first rest =>
    have h := (List.dropWhile_sublist (fun s => s = "" ∨ s = ".") (l := rest.reverse)).length_le
    simp only [trimEnd, List.length_cons, List.length_reverse] at h ⊢
    omega

/-- The segments of the directory around a path, if the path has more than one
segment to name it by. -/
def above? (segments : List String) : Option (List String) :=
  if (trimEnd segments).length ≤ 1 then none else some (trimEnd (trimEnd segments).dropLast)

theorem above?_length {segments above : List String} (h : above? segments = some above) :
    above.length < segments.length := by
  unfold above? at h
  split at h
  · cases h
  · obtain rfl := Option.some.inj h
    have h1 := trimEnd_length segments
    have h2 := trimEnd_length (trimEnd segments).dropLast
    rw [List.length_dropLast] at h2
    omega

/-- The path with these segments. -/
def ofSegments (segments : List String) : String :=
  if segments = [""] then "/" else String.intercalate "/" segments

/-- The directory that a path names something in. -/
def parent (path : String) : String := ((above? (segments path)).map ofSegments).getD ""

/-- The directories around a path, nearest first. -/
def enclosing (segments : List String) : List (List String) :=
  match _h : above? segments with
  | none => []
  | some above => above :: enclosing above
termination_by segments.length
decreasing_by exact above?_length _h

/-- A path and the directories around it, nearest first. -/
def ancestors (path : String) : List String := path :: (enclosing (segments path)).map ofSegments

end SymbolLinks.Path
