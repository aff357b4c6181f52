/-! Edit distance between two texts: the least number of insertions, deletions
and substitutions of characters that turn one into the other. -/

namespace SymbolLinks.Text

/-- One row of the distance table: entries to the right of `left`, from the row
above (`diag` is the entry above `left`). -/
def nextRow (c : Char) : List Char → Nat → Nat → List Nat → List Nat
  | d :: ds, diag, left, up :: ups =>
    let here := min (min (left + 1) (up + 1)) (diag + if c = d then 0 else 1)
    here :: nextRow c ds up here ups
  | _, _, _, _ => []

/-- Distances from the empty text and then from ever longer parts of `a` to the
leading parts of `b`. -/
def distanceRow (a b : List Char) : List Nat :=
  a.foldl (fun row c =>
    match row with
    | [] => []
    | first :: rest => (first + 1) :: nextRow c b first (first + 1) rest)
    (List.range (b.length + 1))

def editDistance (a b : String) : Nat := (distanceRow a.toList b.toList).getLast?.getD 0

end SymbolLinks.Text
