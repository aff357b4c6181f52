import SymbolLinks.Tree.Collision

/-! The tree as an indented outline. -/

namespace SymbolLinks.PathTree

/-- The nodes below a node, each labelled with its name and the shortest suffix
that selects it, in the order of the labels. -/
def labelledChildren (t : PathTree) (id : NodeId) : List (String × NodeId) :=
  let labelled := (t.node? id).elim [] fun n =>
    n.children.entries.flatMap fun (name, es) => es.map fun e =>
      match e.disambiguator? es with
      | some d => (name ++ "-" ++ d.text, e.node)
      | none => (name, e.node)
  labelled.mergeSort fun a b => ((compare a.1 b.1).then (compare a.2 b.2)).isLE

/-- The lines below a node, as deep as `fuel` goes. -/
def outlineBelow (t : PathTree) : Nat → NodeId → String → List String
  | 0, _, _ => []
  | fuel + 1, id, indent =>
    let children := t.labelledChildren id
    children.mapIdx (fun i child => (i + 1 == children.length, child)) |>.flatMap
      fun (isLast, label, child) =>
        (indent ++ (if isLast then "╰ " else "├ ") ++ label) ::
          t.outlineBelow fuel child (indent ++ if isLast then "  " else "│ ")

/-- One line a node, the modules at the margin. -/
def outline (t : PathTree) : String :=
  let lines := (t.labelledChildren root).flatMap fun (label, id) =>
    label :: t.outlineBelow t.size id ""
  String.join (lines.map (· ++ "\n"))

end SymbolLinks.PathTree
