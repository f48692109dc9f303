namespace TimedTrace

inductive Outline where
  | node (label : String) (children : List Outline)

namespace Outline

def label : Outline → String
  | .node label _ => label

mutual

/-- The lines of a tree: its own label after `lead`, then its children after `below`. -/
def lines (lead below : String) : Outline → List String
  | .node label children => (lead ++ label) :: branches below children

/-- The lines of trees that hang from one node. All but the last leave a stroke that leads on to the
next. -/
def branches (below : String) : List Outline → List String
  | [] => []
  | [last] => lines (below ++ "└── ") (below ++ "    ") last
  | tree :: next :: rest =>
    lines (below ++ "├── ") (below ++ "│   ") tree ++ branches below (next :: rest)

end

/-- The tree with every line moved to the right by `indent` blanks. -/
def draw (outline : Outline) (indent : Nat) : String :=
  let lead := String.ofList (List.replicate indent ' ')
  String.join ((outline.lines lead lead).map (· ++ "\n"))

mutual

/-- The number of labels. -/
def size : Outline → Nat
  | .node _ children => sizes children + 1

def sizes : List Outline → Nat
  | [] => 0
  | tree :: rest => size tree + sizes rest

end

mutual

/-- Every label stands on a line of its own. -/
theorem length_lines (lead below : String) (outline : Outline) :
    (outline.lines lead below).length = outline.size := by
  cases outline with
  | node label children => simp [lines, size, length_branches]

theorem length_branches (below : String) (children : List Outline) :
    (branches below children).length = sizes children := by
  match children with
  | [] => simp [branches, sizes]
  | [last] => simp [branches, sizes, length_lines]
  | tree :: next :: rest =>
    simp [branches, length_lines, length_branches below (next :: rest)]
    simp [sizes]

end

end Outline

end TimedTrace
