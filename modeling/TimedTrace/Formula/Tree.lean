import TimedTrace.Formula.Compact
import TimedTrace.Text.Blank
import TimedTrace.Text.Outline

namespace TimedTrace

variable {α : Type} [ToString α]

mutual

def Formula.outline : Formula α → Outline
  | .top => .node "True" []
  | .bot => .node "False" []
  | .atom data => .node (toString data) []
  | .neg f => .node "Not" [f.outline]
  | .disj l r => .node "Or" [l.outline, r.outline]
  | .conj l r => .node "And" [l.outline, r.outline]
  | .imp l r => .node "Implies" [l.outline, r.outline]
  | .untl bound l r => .node (upperBoundText "Until" bound) [l.outline, r.outline]
  | .snce bound l r => .node (upperBoundText "Since" bound) [l.outline, r.outline]
  | .eventually bound f => .node (bound.text "Eventually") [f.outline]
  | .always bound f => .node (bound.text "Always") [f.outline]
  | .once bound f => .node (bound.text "PastEventually") [f.outline]
  | .historically bound f => .node (bound.text "Historically") [f.outline]
  | .less l r => .node "Less" [l.outline, r.outline]

def Term.outline : Term α → Outline
  | .constant value => .node value.secondsText []
  | .duration length f => .node ("Duration[" ++ length.secondsText ++ "]") [f.outline]
  | .sum l r => .node "Sum" [l.outline, r.outline]

end

/-- The tree, indented as a whole, without white space at the end of its last line. -/
def Formula.treeText (formula : Formula α) (indent : Nat) : String :=
  trimBlankEnd (formula.outline.draw indent)

end TimedTrace
