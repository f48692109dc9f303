import TimedTrace.Formula
import TimedTrace.Time.Seconds

namespace TimedTrace

/-- An operator with its bound. -/
def Bound.text (operator : String) : Bound → String
  | .within length => operator ++ "<" ++ length.secondsText
  | .exactly distance => operator ++ "=" ++ distance.secondsText
  | .unbounded => operator

/-- An operator of two operands with its bound, which can only be an upper one. -/
def upperBoundText (operator : String) : Option Time → String
  | some length => operator ++ "<" ++ length.secondsText
  | none => operator

variable {α : Type} [ToString α]

mutual

def Formula.text : Formula α → String
  | .top => "True"
  | .bot => "False"
  | .atom data => toString data
  | .neg f => "¬(" ++ f.text ++ ")"
  | .disj l r => "(" ++ l.text ++ ") ∨ (" ++ r.text ++ ")"
  | .conj l r => "(" ++ l.text ++ ") ∧ (" ++ r.text ++ ")"
  | .imp l r => "(" ++ l.text ++ ") → (" ++ r.text ++ ")"
  | .untl bound l r => "(" ++ l.text ++ ") " ++ upperBoundText "U" bound ++ " (" ++ r.text ++ ")"
  | .snce bound l r => "(" ++ l.text ++ ") " ++ upperBoundText "S" bound ++ " (" ++ r.text ++ ")"
  | .eventually bound f => bound.text "F" ++ "(" ++ f.text ++ ")"
  | .always bound f => bound.text "G" ++ "(" ++ f.text ++ ")"
  | .once bound f => bound.text "P" ++ "(" ++ f.text ++ ")"
  | .historically bound f => bound.text "H" ++ "(" ++ f.text ++ ")"
  | .less l r => l.text ++ " < " ++ r.text

def Term.text : Term α → String
  | .constant value => value.secondsText
  | .duration length f => "∫" ++ length.secondsText ++ "(" ++ f.text ++ ")"
  | .sum l r => "(" ++ l.text ++ " + " ++ r.text ++ ")"

end

end TimedTrace
