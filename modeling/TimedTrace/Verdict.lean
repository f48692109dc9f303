namespace TimedTrace

/-- The value of a formula. A trace that covers too little of the past or the future leaves it
undecided; the connectives decide whenever the decided operands suffice. -/
inductive Verdict where
  | holds
  | fails
  | unknown
  deriving DecidableEq, Repr, Inhabited

namespace Verdict

def ofBool : Bool → Verdict
  | true => holds
  | false => fails

def not : Verdict → Verdict
  | holds => fails
  | fails => holds
  | unknown => unknown

def and : Verdict → Verdict → Verdict
  | fails, _ | _, fails => fails
  | holds, holds => holds
  | _, _ => unknown

def or : Verdict → Verdict → Verdict
  | holds, _ | _, holds => holds
  | fails, fails => fails
  | _, _ => unknown

def implies (a b : Verdict) : Verdict := a.not.or b

def decided (verdict : Verdict) : Bool := verdict ≠ unknown

/-- One step of the search that decides a temporal operator, from the values of its operands at an
instant. A right operand that does not fail settles the search with its own value, and else a left
operand that does not hold with its own; the search goes on while the left holds and the right
fails. -/
def settle (left right : Verdict) : Option Verdict :=
  if right ≠ fails then some right
  else if left ≠ holds then some left
  else none

def text : Verdict → String
  | holds => "true"
  | fails => "false"
  | unknown => "unknown"

theorem holds_ne_unknown : holds ≠ unknown := nofun

theorem fails_ne_unknown : fails ≠ unknown := nofun

@[simp] theorem not_not (verdict : Verdict) : verdict.not.not = verdict := by cases verdict <;> rfl

theorem not_and (a b : Verdict) : (a.and b).not = a.not.or b.not := by
  cases a <;> cases b <;> rfl

theorem not_or (a b : Verdict) : (a.or b).not = a.not.and b.not := by
  cases a <;> cases b <;> rfl

theorem decided_iff {verdict : Verdict} : verdict.decided = true ↔ verdict ≠ unknown := by
  simp [decided]

theorem not_eq_holds_iff {verdict : Verdict} : verdict.not = holds ↔ verdict = fails := by
  cases verdict <;> decide

theorem not_eq_fails_iff {verdict : Verdict} : verdict.not = fails ↔ verdict = holds := by
  cases verdict <;> decide

theorem or_eq_holds_iff {a b : Verdict} : a.or b = holds ↔ a = holds ∨ b = holds := by
  cases a <;> cases b <;> decide

theorem or_eq_fails_iff {a b : Verdict} : a.or b = fails ↔ a = fails ∧ b = fails := by
  cases a <;> cases b <;> decide

theorem and_eq_holds_iff {a b : Verdict} : a.and b = holds ↔ a = holds ∧ b = holds := by
  cases a <;> cases b <;> decide

theorem and_eq_fails_iff {a b : Verdict} : a.and b = fails ↔ a = fails ∨ b = fails := by
  cases a <;> cases b <;> decide

theorem implies_eq_holds_iff {a b : Verdict} : a.implies b = holds ↔ a = fails ∨ b = holds := by
  cases a <;> cases b <;> decide

theorem implies_eq_fails_iff {a b : Verdict} : a.implies b = fails ↔ a = holds ∧ b = fails := by
  cases a <;> cases b <;> decide

theorem settle_eq_holds_iff {left right : Verdict} :
    settle left right = some holds ↔ right = holds := by
  cases left <;> cases right <;> decide

theorem settle_eq_fails_iff {left right : Verdict} :
    settle left right = some fails ↔ right = fails ∧ left = fails := by
  cases left <;> cases right <;> decide

theorem settle_eq_none_iff {left right : Verdict} :
    settle left right = none ↔ left = holds ∧ right = fails := by
  cases left <;> cases right <;> decide

end Verdict

end TimedTrace
