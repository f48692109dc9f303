import TimedTrace.Time

namespace TimedTrace

/-- How far a temporal operator with one operand looks. -/
inductive Bound where
  /-- Within less than this length. -/
  | within (length : Time)
  /-- At exactly this distance. -/
  | exactly (distance : Time)
  | unbounded
  deriving DecidableEq, Repr

mutual

/-- Formulas of metric temporal logic over events that carry values of type `α`. -/
inductive Formula (α : Type) where
  | top
  | bot
  /-- The event in force carries this value. -/
  | atom (data : α)
  | neg (f : Formula α)
  | disj (l r : Formula α)
  | conj (l r : Formula α)
  | imp (l r : Formula α)
  /-- `r` becomes true, within less than the bound if there is one, and `l` holds until then. -/
  | untl (bound : Option Time) (l r : Formula α)
  /-- `r` was true, within less than the bound if there is one, and `l` has held since. -/
  | snce (bound : Option Time) (l r : Formula α)
  | eventually (bound : Bound) (f : Formula α)
  | always (bound : Bound) (f : Formula α)
  | once (bound : Bound) (f : Formula α)
  | historically (bound : Bound) (f : Formula α)
  | less (l r : Term α)
  deriving DecidableEq, Repr, Inhabited

/-- Terms that measure how long formulas hold. -/
inductive Term (α : Type) where
  | constant (value : Time)
  /-- The time during which `f` holds from the instant on, over the given length. -/
  | duration (length : Time) (f : Formula α)
  | sum (l r : Term α)
  deriving DecidableEq, Repr, Inhabited

end

end TimedTrace
