import TimedTrace.Proofs.Future

namespace TimedTrace

variable {α : Type} [DecidableEq α] {events : List (Event α)}

/-- The start of the window of an operator that looks back from `c`. -/
def windowStart (bound : Option Time) (c : Int) : Option Int :=
  bound.map fun length => c - length.toInstant

namespace Tape

/-- The value of a term at a time, for a head that stands at the start. -/
def measureOf (tape : Tape α) (term : Term α) (time : Time) : Measure :=
  (tape.evaluateTerm term time 0).1

theorem evaluateTerm_yields (ordered : Ordered events) (term : Term α) (time : Time) :
    (ofEvents events).Yields ((ofEvents events).evaluateTerm term time)
      ((ofEvents events).measureOf term time) := by
  obtain ⟨measure, yields⟩ := exists_evaluateTerm_yields ordered term time
  rwa [measureOf, yields.eq (onTape_zero _)]

theorem valueOf_eventually_exactly (tape : Tape α) (distance : Time) (f : Formula α)
    (time : Time) : tape.valueOf (.eventually (.exactly distance) f) time.toInstant =
      tape.valueOf f (time.toInstant + distance.toInstant) := by
  rw [valueOf_toInstant]
  rfl

theorem valueOf_always_exactly (tape : Tape α) (distance : Time) (f : Formula α)
    (time : Time) : tape.valueOf (.always (.exactly distance) f) time.toInstant =
      tape.valueOf f (time.toInstant + distance.toInstant) := by
  rw [valueOf_toInstant]
  rfl

theorem valueOf_once_exactly (tape : Tape α) (distance : Time) (f : Formula α)
    (time : Time) : tape.valueOf (.once (.exactly distance) f) time.toInstant =
      tape.valueOf f (time.toInstant - distance.toInstant) := by
  rw [valueOf_toInstant]
  rfl

theorem valueOf_historically_exactly (tape : Tape α) (distance : Time) (f : Formula α)
    (time : Time) : tape.valueOf (.historically (.exactly distance) f) time.toInstant =
      tape.valueOf f (time.toInstant - distance.toInstant) := by
  rw [valueOf_toInstant]
  rfl

section

variable (ordered : Ordered events) (l r f : Formula α)

include ordered

/-- The value of `since` is what a search back over the values of its operands comes to. -/
theorem valueOf_snce (bound : Option Time) (time : Time) :
    SearchesBack events (shiftsOf ((ofEvents events).operand l) ((ofEvents events).operand r))
      ((ofEvents events).valueOf l) ((ofEvents events).valueOf r)
      (windowStart bound time.toInstant) time.toInstant
      ((ofEvents events).valueOf (.snce bound l r) time.toInstant) := by
  obtain ⟨verdict, yields, searches⟩ :=
    snce_yields ordered (value_yields ordered l) (value_yields ordered r) bound time
  rwa [valueOf_eq yields.restoring]

theorem valueOf_once (bound : Option Time) (time : Time) :
    SearchesBack events (shiftsOf (.always .holds) ((ofEvents events).operand f))
      (fun _ => .holds) ((ofEvents events).valueOf f)
      (windowStart bound time.toInstant) time.toInstant
      ((ofEvents events).valueOf (.once (.upTo bound) f) time.toInstant) := by
  obtain ⟨verdict, yields, searches⟩ :=
    snce_yields ordered (yields_always _ .holds) (value_yields ordered f) bound time
  have same : (ofEvents events).Yields
      ((ofEvents events).evaluate (.once (.upTo bound) f) time) verdict := by
    cases bound <;> exact yields.restoring
  rwa [valueOf_eq same]

/-- The opposite of `historically` is what a search back for the opposite comes to. -/
theorem valueOf_historically (bound : Option Time) (time : Time) :
    SearchesBack events (shiftsOf (.always .holds) ((ofEvents events).operand f))
      (fun _ => .holds) (fun c => ((ofEvents events).valueOf f c).not)
      (windowStart bound time.toInstant) time.toInstant
      ((ofEvents events).valueOf (.historically (.upTo bound) f) time.toInstant).not := by
  obtain ⟨verdict, yields, searches⟩ := snce_yields ordered (yields_always _ .holds)
    (Yields.negated (value_yields ordered f)) bound time
  have same : (ofEvents events).Yields
      ((ofEvents events).evaluate (.historically (.upTo bound) f) time) verdict.not := by
    cases bound <;> exact (yields.map Verdict.not).restoring
  rwa [valueOf_eq same, Verdict.not_not]

theorem valueOf_less (l r : Term α) (time : Time) :
    (ofEvents events).valueOf (.less l r) time.toInstant =
      ((ofEvents events).measureOf l time).lessThan ((ofEvents events).measureOf r time) :=
  valueOf_eq (less_yields (evaluateTerm_yields ordered l time) (evaluateTerm_yields ordered r time))

/-- The value of a duration is what a measurement over the values of its operand comes to. -/
theorem measureOf_duration (length time : Time) :
    Accumulates events ((ofEvents events).operand f).shifts ((ofEvents events).valueOf f)
      (time.toInstant + length.toInstant) time.toInstant (.known .zero)
      ((ofEvents events).measureOf (.duration length f) time) := by
  obtain ⟨measure, yields, accumulates⟩ :=
    duration_yields ordered (value_yields ordered f) length time
  have same : (ofEvents events).measureOf (.duration length f) time = measure :=
    yields.eq (onTape_zero _)
  rwa [same]

theorem measureOf_sum (l r : Term α) (time : Time) :
    (ofEvents events).measureOf (.sum l r) time =
      ((ofEvents events).measureOf l time).add ((ofEvents events).measureOf r time) :=
  (sum_yields (evaluateTerm_yields ordered l time) (evaluateTerm_yields ordered r time)).eq
    (onTape_zero _)

end

end Tape

end TimedTrace
