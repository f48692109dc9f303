import TimedTrace.Proofs.Search

namespace TimedTrace

namespace Tape

variable {α : Type} {events : List (Event α)}

theorem yields_always (tape : Tape α) (verdict : Verdict) (c : Int) :
    tape.Yields ((Operand.always verdict).value c) verdict :=
  yields_answer tape verdict

theorem Yields.negated {tape : Tape α} {operand : Operand} {value : Int → Verdict}
    (yields : ∀ c, tape.Yields (operand.value c) (value c)) (c : Int) :
    tape.Yields (operand.negated.value c) (value c).not :=
  (yields c).map Verdict.not

/-- Two scans, one after the other, joined to one answer. The second may be left out where the first
decides. -/
theorem Yields.connect {tape : Tape α} {first second combined : Scan Verdict} {a b : Verdict}
    {op : Verdict → Verdict → Verdict} (firstYields : tape.Yields first a)
    (secondYields : tape.Yields second b)
    (joined : ∀ head middle, first head = (a, middle) →
      combined head = (op a b, middle) ∨ combined head = Scan.map (op a) second middle) :
    tape.Yields (tape.restoring combined) (op a b) := by
  refine Yields.restoring fun head onTape => ?_
  obtain ⟨middle, run, middleOn⟩ := firstYields head onTape
  rcases joined head middle run with decided | both
  · exact ⟨middle, decided, middleOn⟩
  · rw [both]
    exact secondYields.map (op a) middle middleOn

section

variable {left right operand : Operand} {l r value : Int → Verdict}

theorem untl_yields (ordered : Ordered events)
    (leftYields : ∀ c, (ofEvents events).Yields (left.value c) (l c))
    (rightYields : ∀ c, (ofEvents events).Yields (right.value c) (r c)) (bound : Option Time)
    (time : Time) :
    ∃ verdict, (ofEvents events).Yields ((ofEvents events).untl bound left right time) verdict ∧
      SearchEnds events (shiftsOf left right) l r
        (bound.map fun length => time.toInstant + length.toInstant) time.toInstant verdict := by
  obtain ⟨verdict, yields, ends⟩ := foldForward_yields ordered leftYields rightYields
    (bound.map fun length => time.toInstant + length.toInstant) time.toInstant
  exact ⟨verdict, yields.restoring, ends⟩

theorem snce_yields (ordered : Ordered events)
    (leftYields : ∀ c, (ofEvents events).Yields (left.value c) (l c))
    (rightYields : ∀ c, (ofEvents events).Yields (right.value c) (r c)) (bound : Option Time)
    (time : Time) :
    ∃ verdict, (ofEvents events).Yields ((ofEvents events).snce bound left right time) verdict ∧
      SearchesBack events (shiftsOf left right) l r
        (bound.map fun length => time.toInstant - length.toInstant) time.toInstant verdict := by
  obtain ⟨verdict, yields, searches⟩ := searchBehind_yields ordered leftYields rightYields
    (shiftsOf left right) (bound.map fun length => time.toInstant - length.toInstant)
    time.toInstant
  exact ⟨verdict, yields.restoring, searches⟩

theorem eventually_yields (ordered : Ordered events)
    (yields : ∀ c, (ofEvents events).Yields (operand.value c) (value c)) (bound : Bound)
    (time : Time) :
    ∃ verdict,
      (ofEvents events).Yields ((ofEvents events).eventually bound operand time) verdict := by
  cases bound with
  | exactly distance => exact ⟨_, yields (time.toInstant + distance.toInstant)⟩
  | within length =>
    obtain ⟨verdict, all, _⟩ :=
      untl_yields ordered (yields_always _ .holds) yields (some length) time
    exact ⟨verdict, all⟩
  | unbounded =>
    obtain ⟨verdict, all, _⟩ := untl_yields ordered (yields_always _ .holds) yields none time
    exact ⟨verdict, all⟩

theorem once_yields (ordered : Ordered events)
    (yields : ∀ c, (ofEvents events).Yields (operand.value c) (value c)) (bound : Bound)
    (time : Time) :
    ∃ verdict, (ofEvents events).Yields ((ofEvents events).once bound operand time) verdict := by
  cases bound with
  | exactly distance => exact ⟨_, yields (time.toInstant - distance.toInstant)⟩
  | within length =>
    obtain ⟨verdict, all, _⟩ :=
      snce_yields ordered (yields_always _ .holds) yields (some length) time
    exact ⟨verdict, all⟩
  | unbounded =>
    obtain ⟨verdict, all, _⟩ := snce_yields ordered (yields_always _ .holds) yields none time
    exact ⟨verdict, all⟩

theorem always_yields (ordered : Ordered events)
    (yields : ∀ c, (ofEvents events).Yields (operand.value c) (value c)) (bound : Bound)
    (time : Time) :
    ∃ verdict, (ofEvents events).Yields ((ofEvents events).always bound operand time) verdict := by
  obtain ⟨verdict, all⟩ := eventually_yields ordered (Yields.negated yields) bound time
  cases bound with
  | exactly distance => exact ⟨_, yields (time.toInstant + distance.toInstant)⟩
  | within length => exact ⟨_, all.map Verdict.not⟩
  | unbounded => exact ⟨_, all.map Verdict.not⟩

theorem historically_yields (ordered : Ordered events)
    (yields : ∀ c, (ofEvents events).Yields (operand.value c) (value c)) (bound : Bound)
    (time : Time) :
    ∃ verdict,
      (ofEvents events).Yields ((ofEvents events).historically bound operand time) verdict := by
  obtain ⟨verdict, all⟩ := once_yields ordered (Yields.negated yields) bound time
  cases bound with
  | exactly distance => exact ⟨_, yields (time.toInstant - distance.toInstant)⟩
  | within length => exact ⟨_, all.map Verdict.not⟩
  | unbounded => exact ⟨_, all.map Verdict.not⟩

theorem duration_yields (ordered : Ordered events)
    (yields : ∀ c, (ofEvents events).Yields (operand.value c) (value c)) (length time : Time) :
    ∃ measure,
      (ofEvents events).Yields ((ofEvents events).duration length operand time) measure ∧
        Accumulates events operand.shifts value (time.toInstant + length.toInstant) time.toInstant
          (.known .zero) measure := by
  obtain ⟨measure, all, accumulates⟩ := accumulate_yields ordered yields operand.shifts
    (time.toInstant + length.toInstant) time.toInstant (.known .zero)
  exact ⟨measure, all.restoring, accumulates⟩

end

variable [DecidableEq α]

/-- The value of a formula at an instant, for a head that stands at the start. -/
def valueOf (tape : Tape α) (f : Formula α) (c : Int) : Verdict :=
  ((tape.operand f).value c 0).1

theorem valueOf_toInstant (tape : Tape α) (f : Formula α) (time : Time) :
    tape.valueOf f time.toInstant = (tape.evaluate f time 0).1 := by
  simp only [valueOf, operand, Formula.operand, valueAt, Time.ofInstant?_toInstant]

theorem valueOf_of_none {tape : Tape α} {f : Formula α} {c : Int}
    (outside : Time.ofInstant? c = none) : tape.valueOf f c = .unknown := by
  simp only [valueOf, operand, Formula.operand, valueAt, outside, Scan.answer]

theorem operand_yields {tape : Tape α} {f : Formula α}
    (each : ∀ time, ∃ verdict, tape.Yields (tape.evaluate f time) verdict) (c : Int) :
    tape.Yields ((tape.operand f).value c) (tape.valueOf f c) := by
  unfold valueOf operand Formula.operand valueAt
  dsimp only
  cases Time.ofInstant? c with
  | none => exact yields_answer _ _
  | some time =>
    obtain ⟨verdict, yields⟩ := each time
    rwa [yields.eq (onTape_zero _)]

theorem neg_yields {tape : Tape α} {f : Formula α} {time : Time} {a : Verdict}
    (yields : tape.Yields (tape.evaluate f time) a) :
    tape.Yields (tape.evaluate (.neg f) time) a.not :=
  (yields.map Verdict.not).restoring

theorem disj_yields {tape : Tape α} {l r : Formula α} {time : Time} {a b : Verdict}
    (left : tape.Yields (tape.evaluate l time) a) (right : tape.Yields (tape.evaluate r time) b) :
    tape.Yields (tape.evaluate (.disj l r) time) (a.or b) := by
  refine left.connect right fun head middle run => ?_
  rw [run]
  cases a with
  | holds => exact .inl rfl
  | fails => exact .inr rfl
  | unknown => exact .inr rfl

theorem conj_yields {tape : Tape α} {l r : Formula α} {time : Time} {a b : Verdict}
    (left : tape.Yields (tape.evaluate l time) a) (right : tape.Yields (tape.evaluate r time) b) :
    tape.Yields (tape.evaluate (.conj l r) time) (a.and b) := by
  refine left.connect right fun head middle run => ?_
  rw [run]
  cases a with
  | fails => exact .inl rfl
  | holds => exact .inr rfl
  | unknown => exact .inr rfl

theorem imp_yields {tape : Tape α} {l r : Formula α} {time : Time} {a b : Verdict}
    (left : tape.Yields (tape.evaluate l time) a) (right : tape.Yields (tape.evaluate r time) b) :
    tape.Yields (tape.evaluate (.imp l r) time) (a.implies b) := by
  refine left.connect right fun head middle run => ?_
  rw [run]
  cases a with
  | fails => exact .inl rfl
  | holds => exact .inr rfl
  | unknown => exact .inr rfl

theorem less_yields {tape : Tape α} {l r : Term α} {time : Time} {a b : Measure}
    (left : tape.Yields (tape.evaluateTerm l time) a)
    (right : tape.Yields (tape.evaluateTerm r time) b) :
    tape.Yields (tape.evaluate (.less l r) time) (a.lessThan b) := by
  refine Yields.restoring fun head onTape => ?_
  obtain ⟨middle, run, middleOn⟩ := left head onTape
  rw [run]
  exact (right.map a.lessThan) middle middleOn

theorem sum_yields {tape : Tape α} {l r : Term α} {time : Time} {a b : Measure}
    (left : tape.Yields (tape.evaluateTerm l time) a)
    (right : tape.Yields (tape.evaluateTerm r time) b) :
    tape.Yields (tape.evaluateTerm (.sum l r) time) (a.add b) := by
  intro head onTape
  obtain ⟨middle, run, middleOn⟩ := left head onTape
  have unfolded : tape.evaluateTerm (.sum l r) time head =
      Scan.map a.add (tape.evaluateTerm r time) middle := by
    simp only [evaluateTerm, run]
  rw [unfolded]
  exact (right.map a.add) middle middleOn

mutual

/-- A formula has one value, wherever the head stands. -/
theorem exists_evaluate_yields (ordered : Ordered events) : (f : Formula α) → (time : Time) →
    ∃ verdict, (ofEvents events).Yields ((ofEvents events).evaluate f time) verdict
  | .top, _ => ⟨_, (yields_answer _ _).restoring⟩
  | .bot, _ => ⟨_, (yields_answer _ _).restoring⟩
  | .atom data, time => by
    obtain ⟨verdict, yields, _⟩ := proposition_yields ordered data time
    exact ⟨verdict, yields.restoring⟩
  | .neg f, time => by
    obtain ⟨_, yields⟩ := exists_evaluate_yields ordered f time
    exact ⟨_, neg_yields yields⟩
  | .disj l r, time => by
    obtain ⟨_, left⟩ := exists_evaluate_yields ordered l time
    obtain ⟨_, right⟩ := exists_evaluate_yields ordered r time
    exact ⟨_, disj_yields left right⟩
  | .conj l r, time => by
    obtain ⟨_, left⟩ := exists_evaluate_yields ordered l time
    obtain ⟨_, right⟩ := exists_evaluate_yields ordered r time
    exact ⟨_, conj_yields left right⟩
  | .imp l r, time => by
    obtain ⟨_, left⟩ := exists_evaluate_yields ordered l time
    obtain ⟨_, right⟩ := exists_evaluate_yields ordered r time
    exact ⟨_, imp_yields left right⟩
  | .untl bound l r, time => by
    obtain ⟨verdict, yields, _⟩ := untl_yields ordered
      (operand_yields fun time => exists_evaluate_yields ordered l time)
      (operand_yields fun time => exists_evaluate_yields ordered r time) bound time
    exact ⟨verdict, yields.restoring⟩
  | .snce bound l r, time => by
    obtain ⟨verdict, yields, _⟩ := snce_yields ordered
      (operand_yields fun time => exists_evaluate_yields ordered l time)
      (operand_yields fun time => exists_evaluate_yields ordered r time) bound time
    exact ⟨verdict, yields.restoring⟩
  | .eventually bound f, time => by
    obtain ⟨verdict, yields⟩ := eventually_yields ordered
      (operand_yields fun time => exists_evaluate_yields ordered f time) bound time
    exact ⟨verdict, yields.restoring⟩
  | .always bound f, time => by
    obtain ⟨verdict, yields⟩ := always_yields ordered
      (operand_yields fun time => exists_evaluate_yields ordered f time) bound time
    exact ⟨verdict, yields.restoring⟩
  | .once bound f, time => by
    obtain ⟨verdict, yields⟩ := once_yields ordered
      (operand_yields fun time => exists_evaluate_yields ordered f time) bound time
    exact ⟨verdict, yields.restoring⟩
  | .historically bound f, time => by
    obtain ⟨verdict, yields⟩ := historically_yields ordered
      (operand_yields fun time => exists_evaluate_yields ordered f time) bound time
    exact ⟨verdict, yields.restoring⟩
  | .less l r, time => by
    obtain ⟨_, left⟩ := exists_evaluateTerm_yields ordered l time
    obtain ⟨_, right⟩ := exists_evaluateTerm_yields ordered r time
    exact ⟨_, less_yields left right⟩

/-- A term has one value, wherever the head stands. -/
theorem exists_evaluateTerm_yields (ordered : Ordered events) : (term : Term α) → (time : Time) →
    ∃ measure, (ofEvents events).Yields ((ofEvents events).evaluateTerm term time) measure
  | .constant value, _ => ⟨_, yields_answer _ (Measure.known value)⟩
  | .duration length f, time => by
    obtain ⟨measure, yields, _⟩ := duration_yields ordered
      (operand_yields fun time => exists_evaluate_yields ordered f time) length time
    exact ⟨measure, yields⟩
  | .sum l r, time => by
    obtain ⟨_, left⟩ := exists_evaluateTerm_yields ordered l time
    obtain ⟨_, right⟩ := exists_evaluateTerm_yields ordered r time
    exact ⟨_, sum_yields left right⟩

end

end Tape

end TimedTrace
