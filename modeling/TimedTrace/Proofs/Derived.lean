import TimedTrace.Proofs.Shown

namespace TimedTrace

variable {α β γ : Type}

namespace Tape

/-- From wherever it starts on the tape, the scan leaves the head on the tape. -/
def Stays (tape : Tape α) (scan : Scan β) : Prop :=
  ∀ head, tape.OnTape head → tape.OnTape (scan head).2

section

variable {tape : Tape α}

theorem Stays.of_run {scan : Scan β} {head stop : Nat} {answer : β} (stays : tape.Stays scan)
    (onTape : tape.OnTape head) (run : scan head = (answer, stop)) : tape.OnTape stop := by
  have left := stays head onTape
  rwa [run] at left

theorem stays_answer (tape : Tape α) (answer : β) : tape.Stays (Scan.answer answer) :=
  fun _ onTape => onTape

theorem Stays.map {scan : Scan β} (stays : tape.Stays scan) (f : β → γ) :
    tape.Stays (Scan.map f scan) := stays

theorem stays_restoring (tape : Tape α) (scan : Scan β) : tape.Stays (tape.restoring scan) := by
  intro head _
  unfold restoring
  dsimp only
  split
  · exact .inl ‹_›
  · exact .inr rfl

theorem stays_rewind (tape : Tape α) (time : Time) : tape.Stays (tape.rewind time) := by
  intro head onTape
  induction head with
  | zero =>
    unfold rewind
    split
    · exact onTape
    · split
      · exact onTape
      · exact onTape
  | succ head ih =>
    unfold rewind
    split
    · exact onTape
    · split
      · exact onTape
      · refine ih (.inl ?_)
        rcases onTape with inside | start
        · omega
        · cases start

theorem stays_advance (tape : Tape α) (time : Time) : tape.Stays (tape.advance time) := by
  intro head onTape
  fun_induction advance tape time head with
  | case1 => exact onTape
  | case2 head inside event atNext early ih => exact ih (.inl inside)
  | case3 => exact onTape
  | case4 => exact onTape

theorem stays_seek (tape : Tape α) (time : Time) : tape.Stays (tape.seek time) := by
  intro head onTape
  unfold seek
  split
  · rename_i run
    exact (stays_rewind tape time).of_run onTape run
  · rename_i run
    exact stays_advance tape time _ ((stays_rewind tape time).of_run onTape run)

theorem stays_firstAfter (tape : Tape α) (instant : Int) : tape.Stays (tape.firstAfter instant) := by
  intro head onTape
  unfold firstAfter
  split
  · split
    · rename_i run
      exact (stays_seek tape _).of_run onTape run
    · exact onTape_zero tape
  · split
    · exact onTape_zero tape
    · exact onTape

theorem stays_lastBefore (tape : Tape α) (instant : Int) : tape.Stays (tape.lastBefore instant) := by
  intro head onTape
  have sought {time : Time} {result : Except ReaderError Unit} {stop : Nat}
      (run : tape.seek time head = (result, stop)) : tape.OnTape stop :=
    (stays_seek tape time).of_run onTape run
  unfold lastBefore
  dsimp only
  split
  · split
    · exact sought ‹_›
    · exact sought ‹_›
  · split
    · split
      · exact sought ‹_›
      · exact sought ‹_›
    · exact onTape

theorem Stays.bestOf {search : Int → Scan (Option Int)} (each : ∀ shift, tape.Stays (search shift))
    (best : Int → Int → Int) (before : Option Int) (shifts : List Int) :
    tape.Stays (Tape.bestOf best search before shifts) := by
  intro head onTape
  induction shifts generalizing before head with
  | nil => exact onTape
  | cons shift shifts ih => exact ih _ _ (each shift head onTape)

theorem stays_nextInstant (tape : Tape α) (c : Int) (shifts : List Int) :
    tape.Stays (tape.nextInstant c shifts) :=
  .bestOf (fun _ => (stays_firstAfter tape _).map _) _ _ _

theorem stays_previousInstant (tape : Tape α) (c : Int) (shifts : List Int) :
    tape.Stays (tape.previousInstant c shifts) :=
  .bestOf (fun _ => (stays_lastBefore tape _).map _) _ _ _

end

/-- An operand that leaves the head on the tape, and that knows nothing and does not move the head
where there is no time. -/
structure Timed (tape : Tape α) (operand : Operand) : Prop where
  stays : ∀ c, tape.Stays (operand.value c)
  outside : ∀ c, Time.ofInstant? c = none → operand.value c = Scan.answer .unknown

theorem Timed.negated {tape : Tape α} {operand : Operand} (timed : tape.Timed operand) :
    tape.Timed operand.negated where
  stays c := (timed.stays c).map Verdict.not
  outside c none := by
    dsimp only [Operand.negated]
    rw [timed.outside c none]
    rfl

variable [DecidableEq α]

/-- Whatever the formula, its evaluation puts the head back. -/
theorem evaluate_eq_restoring (tape : Tape α) (f : Formula α) (time : Time) :
    tape.evaluate f time = tape.restoring (tape.evaluate f time) := by
  cases f <;> rfl

theorem timed_operand (tape : Tape α) (f : Formula α) : tape.Timed (tape.operand f) where
  stays c := by
    dsimp only [operand, Formula.operand, valueAt]
    split
    · rw [evaluate_eq_restoring]
      exact stays_restoring tape _
    · exact stays_answer tape _
  outside c none := by
    dsimp only [operand, Formula.operand, valueAt]
    rw [none]

/-- The negation of a formula is the negated operand. -/
theorem operand_neg (tape : Tape α) (f : Formula α) :
    tape.operand (.neg f) = (tape.operand f).negated := by
  have value (c : Int) :
      (tape.operand (.neg f)).value c = (tape.operand f).negated.value c := by
    dsimp only [operand, Formula.operand, Operand.negated, valueAt]
    split
    · rw [evaluate_eq_restoring tape f]
      rfl
    · rfl
  exact congrArg (Operand.mk · (.mk fun _ => f.offsets)) (funext value)

theorem shiftsOf_top (tape : Tape α) (right : Operand) :
    shiftsOf (tape.operand .top) right = shiftsOf (.always .holds) right := rfl

section

variable {tape : Tape α} {right : Operand} (timed : tape.Timed right)

include timed

/-- Beside an operand that knows nothing where there is no time, truth as a formula settles as truth
as a constant does, and neither moves the head. -/
theorem settle_top (c : Int) {head : Nat} (onTape : tape.OnTape head) :
    ∃ verdict, (tape.operand .top).value c head = (verdict, head) ∧
      Verdict.settle verdict (right.value c head).1 =
        Verdict.settle .holds (right.value c head).1 := by
  cases atC : Time.ofInstant? c with
  | none =>
    refine ⟨.unknown, ?_, ?_⟩
    · rw [(timed_operand tape .top).outside c atC]
      rfl
    · rw [timed.outside c atC]
      rfl
  | some time =>
    refine ⟨.holds, ?_, rfl⟩
    have stands : (if head < tape.size then head else 0) = head := by
      rcases onTape with inside | start
      · exact if_pos inside
      · rw [start, ite_self]
    simp only [operand, Formula.operand, valueAt, atC, evaluate, restoring, Scan.answer, stands]

theorem searchAhead_top (shifts : Thunk (List Int)) (finish : Option Int) (c : Int) {head : Nat}
    (onTape : tape.OnTape head) :
    tape.searchAhead (tape.operand .top) right shifts finish c head =
      tape.searchAhead (.always .holds) right shifts finish c head := by
  obtain ⟨verdict, leftRun, same⟩ := settle_top timed c onTape
  have leftRunToo : (Operand.always .holds).value c head = (.holds, head) := rfl
  cases rightRun : right.value c head with
  | mk rightValue stop =>
    rw [rightRun] at same
    have stopOn := (timed.stays c).of_run onTape rightRun
    cases settles : Verdict.settle .holds rightValue with
    | some verdict =>
      rw [searchAhead_settled leftRun rightRun (same.trans settles),
        searchAhead_settled leftRunToo rightRun settles]
    | none =>
      cases foundRun : tape.nextInstant c shifts.get stop with
      | mk found last =>
        have lastOn := (stays_nextInstant tape c shifts.get).of_run stopOn foundRun
        rw [searchAhead_unsettled leftRun rightRun (same.trans settles) foundRun,
          searchAhead_unsettled leftRunToo rightRun settles foundRun]
        cases found with
        | none => rfl
        | some next =>
          have := instantsLeft_lt foundRun
          dsimp only
          rw [searchAhead_top shifts finish next lastOn]
termination_by instantsLeft shifts.get c

theorem searchBehind_top (shifts : List Int) (start : Option Int) (c : Int) {head : Nat}
    (onTape : tape.OnTape head) :
    tape.searchBehind (tape.operand .top) right shifts start c head =
      tape.searchBehind (.always .holds) right shifts start c head := by
  cases foundRun : tape.previousInstant c shifts head with
  | mk previous last =>
    have lastOn := (stays_previousInstant tape c shifts).of_run onTape foundRun
    cases step : stepBack previous (start.map fun start => (start + 1).toNat) c with
    | none => rw [searchBehind_stops foundRun step, searchBehind_stops foundRun step]
    | some next =>
      obtain ⟨verdict, leftRun, same⟩ := settle_top timed next lastOn
      have leftRunToo : (Operand.always .holds).value next last = (.holds, last) := rfl
      have := stepBack_eq_some
        (fun _ atP => previousInstant_eq_some ((congrArg Prod.fst foundRun).trans atP)) step
      rw [searchBehind_goes foundRun step, searchBehind_goes foundRun step, leftRun, leftRunToo]
      dsimp only
      rw [same]
      cases Verdict.settle .holds (right.value next last).1 with
      | some verdict => rfl
      | none => exact searchBehind_top shifts start next (timed.stays next last lastOn)
termination_by c.toNat

theorem untl_top (bound : Option Time) (time : Time) {head : Nat} (onTape : tape.OnTape head) :
    tape.untl bound (tape.operand .top) right time head =
      tape.untl bound (.always .holds) right time head := by
  unfold untl restoring foldForward
  split
  · rw [searchAhead_top timed _ _ _ onTape, shiftsOf_top]
  · rfl

theorem snce_top (bound : Option Time) (time : Time) {head : Nat} (onTape : tape.OnTape head) :
    tape.snce bound (tape.operand .top) right time head =
      tape.snce bound (.always .holds) right time head := by
  unfold snce restoring foldBackward
  rw [searchBehind_top timed _ _ _ onTape, shiftsOf_top]

end

/-- What holds at every instant never fails at any. -/
theorem evaluate_always_eq (tape : Tape α) (bound : Bound) (f : Formula α) (time : Time)
    (head : Nat) : (tape.evaluate (.always bound f) time head).1 =
      (tape.evaluate (.eventually bound (.neg f)) time head).1.not := by
  rw [evaluate_always, evaluate_eventually, operand_neg]
  cases bound with
  | within length => rfl
  | unbounded => rfl
  | exactly distance => exact (Verdict.not_not _).symm

theorem evaluate_historically_eq (tape : Tape α) (bound : Bound) (f : Formula α) (time : Time)
    (head : Nat) : (tape.evaluate (.historically bound f) time head).1 =
      (tape.evaluate (.once bound (.neg f)) time head).1.not := by
  rw [evaluate_historically, evaluate_once, operand_neg]
  cases bound with
  | within length => rfl
  | unbounded => rfl
  | exactly distance => exact (Verdict.not_not _).symm

section

variable {tape : Tape α} {head : Nat} (onTape : tape.OnTape head)

include onTape

/-- Something comes about if it does so after what always holds. -/
theorem evaluate_eventually_eq (limit : Option Time) (f : Formula α) (time : Time) :
    (tape.evaluate (.eventually (.upTo limit) f) time head).1 =
      (tape.evaluate (.untl limit .top f) time head).1 := by
  have same := congrArg Prod.fst (untl_top (timed_operand tape f) limit time onTape)
  rw [evaluate_eventually, evaluate_untl]
  cases limit with
  | some length => exact same.symm
  | none => exact same.symm

theorem evaluate_once_eq (limit : Option Time) (f : Formula α) (time : Time) :
    (tape.evaluate (.once (.upTo limit) f) time head).1 =
      (tape.evaluate (.snce limit .top f) time head).1 := by
  have same := congrArg Prod.fst (snce_top (timed_operand tape f) limit time onTape)
  rw [evaluate_once, evaluate_snce]
  cases limit with
  | some length => exact same.symm
  | none => exact same.symm

end

end Tape

namespace Cursor

variable [DecidableEq α]

/-- Derived operators answer as what they are derived from, wherever the cursor stands, whatever its
window holds. -/
theorem evaluate_derived {cursor : Cursor} {ring : Ring α}
    (valid : Valid cursor.reader ring cursor.position) (bound : Bound) (limit : Option Time)
    (f : Formula α) (time : Time) :
    (cursor.evaluate ring (.always bound f) time).1 =
        (cursor.evaluate ring (.eventually bound (.neg f)) time).1.not ∧
      (cursor.evaluate ring (.historically bound f) time).1 =
        (cursor.evaluate ring (.once bound (.neg f)) time).1.not ∧
      (cursor.evaluate ring (.eventually (.upTo limit) f) time).1 =
        (cursor.evaluate ring (.untl limit .top f) time).1 ∧
      (cursor.evaluate ring (.once (.upTo limit) f) time).1 =
        (cursor.evaluate ring (.snce limit .top f) time).1 := by
  have onTape := onTape_of_valid valid
  exact ⟨Tape.evaluate_always_eq _ bound f time _, Tape.evaluate_historically_eq _ bound f time _,
    Tape.evaluate_eventually_eq onTape limit f time, Tape.evaluate_once_eq onTape limit f time⟩

end Cursor

/-- The wrapped ring with times that decrease: 5, 3 and then 9. -/
def disorderedRing : Ring Bool :=
  { wrappedRing with
    slots :=
      #v[⟨4, some ⟨true, .ofNanos 9⟩⟩, ⟨2, some ⟨true, .ofNanos 2⟩⟩, ⟨2, some ⟨true, .ofNanos 5⟩⟩,
        ⟨2, some ⟨false, .ofNanos 3⟩⟩] }

theorem evaluate_derived_disordered :
    Cursor.Valid wrappedCursor.reader disorderedRing wrappedCursor.position ∧
    (wrappedCursor.evaluate disorderedRing (.always (.within (.ofNanos 3)) (.atom true))
        (.ofNanos 3)).1 =
      (wrappedCursor.evaluate disorderedRing
        (.eventually (.within (.ofNanos 3)) (.neg (.atom true))) (.ofNanos 3)).1.not ∧
    (wrappedCursor.evaluate disorderedRing (.historically (.within (.ofNanos 3)) (.atom true))
        (.ofNanos 3)).1 =
      (wrappedCursor.evaluate disorderedRing
        (.once (.within (.ofNanos 3)) (.neg (.atom true))) (.ofNanos 3)).1.not ∧
    (wrappedCursor.evaluate disorderedRing (.eventually (.within (.ofNanos 3)) (.atom true))
        (.ofNanos 3)).1 =
      (wrappedCursor.evaluate disorderedRing (.untl (some (.ofNanos 3)) .top (.atom true))
        (.ofNanos 3)).1 ∧
    (wrappedCursor.evaluate disorderedRing (.once (.within (.ofNanos 3)) (.atom true))
        (.ofNanos 3)).1 =
      (wrappedCursor.evaluate disorderedRing (.snce (some (.ofNanos 3)) .top (.atom true))
        (.ofNanos 3)).1 := by
  have valid : Cursor.Valid wrappedCursor.reader disorderedRing wrappedCursor.position := by decide
  exact ⟨valid, Cursor.evaluate_derived valid (.within (.ofNanos 3)) (some (.ofNanos 3))
    (.atom true) (.ofNanos 3)⟩

/-- There it matters where the cursor stands: from the second event it finds the one in force, and
from the oldest, which is later, it finds none. -/
example :
    (wrappedCursor.evaluate disorderedRing (.atom true) (.ofNanos 3)).1 = .fails ∧
    (wrappedCursor.reset.evaluate disorderedRing (.atom true) (.ofNanos 3)).1 = .unknown := by
  constructor
  · cbv
  · cbv

end TimedTrace
