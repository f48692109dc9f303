import TimedTrace.Proofs.Abreast
import TimedTrace.Proofs.Coverage
import TimedTrace.Proofs.Derived
import TimedTrace.Session

namespace TimedTrace

variable {α β γ : Type}

namespace Tape

theorem stays_increment (tape : Tape α) : tape.Stays tape.increment := by
  intro head onTape
  unfold increment
  split
  · rename_i more
    exact .inl more
  · exact onTape

theorem stays_decrement (tape : Tape α) : tape.Stays decrement := by
  intro head onTape
  cases head with
  | zero => exact tape.onTape_zero
  | succ head =>
    rcases onTape with inside | start
    · exact .inl (Nat.lt_of_succ_lt inside)
    · cases start

/-- Wherever on the tape it starts, the scan leaves the head exactly there. -/
def Restores (tape : Tape α) (scan : Scan β) : Prop :=
  ∀ head, tape.OnTape head → (scan head).2 = head

variable {tape : Tape α}

theorem restores_answer (tape : Tape α) (answer : β) : tape.Restores (Scan.answer answer) :=
  fun _ _ => rfl

theorem Restores.map {scan : Scan β} (restores : tape.Restores scan) (f : β → γ) :
    tape.Restores (Scan.map f scan) := restores

/-- On the tape the head is never sent to the oldest event for want of the place it came from. -/
theorem restores_restoring (tape : Tape α) (scan : Scan β) :
    tape.Restores (tape.restoring scan) := by
  intro head onTape
  rcases onTape with inside | start
  · exact restoring_position inside scan
  · subst head
    unfold restoring
    dsimp only
    split
    · rfl
    · rfl

/-- The head stays put through one scan and then through one that depends on its answer. -/
theorem Restores.andThen {first : Scan β} {second : β → Scan γ} (restores : tape.Restores first)
    (also : ∀ answer, tape.Restores (second answer)) :
    tape.Restores fun head => second (first head).1 (first head).2 := by
  intro head onTape
  dsimp only
  rw [restores head onTape]
  exact also _ head onTape

variable [DecidableEq α]

theorem evaluate_restores (tape : Tape α) (f : Formula α) (time : Time) :
    tape.Restores (tape.evaluate f time) := by
  rw [evaluate_eq_restoring]
  exact restores_restoring tape _

/-- An operand is looked at without moving the head, also where there is no time. -/
theorem operand_restores (tape : Tape α) (f : Formula α) (instant : Int) :
    tape.Restores ((tape.operand f).value instant) := by
  dsimp only [operand, Formula.operand, valueAt]
  split
  · exact evaluate_restores tape f _
  · exact restores_answer tape _

theorem evaluateTerm_restores (tape : Tape α) (term : Term α) (time : Time) :
    tape.Restores (tape.evaluateTerm term time) := by
  cases term with
  | constant value => exact restores_answer tape _
  | duration length f => exact restores_restoring tape _
  | sum l r =>
    exact (evaluateTerm_restores tape l time).andThen
      fun left => (evaluateTerm_restores tape r time).map left.add

end Tape

/-- An operator, with its operands, that is called on a cursor by itself. -/
inductive Operator (α : Type) where
  | proposition (data : α)
  | untl (bound : Option Time) (l r : Formula α)
  | snce (bound : Option Time) (l r : Formula α)
  | eventually (bound : Bound) (f : Formula α)
  | always (bound : Bound) (f : Formula α)
  | once (bound : Bound) (f : Formula α)
  | historically (bound : Bound) (f : Formula α)
  | duration (length : Time) (f : Formula α)

section

variable [DecidableEq α]

namespace Operator

/-- What the operator answers on a tape: a verdict, or the measure of a duration. -/
def scan (tape : Tape α) (time : Time) : Operator α → Scan (Verdict ⊕ Measure)
  | proposition data => Scan.map .inl (tape.proposition data time)
  | untl bound l r => Scan.map .inl (tape.untl bound (tape.operand l) (tape.operand r) time)
  | snce bound l r => Scan.map .inl (tape.snce bound (tape.operand l) (tape.operand r) time)
  | eventually bound f => Scan.map .inl (tape.eventually bound (tape.operand f) time)
  | always bound f => Scan.map .inl (tape.always bound (tape.operand f) time)
  | once bound f => Scan.map .inl (tape.once bound (tape.operand f) time)
  | historically bound f => Scan.map .inl (tape.historically bound (tape.operand f) time)
  | duration length f => Scan.map .inr (tape.duration length (tape.operand f) time)

/-- Operators at one instant leave the moving to their operand; all others search and restore. -/
theorem scan_restores (tape : Tape α) (time : Time) (operator : Operator α) :
    tape.Restores (operator.scan tape time) := by
  cases operator with
  | proposition data => exact (Tape.restores_restoring tape _).map Sum.inl
  | untl bound l r | snce bound l r => exact (Tape.restores_restoring tape _).map Sum.inl
  | eventually bound f | once bound f =>
    cases bound with
    | exactly distance => exact (Tape.operand_restores tape f _).map Sum.inl
    | within length | unbounded => exact (Tape.restores_restoring tape _).map Sum.inl
  | always bound f | historically bound f =>
    cases bound with
    | exactly distance => exact (Tape.operand_restores tape f _).map Sum.inl
    | within length | unbounded =>
      exact ((Tape.restores_restoring tape _).map Verdict.not).map Sum.inl
  | duration length f => exact (Tape.restores_restoring tape _).map Sum.inr

end Operator

namespace Cursor

/-- Calls an operator at a time over the window of a cursor, starting from where it stands. -/
def operate (cursor : Cursor) (ring : Ring α) (operator : Operator α) (time : Time) :
    (Verdict ⊕ Measure) × Cursor :=
  cursor.onTape ring fun tape => operator.scan tape time

/-- The cursor after it has done what it was told. -/
def act (ring : Ring α) (cursor : Cursor) (command : CursorCommand α) : Cursor :=
  (Session.actCursor ring cursor command).2

end Cursor

end

namespace Cursor

/-- The cursor stands on its window, and that begins at a slot. -/
structure Stands (cursor : Cursor) (ring : Ring α) : Prop where
  bottom_lt : cursor.reader.window.bottom < ring.size
  valid : Valid cursor.reader ring cursor.position

namespace Stands

variable {cursor : Cursor} {ring other : Ring α}

/-- What the slots of the ring hold does not matter. -/
theorem congr (stands : cursor.Stands ring) (same : ring.size = other.size) :
    cursor.Stands other := by
  have distance (start finish : Nat) :
      ring.distance start finish = other.distance start finish := by
    unfold Ring.distance
    rw [same]
  obtain ⟨bottom_lt, position_lt, inside⟩ := stands
  refine ⟨same ▸ bottom_lt, same ▸ position_lt, ?_⟩
  unfold Reader.length at *
  rwa [← distance, ← distance]

/-- A head that is kept on the tape is kept on the window. -/
theorem onTape (stands : cursor.Stands ring) {scan : Tape α → Scan β}
    (stays : ∀ tape : Tape α, tape.Stays (scan tape)) :
    (cursor.onTape ring scan).2.Stands ring := by
  have room : cursor.reader.length ring < ring.size := ring.distance_lt ..
  refine ⟨stands.bottom_lt, ring.forward_lt .., ?_⟩
  unfold Cursor.onTape
  dsimp only
  rcases stays _ _ (onTape_of_valid stands.valid) with inside | start
  · rw [size_tape] at inside
    right
    rwa [ring.distance_forward stands.bottom_lt (by omega)]
  · left
    rw [start]
    exact Nat.mod_eq_of_lt stands.bottom_lt

/-- A head that is put back on the tape is put back on the window. -/
theorem onTape_eq (stands : cursor.Stands ring) {scan : Tape α → Scan β}
    (restores : ∀ tape : Tape α, tape.Restores (scan tape)) :
    (cursor.onTape ring scan).2 = cursor := by
  unfold Cursor.onTape
  dsimp only
  rw [restores _ _ (onTape_of_valid stands.valid), consumed,
    ring.forward_distance stands.bottom_lt stands.valid.1]

/-- A cursor that follows its reader stands on the new window. -/
theorem follow (cursor : Cursor) {reader : Reader} (bottom_lt : reader.window.bottom < ring.size) :
    (cursor.follow ring reader).Stands ring := by
  constructor
  · rwa [reader_follow]
  · rw [reader_follow]
    exact valid_follow cursor bottom_lt

/-- A cursor that lets its reader act goes on standing on its window. -/
theorem through (stands : cursor.Stands ring) {act : Except ReaderError β × Reader}
    (spares : Spares cursor.reader act) (bottom_lt : act.2.window.bottom < ring.size) :
    (cursor.through ring act).2.Stands ring := by
  unfold Cursor.through
  split
  · exact follow cursor bottom_lt
  · rename_i cause reader
    have same : reader = cursor.reader := spares cause rfl
    subst same
    exact stands

variable [DecidableEq α]

/-- What an evaluation of any kind leaves behind is the cursor as it was. -/
theorem evaluate_eq (stands : cursor.Stands ring) (f : Formula α) (time : Time) :
    (cursor.evaluate ring f time).2 = cursor :=
  stands.onTape_eq fun tape => tape.evaluate_restores f time

theorem evaluateTerm_eq (stands : cursor.Stands ring) (term : Term α) (time : Time) :
    (cursor.evaluateTerm ring term time).2 = cursor :=
  stands.onTape_eq fun tape => tape.evaluateTerm_restores term time

theorem operate_eq (stands : cursor.Stands ring) (operator : Operator α) (time : Time) :
    (cursor.operate ring operator time).2 = cursor :=
  stands.onTape_eq fun tape => operator.scan_restores tape time

/-- Whatever the cursor is told, it goes on standing on its window. -/
theorem act (stands : cursor.Stands ring) (inRange : ring.InRange ring.size)
    (command : CursorCommand α) : (cursor.act ring command).Stands ring := by
  have low (command : ReaderCommand) :=
    Reader.bottom_lt_act inRange stands.bottom_lt command
  cases command with
  | synchronize => exact stands.through (cursor.reader.spares_synchronize ring) (low .synchronize)
  | pull => exact stands.through (cursor.reader.spares_pull ring) (low .pull)
  | pop => exact stands.through (cursor.reader.spares_pop ring) (low .pop)
  | increment => exact stands.onTape Tape.stays_increment
  | decrement => exact stands.onTape Tape.stays_decrement
  | seek time => exact stands.onTape fun tape => tape.stays_seek time
  | moveTo position =>
    simp only [Cursor.act, Session.actCursor, moveTo]
    split
    · rename_i valid
      exact ⟨stands.bottom_lt, valid⟩
    · exact stands
  | reset => exact ⟨stands.bottom_lt, valid_bottom stands.bottom_lt⟩
  | gap | read | readNext | readPrevious | look => exact stands
  | evaluate f time =>
    have same : cursor.act ring (.evaluate f time) = cursor := stands.evaluate_eq f time
    rwa [same]
  | evaluateTerm term time =>
    have same : cursor.act ring (.evaluateTerm term time) = cursor :=
      stands.evaluateTerm_eq term time
    rwa [same]

end Stands

/-- A cursor stands on its window throughout every run. -/
theorem Stands.of_run [DecidableEq α] {kind : RegisterKind} {capacity : Nat} {epoch : Time}
    {patience : Patience} {start : Ring α} {traffic : Traffic α} {cursor : Cursor}
    (created : Ring.create kind capacity epoch patience = .ok start)
    (happenings : List (Motion α ⊕ CursorCommand α))
    (ran : Traffic.run Cursor.act happenings (.idle start, .fresh) = (traffic, cursor)) :
    traffic.ring.InRange start.size ∧ cursor.Stands traffic.ring := by
  have fresh : Cursor.fresh.Stands start := ⟨start.size_pos, valid_bottom start.size_pos⟩
  have kept (ring : Ring α) (cursor : Cursor) (command : CursorCommand α)
      (inRange : ring.InRange start.size) (stands : cursor.Stands start) :
      (cursor.act ring command).Stands start := by
    have here := stands.congr inRange.slots.symm
    exact (here.act (inRange.slots ▸ inRange) command).congr inRange.slots
  obtain ⟨inRange, stands⟩ := Traffic.InRange.run (fun cursor => cursor.Stands start) kept ran
    (.of_create created) fresh
  exact ⟨inRange.ring, stands.congr inRange.ring.slots.symm⟩

variable [DecidableEq α]

/-- Whatever was done with a cursor and whatever happened to its ring, it stands on its window, so
there are no more events before it than in the window; and nothing that is evaluated over the window
moves it, be the slots readable or not and their times ordered or not. -/
theorem keeps_its_place {kind : RegisterKind} {capacity : Nat} {epoch : Time} {patience : Patience}
    {start : Ring α} {traffic : Traffic α} {cursor : Cursor}
    (created : Ring.create kind capacity epoch patience = .ok start)
    (happenings : List (Motion α ⊕ CursorCommand α))
    (ran : Traffic.run act happenings (.idle start, .fresh) = (traffic, cursor)) :
    Valid cursor.reader traffic.ring cursor.position ∧
    cursor.consumed traffic.ring ≤ cursor.reader.length traffic.ring ∧
    (∀ (f : Formula α) (time : Time), (cursor.evaluate traffic.ring f time).2 = cursor) ∧
    (∀ (term : Term α) (time : Time), (cursor.evaluateTerm traffic.ring term time).2 = cursor) ∧
    ∀ (operator : Operator α) (time : Time),
      (cursor.operate traffic.ring operator time).2 = cursor := by
  have stands := (Stands.of_run created happenings ran).2
  refine ⟨stands.valid, ?_, stands.evaluate_eq, stands.evaluateTerm_eq, stands.operate_eq⟩
  rcases stands.valid.2 with atBottom | inside
  · rw [consumed, atBottom, Ring.distance_self]
    exact Nat.zero_le _
  · exact Nat.le_of_lt inside

/-- A cursor that goes to the newest slot of its window while an append is still to fill it. -/
def wandering : List (Motion Nat ⊕ CursorCommand Nat) :=
  [.inl (.perform (.push ⟨1, .ofNanos 5⟩)), .inl (.perform (.push ⟨2, .ofNanos 3⟩)),
    .inr .synchronize, .inr (.moveTo 1), .inl (.start (.append ⟨3, .zero⟩)), .inl (.swap 0 false),
    .inr .pull, .inr .synchronize, .inr (.moveTo 2)]

theorem keeps_its_place_wandering :
    ∃ traffic cursor, Traffic.run act wandering (.idle smallRing, .fresh) = (traffic, cursor) ∧
      cursor.position = 2 ∧ traffic.ring.read 2 = .error (.busy 2) ∧
      Valid cursor.reader traffic.ring cursor.position ∧
      cursor.consumed traffic.ring ≤ cursor.reader.length traffic.ring ∧
      ∀ time, (cursor.evaluate traffic.ring (.untl none (.atom 1) (.atom 2)) time).2 = cursor := by
  obtain ⟨valid, consumed, evaluates, _⟩ := keeps_its_place create_smallRing wandering rfl
  exact ⟨_, _, rfl, rfl, rfl, valid, consumed, evaluates _⟩

/-- Over settled events in order, it does not matter where in its window a cursor stands. -/
theorem evaluate_indifferent {reader : Reader} {ring : Ring α} {events : List (Event α)}
    (shows : reader.Shows ring events) (ordered : Ordered events) {here there : Nat}
    (valid : Valid reader ring here) (also : Valid reader ring there) (time : Time) :
    (∀ f : Formula α, ((⟨reader, here⟩ : Cursor).evaluate ring f time).1 =
      ((⟨reader, there⟩ : Cursor).evaluate ring f time).1) ∧
    ∀ term : Term α, ((⟨reader, here⟩ : Cursor).evaluateTerm ring term time).1 =
      ((⟨reader, there⟩ : Cursor).evaluateTerm ring term time).1 := by
  have formulas {position : Nat} (valid : Valid reader ring position) (f : Formula α) :
      ((⟨reader, position⟩ : Cursor).evaluate ring f time).1 =
        (Tape.ofEvents events).valueOf f time.toInstant :=
    evaluate_eq_valueOf shows ordered valid f time
  have terms {position : Nat} (valid : Valid reader ring position) (term : Term α) :
      ((⟨reader, position⟩ : Cursor).evaluateTerm ring term time).1 =
        (Tape.ofEvents events).measureOf term time :=
    evaluateTerm_eq_measureOf shows ordered valid term time
  exact ⟨fun f => (formulas valid f).trans (formulas also f).symm,
    fun term => (terms valid term).trans (terms also term).symm⟩

/-- From either of two events at one time. -/
theorem evaluate_indifferent_wrapped :
    (wrappedCursor.evaluate wrappedRing (.snce (some (.ofNanos 4)) (.neg (.atom true))
        (.less (.constant .zero) (.duration (.ofNanos 4) (.atom false)))) (.ofNanos 7)).1 =
      (wrappedCursor.reset.evaluate wrappedRing (.snce (some (.ofNanos 4)) (.neg (.atom true))
        (.less (.constant .zero) (.duration (.ofNanos 4) (.atom false)))) (.ofNanos 7)).1 ∧
    (wrappedCursor.evaluateTerm wrappedRing (.duration (.ofNanos 4) (.atom false))
        (.ofNanos 7)).1 =
      (wrappedCursor.reset.evaluateTerm wrappedRing (.duration (.ofNanos 4) (.atom false))
        (.ofNanos 7)).1 := by
  obtain ⟨formulas, terms⟩ := evaluate_indifferent wrappedCursor_shows (by decide)
    (show Valid _ _ wrappedCursor.position by decide)
    (show Valid _ _ wrappedCursor.reset.position by decide) _
  exact ⟨formulas _, terms _⟩

end Cursor

end TimedTrace
