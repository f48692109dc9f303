import TimedTrace.Cursor
import TimedTrace.Evaluation.Folds

namespace TimedTrace

variable {α : Type}

/-- The value at an instant of something that is evaluated at times. Where there is no time, nothing
is known. -/
def valueAt (value : Time → Scan Verdict) (instant : Int) : Scan Verdict :=
  match Time.ofInstant? instant with
  | some time => value time
  | none => Scan.answer .unknown

/-- A formula as the operand of a search, given how it is evaluated at times. -/
def Formula.operand (f : Formula α) (value : Time → Scan Verdict) : Operand :=
  ⟨valueAt value, .mk fun _ => f.offsets⟩

namespace Tape

/-- Whether the event in force at `time` carries `data`. The event in force is the last one not
after `time`. It is only known to be that if another one follows, or if it happened at `time`. -/
def proposition [DecidableEq α] (tape : Tape α) (data : α) (time : Time) : Scan Verdict :=
  tape.restoring fun head =>
    match tape.seek time head with
    | (.error _, head) => (.unknown, head)
    | (.ok _, head) =>
      match tape.read head with
      | .error _ => (.unknown, head)
      | .ok event =>
        match tape.readNext head with
        | .ok _ => (.ofBool (event.data = data), head)
        | .error .unavailable =>
          (if event.time = time then .ofBool (event.data = data) else .unknown, head)
        | .error _ => (.unknown, head)

/-- `l` until `r` within less than the bound. -/
def untl (tape : Tape α) (bound : Option Time) (l r : Operand) (time : Time) : Scan Verdict :=
  let finish := bound.map fun length => time.toInstant + length.toInstant
  tape.restoring (tape.foldForward l r finish time.toInstant)

/-- `l` since `r` within less than the bound. -/
def snce (tape : Tape α) (bound : Option Time) (l r : Operand) (time : Time) : Scan Verdict :=
  let start := bound.map fun length => time.toInstant - length.toInstant
  tape.restoring (tape.foldBackward l r start time.toInstant)

/-- Something holds at some instant ahead. -/
def eventually (tape : Tape α) (bound : Bound) (f : Operand) (time : Time) :
    Scan Verdict :=
  match bound with
  | .exactly distance => f.value (time.toInstant + distance.toInstant)
  | .within length => tape.untl (some length) (.always .holds) f time
  | .unbounded => tape.untl none (.always .holds) f time

/-- Something held at some instant behind. -/
def once (tape : Tape α) (bound : Bound) (f : Operand) (time : Time) : Scan Verdict :=
  match bound with
  | .exactly distance => f.value (time.toInstant - distance.toInstant)
  | .within length => tape.snce (some length) (.always .holds) f time
  | .unbounded => tape.snce none (.always .holds) f time

/-- Something holds at all instants ahead: the opposite never comes about. -/
def always (tape : Tape α) (bound : Bound) (f : Operand) (time : Time) : Scan Verdict :=
  match bound with
  | .exactly distance => f.value (time.toInstant + distance.toInstant)
  | bound => Scan.map Verdict.not (tape.eventually bound f.negated time)

/-- Something held at all instants behind. -/
def historically (tape : Tape α) (bound : Bound) (f : Operand) (time : Time) :
    Scan Verdict :=
  match bound with
  | .exactly distance => f.value (time.toInstant - distance.toInstant)
  | bound => Scan.map Verdict.not (tape.once bound f.negated time)

/-- The time from `time` on, over the given length, during which something holds. -/
def duration (tape : Tape α) (length : Time) (f : Operand) (time : Time) : Scan Measure :=
  let finish := time.toInstant + length.toInstant
  tape.restoring
    (tape.accumulate f f.shifts finish time.toInstant (.known .zero))

variable [DecidableEq α]

mutual

/-- The value of a formula at a time. The right operand of a connective is left alone if the left
one decides. Every operator puts the head back before it answers, so that what else is evaluated on
the same tape does not notice. -/
def evaluate (tape : Tape α) : Formula α → Time → Scan Verdict
  | .top, _ => tape.restoring (Scan.answer .holds)
  | .bot, _ => tape.restoring (Scan.answer .fails)
  | .atom data, time => tape.restoring (tape.proposition data time)
  | .neg f, time => tape.restoring (Scan.map Verdict.not (tape.evaluate f time))
  | .disj l r, time => tape.restoring fun head =>
    match tape.evaluate l time head with
    | (.holds, head) => (.holds, head)
    | (left, head) => Scan.map left.or (tape.evaluate r time) head
  | .conj l r, time => tape.restoring fun head =>
    match tape.evaluate l time head with
    | (.fails, head) => (.fails, head)
    | (left, head) => Scan.map left.and (tape.evaluate r time) head
  | .imp l r, time => tape.restoring fun head =>
    match tape.evaluate l time head with
    | (.fails, head) => (.holds, head)
    | (left, head) => Scan.map left.implies (tape.evaluate r time) head
  | .untl bound l r, time =>
    tape.restoring
      (tape.untl bound (l.operand (tape.evaluate l)) (r.operand (tape.evaluate r)) time)
  | .snce bound l r, time =>
    tape.restoring
      (tape.snce bound (l.operand (tape.evaluate l)) (r.operand (tape.evaluate r)) time)
  | .eventually bound f, time =>
    tape.restoring (tape.eventually bound (f.operand (tape.evaluate f)) time)
  | .always bound f, time =>
    tape.restoring (tape.always bound (f.operand (tape.evaluate f)) time)
  | .once bound f, time =>
    tape.restoring (tape.once bound (f.operand (tape.evaluate f)) time)
  | .historically bound f, time =>
    tape.restoring (tape.historically bound (f.operand (tape.evaluate f)) time)
  | .less l r, time => tape.restoring fun head =>
    let (left, head) := tape.evaluateTerm l time head
    Scan.map left.lessThan (tape.evaluateTerm r time) head

/-- The value of a term at a time. -/
def evaluateTerm (tape : Tape α) : Term α → Time → Scan Measure
  | .constant value, _ => Scan.answer (.known value)
  | .duration length f, time =>
    tape.duration length (f.operand (tape.evaluate f)) time
  | .sum l r, time => fun head =>
    let (left, head) := tape.evaluateTerm l time head
    Scan.map left.add (tape.evaluateTerm r time) head

end

/-- A formula as the operand of a search. -/
def operand (tape : Tape α) (f : Formula α) : Operand := f.operand (tape.evaluate f)

theorem evaluate_untl (tape : Tape α) (bound : Option Time) (l r : Formula α) (time : Time) :
    tape.evaluate (.untl bound l r) time =
      tape.restoring (tape.untl bound (tape.operand l) (tape.operand r) time) := rfl

theorem evaluate_snce (tape : Tape α) (bound : Option Time) (l r : Formula α) (time : Time) :
    tape.evaluate (.snce bound l r) time =
      tape.restoring (tape.snce bound (tape.operand l) (tape.operand r) time) := rfl

theorem evaluate_eventually (tape : Tape α) (bound : Bound) (f : Formula α) (time : Time) :
    tape.evaluate (.eventually bound f) time =
      tape.restoring (tape.eventually bound (tape.operand f) time) := rfl

theorem evaluate_always (tape : Tape α) (bound : Bound) (f : Formula α) (time : Time) :
    tape.evaluate (.always bound f) time =
      tape.restoring (tape.always bound (tape.operand f) time) := rfl

theorem evaluate_once (tape : Tape α) (bound : Bound) (f : Formula α) (time : Time) :
    tape.evaluate (.once bound f) time =
      tape.restoring (tape.once bound (tape.operand f) time) := rfl

theorem evaluate_historically (tape : Tape α) (bound : Bound) (f : Formula α) (time : Time) :
    tape.evaluate (.historically bound f) time =
      tape.restoring (tape.historically bound (tape.operand f) time) := rfl

theorem evaluateTerm_duration (tape : Tape α) (length : Time) (f : Formula α) (time : Time) :
    tape.evaluateTerm (.duration length f) time = tape.duration length (tape.operand f) time := rfl

end Tape

namespace Cursor

variable [DecidableEq α]

/-- Evaluates a formula at a time over the window of a cursor, starting from where it stands. -/
def evaluate (cursor : Cursor) (ring : Ring α) (f : Formula α) (time : Time) : Verdict × Cursor :=
  cursor.onTape ring fun tape => tape.evaluate f time

def evaluateTerm (cursor : Cursor) (ring : Ring α) (term : Term α) (time : Time) :
    Measure × Cursor :=
  cursor.onTape ring fun tape => tape.evaluateTerm term time

end Cursor

end TimedTrace
