import TimedTrace.Evaluation.Instants
import TimedTrace.Measure

namespace TimedTrace

/-- What a search looks at: a value for every instant, and the offsets at which it may change.
Nested windows have many offsets, so they are not worked out before a search needs them. -/
structure Operand where
  value : Int → Scan Verdict
  offsets : Thunk (List Int)

namespace Operand

/-- The same value at every instant. -/
def always (verdict : Verdict) : Operand := ⟨fun _ => Scan.answer verdict, .pure []⟩

def negated (operand : Operand) : Operand :=
  ⟨fun instant => Scan.map Verdict.not (operand.value instant), operand.offsets⟩

/-- The shifts in play when the operand is looked at from one instant to the next. -/
def shifts (operand : Operand) : List Int := union [0] operand.offsets.get

theorem mem_shifts {operand : Operand} {shift : Int} :
    shift ∈ operand.shifts ↔ shift = 0 ∨ shift ∈ operand.offsets.get := by
  simp [shifts, mem_union]

end Operand

/-- The shifts in play when two operands are looked at together. -/
def shiftsOf (left right : Operand) : List Int := union left.shifts right.shifts

theorem mem_shiftsOf {left right : Operand} {shift : Int} :
    shift ∈ shiftsOf left right ↔
      shift = 0 ∨ shift ∈ left.offsets.get ∨ shift ∈ right.offsets.get := by
  simp only [shiftsOf, mem_union, Operand.mem_shifts]
  constructor
  · rintro ((zero | inLeft) | zero | inRight) <;> simp_all
  · rintro (zero | inLeft | inRight) <;> simp_all

/-- The least shift, or zero if none is below it. -/
def leastShift : List Int → Int
  | [] => 0
  | shift :: shifts => min shift (leastShift shifts)

theorem leastShift_le {shift : Int} {shifts : List Int} (member : shift ∈ shifts) :
    leastShift shifts ≤ shift := by
  induction shifts with
  | nil => simp at member
  | cons first rest ih =>
    rcases List.mem_cons.1 member with rfl | later
    · exact Int.min_le_left _ _
    · exact Int.le_trans (Int.min_le_right _ _) (ih later)

namespace Tape

variable {α : Type}

/-- The instants that are left between `c` and the last one that an event can meet. -/
def instantsLeft (shifts : List Int) (c : Int) : Nat := (maxNanos - leastShift shifts - c).toNat

theorem instantsLeft_lt {tape : Tape α} {c next : Int} {shifts : List Int} {head stop : Nat}
    (found : tape.nextInstant c shifts head = (some next, stop)) :
    instantsLeft shifts next < instantsLeft shifts c := by
  obtain ⟨later, shift, member, bound⟩ := nextInstant_eq_some (congrArg Prod.fst found)
  have := leastShift_le member
  unfold instantsLeft
  omega

/-- The answer of a forward search that nothing settled: no, if the trace covers the whole
window. -/
def unsettledAhead (tape : Tape α) (finish : Option Int) : Scan Verdict := fun head =>
  match finish with
  | some finish =>
    let (newest, head) := tape.newest head
    (if newest.any (finish ≤ ·) then .fails else .unknown, head)
  | none => (.unknown, head)

/-- Searches from `c` on, up to but not including `finish`. -/
def searchAhead (tape : Tape α) (left right : Operand) (shifts : Thunk (List Int))
    (finish : Option Int) (c : Int) : Scan Verdict := fun head =>
  let (leftValue, head) := left.value c head
  let (rightValue, head) := right.value c head
  match Verdict.settle leftValue rightValue with
  | some verdict => (verdict, head)
  | none =>
    match _found : tape.nextInstant c shifts.get head with
    | (some next, head) =>
      if finish.all (next < ·) then tape.searchAhead left right shifts finish next head
      else tape.unsettledAhead finish head
    | (none, head) => tape.unsettledAhead finish head
termination_by instantsLeft shifts.get c
decreasing_by exact instantsLeft_lt _found

/-- `left` until `right`, over the instants from `c` up to but not including `finish`. An empty
window leaves nothing to look at. -/
def foldForward (tape : Tape α) (left right : Operand) (finish : Option Int) (c : Int) :
    Scan Verdict :=
  if finish.all (c < ·) then
    tape.searchAhead left right (.mk fun _ => shiftsOf left right) finish c
  else tape.unsettledAhead finish

/-- Where a backward search goes from `c`: to the previous instant, but not beyond the first instant
of its window, which it looks at even if no event meets it. -/
def stepBack (previous : Option Int) (first : Option Nat) (c : Int) : Option Int :=
  match first with
  | none => previous
  | some first =>
    if previous.any ((first : Int) ≤ ·) then previous
    else if first < c then some first
    else none

theorem stepBack_eq_some {previous : Option Int} {first : Option Nat} {c next : Int}
    (behind : ∀ p, previous = some p → 0 ≤ p ∧ p < c)
    (step : stepBack previous first c = some next) : next.toNat < c.toNat := by
  unfold stepBack at step
  split at step
  · have := behind next step
    omega
  · split at step
    · have := behind next step
      omega
    · split at step
      · simp only [Option.some.injEq] at step
        omega
      · simp at step

/-- The answer of a backward search that nothing settled: no, if the trace covers the whole
window. -/
def unsettledBehind (tape : Tape α) (start : Option Int) : Scan Verdict := fun head =>
  match start with
  | some start =>
    if 0 ≤ start then
      let (oldest, head) := tape.oldest head
      (if oldest.any (· ≤ start) then .fails else .unknown, head)
    else (.unknown, head)
  | none => (.unknown, head)

/-- Searches back from `c`, which is not looked at itself, down to but not including `start`. -/
def searchBehind (tape : Tape α) (left right : Operand) (shifts : List Int) (start : Option Int)
    (c : Int) : Scan Verdict := fun head =>
  match _found : tape.previousInstant c shifts head with
  | (previous, head) =>
    match _step : stepBack previous (start.map fun start => (start + 1).toNat) c with
    | none => tape.unsettledBehind start head
    | some c =>
      let (leftValue, head) := left.value c head
      let (rightValue, head) := right.value c head
      match Verdict.settle leftValue rightValue with
      | some verdict => (verdict, head)
      | none => tape.searchBehind left right shifts start c head
termination_by c.toNat
decreasing_by
  exact stepBack_eq_some
    (fun _ atP => previousInstant_eq_some ((congrArg Prod.fst _found).trans atP)) _step

/-- `left` since `right`, over the instants between `start` and `c`, neither end included. -/
def foldBackward (tape : Tape α) (left right : Operand) (start : Option Int) (c : Int) :
    Scan Verdict :=
  tape.searchBehind left right (shiftsOf left right) start c

/-- Adds the stretch from an instant to the next to what was measured so far. -/
def tally (measure : Measure) (verdict : Verdict) (length : Int) : Measure :=
  match verdict with
  | .holds => measure.extend (.ofNanos length.toNat)
  | .fails => measure
  | .unknown => measure.taint

/-- Adds up the stretches from `c` to `finish` on which the operand holds. What lies beyond the last
instant that the trace can tell of is undecided. -/
def accumulate (tape : Tape α) (operand : Operand) (shifts : List Int) (finish c : Int)
    (measure : Measure) : Scan Measure := fun head =>
  if _within : c < finish then
    match _found : tape.nextInstant c shifts head with
    | (none, head) => (measure.taint, head)
    | (some next, head) =>
      let stop := min next finish
      let (verdict, head) := operand.value c head
      tape.accumulate operand shifts finish stop (tally measure verdict (stop - c)) head
  else (measure, head)
termination_by (finish - c).toNat
decreasing_by
  have := (nextInstant_eq_some (congrArg Prod.fst _found)).1
  omega

end Tape

end TimedTrace
