import TimedTrace.Proofs.Steady

namespace TimedTrace

variable {α : Type}

/-- The bound of a window that is open at its end, or has none. -/
def Bound.upTo : Option Time → Bound
  | some length => .within length
  | none => .unbounded

/-- Formulas built from constants, atoms, connectives and the operators that look ahead over a
window. -/
inductive Formula.PlainFuture : Formula α → Prop
  | top : PlainFuture .top
  | bot : PlainFuture .bot
  | atom (data : α) : PlainFuture (.atom data)
  | neg {f : Formula α} : f.PlainFuture → PlainFuture (.neg f)
  | disj {l r : Formula α} : l.PlainFuture → r.PlainFuture → PlainFuture (.disj l r)
  | conj {l r : Formula α} : l.PlainFuture → r.PlainFuture → PlainFuture (.conj l r)
  | imp {l r : Formula α} : l.PlainFuture → r.PlainFuture → PlainFuture (.imp l r)
  | untl (bound : Option Time) {l r : Formula α} : l.PlainFuture → r.PlainFuture →
      PlainFuture (.untl bound l r)
  | eventually (bound : Option Time) {f : Formula α} : f.PlainFuture →
      PlainFuture (.eventually (.upTo bound) f)
  | always (bound : Option Time) {f : Formula α} : f.PlainFuture →
      PlainFuture (.always (.upTo bound) f)

/-- The end of the window of an operator that looks ahead from `c`. -/
def windowEnd (bound : Option Time) (c : Int) : Option Int :=
  bound.map fun length => c + length.toInstant

/-- With an offset there is also zero, and with a negative one also the next. -/
structure Gapless (offsets : List Int) : Prop where
  zero : ∀ offset ∈ offsets, 0 ∈ offsets
  succ : ∀ offset ∈ offsets, offset < 0 → offset + 1 ∈ offsets

theorem Gapless.upward {offsets : List Int} (gapless : Gapless offsets) {offset : Int}
    (member : offset ∈ offsets) (steps : Nat) (negative : offset + steps ≤ 0) :
    offset + steps ∈ offsets := by
  induction steps with
  | zero => simpa using member
  | succ steps ih =>
    have below := ih (by omega)
    have next := gapless.succ _ below (by omega)
    rwa [Int.natCast_succ, ← Int.add_assoc]

theorem subset_union_left {left right : List Int} : ∀ offset ∈ left, offset ∈ union left right :=
  fun _ member => mem_union.2 (.inl member)

theorem subset_union_right {left right : List Int} : ∀ offset ∈ right, offset ∈ union left right :=
  fun _ member => mem_union.2 (.inr member)

theorem Gapless.union {left right : List Int} (first : Gapless left) (second : Gapless right) :
    Gapless (union left right) := by
  constructor
  · intro offset member
    rcases mem_union.1 member with here | there
    · exact subset_union_left 0 (first.zero offset here)
    · exact subset_union_right 0 (second.zero offset there)
  · intro offset member negative
    rcases mem_union.1 member with here | there
    · exact subset_union_left _ (first.succ offset here negative)
    · exact subset_union_right _ (second.succ offset there negative)

/-- Adding zero leaves no gap. -/
theorem Gapless.addZero {inner shifts : List Int} (gapless : Gapless inner)
    (atShifts : ∀ shift, shift ∈ shifts ↔ shift = 0 ∨ shift ∈ inner) : Gapless shifts := by
  constructor
  · intro shift _
    exact (atShifts 0).2 (.inl rfl)
  · intro shift member negative
    rcases (atShifts shift).1 member with rfl | here
    · omega
    · exact (atShifts _).2 (.inr (gapless.succ shift here negative))

/-- An overlooked instant before one that is looked at is reached by the trace, or it is looked at
itself: beyond the newest event the instants that meet an event lie close together. -/
theorem overlooked_covered {events : List (Event α)} {shifts : List Int}
    (gapless : Gapless shifts) {seen d c : Int}
    (meets : Meets events shifts c) (ordered : Ordered events) (before : d < c) (upTo : seen ≤ d)
    (quiet : Quiet events shifts seen d) : d = seen ∨ Reaches events d := by
  obtain ⟨event, member, shift, atShift, same⟩ := meets
  by_cases reached : d ≤ event.time.toInstant
  · exact .inr ((reaches_iff ordered).2 ⟨event, member, reached⟩)
  · left
    by_contra different
    -- `d` lies between the event and `c`, so it meets the event as well.
    have closer := gapless.upward atShift (c - d).toNat (by omega)
    exact quiet d (by omega) le_rfl ⟨event, member, _, closer, by omega⟩

theorem zero_mem_futureEnds (bound : Option Time) : 0 ∈ futureEnds bound := by
  cases bound <;> simp [futureEnds]

/-- If the trace reaches the end of the window at `c` and no event meets an offset of the operator
from there to `d`, it reaches the end of the window at `d`. -/
theorem Reaches.of_quiet {events : List (Event α)} {inner : List Int} {bound : Time} {c d : Int}
    (reaches : Reaches events (c + bound.toInstant)) (zero : 0 ∈ inner)
    (quiet : Quiet events (widen inner (futureEnds (some bound))) c d) :
    Reaches events (d + bound.toInstant) := by
  obtain ⟨newest, last, upTo⟩ := reaches
  refine ⟨newest, last, ?_⟩
  by_contra short
  have offset : bound.toInstant - 1 ∈ widen inner (futureEnds (some bound)) :=
    mem_widen.2 ⟨0, zero, bound.toInstant - 1, by simp [futureEnds], by omega⟩
  exact quiet (newest.time.toInstant - (bound.toInstant - 1)) (by omega) (by omega)
    ⟨newest, List.mem_of_getLast? last, _, offset, by omega⟩

/-- A window that has instants moves offsets upward; an empty one moves them down by one, besides
leaving them where they are. -/
theorem Gapless.widen {offsets : List Int} (gapless : Gapless offsets) (bound : Option Time) :
    Gapless (widen offsets (futureEnds bound)) := by
  constructor
  · intro offset member
    obtain ⟨inner, atInner, _⟩ := mem_widen.1 member
    exact mem_widen.2 ⟨0, gapless.zero inner atInner, 0, zero_mem_futureEnds bound, rfl⟩
  · intro offset member negative
    obtain ⟨inner, atInner, shift, atShift, rfl⟩ := mem_widen.1 member
    by_cases below : inner < 0 ∧ 0 ≤ shift
    · have next := gapless.succ inner atInner below.1
      exact mem_widen.2 ⟨inner + 1, next, shift, atShift, by omega⟩
    · cases bound with
      | none =>
        simp only [futureEnds, List.mem_singleton] at atShift
        omega
      | some length =>
        have nonneg := length.toInstant_nonneg
        simp only [futureEnds, List.mem_cons, List.not_mem_nil, or_false] at atShift
        refine mem_widen.2 ⟨inner, atInner, 0, zero_mem_futureEnds _, ?_⟩
        omega

theorem offsets_eventually (bound : Option Time) (f : Formula α) :
    (Formula.eventually (.upTo bound) f).offsets = widen f.offsets (futureEnds bound) := by
  cases bound <;> rfl

theorem offsets_always (bound : Option Time) (f : Formula α) :
    (Formula.always (.upTo bound) f).offsets = widen f.offsets (futureEnds bound) := by
  cases bound <;> rfl

theorem Formula.PlainFuture.gapless {f : Formula α} (plain : f.PlainFuture) :
    Gapless f.offsets := by
  have none : Gapless [] := ⟨by simp, by simp⟩
  induction plain with
  | top => exact none
  | bot => exact none
  | atom data => exact ⟨by simp [Formula.offsets], by simp [Formula.offsets]⟩
  | neg _ ih => exact ih
  | disj _ _ left right => exact left.union right
  | conj _ _ left right => exact left.union right
  | imp _ _ left right => exact left.union right
  | untl bound _ _ left right => exact (left.union right).widen bound
  | eventually bound _ ih =>
    rw [offsets_eventually]
    exact ih.widen bound
  | always bound _ ih =>
    rw [offsets_always]
    exact ih.widen bound

namespace Tape

variable [DecidableEq α] {events : List (Event α)}

theorem evaluate_yields (ordered : Ordered events) (f : Formula α) (time : Time) :
    (ofEvents events).Yields ((ofEvents events).evaluate f time)
      ((ofEvents events).valueOf f time.toInstant) := by
  obtain ⟨verdict, yields⟩ := exists_evaluate_yields ordered f time
  rwa [valueOf_toInstant, yields.eq (onTape_zero _)]

theorem value_yields (ordered : Ordered events) (f : Formula α) (c : Int) :
    (ofEvents events).Yields (((ofEvents events).operand f).value c)
      ((ofEvents events).valueOf f c) :=
  operand_yields (fun time => exists_evaluate_yields ordered f time) c

theorem valueOf_eq {tape : Tape α} {f : Formula α} {time : Time} {verdict : Verdict}
    (yields : tape.Yields (tape.evaluate f time) verdict) :
    tape.valueOf f time.toInstant = verdict := by
  rw [valueOf_toInstant, yields.eq (onTape_zero _)]

theorem valueOf_top_ne (tape : Tape α) (c : Int) : tape.valueOf .top c ≠ .fails := by
  cases atC : Time.ofInstant? c with
  | none => simp [valueOf_of_none atC]
  | some time =>
    rw [← Time.toInstant_of_ofInstant? atC, valueOf_toInstant]
    exact nofun

theorem valueOf_bot_ne (tape : Tape α) (c : Int) : tape.valueOf .bot c ≠ .holds := by
  cases atC : Time.ofInstant? c with
  | none => simp [valueOf_of_none atC]
  | some time =>
    rw [← Time.toInstant_of_ofInstant? atC, valueOf_toInstant]
    exact nofun

theorem valueOf_neg (tape : Tape α) (f : Formula α) (c : Int) :
    tape.valueOf (.neg f) c = (tape.valueOf f c).not := by
  cases atC : Time.ofInstant? c with
  | none => rw [valueOf_of_none atC, valueOf_of_none atC]; rfl
  | some time =>
    rw [← Time.toInstant_of_ofInstant? atC, valueOf_toInstant, valueOf_toInstant]
    rfl

/-- The shifts of a search over two formulas: zero and the offsets of both. -/
theorem mem_shifts_union (tape : Tape α) (l r : Formula α) (shift : Int) :
    shift ∈ shiftsOf (tape.operand l) (tape.operand r) ↔
      shift = 0 ∨ shift ∈ union l.offsets r.offsets := by
  rw [mem_shiftsOf, mem_union]
  rfl

theorem mem_shifts_always (tape : Tape α) (f : Formula α) (shift : Int) :
    shift ∈ shiftsOf (.always .holds) (tape.operand f) ↔ shift = 0 ∨ shift ∈ f.offsets := by
  have nothing : shift ∉ (Operand.always .holds).offsets.get := List.not_mem_nil
  rw [mem_shiftsOf, or_iff_right nothing]
  rfl

/-- A connective joins the values of its operands, also where there is no time. -/
theorem valueOf_joined {tape : Tape α} {joined l r : Formula α} {op : Verdict → Verdict → Verdict}
    (outside : op .unknown .unknown = .unknown)
    (yields : ∀ time, tape.Yields (tape.evaluate joined time)
      (op (tape.valueOf l time.toInstant) (tape.valueOf r time.toInstant))) (c : Int) :
    tape.valueOf joined c = op (tape.valueOf l c) (tape.valueOf r c) := by
  cases atC : Time.ofInstant? c with
  | none => rw [valueOf_of_none atC, valueOf_of_none atC, valueOf_of_none atC, outside]
  | some time =>
    rw [← Time.toInstant_of_ofInstant? atC]
    exact valueOf_eq (yields time)

section

variable (ordered : Ordered events) (l r f : Formula α)

include ordered

theorem valueOf_disj (c : Int) : (ofEvents events).valueOf (.disj l r) c =
    ((ofEvents events).valueOf l c).or ((ofEvents events).valueOf r c) :=
  valueOf_joined rfl (fun time =>
    disj_yields (evaluate_yields ordered l time) (evaluate_yields ordered r time)) c

theorem valueOf_conj (c : Int) : (ofEvents events).valueOf (.conj l r) c =
    ((ofEvents events).valueOf l c).and ((ofEvents events).valueOf r c) :=
  valueOf_joined rfl (fun time =>
    conj_yields (evaluate_yields ordered l time) (evaluate_yields ordered r time)) c

theorem valueOf_imp (c : Int) : (ofEvents events).valueOf (.imp l r) c =
    ((ofEvents events).valueOf l c).implies ((ofEvents events).valueOf r c) :=
  valueOf_joined rfl (fun time =>
    imp_yields (evaluate_yields ordered l time) (evaluate_yields ordered r time)) c

theorem valueOf_atom (data : α) (time : Time) :
    AtomValue events data time.toInstant
      ((ofEvents events).valueOf (.atom data) time.toInstant) := by
  obtain ⟨verdict, yields, value⟩ := proposition_yields ordered data time
  rwa [valueOf_eq yields.restoring]

/-- The value of `until` is how a search over the values of its operands ends. -/
theorem valueOf_untl (bound : Option Time) (time : Time) :
    SearchEnds events (shiftsOf ((ofEvents events).operand l) ((ofEvents events).operand r))
      ((ofEvents events).valueOf l) ((ofEvents events).valueOf r)
      (windowEnd bound time.toInstant) time.toInstant
      ((ofEvents events).valueOf (.untl bound l r) time.toInstant) := by
  obtain ⟨verdict, yields, ends⟩ :=
    untl_yields ordered (value_yields ordered l) (value_yields ordered r) bound time
  rwa [valueOf_eq yields.restoring]

theorem valueOf_eventually (bound : Option Time) (time : Time) :
    SearchEnds events (shiftsOf (.always .holds) ((ofEvents events).operand f))
      (fun _ => .holds) ((ofEvents events).valueOf f)
      (windowEnd bound time.toInstant) time.toInstant
      ((ofEvents events).valueOf (.eventually (.upTo bound) f) time.toInstant) := by
  obtain ⟨verdict, yields, ends⟩ :=
    untl_yields ordered (yields_always _ .holds) (value_yields ordered f) bound time
  have same : (ofEvents events).Yields
      ((ofEvents events).evaluate (.eventually (.upTo bound) f) time) verdict := by
    cases bound <;> exact yields.restoring
  rwa [valueOf_eq same]

/-- The opposite of `always` is how a search for the opposite ends. -/
theorem valueOf_always (bound : Option Time) (time : Time) :
    SearchEnds events (shiftsOf (.always .holds) ((ofEvents events).operand f))
      (fun _ => .holds) (fun c => ((ofEvents events).valueOf f c).not)
      (windowEnd bound time.toInstant) time.toInstant
      ((ofEvents events).valueOf (.always (.upTo bound) f) time.toInstant).not := by
  obtain ⟨verdict, yields, ends⟩ := untl_yields ordered (yields_always _ .holds)
    (Yields.negated (value_yields ordered f)) bound time
  have same : (ofEvents events).Yields
      ((ofEvents events).evaluate (.always (.upTo bound) f) time) verdict.not := by
    cases bound <;> exact (yields.map Verdict.not).restoring
  rwa [valueOf_eq same, Verdict.not_not]

end

end Tape

end TimedTrace
