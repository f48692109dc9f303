import Mathlib
import TimedTrace.Proofs.Regular
import TimedTrace.Proofs.Shown

namespace TimedTrace

variable {α : Type}

theorem AtomValue.regular [DecidableEq α] {events : List (Event α)} {data : α}
    {value : Int → Verdict} (outside : ∀ c, Time.ofInstant? c = none → value c = .unknown)
    (atom : ∀ time : Time, AtomValue events data time.toInstant (value time.toInstant)) :
    Regular events [0] value := by
  constructor
  · intro c d lower upTo reaches quiet
    obtain ⟨time, rfl⟩ := Time.exists_toInstant lower (upTo.trans reaches.le_maxNanos)
    obtain ⟨later, rfl⟩ := Time.exists_toInstant (lower.trans upTo) reaches.le_maxNanos
    have moved := (atom time).congr (fun _ => quiet.inForce_iff upTo)
      ⟨fun _ => reaches, fun _ => reaches.mono upTo⟩
    exact moved.unique (atom later)
  · intro c d lower upTo beyond
    left
    cases atD : Time.ofInstant? d with
    | none => exact outside d atD
    | some later =>
      obtain rfl := Time.toInstant_of_ofInstant? atD
      exact (atom later).unique (.unknown fun _ _ reaches => beyond reaches)

namespace Tape

variable [DecidableEq α] {events : List (Event α)} {l r f : Formula α}

section

variable (ordered : Ordered events) (bound : Option Time) (time : Time)

include ordered

theorem untl_dense (first : l.PlainFuture) (second : r.PlainFuture)
    (left : Regular events l.offsets ((ofEvents events).valueOf l))
    (right : Regular events r.offsets ((ofEvents events).valueOf r)) :
    DenseEnds events ((ofEvents events).valueOf l) ((ofEvents events).valueOf r)
      (windowEnd bound time.toInstant) time.toInstant
      ((ofEvents events).valueOf (.untl bound l r) time.toInstant) :=
  (valueOf_untl ordered l r bound time).dense
    (left.mono subset_union_left) (right.mono subset_union_right) ordered
    (first.gapless.union second.gapless) (mem_shifts_union _ l r) time.toInstant_nonneg

theorem eventually_dense (plain : f.PlainFuture)
    (regular : Regular events f.offsets ((ofEvents events).valueOf f)) :
    DenseEnds events (fun _ => .holds) ((ofEvents events).valueOf f)
      (windowEnd bound time.toInstant) time.toInstant
      ((ofEvents events).valueOf (.eventually (.upTo bound) f) time.toInstant) :=
  (valueOf_eventually ordered f bound time).dense (.always _) regular ordered plain.gapless
    (mem_shifts_always _ f) time.toInstant_nonneg

theorem always_dense (plain : f.PlainFuture)
    (regular : Regular events f.offsets ((ofEvents events).valueOf f)) :
    DenseEnds events (fun _ => .holds) (fun c => ((ofEvents events).valueOf f c).not)
      (windowEnd bound time.toInstant) time.toInstant
      ((ofEvents events).valueOf (.always (.upTo bound) f) time.toInstant).not :=
  (valueOf_always ordered f bound time).dense (.always _) regular.not ordered plain.gapless
    (mem_shifts_always _ f) time.toInstant_nonneg

end

/-- The value of a formula that looks ahead only changes with events only. -/
theorem regular_of_plainFuture (ordered : Ordered events) (plain : f.PlainFuture)
    (anchored : f.Anchored) : Regular events f.offsets ((ofEvents events).valueOf f) := by
  induction plain with
  | top => exact .timed (fun c => valueOf_of_none) fun time => valueOf_toInstant _ _ time
  | bot => exact .timed (fun c => valueOf_of_none) fun time => valueOf_toInstant _ _ time
  | atom data => exact AtomValue.regular (fun c => valueOf_of_none) (valueOf_atom ordered data)
  | neg _ ih =>
    rw [funext (valueOf_neg (ofEvents events) _)]
    exact (ih anchored).not
  | disj _ _ left right =>
    rw [funext (valueOf_disj ordered _ _)]
    exact ((left anchored.1).mono subset_union_left).joined
      ((right anchored.2).mono subset_union_right) .or
  | conj _ _ left right =>
    rw [funext (valueOf_conj ordered _ _)]
    exact ((left anchored.1).mono subset_union_left).joined
      ((right anchored.2).mono subset_union_right) .and
  | imp _ _ left right =>
    rw [funext (valueOf_imp ordered _ _)]
    exact ((left anchored.1).mono subset_union_left).joined
      ((right anchored.2).mono subset_union_right) .implies
  | @untl bound l r first second left right =>
    obtain ⟨some, leftAnchored, rightAnchored⟩ := anchored
    have anchor := mem_union.2 (some.imp first.zero_mem_offsets second.zero_mem_offsets)
    exact Regular.until ((left leftAnchored).mono subset_union_left)
      ((right rightAnchored).mono subset_union_right) anchor
      (fun c => valueOf_of_none)
      fun time => untl_dense ordered bound time first second (left leftAnchored)
        (right rightAnchored)
  | @eventually bound f plain ih =>
    have regular := ih anchored.2
    rw [offsets_eventually]
    exact Regular.until (.always _) regular (plain.zero_mem_offsets anchored.1)
      (fun c => valueOf_of_none) fun time => eventually_dense ordered bound time plain regular
  | @always bound f plain ih =>
    have regular := ih anchored.2
    have opposite : Regular events (widen f.offsets (futureEnds bound))
        fun c => ((ofEvents events).valueOf (.always (.upTo bound) f) c).not :=
      Regular.until (.always _) regular.not (plain.zero_mem_offsets anchored.1)
        (fun c outside => congrArg Verdict.not (valueOf_of_none outside))
        fun time => always_dense ordered bound time plain regular
    rw [offsets_always]
    simpa only [Verdict.not_not] using opposite.not

section

variable (ordered : Ordered events) (bound : Option Time) (time : Time)

include ordered

theorem untl_ends (first : l.PlainFuture) (second : r.PlainFuture) (left : l.Anchored)
    (right : r.Anchored) :
    DenseEnds events ((ofEvents events).valueOf l) ((ofEvents events).valueOf r)
      (windowEnd bound time.toInstant) time.toInstant
      ((ofEvents events).valueOf (.untl bound l r) time.toInstant) :=
  untl_dense ordered bound time first second (regular_of_plainFuture ordered first left)
    (regular_of_plainFuture ordered second right)

theorem eventually_ends (plain : f.PlainFuture) (anchored : f.Anchored) :
    DenseEnds events (fun _ => .holds) ((ofEvents events).valueOf f)
      (windowEnd bound time.toInstant) time.toInstant
      ((ofEvents events).valueOf (.eventually (.upTo bound) f) time.toInstant) :=
  eventually_dense ordered bound time plain (regular_of_plainFuture ordered plain anchored)

theorem always_ends (plain : f.PlainFuture) (anchored : f.Anchored) :
    DenseEnds events (fun _ => .holds) (fun c => ((ofEvents events).valueOf f c).not)
      (windowEnd bound time.toInstant) time.toInstant
      ((ofEvents events).valueOf (.always (.upTo bound) f) time.toInstant).not :=
  always_dense ordered bound time plain (regular_of_plainFuture ordered plain anchored)

end

end Tape

/-- The value at an instant of something that has a value at times. -/
def onTime (value : Time → Verdict) (c : Int) : Verdict :=
  match Time.ofInstant? c with
  | some time => value time
  | none => .unknown

variable [DecidableEq α] {events : List (Event α)}

/-- Evaluation by the same recursion, except that the operators that look ahead over a window look
at every instant of it. Those that look back or measure are taken as they are. -/
noncomputable def Formula.dense (events : List (Event α)) : Formula α → Time → Verdict
  | .top, _ => .holds
  | .bot, _ => .fails
  | .atom data, time => ((Tape.ofEvents events).proposition data time 0).1
  | .neg f, time => (f.dense events time).not
  | .disj l r, time => (l.dense events time).or (r.dense events time)
  | .conj l r, time => (l.dense events time).and (r.dense events time)
  | .imp l r, time => (l.dense events time).implies (r.dense events time)
  | .untl bound l r, time =>
    denseSearch events (onTime (l.dense events)) (onTime (r.dense events))
      (windowEnd bound time.toInstant) time.toInstant
  | .eventually (.within length) f, time =>
    denseSearch events (fun _ => .holds) (onTime (f.dense events))
      (windowEnd (some length) time.toInstant) time.toInstant
  | .eventually .unbounded f, time =>
    denseSearch events (fun _ => .holds) (onTime (f.dense events)) none time.toInstant
  | .eventually (.exactly distance) f, time =>
    onTime (f.dense events) (time.toInstant + distance.toInstant)
  | .always (.within length) f, time =>
    (denseSearch events (fun _ => .holds) (fun c => (onTime (f.dense events) c).not)
      (windowEnd (some length) time.toInstant) time.toInstant).not
  | .always .unbounded f, time =>
    (denseSearch events (fun _ => .holds) (fun c => (onTime (f.dense events) c).not) none
      time.toInstant).not
  | .always (.exactly distance) f, time =>
    onTime (f.dense events) (time.toInstant + distance.toInstant)
  | .snce bound l r, time => ((Tape.ofEvents events).evaluate (.snce bound l r) time 0).1
  | .once bound f, time => ((Tape.ofEvents events).evaluate (.once bound f) time 0).1
  | .historically bound f, time =>
    ((Tape.ofEvents events).evaluate (.historically bound f) time 0).1
  | .less l r, time => ((Tape.ofEvents events).evaluate (.less l r) time 0).1

theorem dense_eventually (bound : Option Time) (f : Formula α) (time : Time) :
    (Formula.eventually (.upTo bound) f).dense events time =
      denseSearch events (fun _ => .holds) (onTime (f.dense events))
        (windowEnd bound time.toInstant) time.toInstant := by
  cases bound <;> rfl

theorem dense_always (bound : Option Time) (f : Formula α) (time : Time) :
    (Formula.always (.upTo bound) f).dense events time =
      (denseSearch events (fun _ => .holds) (fun c => (onTime (f.dense events) c).not)
        (windowEnd bound time.toInstant) time.toInstant).not := by
  cases bound <;> rfl

theorem Tape.valueOf_eq_onTime {tape : Tape α} {f : Formula α} {value : Time → Verdict}
    (same : ∀ time : Time, tape.valueOf f time.toInstant = value time) :
    tape.valueOf f = onTime value := by
  funext c
  unfold onTime
  cases atC : Time.ofInstant? c with
  | none => exact valueOf_of_none atC
  | some time =>
    rw [← Time.toInstant_of_ofInstant? atC]
    exact same time

/-- The value of a formula at an instant, for a cursor where it stands. -/
def Cursor.valueOf (cursor : Cursor) (ring : Ring α) (f : Formula α) : Int → Verdict :=
  onTime fun time => (cursor.evaluate ring f time).1

theorem Cursor.valueOf_eq {cursor : Cursor} {ring : Ring α} (shows : cursor.reader.Shows ring events)
    (ordered : Ordered events) (valid : Cursor.Valid cursor.reader ring cursor.position)
    (f : Formula α) : cursor.valueOf ring f = (Tape.ofEvents events).valueOf f :=
  (Tape.valueOf_eq_onTime fun time =>
    (Cursor.evaluate_eq_valueOf shows ordered valid f time).symm).symm

theorem Tape.valueOf_eq_dense (ordered : Ordered events) {f : Formula α} (plain : f.PlainFuture)
    (anchored : f.Anchored) (time : Time) :
    (ofEvents events).valueOf f time.toInstant = f.dense events time := by
  induction plain generalizing time with
  | top => exact valueOf_toInstant _ _ time
  | bot => exact valueOf_toInstant _ _ time
  | atom data => exact valueOf_toInstant _ _ time
  | neg _ ih =>
    rw [valueOf_neg, ih anchored]
    rfl
  | disj _ _ left right =>
    rw [valueOf_disj ordered, left anchored.1, right anchored.2]
    rfl
  | conj _ _ left right =>
    rw [valueOf_conj ordered, left anchored.1, right anchored.2]
    rfl
  | imp _ _ left right =>
    rw [valueOf_imp ordered, left anchored.1, right anchored.2]
    rfl
  | @untl bound l r first second left right =>
    have ends := untl_ends ordered bound time first second anchored.2.1 anchored.2.2
    rw [valueOf_eq_onTime (left anchored.2.1), valueOf_eq_onTime (right anchored.2.2)] at ends
    exact ends.unique (denseSearch_ends ..)
  | @eventually bound f plain ih =>
    have ends := eventually_ends ordered bound time plain anchored.2
    rw [valueOf_eq_onTime (ih anchored.2)] at ends
    rw [dense_eventually]
    exact ends.unique (denseSearch_ends ..)
  | @always bound f plain ih =>
    have ends := always_ends ordered bound time plain anchored.2
    rw [valueOf_eq_onTime (ih anchored.2)] at ends
    rw [dense_always, ← ends.unique (denseSearch_ends ..), Verdict.not_not]

/-- Evaluation at few instants agrees with evaluation at every instant. -/
theorem Cursor.evaluate_eq_dense {cursor : Cursor} {ring : Ring α}
    (shows : cursor.reader.Shows ring events) (ordered : Ordered events)
    (valid : Cursor.Valid cursor.reader ring cursor.position) {f : Formula α}
    (plain : f.PlainFuture) (anchored : f.Anchored) (time : Time) :
    (cursor.evaluate ring f time).1 = f.dense events time := by
  rw [Cursor.evaluate_eq_valueOf shows ordered valid]
  exact Tape.valueOf_eq_dense ordered plain anchored time

theorem dense_wrapped :
    (Formula.untl (some (.ofNanos 4)) (.atom true)
      (.eventually (.within (.ofNanos 1)) (.atom false))).dense wrappedEvents (.ofNanos 5) =
        .holds := by
  have plain : (Formula.untl (some (.ofNanos 4)) (.atom true)
      (.eventually (.within (.ofNanos 1)) (.atom false))).PlainFuture :=
    .untl _ (.atom _) (.eventually (some _) (.atom _))
  have anchored : (Formula.untl (some (.ofNanos 4)) (.atom true)
      (.eventually (.within (.ofNanos 1)) (.atom false))).Anchored := by
    simp [Formula.Anchored, Formula.HasAtom]
  rw [← Cursor.evaluate_eq_dense wrappedCursor_shows (by decide) (by decide) plain anchored]
  cbv

end TimedTrace
