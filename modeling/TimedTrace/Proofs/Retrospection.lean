import TimedTrace.Proofs.Agreement
import TimedTrace.Proofs.Dense

namespace TimedTrace

variable {α : Type} {events : List (Event α)}

/-- A search that looks at every instant before `c` in descending order, down to the first one of
the window or to zero. -/
def denseBack (events : List (Event α)) (left right : Int → Verdict) (start : Option Int) :
    Nat → Verdict
  | 0 => unsettledBack events start
  | c + 1 =>
    if start.all (· < (c : Int)) then
      (Verdict.settle (left c) (right c)).getD (denseBack events left right start c)
    else unsettledBack events start

section

variable {left right : Int → Verdict} {start : Option Int} {n m : Nat}

/-- A step at an instant of the window. -/
theorem denseBack_succ (inside : ∀ border ∈ start, border < (n : Int)) :
    denseBack events left right start (n + 1) =
      (Verdict.settle (left n) (right n)).getD (denseBack events left right start n) := by
  have room : start.all (· < (n : Int)) = true := by
    cases start with
    | none => rfl
    | some border => exact decide_eq_true (inside border rfl)
  rw [denseBack, if_pos room]

/-- Steps that settle nothing lead on to where the first of them is. -/
theorem denseBack_passes (inside : ∀ border ∈ start, border < (n : Int)) (upTo : n ≤ m)
    (nothing : ∀ d : Nat, n ≤ d → d < m → Verdict.settle (left d) (right d) = none) :
    denseBack events left right start m = denseBack events left right start n := by
  induction m with
  | zero => rw [Nat.le_zero.1 upTo]
  | succ m ih =>
    rcases Nat.eq_or_lt_of_le upTo with rfl | before
    · rfl
    · have room : ∀ border ∈ start, border < (m : Int) := by
        intro border isStart
        have := inside border isStart
        omega
      rw [denseBack_succ room, nothing m (by omega) (by omega), Option.getD_none]
      exact ih (by omega) fun d lower upper => nothing d lower (by omega)

/-- Before the first instant of the window nothing is left to look at. -/
theorem denseBack_outside {border : Int} (outside : (n : Int) ≤ max (border + 1) 0) :
    denseBack events left right (some border) n = unsettledBack events (some border) := by
  cases n with
  | zero => rfl
  | succ n =>
    have short : ¬ (some border).all (· < (n : Int)) = true := by
      simp only [Option.all_some, decide_eq_true_eq]
      omega
    rw [denseBack, if_neg short]

/-- A search without a bound that no step decides. -/
theorem denseBack_undecided (each : ∀ d : Nat, d < n →
      Verdict.settle (left d) (right d) = none ∨
        Verdict.settle (left d) (right d) = some .unknown) :
    denseBack events left right none n = .unknown := by
  induction n with
  | zero => rfl
  | succ n ih =>
    rw [denseBack_succ fun border isStart => absurd isStart (Option.not_mem_none border)]
    rcases each n (by omega) with nothing | undecided
    · rw [nothing]
      exact ih fun d before => each d (by omega)
    · rw [undecided]
      rfl

end

/-- What the value tells before the oldest event it contradicts at no instant. -/
def Timeless (events : List (Event α)) (value : Int → Verdict) : Prop :=
  ∀ c d, (∀ event ∈ events, c < event.time.toInstant) → (value c).Agrees (value d)

section

variable {left right value : Int → Verdict}

theorem Timeless.always (verdict : Verdict) : Timeless events fun _ => verdict :=
  fun _ _ _ => .refl _

theorem Timeless.not (timeless : Timeless events value) :
    Timeless events fun c => (value c).not :=
  fun c d early => (timeless c d early).not

theorem Timeless.joined {op : Verdict → Verdict → Verdict} (first : Timeless events left)
    (second : Timeless events right)
    (monotone : ∀ {a b c d : Verdict}, a.Below c → b.Below d → (op a b).Below (op c d)) :
    Timeless events fun c => op (left c) (right c) :=
  fun c d early => (first c d early).joined (second c d early) monotone

theorem Timeless.timed (outside : ∀ c, Time.ofInstant? c = none → value c = .unknown)
    (inside : ∀ time later : Time, (∀ event ∈ events, time.toInstant < event.time.toInstant) →
      (value time.toInstant).Agrees (value later.toInstant)) : Timeless events value := by
  intro c d early
  refine agrees_of_times outside ?_
  rintro time later rfl rfl
  exact inside time later early

section

variable {shifts others : List Int} {bound : Option Time} {c d : Int} {a b : Verdict}

/-- A search from an instant at which the right operand is contradicted nowhere is not contradicted
by one from elsewhere. -/
theorem SearchEnds.agrees_anywhere (right_agrees : ∀ x, (right c).Agrees (right x))
    (ends : SearchEnds events shifts left right (windowEnd bound c) c a)
    (elsewhere : SearchEnds events others left right (windowEnd bound d) d b) : a.Agrees b := by
  refine Verdict.agrees_of_not_opposite ?_ ?_
  · rintro rfl rfl
    obtain ⟨x, after, inside, holds, _⟩ := ends.found_of_holds rfl
    have room := inside.of_le after
    have fails := elsewhere.fails_at_start (room.moved (by omega))
    rcases ends.at_start room with nothing | settles
    · exact (right_agrees x).ne_holds (Verdict.settle_eq_none_iff.1 nothing).2 holds
    · exact (right_agrees d).ne_fails (Verdict.settle_eq_holds_iff.1 settles) fails
  · rintro rfl rfl
    obtain ⟨x, after, inside, holds, _⟩ := elsewhere.found_of_holds rfl
    have room := inside.of_le after
    exact (right_agrees x).ne_holds (ends.fails_at_start (room.moved (by omega))) holds

end

end

namespace Tape

variable [DecidableEq α]

theorem timeless_of_plainFuture (ordered : Ordered events) {f : Formula α} (plain : f.PlainFuture) :
    Timeless events ((ofEvents events).valueOf f) := by
  induction plain with
  | top =>
    refine .timed (fun c => valueOf_of_none) fun time later _ => ?_
    rw [valueOf_toInstant, valueOf_toInstant]
    exact .refl _
  | bot =>
    refine .timed (fun c => valueOf_of_none) fun time later _ => ?_
    rw [valueOf_toInstant, valueOf_toInstant]
    exact .refl _
  | atom data =>
    refine .timed (fun c => valueOf_of_none) fun time later early => ?_
    have nothing (event : Event α) : ¬ InForce events time.toInstant event := by
      rintro ⟨i, atI, before, _⟩
      have := early event (List.mem_of_getElem? atI)
      omega
    rw [(valueOf_atom ordered data time).unique
      (.unknown fun event inForce => absurd inForce (nothing event))]
    exact Verdict.unknown_agrees _
  | neg _ ih =>
    rw [funext (valueOf_neg (ofEvents events) _)]
    exact ih.not
  | disj _ _ left right =>
    rw [funext (valueOf_disj ordered _ _)]
    exact left.joined right .or
  | conj _ _ left right =>
    rw [funext (valueOf_conj ordered _ _)]
    exact left.joined right .and
  | imp _ _ left right =>
    rw [funext (valueOf_imp ordered _ _)]
    exact left.joined right .implies
  | @untl bound l r _ _ _ right =>
    exact .timed (fun c => valueOf_of_none) fun time later early =>
      SearchEnds.agrees_anywhere (fun x => right _ x early)
        (valueOf_untl ordered l r bound time) (valueOf_untl ordered l r bound later)
  | @eventually bound f _ ih =>
    exact .timed (fun c => valueOf_of_none) fun time later early =>
      SearchEnds.agrees_anywhere (fun x => ih _ x early)
        (valueOf_eventually ordered f bound time) (valueOf_eventually ordered f bound later)
  | @always bound f _ ih =>
    refine .timed (fun c => valueOf_of_none) fun time later early => ?_
    have opposite := SearchEnds.agrees_anywhere (fun x => (ih _ x early).not)
      (valueOf_always ordered f bound time) (valueOf_always ordered f bound later)
    simpa only [Verdict.not_not] using opposite.not

end Tape

section

variable {inner shifts : List Int} {left right : Int → Verdict} {start : Option Int} {c : Int}

/-- Between one instant that a search back looks at and the next the operands do not change, as far
as the trace reaches. -/
theorem settle_of_previous (first : Regular events inner left) (second : Regular events inner right)
    (included : ∀ offset ∈ inner, offset ∈ shifts) {next d : Int}
    (steps : IsPrevious (Visits events shifts start) c (some next)) (reached : Reaches events (c - 1))
    (lower : next ≤ d) (before : d < c) :
    Verdict.settle (left d) (right d) = Verdict.settle (left next) (right next) := by
  obtain ⟨⟨nonnegative, inside, _⟩, _, last⟩ := steps
  have quiet : Quiet events inner next d := by
    rintro x after upTo ⟨event, member, offset, atOffset, meets⟩
    have visits : Visits events shifts start x :=
      ⟨by omega, fun border isStart => (inside border isStart).trans after,
        .inl ⟨event, member, offset, included offset atOffset, meets⟩⟩
    have := last x visits (by omega)
    omega
  have reaches : Reaches events d := reached.mono (by omega)
  rw [first.constant next d nonnegative lower reaches quiet,
    second.constant next d nonnegative lower reaches quiet]

/-- The search has not come to the oldest event yet, or that has settled nothing. -/
def Passed (events : List (Event α)) (left right : Int → Verdict) (c : Int) : Prop :=
  ∃ oldest ∈ events.head?, oldest.time.toInstant < c ∨
    Verdict.settle (left oldest.time.toInstant) (right oldest.time.toInstant) = none

theorem visits_event {event : Event α} (member : event ∈ events) (zero : 0 ∈ shifts)
    (inside : ∀ border ∈ start, border < event.time.toInstant) :
    Visits events shifts start event.time.toInstant :=
  ⟨event.time.toInstant_nonneg, inside, .inl ⟨event, member, 0, zero, Int.add_zero _⟩⟩

theorem Passed.step (zero : 0 ∈ shifts) {next : Int} (passed : Passed events left right c)
    (steps : IsPrevious (Visits events shifts start) c (some next))
    (nothing : Verdict.settle (left next) (right next) = none) :
    Passed events left right next := by
  obtain ⟨oldest, isFirst, before | settled⟩ := passed
  · refine ⟨oldest, isFirst, ?_⟩
    by_cases inside : ∀ border ∈ start, border < oldest.time.toInstant
    · have upTo := steps.2.2 _ (visits_event (List.mem_of_mem_head? isFirst) zero inside) before
      rcases lt_or_eq_of_le upTo with less | same
      · exact .inl less
      · exact .inr (same ▸ nothing)
    · left
      simp only [not_forall, Int.not_lt] at inside
      obtain ⟨border, isStart, behind⟩ := inside
      exact behind.trans_lt (steps.1.2.1 border isStart)
  · exact ⟨oldest, isFirst, .inr settled⟩

/-- A search back that has passed the oldest event decides nothing before it. -/
theorem Passed.undecided (ordered : Ordered events) (first : Timeless events left)
    (second : Timeless events right) (zero : 0 ∈ shifts) (passed : Passed events left right c)
    (steps : IsPrevious (Visits events shifts none) c none) {d : Int} (before : d < c) :
    Verdict.settle (left d) (right d) = none ∨
      Verdict.settle (left d) (right d) = some .unknown := by
  obtain ⟨oldest, isFirst, passed⟩ := passed
  have upTo := steps _ (visits_event (List.mem_of_mem_head? isFirst) zero
    fun border isStart => absurd isStart (Option.not_mem_none border))
  obtain ⟨leftHolds, rightFails⟩ :=
    Verdict.settle_eq_none_iff.1 (passed.resolve_left (Int.not_lt.2 upTo))
  have early : ∀ event ∈ events, d < event.time.toInstant := by
    intro event member
    obtain ⟨i, atI⟩ := List.mem_iff_getElem?.1 member
    rw [List.head?_eq_getElem?] at isFirst
    have := ordered.le (Nat.zero_le i) isFirst atI
    omega
  exact Verdict.settle_eq_none_or ((first d _ early).symm.ne_fails leftHolds)
    ((second d _ early).symm.ne_holds rightFails)

/-- A search back over values that change with events only comes to the same as one that looks at
every instant. -/
theorem SearchesBack.eq_denseBack (ordered : Ordered events) (first : Regular events inner left)
    (second : Regular events inner right) (firstEarly : Timeless events left)
    (secondEarly : Timeless events right)
    (atShifts : ∀ shift, shift ∈ shifts ↔ shift = 0 ∨ shift ∈ inner) {verdict : Verdict}
    (searches : SearchesBack events shifts left right start c verdict) (nonnegative : 0 ≤ c)
    (reached : Reaches events (c - 1)) (passed : Passed events left right c) :
    verdict = denseBack events left right start c.toNat := by
  have included := fun offset member => (atShifts offset).2 (.inr member)
  have zero : 0 ∈ shifts := (atShifts 0).2 (.inl rfl)
  induction searches with
  | @settles c next verdict steps settles =>
    have inside := steps.1.2.1
    have before := steps.2.1
    have lower := steps.1.1
    have same := settle_of_previous first second included steps reached
      (show next ≤ ((c - 1).toNat : Int) by omega) (by omega)
    rw [show c.toNat = (c - 1).toNat + 1 by omega, denseBack_succ, same, settles]
    · rfl
    · intro border isStart
      have := inside border isStart
      omega
  | @goesOn c next verdict steps nothing _ ih =>
    have inside := steps.1.2.1
    have before := steps.2.1
    have lower := steps.1.1
    rw [ih lower (reached.mono (by omega)) (passed.step zero steps nothing)]
    refine (denseBack_passes (fun border isStart => ?_) (by omega) fun d after upTo => ?_).symm
    · have := inside border isStart
      omega
    · rw [settle_of_previous first second included steps reached (by omega) (by omega), nothing]
  | @ends c steps =>
    cases start with
    | none =>
      exact (denseBack_undecided fun d before =>
        passed.undecided ordered firstEarly secondEarly zero steps (by omega)).symm
    | some border =>
      -- The first instant of the window would be looked at, so the search starts before it.
      have looked : Visits events shifts (some border) (max (border + 1) 0) :=
        ⟨by omega, fun _ same => by cases same; omega, .inr ⟨border, rfl, rfl⟩⟩
      have := steps _ looked
      exact (denseBack_outside (by omega)).symm

end

section

variable (ordered : Ordered events) (bound : Option Time)
  (time : Time) (after : ReachesBack events (time.toInstant - 1))
  (upTo : Reaches events (time.toInstant - 1))

include ordered after upTo

/-- From a time after the oldest event, and at most just after the newest. -/
theorem SearchesBack.dense {inner shifts : List Int} {left right : Int → Verdict}
    (first : Regular events inner left) (second : Regular events inner right)
    (firstEarly : Timeless events left) (secondEarly : Timeless events right)
    (atShifts : ∀ shift, shift ∈ shifts ↔ shift = 0 ∨ shift ∈ inner) {verdict : Verdict}
    (searches : SearchesBack events shifts left right (windowStart bound time.toInstant)
      time.toInstant verdict) :
    verdict = denseBack events left right (windowStart bound time.toInstant) time.nanos := by
  obtain ⟨oldest, isFirst, early⟩ := after
  exact searches.eq_denseBack ordered first second firstEarly secondEarly atShifts
    time.toInstant_nonneg upTo ⟨oldest, isFirst, .inl (by omega)⟩

namespace Tape

variable [DecidableEq α] {l r f : Formula α}

theorem snce_dense (leftPlain : l.PlainFuture) (rightPlain : r.PlainFuture)
    (leftAnchored : l.Anchored) (rightAnchored : r.Anchored) :
    (ofEvents events).valueOf (.snce bound l r) time.toInstant =
      denseBack events ((ofEvents events).valueOf l) ((ofEvents events).valueOf r)
        (windowStart bound time.toInstant) time.nanos :=
  SearchesBack.dense ordered bound time after upTo
    ((regular_of_plainFuture ordered leftPlain leftAnchored).mono subset_union_left)
    ((regular_of_plainFuture ordered rightPlain rightAnchored).mono subset_union_right)
    (timeless_of_plainFuture ordered leftPlain) (timeless_of_plainFuture ordered rightPlain)
    (mem_shifts_union _ l r) (valueOf_snce ordered l r bound time)

theorem once_dense (plain : f.PlainFuture) (anchored : f.Anchored) :
    (ofEvents events).valueOf (.once (.upTo bound) f) time.toInstant =
      denseBack events (fun _ => .holds) ((ofEvents events).valueOf f)
        (windowStart bound time.toInstant) time.nanos :=
  SearchesBack.dense ordered bound time after upTo (.always _)
    (regular_of_plainFuture ordered plain anchored) (.always _)
    (timeless_of_plainFuture ordered plain) (mem_shifts_always _ f)
    (valueOf_once ordered f bound time)

theorem historically_dense (plain : f.PlainFuture) (anchored : f.Anchored) :
    (ofEvents events).valueOf (.historically (.upTo bound) f) time.toInstant =
      (denseBack events (fun _ => .holds) (fun c => ((ofEvents events).valueOf f c).not)
        (windowStart bound time.toInstant) time.nanos).not := by
  have opposite := SearchesBack.dense ordered bound time after upTo (.always _)
    (regular_of_plainFuture ordered plain anchored).not (.always _)
    (timeless_of_plainFuture ordered plain).not (mem_shifts_always _ f)
    (valueOf_historically ordered f bound time)
  rw [← opposite, Verdict.not_not]

end Tape

end

namespace Cursor

variable [DecidableEq α] {cursor : Cursor} {ring : Ring α}

/-- From a time after the oldest event, and at most just after the newest, looking back at few
instants agrees with looking back at every instant. -/
theorem evaluate_eq_denseBack (shows : cursor.reader.Shows ring events) (ordered : Ordered events)
    (valid : Valid cursor.reader ring cursor.position) {l r : Formula α} (leftPlain : l.PlainFuture)
    (rightPlain : r.PlainFuture) (leftAnchored : l.Anchored) (rightAnchored : r.Anchored)
    (bound : Option Time) (time : Time) (after : ReachesBack events (time.toInstant - 1))
    (upTo : Reaches events (time.toInstant - 1)) :
    (cursor.evaluate ring (.snce bound l r) time).1 =
        denseBack events (cursor.valueOf ring l) (cursor.valueOf ring r)
          (windowStart bound time.toInstant) time.nanos ∧
      (cursor.evaluate ring (.once (.upTo bound) r) time).1 =
        denseBack events (fun _ => .holds) (cursor.valueOf ring r)
          (windowStart bound time.toInstant) time.nanos ∧
      (cursor.evaluate ring (.historically (.upTo bound) r) time).1 =
        (denseBack events (fun _ => .holds) (fun c => (cursor.valueOf ring r c).not)
          (windowStart bound time.toInstant) time.nanos).not := by
  simp only [evaluate_eq_valueOf shows ordered valid, valueOf_eq shows ordered valid]
  exact ⟨Tape.snce_dense ordered bound time after upTo leftPlain rightPlain leftAnchored
      rightAnchored,
    Tape.once_dense ordered bound time after upTo rightPlain rightAnchored,
    Tape.historically_dense ordered bound time after upTo rightPlain rightAnchored⟩

/-- From just after the newest event, over a window that begins before zero. -/
theorem denseBack_wrapped :
    (wrappedCursor.evaluate wrappedRing (.snce (some (.ofNanos 20)) (.atom true)
      (.disj (.atom false) (.always (.within (.ofNanos 2)) (.atom false)))) (.ofNanos 10)).1 =
        .holds ∧
    (wrappedCursor.evaluate wrappedRing (.once (.within (.ofNanos 20))
      (.disj (.atom false) (.always (.within (.ofNanos 2)) (.atom false)))) (.ofNanos 10)).1 =
        .holds ∧
    (wrappedCursor.evaluate wrappedRing (.historically (.within (.ofNanos 20))
      (.disj (.atom false) (.always (.within (.ofNanos 2)) (.atom false)))) (.ofNanos 10)).1 =
        .fails := by
  have plain : (Formula.disj (.atom false)
      (.always (.within (.ofNanos 2)) (.atom false))).PlainFuture :=
    .disj (.atom _) (.always (some _) (.atom _))
  have anchored : (Formula.disj (.atom false)
      (.always (.within (.ofNanos 2)) (.atom false))).Anchored := by
    simp [Formula.Anchored, Formula.HasAtom]
  obtain ⟨since, once, historically⟩ :=
    evaluate_eq_denseBack wrappedCursor_shows (by decide) (by decide) (.atom true) plain trivial
      anchored (some (.ofNanos 20)) (.ofNanos 10) ⟨⟨true, .ofNanos 5⟩, rfl, by decide⟩
      ⟨⟨true, .ofNanos 9⟩, rfl, by decide⟩
  refine ⟨since.trans ?_, once.trans ?_, historically.trans ?_⟩
  · cbv
  · cbv
  · cbv

end Cursor

end TimedTrace
