import TimedTrace.Proofs.Regular
import TimedTrace.Proofs.Values

namespace TimedTrace

variable {α : Type} {events : List (Event α)}

namespace Verdict

/-- The two verdicts do not contradict each other: some verdict tells at least as much as both. -/
def Agrees (a b : Verdict) : Prop := ∃ c, a.Below c ∧ b.Below c

variable {a b c d : Verdict}

theorem Agrees.refl (a : Verdict) : a.Agrees a := ⟨a, .refl a, .refl a⟩

theorem unknown_agrees (a : Verdict) : unknown.Agrees a := ⟨a, .inl rfl, .refl a⟩

theorem agrees_unknown (a : Verdict) : a.Agrees unknown := ⟨a, .refl a, .inl rfl⟩

theorem Agrees.symm (agrees : a.Agrees b) : b.Agrees a := by
  obtain ⟨c, first, second⟩ := agrees
  exact ⟨c, second, first⟩

theorem Agrees.eq (agrees : a.Agrees b) (first : a ≠ unknown) (second : b ≠ unknown) : a = b := by
  obtain ⟨c, belowA, belowB⟩ := agrees
  rw [belowA.eq first, belowB.eq second]

/-- What holds does not fail at the same time. -/
theorem Agrees.ne_fails (agrees : a.Agrees b) (holds : a = holds) : b ≠ fails := by
  rintro rfl
  cases holds.symm.trans (agrees.eq (by rw [holds]; exact holds_ne_unknown) fails_ne_unknown)

theorem Agrees.ne_holds (agrees : a.Agrees b) (fails : a = fails) : b ≠ holds :=
  fun holds => agrees.symm.ne_fails holds fails

/-- Two verdicts that are not opposite agree. -/
theorem agrees_of_not_opposite (first : a = holds → b ≠ fails) (second : a = fails → b ≠ holds) :
    a.Agrees b := by
  cases a with
  | unknown => exact unknown_agrees b
  | holds =>
    cases b with
    | holds => exact .refl _
    | fails => exact absurd rfl (first rfl)
    | unknown => exact agrees_unknown _
  | fails =>
    cases b with
    | holds => exact absurd rfl (second rfl)
    | fails => exact .refl _
    | unknown => exact agrees_unknown _

theorem Agrees.not (agrees : a.Agrees b) : a.not.Agrees b.not := by
  obtain ⟨c, first, second⟩ := agrees
  exact ⟨c.not, first.not, second.not⟩

/-- A connective that tells more when its operands tell more keeps verdicts from contradicting each
other. -/
theorem Agrees.joined {op : Verdict → Verdict → Verdict} (first : a.Agrees c)
    (second : b.Agrees d)
    (monotone : ∀ {a b c d : Verdict}, a.Below c → b.Below d → (op a b).Below (op c d)) :
    (op a b).Agrees (op c d) := by
  obtain ⟨x, belowA, belowC⟩ := first
  obtain ⟨y, belowB, belowD⟩ := second
  exact ⟨op x y, monotone belowA belowB, monotone belowC belowD⟩

/-- A step from a left operand that does not fail and a right one that does not hold decides
nothing. -/
theorem settle_eq_none_or (left : a ≠ fails) (right : b ≠ holds) :
    settle a b = none ∨ settle a b = some unknown := by
  revert left right
  cases a <;> cases b <;> decide

end Verdict

/-- Two values of a formula agree if they do where there is a time for both. -/
theorem agrees_of_times {value : Int → Verdict}
    (outside : ∀ c, Time.ofInstant? c = none → value c = .unknown) {c d : Int}
    (inside : ∀ time later : Time, time.toInstant = c → later.toInstant = d →
      (value c).Agrees (value d)) : (value c).Agrees (value d) := by
  cases atC : Time.ofInstant? c with
  | none =>
    rw [outside c atC]
    exact Verdict.unknown_agrees _
  | some time =>
    cases atD : Time.ofInstant? d with
    | none =>
      rw [outside d atD]
      exact Verdict.agrees_unknown _
    | some later =>
      exact inside time later (Time.toInstant_of_ofInstant? atC) (Time.toInstant_of_ofInstant? atD)

/-- On a stretch on which no event meets an offset the value does not turn into its opposite. -/
def Steady (events : List (Event α)) (offsets : List Int) (value : Int → Verdict) : Prop :=
  ∀ c d, c ≤ d → Quiet events offsets c d → (value c).Agrees (value d)

section

variable {offsets inner shifts : List Int} {value left right : Int → Verdict}

theorem Steady.mono {more : List Int} (steady : Steady events offsets value)
    (included : ∀ offset ∈ offsets, offset ∈ more) : Steady events more value :=
  fun c d upTo quiet => steady c d upTo (quiet.subset included)

theorem Steady.always (verdict : Verdict) : Steady events offsets fun _ => verdict :=
  fun _ _ _ _ => .refl _

theorem Steady.not (steady : Steady events offsets value) :
    Steady events offsets fun c => (value c).not :=
  fun c d upTo quiet => (steady c d upTo quiet).not

theorem Steady.joined {op : Verdict → Verdict → Verdict} (first : Steady events offsets left)
    (second : Steady events offsets right)
    (monotone : ∀ {a b c d : Verdict}, a.Below c → b.Below d → (op a b).Below (op c d)) :
    Steady events offsets fun c => op (left c) (right c) :=
  fun c d upTo quiet => (first c d upTo quiet).joined (second c d upTo quiet) monotone

/-- Where there is no time nothing is known, so only times matter. -/
theorem Steady.timed (outside : ∀ c, Time.ofInstant? c = none → value c = .unknown)
    (inside : ∀ time later : Time, time.toInstant ≤ later.toInstant →
      Quiet events offsets time.toInstant later.toInstant →
      (value time.toInstant).Agrees (value later.toInstant)) : Steady events offsets value := by
  intro c d upTo quiet
  refine agrees_of_times outside ?_
  rintro time later rfl rfl
  exact inside time later upTo quiet

/-- What an atom tells of the event in force it tells as long as that event is in force. -/
theorem AtomValue.agrees [DecidableEq α] {data : α} {c d : Int} {a b : Verdict}
    (upTo : c ≤ d) (quiet : Quiet events [0] c d) (first : AtomValue events data c a)
    (second : AtomValue events data d b) : a.Agrees b := by
  cases first with
  | unknown _ => exact Verdict.unknown_agrees _
  | known inForce _ =>
    cases second with
    | unknown _ => exact Verdict.agrees_unknown _
    | known later _ =>
      rw [((quiet.inForce_iff upTo).1 inForce).unique later]
      exact .refl _

/-- The instant `y` lies no further into the window from `d` than `x` into that from `c`. -/
theorem Before.moved {bound : Option Time} {c d x y : Int} (atX : Before (windowEnd bound c) x)
    (near : y - d ≤ x - c) : Before (windowEnd bound d) y := by
  rintro _ isStop
  obtain ⟨length, isLength, rfl⟩ := Option.mem_map.1 isStop
  have := atX _ (Option.mem_map_of_mem _ isLength)
  omega

section

variable {finish : Option Int} {start x y : Int} {verdict : Verdict}

/-- A search looks at the instant it starts from, if its window has that instant. -/
theorem SearchEnds.at_start (ends : SearchEnds events shifts left right finish start verdict)
    (room : Before finish start) :
    Verdict.settle (left start) (right start) = none ∨
      Verdict.settle (left start) (right start) = some verdict := by
  have nothing (overlooked : Overlooked events shifts left right start start) :
      Verdict.settle (left start) (right start) = none := by
    obtain ⟨seen, lower, upper, nothing, _⟩ := overlooked
    rwa [le_antisymm upper lower] at nothing
  cases ends with
  | @settled c _ lower _ _ settles overlooked =>
    by_cases atOnce : c = start
    · rw [atOnce] at settles
      exact .inr settles
    · exact .inl (nothing (overlooked start le_rfl (by omega)))
  | exhausted overlooked => exact .inl (nothing (overlooked start le_rfl room))

/-- Where a search starts that fails, the right operand fails. -/
theorem SearchEnds.fails_at_start
    (ends : SearchEnds events shifts left right finish start .fails) (room : Before finish start) :
    right start = .fails := by
  rcases ends.at_start room with nothing | settles
  · exact (Verdict.settle_eq_none_iff.1 nothing).2
  · exact (Verdict.settle_eq_fails_iff.1 settles).1

/-- A search that comes to hold has found an instant, and has overlooked those before it. -/
theorem SearchEnds.found_of_holds
    (ends : SearchEnds events shifts left right finish start verdict)
    (isHolds : verdict = .holds) :
    ∃ x, start ≤ x ∧ Before finish x ∧ right x = .holds ∧
      ∀ y, start ≤ y → y < x → Overlooked events shifts left right start y := by
  cases ends with
  | @settled x _ lower room _ settles overlooked =>
    rw [isHolds] at settles
    exact ⟨x, lower, room, Verdict.settle_eq_holds_iff.1 settles, overlooked⟩
  | exhausted _ => exact absurd isHolds (unsettled_ne_holds events finish)

variable (first : Steady events inner left) (second : Steady events inner right)
  (included : ∀ offset ∈ inner, offset ∈ shifts)

include first second included

/-- Where a search overlooks an instant, neither there nor later is a step settled against what it
saw before, unless an event is met. -/
theorem Overlooked.spreads (overlooked : Overlooked events shifts left right start x)
    (upTo : x ≤ y) (quiet : Quiet events inner x y) :
    left y ≠ .fails ∧ right y ≠ .holds := by
  obtain ⟨seen, _, before, nothing, stretch⟩ := overlooked
  obtain ⟨leftHolds, rightFails⟩ := Verdict.settle_eq_none_iff.1 nothing
  have whole := (stretch.subset included).append quiet
  exact ⟨(first seen y (before.trans upTo) whole).ne_fails leftHolds,
    (second seen y (before.trans upTo) whole).ne_holds rightFails⟩

/-- A search that comes to hold has found an instant, and nothing that fails before it. -/
theorem SearchEnds.exists_of_holds
    (ends : SearchEnds events shifts left right finish start verdict)
    (isHolds : verdict = .holds) :
    ∃ x, start ≤ x ∧ Before finish x ∧ right x = .holds ∧
      ∀ y, start ≤ y → y < x → left y ≠ .fails := by
  obtain ⟨x, lower, room, holds, overlooked⟩ := ends.found_of_holds isHolds
  refine ⟨x, lower, room, holds, fun y after before => ?_⟩
  exact ((overlooked y after before).spreads first second included le_rfl
    fun c lower upper => absurd upper (by omega)).1

/-- A search that fails has met an instant where both operands fail before any at which the right
one holds, also shortly after the window. -/
theorem SearchEnds.exists_of_fails
    (ends : SearchEnds events shifts left right finish start verdict)
    (isFails : verdict = .fails) (lower : start ≤ x) (room : Before finish x)
    (upTo : x ≤ y) (quiet : Quiet events inner x y) (holds : right y = .holds) :
    ∃ z, start ≤ z ∧ z < y ∧ left z = .fails ∧ right z = .fails := by
  have looked (overlooked : Overlooked events shifts left right start x) : False :=
    (overlooked.spreads first second included upTo quiet).2 holds
  cases ends with
  | @settled z _ after _ _ settles overlooked =>
    rw [isFails] at settles
    obtain ⟨rightFails, leftFails⟩ := Verdict.settle_eq_fails_iff.1 settles
    by_cases before : z < y
    · exact ⟨z, after, before, leftFails, rightFails⟩
    · by_cases same : z = y
      · rw [← same, rightFails] at holds
        cases holds
      · exact (looked (overlooked x lower (by omega))).elim
  | exhausted overlooked => exact (looked (overlooked x lower room)).elim

variable {bound : Option Time} {c d : Int} {a b : Verdict}

/-- A search from later on does not fail if one from before came to hold: it has the instant that
was found in its window, or starts where the right operand has not come to fail since. -/
theorem SearchEnds.later_ne_fails (upTo : c ≤ d) (still : Quiet events inner c d)
    (ends : SearchEnds events shifts left right (windowEnd bound c) c .holds)
    (later : SearchEnds events shifts left right (windowEnd bound d) d b) : b ≠ .fails := by
  rintro rfl
  obtain ⟨x, lower, before, holds, intact⟩ := ends.exists_of_holds first second included rfl
  by_cases passed : d ≤ x
  · obtain ⟨z, after, early, leftFails, _⟩ := later.exists_of_fails first second included rfl
      passed (before.moved (by omega)) le_rfl (fun y lower upper => absurd upper (by omega)) holds
    exact intact z (by omega) early leftFails
  · -- The instant that was found lies before `d`, where the right operand fails.
    have agrees := second x d (by omega) (still.within lower le_rfl)
    exact agrees.ne_fails holds (later.fails_at_start (before.moved (by omega)))

/-- A search that fails has met an instant where both operands fail before any at which the right
one holds in a later window: at the end of its own window the right one held then as well. -/
theorem SearchEnds.exists_of_fails_window (upTo : c ≤ d)
    (quiet : Quiet events (widen inner (futureEnds bound)) c d)
    (ends : SearchEnds events shifts left right (windowEnd bound c) c .fails) (lower : d ≤ x)
    (before : Before (windowEnd bound d) x) (holds : right x = .holds) :
    ∃ z, c ≤ z ∧ z < x ∧ left z = .fails ∧ right z = .fails := by
  by_cases inside : Before (windowEnd bound c) x
  · exact ends.exists_of_fails first second included rfl (by omega) inside le_rfl
      (fun y lower upper => absurd upper (by omega)) holds
  · cases bound with
    | none => exact absurd (fun stop isStop => nomatch isStop) inside
    | some length =>
      have beyond : c + length.toInstant ≤ x := by
        refine Int.not_lt.1 fun early => inside fun stop isStop => ?_
        cases isStop
        exact early
      have early : x < d + length.toInstant := before _ rfl
      have atEnd : length.toInstant - 1 ∈ futureEnds (some length) := by simp [futureEnds]
      refine ends.exists_of_fails first second included rfl
        (show c ≤ c + length.toInstant - 1 by omega) (fun stop isStop => ?_) (by omega)
        ((quiet.shift atEnd).within (by omega) (by omega)) holds
      cases isStop
      exact Int.sub_one_lt_of_le le_rfl

/-- Searches from two instants between which no event meets an offset do not contradict each
other. -/
theorem SearchEnds.agrees (upTo : c ≤ d)
    (quiet : Quiet events (widen inner (futureEnds bound)) c d)
    (ends : SearchEnds events shifts left right (windowEnd bound c) c a)
    (later : SearchEnds events shifts left right (windowEnd bound d) d b) : a.Agrees b := by
  have still : Quiet events inner c d := by
    simpa only [Int.add_zero] using quiet.shift (zero_mem_futureEnds bound)
  refine Verdict.agrees_of_not_opposite ?_ ?_
  · rintro rfl
    exact ends.later_ne_fails first second included upTo still later
  · rintro rfl rfl
    obtain ⟨x, lower, before, holds, intact⟩ := later.exists_of_holds first second included rfl
    obtain ⟨z, after, early, leftFails, rightFails⟩ :=
      ends.exists_of_fails_window first second included upTo quiet lower before holds
    by_cases passed : d ≤ z
    · exact intact z passed early leftFails
    · have spread := still.within after le_rfl
      have room : Before (windowEnd bound d) d := before.of_le lower
      rcases later.at_start room with nothing | settles
      · obtain ⟨leftHolds, _⟩ := Verdict.settle_eq_none_iff.1 nothing
        exact (first z d (by omega) spread).ne_holds leftFails leftHolds
      · exact (second z d (by omega) spread).ne_holds rightFails
          (Verdict.settle_eq_holds_iff.1 settles)

end

end

/-- Formulas built from constants, atoms, connectives and the operators that look ahead, whatever
their bounds. -/
inductive Formula.Future : Formula α → Prop
  | top : Future .top
  | bot : Future .bot
  | atom (data : α) : Future (.atom data)
  | neg {f : Formula α} : f.Future → Future (.neg f)
  | disj {l r : Formula α} : l.Future → r.Future → Future (.disj l r)
  | conj {l r : Formula α} : l.Future → r.Future → Future (.conj l r)
  | imp {l r : Formula α} : l.Future → r.Future → Future (.imp l r)
  | untl (bound : Option Time) {l r : Formula α} : l.Future → r.Future → Future (.untl bound l r)
  | eventually (bound : Option Time) {f : Formula α} : f.Future →
      Future (.eventually (.upTo bound) f)
  | always (bound : Option Time) {f : Formula α} : f.Future → Future (.always (.upTo bound) f)
  | eventuallyAt (distance : Time) {f : Formula α} : f.Future →
      Future (.eventually (.exactly distance) f)
  | alwaysAt (distance : Time) {f : Formula α} : f.Future →
      Future (.always (.exactly distance) f)

namespace Tape

variable [DecidableEq α]

/-- While no event meets an offset of a formula, its value does not turn into its opposite. -/
theorem steady_of_future (ordered : Ordered events) {f : Formula α} (future : f.Future) :
    Steady events f.offsets ((ofEvents events).valueOf f) := by
  induction future with
  | top =>
    refine .timed (fun c => valueOf_of_none) fun time later _ _ => ?_
    rw [valueOf_toInstant, valueOf_toInstant]
    exact .refl _
  | bot =>
    refine .timed (fun c => valueOf_of_none) fun time later _ _ => ?_
    rw [valueOf_toInstant, valueOf_toInstant]
    exact .refl _
  | atom data =>
    exact .timed (fun c => valueOf_of_none) fun time later upTo quiet =>
      AtomValue.agrees upTo quiet (valueOf_atom ordered data time) (valueOf_atom ordered data later)
  | neg _ ih =>
    rw [funext (valueOf_neg (ofEvents events) _)]
    exact ih.not
  | disj _ _ left right =>
    rw [funext (valueOf_disj ordered _ _)]
    exact (left.mono subset_union_left).joined (right.mono subset_union_right) .or
  | conj _ _ left right =>
    rw [funext (valueOf_conj ordered _ _)]
    exact (left.mono subset_union_left).joined (right.mono subset_union_right) .and
  | imp _ _ left right =>
    rw [funext (valueOf_imp ordered _ _)]
    exact (left.mono subset_union_left).joined (right.mono subset_union_right) .implies
  | @untl bound l r _ _ left right =>
    exact .timed (fun c => valueOf_of_none) fun time later upTo quiet =>
      SearchEnds.agrees (left.mono subset_union_left) (right.mono subset_union_right)
        (fun shift member => (mem_shifts_union _ l r shift).2 (.inr member)) upTo quiet
        (valueOf_untl ordered l r bound time) (valueOf_untl ordered l r bound later)
  | @eventually bound f _ ih =>
    rw [offsets_eventually]
    exact .timed (fun c => valueOf_of_none) fun time later upTo quiet =>
      SearchEnds.agrees (.always _) ih
        (fun shift member => (mem_shifts_always _ f shift).2 (.inr member)) upTo quiet
        (valueOf_eventually ordered f bound time) (valueOf_eventually ordered f bound later)
  | @always bound f _ ih =>
    rw [offsets_always]
    refine .timed (fun c => valueOf_of_none) fun time later upTo quiet => ?_
    have opposite := SearchEnds.agrees (.always _) ih.not
      (fun shift member => (mem_shifts_always _ f shift).2 (.inr member)) upTo quiet
      (valueOf_always ordered f bound time) (valueOf_always ordered f bound later)
    simpa only [Verdict.not_not] using opposite.not
  | @eventuallyAt distance f _ ih =>
    refine .timed (fun c => valueOf_of_none) fun time later upTo quiet => ?_
    rw [valueOf_eventually_exactly, valueOf_eventually_exactly]
    exact ih _ _ (by omega) (quiet.shift List.mem_cons_self)
  | @alwaysAt distance f _ ih =>
    refine .timed (fun c => valueOf_of_none) fun time later upTo quiet => ?_
    rw [valueOf_always_exactly, valueOf_always_exactly]
    exact ih _ _ (by omega) (quiet.shift List.mem_cons_self)

end Tape

end TimedTrace
