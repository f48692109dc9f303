import Mathlib
import TimedTrace.Proofs.Shown

namespace TimedTrace

variable {α : Type}

/-- The instants of a window that begins at `c`. -/
def Ahead (bound : Option Time) (c d : Int) : Prop :=
  c ≤ d ∧ ∀ length ∈ bound, d < c + length.toInstant

/-- Two-valued truth at an instant of a signal that carries a value at each instant. Formulas that
look back or measure are left out. -/
def Formula.TrueOf (signal : Int → α) : Formula α → Int → Prop
  | .top, _ => True
  | .bot, _ => False
  | .atom data, c => signal c = data
  | .neg f, c => ¬ f.TrueOf signal c
  | .disj l r, c => l.TrueOf signal c ∨ r.TrueOf signal c
  | .conj l r, c => l.TrueOf signal c ∧ r.TrueOf signal c
  | .imp l r, c => l.TrueOf signal c → r.TrueOf signal c
  | .untl bound l r, c =>
    ∃ d, Ahead bound c d ∧ r.TrueOf signal d ∧ ∀ e, c ≤ e → e < d → l.TrueOf signal e
  | .eventually (.within length) f, c => ∃ d, Ahead (some length) c d ∧ f.TrueOf signal d
  | .eventually .unbounded f, c => ∃ d, Ahead none c d ∧ f.TrueOf signal d
  | .eventually (.exactly distance) f, c => f.TrueOf signal (c + distance.toInstant)
  | .always (.within length) f, c => ∀ d, Ahead (some length) c d → f.TrueOf signal d
  | .always .unbounded f, c => ∀ d, Ahead none c d → f.TrueOf signal d
  | .always (.exactly distance) f, c => f.TrueOf signal (c + distance.toInstant)
  | .snce _ _ _, _ | .once _ _, _ | .historically _ _, _ | .less _ _, _ => False

/-- The signal carries the value of the event in force wherever the trace tells of one. Before the
oldest event and after the newest it is arbitrary. -/
def Agrees (events : List (Event α)) (signal : Int → α) : Prop :=
  ∀ c event, InForce events c event → Reaches events c → signal c = event.data

/-- A decided value is the truth from its instant on, as long as no event is met and the trace
reaches. Without offsets it is the truth for ever. -/
def Spreads (events : List (Event α)) (offsets : List Int) (value : Int → Verdict)
    (truth : Int → Prop) : Prop :=
  ∀ c d, c ≤ d → Quiet events offsets c d → (offsets = [] ∨ d = c ∨ Reaches events d) →
    (value c = .holds → truth d) ∧ (value c = .fails → ¬ truth d)

section Spreads

variable {events : List (Event α)} {offsets inner : List Int} {value : Int → Verdict}
  {truth : Int → Prop}

theorem Spreads.here (spreads : Spreads events offsets value truth) (c : Int) :
    (value c = .holds → truth c) ∧ (value c = .fails → ¬ truth c) :=
  spreads c c le_rfl (fun d after upTo => absurd after (by omega)) (.inr (.inl rfl))

theorem Spreads.mono {more : List Int} (spreads : Spreads events offsets value truth)
    (included : ∀ offset ∈ offsets, offset ∈ more) : Spreads events more value truth := by
  intro c d upTo quiet covered
  refine spreads c d upTo (quiet.subset included) (covered.imp_left fun none => ?_)
  exact List.eq_nil_iff_forall_not_mem.2 fun offset member => by
    simpa [none] using included offset member

theorem Spreads.neg (spreads : Spreads events offsets value truth) :
    Spreads events offsets (fun c => (value c).not) fun c => ¬ truth c := by
  intro c d upTo quiet covered
  obtain ⟨holds, fails⟩ := spreads c d upTo quiet covered
  exact ⟨fun negated => fails (Verdict.not_eq_holds_iff.1 negated),
    fun negated => not_not_intro (holds (Verdict.not_eq_fails_iff.1 negated))⟩

section

variable {left right : Int → Verdict} {leftTruth rightTruth : Int → Prop}

theorem Spreads.disj (first : Spreads events offsets left leftTruth)
    (second : Spreads events offsets right rightTruth) :
    Spreads events offsets (fun c => (left c).or (right c)) fun c =>
      leftTruth c ∨ rightTruth c := by
  intro c d upTo quiet covered
  have here := first c d upTo quiet covered
  have there := second c d upTo quiet covered
  rw [Verdict.or_eq_holds_iff, Verdict.or_eq_fails_iff]
  exact ⟨Or.imp here.1 there.1, fun both => not_or.2 ⟨here.2 both.1, there.2 both.2⟩⟩

theorem Spreads.conj (first : Spreads events offsets left leftTruth)
    (second : Spreads events offsets right rightTruth) :
    Spreads events offsets (fun c => (left c).and (right c)) fun c =>
      leftTruth c ∧ rightTruth c := by
  intro c d upTo quiet covered
  have here := first c d upTo quiet covered
  have there := second c d upTo quiet covered
  rw [Verdict.and_eq_holds_iff, Verdict.and_eq_fails_iff]
  refine ⟨And.imp here.1 there.1, ?_⟩
  rintro (fails | fails) ⟨holdsLeft, holdsRight⟩
  · exact here.2 fails holdsLeft
  · exact there.2 fails holdsRight

theorem Spreads.imp (first : Spreads events offsets left leftTruth)
    (second : Spreads events offsets right rightTruth) :
    Spreads events offsets (fun c => (left c).implies (right c)) fun c =>
      leftTruth c → rightTruth c := by
  intro c d upTo quiet covered
  have here := first c d upTo quiet covered
  have there := second c d upTo quiet covered
  rw [Verdict.implies_eq_holds_iff, Verdict.implies_eq_fails_iff]
  refine ⟨?_, fun both implied => there.2 both.2 (implied (here.1 both.1))⟩
  rintro (fails | holds) premise
  · exact absurd premise (here.2 fails)
  · exact there.1 holds

/-- What an overlooked instant tells: the left operand is true there and the right one is not. -/
theorem Overlooked.decides {shifts : List Int} {start d : Int}
    (overlooked : Overlooked events shifts left right start d)
    (first : Spreads events inner left leftTruth) (second : Spreads events inner right rightTruth)
    (included : ∀ offset ∈ inner, offset ∈ shifts)
    (covered : ∀ seen, seen ≤ d → Quiet events shifts seen d → d = seen ∨ Reaches events d) :
    leftTruth d ∧ ¬ rightTruth d := by
  obtain ⟨seen, _, upTo, nothing, quiet⟩ := overlooked
  obtain ⟨leftHolds, rightFails⟩ := Verdict.settle_eq_none_iff.1 nothing
  have reach := covered seen upTo quiet
  exact ⟨(first seen d upTo (quiet.subset included) (.inr reach)).1 leftHolds,
    (second seen d upTo (quiet.subset included) (.inr reach)).2 rightFails⟩

/-- The truth of `until`. -/
def UntilTruth (leftTruth rightTruth : Int → Prop) (bound : Option Time) (c : Int) : Prop :=
  ∃ d, Ahead bound c d ∧ rightTruth d ∧ ∀ e, c ≤ e → e < d → leftTruth e

section

variable {shifts : List Int} {bound : Option Time} {c d : Int}
  (ordered : Ordered events) (whole : Gapless inner)
  (atShifts : ∀ shift, shift ∈ shifts ↔ shift = 0 ∨ shift ∈ inner)
  (first : Spreads events inner left leftTruth) (second : Spreads events inner right rightTruth)

include ordered whole atShifts first second

theorem until_of_holds (upTo : c ≤ d)
    (quiet : Quiet events (widen inner (futureEnds bound)) c d)
    (covered : inner = [] ∨ d = c ∨ Reaches events d) {verdict : Verdict}
    (ends : SearchEnds events shifts left right (windowEnd bound c) c verdict)
    (holds : verdict = .holds) : UntilTruth leftTruth rightTruth bound d := by
  have gapless := whole.addZero atShifts
  have included := fun offset member => (atShifts offset).2 (.inr member)
  cases ends with
  | exhausted => exact absurd holds (unsettled_ne_holds events _)
  | @settled x _ lower room looked settles overlooked =>
    subst holds
    have rightHolds := Verdict.settle_eq_holds_iff.1 settles
    have inWindow (y : Int) (later : d ≤ y) (early : y - d ≤ x - c) : Ahead bound d y := by
      refine ⟨later, fun length isLength => ?_⟩
      have := room _ (Option.mem_map_of_mem _ isLength)
      omega
    by_cases passed : d ≤ x
    · refine ⟨x, inWindow x passed (by omega), (second.here x).1 rightHolds,
        fun e after before => ?_⟩
      have meets := looked.resolve_left (by omega)
      exact ((overlooked e (by omega) before).decides first second included fun seen early quiet =>
        overlooked_covered gapless meets ordered before early quiet).1
    · -- The right operand was decided between the two instants and has not changed since.
      have spread : Quiet events inner x d :=
        (quiet.shift (zero_mem_futureEnds bound)).within (by omega) (by omega)
      have reach : inner = [] ∨ d = x ∨ Reaches events d :=
        covered.imp_right fun either => .inr (either.resolve_left (by omega))
      exact ⟨d, inWindow d le_rfl (by omega), (second x d (by omega) spread reach).1 rightHolds,
        fun e after before => absurd after (by omega)⟩

theorem not_until_of_fails (upTo : c ≤ d)
    (quiet : Quiet events (widen inner (futureEnds bound)) c d)
    (covered : inner = [] ∨ d = c ∨ Reaches events d) {verdict : Verdict}
    (ends : SearchEnds events shifts left right (windowEnd bound c) c verdict)
    (fails : verdict = .fails) : ¬ UntilTruth leftTruth rightTruth bound d := by
  rintro ⟨y, ⟨later, early⟩, rightTrue, leftTrue⟩
  have gapless := whole.addZero atShifts
  have included := fun offset member => (atShifts offset).2 (.inr member)
  cases ends with
  | @settled x _ lower room looked settles overlooked =>
    subst fails
    obtain ⟨rightFails, leftFails⟩ := Verdict.settle_eq_fails_iff.1 settles
    by_cases passed : d ≤ x
    · rcases lt_trichotomy y x with before | rfl | after
      · have meets := looked.resolve_left (by omega)
        exact ((overlooked y (by omega) before).decides first second included
          fun seen early quiet =>
            overlooked_covered gapless meets ordered before early quiet).2 rightTrue
      · exact (second.here y).2 rightFails rightTrue
      · exact (first.here x).2 leftFails (leftTrue x passed after)
    · have spread : Quiet events inner x d :=
        (quiet.shift (zero_mem_futureEnds bound)).within (by omega) (by omega)
      have reach : inner = [] ∨ d = x ∨ Reaches events d :=
        covered.imp_right fun either => .inr (either.resolve_left (by omega))
      rcases later.eq_or_lt with rfl | after
      · exact (second x d (by omega) spread reach).2 rightFails rightTrue
      · exact (first x d (by omega) spread reach).2 leftFails (leftTrue d le_rfl after)
  | exhausted overlooked =>
    cases bound with
    | none => cases fails
    | some length =>
      have reaches : Reaches events (c + length.toInstant) := by
        by_contra short
        simp [unsettled, windowEnd, short] at fails
      have room := early length rfl
      have inside {e : Int} (before : e < c + length.toInstant) :
          Before (windowEnd (some length) c) e := by
        rintro stop isStop
        cases isStop
        exact before
      by_cases within : y < c + length.toInstant
      · exact ((overlooked y (by omega) (inside within)).decides first second included
          fun seen _ _ => .inr (reaches.mono within.le)).2 rightTrue
      · -- What was overlooked last in the first window lasts up to `y` in the second.
        obtain ⟨seen, _, upToSeen, nothing, silent⟩ :=
          overlooked (c + length.toInstant - 1) (by omega) (inside (by omega))
        have atEnd : length.toInstant - 1 ∈ futureEnds (some length) := by simp [futureEnds]
        have rest : Quiet events inner (c + length.toInstant - 1) y :=
          (quiet.shift atEnd).within (by omega) (by omega)
        have spread := (silent.subset included).append rest
        have reach : inner = [] ∨ y = seen ∨ Reaches events y := by
          by_cases empty : inner = []
          · exact .inl empty
          · obtain ⟨offset, member⟩ := List.exists_mem_of_ne_nil inner empty
            have zero := whole.zero offset member
            exact .inr (.inr ((reaches.of_quiet zero quiet).mono room.le))
        exact (second seen y (by omega) spread reach).2
          (Verdict.settle_eq_none_iff.1 nothing).2 rightTrue

theorem Spreads.until
    (outside : ∀ c, Time.ofInstant? c = none → value c = .unknown)
    (ends : ∀ time : Time, SearchEnds events shifts left right (windowEnd bound time.toInstant)
      time.toInstant (value time.toInstant)) :
    Spreads events (widen inner (futureEnds bound)) value
      (UntilTruth leftTruth rightTruth bound) := by
  intro c d upTo quiet covered
  have bare : inner = [] ∨ d = c ∨ Reaches events d := by
    refine covered.imp_left fun empty => List.eq_nil_iff_forall_not_mem.2 fun offset member => ?_
    have moved := mem_widen.2 ⟨offset, member, 0, zero_mem_futureEnds bound, rfl⟩
    rw [empty] at moved
    cases moved
  cases atC : Time.ofInstant? c with
  | none =>
    rw [outside c atC]
    exact ⟨nofun, nofun⟩
  | some time =>
    obtain rfl := Time.toInstant_of_ofInstant? atC
    exact ⟨until_of_holds ordered whole atShifts first second upTo quiet bare (ends time),
      not_until_of_fails ordered whole atShifts first second upTo quiet bare (ends time)⟩

end

end

end Spreads

theorem AtomValue.spreads [DecidableEq α] {events : List (Event α)} {signal : Int → α}
    (agrees : Agrees events signal) {data : α} {value : Int → Verdict}
    (outside : ∀ c, Time.ofInstant? c = none → value c = .unknown)
    (atom : ∀ time : Time, AtomValue events data time.toInstant (value time.toInstant)) :
    Spreads events [0] value fun c => signal c = data := by
  intro c d upTo quiet covered
  cases atC : Time.ofInstant? c with
  | none =>
    rw [outside c atC]
    exact ⟨nofun, nofun⟩
  | some time =>
    obtain rfl := Time.toInstant_of_ofInstant? atC
    have known := atom time
    generalize value time.toInstant = verdict at known
    cases known with
    | unknown => exact ⟨nofun, nofun⟩
    | @known event inForce reaches =>
      have reach : Reaches events d := by
        rcases covered with nothing | rfl | reach
        · cases nothing
        · exact reaches
        · exact reach
      have same := agrees d event ((quiet.inForce_iff upTo).1 inForce) reach
      dsimp only
      rw [same]
      by_cases equal : event.data = data
      · simp [equal, Verdict.ofBool]
      · simp [equal, Verdict.ofBool]

section

variable {signal : Int → α} {f : Formula α}

theorem trueOf_eventually (bound : Option Time) :
    (Formula.eventually (.upTo bound) f).TrueOf signal =
      UntilTruth (fun _ => True) (f.TrueOf signal) bound := by
  funext c
  have same : UntilTruth (fun _ => True) (f.TrueOf signal) bound c =
      ∃ d, Ahead bound c d ∧ f.TrueOf signal d := by simp [UntilTruth]
  rw [same]
  cases bound <;> rfl

theorem trueOf_always (bound : Option Time) :
    (Formula.always (.upTo bound) f).TrueOf signal =
      fun c => ¬ UntilTruth (fun _ => True) (fun d => ¬ f.TrueOf signal d) bound c := by
  funext c
  have same : (¬ UntilTruth (fun _ => True) (fun d => ¬ f.TrueOf signal d) bound c) =
      ∀ d, Ahead bound c d → f.TrueOf signal d := by simp [UntilTruth]
  rw [same]
  cases bound <;> rfl

end

section

variable [DecidableEq α] {events : List (Event α)} {signal : Int → α}

/-- The decided values of a formula that looks ahead only are its truth for every signal that agrees
with the trace. -/
theorem Formula.PlainFuture.spreads (ordered : Ordered events) (agrees : Agrees events signal)
    {f : Formula α} (plain : f.PlainFuture) :
    Spreads events f.offsets ((Tape.ofEvents events).valueOf f) (f.TrueOf signal) := by
  have everywhere (offsets : List Int) :
      Spreads events offsets (fun _ => .holds) fun _ => True :=
    fun c d upTo quiet covered => ⟨fun _ => trivial, nofun⟩
  induction plain with
  | top =>
    exact fun c d upTo quiet covered =>
      ⟨fun _ => trivial, fun fails => absurd fails (Tape.valueOf_top_ne _ c)⟩
  | bot =>
    exact fun c d upTo quiet covered =>
      ⟨fun holds => absurd holds (Tape.valueOf_bot_ne _ c), fun _ => id⟩
  | atom data =>
    exact AtomValue.spreads agrees (fun c => Tape.valueOf_of_none) (Tape.valueOf_atom ordered data)
  | neg _ ih =>
    rw [funext (Tape.valueOf_neg (Tape.ofEvents events) _)]
    exact ih.neg
  | disj _ _ left right =>
    rw [funext (Tape.valueOf_disj ordered _ _)]
    exact (left.mono subset_union_left).disj (right.mono subset_union_right)
  | conj _ _ left right =>
    rw [funext (Tape.valueOf_conj ordered _ _)]
    exact (left.mono subset_union_left).conj (right.mono subset_union_right)
  | imp _ _ left right =>
    rw [funext (Tape.valueOf_imp ordered _ _)]
    exact (left.mono subset_union_left).imp (right.mono subset_union_right)
  | @untl bound l r first second left right =>
    exact Spreads.until ordered (first.gapless.union second.gapless) (Tape.mem_shifts_union _ l r)
      (left.mono subset_union_left) (right.mono subset_union_right)
      (fun c => Tape.valueOf_of_none) (Tape.valueOf_untl ordered l r bound)
  | @eventually bound f inner ih =>
    rw [offsets_eventually, trueOf_eventually]
    exact Spreads.until ordered inner.gapless (Tape.mem_shifts_always _ f) (everywhere _) ih
      (fun c => Tape.valueOf_of_none) (Tape.valueOf_eventually ordered f bound)
  | @always bound f inner ih =>
    have opposite : Spreads events (widen f.offsets (futureEnds bound))
        (fun c => ((Tape.ofEvents events).valueOf (.always (.upTo bound) f) c).not)
        (UntilTruth (fun _ => True) (fun d => ¬ f.TrueOf signal d) bound) :=
      Spreads.until ordered inner.gapless (Tape.mem_shifts_always _ f) (everywhere _) ih.neg
        (fun c outside => congrArg Verdict.not (Tape.valueOf_of_none outside))
        (Tape.valueOf_always ordered f bound)
    rw [offsets_always, trueOf_always]
    simpa only [Verdict.not_not] using opposite.neg

/-- A decided verdict of a formula that looks ahead only is its truth for every signal that agrees
with the events of the window. -/
theorem Cursor.evaluate_sound {cursor : Cursor} {ring : Ring α}
    (shows : cursor.reader.Shows ring events) (ordered : Ordered events)
    (valid : Cursor.Valid cursor.reader ring cursor.position) {f : Formula α}
    (plain : f.PlainFuture) (time : Time) (agrees : Agrees events signal) :
    ((cursor.evaluate ring f time).1 = .holds → f.TrueOf signal time.toInstant) ∧
      ((cursor.evaluate ring f time).1 = .fails → ¬ f.TrueOf signal time.toInstant) := by
  rw [Cursor.evaluate_eq_valueOf shows ordered valid]
  exact (plain.spreads ordered agrees).here time.toInstant

end

theorem agrees_wrappedEvents : Agrees wrappedEvents fun c => decide (9 ≤ c) := by
  rintro c event ⟨i, atI, early, last⟩ _
  match i with
  | 0 =>
    have before : c < 5 := last 1 _ (by decide) rfl
    cases atI
    exact absurd before (Int.not_lt.2 early)
  | 1 =>
    have before : c < 9 := last 2 _ (by decide) rfl
    cases atI
    exact decide_eq_false (by omega)
  | 2 =>
    cases atI
    exact decide_eq_true early

theorem evaluate_sound_wrapped :
    (wrappedCursor.evaluate wrappedRing (.untl (some (.ofNanos 4)) (.atom true) (.atom false))
      (.ofNanos 5)).1 = .holds ∧
    (Formula.untl (some (.ofNanos 4)) (.atom true) (.atom false)).TrueOf
      (fun c => decide (9 ≤ c)) (Time.ofNanos 5).toInstant := by
  have holds : (wrappedCursor.evaluate wrappedRing
      (.untl (some (.ofNanos 4)) (.atom true) (.atom false)) (.ofNanos 5)).1 = .holds := by cbv
  refine ⟨holds, (Cursor.evaluate_sound wrappedCursor_shows ?_ (by decide) ?_ _
    agrees_wrappedEvents).1 holds⟩
  · decide
  · exact .untl _ (.atom _) (.atom _)

end TimedTrace
