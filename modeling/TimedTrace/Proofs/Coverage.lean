import TimedTrace.Proofs.Shown
import TimedTrace.Proofs.Values

namespace TimedTrace

/-- How far a window reaches. One without end counts for nothing. -/
def reach : Option Time → Nat
  | some length => length.nanos
  | none => 0

def Bound.reach : Bound → Nat
  | .within length => length.nanos
  | .exactly distance => distance.nanos
  | .unbounded => 0

variable {α : Type}

mutual

/-- How far ahead of an instant the value of a formula depends on the trace. -/
def Formula.lookahead : Formula α → Nat
  | .top | .bot | .atom _ => 0
  | .neg f => f.lookahead
  | .disj l r | .conj l r | .imp l r => max l.lookahead r.lookahead
  | .untl bound l r => reach bound + max l.lookahead r.lookahead
  | .snce _ l r => max l.lookahead r.lookahead
  | .eventually bound f | .always bound f => bound.reach + f.lookahead
  | .once _ f | .historically _ f => f.lookahead
  | .less l r => max l.lookahead r.lookahead

def Term.lookahead : Term α → Nat
  | .constant _ => 0
  | .duration length f => length.nanos + f.lookahead
  | .sum l r => max l.lookahead r.lookahead

end

mutual

/-- How far behind an instant the value of a formula depends on the trace. -/
def Formula.lookback : Formula α → Nat
  | .top | .bot | .atom _ => 0
  | .neg f => f.lookback
  | .disj l r | .conj l r | .imp l r => max l.lookback r.lookback
  | .untl _ l r => max l.lookback r.lookback
  | .snce bound l r => reach bound + max l.lookback r.lookback
  | .eventually _ f | .always _ f => f.lookback
  | .once bound f | .historically bound f => bound.reach + f.lookback
  | .less l r => max l.lookback r.lookback

def Term.lookback : Term α → Nat
  | .constant _ => 0
  | .duration _ f => f.lookback
  | .sum l r => max l.lookback r.lookback

end

mutual

/-- Every temporal operator has a bound. -/
def Formula.Bounded : Formula α → Prop
  | .top | .bot | .atom _ => True
  | .neg f => f.Bounded
  | .disj l r | .conj l r | .imp l r => l.Bounded ∧ r.Bounded
  | .untl bound l r | .snce bound l r => bound.isSome = true ∧ l.Bounded ∧ r.Bounded
  | .eventually bound f | .always bound f | .once bound f | .historically bound f =>
    bound ≠ .unbounded ∧ f.Bounded
  | .less l r => l.Bounded ∧ r.Bounded

def Term.Bounded : Term α → Prop
  | .constant _ => True
  | .duration _ f => f.Bounded
  | .sum l r => l.Bounded ∧ r.Bounded

end

namespace Verdict

variable {a b : Verdict}

theorem ofBool_ne_unknown (b : Bool) : ofBool b ≠ .unknown := by
  cases b <;> decide

theorem not_ne_unknown (known : a ≠ .unknown) : a.not ≠ .unknown := by
  revert known
  cases a <;> decide

theorem or_ne_unknown (first : a ≠ .unknown) (second : b ≠ .unknown) : a.or b ≠ .unknown := by
  revert first second
  cases a <;> cases b <;> decide

theorem and_ne_unknown (first : a ≠ .unknown) (second : b ≠ .unknown) : a.and b ≠ .unknown := by
  revert first second
  cases a <;> cases b <;> decide

theorem implies_ne_unknown (first : a ≠ .unknown) (second : b ≠ .unknown) :
    a.implies b ≠ .unknown := by
  revert first second
  cases a <;> cases b <;> decide

theorem settle_ne_unknown (first : a ≠ .unknown) (second : b ≠ .unknown) :
    settle a b ≠ some .unknown := by
  revert first second
  cases a <;> cases b <;> decide

end Verdict

/-- The trace reaches so far behind the instant, and so far ahead of it. -/
structure Covers (events : List (Event α)) (behind ahead : Nat) (c : Int) : Prop where
  behind : ReachesBack events (c - behind)
  ahead : Reaches events (c + ahead)

section

variable {events : List (Event α)} {c d : Int} {behind ahead : Nat}

theorem Covers.mono {less fewer : Nat} (covers : Covers events behind ahead c)
    (lower : c - behind ≤ d - less) (upper : d + fewer ≤ c + ahead) :
    Covers events less fewer d :=
  ⟨covers.behind.mono lower, covers.ahead.mono upper⟩

/-- A trace covers the times of its events. -/
theorem Covers.of_mem (ordered : Ordered events) {event : Event α} (member : event ∈ events) :
    Covers events 0 0 event.time.toInstant := by
  obtain ⟨i, atI⟩ := List.mem_iff_getElem?.1 member
  have room := (List.getElem?_eq_some_iff.1 atI).1
  have atFirst := List.getElem?_eq_getElem (show 0 < events.length by omega)
  have early := ordered.le (Nat.zero_le i) atFirst atI
  exact ⟨⟨_, List.head?_eq_getElem?.trans atFirst, by omega⟩,
    (reaches_iff ordered).2 ⟨event, member, by omega⟩⟩

theorem Covers.left {a b x y : Nat} (covers : Covers events (max a b) (max x y) c) :
    Covers events a x c :=
  covers.mono (by omega) (by omega)

theorem Covers.right {a b x y : Nat} (covers : Covers events (max a b) (max x y) c) :
    Covers events b y c :=
  covers.mono (by omega) (by omega)

/-- What is covered of a window ahead: its end, and what is looked at from the instants in it. -/
theorem Covers.window {length : Time} (covers : Covers events behind (length.nanos + ahead) c) :
    Reaches events (c + length.toInstant) ∧
      ∀ d, c ≤ d → d ≤ c + length.toInstant → Covers events behind ahead d := by
  have span : length.toInstant = length.nanos := rfl
  exact ⟨covers.ahead.mono (by omega), fun d lower upper => covers.mono (by omega) (by omega)⟩

theorem Covers.windowBack {length : Time}
    (covers : Covers events (length.nanos + behind) ahead c) :
    ReachesBack events (c - length.toInstant) ∧
      ∀ d, c - length.toInstant ≤ d → d ≤ c → Covers events behind ahead d := by
  have span : length.toInstant = length.nanos := rfl
  exact ⟨covers.behind.mono (by omega), fun d lower upper => covers.mono (by omega) (by omega)⟩

theorem Covers.exists_time (covers : Covers events behind ahead c) :
    ∃ time : Time, time.toInstant = c := by
  have lower := covers.behind.nonneg
  have upper := covers.ahead.le_maxNanos
  exact Time.exists_toInstant (by omega) (by omega)

theorem AtomValue.ne_unknown [DecidableEq α] (ordered : Ordered events) {data : α} {time : Time}
    {verdict : Verdict} (atom : AtomValue events data time.toInstant verdict)
    (covers : Covers events behind ahead time.toInstant) : verdict ≠ .unknown := by
  cases atom with
  | known => exact Verdict.ofBool_ne_unknown _
  | unknown nothing =>
    obtain ⟨oldest, first, early⟩ := covers.behind
    rw [List.head?_eq_getElem?] at first
    have occupied := (lt_border_iff ordered time first).2 (Time.toInstant_le_iff.1 (by omega))
    have within := border_le_length events time
    have inForce := ordered.inForce_border (by omega)
      (List.getElem?_eq_getElem (show border events time - 1 < events.length by omega))
    exact absurd (covers.ahead.mono (by omega)) (nothing _ inForce)

end

theorem Measure.lessThan_ne_unknown {a b : Measure} (first : a.unknown = false)
    (second : b.unknown = false) : a.lessThan b ≠ .unknown := by
  rw [lessThan, first, second]
  exact Verdict.ofBool_ne_unknown _

section

variable {events : List (Event α)} {shifts : List Int} {left right value : Int → Verdict}
  {c : Int} {verdict : Verdict}

theorem SearchEnds.ne_unknown {stop : Int}
    (ends : SearchEnds events shifts left right (some stop) c verdict)
    (reaches : Reaches events stop)
    (known : ∀ d, c ≤ d → d < stop → left d ≠ .unknown ∧ right d ≠ .unknown) :
    verdict ≠ .unknown := by
  cases ends with
  | @settled d _ lower before _ settles _ =>
    obtain ⟨first, second⟩ := known d lower (before stop rfl)
    rintro rfl
    exact Verdict.settle_ne_unknown first second settles
  | exhausted =>
    rw [unsettled, if_pos reaches]
    exact Verdict.fails_ne_unknown

theorem SearchesBack.ne_unknown {start : Int}
    (searches : SearchesBack events shifts left right (some start) c verdict)
    (reaches : ReachesBack events start)
    (known : ∀ d, start < d → d < c → left d ≠ .unknown ∧ right d ≠ .unknown) :
    verdict ≠ .unknown := by
  induction searches with
  | settles steps settles =>
    obtain ⟨⟨_, after, _⟩, before, _⟩ := steps
    obtain ⟨first, second⟩ := known _ (after start rfl) before
    rintro rfl
    exact Verdict.settle_ne_unknown first second settles
  | goesOn steps _ _ ih =>
    exact ih fun d lower upper => known d lower (upper.trans steps.2.1)
  | ends _ =>
    rw [unsettledBack, if_pos reaches]
    exact Verdict.fails_ne_unknown

/-- Beyond the last instant that meets an event the trace goes no further. -/
theorem IsNext.not_reaches (ordered : Ordered events) (zero : 0 ∈ shifts)
    (last : IsNext (Meets events shifts) c none) : ¬ Reaches events (c + 1) := by
  intro reaches
  obtain ⟨newest, member, upTo⟩ := (reaches_iff ordered).1 reaches
  have := last _ ⟨newest, member, 0, zero, Int.add_zero _⟩
  omega

/-- A measurement is not cut short as long as the trace goes on. -/
theorem Accumulates.unknown_eq {finish : Int} {measure total : Measure} (ordered : Ordered events)
    (accumulates : Accumulates events shifts value finish c measure total) (zero : 0 ∈ shifts)
    (reaches : Reaches events finish) (known : ∀ d, c ≤ d → d < finish → value d ≠ .unknown) :
    total.unknown = measure.unknown := by
  induction accumulates with
  | done => rfl
  | cut within last => exact absurd (reaches.mono within) (last.not_reaches ordered zero)
  | @stretch c next measure total within isNext _ ih =>
    have ahead := isNext.2.1
    rw [ih fun d lower upper => known d (by omega) upper]
    unfold Tape.tally
    split
    · rfl
    · rfl
    · exact absurd ‹_› (known c le_rfl within)

end

namespace Tape

variable [DecidableEq α] {events : List (Event α)}

mutual

/-- Where the trace covers all that a formula looks at, its value is known. -/
theorem valueOf_ne_unknown (ordered : Ordered events) : (f : Formula α) → f.Bounded → (c : Int) →
    Covers events f.lookback f.lookahead c → (ofEvents events).valueOf f c ≠ .unknown
  | .top, _, c, covers => by
    obtain ⟨time, rfl⟩ := covers.exists_time
    rw [valueOf_toInstant]
    exact Verdict.holds_ne_unknown
  | .bot, _, c, covers => by
    obtain ⟨time, rfl⟩ := covers.exists_time
    rw [valueOf_toInstant]
    exact Verdict.fails_ne_unknown
  | .atom data, _, c, covers => by
    obtain ⟨time, rfl⟩ := covers.exists_time
    exact (valueOf_atom ordered data time).ne_unknown ordered covers
  | .neg f, bounded, c, covers => by
    rw [valueOf_neg]
    exact Verdict.not_ne_unknown (valueOf_ne_unknown ordered f bounded c covers)
  | .disj l r, bounded, c, covers => by
    rw [valueOf_disj ordered]
    exact Verdict.or_ne_unknown (valueOf_ne_unknown ordered l bounded.1 c covers.left)
      (valueOf_ne_unknown ordered r bounded.2 c covers.right)
  | .conj l r, bounded, c, covers => by
    rw [valueOf_conj ordered]
    exact Verdict.and_ne_unknown (valueOf_ne_unknown ordered l bounded.1 c covers.left)
      (valueOf_ne_unknown ordered r bounded.2 c covers.right)
  | .imp l r, bounded, c, covers => by
    rw [valueOf_imp ordered]
    exact Verdict.implies_ne_unknown (valueOf_ne_unknown ordered l bounded.1 c covers.left)
      (valueOf_ne_unknown ordered r bounded.2 c covers.right)
  | .untl none _ _, bounded, _, _ => nomatch bounded.1
  | .untl (some length) l r, bounded, c, covers => by
    obtain ⟨time, rfl⟩ := covers.exists_time
    obtain ⟨reaches, inside⟩ := Covers.window covers
    refine (valueOf_untl ordered l r (some length) time).ne_unknown reaches
      fun d lower upper => ?_
    have atD := inside d lower upper.le
    exact ⟨valueOf_ne_unknown ordered l bounded.2.1 d atD.left,
      valueOf_ne_unknown ordered r bounded.2.2 d atD.right⟩
  | .snce none _ _, bounded, _, _ => nomatch bounded.1
  | .snce (some length) l r, bounded, c, covers => by
    obtain ⟨time, rfl⟩ := covers.exists_time
    obtain ⟨reaches, inside⟩ := Covers.windowBack covers
    refine (valueOf_snce ordered l r (some length) time).ne_unknown reaches
      fun d lower upper => ?_
    have atD := inside d lower.le upper.le
    exact ⟨valueOf_ne_unknown ordered l bounded.2.1 d atD.left,
      valueOf_ne_unknown ordered r bounded.2.2 d atD.right⟩
  | .eventually .unbounded _, bounded, _, _ => absurd rfl bounded.1
  | .eventually (.exactly distance) f, bounded, c, covers => by
    obtain ⟨time, rfl⟩ := covers.exists_time
    rw [valueOf_eventually_exactly]
    refine valueOf_ne_unknown ordered f bounded.2 _ ((Covers.window covers).2 _ ?_ le_rfl)
    exact Int.le_add_of_nonneg_right distance.toInstant_nonneg
  | .eventually (.within length) f, bounded, c, covers => by
    obtain ⟨time, rfl⟩ := covers.exists_time
    obtain ⟨reaches, inside⟩ := Covers.window covers
    exact (valueOf_eventually ordered f (some length) time).ne_unknown reaches
      fun d lower upper =>
        ⟨Verdict.holds_ne_unknown,
          valueOf_ne_unknown ordered f bounded.2 d (inside d lower upper.le)⟩
  | .always .unbounded _, bounded, _, _ => absurd rfl bounded.1
  | .always (.exactly distance) f, bounded, c, covers => by
    obtain ⟨time, rfl⟩ := covers.exists_time
    rw [valueOf_always_exactly]
    refine valueOf_ne_unknown ordered f bounded.2 _ ((Covers.window covers).2 _ ?_ le_rfl)
    exact Int.le_add_of_nonneg_right distance.toInstant_nonneg
  | .always (.within length) f, bounded, c, covers => by
    obtain ⟨time, rfl⟩ := covers.exists_time
    obtain ⟨reaches, inside⟩ := Covers.window covers
    have opposite := (valueOf_always ordered f (some length) time).ne_unknown reaches
      fun d lower upper => ⟨Verdict.holds_ne_unknown, Verdict.not_ne_unknown
        (valueOf_ne_unknown ordered f bounded.2 d (inside d lower upper.le))⟩
    exact fun unknown => opposite (congrArg Verdict.not unknown)
  | .once .unbounded _, bounded, _, _ => absurd rfl bounded.1
  | .once (.exactly distance) f, bounded, c, covers => by
    obtain ⟨time, rfl⟩ := covers.exists_time
    rw [valueOf_once_exactly]
    refine valueOf_ne_unknown ordered f bounded.2 _ ((Covers.windowBack covers).2 _ le_rfl ?_)
    exact Int.sub_le_self _ distance.toInstant_nonneg
  | .once (.within length) f, bounded, c, covers => by
    obtain ⟨time, rfl⟩ := covers.exists_time
    obtain ⟨reaches, inside⟩ := Covers.windowBack covers
    exact (valueOf_once ordered f (some length) time).ne_unknown reaches
      fun d lower upper =>
        ⟨Verdict.holds_ne_unknown,
          valueOf_ne_unknown ordered f bounded.2 d (inside d lower.le upper.le)⟩
  | .historically .unbounded _, bounded, _, _ => absurd rfl bounded.1
  | .historically (.exactly distance) f, bounded, c, covers => by
    obtain ⟨time, rfl⟩ := covers.exists_time
    rw [valueOf_historically_exactly]
    refine valueOf_ne_unknown ordered f bounded.2 _ ((Covers.windowBack covers).2 _ le_rfl ?_)
    exact Int.sub_le_self _ distance.toInstant_nonneg
  | .historically (.within length) f, bounded, c, covers => by
    obtain ⟨time, rfl⟩ := covers.exists_time
    obtain ⟨reaches, inside⟩ := Covers.windowBack covers
    have opposite := (valueOf_historically ordered f (some length) time).ne_unknown reaches
      fun d lower upper => ⟨Verdict.holds_ne_unknown, Verdict.not_ne_unknown
        (valueOf_ne_unknown ordered f bounded.2 d (inside d lower.le upper.le))⟩
    exact fun unknown => opposite (congrArg Verdict.not unknown)
  | .less l r, bounded, c, covers => by
    obtain ⟨time, rfl⟩ := covers.exists_time
    have left := measureOf_unknown ordered l bounded.1 time covers.left
    have right := measureOf_unknown ordered r bounded.2 time covers.right
    rw [valueOf_less ordered]
    exact Measure.lessThan_ne_unknown left right

/-- Where the trace covers all that a term looks at, nothing of its value is unknown. -/
theorem measureOf_unknown (ordered : Ordered events) : (term : Term α) → term.Bounded →
    (time : Time) → Covers events term.lookback term.lookahead time.toInstant →
    ((ofEvents events).measureOf term time).unknown = false
  | .constant _, _, _, _ => rfl
  | .duration length f, bounded, time, covers => by
    obtain ⟨reaches, inside⟩ := Covers.window covers
    exact (measureOf_duration ordered f length time).unknown_eq ordered
      (Operand.mem_shifts.2 (.inl rfl)) reaches fun d lower upper =>
        valueOf_ne_unknown ordered f bounded d (inside d lower upper.le)
  | .sum l r, bounded, time, covers => by
    have left := measureOf_unknown ordered l bounded.1 time covers.left
    have right := measureOf_unknown ordered r bounded.2 time covers.right
    rw [measureOf_sum ordered, Measure.add, left, right]
    rfl

end

end Tape

namespace Cursor

variable [DecidableEq α] {cursor : Cursor} {ring : Ring α} {events : List (Event α)}

theorem evaluateTerm_eq_measureOf (shows : cursor.reader.Shows ring events)
    (ordered : Ordered events) (valid : Valid cursor.reader ring cursor.position) (term : Term α)
    (time : Time) :
    (cursor.evaluateTerm ring term time).1 = (Tape.ofEvents events).measureOf term time := by
  have yields := Tape.evaluateTerm_yields ordered term time
  rw [evaluateTerm, onTape, shows.tape_eq]
  exact yields.eq (onTape_consumed shows valid)

/-- The answer is never unknown where the window covers all that the formula or the term looks at,
from its oldest event to its newest. -/
theorem evaluate_known (shows : cursor.reader.Shows ring events) (ordered : Ordered events)
    (valid : Valid cursor.reader ring cursor.position) (time : Time) :
    (∀ f : Formula α, f.Bounded → Covers events f.lookback f.lookahead time.toInstant →
      (cursor.evaluate ring f time).1 ≠ .unknown) ∧
    ∀ term : Term α, term.Bounded → Covers events term.lookback term.lookahead time.toInstant →
      (cursor.evaluateTerm ring term time).1.unknown = false := by
  refine ⟨fun f bounded covers => ?_, fun term bounded covers => ?_⟩
  · rw [evaluate_eq_valueOf shows ordered valid]
    exact Tape.valueOf_ne_unknown ordered f bounded _ covers
  · rw [evaluateTerm_eq_measureOf shows ordered valid]
    exact Tape.measureOf_unknown ordered term bounded time covers

/-- A term that looks back to the oldest event and ahead to the newest one. -/
theorem evaluate_known_wrapped :
    (wrappedCursor.evaluate wrappedRing (.less
      (.duration (.ofNanos 2) (.once (.within (.ofNanos 2)) (.atom false)))
      (.constant (.ofNanos 1))) (.ofNanos 7)).1 ≠ .unknown ∧
    (wrappedCursor.evaluateTerm wrappedRing
      (.duration (.ofNanos 2) (.once (.within (.ofNanos 2)) (.atom false)))
      (.ofNanos 7)).1.unknown = false := by
  obtain ⟨formulas, terms⟩ :=
    evaluate_known wrappedCursor_shows (by decide) (by decide) (.ofNanos 7)
  exact ⟨formulas _ ⟨⟨nofun, trivial⟩, trivial⟩ ⟨by decide, by decide⟩,
    terms _ ⟨nofun, trivial⟩ ⟨by decide, by decide⟩⟩

end Cursor

end TimedTrace
