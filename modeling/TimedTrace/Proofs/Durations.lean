import TimedTrace.Proofs.Coverage
import TimedTrace.Proofs.Dense

namespace TimedTrace

variable {α : Type}

/-- Not zero. -/
def Bound.Positive : Bound → Prop
  | .within length => .zero < length
  | .exactly distance => .zero < distance
  | .unbounded => True

mutual

/-- No bound in the formula is zero. -/
def Formula.Positive : Formula α → Prop
  | .top | .bot | .atom _ => True
  | .neg f => f.Positive
  | .disj l r | .conj l r | .imp l r => l.Positive ∧ r.Positive
  | .untl bound l r | .snce bound l r => (Bound.upTo bound).Positive ∧ l.Positive ∧ r.Positive
  | .eventually bound f | .always bound f | .once bound f | .historically bound f =>
    bound.Positive ∧ f.Positive
  | .less l r => l.Positive ∧ r.Positive

def Term.Positive : Term α → Prop
  | .constant _ => True
  | .duration length f => .zero < length ∧ f.Positive
  | .sum l r => l.Positive ∧ r.Positive

end

theorem nonneg_of_mem_futureEnds {bound : Option Time} (positive : (Bound.upTo bound).Positive)
    {shift : Int} (member : shift ∈ futureEnds bound) : 0 ≤ shift := by
  cases bound with
  | none =>
    rw [futureEnds, List.mem_singleton] at member
    omega
  | some length =>
    have longer : 0 < length.toInstant := Int.natCast_pos.2 positive
    simp only [futureEnds, List.mem_cons, List.not_mem_nil, or_false] at member
    omega

/-- Windows that have instants move no offset down. -/
theorem nonneg_of_mem_widen {inner : List Int} {bound : Option Time}
    (positive : (Bound.upTo bound).Positive) (nonnegative : ∀ offset ∈ inner, 0 ≤ offset)
    {offset : Int} (member : offset ∈ widen inner (futureEnds bound)) : 0 ≤ offset := by
  obtain ⟨from_inner, atInner, shift, atShift, rfl⟩ := mem_widen.1 member
  have := nonnegative from_inner atInner
  have := nonneg_of_mem_futureEnds positive atShift
  omega

theorem nonneg_of_mem_union {left right : List Int} (first : ∀ offset ∈ left, 0 ≤ offset)
    (second : ∀ offset ∈ right, 0 ≤ offset) : ∀ offset ∈ union left right, 0 ≤ offset :=
  fun offset member => (mem_union.1 member).elim (first offset) (second offset)

theorem Formula.PlainFuture.offsets_nonneg {f : Formula α} (plain : f.PlainFuture)
    (positive : f.Positive) : ∀ offset ∈ f.offsets, 0 ≤ offset := by
  induction plain with
  | top => simp [Formula.offsets]
  | bot => simp [Formula.offsets]
  | atom data => simp [Formula.offsets]
  | neg _ ih => exact ih positive
  | disj _ _ left right => exact nonneg_of_mem_union (left positive.1) (right positive.2)
  | conj _ _ left right => exact nonneg_of_mem_union (left positive.1) (right positive.2)
  | imp _ _ left right => exact nonneg_of_mem_union (left positive.1) (right positive.2)
  | untl bound _ _ left right =>
    obtain ⟨longer, leftPositive, rightPositive⟩ := positive
    exact fun _ => nonneg_of_mem_widen longer
      (nonneg_of_mem_union (left leftPositive) (right rightPositive))
  | eventually bound _ ih =>
    rw [offsets_eventually]
    exact fun _ => nonneg_of_mem_widen positive.1 (ih positive.2)
  | always bound _ ih =>
    rw [offsets_always]
    exact fun _ => nonneg_of_mem_widen positive.1 (ih positive.2)

/-- The instants from `start` on that lie before `finish` and before the newest event. -/
noncomputable def covered (events : List (Event α)) (start finish : Int) : Finset Int :=
  match events.getLast? with
  | some newest => Finset.Ico start (min finish newest.time.toInstant)
  | none => ∅

/-- The number of these instants at which the value holds. -/
noncomputable def holding (events : List (Event α)) (value : Int → Verdict) (start finish : Int) :
    Nat :=
  ((covered events start finish).filter (value · = .holds)).card

variable {events : List (Event α)}

section

variable {start middle finish c : Int}

theorem mem_covered :
    c ∈ covered events start finish ↔ start ≤ c ∧ c < finish ∧ Reaches events (c + 1) := by
  unfold covered Reaches
  cases events.getLast? with
  | none => simp
  | some newest =>
    simp only [Finset.mem_Ico, lt_min_iff, Option.mem_some_iff, exists_eq_left', Int.add_one_le_iff]

theorem covered_eq_empty (nothing : start < finish → ¬ Reaches events (start + 1)) :
    covered events start finish = ∅ := by
  refine Finset.eq_empty_of_forall_notMem fun c member => ?_
  obtain ⟨after, before, reaches⟩ := mem_covered.1 member
  exact nothing (by omega) (reaches.mono (by omega))

/-- Up to a point that the trace reaches every instant is covered. -/
theorem covered_eq_union (upTo : start ≤ middle) (inside : middle ≤ finish)
    (reaches : Reaches events middle) :
    covered events start finish = Finset.Ico start middle ∪ covered events middle finish := by
  ext c
  rw [Finset.mem_union, Finset.mem_Ico, mem_covered, mem_covered]
  constructor
  · rintro ⟨after, before, reached⟩
    by_cases early : c < middle
    · exact .inl ⟨after, early⟩
    · exact .inr ⟨Int.not_lt.1 early, before, reached⟩
  · rintro (⟨after, early⟩ | ⟨late, before, reached⟩)
    · exact ⟨after, by omega, reaches.mono (by omega)⟩
    · exact ⟨by omega, before, reached⟩

variable {value : Int → Verdict}

theorem holding_eq_add (upTo : start ≤ middle) (inside : middle ≤ finish)
    (reaches : Reaches events middle) (same : ∀ d, start ≤ d → d < middle → value d = value start) :
    holding events value start finish =
      (if value start = .holds then (middle - start).toNat else 0) +
        holding events value middle finish := by
  have apart : Disjoint (Finset.Ico start middle) (covered events middle finish) := by
    refine Finset.disjoint_left.2 fun d early late => ?_
    have := (Finset.mem_Ico.1 early).2
    have := (mem_covered.1 late).1
    omega
  have stretch : (Finset.Ico start middle).filter (value · = .holds) =
      if value start = .holds then Finset.Ico start middle else ∅ := by
    rw [← Finset.filter_const]
    refine Finset.filter_congr fun d member => ?_
    rw [same d (Finset.mem_Ico.1 member).1 (Finset.mem_Ico.1 member).2]
  rw [holding, covered_eq_union upTo inside reaches, Finset.filter_union,
    Finset.card_union_of_disjoint (Finset.disjoint_filter_filter apart), stretch, holding]
  split
  · rw [Int.card_Ico]
  · rfl

theorem exists_unknown_iff (ahead : start < middle) (inside : middle ≤ finish)
    (reaches : Reaches events middle) (same : ∀ d, start ≤ d → d < middle → value d = value start) :
    (∃ d ∈ covered events start finish, value d = .unknown) ↔
      value start = .unknown ∨ ∃ d ∈ covered events middle finish, value d = .unknown := by
  rw [covered_eq_union ahead.le inside reaches]
  constructor
  · rintro ⟨d, member, unknown⟩
    rcases Finset.mem_union.1 member with early | late
    · obtain ⟨after, before⟩ := Finset.mem_Ico.1 early
      exact .inl ((same d after before).symm.trans unknown)
    · exact .inr ⟨d, late, unknown⟩
  · rintro (unknown | ⟨d, late, unknown⟩)
    · exact ⟨start, Finset.mem_union_left _ (Finset.mem_Ico.2 ⟨le_rfl, ahead⟩), unknown⟩
    · exact ⟨d, Finset.mem_union_right _ late, unknown⟩

end

namespace Tape

variable {measure : Measure} {verdict : Verdict} {length : Int}

theorem tally_value (room : measure.value.nanos + length.toNat ≤ maxNanos) :
    (tally measure verdict length).value.nanos =
      measure.value.nanos + if verdict = .holds then length.toNat else 0 := by
  cases verdict with
  | holds =>
    simp only [tally, Measure.extend, Time.add, Time.ofNanos, if_true]
    omega
  | fails => rfl
  | unknown => rfl

theorem tally_unknown : (tally measure verdict length).unknown = true ↔
    measure.unknown = true ∨ verdict = .unknown := by
  cases verdict with
  | holds => simp [tally, Measure.extend]
  | fails => simp [tally]
  | unknown => simp [tally, Measure.taint]

end Tape

section

variable {offsets shifts : List Int} {value : Int → Verdict} {finish c next : Int}
  {measure total : Measure}

/-- Between `measure` and `total` the instants from `c` on were counted. -/
structure Counts (events : List (Event α)) (value : Int → Verdict) (finish c : Int)
    (measure total : Measure) : Prop where
  amount : total.value.nanos = measure.value.nanos + holding events value c finish
  unknown : total.unknown = true ↔ measure.unknown = true ∨
    (c < finish ∧ ¬ Reaches events finish) ∨ ∃ d ∈ covered events c finish, value d = .unknown

/-- Where no instant is left before the newest event, there is nothing to count. -/
theorem Counts.nothing (nothing : c < finish → ¬ Reaches events (c + 1))
    (same : total.value = measure.value) (unknown : total.unknown = true ↔ measure.unknown = true ∨ c < finish) :
    Counts events value finish c measure total := by
  have empty := covered_eq_empty nothing
  refine ⟨by rw [same, holding, empty]; rfl, ?_⟩
  have beyond : c < finish ∧ ¬ Reaches events finish ↔ c < finish :=
    and_iff_left_of_imp fun within reaches => nothing within (reaches.mono (by omega))
  simp [unknown, beyond, empty]

/-- A stretch on which the value stays the same is counted as a whole. -/
theorem Counts.stretch {stop : Int} (ahead : c < stop) (inside : stop ≤ finish)
    (reaches : Reaches events stop) (same : ∀ d, c ≤ d → d < stop → value d = value c)
    (room : measure.value.nanos + (stop - c).toNat ≤ maxNanos)
    (rest : Counts events value finish stop (Tape.tally measure (value c) (stop - c)) total) :
    Counts events value finish c measure total := by
  constructor
  · rw [rest.amount, Tape.tally_value room, holding_eq_add ahead.le inside reaches same,
      Nat.add_assoc]
  · have open_iff : stop < finish ∧ ¬ Reaches events finish ↔
        c < finish ∧ ¬ Reaches events finish := by
      refine and_congr_left fun short => ⟨ahead.trans, fun _ => lt_of_le_of_ne inside ?_⟩
      rintro rfl
      exact short reaches
    rw [rest.unknown, Tape.tally_unknown, open_iff, exists_unknown_iff ahead inside reaches same]
    tauto

theorem reaches_of_meets (ordered : Ordered events) (nonnegative : ∀ shift ∈ shifts, 0 ≤ shift)
    (meets : Meets events shifts c) : Reaches events c := by
  obtain ⟨event, member, shift, atShift, same⟩ := meets
  have := nonnegative shift atShift
  exact (reaches_iff ordered).2 ⟨event, member, by omega⟩

/-- A measurement over values that change with events only, and with none that lies ahead, counts
the instants one by one. -/
theorem Accumulates.counts (ordered : Ordered events) (regular : Regular events offsets value)
    (atShifts : ∀ shift, shift ∈ shifts ↔ shift = 0 ∨ shift ∈ offsets)
    (nonnegative : ∀ offset ∈ offsets, 0 ≤ offset)
    (accumulates : Accumulates events shifts value finish c measure total) (lower : 0 ≤ c)
    (room : measure.value.nanos ≤ c) : Counts events value finish c measure total := by
  have zero : 0 ∈ shifts := (atShifts 0).2 (.inl rfl)
  have included := fun offset member => (atShifts offset).2 (.inr member)
  have upward : ∀ shift ∈ shifts, 0 ≤ shift := fun shift member =>
    ((atShifts shift).1 member).elim Eq.ge (nonnegative shift)
  induction accumulates with
  | done passed =>
    exact .nothing (fun within => absurd within (Int.not_lt.2 passed)) rfl
      (by simp [Int.not_lt.2 passed])
  | cut within last =>
    exact .nothing (fun _ => last.not_reaches ordered zero) rfl
      (by simp [Measure.taint, within])
  | @stretch c next measure total within isNext _ ih =>
    have ahead : c < min next finish := lt_min isNext.2.1 within
    have reaches : Reaches events (min next finish) :=
      (reaches_of_meets ordered upward isNext.1).mono (min_le_left _ _)
    -- What was measured so far is not longer than the time that has passed, so nothing overflows.
    have fits : measure.value.nanos + (min next finish - c).toNat ≤ maxNanos := by
      have := reaches.le_maxNanos
      omega
    refine .stretch ahead (min_le_right _ _) reaches (fun d upTo before => ?_) fits
      (ih (by omega) ?_)
    · have quiet := isNext.quiet fun instant same => by
        cases same
        exact (lt_min_iff.1 before).1
      exact (regular.constant c d lower upTo (reaches.mono before.le)
        (quiet.subset included)).symm
    · rw [Tape.tally_value fits]
      split
      · omega
      · omega

end

namespace Cursor

variable [DecidableEq α] {cursor : Cursor} {ring : Ring α}

/-- A duration counts the instants of its window at which the formula holds. -/
theorem duration_counts (shows : cursor.reader.Shows ring events) (ordered : Ordered events)
    (valid : Valid cursor.reader ring cursor.position) {f : Formula α} (plain : f.PlainFuture)
    (anchored : f.Anchored) (positive : f.Positive) (length time : Time) :
    (cursor.evaluateTerm ring (.duration length f) time).1.value.nanos =
        holding events (cursor.valueOf ring f) time.toInstant
          (time.toInstant + length.toInstant) ∧
      ((cursor.evaluateTerm ring (.duration length f) time).1.unknown = true ↔
        (.zero < length ∧ ¬ Reaches events (time.toInstant + length.toInstant)) ∨
          ∃ c ∈ covered events time.toInstant (time.toInstant + length.toInstant),
            cursor.valueOf ring f c = .unknown) := by
  have counts := (Tape.measureOf_duration ordered f length time).counts ordered
    (Tape.regular_of_plainFuture ordered plain anchored) (fun _ => Operand.mem_shifts)
    (plain.offsets_nonneg positive) time.toInstant_nonneg time.toInstant_nonneg
  have longer : time.toInstant < time.toInstant + length.toInstant ↔ .zero < length :=
    (lt_add_iff_pos_right _).trans Int.natCast_pos
  rw [evaluateTerm_eq_measureOf shows ordered valid, valueOf_eq shows ordered valid, counts.amount,
    counts.unknown, longer]
  simp [Measure.known, Time.zero]

/-- It is unknown at one of five instants, before the oldest event, and holds at the others. -/
theorem duration_counts_wrapped :
    (wrappedCursor.evaluateTerm wrappedRing (.duration (.ofNanos 5)
      (.disj (.atom false) (.eventually (.within (.ofNanos 2)) (.atom true))))
      (.ofNanos 4)).1.value.nanos = 4 ∧
    (wrappedCursor.evaluateTerm wrappedRing (.duration (.ofNanos 5)
      (.disj (.atom false) (.eventually (.within (.ofNanos 2)) (.atom true))))
      (.ofNanos 4)).1.unknown = true := by
  have plain : (Formula.disj (.atom false)
      (.eventually (.within (.ofNanos 2)) (.atom true))).PlainFuture :=
    .disj (.atom _) (.eventually (some _) (.atom _))
  have anchored : (Formula.disj (.atom false)
      (.eventually (.within (.ofNanos 2)) (.atom true))).Anchored := by
    simp [Formula.Anchored, Formula.HasAtom]
  have positive : (Formula.disj (.atom false)
      (.eventually (.within (.ofNanos 2)) (.atom true))).Positive :=
    ⟨trivial, Time.lt_def.2 (by decide), trivial⟩
  obtain ⟨amount, unknown⟩ := duration_counts wrappedCursor_shows (by decide) (by decide)
    plain anchored positive (.ofNanos 5) (.ofNanos 4)
  refine ⟨amount.trans ?_, unknown.2 (.inr ⟨4, mem_covered.2 ⟨le_rfl, by decide, by decide⟩, ?_⟩)⟩
  · cbv
  · cbv

end Cursor

end TimedTrace
