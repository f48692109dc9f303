import TimedTrace.Proofs.Dense

namespace TimedTrace

variable {α : Type} {events : List (Event α)} {offsets : List Int} {c d stop : Int}

/-- The instants at which an event meets an offset. -/
def changePoints (events : List (Event α)) (offsets : List Int) : List Int :=
  events.flatMap fun event => offsets.map fun offset => event.time.toInstant - offset

theorem mem_changePoints : c ∈ changePoints events offsets ↔ Meets events offsets c := by
  unfold changePoints
  simp only [List.mem_flatMap, List.mem_map]
  constructor
  · rintro ⟨event, atEvent, offset, atOffset, rfl⟩
    exact ⟨event, atEvent, offset, atOffset, Int.sub_add_cancel ..⟩
  · rintro ⟨event, atEvent, offset, atOffset, meets⟩
    exact ⟨event, atEvent, offset, atOffset, by omega⟩

theorem length_changePoints (events : List (Event α)) (offsets : List Int) :
    (changePoints events offsets).length = events.length * offsets.length := by
  simp [changePoints, List.length_flatMap]

/-- Nothing is met where no event less an offset lies. -/
theorem quiet_iff : Quiet events offsets c d ↔ ∀ event ∈ events, ∀ offset ∈ offsets,
    ¬ (c < event.time.toInstant - offset ∧ event.time.toInstant - offset ≤ d) := by
  constructor
  · rintro quiet event atEvent offset atOffset ⟨after, upTo⟩
    exact quiet _ after upTo ⟨event, atEvent, offset, atOffset, Int.sub_add_cancel ..⟩
  · rintro apart x after upTo ⟨event, atEvent, offset, atOffset, meets⟩
    exact apart event atEvent offset atOffset ⟨by omega, by omega⟩

/-- The change point that is last up to an instant, or the start if there is none. -/
theorem exists_last_changePoint (events : List (Event α)) (offsets : List Int) (lower : 0 ≤ d) :
    ∃ c, (c = 0 ∨ c ∈ changePoints events offsets) ∧ 0 ≤ c ∧ c ≤ d ∧ Quiet events offsets c d := by
  let passed := (insert 0 (changePoints events offsets).toFinset).filter fun c => 0 ≤ c ∧ c ≤ d
  have start : 0 ∈ passed := by simp [passed, lower]
  obtain ⟨c, atC, last⟩ := passed.exists_max_image id ⟨0, start⟩
  simp only [passed, Finset.mem_filter, Finset.mem_insert, List.mem_toFinset, id] at atC last
  obtain ⟨point, fromStart, upTo⟩ := atC
  refine ⟨c, point, fromStart, upTo, fun x after early meets => ?_⟩
  have notAfter := last x ⟨.inr (mem_changePoints.2 meets), by omega, early⟩
  omega

/-- The instants up to the last one at which the value is not what it was just before. -/
noncomputable def changes (value : Int → Verdict) (stop : Int) : Finset Int :=
  (Finset.Ioc 0 stop).filter fun d => value (d - 1) ≠ value d

namespace Regular

variable {value : Int → Verdict} (regular : Regular events offsets value)

include regular

theorem changes_subset (reaches : Reaches events stop) :
    changes value stop ⊆ (changePoints events offsets).toFinset := by
  intro d changed
  obtain ⟨inside, differs⟩ := Finset.mem_filter.1 changed
  obtain ⟨after, upTo⟩ := Finset.mem_Ioc.1 inside
  rw [List.mem_toFinset, mem_changePoints]
  by_contra nothing
  refine differs (regular.constant (d - 1) d (by omega) (by omega) (reaches.mono upTo) ?_)
  intro x above below meets
  obtain rfl : x = d := by omega
  exact nothing meets

/-- As long as the trace lasts, a value changes at most once for each event and offset. -/
theorem card_changes_le (reaches : Reaches events stop) :
    (changes value stop).card ≤ events.length * offsets.length :=
  calc (changes value stop).card
      ≤ (changePoints events offsets).toFinset.card :=
        Finset.card_le_card (regular.changes_subset reaches)
    _ ≤ (changePoints events offsets).length := List.toFinset_card_le _
    _ = events.length * offsets.length := length_changePoints events offsets

/-- As long as the trace lasts, a value was given at a change point already, or at the start. -/
theorem exists_changePoint (lower : 0 ≤ d) (reaches : Reaches events d) :
    ∃ c, (c = 0 ∨ c ∈ changePoints events offsets) ∧ 0 ≤ c ∧ c ≤ d ∧ value c = value d := by
  obtain ⟨c, point, fromStart, upTo, quiet⟩ := exists_last_changePoint events offsets lower
  exact ⟨c, point, fromStart, upTo, regular.constant c d fromStart upTo reaches quiet⟩

end Regular

namespace Cursor

section

variable [DecidableEq α] {cursor : Cursor} {ring : Ring α} {f : Formula α}
  (shows : cursor.reader.Shows ring events) (ordered : Ordered events)
  (valid : Valid cursor.reader ring cursor.position) (plain : f.PlainFuture)
  (anchored : f.Anchored)

include shows ordered valid plain anchored

/-- Evaluation gives the same verdict at two instants of the trace if no event less an offset of the
formula lies after the first and up to the second. -/
theorem evaluate_eq_of_apart {newest : Event α} (last : events.getLast? = some newest)
    {c d : Time} (before : c < d) (upTo : d ≤ newest.time)
    (apart : ∀ event ∈ events, ∀ offset ∈ f.offsets,
      ¬ (c.toInstant < event.time.toInstant - offset ∧
        event.time.toInstant - offset ≤ d.toInstant)) :
    (cursor.evaluate ring f c).1 = (cursor.evaluate ring f d).1 := by
  have regular := Tape.regular_of_plainFuture ordered plain anchored
  have reaches : Reaches events d.toInstant := ⟨newest, last, Time.toInstant_le_iff.2 upTo⟩
  have advances : c.toInstant ≤ d.toInstant := Time.toInstant_le_iff.2 (Nat.le_of_lt before)
  rw [evaluate_eq_valueOf shows ordered valid, evaluate_eq_valueOf shows ordered valid]
  exact regular.constant _ _ c.toInstant_nonneg advances reaches (quiet_iff.2 apart)

theorem regular_valueOf : Regular events f.offsets (cursor.valueOf ring f) := by
  rw [valueOf_eq shows ordered valid f]
  exact Tape.regular_of_plainFuture ordered plain anchored

theorem card_changes_le (reaches : Reaches events stop) :
    (changes (cursor.valueOf ring f) stop).card ≤ events.length * f.offsets.length :=
  (regular_valueOf shows ordered valid plain anchored).card_changes_le reaches

theorem exists_changePoint (lower : 0 ≤ d) (reaches : Reaches events d) :
    ∃ c, (c = 0 ∨ c ∈ changePoints events f.offsets) ∧ 0 ≤ c ∧ c ≤ d ∧
      cursor.valueOf ring f c = cursor.valueOf ring f d :=
  (regular_valueOf shows ordered valid plain anchored).exists_changePoint lower reaches

end

/-- The far end of the window meets the last event at 6, and neither end meets one after that and up
to 8. -/
theorem evaluate_eq_of_apart_wrapped :
    (Formula.untl (some (.ofNanos 4)) (.atom true)
      (.eventually (.within (.ofNanos 1)) (.atom false))).offsets = [0, 3] ∧
    (wrappedCursor.evaluate wrappedRing (.untl (some (.ofNanos 4)) (.atom true)
      (.eventually (.within (.ofNanos 1)) (.atom false))) (.ofNanos 6)).1 = .holds ∧
    (wrappedCursor.evaluate wrappedRing (.untl (some (.ofNanos 4)) (.atom true)
      (.eventually (.within (.ofNanos 1)) (.atom false))) (.ofNanos 8)).1 = .holds := by
  have offsets : (Formula.untl (some (.ofNanos 4)) (.atom true)
      (.eventually (.within (.ofNanos 1)) (.atom false))).offsets = [0, 3] := by cbv
  have atSix : (wrappedCursor.evaluate wrappedRing (.untl (some (.ofNanos 4)) (.atom true)
      (.eventually (.within (.ofNanos 1)) (.atom false))) (.ofNanos 6)).1 = .holds := by cbv
  have plain : (Formula.untl (some (.ofNanos 4)) (.atom true)
      (.eventually (.within (.ofNanos 1)) (.atom false))).PlainFuture :=
    .untl _ (.atom _) (.eventually (some _) (.atom _))
  have anchored : (Formula.untl (some (.ofNanos 4)) (.atom true)
      (.eventually (.within (.ofNanos 1)) (.atom false))).Anchored := by
    simp [Formula.Anchored, Formula.HasAtom]
  have same := evaluate_eq_of_apart (c := .ofNanos 6) (d := .ofNanos 8) wrappedCursor_shows
    (by decide) (by decide) plain anchored rfl (by decide) (by decide) (by rw [offsets]; decide)
  exact ⟨offsets, atSix, same.symm.trans atSix⟩

end Cursor

end TimedTrace
