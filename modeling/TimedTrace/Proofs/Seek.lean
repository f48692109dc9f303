import TimedTrace.Proofs.Trace

namespace TimedTrace

variable {α β γ : Type} {events : List (Event α)}

/-- The number of events before the first one that is after `time`. -/
def border (events : List (Event α)) (time : Time) : Nat :=
  (events.takeWhile fun event => decide (event.time ≤ time)).length

theorem border_le_length (events : List (Event α)) (time : Time) :
    border events time ≤ events.length :=
  (List.takeWhile_prefix _).length_le

theorem lt_border_iff (ordered : Ordered events) (time : Time) {i : Nat} {event : Event α}
    (atI : events[i]? = some event) : i < border events time ↔ event.time ≤ time := by
  induction events generalizing i with
  | nil => simp at atI
  | cons first rest ih =>
    obtain ⟨below, tail⟩ := List.pairwise_cons.1 ordered
    by_cases early : first.time ≤ time
    · cases i with
      | zero =>
        simp only [List.getElem?_cons_zero, Option.some.injEq] at atI
        simp [border, early, ← atI]
      | succ i =>
        have := ih tail (by simpa using atI)
        simpa [border, early] using this
    · have none : border (first :: rest) time = 0 := by simp [border, early]
      rw [none]
      refine iff_of_false (Nat.not_lt_zero i) fun late => early ?_
      have := ordered.le (Nat.zero_le i) List.getElem?_cons_zero atI
      exact Time.toInstant_le_iff.1 (this.trans (Time.toInstant_le_iff.2 late))

namespace Tape

/-- The head stands on a cell, or at the start of a tape without cells. -/
def OnTape (tape : Tape α) (head : Nat) : Prop := head < tape.size ∨ head = 0

/-- From wherever the head stands the scan gives this answer, and it leaves the head on the
tape. -/
def Yields (tape : Tape α) (scan : Scan β) (answer : β) : Prop :=
  ∀ head, tape.OnTape head → ∃ stop, scan head = (answer, stop) ∧ tape.OnTape stop

theorem onTape_zero (tape : Tape α) : tape.OnTape 0 := .inr rfl

theorem Yields.eq {tape : Tape α} {scan : Scan β} {answer : β} (yields : tape.Yields scan answer)
    {head : Nat} (onTape : tape.OnTape head) : (scan head).1 = answer := by
  obtain ⟨stop, run, _⟩ := yields head onTape
  rw [run]

theorem yields_answer (tape : Tape α) (answer : β) : tape.Yields (Scan.answer answer) answer :=
  fun head onTape => ⟨head, rfl, onTape⟩

theorem Yields.map {tape : Tape α} {scan : Scan β} {answer : β} (yields : tape.Yields scan answer)
    (f : β → γ) : tape.Yields (Scan.map f scan) (f answer) := by
  intro head onTape
  obtain ⟨stop, run, stopOn⟩ := yields head onTape
  exact ⟨stop, by simp [Scan.map, run], stopOn⟩

theorem Yields.restoring {tape : Tape α} {scan : Scan β} {answer : β}
    (yields : tape.Yields scan answer) : tape.Yields (tape.restoring scan) answer := by
  intro head onTape
  refine ⟨if head < tape.size then head else 0, ?_, ?_⟩
  · simp [Tape.restoring, yields.eq onTape]
  · split
    · exact .inl ‹_›
    · exact .inr rfl

theorem timeAt_ofEvents (events : List (Event α)) (i : Nat) :
    (ofEvents events).timeAt i = events[i]?.map fun event => event.time.toInstant := by
  unfold timeAt
  rw [read_ofEvents]
  cases events[i]? <;> rfl

/-- Going back, the head stops at the last event not after the time, unless it stands before it. -/
theorem rewind_ofEvents (ordered : Ordered events) (time : Time) {head : Nat}
    (room : head < events.length) :
    (ofEvents events).rewind time head =
      if border events time = 0 then (.error .unavailable, 0)
      else (.ok (), min head (border events time - 1)) := by
  induction head with
  | zero =>
    have atHead := List.getElem?_eq_getElem room
    unfold rewind
    rw [read_ofEvents, atHead]
    dsimp only
    by_cases early : events[0].time ≤ time
    · have := (lt_border_iff ordered time atHead).2 early
      rw [if_pos early, if_neg (by omega), Nat.zero_min]
    · have := mt (lt_border_iff ordered time atHead).1 early
      rw [if_neg early, if_pos (by omega)]
  | succ head ih =>
    have atHead := List.getElem?_eq_getElem room
    unfold rewind
    rw [read_ofEvents, atHead]
    dsimp only
    by_cases early : events[head + 1].time ≤ time
    · have := (lt_border_iff ordered time atHead).2 early
      rw [if_pos early, if_neg (by omega), Nat.min_eq_left (by omega)]
    · have := mt (lt_border_iff ordered time atHead).1 early
      rw [if_neg early, ih (by omega)]
      split
      · rfl
      · rw [Nat.min_eq_right (by omega), Nat.min_eq_right (by omega)]

/-- Going on, the head stops at the last event not after the time. -/
theorem advance_ofEvents (ordered : Ordered events) (time : Time) {head : Nat}
    (before : head < border events time) :
    (ofEvents events).advance time head = (.ok (), border events time - 1) := by
  have bound := border_le_length events time
  rw [advance, size_ofEvents]
  by_cases last : head + 1 < events.length
  · rw [if_pos last, readNext, read_ofEvents, List.getElem?_eq_getElem last]
    dsimp only
    have next := lt_border_iff ordered time (List.getElem?_eq_getElem last)
    by_cases early : events[head + 1].time ≤ time
    · rw [if_pos early]
      exact advance_ofEvents ordered time (next.2 early)
    · have := mt next.1 early
      rw [if_neg early, show head = border events time - 1 by omega]
  · rw [if_neg last, show head = border events time - 1 by omega]
termination_by events.length - head

/-- A search ends at the last event not after the time, and fails at the oldest event if there is
none. -/
theorem seek_ofEvents (ordered : Ordered events) (time : Time) {head : Nat}
    (onTape : (ofEvents events).OnTape head) :
    (ofEvents events).seek time head =
      if border events time = 0 then (.error .unavailable, 0)
      else (.ok (), border events time - 1) := by
  rcases Nat.eq_zero_or_pos events.length with empty | room
  · have bound := border_le_length events time
    have atStart : head = 0 := by
      rcases onTape with inside | start
      · rw [size_ofEvents] at inside
        omega
      · exact start
    rw [if_pos (by omega), atStart, seek, rewind, read_ofEvents,
      List.getElem?_eq_none (by omega)]
  · have inside : head < events.length := by
      rcases onTape with inside | start
      · rwa [size_ofEvents] at inside
      · omega
    rw [seek, rewind_ofEvents ordered time inside]
    by_cases nothing : border events time = 0
    · rw [if_pos nothing, if_pos nothing]
    · rw [if_neg nothing, if_neg nothing]
      exact advance_ofEvents ordered time (by omega)

theorem onTape_border {time : Time} (some : border events time ≠ 0) :
    (ofEvents events).OnTape (border events time - 1) := by
  have := border_le_length events time
  exact .inl (by rw [size_ofEvents]; omega)

end Tape

end TimedTrace
