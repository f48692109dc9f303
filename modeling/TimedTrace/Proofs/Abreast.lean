import TimedTrace.Proofs.Tracking
import TimedTrace.Proofs.Traffic
import TimedTrace.Session.Command

namespace TimedTrace

/-- If the call was refused, it has left what it was made on as it was. -/
def Spares {β σ : Type} (before : σ) (called : Except ReaderError β × σ) : Prop :=
  ∀ cause, called.1 = .error cause → called.2 = before

section

variable {β σ : Type} {before after : σ}

theorem spares_error (cause : ReaderError) :
    Spares before ((.error cause, before) : Except ReaderError β × σ) :=
  fun _ _ => rfl

theorem spares_ok (answer : β) : Spares before (.ok answer, after) :=
  fun _ refused => nomatch refused

end

namespace Reader

variable {α : Type}

/-- The reader is up to date with the ring. Nothing unread is lost, its window ends where that of
the ring does, and it watches its next event unless the ring has none for it. -/
structure Abreast (reader : Reader) (ring : Ring α) (probe : Probe) : Prop where
  watching : reader.probe = some probe
  safe : reader.lost probe ring = false
  top : reader.window.top = ring.window.top
  watches : probe.index = reader.window.bottom ∨ ring.window.top = reader.window.bottom

section

variable {reader : Reader} {ring : Ring α} {probe : Probe}

theorem index_of_watch {index : Nat} (looked : watch ring index = .ok probe) :
    probe.index = index := by
  unfold watch at looked
  split at looked
  · cases looked
  · split at looked
    · cases looked
      rfl
    · cases looked
      rfl

/-- A slot has not changed since it was looked at just now. -/
theorem changed_of_watch {index : Nat} (looked : watch ring index = .ok probe) :
    changed probe ring = false := by
  unfold watch at looked
  split at looked
  · cases looked
  · rename_i slot atIndex
    unfold changed
    split at looked
    · rename_i event held
      cases looked
      simp [atIndex, held, Time.lt_def]
    · rename_i held
      cases looked
      simp [atIndex, held]

theorem lost_eq_false_iff : reader.lost probe ring = false ↔
    ring.within ring.window reader.window.bottom = true ∧ changed probe ring = false := by
  simp [lost]

theorem Abreast.gap_eq (abreast : reader.Abreast ring probe) : reader.gap ring = false := by
  unfold gap
  rw [abreast.watching]
  exact abreast.safe

theorem Abreast.synchronize_eq (abreast : reader.Abreast ring probe) :
    reader.synchronize ring = (.ok .soft, reader) := by
  obtain ⟨isProbe, safe, top, watches⟩ := abreast
  have still : ¬ (probe.index ≠ reader.window.bottom ∧
      ring.window.top ≠ reader.window.bottom) := by
    rintro ⟨elsewhere, more⟩
    exact watches.elim elsewhere more
  simp only [synchronize, isProbe, safe, Bool.false_eq_true, if_false]
  rw [if_neg still, ← top, ← isProbe]

/-- A reader that takes over the window of a ring is abreast of it. -/
theorem adopt_cases (reader : Reader) (ring : Ring α) (status : Synchronization) :
    (∃ cause, reader.adopt ring status = (.error cause, reader)) ∨
      ∃ after probe, reader.adopt ring status = (.ok status, after) ∧
        after.Abreast ring probe ∧ after.window = ring.window := by
  unfold adopt
  dsimp only
  split
  · rename_i cause _
    exact .inl ⟨cause, rfl⟩
  · rename_i probe looked
    right
    refine ⟨_, probe, rfl, ⟨rfl, lost_eq_false_iff.2 ⟨?_, changed_of_watch looked⟩, rfl, ?_⟩, rfl⟩
    · simp [Ring.within]
    · rw [index_of_watch looked]
      dsimp only
      split
      · rename_i empty
        exact .inr empty.symm
      · exact .inl rfl

/-- All that a synchronization can come to. -/
theorem synchronize_cases (reader : Reader) (ring : Ring α) :
    (∃ cause, reader.synchronize ring = (.error cause, reader)) ∨
      ∃ status after probe, reader.synchronize ring = (.ok status, after) ∧
        after.Abreast ring probe ∧
        (after.window.bottom = reader.window.bottom ∨
          after.window.bottom = ring.window.bottom) := by
  have takes (status : Synchronization) (run : reader.synchronize ring = reader.adopt ring status) :
      (∃ cause, reader.synchronize ring = (.error cause, reader)) ∨
        ∃ status after probe, reader.synchronize ring = (.ok status, after) ∧
          after.Abreast ring probe ∧ (after.window.bottom = reader.window.bottom ∨
            after.window.bottom = ring.window.bottom) := by
    rw [run]
    rcases reader.adopt_cases ring status with failed | ⟨after, probe, adopts, abreast, window⟩
    · exact .inl failed
    · exact .inr ⟨status, after, probe, adopts, abreast, .inr (congrArg Window.bottom window)⟩
  cases isProbe : reader.probe with
  | none => exact takes .init (by simp only [synchronize, isProbe])
  | some probe =>
    cases lost : reader.lost probe ring with
    | true => exact takes .hard (by simp only [synchronize, isProbe, lost, if_true])
    | false =>
      have within := (lost_eq_false_iff.1 lost).1
      simp only [synchronize, isProbe, lost, Bool.false_eq_true, if_false]
      split
      · -- The window was drained, so the next event becomes the watched one.
        split
        · rename_i cause _
          exact .inl ⟨cause, rfl⟩
        · rename_i next looked
          exact .inr ⟨_, _, next, rfl, ⟨rfl, lost_eq_false_iff.2 ⟨within, changed_of_watch looked⟩,
            rfl, .inl (index_of_watch looked)⟩, .inl rfl⟩
      · rename_i still
        refine .inr ⟨_, _, probe, rfl, ⟨rfl, lost, rfl, ?_⟩, .inl rfl⟩
        by_cases here : probe.index = reader.window.bottom
        · exact .inl here
        · exact .inr (Decidable.not_not.1 fun more => still ⟨here, more⟩)

theorem spares_synchronize (reader : Reader) (ring : Ring α) :
    Spares reader (reader.synchronize ring) := by
  rcases reader.synchronize_cases ring with ⟨cause, run⟩ | ⟨status, after, probe, run, _⟩
  · rw [run]
    exact spares_error cause
  · rw [run]
    exact spares_ok status

/-- All that a pull can come to. -/
theorem pull_cases (reader : Reader) (ring : Ring α) :
    (∃ cause, reader.pull ring = (.error cause, reader)) ∨
      ∃ event probe, reader.pull ring = (.ok event,
        ⟨⟨ring.next reader.window.bottom, reader.window.top⟩, some probe⟩) := by
  unfold pull
  split
  · exact .inl ⟨_, rfl⟩
  · split
    · exact .inl ⟨_, rfl⟩
    · split
      · exact .inl ⟨_, rfl⟩
      · split
        · exact .inl ⟨_, rfl⟩
        · exact .inl ⟨_, rfl⟩
        · split
          · dsimp only
            split
            · exact .inr ⟨_, _, rfl⟩
            · split
              · exact .inl ⟨_, rfl⟩
              · exact .inr ⟨_, _, rfl⟩
          · exact .inl ⟨_, rfl⟩

theorem spares_pull (reader : Reader) (ring : Ring α) : Spares reader (reader.pull ring) := by
  rcases reader.pull_cases ring with ⟨cause, run⟩ | ⟨event, probe, run⟩
  · rw [run]
    exact spares_error cause
  · rw [run]
    exact spares_ok event

/-- All that a pop can come to. -/
theorem pop_cases (reader : Reader) (ring : Ring α) :
    (∃ cause, reader.pop ring = (.error cause, reader)) ∨
      ∃ event, reader.pop ring =
        (.ok event, { reader with window.top := ring.prev reader.window.top }) := by
  unfold pop
  split
  · exact .inl ⟨_, rfl⟩
  · split
    · exact .inl ⟨_, rfl⟩
    · dsimp only
      split
      · exact .inl ⟨_, rfl⟩
      · exact .inr ⟨_, rfl⟩

theorem spares_pop (reader : Reader) (ring : Ring α) : Spares reader (reader.pop ring) := by
  rcases reader.pop_cases ring with ⟨cause, run⟩ | ⟨event, run⟩
  · rw [run]
    exact spares_error cause
  · rw [run]
    exact spares_ok event

theorem exists_watch (calm : ring.Calm) {index : Nat} (bound : index < ring.size) :
    ∃ probe, watch ring index = .ok probe := by
  obtain ⟨slot, atIndex⟩ := Ring.exists_slot bound
  exact ⟨_, watch_eq atIndex (calm index slot atIndex)⟩

/-- With nothing on its way a synchronization always succeeds. -/
theorem exists_synchronize {size : Nat} (inRange : ring.InRange size) (calm : ring.Calm)
    (bottom_lt : reader.window.bottom < size) :
    ∃ status after, reader.synchronize ring = (.ok status, after) := by
  have slots := inRange.slots
  have adopts (status : Synchronization) :
      ∃ after, reader.adopt ring status = (.ok status, after) := by
    have low := inRange.bottom_lt
    have bound : (if ring.window.bottom = ring.window.top then ring.prev ring.window.bottom
        else ring.window.bottom) < ring.size := by
      split
      · exact ring.prev_lt (by omega)
      · omega
    obtain ⟨probe, looked⟩ := exists_watch calm bound
    simp only [adopt, looked]
    exact ⟨_, rfl⟩
  obtain ⟨next, looked⟩ := exists_watch calm (show reader.window.bottom < ring.size by omega)
  unfold synchronize
  split
  · exact ⟨_, adopts .init⟩
  · split
    · exact ⟨_, adopts .hard⟩
    · simp only [looked]
      split
      · exact ⟨_, _, rfl⟩
      · exact ⟨_, _, rfl⟩

end

/-- The reader after it has done what it was told. -/
def act (ring : Ring α) (reader : Reader) : ReaderCommand → Reader
  | .synchronize => (reader.synchronize ring).2
  | .pull => (reader.pull ring).2
  | .pop => (reader.pop ring).2
  | .look => reader

/-- The window of a reader begins at a slot, whatever it does. -/
theorem bottom_lt_act {ring : Ring α} {size : Nat} (inRange : ring.InRange size) {reader : Reader}
    (bottom_lt : reader.window.bottom < size) (command : ReaderCommand) :
    (reader.act ring command).window.bottom < size := by
  cases command with
  | synchronize =>
    unfold act
    rcases reader.synchronize_cases ring with
      ⟨cause, run⟩ | ⟨status, after, probe, run, _, same | taken⟩
    · rwa [run]
    · rw [run]
      dsimp only
      rwa [same]
    · rw [run]
      dsimp only
      rw [taken]
      exact inRange.bottom_lt
  | pull =>
    unfold act
    rcases reader.pull_cases ring with ⟨cause, run⟩ | ⟨event, probe, run⟩
    · rwa [run]
    · rw [run, ← inRange.slots]
      rw [← inRange.slots] at bottom_lt
      exact ring.next_lt bottom_lt
  | pop =>
    unfold act
    rcases reader.pop_cases ring with ⟨cause, run⟩ | ⟨event, run⟩
    · rwa [run]
    · rw [run]
      exact bottom_lt
  | look => exact bottom_lt

/-- After a synchronization, whatever went before and however it caught up, there is no gap, and
another one would find nothing lost and change nothing. It succeeds unless a slot is marked. -/
theorem synchronize_settles {kind : RegisterKind} {capacity : Nat} {epoch : Time}
    {patience : Patience} {start : Ring α} {traffic : Traffic α} {reader : Reader}
    (created : Ring.create kind capacity epoch patience = .ok start)
    (happenings : List (Motion α ⊕ ReaderCommand))
    (ran : Traffic.run act happenings (.idle start, .fresh) = (traffic, reader)) :
    (traffic.ring.Calm →
      ∃ status after, reader.synchronize traffic.ring = (.ok status, after)) ∧
    ∀ status after, reader.synchronize traffic.ring = (.ok status, after) →
      after.gap traffic.ring = false ∧
        after.synchronize traffic.ring = (.ok .soft, after) := by
  obtain ⟨inRange, bottom_lt⟩ := Traffic.InRange.run
    (fun reader => reader.window.bottom < start.size)
    (fun _ _ command inRange bottom_lt => bottom_lt_act inRange bottom_lt command) ran
    (.of_create created) start.size_pos
  refine ⟨fun calm => exists_synchronize inRange.ring calm bottom_lt, fun status after run => ?_⟩
  rcases reader.synchronize_cases traffic.ring with
    ⟨cause, failed⟩ | ⟨found, settled, probe, succeeded, abreast, _⟩
  · rw [run] at failed
    cases failed
  · rw [run] at succeeded
    cases succeeded
    exact ⟨abreast.gap_eq, abreast.synchronize_eq⟩

/-- A reader that tries to catch up while an append has published its slot and not filled it yet. In
the end it has pulled that event, and another one was pushed. -/
def impatient : List (Motion Nat ⊕ ReaderCommand) :=
  [.inr .synchronize, .inl (.start (.append ⟨1, .zero⟩)), .inl (.swap 0 false), .inr .synchronize,
    .inl (.fill 0), .inr .synchronize, .inr .pull, .inl (.perform (.push ⟨2, .zero⟩))]

theorem synchronize_settles_impatient :
    ∃ traffic reader, Traffic.run act impatient (.idle smallRing, .fresh) = (traffic, reader) ∧
      traffic.ring.Calm ∧
      (∃ status after, reader.synchronize traffic.ring = (.ok status, after)) ∧
      ∀ status after, reader.synchronize traffic.ring = (.ok status, after) →
        after.gap traffic.ring = false ∧
          after.synchronize traffic.ring = (.ok .soft, after) := by
  have settles := synchronize_settles create_smallRing impatient rfl
  have calm : (Traffic.run act impatient (.idle smallRing, fresh)).1.ring.Calm := by
    intro index slot atIndex
    match index with
    | 0 | 1 | 2 =>
      cases atIndex
      rfl
  exact ⟨_, _, rfl, calm, settles.1 calm, settles.2⟩

end Reader

end TimedTrace
