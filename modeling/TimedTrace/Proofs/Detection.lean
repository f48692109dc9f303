import TimedTrace.Proofs.Consumption
import TimedTrace.Proofs.Deque

namespace TimedTrace

variable {α : Type}

/-- The window shows the events that were pushed last. -/
theorem Ring.Filled.holds {ring : Ring α} {pushed : List (Event α)} (filled : ring.Filled pushed) :
    ring.Holds (pushed.drop (pushed.length - ring.capacity)) := by
  have size : ring.size = ring.capacity + 1 := rfl
  have bottom : ring.window.bottom = (pushed.length - ring.capacity) % ring.size := by
    rw [filled.window]
  refine ⟨filled.sound, filled.fits, ?_, ?_, ?_, fun i event atI => ?_⟩
  · rw [List.length_drop]
    omega
  · rw [bottom]
    exact Nat.mod_lt _ ring.size_pos
  · rw [bottom, filled.window, ring.forward_mod, List.length_drop,
      Nat.add_sub_of_le (Nat.sub_le ..)]
  · rw [List.getElem?_drop] at atI
    have pushedBefore := (List.getElem?_eq_some_iff.1 atI).1
    have slot := filled.slots (pushed.length - ring.capacity + i + ring.size) (by omega) (by omega)
    rw [Nat.add_mod_right] at slot
    rw [bottom, ring.forward_mod]
    refine Ring.read_eq_ok_iff.2 ⟨_, slot, settled_heldUntil .., ?_⟩
    rw [heldUntil_add _ ring.size_pos]
    exact atI

namespace Reader

theorem Tracks.gap_iff {reader : Reader} {ring : Ring α} {pushed : List (Event α)}
    {first past watched : Nat} (tracks : reader.Tracks ring pushed first past watched)
    (filled : ring.Filled pushed) : reader.gap ring = true ↔ watched < pushed.length := by
  unfold gap
  rw [tracks.probe]
  exact tracks.lost_iff filled

/-- How far a ring and a reader have come. -/
structure Progress (α : Type) where
  ring : Ring α
  reader : Reader
  /-- The events pushed so far, each with the slot that it was put into. -/
  pushed : List (Event α × Nat)
  /-- The number of the event that belongs at the bottom of the reader's window. -/
  due : Option Nat

namespace Progress

/-- Nothing was pushed yet, and the reader was never synchronized. -/
def start (ring : Ring α) : Progress α := ⟨ring, .fresh, [], none⟩

/-- What is due after a move with this outcome: the event after the one pulled, or the oldest event
of a window that was taken over. If that window is empty, it is the next event to come. -/
def dueAfter (progress : Progress α) : Outcome α → Option Nat
  | .synchronized (.ok .init) | .synchronized (.ok .hard) =>
    some (progress.pushed.length - progress.ring.length)
  | .pulled (.ok _) => progress.due.map (· + 1)
  | _ => progress.due

def step (progress : Progress α) (move : Move α) : Progress α :=
  let (outcome, ring, reader) := perform progress.ring progress.reader move
  { ring
    reader
    pushed := progress.pushed ++
      (move.pushed?.map fun event => (event, progress.ring.window.top)).toList
    due := progress.dueAfter outcome }

/-- One move after the other. -/
def run (ring : Ring α) (moves : List (Move α)) : Progress α := moves.foldl step (start ring)

/-- Event `n` is out of the window of the ring, which begins with a later one. -/
def Dropped (progress : Progress α) (n : Nat) : Prop :=
  ∃ kept, n < kept ∧ kept ≤ progress.pushed.length ∧
    progress.ring.Holds ((progress.pushed.map Prod.fst).drop kept)

/-- A later event was put into the slot of event `n`. -/
def Overwritten (progress : Progress α) (n : Nat) : Prop :=
  ∃ later event other slot, n < later ∧ progress.pushed[n]? = some (event, slot) ∧
    progress.pushed[later]? = some (other, slot)

/-- What holds throughout a run: the ring is filled in order, and the reader stands before the event
that is due. -/
structure Sound (progress : Progress α) : Prop where
  filled : progress.ring.Filled (progress.pushed.map Prod.fst)
  slots : ∀ (n : Nat) (event : Event α) (slot : Nat),
    progress.pushed[n]? = some (event, slot) → slot = n % progress.ring.size
  stands : progress.reader = .fresh ∧ progress.due = none ∨
    ∃ due, progress.due = some due ∧
      progress.reader.Stands progress.ring (progress.pushed.map Prod.fst) due

section

variable {progress : Progress α} {move : Move α}

theorem step_push {event : Event α} {status : Admission} {after : Ring α}
    (run : progress.ring.push event = (.ok status, after)) :
    progress.step (.push event) =
      { progress with
        ring := after
        pushed := progress.pushed ++ [(event, progress.ring.window.top)] } := by
  rw [step, perform, run]
  rfl

/-- A move that pushes nothing leaves the ring alone. -/
theorem step_eq {outcome : Outcome α} {reader : Reader} (nothing : move.pushed? = none)
    (run : perform progress.ring progress.reader move = (outcome, progress.ring, reader)) :
    progress.step move = { progress with reader, due := progress.dueAfter outcome } := by
  rw [step, run, nothing]
  simp

theorem Sound.of_create {kind : RegisterKind} {capacity : Nat} {epoch : Time} {patience : Patience}
    {ring : Ring α} (created : Ring.create kind capacity epoch patience = .ok ring) :
    (start ring).Sound :=
  ⟨.of_create created, fun n event slot atN => by simp [start] at atN, .inl ⟨rfl, rfl⟩⟩

theorem Sound.oldest (sound : progress.Sound) :
    progress.pushed.length - progress.ring.length =
      progress.pushed.length - progress.ring.capacity := by
  rw [sound.filled.holds.length_eq, List.length_drop, List.length_map]
  omega

theorem Sound.push (sound : progress.Sound) (event : Event α) :
    (progress.step (.push event)).Sound := by
  obtain ⟨filled, slots, stands⟩ := sound
  obtain ⟨status, after, run, filledAfter, same⟩ := filled.push event
  have mapped : (progress.pushed ++ [(event, progress.ring.window.top)]).map Prod.fst =
      progress.pushed.map Prod.fst ++ [event] := List.map_append
  rw [step_push run]
  refine ⟨mapped ▸ filledAfter, fun n other slot atN => ?_, stands.imp_right ?_⟩
  · dsimp only at atN ⊢
    rw [Ring.size_eq same]
    by_cases before : n < progress.pushed.length
    · rw [List.getElem?_append_left before] at atN
      exact slots n other slot atN
    · have last := (List.getElem?_eq_some_iff.1 atN).1
      rw [List.length_append, List.length_singleton] at last
      obtain rfl : n = progress.pushed.length := by omega
      rw [List.getElem?_concat_length] at atN
      cases atN
      rw [filled.window, List.length_map]
  · rintro ⟨due, isDue, past, watched, tracks⟩
    exact ⟨due, isDue, past, watched, mapped ▸ tracks.push same event⟩

/-- A move that neither pushes nor changes the reader or what is due. -/
theorem Sound.idle (sound : progress.Sound) (outcome : Outcome α) (nothing : move.pushed? = none)
    (run : perform progress.ring progress.reader move =
      (outcome, progress.ring, progress.reader))
    (still : progress.dueAfter outcome = progress.due) : (progress.step move).Sound := by
  rw [step_eq nothing run, still]
  exact sound

theorem Sound.synchronize (sound : progress.Sound) : (progress.step .synchronize).Sound := by
  have oldest := sound.oldest
  obtain ⟨filled, slots, stands⟩ := sound
  rcases stands with ⟨isFresh, _⟩ | ⟨due, isDue, past, watched, tracks⟩
  · obtain ⟨after, run, past, watched, tracks, _⟩ := filled.adopt .fresh .init
    have sync : progress.reader.synchronize progress.ring = (.ok .init, after) := by
      rw [isFresh]
      exact run
    rw [step_eq rfl (by rw [perform, sync])]
    refine ⟨filled, slots, .inr ⟨_, rfl, past, watched, ?_⟩⟩
    rw [oldest]
    rwa [List.length_map] at tracks
  · obtain ⟨status, after, next, run, ⟨past, watched, tracks, _⟩, how⟩ := tracks.synchronize filled
    rw [step_eq rfl (by rw [perform, run])]
    refine ⟨filled, slots, .inr ⟨next, ?_, past, watched, tracks⟩⟩
    rcases how with ⟨rfl, rfl⟩ | ⟨rfl, _, isOldest⟩
    · exact isDue
    · rw [List.length_map, ← oldest] at isOldest
      rw [isOldest]
      rfl

theorem Sound.pull (sound : progress.Sound) : (progress.step .pull).Sound := by
  rcases sound.stands with ⟨isFresh, _⟩ | ⟨due, isDue, past, watched, tracks⟩
  · exact sound.idle (.pulled (.error .unavailable)) rfl
      (by rw [perform, isFresh]; rfl) rfl
  · rcases tracks.pull sound.filled with ⟨cause, run, _⟩ | ⟨event, after, next, run, _, tracks⟩
    · exact sound.idle _ rfl (by rw [perform, run]) rfl
    · rw [step_eq rfl (by rw [perform, run])]
      refine ⟨sound.filled, sound.slots, .inr ⟨due + 1, ?_, past, next, tracks⟩⟩
      exact congrArg (Option.map (· + 1)) isDue

theorem Sound.pop (sound : progress.Sound) : (progress.step .pop).Sound := by
  rcases sound.stands with ⟨isFresh, _⟩ | ⟨due, isDue, past, watched, tracks⟩
  · exact sound.idle (.popped (.error .unavailable)) rfl
      (by rw [perform, isFresh]; rfl) rfl
  · rcases tracks.pop sound.filled with ⟨cause, run⟩ | ⟨event, after, newest, run, _, tracks⟩
    · exact sound.idle _ rfl (by rw [perform, run]) rfl
    · rw [step_eq rfl (by rw [perform, run])]
      exact ⟨sound.filled, sound.slots, .inr ⟨due, isDue, newest, watched, tracks⟩⟩

theorem Sound.step (sound : progress.Sound) (move : Move α) : (progress.step move).Sound := by
  cases move with
  | push event => exact sound.push event
  | synchronize => exact sound.synchronize
  | pull => exact sound.pull
  | pop => exact sound.pop

theorem Sound.run (sound : progress.Sound) (moves : List (Move α)) :
    (moves.foldl Progress.step progress).Sound := by
  induction moves generalizing progress with
  | nil => exact sound
  | cons move moves ih => exact ih (sound.step move)

theorem isSome_dueAfter {outcome : Outcome α} (dueBefore : progress.due.isSome = true) :
    (progress.dueAfter outcome).isSome = true := by
  unfold dueAfter
  split
  · rfl
  · rfl
  · simpa using dueBefore
  · exact dueBefore

theorem Sound.isSome_due_synchronize (sound : progress.Sound) :
    (progress.step .synchronize).due.isSome = true := by
  rcases sound.stands with ⟨isFresh, _⟩ | ⟨due, isDue, _⟩
  · obtain ⟨after, run, _⟩ := sound.filled.adopt .fresh .init
    have sync : progress.reader.synchronize progress.ring = (.ok .init, after) := by
      rw [isFresh]
      exact run
    rw [step_eq rfl (by rw [perform, sync])]
    rfl
  · exact isSome_dueAfter (by rw [isDue]; rfl)

/-- Something is due from the first synchronization on. -/
theorem Sound.isSome_due_run (sound : progress.Sound) {moves : List (Move α)}
    (known : progress.due.isSome = true ∨ .synchronize ∈ moves) :
    (moves.foldl Progress.step progress).due.isSome = true := by
  induction moves generalizing progress with
  | nil => exact known.resolve_right List.not_mem_nil
  | cons move moves ih =>
    refine ih (sound.step move) ?_
    rcases known with dueBefore | member
    · exact .inl (isSome_dueAfter dueBefore)
    · rcases List.mem_cons.1 member with rfl | later
      · exact .inl sound.isSome_due_synchronize
      · exact .inr later

/-- The push that fills the slot of an event again comes at least a round later. -/
theorem Sound.later_round (sound : progress.Sound) {n later slot : Nat} {event other : Event α}
    (after : n < later) (atN : progress.pushed[n]? = some (event, slot))
    (atLater : progress.pushed[later]? = some (other, slot)) :
    n + progress.ring.size ≤ later := by
  have same := (sound.slots n event slot atN).symm.trans (sound.slots later other slot atLater)
  refine Nat.le_of_not_lt fun near => ?_
  have := (progress.ring.mod_eq_iff (Nat.le_of_lt after) near).1 same
  omega

end

end Progress

/-- After the first synchronization a reader reports a gap only if the ring has dropped the event
that is due, and it does so as soon as the slot of that event is filled again. What it pulls is the
event that is due. -/
theorem gap_detects_loss {kind : RegisterKind} {capacity : Nat} {epoch : Time} {patience : Patience}
    {ring : Ring α} (created : Ring.create kind capacity epoch patience = .ok ring)
    (moves : List (Move α)) (synchronized : .synchronize ∈ moves) {progress : Progress α}
    (ran : Progress.run ring moves = progress) :
    ∃ due, progress.due = some due ∧
      (progress.reader.gap progress.ring = true → progress.Dropped due) ∧
      (progress.Overwritten due → progress.reader.gap progress.ring = true) ∧
      ∀ event, (progress.reader.pull progress.ring).1 = .ok event →
        ∃ slot, progress.pushed[due]? = some (event, slot) := by
  have initial : (Progress.start ring).Sound := .of_create created
  have sound : progress.Sound := ran ▸ initial.run moves
  have dueAtEnd : progress.due.isSome = true := ran ▸ initial.isSome_due_run (.inr synchronized)
  rcases sound.stands with ⟨_, nothing⟩ | ⟨due, isDue, past, watched, tracks⟩
  · rw [nothing] at dueAtEnd
    cases dueAtEnd
  · have gap := tracks.gap_iff sound.filled
    have size : progress.ring.size = progress.ring.capacity + 1 := rfl
    have watches := tracks.watches
    rw [List.length_map] at gap watches
    refine ⟨due, isDue, fun reported => ?_, ?_, fun event pulls => ?_⟩
    · have passed := gap.1 reported
      have holds := sound.filled.holds
      rw [List.length_map] at holds
      exact ⟨progress.pushed.length - progress.ring.capacity, by omega, Nat.sub_le .., holds⟩
    · rintro ⟨later, event, other, slot, after, atDue, atLater⟩
      have round := sound.later_round after atDue atLater
      have inside := (List.getElem?_eq_some_iff.1 atLater).1
      exact gap.2 (by omega)
    · rcases tracks.pull sound.filled with ⟨_, run, _⟩ | ⟨pulled, _, _, run, atDue, _⟩
      · rw [run] at pulls
        cases pulls
      · rw [run] at pulls
        cases pulls
        rw [List.getElem?_map] at atDue
        obtain ⟨⟨_, slot⟩, atPair, rfl⟩ := Option.map_eq_some_iff.1 atDue
        exact ⟨slot, atPair⟩

/-- Events of one time and one value. Three pushes after the pull fill the slot of the event that is
due again. -/
theorem gap_detects_loss_small :
    ∃ progress,
      Progress.run smallRing [.synchronize, .push ⟨7, .zero⟩, .push ⟨7, .zero⟩, .synchronize, .pull,
        .push ⟨7, .zero⟩, .push ⟨7, .zero⟩, .push ⟨7, .zero⟩] = progress ∧
      progress.due = some 1 ∧ progress.Overwritten 1 ∧
      progress.reader.gap progress.ring = true ∧ progress.Dropped 1 := by
  refine ⟨_, rfl, rfl, ?_⟩
  obtain ⟨due, isDue, dropped, reported, _⟩ :=
    gap_detects_loss create_smallRing [.synchronize, .push ⟨7, .zero⟩, .push ⟨7, .zero⟩,
      .synchronize, .pull, .push ⟨7, .zero⟩, .push ⟨7, .zero⟩, .push ⟨7, .zero⟩]
      List.mem_cons_self rfl
  cases isDue
  suffices overwritten : Progress.Overwritten _ 1 from
    ⟨overwritten, reported overwritten, dropped (reported overwritten)⟩
  exact ⟨4, ⟨7, .zero⟩, ⟨7, .zero⟩, 1, by decide, rfl, rfl⟩

end Reader

end TimedTrace
