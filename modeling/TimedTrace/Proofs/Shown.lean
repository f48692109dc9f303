import TimedTrace.Proofs.Future

namespace TimedTrace

variable {α : Type}

/-- The window of the reader holds these events, oldest first, in settled slots. -/
structure Reader.Shows (reader : Reader) (ring : Ring α) (events : List (Event α)) : Prop where
  length : reader.length ring = events.length
  read : ∀ (i : Nat) (event : Event α), events[i]? = some event →
    ring.read (ring.forward reader.window.bottom i) = .ok event

theorem Reader.Shows.tape_eq {reader : Reader} {ring : Ring α} {events : List (Event α)}
    (shows : reader.Shows ring events) : Cursor.tape reader ring = .ofEvents events := by
  have cells : (Cursor.tape reader ring).cells = (Tape.ofEvents events).cells := by
    refine Array.ext_getElem? fun i => ?_
    simp only [Cursor.tape, Tape.ofEvents, shows.length, Array.getElem?_map, List.getElem?_toArray,
      List.getElem?_map]
    by_cases inside : i < events.length
    · rw [Array.getElem?_range, if_pos inside, List.getElem?_eq_getElem inside]
      exact congrArg some (shows.read i _ (List.getElem?_eq_getElem inside))
    · rw [Array.getElem?_range, if_neg inside, List.getElem?_eq_none (by omega)]
      rfl
  exact congrArg Tape.mk cells

namespace Cursor

variable {cursor : Cursor} {ring : Ring α} {events : List (Event α)}

/-- A valid position is one that the head of a tape may have. -/
theorem onTape_of_valid (valid : Valid cursor.reader ring cursor.position) :
    (tape cursor.reader ring).OnTape (cursor.consumed ring) := by
  rcases valid.2 with atBottom | inside
  · right
    rw [consumed, atBottom, ring.distance_self]
  · left
    rw [size_tape]
    exact inside

theorem onTape_consumed (shows : cursor.reader.Shows ring events)
    (valid : Valid cursor.reader ring cursor.position) :
    (Tape.ofEvents events).OnTape (cursor.consumed ring) := by
  rw [← shows.tape_eq]
  exact onTape_of_valid valid

theorem reader_seek (cursor : Cursor) (ring : Ring α) (time : Time) :
    (cursor.seek ring time).2.reader = cursor.reader := rfl

@[simp] theorem reader_follow (cursor : Cursor) (ring : Ring α) (reader : Reader) :
    (cursor.follow ring reader).reader = reader := by
  unfold follow
  split <;> rfl

theorem valid_follow (cursor : Cursor) {reader : Reader}
    (bound : reader.window.bottom < ring.size) :
    Valid reader ring (cursor.follow ring reader).position := by
  unfold follow
  split
  · assumption
  · exact valid_bottom bound

section

variable (shows : cursor.reader.Shows ring events)
  (ordered : Ordered events) (valid : Valid cursor.reader ring cursor.position) (time : Time)

include shows ordered valid

theorem seek_eq : cursor.seek ring time =
    if border events time = 0 then
      (.error .unavailable, ⟨cursor.reader, ring.forward cursor.reader.window.bottom 0⟩)
    else
      (.ok (), ⟨cursor.reader,
        ring.forward cursor.reader.window.bottom (border events time - 1)⟩) := by
  unfold seek onTape
  rw [shows.tape_eq]
  dsimp only
  rw [Tape.seek_ofEvents ordered time (onTape_consumed shows valid)]
  split <;> rfl

/-- If a search of the cursor succeeds, the oldest event is not after the time, and the cursor
stands on an event. -/
theorem seek_ok (bound : cursor.reader.window.bottom < ring.size) {after : Cursor}
    (run : cursor.seek ring time = (.ok (), after)) :
    after.reader = cursor.reader ∧ Valid after.reader ring after.position ∧
      ∃ oldest, events[0]? = some oldest ∧ oldest.time.toInstant ≤ time.toInstant := by
  rw [seek_eq shows ordered valid] at run
  split at run
  · cases run
  · rename_i some
    cases run
    have within := border_le_length events time
    have length := shows.length
    have room : cursor.reader.length ring < ring.size := ring.distance_lt ..
    have atFirst := List.getElem?_eq_getElem (show 0 < events.length by omega)
    refine ⟨rfl, ⟨ring.forward_lt .., .inr ?_⟩, _, atFirst, ?_⟩
    · dsimp only
      rw [ring.distance_forward bound (by omega)]
      omega
    · exact Time.toInstant_le_iff.2 ((lt_border_iff ordered time atFirst).1 (by omega))

end

variable [DecidableEq α]

theorem reader_evaluate (cursor : Cursor) (ring : Ring α) (f : Formula α) (time : Time) :
    (cursor.evaluate ring f time).2.reader = cursor.reader := rfl

theorem evaluate_eq_valueOf (shows : cursor.reader.Shows ring events) (ordered : Ordered events)
    (valid : Valid cursor.reader ring cursor.position) (f : Formula α) (time : Time) :
    (cursor.evaluate ring f time).1 = (Tape.ofEvents events).valueOf f time.toInstant := by
  have yields := Tape.evaluate_yields ordered f time
  rw [evaluate, onTape, shows.tape_eq]
  exact yields.eq (onTape_consumed shows valid)

end Cursor

/-- A ring that has wrapped around, with two events at one time. -/
def wrappedRing : Ring Bool where
  capacity := 3
  capacity_pos := by decide
  slots :=
    #v[⟨4, some ⟨true, .ofNanos 9⟩⟩, ⟨2, some ⟨true, .ofNanos 2⟩⟩, ⟨2, some ⟨true, .ofNanos 5⟩⟩,
      ⟨2, some ⟨false, .ofNanos 5⟩⟩]
  register := .holding .packed ⟨2, 1⟩
  writers := 0
  epoch := .zero
  patience := .standard

/-- The events in its window. -/
def wrappedEvents : List (Event Bool) :=
  [⟨true, .ofNanos 5⟩, ⟨false, .ofNanos 5⟩, ⟨true, .ofNanos 9⟩]

/-- A synchronized cursor that stands on the second of them. -/
def wrappedCursor : Cursor := ⟨⟨⟨2, 1⟩, some ⟨2, 2, .ofNanos 5⟩⟩, 3⟩

theorem wrappedCursor_shows : wrappedCursor.reader.Shows wrappedRing wrappedEvents := by
  refine ⟨rfl, fun i event atI => ?_⟩
  match i with
  | 0 | 1 | 2 =>
    cases atI
    rfl

/-- A ring with room for four events, into which two were put. -/
def growingRing : Ring Bool where
  capacity := 4
  capacity_pos := by decide
  slots :=
    #v[⟨2, some ⟨true, .zero⟩⟩, ⟨2, some ⟨true, .ofNanos 2⟩⟩, ⟨0, none⟩, ⟨0, none⟩, ⟨0, none⟩]
  register := .holding .packed ⟨0, 2⟩
  writers := 0
  epoch := .zero
  patience := .standard

def growingEvents : List (Event Bool) := [⟨true, .zero⟩, ⟨true, .ofNanos 2⟩]

/-- A cursor that is synchronized with it. -/
def growingCursor : Cursor := ⟨⟨⟨0, 2⟩, some ⟨0, 2, .zero⟩⟩, 0⟩

theorem growingCursor_shows : growingCursor.reader.Shows growingRing growingEvents := by
  refine ⟨rfl, fun i event atI => ?_⟩
  match i with
  | 0 | 1 =>
    cases atI
    rfl

/-- The same ring after a third event. -/
def grownRing : Ring Bool :=
  { growingRing with
    slots :=
      #v[⟨2, some ⟨true, .zero⟩⟩, ⟨2, some ⟨true, .ofNanos 2⟩⟩, ⟨2, some ⟨false, .ofNanos 3⟩⟩,
        ⟨0, none⟩, ⟨0, none⟩]
    register := .holding .packed ⟨0, 3⟩ }

/-- The same cursor, synchronized again. -/
def grownCursor : Cursor := ⟨⟨⟨0, 3⟩, some ⟨0, 2, .zero⟩⟩, 0⟩

theorem grownCursor_shows :
    grownCursor.reader.Shows grownRing (growingEvents ++ [⟨false, .ofNanos 3⟩]) := by
  refine ⟨rfl, fun i event atI => ?_⟩
  match i with
  | 0 | 1 | 2 =>
    cases atI
    rfl

end TimedTrace
