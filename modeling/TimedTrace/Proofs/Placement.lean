import TimedTrace.Proofs.Standing
import TimedTrace.Proofs.Termination

namespace TimedTrace

variable {α : Type} {events : List (Event α)}

theorem border_ne_zero_iff (events : List (Event α)) (time : Time) :
    border events time ≠ 0 ↔ ∃ oldest ∈ events.head?, oldest.time ≤ time := by
  cases events with
  | nil => simp [border]
  | cons first rest => by_cases early : first.time ≤ time <;> simp [border, early]

/-- Before the border stands the last event not after the time. -/
theorem Ordered.last_border (ordered : Ordered events) {time : Time}
    (found : border events time ≠ 0) :
    ∃ event, events[border events time - 1]? = some event ∧ event.time ≤ time ∧
      ∀ (j : Nat) (later : Event α), border events time - 1 < j → events[j]? = some later →
        time < later.time := by
  have within := border_le_length events time
  have inside : border events time - 1 < events.length := by omega
  have atBorder := List.getElem?_eq_getElem inside
  refine ⟨_, atBorder, (lt_border_iff ordered time atBorder).1 (by omega),
    fun j later after atJ => ?_⟩
  have late := mt (lt_border_iff ordered time atJ).2 (by omega)
  exact Nat.lt_of_not_le late

namespace Cursor

/-- What a cursor finds in a slot. -/
def readAt (ring : Ring α) (index : Nat) : Except ReaderError (Event α) :=
  (ring.read index).mapError .read

/-- The second leg of a seek: on, as long as the next event is not after the time. -/
def goOn (cursor : Cursor) (ring : Ring α) (time : Time) : Except ReaderError Unit × Cursor :=
  cursor.onTape ring fun tape => tape.advance time

section

variable {cursor : Cursor} {ring : Ring α}

theorem read_tape (reader : Reader) (ring : Ring α) (steps : Nat) :
    (tape reader ring).read steps =
      if steps < reader.length ring then readAt ring (ring.forward reader.window.bottom steps)
      else .error .unavailable := by
  unfold Tape.read tape readAt
  rw [Array.getElem?_map, Array.getElem?_range]
  by_cases inside : steps < reader.length ring
  · rw [if_pos inside, if_pos inside, Option.map_some]
    cases ring.read (ring.forward reader.window.bottom steps) with
    | error cause => rfl
    | ok event => rfl
  · rw [if_neg inside, if_neg inside]
    rfl

/-- A scan from so many slots on. -/
theorem onTape_forward {reader : Reader} (bottom_lt : reader.window.bottom < ring.size)
    {steps : Nat} (room : steps < ring.size) {β : Type} (scan : Tape α → Scan β) :
    (⟨reader, ring.forward reader.window.bottom steps⟩ : Cursor).onTape ring scan =
      ((scan (tape reader ring) steps).1,
        ⟨reader, ring.forward reader.window.bottom (scan (tape reader ring) steps).2⟩) := by
  unfold onTape consumed
  dsimp only
  rw [ring.distance_forward bottom_lt room]

namespace Stands

variable (stands : cursor.Stands ring)

include stands

theorem forward_consumed :
    ring.forward cursor.reader.window.bottom (cursor.consumed ring) = cursor.position :=
  ring.forward_distance stands.bottom_lt stands.valid.1

theorem consumed_eq_zero_iff :
    cursor.consumed ring = 0 ↔ cursor.position = cursor.reader.window.bottom := by
  constructor
  · intro none
    rw [← stands.forward_consumed, none, ring.forward_zero stands.bottom_lt]
  · intro atBottom
    rw [consumed, atBottom, ring.distance_self]

/-- Only on a window without events is there none from the position on. -/
theorem consumed_lt_iff :
    cursor.consumed ring < cursor.reader.length ring ↔ cursor.reader.length ring ≠ 0 := by
  rcases stands.valid.2 with atBottom | inside
  · rw [stands.consumed_eq_zero_iff.2 atBottom, Nat.pos_iff_ne_zero]
  · exact iff_of_true inside (Nat.ne_zero_of_lt inside)

/-- A cursor looks at the slot that it stands on. -/
theorem read_eq : cursor.read ring =
    if cursor.reader.length ring = 0 then .error .unavailable
    else readAt ring cursor.position := by
  unfold read
  rw [read_tape, stands.forward_consumed]
  by_cases empty : cursor.reader.length ring = 0
  · rw [if_pos empty, if_neg (by omega)]
  · rw [if_neg empty, if_pos (stands.consumed_lt_iff.2 empty)]

/-- It looks ahead at the next slot around the ring, if that is one of the window. -/
theorem readNext_eq : cursor.readNext ring =
    if cursor.length ring < 2 then .error .unavailable
    else readAt ring (ring.next cursor.position) := by
  unfold readNext Tape.readNext length
  rw [read_tape, ← ring.next_forward, stands.forward_consumed]
  by_cases more : cursor.consumed ring + 1 < cursor.reader.length ring
  · rw [if_pos more, if_neg (by omega)]
  · rw [if_neg more, if_pos (by omega)]

theorem increment_eq : cursor.increment ring =
    if cursor.length ring < 2 then (.error .unavailable, cursor)
    else (.ok (), { cursor with position := ring.next cursor.position }) := by
  have place := stands.forward_consumed
  unfold increment Cursor.onTape Tape.increment length
  rw [size_tape]
  by_cases more : cursor.consumed ring + 1 < cursor.reader.length ring
  · rw [if_pos more, if_neg (by omega)]
    dsimp only
    rw [← ring.next_forward, place]
  · rw [if_neg more, if_pos (by omega)]
    dsimp only
    rw [place]

theorem decrement_eq : cursor.decrement ring =
    if cursor.position = cursor.reader.window.bottom then (.error .unavailable, cursor)
    else (.ok (), { cursor with position := ring.prev cursor.position }) := by
  have place := stands.forward_consumed
  have first := stands.consumed_eq_zero_iff
  unfold decrement Cursor.onTape
  cases steps : cursor.consumed ring with
  | zero =>
    rw [if_pos (first.1 steps)]
    dsimp only [Tape.decrement]
    rw [← steps, place]
  | succ fewer =>
    rw [if_neg (mt first.2 (by omega))]
    dsimp only [Tape.decrement]
    rw [← place, steps, ring.prev_forward]

/-- The first leg of a seek, on any window: back while the event there is later than the time. -/
theorem seek_loop (time : Time) : cursor.seek ring time =
    match cursor.read ring with
    | .error cause => (.error cause, cursor)
    | .ok event =>
      if event.time ≤ time then cursor.goOn ring time
      else
        match cursor.decrement ring with
        | (.error cause, cursor) => (.error cause, cursor)
        | (.ok _, cursor) => cursor.seek ring time := by
  have place := stands.forward_consumed
  have room := ring.distance_lt cursor.reader.window.bottom cursor.position
  unfold seek read decrement Cursor.onTape
  dsimp only
  rw [Tape.seek_loop]
  cases (tape cursor.reader ring).read (cursor.consumed ring) with
  | error cause =>
    dsimp only
    rw [place]
  | ok event =>
    dsimp only
    by_cases early : event.time ≤ time
    · rw [if_pos early, if_pos early]
      rfl
    · rw [if_neg early, if_neg early]
      cases steps : cursor.consumed ring with
      | zero => rfl
      | succ fewer =>
        unfold consumed at steps
        exact (onTape_forward stands.bottom_lt (by omega) fun tape => tape.seek time).symm

/-- The second leg: on while the next event is not later than the time. -/
theorem goOn_loop (time : Time) : cursor.goOn ring time =
    match cursor.readNext ring with
    | .ok event =>
      if event.time ≤ time then
        match cursor.increment ring with
        | (.error cause, cursor) => (.error cause, cursor)
        | (.ok _, cursor) => cursor.goOn ring time
      else (.ok (), cursor)
    | .error .unavailable => (.ok (), cursor)
    | .error cause => (.error cause, cursor) := by
  have place := stands.forward_consumed
  have room : cursor.reader.length ring < ring.size := ring.distance_lt ..
  unfold goOn readNext increment Cursor.onTape
  dsimp only
  rw [Tape.advance_loop]
  cases (tape cursor.reader ring).readNext (cursor.consumed ring) with
  | error cause =>
    cases cause with
    | unavailable | overflow | read cause =>
      dsimp only
      rw [place]
  | ok event =>
    dsimp only
    by_cases early : event.time ≤ time
    · rw [if_pos early, if_pos early]
      unfold Tape.increment
      rw [size_tape]
      by_cases more : cursor.consumed ring + 1 < cursor.reader.length ring
      · rw [if_pos more]
        exact (onTape_forward stands.bottom_lt (by omega) fun tape => tape.advance time).symm
      · rw [if_neg more]
    · rw [if_neg early, if_neg early]
      dsimp only
      rw [place]

end Stands

/-- A cursor reads the event of the slot that it stands on. -/
theorem read_forward {reader : Reader} (shows : reader.Shows ring events)
    (bottom_lt : reader.window.bottom < ring.size) {i : Nat} {event : Event α}
    (atI : events[i]? = some event) :
    (⟨reader, ring.forward reader.window.bottom i⟩ : Cursor).read ring = .ok event := by
  have inside := (List.getElem?_eq_some_iff.1 atI).1
  have room : reader.length ring < ring.size := ring.distance_lt ..
  have length := shows.length
  unfold read consumed
  dsimp only
  rw [ring.distance_forward bottom_lt (by omega), shows.tape_eq, Tape.read_ofEvents, atI]

section

variable (shows : cursor.reader.Shows ring events) (ordered : Ordered events)
  (stands : cursor.Stands ring) (time : Time)

include shows ordered stands

/-- A seek finds an event exactly if the oldest one is not after the time. The event found is the
last one of which this is so, counted on around the ring from where the window begins. A seek that
finds none leaves the cursor on the oldest event, or in its place if there are no events. -/
theorem seek_finds :
    (cursor.seek ring time).2.reader = cursor.reader ∧
    ((cursor.seek ring time).1 = .ok () ↔ ∃ oldest ∈ events.head?, oldest.time ≤ time) ∧
    ((cursor.seek ring time).1 = .ok () →
      ∃ i event, events[i]? = some event ∧ event.time ≤ time ∧
        (∀ (j : Nat) (later : Event α), i < j → events[j]? = some later → time < later.time) ∧
        (cursor.seek ring time).2.position = ring.forward cursor.reader.window.bottom i ∧
        (cursor.seek ring time).2.read ring = .ok event) ∧
    ((cursor.seek ring time).1 ≠ .ok () →
      (cursor.seek ring time).1 = .error .unavailable ∧
      (events = [] → (cursor.seek ring time).2 = cursor) ∧
      ∀ oldest ∈ events.head?,
        (cursor.seek ring time).2.position = cursor.reader.window.bottom ∧
        (cursor.seek ring time).2.read ring = .ok oldest) := by
  have found := border_ne_zero_iff events time
  rw [seek_eq shows ordered stands.valid]
  by_cases nothing : border events time = 0
  · have start := ring.forward_zero stands.bottom_lt
    rw [if_pos nothing]
    refine ⟨rfl, iff_of_false nofun (mt found.2 (not_not.2 nothing)), nofun, fun _ =>
      ⟨rfl, fun empty => ?_, fun oldest first => ⟨start, ?_⟩⟩⟩
    · have short : cursor.reader.length ring = 0 := by rw [shows.length, empty, List.length_nil]
      have atBottom : cursor.position = cursor.reader.window.bottom :=
        stands.valid.2.resolve_right (by omega)
      rw [start, ← atBottom]
    · rw [List.head?_eq_getElem?] at first
      exact read_forward shows stands.bottom_lt first
  · obtain ⟨event, atBorder, early, last⟩ := ordered.last_border nothing
    rw [if_neg nothing]
    exact ⟨rfl, iff_of_true rfl (found.1 nothing),
      fun _ => ⟨_, event, atBorder, early, last, rfl,
        read_forward shows stands.bottom_lt atBorder⟩, fun failed => absurd rfl failed⟩

end

/-- From the second of two events at one time, the cursor is sent to a time after them, and to one
before. -/
theorem seek_finds_wrapped :
    wrappedCursor.Stands wrappedRing ∧
    (wrappedCursor.seek wrappedRing (.ofNanos 8)).1 = .ok () ∧
    (∃ i event, wrappedEvents[i]? = some event ∧ event.time ≤ .ofNanos 8 ∧
      (∀ (j : Nat) (later : Event Bool), i < j → wrappedEvents[j]? = some later →
        .ofNanos 8 < later.time) ∧
      (wrappedCursor.seek wrappedRing (.ofNanos 8)).2.position = wrappedRing.forward 2 i ∧
      (wrappedCursor.seek wrappedRing (.ofNanos 8)).2.read wrappedRing = .ok event) ∧
    (wrappedCursor.seek wrappedRing (.ofNanos 4)).1 = .error .unavailable ∧
    (wrappedCursor.seek wrappedRing (.ofNanos 4)).2.position = 2 := by
  have stands : wrappedCursor.Stands wrappedRing := ⟨by decide, by decide⟩
  have late := seek_finds wrappedCursor_shows (by decide) stands (.ofNanos 8)
  have early := seek_finds wrappedCursor_shows (by decide) stands (.ofNanos 4)
  have found : (wrappedCursor.seek wrappedRing (.ofNanos 8)).1 = .ok () :=
    late.2.1.2 ⟨_, rfl, by decide⟩
  have lost : (wrappedCursor.seek wrappedRing (.ofNanos 4)).1 ≠ .ok () := by
    rw [ne_eq, early.2.1]
    rintro ⟨oldest, first, before⟩
    cases first
    exact absurd before (by decide)
  obtain ⟨unavailable, -, onOldest⟩ := early.2.2.2 lost
  exact ⟨stands, found, late.2.2.1 found, unavailable, (onOldest _ rfl).1⟩

end

end Cursor

end TimedTrace
