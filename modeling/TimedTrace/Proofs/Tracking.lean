import TimedTrace.Proofs.Numbering
import TimedTrace.Reader

namespace TimedTrace

variable {α : Type}

/-- The time of the event in a slot, as a probe records it. -/
def Slot.time (slot : Slot α) : Time :=
  match slot.event with
  | some event => event.time
  | none => .zero

/-- The probe that watches a slot which push number `m` is going to fill. -/
def probeUntil (pushed : List (Event α)) (size m : Nat) : Probe :=
  ⟨m % size, (heldUntil pushed size m).stamp, (heldUntil pushed size m).time⟩

theorem probeUntil_append {pushed : List (Event α)} (more : List (Event α)) {size m : Nat}
    (near : m < pushed.length + size) :
    probeUntil (pushed ++ more) size m = probeUntil pushed size m := by
  rw [probeUntil, heldUntil_append more near]
  rfl

/-- Where a reader stands: event `first` is the next one it consumes, `past` is the end of its
window, and it is safe until push number `watched`. That push overwrites the next event, or the last
one consumed if the window is empty. -/
structure Reader.Tracks (reader : Reader) (ring : Ring α) (pushed : List (Event α))
    (first past watched : Nat) : Prop where
  window : reader.window = ⟨first % ring.size, past % ring.size⟩
  probe : reader.probe = some (probeUntil pushed ring.size watched)
  upTo : first ≤ past
  short : past ≤ first + ring.capacity
  inside : past ≤ pushed.length
  near : watched < pushed.length + ring.size
  watches : watched = first + ring.size ∧ first < pushed.length ∨
    watched + 1 = first + ring.size ∧ first = past

/-- The reader stands before event `first`. -/
def Reader.Stands (reader : Reader) (ring : Ring α) (pushed : List (Event α)) (first : Nat) :
    Prop := ∃ past watched, reader.Tracks ring pushed first past watched

/-- The reader has just caught up with the ring: nothing unread is lost, and its window ends where
that of the ring does. Only if the ring has dropped the next event already, which its free slot
still holds, the window is empty. -/
def Reader.UpToDate (reader : Reader) (ring : Ring α) (pushed : List (Event α)) (first : Nat) :
    Prop :=
  ∃ past watched, reader.Tracks ring pushed first past watched ∧ pushed.length ≤ watched ∧
    (past = pushed.length ∨ past = first)

section

variable {ring : Ring α} {pushed : List (Event α)} {m : Nat}

/-- The slot that push number `m` fills, if it was filled since, has been filled at a number not yet
pushed and in a later round. -/
theorem exists_later_round (ring : Ring α) {m pushes : Nat} (passed : m < pushes) :
    ∃ later, pushes ≤ later ∧ later < pushes + ring.size ∧
      later % ring.size = m % ring.size ∧ m / ring.size < later / ring.size := by
  have pos := ring.size_pos
  have near := ring.distance_lt (pushes % ring.size) (m % ring.size)
  have lands := ring.forward_distance (Nat.mod_lt pushes pos) (Nat.mod_lt m pos)
  rw [ring.forward_mod] at lands
  have beyond := Nat.le_add_right pushes (ring.distance (pushes % ring.size) (m % ring.size))
  refine ⟨_, beyond, Nat.add_lt_add_left near _, lands, ?_⟩
  generalize pushes + ring.distance (pushes % ring.size) (m % ring.size) = later at lands beyond
  have parts := Nat.div_add_mod m ring.size
  have partsLater := Nat.div_add_mod later ring.size
  rw [lands] at partsLater
  have rounds : ring.size * (m / ring.size) < ring.size * (later / ring.size) := by omega
  exact Nat.lt_of_mul_lt_mul_left rounds

theorem watch_eq {index : Nat} {slot : Slot α} (atIndex : ring.slot? index = some slot)
    (settled : slot.settled = true) :
    Reader.watch ring index = .ok ⟨index, slot.stamp, slot.time⟩ := by
  unfold Reader.watch Slot.time
  rw [Ring.look_eq_ok_iff.2 ⟨atIndex, settled⟩]
  dsimp only
  cases slot.event with
  | none => rfl
  | some event => rfl

theorem Ring.Filled.watch_eq (filled : ring.Filled pushed) (lower : pushed.length ≤ m)
    (near : m < pushed.length + ring.size) :
    Reader.watch ring (m % ring.size) = .ok (probeUntil pushed ring.size m) :=
  TimedTrace.watch_eq (filled.slots m lower near) (settled_heldUntil ..)

/-- A watched slot has changed as soon as the push that fills it has happened. -/
theorem Ring.Filled.changed_iff (filled : ring.Filled pushed)
    (near : m < pushed.length + ring.size) :
    Reader.changed (probeUntil pushed ring.size m) ring = true ↔ m < pushed.length := by
  unfold Reader.changed
  by_cases passed : m < pushed.length
  · obtain ⟨later, lower, upper, same, round⟩ := exists_later_round ring passed
    have look := Ring.look_eq_ok_iff.2 ⟨filled.slots later lower upper, settled_heldUntil ..⟩
    have index : (probeUntil pushed ring.size m).index = later % ring.size := same.symm
    -- The stamp counts rounds, so it tells even if the event has the same time.
    have stamp : (heldUntil pushed ring.size later).stamp ≠
        (probeUntil pushed ring.size m).stamp := by
      simp only [heldUntil, probeUntil]
      omega
    rw [index, look]
    simp [stamp, passed]
  · have look := Ring.look_eq_ok_iff.2
      ⟨filled.slots m (Nat.not_lt.1 passed) near, settled_heldUntil ..⟩
    have index : (probeUntil pushed ring.size m).index = m % ring.size := rfl
    have stamp : (probeUntil pushed ring.size m).stamp = (heldUntil pushed ring.size m).stamp := rfl
    have time : (probeUntil pushed ring.size m).time = (heldUntil pushed ring.size m).time := rfl
    rw [index, look, stamp, time]
    unfold Slot.time
    dsimp only
    cases (heldUntil pushed ring.size m).event with
    | none => simp [passed]
    | some event => simp [passed, Time.lt_def]

/-- A slot is in the window if its number is, and so is the free slot. -/
theorem Ring.Filled.within_of_near (filled : ring.Filled pushed) {first : Nat}
    (inside : first ≤ pushed.length) (near : pushed.length ≤ first + ring.size) :
    ring.within ring.window (first % ring.size) = true := by
  have size : ring.size = ring.capacity + 1 := rfl
  have whole : ring.distance ring.window.bottom ring.window.top =
      pushed.length - (pushed.length - ring.capacity) := by
    rw [filled.window]
    exact ring.distance_mod (Nat.sub_le ..) (by omega)
  unfold Ring.within
  by_cases dropped : first < pushed.length - ring.capacity
  · have free : first % ring.size = ring.window.top := by
      rw [filled.window, show pushed.length = first + ring.size by omega, Nat.add_mod_right]
    rw [free]
    exact decide_eq_true (Nat.le_refl _)
  · have steps : ring.distance ring.window.bottom (first % ring.size) =
        first - (pushed.length - ring.capacity) := by
      rw [filled.window]
      exact ring.distance_mod (by omega) (by omega)
    rw [whole, steps]
    exact decide_eq_true (by omega)

variable {reader : Reader} {first past watched : Nat}

namespace Reader.Tracks

/-- A reader has lost unread events as soon as the watched slot is overwritten, and no sooner. -/
theorem lost_iff (tracks : reader.Tracks ring pushed first past watched)
    (filled : ring.Filled pushed) :
    reader.lost (probeUntil pushed ring.size watched) ring = true ↔ watched < pushed.length := by
  have changed := filled.changed_iff tracks.near
  unfold lost
  by_cases passed : watched < pushed.length
  · simp [changed.2 passed, passed]
  · -- As long as the slot is not overwritten, the next event is in the window or in the free slot.
    have near : pushed.length ≤ first + ring.size := by
      rcases tracks.watches with ⟨next, _⟩ | ⟨last, _⟩ <;> omega
    have bottom : reader.window.bottom = first % ring.size := by rw [tracks.window]
    rw [bottom, filled.within_of_near (Nat.le_trans tracks.upTo tracks.inside) near]
    simpa [passed] using changed

theorem isEmpty_iff (tracks : reader.Tracks ring pushed first past watched) :
    reader.isEmpty = true ↔ first = past := by
  have size : ring.size = ring.capacity + 1 := rfl
  have short := tracks.short
  unfold isEmpty
  rw [tracks.window]
  simpa using ring.mod_eq_iff tracks.upTo (by omega)

theorem push (tracks : reader.Tracks ring pushed first past watched) {after : Ring α}
    (same : after.capacity = ring.capacity) (event : Event α) :
    reader.Tracks after (pushed ++ [event]) first past watched := by
  have size : after.size = ring.size := congrArg (· + 1) same
  have near := tracks.near
  have inside := tracks.inside
  refine ⟨?_, ?_, tracks.upTo, ?_, ?_, ?_, ?_⟩
  · rw [size]
    exact tracks.window
  · rw [size, probeUntil_append _ near]
    exact tracks.probe
  · rw [same]
    exact tracks.short
  · rw [List.length_append]
    omega
  · rw [List.length_append, size]
    omega
  · rw [List.length_append, size]
    exact tracks.watches.imp_left fun next => ⟨next.1, Nat.lt_add_right _ next.2⟩

end Reader.Tracks

/-- Taking over the window of the ring. -/
theorem Ring.Filled.adopt (filled : ring.Filled pushed) (reader : Reader)
    (status : Synchronization) :
    ∃ after, reader.adopt ring status = (.ok status, after) ∧
      after.UpToDate ring pushed (pushed.length - ring.capacity) := by
  have size : ring.size = ring.capacity + 1 := rfl
  have pos := ring.capacity_pos
  have bottom : ring.window.bottom = (pushed.length - ring.capacity) % ring.size := by
    rw [filled.window]
  have top : ring.window.top = pushed.length % ring.size := by rw [filled.window]
  have takes {index watched : Nat} (same : index = watched % ring.size)
      (lower : pushed.length ≤ watched) (near : watched < pushed.length + ring.size)
      (chosen : (if ring.window.bottom = ring.window.top then ring.prev ring.window.bottom
        else ring.window.bottom) = index) :
      reader.adopt ring status =
        (.ok status, ⟨ring.window, some (probeUntil pushed ring.size watched)⟩) := by
    unfold Reader.adopt
    dsimp only
    rw [chosen, same, filled.watch_eq lower near]
  rcases Nat.eq_zero_or_pos pushed.length with nothing | some
  · have empty : ring.window.bottom = ring.window.top := by
      rw [bottom, top, nothing, Nat.zero_sub]
    have last : ring.prev ring.window.bottom = ring.capacity % ring.size := by
      rw [bottom, nothing, Nat.zero_sub, Nat.zero_mod, Nat.mod_eq_of_lt (by omega)]
      rfl
    refine ⟨_, takes last (by omega) (by omega) (if_pos empty), pushed.length, ring.capacity,
      ⟨filled.window, rfl, ?_, ?_, ?_, ?_, ?_⟩, by omega, .inl rfl⟩ <;> omega
  · have apart : ring.window.bottom ≠ ring.window.top := by
      rw [bottom, top]
      exact mt (ring.mod_eq_iff (by omega) (by omega)).1 (by omega)
    have next : ring.window.bottom =
        (pushed.length - ring.capacity + ring.size) % ring.size := by
      rw [bottom, Nat.add_mod_right]
    refine ⟨_, takes next (by omega) (by omega) (if_neg apart), pushed.length,
      pushed.length - ring.capacity + ring.size,
      ⟨filled.window, rfl, ?_, ?_, ?_, ?_, ?_⟩, by omega, .inl rfl⟩ <;> omega

namespace Reader.Tracks

theorem synchronize (tracks : reader.Tracks ring pushed first past watched)
    (filled : ring.Filled pushed) :
    ∃ status after next, reader.synchronize ring = (.ok status, after) ∧
      after.UpToDate ring pushed next ∧
      (status = .soft ∧ next = first ∨
        status = .hard ∧ first < next ∧ next = pushed.length - ring.capacity) := by
  have size : ring.size = ring.capacity + 1 := rfl
  have pos := ring.capacity_pos
  obtain ⟨window, probe, upTo, short, inside, near, watches⟩ := tracks
  have lost := lost_iff ⟨window, probe, upTo, short, inside, near, watches⟩ filled
  have top : ring.window.top = pushed.length % ring.size := by rw [filled.window]
  have bottom : reader.window.bottom = first % ring.size := by rw [window]
  have index : (probeUntil pushed ring.size watched).index = watched % ring.size := rfl
  unfold Reader.synchronize
  rw [probe]
  dsimp only
  by_cases passed : watched < pushed.length
  · obtain ⟨after, run, upToDate⟩ := filled.adopt reader .hard
    rw [if_pos (lost.2 passed)]
    exact ⟨_, after, _, run, upToDate, .inr ⟨rfl, by omega, rfl⟩⟩
  · rw [if_neg (mt lost.1 passed), index, top, bottom]
    rcases watches with ⟨next, unread⟩ | ⟨last, drained⟩
    · -- The next unread event is watched already.
      have here : watched % ring.size = first % ring.size := by rw [next, Nat.add_mod_right]
      rw [if_neg (by simp [here])]
      by_cases free : pushed.length = first + ring.size
      · refine ⟨_, _, first, rfl, ⟨first, watched, ⟨?_, rfl, ?_, ?_, ?_, ?_, ?_⟩, ?_⟩,
          .inl ⟨rfl, rfl⟩⟩
        · rw [free, Nat.add_mod_right]
        all_goals omega
      · refine ⟨_, _, first, rfl, ⟨pushed.length, watched, ⟨rfl, rfl, ?_, ?_, ?_, ?_, ?_⟩, ?_⟩,
          .inl ⟨rfl, rfl⟩⟩
        all_goals omega
    · -- The window is drained and the last consumed event is watched.
      have other : watched % ring.size ≠ first % ring.size := by
        have behind := mt (ring.mod_eq_iff (Nat.le_add_right watched 1) (by omega)).1 (by omega)
        rwa [last, Nat.add_mod_right] at behind
      by_cases fresh : pushed.length = first
      · rw [if_neg (by simp [fresh])]
        refine ⟨_, _, first, rfl, ⟨first, watched, ⟨?_, rfl, ?_, ?_, ?_, ?_, ?_⟩, ?_⟩,
          .inl ⟨rfl, rfl⟩⟩
        · rw [fresh]
        all_goals omega
      · have more : pushed.length % ring.size ≠ first % ring.size := by
          have apart := mt (ring.mod_eq_iff (show first ≤ pushed.length by omega) (by omega)).1
          exact Ne.symm (apart (by omega))
        have watch := filled.watch_eq (show pushed.length ≤ first + ring.size by omega) (by omega)
        rw [Nat.add_mod_right] at watch
        rw [if_pos ⟨other, more⟩, watch]
        refine ⟨_, _, first, rfl,
          ⟨pushed.length, first + ring.size, ⟨rfl, rfl, ?_, ?_, ?_, ?_, ?_⟩, ?_⟩,
          .inl ⟨rfl, rfl⟩⟩
        all_goals omega

/-- A pull succeeds unless the window is empty or something was lost, and leaves the end of the
window where it is. -/
theorem pull (tracks : reader.Tracks ring pushed first past watched)
    (filled : ring.Filled pushed) :
    (∃ cause, reader.pull ring = (.error cause, reader) ∧
        (first = past ∨ watched < pushed.length)) ∨
      ∃ event after next, reader.pull ring = (.ok event, after) ∧ pushed[first]? = some event ∧
        after.Tracks ring pushed (first + 1) past next := by
  have size : ring.size = ring.capacity + 1 := rfl
  have isEmpty := tracks.isEmpty_iff
  have lost := tracks.lost_iff filled
  obtain ⟨window, probe, upTo, short, inside, near, watches⟩ := tracks
  unfold Reader.pull
  by_cases empty : first = past
  · exact .inl ⟨_, if_pos (isEmpty.2 empty), .inl empty⟩
  · rw [if_neg (mt isEmpty.1 empty), probe]
    dsimp only
    by_cases passed : watched < pushed.length
    · exact .inl ⟨_, if_pos (lost.2 passed), .inr passed⟩
    · right
      obtain ⟨next, unread⟩ := watches.resolve_right fun drained => empty drained.2
      have atBottom := filled.slots watched (by omega) near
      have watched_eq : watched % ring.size = first % ring.size := by
        rw [next, Nat.add_mod_right]
      have held : heldUntil pushed ring.size watched =
          ⟨2 * (first / ring.size) + 2, some pushed[first]⟩ := by
        rw [next, heldUntil_add _ ring.size_pos, List.getElem?_eq_getElem unread]
      have look : ring.look (first % ring.size) =
          .ok ⟨2 * (first / ring.size) + 2, some pushed[first]⟩ := by
        rw [watched_eq] at atBottom
        rw [← held]
        exact Ring.look_eq_ok_iff.2 ⟨atBottom, settled_heldUntil ..⟩
      have stamp : (probeUntil pushed ring.size watched).stamp = 2 * (first / ring.size) + 2 := by
        simp only [probeUntil, held]
      have time : (probeUntil pushed ring.size watched).time = pushed[first].time := by
        simp only [probeUntil, held, Slot.time]
      rw [if_neg (mt lost.1 passed), window]
      dsimp only
      rw [look]
      dsimp only
      rw [if_pos ⟨stamp.symm, time.symm⟩, ring.next_mod]
      by_cases last : first + 1 = past
      · rw [if_pos (by rw [last])]
        refine ⟨_, _, watched, rfl, List.getElem?_eq_getElem unread,
          ⟨?_, rfl, ?_, ?_, ?_, ?_, ?_⟩⟩
        · rw [last]
        all_goals omega
      · -- More is unread: the reader goes over to watching the event after the one it consumed.
        have apart := mt (ring.mod_eq_iff (show first + 1 ≤ past by omega) (by omega)).1 last
        have watch := filled.watch_eq (show pushed.length ≤ first + 1 + ring.size by omega)
          (by omega)
        rw [Nat.add_mod_right] at watch
        rw [if_neg apart, watch]
        refine ⟨_, _, first + 1 + ring.size, rfl, List.getElem?_eq_getElem unread,
          ⟨rfl, rfl, ?_, ?_, ?_, ?_, ?_⟩⟩
        all_goals omega

theorem pop (tracks : reader.Tracks ring pushed first past watched)
    (filled : ring.Filled pushed) :
    (∃ cause, reader.pop ring = (.error cause, reader)) ∨
      ∃ event after newest, reader.pop ring = (.ok event, after) ∧ newest ≤ past ∧
        after.Tracks ring pushed first newest watched := by
  have isEmpty := tracks.isEmpty_iff
  have lost := tracks.lost_iff filled
  obtain ⟨window, probe, upTo, short, inside, near, watches⟩ := tracks
  unfold Reader.pop
  by_cases empty : first = past
  · exact .inl ⟨_, if_pos (isEmpty.2 empty)⟩
  · rw [if_neg (mt isEmpty.1 empty)]
    unfold Reader.gap
    rw [probe]
    dsimp only
    by_cases passed : watched < pushed.length
    · exact .inl ⟨_, if_pos (lost.2 passed)⟩
    · right
      obtain ⟨next, unread⟩ := watches.resolve_right fun drained => empty drained.2
      obtain ⟨newest, rfl⟩ := Nat.exists_eq_add_of_lt (show first < past by omega)
      have top : ring.prev reader.window.top = (first + newest) % ring.size := by
        rw [window]
        exact ring.prev_mod _
      obtain ⟨event, atNewest⟩ : ∃ event, pushed[first + newest]? = some event :=
        ⟨_, List.getElem?_eq_getElem (by omega)⟩
      have read : ring.read ((first + newest) % ring.size) = .ok event := by
        have slot := filled.slots (first + newest + ring.size) (by omega) (by omega)
        rw [Nat.add_mod_right] at slot
        refine Ring.read_eq_ok_iff.2 ⟨_, slot, settled_heldUntil .., ?_⟩
        rw [heldUntil_add _ ring.size_pos]
        exact atNewest
      rw [if_neg (mt lost.1 passed), top, read]
      refine ⟨_, _, first + newest, rfl, by omega,
        ⟨?_, rfl, ?_, ?_, ?_, near, .inl ⟨next, unread⟩⟩⟩
      · rw [window]
      all_goals omega

end Reader.Tracks

end

end TimedTrace
