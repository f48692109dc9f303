import TimedTrace.Proofs.Numbering

namespace TimedTrace

variable {α : Type}

/-- The list after an append. If it is as long as may be, it drops its first event. -/
def appended (capacity : Nat) (items : List (Event α)) (event : Event α) : List (Event α) :=
  (if items.length = capacity then items.tail else items) ++ [event]

namespace Ring

@[simp] theorem forward_zero (ring : Ring α) {start : Nat} (bound : start < ring.size) :
    ring.forward start 0 = start := Nat.mod_eq_of_lt bound

theorem next_forward (ring : Ring α) (start steps : Nat) :
    ring.next (ring.forward start steps) = ring.forward start (steps + 1) :=
  ring.next_mod (start + steps)

theorem next_eq_forward (ring : Ring α) {start : Nat} (bound : start < ring.size) :
    ring.next start = ring.forward start 1 := by
  have next := ring.next_forward start 0
  rwa [ring.forward_zero bound] at next

theorem prev_forward (ring : Ring α) (start steps : Nat) :
    ring.prev (ring.forward start (steps + 1)) = ring.forward start steps :=
  ring.prev_mod (start + steps)

theorem forward_forward (ring : Ring α) (start first second : Nat) :
    ring.forward (ring.forward start first) second = ring.forward start (first + second) := by
  unfold forward
  rw [Nat.mod_add_mod, Nat.add_assoc]

theorem forward_inj (ring : Ring α) {start first second : Nat} (start_lt : start < ring.size)
    (first_lt : first < ring.size) (second_lt : second < ring.size) :
    ring.forward start first = ring.forward start second ↔ first = second := by
  constructor
  · intro same
    have apart := ring.distance_forward start_lt first_lt
    rw [same, ring.distance_forward start_lt second_lt] at apart
    exact apart.symm
  · rintro rfl
    rfl

theorem forward_size (ring : Ring α) {start : Nat} (bound : start < ring.size) :
    ring.forward start ring.size = start := by
  unfold forward
  rw [Nat.add_mod_right, Nat.mod_eq_of_lt bound]

theorem size_eq {ring after : Ring α} (same : after.capacity = ring.capacity) :
    after.size = ring.size := congrArg (· + 1) same

theorem forward_eq {ring after : Ring α} (same : after.capacity = ring.capacity)
    (start steps : Nat) : after.forward start steps = ring.forward start steps := by
  unfold forward
  rw [size_eq same]

theorem exists_slot {ring : Ring α} {index : Nat} (bound : index < ring.size) :
    ∃ slot, ring.slot? index = some slot := ⟨_, Vector.getElem?_eq_getElem bound⟩

theorem read_congr {ring after : Ring α} {index : Nat} (same : after.slot? index = ring.slot? index)
    {event : Event α} (read : ring.read index = .ok event) : after.read index = .ok event := by
  rw [read_eq_ok_iff, same]
  exact read_eq_ok_iff.1 read

/-- The window of the ring holds these events, oldest first, in settled slots, and the register is
ready to publish any other window. -/
structure Holds (ring : Ring α) (items : List (Event α)) : Prop where
  sound : ring.register.Sound
  fits : ring.capacity ≤ ring.register.kind.maxIndex
  short : items.length ≤ ring.capacity
  bottom_lt : ring.window.bottom < ring.size
  top : ring.window.top = ring.forward ring.window.bottom items.length
  read : ∀ (i : Nat) (event : Event α), items[i]? = some event →
    ring.read (ring.forward ring.window.bottom i) = .ok event

namespace Holds

variable {ring after : Ring α} {items : List (Event α)}

theorem of_create {kind : RegisterKind} {capacity : Nat} {epoch : Time} {patience : Patience}
    (created : Ring.create kind capacity epoch patience = .ok ring) : ring.Holds [] := by
  have filled := Filled.of_create created
  have window : ring.window = ⟨0, 0⟩ := by
    rw [filled.window]
    simp
  refine ⟨filled.sound, filled.fits, Nat.zero_le _, ?_, ?_, fun i event atI => by simp at atI⟩
  · rw [window]
    exact ring.size_pos
  · rw [window]
    exact (ring.forward_zero ring.size_pos).symm

theorem length_lt (holds : ring.Holds items) : items.length < ring.size :=
  Nat.lt_succ_of_le holds.short

theorem length_eq (holds : ring.Holds items) : ring.length = items.length := by
  rw [Ring.length, holds.top]
  exact ring.distance_forward holds.bottom_lt holds.length_lt

theorem top_lt (holds : ring.Holds items) : ring.window.top < ring.size := by
  rw [holds.top]
  exact ring.forward_lt ..

/-- The window is that of the list, wherever it begins. -/
theorem window_eq (holds : ring.Holds items) : ring.window =
    ⟨ring.window.bottom, ring.forward ring.window.bottom items.length⟩ := by
  rw [← holds.top]

theorem bottom_eq_top_iff (holds : ring.Holds items) :
    ring.window.bottom = ring.window.top ↔ items = [] := by
  have inj := ring.forward_inj holds.bottom_lt ring.size_pos holds.length_lt
  rw [ring.forward_zero holds.bottom_lt, ← holds.top] at inj
  rw [inj, eq_comm, List.length_eq_zero_iff]

/-- The ring is full exactly if the slot after its top is its bottom. -/
theorem full_iff (holds : ring.Holds items) :
    ring.next ring.window.top = ring.window.bottom ↔ items.length = ring.capacity := by
  have size : ring.size = ring.capacity + 1 := rfl
  have short := holds.short
  rw [holds.top, ring.next_forward]
  by_cases full : items.length = ring.capacity
  · simp only [full, ← size, ring.forward_size holds.bottom_lt]
  · have inj := ring.forward_inj holds.bottom_lt (show items.length + 1 < ring.size by omega)
      ring.size_pos
    rw [ring.forward_zero holds.bottom_lt] at inj
    simp [inj, full]

/-- A slot of the window is not the free slot at its top. -/
theorem forward_ne_top (holds : ring.Holds items) {i : Nat} (inside : i < items.length) :
    ring.forward ring.window.bottom i ≠ ring.window.top := by
  have length_lt := holds.length_lt
  rw [holds.top]
  exact mt (ring.forward_inj holds.bottom_lt (by omega) length_lt).1 (by omega)

theorem slot (holds : ring.Holds items) {i : Nat} (inside : i < items.length) :
    ∃ slot, ring.slot? (ring.forward ring.window.bottom i) = some slot ∧ slot.settled = true ∧
      slot.event = some items[i] :=
  read_eq_ok_iff.1 (holds.read i _ (List.getElem?_eq_getElem inside))

/-- A ring holds one list of events only. -/
theorem unique (holds : ring.Holds items) {others : List (Event α)} (also : ring.Holds others) :
    items = others := by
  have length : items.length = others.length := by rw [← holds.length_eq, also.length_eq]
  refine List.ext_getElem length fun i inside insideOthers => ?_
  have read := holds.read i _ (List.getElem?_eq_getElem inside)
  rw [also.read i _ (List.getElem?_eq_getElem insideOthers)] at read
  exact (Except.ok.inj read).symm

/-- A slot that is marked is none of the window. -/
theorem forward_ne_marked (holds : ring.Holds items) {index : Nat} {slot : Slot α}
    (atIndex : ring.slot? index = some slot) (marked : slot.settled = false) {i : Nat}
    (inside : i < items.length) : ring.forward ring.window.bottom i ≠ index := by
  rintro rfl
  obtain ⟨other, atOther, settled, _⟩ := holds.slot inside
  rw [atIndex] at atOther
  cases atOther
  rw [marked] at settled
  cases settled

/-- Where the window of a ring ends, seen from any slot that is marked. -/
theorem length_le_distance (holds : ring.Holds items) {index : Nat} {slot : Slot α}
    (atIndex : ring.slot? index = some slot) (marked : slot.settled = false) :
    ring.length ≤ ring.distance ring.window.bottom index := by
  have index_lt : index < ring.size := by
    refine Nat.not_le.1 fun beyond => ?_
    rw [slot?_eq_none_iff.2 beyond] at atIndex
    cases atIndex
  refine Nat.not_lt.1 fun near => ?_
  rw [holds.length_eq] at near
  exact holds.forward_ne_marked atIndex marked near (ring.forward_distance holds.bottom_lt index_lt)

/-- The window of another ring of the same size that begins so many slots further on. -/
theorem shift (holds : ring.Holds items) {rest : List (Event α)} (steps : Nat)
    (capacity : after.capacity = ring.capacity) (sound : after.register.Sound)
    (kind : after.register.kind = ring.register.kind) (short : rest.length ≤ ring.capacity)
    (window : after.window = ⟨ring.forward ring.window.bottom steps,
      ring.forward ring.window.bottom (steps + rest.length)⟩)
    (read : ∀ (i : Nat) (event : Event α), rest[i]? = some event →
      after.read (ring.forward ring.window.bottom (steps + i)) = .ok event) :
    after.Holds rest where
  sound := sound
  fits := by
    rw [capacity, kind]
    exact holds.fits
  short := by
    rw [capacity]
    exact short
  bottom_lt := by
    rw [window, size_eq capacity]
    exact ring.forward_lt ..
  top := by
    rw [window, forward_eq capacity]
    exact (ring.forward_forward ..).symm
  read i event atI := by
    rw [window, forward_eq capacity]
    dsimp only
    rw [ring.forward_forward]
    exact read i event atI

/-- What happens outside of the window does not change what it holds. -/
theorem congr (holds : ring.Holds items) (capacity : after.capacity = ring.capacity)
    (sound : after.register.Sound) (kind : after.register.kind = ring.register.kind)
    (window : after.window = ring.window)
    (slots : ∀ i, i < items.length → after.slot? (ring.forward ring.window.bottom i) =
      ring.slot? (ring.forward ring.window.bottom i)) : after.Holds items := by
  refine holds.shift 0 capacity sound kind holds.short ?_ fun i event atI => ?_
  · rw [window, ring.forward_zero holds.bottom_lt, Nat.zero_add]
    exact holds.window_eq
  · rw [Nat.zero_add]
    exact read_congr (slots i (List.getElem?_eq_some_iff.1 atI).1) (holds.read i event atI)

section

variable {register : Register}

theorem tail (holds : ring.Holds items) (some : items ≠ []) (sound : register.Sound)
    (kind : register.kind = ring.register.kind)
    (window : register.window = ⟨ring.next ring.window.bottom, ring.window.top⟩) :
    { ring with register }.Holds items.tail := by
  have short := holds.short
  have next := ring.next_eq_forward holds.bottom_lt
  have length : 1 + items.tail.length = items.length := by
    have := List.length_pos_iff.2 some
    rw [List.length_tail]
    omega
  refine holds.shift 1 rfl sound kind (by omega) ?_ fun i event atI => ?_
  · rw [length, ← next, ← holds.top]
    exact window
  · rw [List.getElem?_tail, Nat.add_comm] at atI
    exact holds.read (1 + i) event atI

theorem dropLast (holds : ring.Holds items) (some : items ≠ []) (sound : register.Sound)
    (kind : register.kind = ring.register.kind)
    (window : register.window = ⟨ring.window.bottom, ring.prev ring.window.top⟩) :
    { ring with register }.Holds items.dropLast := by
  have short := holds.short
  have length : items.dropLast.length + 1 = items.length := by
    have := List.length_pos_iff.2 some
    rw [List.length_dropLast]
    omega
  have prev : ring.prev ring.window.top =
      ring.forward ring.window.bottom items.dropLast.length := by
    rw [holds.top, ← length]
    exact ring.prev_forward ..
  refine holds.shift 0 rfl sound kind (by omega) ?_ fun i event atI => ?_
  · rw [Nat.zero_add, ring.forward_zero holds.bottom_lt, ← prev]
    exact window
  · rw [Nat.zero_add]
    have inside : i < items.dropLast.length := (List.getElem?_eq_some_iff.1 atI).1
    rw [List.getElem?_dropLast, if_pos (by omega)] at atI
    exact holds.read i event atI

theorem windowAfterPush (holds : ring.Holds items) : ring.windowAfterPush =
    ⟨if items.length = ring.capacity then ring.forward ring.window.bottom 1
      else ring.window.bottom, ring.forward ring.window.bottom (items.length + 1)⟩ := by
  have next := ring.next_eq_forward holds.bottom_lt
  unfold Ring.windowAfterPush
  simp only [holds.full_iff, next]
  rw [holds.top, ring.next_forward]

/-- The slot at the top becomes the newest of the window, which may lose its oldest. -/
theorem append_drop (holds : ring.Holds items) (steps : Nat) (inside : steps ≤ items.length)
    (room : items.length < ring.capacity + steps) (sound : register.Sound)
    (kind : register.kind = ring.register.kind)
    (window : register.window = ⟨ring.forward ring.window.bottom steps,
      ring.forward ring.window.bottom (items.length + 1)⟩) {slot : Slot α} {event : Event α}
    (settled : slot.settled = true) (holdsEvent : slot.event = some event) :
    ({ ring with register }.setSlot ring.window.top slot).Holds (items.drop steps ++ [event]) := by
  have same (other : Nat) : { ring with register }.slot? other = ring.slot? other := rfl
  have length : steps + (items.drop steps ++ [event]).length = items.length + 1 := by
    rw [List.length_append, List.length_drop, List.length_singleton]
    omega
  refine holds.shift steps rfl sound kind (by omega) ?_ fun i other atI => ?_
  · rw [length]
    exact window
  · by_cases last : steps + i = items.length
    · have past : (items.drop steps).length ≤ i := by
        rw [List.length_drop]
        omega
      obtain ⟨free, atTop⟩ := exists_slot holds.top_lt
      rw [List.getElem?_append_right past, List.getElem?_singleton] at atI
      obtain ⟨_, isNew⟩ := Option.ite_none_right_eq_some.1 atI
      cases isNew
      rw [last, ← holds.top]
      refine read_eq_ok_iff.2 ⟨slot, ?_, settled, holdsEvent⟩
      rw [slot?_setSlot, same, if_pos rfl, atTop]
      rfl
    · have old : i < (items.drop steps).length := by
        have bound := (List.getElem?_eq_some_iff.1 atI).1
        rw [List.length_append, List.length_singleton] at bound
        rw [List.length_drop] at bound ⊢
        omega
      rw [List.getElem?_append_left old, List.getElem?_drop] at atI
      refine read_congr ?_ (holds.read (steps + i) other atI)
      have apart := holds.forward_ne_top (List.getElem?_eq_some_iff.1 atI).1
      rw [slot?_setSlot, same, if_neg (Ne.symm apart)]

/-- An append adds the event to the list, and drops the first one if there is no room. -/
theorem append (holds : ring.Holds items) (sound : register.Sound)
    (kind : register.kind = ring.register.kind)
    (window : register.window = ring.windowAfterPush) {slot : Slot α} {event : Event α}
    (settled : slot.settled = true) (holdsEvent : slot.event = some event) :
    ({ ring with register }.setSlot ring.window.top slot).Holds
      (appended ring.capacity items event) := by
  have short := holds.short
  have pos := ring.capacity_pos
  rw [holds.windowAfterPush] at window
  unfold appended
  by_cases full : items.length = ring.capacity
  · rw [if_pos full] at window ⊢
    rw [← List.drop_one]
    exact holds.append_drop 1 (by omega) (by omega) sound kind window settled holdsEvent
  · rw [if_neg full] at window ⊢
    refine holds.append_drop 0 (Nat.zero_le _) (by omega) sound kind ?_ settled holdsEvent
    rw [ring.forward_zero holds.bottom_lt]
    exact window

end

end Holds

end Ring

end TimedTrace
