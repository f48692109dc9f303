import TimedTrace.Proofs.Publication
import TimedTrace.Ring.Update

namespace TimedTrace

variable {α : Type}

namespace Ring

theorem forward_mod (ring : Ring α) (n steps : Nat) :
    ring.forward (n % ring.size) steps = (n + steps) % ring.size := Nat.mod_add_mod ..

theorem next_mod (ring : Ring α) (n : Nat) :
    ring.next (n % ring.size) = (n + 1) % ring.size := by
  have bound := Nat.mod_lt n ring.size_pos
  have parts : (n + 1) % ring.size = (n % ring.size + 1) % ring.size := (Nat.mod_add_mod ..).symm
  unfold next
  split
  · rename_i last
    rw [parts, last, Nat.mod_self]
  · rw [parts]
    exact (Nat.mod_eq_of_lt (by omega)).symm

theorem prev_mod (ring : Ring α) (n : Nat) :
    ring.prev ((n + 1) % ring.size) = n % ring.size := by
  rw [← next_mod, prev_next]

theorem distance_mod (ring : Ring α) {a b : Nat} (upTo : a ≤ b) (near : b < a + ring.size) :
    ring.distance (a % ring.size) (b % ring.size) = b - a := by
  have walk : ring.forward (a % ring.size) (b - a) = b % ring.size := by
    rw [forward_mod, Nat.add_sub_of_le upTo]
  rw [← walk]
  exact ring.distance_forward (Nat.mod_lt _ ring.size_pos) (by omega)

/-- Numbers less than a round apart have slots of their own. -/
theorem mod_eq_iff (ring : Ring α) {a b : Nat} (upTo : a ≤ b) (near : b < a + ring.size) :
    a % ring.size = b % ring.size ↔ a = b := by
  constructor
  · intro same
    have apart := ring.distance_mod upTo near
    rw [same, distance_self] at apart
    omega
  · intro same
    rw [same]

end Ring

namespace Ring

/-- The window that a push publishes. -/
def windowAfterPush (ring : Ring α) : Window :=
  ⟨if ring.next ring.window.top = ring.window.bottom then ring.next ring.window.bottom
    else ring.window.bottom, ring.next ring.window.top⟩

/-- The round of a push that found this slot at the top. -/
def pushRound (ring : Ring α) (slot : Slot α) (event : Event α) : Round α Admission where
  token := ring.register.load.token
  next := ring.windowAfterPush
  mark := some ⟨ring.window.top, slot.stamp, event⟩
  answer := fun writers =>
    if 1 < writers then .unordered
    else if ring.next ring.window.top = ring.window.bottom then .displaced
    else .stored

/-- The ring after a push that filled this slot and published through this register. -/
def filling (ring : Ring α) (slot : Slot α) (event : Event α) (register : Register) : Ring α :=
  ({ ring.setStamp ring.window.top (slot.stamp + 1) with register }).setSlot ring.window.top
    ⟨slot.stamp + 2, some event⟩

theorem push_eq {ring : Ring α} {slot : Slot α} {register : Register} (event : Event α)
    (atTop : ring.slot? ring.window.top = some slot) (settled : slot.settled = true)
    (swaps : ring.register.swap ring.register.load.token ring.windowAfterPush = (true, register)) :
    ∃ status, ring.push event = (.ok status, ring.filling slot event register) := by
  have unmarked : (ring.setStamp ring.window.top (slot.stamp + 1)).register = ring.register := by
    unfold setStamp
    split <;> rfl
  have opening : append event ring =
      .ready (ring.pushRound slot event) (ring.setStamp ring.window.top (slot.stamp + 1)) := by
    simp only [append, atTop, settled, if_true]
    rfl
  have published : (ring.pushRound slot event).publish
      (ring.setStamp ring.window.top (slot.stamp + 1)) =
        (some ((ring.pushRound slot event).answer
          (ring.setStamp ring.window.top (slot.stamp + 1)).writers),
          ring.filling slot event register) := by
    have run : (ring.setStamp ring.window.top (slot.stamp + 1)).register.swap
        (ring.pushRound slot event).token (ring.pushRound slot event).next = (true, register) := by
      rw [unmarked]
      exact swaps
    simp only [Round.publish, run]
    rfl
  simp only [push, uncontended, contend, opening, published]
  exact ⟨_, rfl⟩

@[simp] theorem capacity_filling (ring : Ring α) (slot : Slot α) (event : Event α)
    (register : Register) : (ring.filling slot event register).capacity = ring.capacity := by
  unfold filling setStamp
  split <;> rfl

@[simp] theorem register_filling (ring : Ring α) (slot : Slot α) (event : Event α)
    (register : Register) : (ring.filling slot event register).register = register := rfl

theorem slot?_filling (ring : Ring α) (slot : Slot α) (event : Event α) (register : Register)
    (index : Nat) : (ring.filling slot event register).slot? index =
      if ring.window.top = index then
        (ring.slot? index).map fun _ => ⟨slot.stamp + 2, some event⟩
      else ring.slot? index := by
  have same (other : Nat) : ({ ring.setStamp ring.window.top (slot.stamp + 1) with register }).slot?
      other = (ring.setStamp ring.window.top (slot.stamp + 1)).slot? other := rfl
  unfold filling
  rw [slot?_setSlot, same, slot?_setStamp]
  split
  · rw [Option.map_map]
    rfl
  · rfl

end Ring

/-- What a slot holds until push number `m` fills it: nothing at first, and then the event that was
pushed a round earlier. Each push adds two to the stamp. -/
def heldUntil (pushed : List (Event α)) (size m : Nat) : Slot α :=
  ⟨2 * (m / size), if m < size then none else pushed[m - size]?⟩

theorem settled_heldUntil (pushed : List (Event α)) (size m : Nat) :
    (heldUntil pushed size m).settled = true := by
  simp [heldUntil, Slot.settled]

theorem heldUntil_add (pushed : List (Event α)) {size : Nat} (pos : 0 < size) (n : Nat) :
    heldUntil pushed size (n + size) = ⟨2 * (n / size) + 2, pushed[n]?⟩ := by
  simp only [heldUntil, Nat.add_div_right n pos, Nat.add_sub_cancel,
    if_neg (Nat.not_lt.2 (Nat.le_add_left size n)), Slot.mk.injEq, and_true]
  omega

/-- Later pushes do not change what a slot holds until then. -/
theorem heldUntil_append {pushed : List (Event α)} (more : List (Event α)) {size m : Nat}
    (near : m < pushed.length + size) :
    heldUntil (pushed ++ more) size m = heldUntil pushed size m := by
  unfold heldUntil
  split
  · rfl
  · rw [List.getElem?_append_left (by omega)]

/-- The ring has been filled by pushing these events, and by nothing else. -/
structure Ring.Filled (ring : Ring α) (pushed : List (Event α)) : Prop where
  sound : ring.register.Sound
  fits : ring.capacity ≤ ring.register.kind.maxIndex
  window : ring.window =
    ⟨(pushed.length - ring.capacity) % ring.size, pushed.length % ring.size⟩
  slots : ∀ m, pushed.length ≤ m → m < pushed.length + ring.size →
    ring.slot? (m % ring.size) = some (heldUntil pushed ring.size m)

namespace Ring.Filled

variable {ring : Ring α} {pushed : List (Event α)}

theorem of_create {kind : RegisterKind} {capacity : Nat} {epoch : Time} {patience : Patience}
    (created : Ring.create kind capacity epoch patience = .ok ring) : ring.Filled [] := by
  unfold Ring.create at created
  split at created
  · split at created
    · rename_i room fits
      cases created
      refine ⟨Register.sound_holding .., ?_, ?_, fun m _ near => ?_⟩
      · rw [Register.kind_holding]
        exact Nat.le_of_lt fits
      · simp only [List.length_nil, Nat.zero_sub, Nat.zero_mod]
        exact Register.window_holding (Nat.zero_le _) (Nat.zero_le _)
      · have inside : m < capacity + 1 := by simpa [Ring.size] using near
        simp [Ring.slot?, Ring.size, heldUntil, Nat.mod_eq_of_lt inside, inside,
          Nat.div_eq_of_lt inside]
    · cases created
  · cases created

/-- A full ring gives up its oldest event, and one with room keeps it. -/
theorem windowAfterPush (filled : ring.Filled pushed) :
    ring.windowAfterPush = ⟨(pushed.length + 1 - ring.capacity) % ring.size,
      (pushed.length + 1) % ring.size⟩ := by
  have size : ring.size = ring.capacity + 1 := rfl
  have top : ring.next ring.window.top = (pushed.length + 1) % ring.size := by
    rw [filled.window]
    exact ring.next_mod _
  unfold Ring.windowAfterPush
  rw [top, filled.window]
  by_cases full : ring.capacity ≤ pushed.length
  · have meets : (pushed.length + 1) % ring.size =
        (pushed.length - ring.capacity) % ring.size := by
      have around : pushed.length + 1 = pushed.length - ring.capacity + ring.size := by omega
      rw [around, Nat.add_mod_right]
    rw [if_pos meets, ring.next_mod, Nat.sub_add_comm full]
  · have empty : pushed.length - ring.capacity = 0 := by omega
    have room : pushed.length + 1 - ring.capacity = 0 := by omega
    have apart : (pushed.length + 1) % ring.size ≠
        (pushed.length - ring.capacity) % ring.size := by
      rw [empty, Nat.zero_mod, Nat.mod_eq_of_lt (by omega)]
      omega
    rw [if_neg apart, empty, room]

theorem push (filled : ring.Filled pushed) (event : Event α) :
    ∃ status after, ring.push event = (.ok status, after) ∧ after.Filled (pushed ++ [event]) ∧
      after.capacity = ring.capacity := by
  have size : ring.size = ring.capacity + 1 := rfl
  have atTop : ring.slot? ring.window.top =
      some (heldUntil pushed ring.size pushed.length) := by
    rw [filled.window]
    exact filled.slots _ (Nat.le_refl _) (by omega)
  have published := filled.windowAfterPush
  have bottom_lt := Nat.mod_lt (pushed.length + 1 - ring.capacity) ring.size_pos
  have top_lt := Nat.mod_lt (pushed.length + 1) ring.size_pos
  have fits := filled.fits
  obtain ⟨register, swaps, sound, kind, window⟩ :
      ∃ register, ring.register.swap ring.register.load.token ring.windowAfterPush =
        (true, register) ∧ register.Sound ∧ register.kind = ring.register.kind ∧
          register.window = ring.windowAfterPush :=
    filled.sound.swap (by rw [published]; dsimp only; omega) (by rw [published]; dsimp only; omega)
  obtain ⟨status, run⟩ := Ring.push_eq event atTop (settled_heldUntil ..) swaps
  have same : (ring.filling (heldUntil pushed ring.size pushed.length) event register).size =
      ring.size := congrArg (· + 1) (Ring.capacity_filling ..)
  refine ⟨status, _, run, ⟨sound, ?_, ?_, fun m lower upper => ?_⟩, Ring.capacity_filling ..⟩
  · rw [Ring.capacity_filling, Ring.register_filling, kind]
    exact fits
  · rw [Ring.capacity_filling, same, List.length_append]
    exact window.trans published
  · rw [List.length_append] at lower upper
    simp only [List.length_singleton, same] at lower upper
    rw [same, Ring.slot?_filling, filled.window]
    dsimp only
    by_cases newest : m = pushed.length + ring.size
    · subst newest
      have behind := filled.slots pushed.length (Nat.le_refl _) (by omega)
      rw [Nat.add_mod_right, if_pos rfl, behind, heldUntil_add _ ring.size_pos]
      simp [heldUntil]
    · have apart := mt (ring.mod_eq_iff (Nat.le_of_succ_le lower) (by omega)).1 (by omega)
      rw [if_neg apart, filled.slots m (by omega) (by omega), heldUntil_append _ (by omega)]

theorem pushAll (filled : ring.Filled pushed) (events : List (Event α)) :
    (ring.pushAll events).Filled (pushed ++ events) := by
  induction events generalizing ring pushed with
  | nil => simpa [Ring.pushAll] using filled
  | cons event events ih =>
    obtain ⟨status, after, run, filledAfter, _⟩ := filled.push event
    have rest := ih filledAfter
    rw [List.append_assoc] at rest
    simpa [Ring.pushAll, run] using rest

end Ring.Filled

/-- A ring with room for two events. -/
def smallRing : Ring Nat where
  capacity := 2
  capacity_pos := by decide
  slots := .replicate 3 ⟨0, none⟩
  register := .holding .packed ⟨0, 0⟩
  writers := 0
  epoch := .zero
  patience := .standard

theorem create_smallRing : Ring.create .packed 2 .zero .standard = .ok smallRing := rfl

end TimedTrace
