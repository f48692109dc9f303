import TimedTrace.Proofs.Operations

namespace TimedTrace

variable {α β : Type}

/-- A ring of so many slots. Both ends of its window are slots, and it can publish any other window
of which this is so. -/
structure Ring.InRange (ring : Ring α) (size : Nat) : Prop where
  slots : ring.size = size
  sound : ring.register.Sound
  fits : ring.capacity ≤ ring.register.kind.maxIndex
  bottom_lt : ring.window.bottom < size
  top_lt : ring.window.top < size

/-- What changes the window of a ring. -/
inductive Update (α : Type) where
  | append (event : Event α)
  | take (end_ : End)
  deriving DecidableEq, Repr

/-- The same round for an update that answers nothing. -/
def Round.silent (round : Round α β) : Round α Unit :=
  ⟨round.token, round.next, round.mark, fun _ => ()⟩

/-- The round that is ready to swap, if there is one, and the ring as it has marked it. -/
def Opening.round? : Opening α β → Option (Round α Unit × Ring α)
  | .ready round ring => some (round.silent, ring)
  | .refused _ | .blocked => none

namespace Update

def round? (ring : Ring α) : Update α → Option (Round α Unit × Ring α)
  | append event => (Ring.append event ring).round?
  | take end_ => (end_.opening ring).round?

/-- The whole update, with nobody else about. -/
def apply (ring : Ring α) : Update α → Ring α
  | append event => (ring.push event).2
  | take .oldest => ring.pull.2
  | take .newest => ring.pop.2

end Update

/-- Swaps, or fails to. A round that has swapped still has its slot to fill. -/
def Round.swap (round : Round α β) (fails : Bool) (ring : Ring α) : Bool × Ring α :=
  if fails then (false, round.withdraw ring)
  else
    match ring.register.swap round.token round.next with
    | (true, register) => (true, { ring with register })
    | (false, register) => (false, round.withdraw { ring with register })

/-- An update on its way. -/
structure Flight (α : Type) where
  round : Round α Unit
  /-- It has swapped, and only has to fill its slot. -/
  swapped : Bool

/-- What happens to a ring next. -/
inductive Motion (α : Type) where
  /-- A whole operation. -/
  | perform (operation : Ring.Operation α)
  /-- An update sets out, be it for the first time or again after a lost round. -/
  | start (update : Update α)
  /-- A flight swaps. If that fails, for a reason or for none, its round is lost. -/
  | swap (number : Nat) (fails : Bool)
  /-- A flight that has swapped fills its slot. -/
  | fill (number : Nat)

/-- A ring and the updates that are on their way. -/
structure Traffic (α : Type) where
  ring : Ring α
  flights : List (Flight α)

namespace Traffic

/-- Nothing is on its way. -/
def idle (ring : Ring α) : Traffic α := ⟨ring, []⟩

def start (traffic : Traffic α) (update : Update α) : Traffic α :=
  match update.round? traffic.ring with
  | some (round, ring) => ⟨ring, ⟨round, false⟩ :: traffic.flights⟩
  | none => traffic

def swap (traffic : Traffic α) (number : Nat) (fails : Bool) : Traffic α :=
  match traffic.flights[number]? with
  | some ⟨round, false⟩ =>
    match round.swap fails traffic.ring with
    | (true, ring) => ⟨ring, traffic.flights.set number ⟨round, true⟩⟩
    | (false, ring) => ⟨ring, traffic.flights.eraseIdx number⟩
  | _ => traffic

def fill (traffic : Traffic α) (number : Nat) : Traffic α :=
  match traffic.flights[number]? with
  | some ⟨round, true⟩ => ⟨round.complete traffic.ring, traffic.flights.eraseIdx number⟩
  | _ => traffic

def step (traffic : Traffic α) : Motion α → Traffic α
  | .perform operation => { traffic with ring := (traffic.ring.perform operation).2 }
  | .start update => traffic.start update
  | .swap number fails => traffic.swap number fails
  | .fill number => traffic.fill number

/-- A run of a ring and somebody who uses it: each time something happens to the ring, or the user
acts on it as it is then. -/
def run {σ κ : Type} (act : Ring α → σ → κ → σ) :
    List (Motion α ⊕ κ) → Traffic α × σ → Traffic α × σ
  | [], state => state
  | .inl motion :: rest, (traffic, user) => run act rest (traffic.step motion, user)
  | .inr command :: rest, (traffic, user) => run act rest (traffic, act traffic.ring user command)

/-- The ring is in range, and stays so whichever flight swaps next. -/
structure InRange (traffic : Traffic α) (size : Nat) : Prop where
  ring : traffic.ring.InRange size
  flights : ∀ flight ∈ traffic.flights,
    flight.round.next.bottom < size ∧ flight.round.next.top < size

end Traffic

/-- A swap and a fill after one another are what a publication is in one step. -/
theorem Round.publish_eq (round : Round α β) (ring : Ring α) :
    (round.publish ring).2 =
      match round.silent.swap false ring with
      | (true, ring) => round.silent.complete ring
      | (false, ring) => ring := by
  unfold publish swap silent
  simp only [Bool.false_eq_true, if_false]
  cases ring.register.swap round.token round.next with
  | mk published register =>
    cases published with
    | true => rfl
    | false => rfl

theorem Ring.uncontended_eq (ring : Ring α) (opening : Ring α → Opening α β) :
    (ring.uncontended opening).2 =
      match (opening ring).round? with
      | some (round, marked) => (round.publish marked).2
      | none => ring := by
  unfold uncontended contend
  cases opening ring with
  | refused cause => rfl
  | blocked => rfl
  | ready round marked =>
    dsimp only [Opening.round?]
    unfold Round.publish Round.silent
    dsimp only
    cases marked.register.swap round.token round.next with
    | mk published register =>
      cases published with
      | true => rfl
      | false => rfl

theorem Update.apply_eq (ring : Ring α) (update : Update α) :
    update.apply ring =
      match update.round? ring with
      | some (round, marked) => (round.publish marked).2
      | none => ring := by
  cases update with
  | append event => exact ring.uncontended_eq (Ring.append event)
  | take end_ => cases end_ <;> exact ring.uncontended_eq _

section

variable {ring marked : Ring α} {round : Round α Unit}

/-- An append that begins a round marks the slot at the top, which is settled. -/
theorem Update.begun_append {event : Event α}
    (begun : (append event).round? ring = some (round, marked)) :
    ∃ slot, ring.slot? ring.window.top = some slot ∧ slot.settled = true ∧
      round.mark = some ⟨ring.window.top, slot.stamp, event⟩ ∧
      round.next = ⟨if ring.next ring.window.top = ring.window.bottom then
        ring.next ring.window.bottom else ring.window.bottom, ring.next ring.window.top⟩ ∧
      marked = ring.setStamp ring.window.top (slot.stamp + 1) := by
  unfold round? Ring.append at begun
  dsimp only at begun
  split at begun
  · cases begun
  · rename_i slot atTop
    split at begun
    · rename_i settled
      cases begun
      exact ⟨slot, atTop, settled, rfl, rfl, rfl⟩
    · cases begun

/-- A take that begins a round marks nothing, and there is something to take. -/
theorem Update.begun_take {end_ : End} (begun : (take end_).round? ring = some (round, marked)) :
    ring.window.bottom ≠ ring.window.top ∧ round.mark = none ∧ round.next = end_.next ring ∧
      marked = ring := by
  unfold round? at begun
  dsimp only at begun
  rw [End.opening_eq] at begun
  unfold Ring.take at begun
  split at begun
  · cases begun
  · rename_i some
    split at begun
    · cases begun
    · cases begun
      exact ⟨some, rfl, rfl, rfl⟩

end

namespace Traffic

/-- An update that nobody comes in between is a whole one. -/
theorem fill_swap_start (ring : Ring α) (update : Update α) :
    (((idle ring).start update).swap 0 false).fill 0 = idle (update.apply ring) := by
  rw [update.apply_eq]
  unfold idle start
  dsimp only
  cases update.round? ring with
  | none => rfl
  | some begun =>
    obtain ⟨round, marked⟩ := begun
    dsimp only
    rw [round.publish_eq]
    have silent : round.silent = round := rfl
    rw [silent]
    unfold swap
    dsimp only [List.getElem?_cons_zero]
    cases round.swap false marked with
    | mk swapped ring =>
      cases swapped with
      | true => rfl
      | false => rfl

end Traffic

namespace Ring.InRange

variable {ring after : Ring α} {size : Nat}

/-- What the slots hold does not matter. -/
theorem congr (inRange : ring.InRange size) (capacity : after.capacity = ring.capacity)
    (register : after.register = ring.register) : after.InRange size := by
  have window : after.window = ring.window := congrArg Register.window register
  refine ⟨(Ring.size_eq capacity).trans inRange.slots, ?_, ?_, ?_, ?_⟩
  · rw [register]
    exact inRange.sound
  · rw [capacity, register]
    exact inRange.fits
  · rw [window]
    exact inRange.bottom_lt
  · rw [window]
    exact inRange.top_lt

theorem setStamp (inRange : ring.InRange size) (index stamp : Nat) :
    (ring.setStamp index stamp).InRange size :=
  inRange.congr (Ring.capacity_setStamp ..) (Ring.register_setStamp ..)

theorem setSlot (inRange : ring.InRange size) (index : Nat) (slot : Slot α) :
    (ring.setSlot index slot).InRange size :=
  inRange.congr rfl rfl

theorem withdraw (inRange : ring.InRange size) (round : Round α β) :
    (round.withdraw ring).InRange size := by
  unfold Round.withdraw
  split
  · exact inRange
  · exact inRange.setStamp ..

theorem complete (inRange : ring.InRange size) (round : Round α β) :
    (round.complete ring).InRange size := by
  unfold Round.complete
  split
  · exact inRange
  · exact inRange.setSlot ..

/-- Another register may take the place of this one. -/
theorem publish (inRange : ring.InRange size) {register : Register} (sound : register.Sound)
    (kind : register.kind = ring.register.kind) (bottom_lt : register.window.bottom < size)
    (top_lt : register.window.top < size) : { ring with register }.InRange size :=
  ⟨inRange.slots, sound, kind ▸ inRange.fits, bottom_lt, top_lt⟩

theorem swap (inRange : ring.InRange size) (round : Round α β)
    (bottom_lt : round.next.bottom < size) (top_lt : round.next.top < size) (fails : Bool) :
    (round.swap fails ring).2.InRange size := by
  have fits := inRange.fits
  have slots : ring.capacity + 1 = size := inRange.slots
  unfold Round.swap
  split
  · exact inRange.withdraw round
  · rcases inRange.sound.swap_cases round.token round.next (by omega) (by omega) with
      ⟨register, run, _, sound, window, swaps⟩ | ⟨register, run, _, sound, swaps⟩
    · rw [run]
      refine inRange.publish sound swaps.kind ?_ ?_
      · rwa [window]
      · rwa [window]
    · rw [run]
      have same : register.window = ring.window := congrArg Snapshot.window (swaps.still rfl)
      refine (inRange.publish sound swaps.kind ?_ ?_).withdraw round
      · rw [same]
        exact inRange.bottom_lt
      · rw [same]
        exact inRange.top_lt

/-- A round that sets out leads to a window between slots. -/
theorem round? (inRange : ring.InRange size) {update : Update α} {round : Round α Unit}
    {marked : Ring α} (begun : update.round? ring = some (round, marked)) :
    marked.InRange size ∧ round.next.bottom < size ∧ round.next.top < size := by
  have slots := inRange.slots
  subst slots
  have bottom_lt := inRange.bottom_lt
  have top_lt := inRange.top_lt
  cases update with
  | append event =>
    obtain ⟨_, _, _, _, next, rfl⟩ := Update.begun_append begun
    rw [next]
    refine ⟨inRange.setStamp .., ?_, ring.next_lt top_lt⟩
    dsimp only
    split
    · exact ring.next_lt bottom_lt
    · exact bottom_lt
  | take end_ =>
    obtain ⟨_, _, next, same⟩ := Update.begun_take begun
    rw [next, same]
    refine ⟨inRange, ?_⟩
    cases end_ with
    | oldest => exact ⟨ring.next_lt bottom_lt, top_lt⟩
    | newest => exact ⟨bottom_lt, ring.prev_lt top_lt⟩

theorem apply (inRange : ring.InRange size) (update : Update α) :
    (update.apply ring).InRange size := by
  rw [update.apply_eq]
  split
  · rename_i round marked begun
    obtain ⟨inRange, bottom_lt, top_lt⟩ := inRange.round? begun
    rw [round.publish_eq]
    have swapped := inRange.swap round.silent bottom_lt top_lt false
    split
    · rename_i run
      rw [run] at swapped
      exact swapped.complete _
    · rename_i run
      rwa [run] at swapped
  · exact inRange

theorem perform (inRange : ring.InRange size) (operation : Ring.Operation α) :
    (ring.perform operation).2.InRange size := by
  cases operation with
  | push event => exact inRange.apply (.append event)
  | pull => exact inRange.apply (.take .oldest)
  | pop => exact inRange.apply (.take .newest)
  | read index => exact inRange
  | write event index =>
    unfold Ring.perform Ring.write
    dsimp only
    split
    · exact inRange
    · exact inRange.setSlot ..
  | attachWriter => exact inRange.congr rfl rfl
  | detachWriter => exact inRange.congr rfl rfl

end Ring.InRange

namespace Traffic.InRange

variable {traffic : Traffic α} {size : Nat}

theorem of_create {kind : RegisterKind} {capacity : Nat} {epoch : Time} {patience : Patience}
    {ring : Ring α} (created : Ring.create kind capacity epoch patience = .ok ring) :
    (idle ring).InRange ring.size := by
  have holds := Ring.Holds.of_create created
  exact ⟨⟨rfl, holds.sound, holds.fits, holds.bottom_lt, holds.top_lt⟩, nofun⟩

theorem start (inRange : traffic.InRange size) (update : Update α) :
    (traffic.start update).InRange size := by
  unfold Traffic.start
  split
  · rename_i round ring begun
    obtain ⟨ringInRange, bounds⟩ := inRange.ring.round? begun
    refine ⟨ringInRange, fun flight mem => ?_⟩
    rcases List.mem_cons.1 mem with rfl | earlier
    · exact bounds
    · exact inRange.flights flight earlier
  · exact inRange

theorem swap (inRange : traffic.InRange size) (number : Nat) (fails : Bool) :
    (traffic.swap number fails).InRange size := by
  unfold Traffic.swap
  split
  · rename_i round atNumber
    have bounds := inRange.flights _ (List.mem_of_getElem? atNumber)
    have swapped := inRange.ring.swap round bounds.1 bounds.2 fails
    split
    · rename_i run
      rw [run] at swapped
      refine ⟨swapped, fun flight mem => ?_⟩
      rcases List.mem_or_eq_of_mem_set mem with earlier | rfl
      · exact inRange.flights flight earlier
      · exact bounds
    · rename_i run
      rw [run] at swapped
      exact ⟨swapped, fun flight mem => inRange.flights flight (List.mem_of_mem_eraseIdx mem)⟩
  · exact inRange

theorem fill (inRange : traffic.InRange size) (number : Nat) :
    (traffic.fill number).InRange size := by
  unfold Traffic.fill
  split
  · exact ⟨inRange.ring.complete _,
      fun flight mem => inRange.flights flight (List.mem_of_mem_eraseIdx mem)⟩
  · exact inRange

theorem step (inRange : traffic.InRange size) (motion : Motion α) :
    (traffic.step motion).InRange size := by
  cases motion with
  | perform operation => exact ⟨inRange.ring.perform operation, inRange.flights⟩
  | start update => exact inRange.start update
  | swap number fails => exact inRange.swap number fails
  | fill number => exact inRange.fill number

/-- What every act of the user keeps to, on any ring in range, holds throughout the run. -/
theorem run {σ κ : Type} {act : Ring α → σ → κ → σ} (Keeps : σ → Prop)
    (kept : ∀ ring user command, ring.InRange size → Keeps user → Keeps (act ring user command))
    {happenings : List (Motion α ⊕ κ)} {after : Traffic α} {user final : σ}
    (ran : Traffic.run act happenings (traffic, user) = (after, final))
    (inRange : traffic.InRange size) (keeps : Keeps user) : after.InRange size ∧ Keeps final := by
  induction happenings generalizing traffic user with
  | nil =>
    cases ran
    exact ⟨inRange, keeps⟩
  | cons next rest ih =>
    cases next with
    | inl motion => exact ih ran (inRange.step motion) keeps
    | inr command => exact ih ran inRange (kept _ _ command inRange.ring keeps)

end Traffic.InRange

end TimedTrace
