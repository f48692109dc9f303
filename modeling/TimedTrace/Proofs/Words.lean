import TimedTrace.Proofs.Flights
import TimedTrace.Reader
import Mathlib.Data.List.InsertIdx

namespace TimedTrace

variable {α β : Type}

/-- The slot with its stamp cut down to a word. -/
def Slot.wrapped (slot : Slot α) : Slot α := { slot with stamp := slot.stamp % UInt64.size }

theorem Slot.stamp_wrapped (slot : Slot α) : slot.wrapped.stamp = slot.word.toNat :=
  UInt64.toNat_ofNat'.symm

theorem Slot.settled_wrapped (slot : Slot α) : slot.wrapped.settled = slot.settled := by
  have parity : slot.stamp % UInt64.size % 2 = slot.stamp % 2 := by
    unfold UInt64.size
    omega
  unfold settled wrapped
  rw [parity]

/-- A word tells whether its slot is marked as the stamp does. -/
theorem Slot.settled_eq_word (slot : Slot α) : slot.settled = decide (slot.word.toNat % 2 = 0) := by
  rw [← slot.settled_wrapped, ← slot.stamp_wrapped]
  rfl

def Mark.wrapped (mark : Mark α) : Mark α := { mark with stamp := mark.stamp % UInt64.size }

def Round.wrapped (round : Round α β) : Round α β :=
  { round with mark := round.mark.map Mark.wrapped }

def Probe.wrapped (probe : Probe) : Probe := { probe with stamp := probe.stamp % UInt64.size }

def Ring.wrapped (ring : Ring α) : Ring α := { ring with slots := ring.slots.map Slot.wrapped }

def Flight.wrapped (flight : Flight α) : Flight α := { flight with round := flight.round.wrapped }

/-- The ring and the flights with all stamps cut down to words. -/
def Traffic.wrapped (traffic : Traffic α) : Traffic α :=
  ⟨traffic.ring.wrapped, traffic.flights.map Flight.wrapped⟩

namespace Ring

theorem slot?_wrapped (ring : Ring α) (index : Nat) :
    ring.wrapped.slot? index = (ring.slot? index).map Slot.wrapped := Vector.getElem?_map ..

theorem wrapped_wrapped (ring : Ring α) : ring.wrapped.wrapped = ring.wrapped := by
  have twice : Slot.wrapped ∘ Slot.wrapped = (Slot.wrapped : Slot α → Slot α) := by
    funext slot
    exact congrArg (Slot.mk · slot.event) (Nat.mod_mod ..)
  have slots : (ring.slots.map Slot.wrapped).map Slot.wrapped = ring.slots.map Slot.wrapped := by
    rw [Vector.map_map, twice]
  exact congrArg (fun slots => { ring with slots }) slots

/-- Stamps begin at zero, which is a word. -/
theorem wrapped_of_create {kind : RegisterKind} {capacity : Nat} {epoch : Time}
    {patience : Patience} {ring : Ring α}
    (created : create kind capacity epoch patience = .ok ring) : ring.wrapped = ring := by
  unfold create at created
  split at created
  · split at created
    · cases created
      have slots : (Vector.replicate (capacity + 1) (⟨0, none⟩ : Slot α)).map Slot.wrapped =
          Vector.replicate (capacity + 1) ⟨0, none⟩ := Vector.map_replicate
      unfold wrapped
      dsimp only
      rw [slots]
    · cases created
  · cases created

theorem wrapped_setSlot (ring : Ring α) (index : Nat) (slot : Slot α) :
    (ring.setSlot index slot).wrapped = ring.wrapped.setSlot index slot.wrapped := by
  have slots : (ring.slots.setIfInBounds index slot).map Slot.wrapped =
      (ring.slots.map Slot.wrapped).setIfInBounds index slot.wrapped := by
    refine Vector.ext fun i inside => ?_
    simp only [Vector.getElem_map, Vector.getElem_setIfInBounds]
    split
    · rfl
    · rfl
  exact congrArg (fun slots => { ring with slots }) slots

theorem wrapped_setStamp (ring : Ring α) (index stamp : Nat) :
    (ring.setStamp index stamp).wrapped = ring.wrapped.setStamp index (stamp % UInt64.size) := by
  unfold setStamp
  rw [slot?_wrapped]
  cases ring.slot? index with
  | none => rfl
  | some slot => exact wrapped_setSlot ..

/-- Only the word of a stamp that is stored makes a difference to the words. -/
theorem wrapped_setSlot_of_eq (ring : Ring α) (index : Nat) {slot other : Slot α}
    (same : slot.wrapped = other.wrapped) :
    (ring.wrapped.setSlot index slot).wrapped = (ring.setSlot index other).wrapped := by
  rw [wrapped_setSlot, wrapped_setSlot, wrapped_wrapped, same]

theorem look_wrapped (ring : Ring α) (index : Nat) :
    ring.wrapped.look index = (ring.look index).map Slot.wrapped := by
  unfold look
  rw [slot?_wrapped]
  cases ring.slot? index with
  | none => rfl
  | some slot =>
    dsimp only [Option.map_some]
    rw [slot.settled_wrapped]
    cases slot.settled with
    | true => rfl
    | false => rfl

theorem read_wrapped (ring : Ring α) (index : Nat) : ring.wrapped.read index = ring.read index := by
  unfold read
  rw [look_wrapped]
  rcases ring.look index with cause | ⟨stamp, _ | event⟩
  · rfl
  · rfl
  · rfl

theorem wrapped_write (ring : Ring α) (event : Event α) (index : Nat) :
    (ring.wrapped.write event index).2.wrapped = (ring.write event index).2.wrapped := by
  unfold write
  rw [slot?_wrapped]
  cases ring.slot? index with
  | none => exact wrapped_wrapped ring
  | some slot =>
    refine wrapped_setSlot_of_eq ring index (congrArg (Slot.mk · (some event)) ?_)
    unfold Slot.wrapped UInt64.size
    dsimp only
    omega

end Ring

namespace Round

theorem wrapped_wrapped (round : Round α β) : round.wrapped.wrapped = round.wrapped := by
  have twice : Mark.wrapped ∘ Mark.wrapped = (Mark.wrapped : Mark α → Mark α) := by
    funext mark
    exact congrArg (Mark.mk mark.index · mark.event) (Nat.mod_mod ..)
  unfold wrapped
  dsimp only
  rw [Option.map_map, twice]

theorem wrapped_withdraw (round : Round α β) (ring : Ring α) :
    (round.withdraw ring).wrapped = round.wrapped.withdraw ring.wrapped := by
  unfold withdraw wrapped
  cases round.mark with
  | none => rfl
  | some mark => exact ring.wrapped_setStamp ..

theorem wrapped_complete (round : Round α β) (ring : Ring α) :
    (round.wrapped.complete ring.wrapped).wrapped = (round.complete ring).wrapped := by
  unfold complete wrapped
  cases round.mark with
  | none => exact ring.wrapped_wrapped
  | some mark =>
    exact ring.wrapped_setSlot_of_eq _ (congrArg (Slot.mk · (some mark.event)) (Nat.mod_add_mod ..))

theorem swap_wrapped (round : Round α β) (fails : Bool) (ring : Ring α) :
    round.wrapped.swap fails ring.wrapped =
      ((round.swap fails ring).1, (round.swap fails ring).2.wrapped) := by
  unfold swap
  cases fails with
  | true => exact congrArg (Prod.mk false) (round.wrapped_withdraw ring).symm
  | false =>
    have same : ring.wrapped.register.swap round.wrapped.token round.wrapped.next =
        ring.register.swap round.token round.next := rfl
    simp only [Bool.false_eq_true, if_false]
    rw [same]
    rcases ring.register.swap round.token round.next with ⟨swapped, register⟩
    cases swapped with
    | true => rfl
    | false => exact congrArg (Prod.mk false) (round.wrapped_withdraw { ring with register }).symm

end Round

theorem Slot.mark_wrapped {slot : Slot α} (settled : slot.settled = true) :
    slot.wrapped.stamp + 1 = (slot.stamp + 1) % UInt64.size := by
  have even := of_decide_eq_true settled
  unfold wrapped UInt64.size
  dsimp only
  omega

/-- An update begins the same round on a ring of words, and marks it alike. -/
theorem Update.round?_wrapped (update : Update α) (ring : Ring α) :
    update.round? ring.wrapped =
      (update.round? ring).map fun begun => (begun.1.wrapped, begun.2.wrapped) := by
  have window : ring.wrapped.window = ring.window := rfl
  cases update with
  | append event =>
    unfold round? Ring.append
    dsimp only
    rw [window, Ring.slot?_wrapped]
    cases ring.slot? ring.window.top with
    | none => rfl
    | some slot =>
      dsimp only [Option.map_some]
      rw [slot.settled_wrapped]
      cases settled : slot.settled with
      | false => rfl
      | true =>
        have marked := ring.wrapped_setStamp ring.window.top (slot.stamp + 1)
        rw [← Slot.mark_wrapped settled] at marked
        exact congrArg (fun marked => some (_, marked)) marked.symm
  | take end_ =>
    have index : end_.index ring.wrapped = end_.index ring := end_.index_eq rfl rfl
    have next : end_.next ring.wrapped = end_.next ring := end_.next_eq rfl rfl
    unfold round?
    dsimp only
    rw [End.opening_eq, End.opening_eq, index, next]
    unfold Ring.take
    rw [window, Ring.read_wrapped]
    by_cases empty : ring.window.bottom = ring.window.top
    · rw [if_pos empty, if_pos empty]
      rfl
    · rw [if_neg empty, if_neg empty]
      cases ring.read (end_.index ring) with
      | error cause => rfl
      | ok event => rfl

theorem Update.apply_wrapped (update : Update α) (ring : Ring α) :
    (update.apply ring.wrapped).wrapped = (update.apply ring).wrapped := by
  rw [update.apply_eq, update.apply_eq, update.round?_wrapped]
  cases update.round? ring with
  | none => exact ring.wrapped_wrapped
  | some begun =>
    obtain ⟨round, marked⟩ := begun
    dsimp only [Option.map_some]
    have silent : round.silent = round := rfl
    have silentToo : round.wrapped.silent = round.wrapped := rfl
    rw [Round.publish_eq, Round.publish_eq, silent, silentToo, round.swap_wrapped]
    rcases round.swap false marked with ⟨swapped, after⟩
    cases swapped with
    | true => exact round.wrapped_complete after
    | false => exact after.wrapped_wrapped

theorem Ring.perform_wrapped (ring : Ring α) (operation : Ring.Operation α) :
    (ring.wrapped.perform operation).2.wrapped = (ring.perform operation).2.wrapped := by
  cases operation with
  | push event => exact (Update.append event).apply_wrapped ring
  | pull => exact (Update.take .oldest).apply_wrapped ring
  | pop => exact (Update.take .newest).apply_wrapped ring
  | write event index => exact ring.wrapped_write event index
  | read index => exact ring.wrapped_wrapped
  | attachWriter => exact ring.attachWriter.wrapped_wrapped
  | detachWriter => exact ring.detachWriter.wrapped_wrapped

namespace Traffic

theorem wrapped_wrapped (traffic : Traffic α) : traffic.wrapped.wrapped = traffic.wrapped := by
  have twice : Flight.wrapped ∘ Flight.wrapped = (Flight.wrapped : Flight α → Flight α) := by
    funext flight
    exact congrArg (Flight.mk · flight.swapped) flight.round.wrapped_wrapped
  unfold wrapped
  dsimp only
  rw [Ring.wrapped_wrapped, List.map_map, twice]

theorem start_wrapped (traffic : Traffic α) (update : Update α) :
    traffic.wrapped.start update = (traffic.start update).wrapped := by
  unfold start
  have begins : update.round? traffic.wrapped.ring = _ := update.round?_wrapped traffic.ring
  rw [begins]
  cases update.round? traffic.ring with
  | none => rfl
  | some begun => rfl

theorem swap_wrapped (traffic : Traffic α) (number : Nat) (fails : Bool) :
    traffic.wrapped.swap number fails = (traffic.swap number fails).wrapped := by
  have atNumber : traffic.wrapped.flights[number]? = _ := List.getElem?_map ..
  unfold swap
  rw [atNumber]
  rcases traffic.flights[number]? with _ | ⟨round, _ | _⟩
  · rfl
  · have swaps : round.wrapped.swap fails traffic.wrapped.ring = _ :=
      round.swap_wrapped fails traffic.ring
    dsimp only [Option.map_some, Flight.wrapped]
    rw [swaps]
    rcases round.swap fails traffic.ring with ⟨_ | _, ring⟩
    · exact congrArg (Traffic.mk ring.wrapped) (List.eraseIdx_map ..)
    · dsimp only [wrapped]
      rw [List.map_set]
      rfl
  · rfl

theorem fill_wrapped (traffic : Traffic α) (number : Nat) :
    (traffic.wrapped.fill number).wrapped = (traffic.fill number).wrapped := by
  have atNumber : traffic.wrapped.flights[number]? = _ := List.getElem?_map ..
  unfold fill
  rw [atNumber]
  rcases traffic.flights[number]? with _ | ⟨round, _ | _⟩
  · exact traffic.wrapped_wrapped
  · exact traffic.wrapped_wrapped
  · have flights := List.eraseIdx_map Flight.wrapped (traffic.flights.map Flight.wrapped) number
    have completed := round.wrapped_complete traffic.ring
    have twice := congrArg Traffic.flights traffic.wrapped_wrapped
    dsimp only [wrapped] at twice
    dsimp only [Option.map_some, wrapped, Flight.wrapped]
    rw [Traffic.mk.injEq]
    refine ⟨completed, ?_⟩
    rw [← List.eraseIdx_map, ← List.eraseIdx_map, twice]

/-- Cutting stamps down to words before a motion makes no difference after it. -/
theorem step_wrapped (traffic : Traffic α) (motion : Motion α) :
    (traffic.wrapped.step motion).wrapped = (traffic.step motion).wrapped := by
  cases motion with
  | perform operation =>
    have flights := congrArg Traffic.flights traffic.wrapped_wrapped
    dsimp only [wrapped, step] at flights ⊢
    rw [flights, Ring.perform_wrapped]
  | start update => rw [step, step, start_wrapped, wrapped_wrapped]
  | swap number fails => rw [step, step, swap_wrapped, wrapped_wrapped]
  | fill number => exact traffic.fill_wrapped number

/-- The ring and what is on its way after these motions, if all stamps are kept in words. -/
def afterWords (traffic : Traffic α) (motions : List (Motion α)) : Traffic α :=
  motions.foldl (fun traffic motion => (traffic.step motion).wrapped) traffic

/-- A ring that keeps its stamps in words shows the words of those that count without end. -/
theorem afterWords_wrapped (traffic : Traffic α) (motions : List (Motion α)) :
    traffic.wrapped.afterWords motions = (traffic.after motions).wrapped := by
  induction motions generalizing traffic with
  | nil => rfl
  | cons motion motions ih =>
    have first : traffic.wrapped.afterWords (motion :: motions) =
        (traffic.wrapped.step motion).wrapped.afterWords motions := rfl
    rw [first, step_wrapped, ih, after_cons]

end Traffic

end TimedTrace
