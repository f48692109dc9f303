import TimedTrace.Proofs.Traffic
import Mathlib.Data.List.Basic

namespace TimedTrace

variable {α β : Type}

namespace Ring

theorem setSlot_setSlot (ring : Ring α) (index : Nat) (first second : Slot α) :
    (ring.setSlot index first).setSlot index second = ring.setSlot index second := by
  have slots : (ring.slots.setIfInBounds index first).setIfInBounds index second =
      ring.slots.setIfInBounds index second := by
    refine Vector.ext fun i inside => ?_
    simp only [Vector.getElem_setIfInBounds]
    split
    · rfl
    · rfl
  exact congrArg (fun slots => { ring with slots }) slots

theorem setSlot_self {ring : Ring α} {index : Nat} {slot : Slot α}
    (atIndex : ring.slot? index = some slot) : ring.setSlot index slot = ring := by
  obtain ⟨inside, rfl⟩ := Vector.getElem?_eq_some_iff.1 atIndex
  have slots : ring.slots.setIfInBounds index ring.slots[index] = ring.slots := by
    refine Vector.ext fun i inside => ?_
    rw [Vector.getElem_setIfInBounds]
    split
    · subst index
      rfl
    · rfl
  exact congrArg (fun slots => { ring with slots }) slots

theorem setStamp_eq {ring : Ring α} {index : Nat} {slot : Slot α}
    (atIndex : ring.slot? index = some slot) (stamp : Nat) :
    ring.setStamp index stamp = ring.setSlot index { slot with stamp } := by
  unfold setStamp
  rw [atIndex]

/-- A stamp that is raised and put back leaves no trace. -/
theorem setStamp_setStamp {ring : Ring α} {index : Nat} {slot : Slot α}
    (atIndex : ring.slot? index = some slot) (stamp : Nat) :
    (ring.setStamp index stamp).setStamp index slot.stamp = ring := by
  have raised : (ring.setStamp index stamp).slot? index = some { slot with stamp } := by
    rw [slot?_setStamp, if_pos rfl, atIndex]
    rfl
  rw [setStamp_eq raised, setStamp_eq atIndex, setSlot_setSlot, setSlot_self atIndex]

/-- A slot is overwritten, or there is none. -/
theorem write_cases (ring : Ring α) (event : Event α) (index : Nat) :
    (ring.slot? index = none ∧
        ring.write event index = (.error (.outOfBound index ring.size), ring)) ∨
      ∃ slot, ring.slot? index = some slot ∧
        ring.write event index =
          (.ok (), ring.setSlot index ⟨(slot.stamp + 2) / 2 * 2, some event⟩) := by
  unfold write
  cases atIndex : ring.slot? index with
  | none => exact .inl ⟨rfl, rfl⟩
  | some slot => exact .inr ⟨slot, rfl, rfl⟩

end Ring

namespace Round

/-- A round swaps, or it is lost: the swap was refused, or it was not even tried. -/
theorem swap_cases (round : Round α β) (fails : Bool) (ring : Ring α) :
    (∃ register, ring.register.swap round.token round.next = (true, register) ∧
        round.swap fails ring = (true, { ring with register })) ∨
      ∃ register, (register = ring.register ∨
          ring.register.swap round.token round.next = (false, register)) ∧
        round.swap fails ring = (false, round.withdraw { ring with register }) := by
  unfold swap
  cases fails with
  | true => exact .inr ⟨ring.register, .inl rfl, rfl⟩
  | false =>
    rcases run : ring.register.swap round.token round.next with ⟨published, register⟩
    cases published with
    | true => exact .inl ⟨register, rfl, rfl⟩
    | false => exact .inr ⟨register, .inr rfl, rfl⟩

/-- A round marks no slot, or the free one if that is settled. -/
theorem Marks.cases {round : Round α β} {ring marked : Ring α} (marks : round.Marks ring marked) :
    (round.mark = none ∧ marked = ring) ∨
      ∃ mark slot, round.mark = some mark ∧ marked = ring.setStamp mark.index (mark.stamp + 1) ∧
        mark.index = ring.window.top ∧ ring.slot? mark.index = some slot ∧ slot.settled = true ∧
        slot.stamp = mark.stamp := by
  unfold Marks at marks
  split at marks
  · exact .inl ⟨‹_›, marks⟩
  · obtain ⟨atTop, isMarked, slot, atIndex, settled, stamp⟩ := marks
    exact .inr ⟨_, slot, ‹_›, isMarked, atTop, atIndex, settled, stamp⟩

theorem slot?_withdraw {round : Round α β} {mark : Mark α} (isMark : round.mark = some mark)
    (ring : Ring α) (index : Nat) : (round.withdraw ring).slot? index =
      if mark.index = index then
        (ring.slot? index).map fun slot => { slot with stamp := mark.stamp }
      else ring.slot? index := by
  unfold withdraw
  rw [isMark]
  exact Ring.slot?_setStamp ..

theorem slot?_complete {round : Round α β} {mark : Mark α} (isMark : round.mark = some mark)
    (ring : Ring α) (index : Nat) : (round.complete ring).slot? index =
      if mark.index = index then (ring.slot? index).map fun _ => ⟨mark.stamp + 2, some mark.event⟩
      else ring.slot? index := by
  unfold complete
  rw [isMark]
  exact Ring.slot?_setSlot ..

/-- Taking a mark back restores the ring as it was before. -/
theorem Marks.withdraw_eq {round : Round α β} {ring marked : Ring α}
    (marks : round.Marks ring marked) : round.withdraw marked = ring := by
  unfold withdraw
  rcases marks.cases with ⟨isMark, rfl⟩ | ⟨mark, slot, isMark, rfl, _, atIndex, _, stamp⟩
  · rw [isMark]
  · rw [isMark]
    dsimp only
    rw [← stamp]
    exact Ring.setStamp_setStamp atIndex _

end Round

/-- Whoever begins a round marks its slot. -/
theorem Update.marks_of_round? {ring marked : Ring α} {update : Update α} {round : Round α Unit}
    (begun : update.round? ring = some (round, marked)) : round.Marks ring marked := by
  unfold Round.Marks
  cases update with
  | append event =>
    obtain ⟨slot, atTop, settled, isMark, _, marks⟩ := begun_append begun
    rw [isMark]
    exact ⟨rfl, marks, slot, atTop, settled, rfl⟩
  | take end_ =>
    obtain ⟨_, unmarked, _, same⟩ := begun_take begun
    rw [unmarked]
    exact same

/-- The marks of the appends among these flights. -/
def marksOf (flights : List (Flight α)) : List (Mark α) := flights.filterMap (·.round.mark)

@[simp] theorem mem_marksOf_cons {flight : Flight α} {flights : List (Flight α)} {mark : Mark α} :
    mark ∈ marksOf (flight :: flights) ↔
      flight.round.mark = some mark ∨ mark ∈ marksOf flights := by
  simp [marksOf]

@[simp] theorem marksOf_append (flights more : List (Flight α)) :
    marksOf (flights ++ more) = marksOf flights ++ marksOf more := List.filterMap_append

namespace Traffic

/-- The ring and what is on its way after these motions. -/
def after (traffic : Traffic α) (motions : List (Motion α)) : Traffic α :=
  motions.foldl step traffic

@[simp] theorem after_nil (traffic : Traffic α) : traffic.after [] = traffic := rfl

@[simp] theorem after_cons (traffic : Traffic α) (motion : Motion α) (motions : List (Motion α)) :
    traffic.after (motion :: motions) = (traffic.step motion).after motions := rfl

theorem after_append (traffic : Traffic α) (motions more : List (Motion α)) :
    traffic.after (motions ++ more) = (traffic.after motions).after more := List.foldl_append

theorem InRange.after {traffic : Traffic α} {size : Nat} (inRange : traffic.InRange size)
    (motions : List (Motion α)) : (traffic.after motions).InRange size := by
  induction motions generalizing traffic with
  | nil => exact inRange
  | cons motion motions ih => exact ih (inRange.step motion)

/-- One of the flights, those before it and those behind it. -/
theorem exists_split {traffic : Traffic α} {number : Nat} {flight : Flight α}
    (atNumber : traffic.flights[number]? = some flight) :
    ∃ earlier later, traffic.flights = earlier ++ flight :: later ∧
      (∀ other, traffic.flights.set number other = earlier ++ other :: later) ∧
      traffic.flights.eraseIdx number = earlier ++ later := by
  obtain ⟨inside, rfl⟩ := List.getElem?_eq_some_iff.1 atNumber
  refine ⟨traffic.flights.take number, traffic.flights.drop (number + 1), ?_, fun other => ?_,
    List.eraseIdx_eq_take_drop_succ ..⟩
  · rw [List.getElem_cons_drop, List.take_append_drop]
  · exact List.set_eq_take_cons_drop other inside

variable (traffic : Traffic α)

theorem start_cases (update : Update α) :
    traffic.start update = traffic ∨
      ∃ round marked, update.round? traffic.ring = some (round, marked) ∧
        traffic.start update = ⟨marked, ⟨round, false⟩ :: traffic.flights⟩ := by
  unfold start
  cases begun : update.round? traffic.ring with
  | none => exact .inl rfl
  | some result => exact .inr ⟨result.1, result.2, rfl, rfl⟩

theorem swap_cases (number : Nat) (fails : Bool) :
    traffic.swap number fails = traffic ∨
      ∃ earlier round later register, traffic.flights = earlier ++ ⟨round, false⟩ :: later ∧
        ((traffic.ring.register.swap round.token round.next = (true, register) ∧
            traffic.swap number fails =
              ⟨{ traffic.ring with register }, earlier ++ ⟨round, true⟩ :: later⟩) ∨
          ((register = traffic.ring.register ∨
              traffic.ring.register.swap round.token round.next = (false, register)) ∧
            traffic.swap number fails =
              ⟨round.withdraw { traffic.ring with register }, earlier ++ later⟩)) := by
  unfold swap
  split
  · rename_i round atNumber
    obtain ⟨earlier, later, flights, replaced, erased⟩ := exists_split atNumber
    right
    rcases round.swap_cases fails traffic.ring with
      ⟨register, swapped, run⟩ | ⟨register, lost, run⟩
    · refine ⟨earlier, round, later, register, flights, .inl ⟨swapped, ?_⟩⟩
      rw [run]
      dsimp only
      rw [replaced]
    · refine ⟨earlier, round, later, register, flights, .inr ⟨lost, ?_⟩⟩
      rw [run]
      dsimp only
      rw [erased]
  · exact .inl rfl

theorem fill_cases (number : Nat) :
    ((∀ round, traffic.flights[number]? ≠ some ⟨round, true⟩) ∧ traffic.fill number = traffic) ∨
      ∃ earlier round later, traffic.flights[number]? = some ⟨round, true⟩ ∧
        traffic.flights = earlier ++ ⟨round, true⟩ :: later ∧
        traffic.fill number = ⟨round.complete traffic.ring, earlier ++ later⟩ := by
  unfold fill
  split
  · rename_i round atNumber
    obtain ⟨earlier, later, flights, _, erased⟩ := exists_split atNumber
    rw [erased]
    exact .inr ⟨earlier, round, later, atNumber, flights, rfl⟩
  · rename_i other
    exact .inl ⟨other, rfl⟩

/-- A whole update sets out, swaps, and fills its slot if it got through. -/
theorem apply_cases (update : Update α) :
    let whole : Traffic α := { traffic with ring := update.apply traffic.ring }
    (update.round? traffic.ring = none ∧ whole = traffic) ∨
      ∃ round marked, update.round? traffic.ring = some (round, marked) ∧
        (((round.swap false marked).1 = false ∧ whole = (traffic.start update).swap 0 false) ∨
          ((round.swap false marked).1 = true ∧
            whole = ((traffic.start update).swap 0 false).fill 0)) := by
  dsimp only
  rw [update.apply_eq]
  unfold start
  cases update.round? traffic.ring with
  | none => exact .inl ⟨rfl, rfl⟩
  | some begun =>
    obtain ⟨round, marked⟩ := begun
    refine .inr ⟨round, marked, rfl, ?_⟩
    dsimp only
    rw [round.publish_eq]
    have silent : round.silent = round := rfl
    rw [silent]
    unfold swap
    dsimp only [List.getElem?_cons_zero]
    rcases round.swap false marked with ⟨swapped, ring⟩
    cases swapped with
    | true => exact .inr ⟨rfl, rfl⟩
    | false => exact .inl ⟨rfl, rfl⟩

end Traffic

end TimedTrace
