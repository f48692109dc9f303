import TimedTrace.Proofs.Words
import Mathlib.Data.List.Nodup

namespace TimedTrace

variable {α β : Type}

/-- The slot that an update fills if nobody comes in between. -/
def Update.fills (ring : Ring α) (update : Update α) : List Nat :=
  match update.round? ring with
  | some (round, marked) =>
    if (round.swap false marked).1 then round.mark.toList.map (·.index) else []
  | none => []

namespace Traffic

/-- The slot that was written when the motion is over: by an append that is complete with it, or
because somebody has called for it to be overwritten. -/
def written (traffic : Traffic α) : Motion α → List Nat
  | .perform (.push event) =>
    if (traffic.ring.push event).1.isOk then [traffic.ring.window.top] else []
  | .perform (.write _ index) => [index]
  | .fill number =>
    match traffic.flights[number]? with
    | some ⟨round, true⟩ => round.mark.toList.map (·.index)
    | _ => []
  | .perform .pull | .perform .pop | .perform (.read _) => []
  | .perform .attachWriter | .perform .detachWriter => []
  | .start _ | .swap _ _ => []

/-- The slots that are written in the course of these motions, one after the other. -/
def writes : Traffic α → List (Motion α) → List Nat
  | _, [] => []
  | traffic, motion :: motions => traffic.written motion ++ (traffic.step motion).writes motions

/-- No slot is overwritten while an append is on its way. -/
def Disciplined : Traffic α → List (Motion α) → Prop
  | _, [] => True
  | traffic, motion :: motions =>
    (∀ event index, motion = .perform (.write event index) → marksOf traffic.flights = []) ∧
      (traffic.step motion).Disciplined motions

theorem writes_append (traffic : Traffic α) (motions more : List (Motion α)) :
    traffic.writes (motions ++ more) =
      traffic.writes motions ++ (traffic.after motions).writes more := by
  induction motions generalizing traffic with
  | nil => rfl
  | cons motion motions ih =>
    rw [List.cons_append, writes, ih, writes, List.append_assoc, after_cons]

theorem disciplined_append {traffic : Traffic α} {motions more : List (Motion α)} :
    traffic.Disciplined (motions ++ more) ↔
      traffic.Disciplined motions ∧ (traffic.after motions).Disciplined more := by
  induction motions generalizing traffic with
  | nil => simp [Disciplined]
  | cons motion motions ih =>
    simp only [List.cons_append, Disciplined, ih, after_cons, and_assoc]

/-- A flight that has swapped at once fills the slot that it has marked. -/
theorem written_fill {traffic : Traffic α} {update : Update α} {round : Round α Unit}
    {marked : Ring α} (begun : update.round? traffic.ring = some (round, marked))
    (won : (round.swap false marked).1 = true) :
    ((traffic.start update).swap 0 false).written (.fill 0) =
      round.mark.toList.map (·.index) := by
  unfold start
  rw [begun]
  unfold swap
  dsimp only [List.getElem?_cons_zero]
  rcases run : round.swap false marked with ⟨swapped, ring⟩
  rw [run] at won
  cases won
  rfl

end Traffic

theorem Ring.isOk_uncontended (ring : Ring α) (opening : Ring α → Opening α β) :
    (ring.uncontended opening).1.isOk =
      match (opening ring).round? with
      | some (round, marked) => (round.swap false marked).1
      | none => false := by
  unfold uncontended contend
  cases opening ring with
  | refused cause => rfl
  | blocked => rfl
  | ready round marked =>
    dsimp only [Opening.round?]
    unfold Round.publish Round.swap Round.silent
    simp only [Bool.false_eq_true, if_false]
    rcases marked.register.swap round.token round.next with ⟨published, register⟩
    cases published with
    | true => rfl
    | false => rfl

/-- The event in a slot, settled or not. -/
def Ring.held (ring : Ring α) (index : Nat) : Option (Event α) := (ring.slot? index).bind (·.event)

theorem Ring.held_setStamp (ring : Ring α) (index stamp other : Nat) :
    (ring.setStamp index stamp).held other = ring.held other := by
  unfold held
  rw [slot?_setStamp]
  split
  · cases ring.slot? other with
    | none => rfl
    | some slot => rfl
  · rfl

theorem Round.held_withdraw (round : Round α β) (ring : Ring α) (index : Nat) :
    (round.withdraw ring).held index = ring.held index := by
  unfold withdraw
  split
  · rfl
  · exact Ring.held_setStamp ..

/-- A whole append that gets through fills the slot at the top. -/
theorem Update.fills_append (ring : Ring α) (event : Event α) :
    (Update.append event).fills ring =
      if (ring.push event).1.isOk then [ring.window.top] else [] := by
  unfold Update.fills
  rw [Ring.push, Ring.isOk_uncontended]
  have same : (Ring.append event ring).round? = (Update.append event).round? ring := rfl
  rw [same]
  cases begun : (Update.append event).round? ring with
  | none => rfl
  | some result =>
    obtain ⟨round, marked⟩ := result
    obtain ⟨slot, _, _, isMark, _⟩ := begun_append begun
    dsimp only
    rw [isMark]
    rfl

/-- A take fills no slot. -/
theorem Update.fills_take (ring : Ring α) (end_ : End) : (Update.take end_).fills ring = [] := by
  unfold Update.fills
  cases begun : (Update.take end_).round? ring with
  | none => rfl
  | some result =>
    obtain ⟨round, marked⟩ := result
    obtain ⟨_, unmarked, _⟩ := begun_take begun
    dsimp only
    rw [unmarked]
    exact ite_self _

/-- The flight has marked this slot. -/
def Flight.Marks (flight : Flight α) (index : Nat) : Prop :=
  ∃ mark ∈ flight.round.mark, mark.index = index

/-- The slots that flights have marked. -/
def markedBy (flights : List (Flight α)) : List Nat := (marksOf flights).map (·.index)

theorem mem_markedBy_iff {flights : List (Flight α)} {index : Nat} :
    index ∈ markedBy flights ↔ ∃ flight ∈ flights, flight.Marks index := by
  unfold markedBy
  constructor
  · intro isMarked
    obtain ⟨mark, mem, atMark⟩ := List.mem_map.1 isMarked
    obtain ⟨flight, inside, isMark⟩ := List.mem_filterMap.1 mem
    exact ⟨flight, inside, mark, isMark, atMark⟩
  · rintro ⟨flight, inside, mark, isMark, atMark⟩
    exact List.mem_map.2 ⟨mark, List.mem_filterMap.2 ⟨flight, inside, isMark⟩, atMark⟩

theorem mem_markedBy_middle {earlier later : List (Flight α)} {flight : Flight α} {index : Nat} :
    index ∈ markedBy (earlier ++ flight :: later) ↔
      flight.Marks index ∨ index ∈ markedBy (earlier ++ later) := by
  simp only [mem_markedBy_iff, List.mem_append, List.mem_cons]
  grind

theorem markedBy_append (flights more : List (Flight α)) :
    markedBy (flights ++ more) = markedBy flights ++ markedBy more := by
  rw [markedBy, marksOf_append, List.map_append]
  rfl

theorem markedBy_cons_of_some {flight : Flight α} {mark : Mark α}
    (isMark : flight.round.mark = some mark) (flights : List (Flight α)) :
    markedBy (flight :: flights) = mark.index :: markedBy flights := by
  simp [markedBy, marksOf, isMark]

theorem markedBy_cons_of_none {flight : Flight α} (unmarked : flight.round.mark = none)
    (flights : List (Flight α)) : markedBy (flight :: flights) = markedBy flights := by
  simp [markedBy, marksOf, unmarked]

theorem nodup_markedBy_middle {earlier later : List (Flight α)} {flight : Flight α} :
    (markedBy (earlier ++ flight :: later)).Nodup ↔
      (∀ index, flight.Marks index → index ∉ markedBy (earlier ++ later)) ∧
        (markedBy (earlier ++ later)).Nodup := by
  unfold Flight.Marks
  rw [markedBy_append, markedBy_append]
  cases isMark : flight.round.mark with
  | none =>
    rw [markedBy_cons_of_none isMark]
    exact (and_iff_right nofun).symm
  | some mark =>
    rw [markedBy_cons_of_some isMark, List.nodup_middle, List.nodup_cons]
    simp

/-- Of two flights the earlier has not marked the slot that the later has. -/
theorem not_lt_of_marks {flights : List (Flight α)} (apart : (markedBy flights).Nodup)
    {index number other : Nat} {flight second : Flight α}
    (atNumber : flights[number]? = some flight) (marks : flight.Marks index)
    (atOther : flights[other]? = some second) (marksToo : second.Marks index) :
    ¬number < other := by
  intro before
  obtain ⟨mark, isMark, atMark⟩ := marks
  obtain ⟨markToo, isMarkToo, atMarkToo⟩ := marksToo
  obtain ⟨inside, rfl⟩ := List.getElem?_eq_some_iff.1 atNumber
  obtain ⟨insideToo, rfl⟩ := List.getElem?_eq_some_iff.1 atOther
  have pairs := List.pairwise_iff_getElem.1 (List.pairwise_filterMap.1 (List.pairwise_map.1 apart))
  refine pairs number other inside insideToo before mark isMark markToo isMarkToo ?_
  rw [atMark, atMarkToo]

namespace Traffic

/-- The log says how often each slot was written: the stamp of a slot is twice that, and one more if
a flight has marked it. No slot is marked by two. -/
structure Counted (traffic : Traffic α) (log : List Nat) : Prop where
  marked : ∀ mark ∈ marksOf traffic.flights, mark.stamp = 2 * log.count mark.index ∧
    ∃ slot, traffic.ring.slot? mark.index = some slot ∧ slot.stamp = mark.stamp + 1
  apart : (markedBy traffic.flights).Nodup
  unmarked : ∀ index slot, traffic.ring.slot? index = some slot →
    index ∉ markedBy traffic.flights → slot.stamp = 2 * log.count index

namespace Counted

variable {traffic : Traffic α} {log : List Nat}

theorem of_create {kind : RegisterKind} {capacity : Nat} {epoch : Time} {patience : Patience}
    {ring : Ring α} (created : Ring.create kind capacity epoch patience = .ok ring) :
    (idle ring).Counted [] := by
  refine ⟨nofun, .nil, fun index slot atIndex _ => ?_⟩
  unfold Ring.create at created
  split at created
  · split at created
    · cases created
      obtain ⟨inside, rfl⟩ := Vector.getElem?_eq_some_iff.1 atIndex
      exact congrArg Slot.stamp (Vector.getElem_replicate _)
    · cases created
  · cases created

/-- Neither the register nor how far flights have got matters. -/
theorem congr (counted : traffic.Counted log) {ring : Ring α} {flights : List (Flight α)}
    (slots : ∀ index, ring.slot? index = traffic.ring.slot? index)
    (marks : marksOf flights = marksOf traffic.flights) : Counted ⟨ring, flights⟩ log := by
  refine ⟨fun mark mem => ?_, ?_, fun index slot atIndex unmarked => ?_⟩
  · rw [slots]
    exact counted.marked mark (marks ▸ mem)
  · rw [markedBy, marks]
    exact counted.apart
  · rw [slots] at atIndex
    rw [markedBy, marks] at unmarked
    exact counted.unmarked index slot atIndex unmarked

/-- A stamp tells how often its slot was written, marked or not. -/
theorem half_stamp (counted : traffic.Counted log) {index : Nat} {slot : Slot α}
    (atIndex : traffic.ring.slot? index = some slot) : slot.stamp / 2 = log.count index := by
  by_cases isMarked : index ∈ markedBy traffic.flights
  · obtain ⟨mark, mem, rfl⟩ := List.mem_map.1 isMarked
    obtain ⟨count, other, atMark, raised⟩ := counted.marked mark mem
    cases atIndex.symm.trans atMark
    omega
  · have := counted.unmarked index slot atIndex isMarked
    omega

/-- The stamp is odd exactly if a flight has marked the slot. -/
theorem settled_eq_false_iff (counted : traffic.Counted log) {index : Nat} {slot : Slot α}
    (atIndex : traffic.ring.slot? index = some slot) :
    slot.settled = false ↔ index ∈ markedBy traffic.flights := by
  constructor
  · intro odd
    by_contra unmarked
    have even := counted.unmarked index slot atIndex unmarked
    exact of_decide_eq_false odd (by omega)
  · intro isMarked
    obtain ⟨mark, mem, rfl⟩ := List.mem_map.1 isMarked
    obtain ⟨count, other, atMark, raised⟩ := counted.marked mark mem
    cases atIndex.symm.trans atMark
    exact decide_eq_false (by omega)

/-- One flight has marked a slot that is marked, and no other. -/
theorem marked_once (counted : traffic.Counted log) {index : Nat}
    (isMarked : index ∈ markedBy traffic.flights) :
    ∃! number : Nat, ∃ flight, traffic.flights[number]? = some flight ∧ flight.Marks index := by
  obtain ⟨flight, mem, marks⟩ := mem_markedBy_iff.1 isMarked
  obtain ⟨number, atNumber⟩ := List.mem_iff_getElem?.1 mem
  refine ⟨number, ⟨flight, atNumber, marks⟩, ?_⟩
  rintro other ⟨second, atOther, marksToo⟩
  have earlier := not_lt_of_marks counted.apart atOther marksToo atNumber marks
  have later := not_lt_of_marks counted.apart atNumber marks atOther marksToo
  omega

section

variable {after : Traffic α} {more : List Nat} {index : Nat} {old slot : Slot α}

/-- Stamps only go up. How much further they are is how often the slot was written, but for the
marks. -/
theorem half_stamp_add (counted : traffic.Counted log) (countedAfter : after.Counted (log ++ more))
    (atOld : traffic.ring.slot? index = some old) (atIndex : after.ring.slot? index = some slot) :
    old.stamp / 2 + more.count index = slot.stamp / 2 := by
  rw [counted.half_stamp atOld, countedAfter.half_stamp atIndex, List.count_append]

/-- Words tell two stamps of a slot apart unless it was written all the way round in between. -/
theorem word_eq_iff (counted : traffic.Counted log) (countedAfter : after.Counted (log ++ more))
    (atOld : traffic.ring.slot? index = some old) (atIndex : after.ring.slot? index = some slot)
    (few : 2 * more.count index < UInt64.size) : old.word = slot.word ↔ old.stamp = slot.stamp := by
  have further := counted.half_stamp_add countedAfter atOld atIndex
  constructor
  · intro same
    have same := congrArg UInt64.toNat same
    rw [← old.stamp_wrapped, ← slot.stamp_wrapped] at same
    unfold Slot.wrapped UInt64.size at same
    unfold UInt64.size at few
    dsimp only at same
    omega
  · exact congrArg UInt64.ofNat

/-- A slot that shows the same stamp as before was not written since. -/
theorem unwritten (counted : traffic.Counted log) (countedAfter : after.Counted (log ++ more))
    (atOld : traffic.ring.slot? index = some old) (atIndex : after.ring.slot? index = some slot)
    (same : old.stamp = slot.stamp) : index ∉ more := by
  have further := counted.half_stamp_add countedAfter atOld atIndex
  rw [← List.count_eq_zero]
  omega

end

theorem start (counted : traffic.Counted log) (update : Update α) :
    (traffic.start update).Counted log := by
  rcases traffic.start_cases update with same | ⟨round, ring, begun, run⟩
  · rwa [same]
  rw [run]
  rcases (Update.marks_of_round? begun).cases with
    ⟨unmarked, rfl⟩ | ⟨mark, slot, isMark, rfl, _, atMark, settled, stamp⟩
  · exact counted.congr (fun _ => rfl) (List.filterMap_cons_none unmarked)
  · -- Nobody else has marked the slot, for it is settled.
    have fresh : mark.index ∉ markedBy traffic.flights := fun isMarked => by
      cases settled.symm.trans ((counted.settled_eq_false_iff atMark).2 isMarked)
    have marked : markedBy (⟨round, false⟩ :: traffic.flights) =
        mark.index :: markedBy traffic.flights := markedBy_cons_of_some isMark _
    refine ⟨fun other mem => ?_, ?_, fun index held atIndex unmarked => ?_⟩
    · rcases mem_marksOf_cons.1 mem with own | earlier
      · cases isMark.symm.trans own
        have count := counted.unmarked mark.index slot atMark fresh
        refine ⟨stamp ▸ count, { slot with stamp := mark.stamp + 1 }, ?_, rfl⟩
        rw [Ring.slot?_setStamp, if_pos rfl, atMark]
        rfl
      · have elsewhere : mark.index ≠ other.index := fun same =>
          fresh (same ▸ List.mem_map_of_mem earlier)
        rw [Ring.slot?_setStamp, if_neg elsewhere]
        exact counted.marked other earlier
    · rw [marked]
      exact List.nodup_cons.2 ⟨fresh, counted.apart⟩
    · rw [marked, List.mem_cons, not_or] at unmarked
      rw [Ring.slot?_setStamp, if_neg (Ne.symm unmarked.1)] at atIndex
      exact counted.unmarked index held atIndex unmarked.2

section

variable {earlier later : List (Flight α)} {round : Round α Unit} {swapped : Bool}

/-- The log goes on with the slot that a landing flight has written, if it has written one. -/
theorem of_landed (counted : traffic.Counted log)
    (flights : traffic.flights = earlier ++ ⟨round, swapped⟩ :: later) {ring : Ring α}
    {more : List Nat}
    (elsewhere : ∀ index, ¬Flight.Marks ⟨round, swapped⟩ index →
      ring.slot? index = traffic.ring.slot? index ∧ more.count index = 0)
    (here : ∀ mark ∈ round.mark, ∀ slot, ring.slot? mark.index = some slot →
      slot.stamp = mark.stamp + 2 * more.count mark.index) :
    Counted ⟨ring, earlier ++ later⟩ (log ++ more) := by
  have marked := counted.marked
  have apart := counted.apart
  have unmarked := counted.unmarked
  rw [flights] at marked apart unmarked
  rw [nodup_markedBy_middle] at apart
  have mem_middle {mark : Mark α} : mark ∈ marksOf (earlier ++ ⟨round, swapped⟩ :: later) ↔
      round.mark = some mark ∨ mark ∈ marksOf (earlier ++ later) := by
    rw [marksOf_append, marksOf_append, List.mem_append, List.mem_append, mem_marksOf_cons]
    exact or_left_comm
  refine ⟨fun mark mem => ?_, apart.2, fun index slot atIndex free => ?_⟩
  · obtain ⟨same, unwritten⟩ := elsewhere mark.index fun own =>
      apart.1 mark.index own (List.mem_map_of_mem mem)
    rw [List.count_append, unwritten, same]
    exact marked mark (mem_middle.2 (.inr mem))
  · rw [List.count_append]
    by_cases own : Flight.Marks ⟨round, swapped⟩ index
    · obtain ⟨mark, isMark, rfl⟩ := own
      have stamp := here mark isMark slot atIndex
      have count := (marked mark (mem_middle.2 (.inl isMark))).1
      omega
    · obtain ⟨same, unwritten⟩ := elsewhere index own
      rw [unwritten]
      refine unmarked index slot (same ▸ atIndex) ?_
      rw [mem_markedBy_middle, not_or]
      exact ⟨own, free⟩

end

theorem swap (counted : traffic.Counted log) (number : Nat) (fails : Bool) :
    (traffic.swap number fails).Counted log := by
  rcases traffic.swap_cases number fails with
    same | ⟨earlier, round, later, register, flights, ⟨_, run⟩ | ⟨_, run⟩⟩
  · rwa [same]
  · rw [run]
    refine counted.congr (fun _ => rfl) ?_
    rw [flights, marksOf_append, marksOf_append]
    rfl
  · rw [run, ← List.append_nil log]
    refine counted.of_landed flights (fun index away => ⟨?_, rfl⟩) fun mark isMark slot atMark => ?_
    · cases isMark : round.mark with
      | none =>
        rw [Round.withdraw, isMark]
        rfl
      | some mark =>
        rw [Round.slot?_withdraw isMark, if_neg fun same => away ⟨mark, isMark, same⟩]
        rfl
    · rw [Round.slot?_withdraw isMark, if_pos rfl] at atMark
      obtain ⟨_, _, rfl⟩ := Option.map_eq_some_iff.1 atMark
      rfl

theorem fill (counted : traffic.Counted log) (number : Nat) :
    (traffic.fill number).Counted (log ++ traffic.written (.fill number)) := by
  unfold written
  dsimp only
  rcases traffic.fill_cases number with
    ⟨none, same⟩ | ⟨earlier, round, later, atNumber, flights, run⟩
  · split
    · rename_i round atNumber
      exact absurd atNumber (none round)
    · rwa [same, List.append_nil]
  · rw [run, atNumber]
    dsimp only
    refine counted.of_landed flights (fun index away => ?_) fun mark isMark slot atMark => ?_
    · cases isMark : round.mark with
      | none =>
        rw [Round.complete, isMark]
        exact ⟨rfl, rfl⟩
      | some mark =>
        have elsewhere : mark.index ≠ index := fun same => away ⟨mark, isMark, same⟩
        rw [Round.slot?_complete isMark, if_neg elsewhere]
        exact ⟨rfl, List.count_cons_of_ne elsewhere⟩
    · rw [Option.mem_def.1 isMark]
      rw [Round.slot?_complete isMark, if_pos rfl] at atMark
      obtain ⟨_, _, rfl⟩ := Option.map_eq_some_iff.1 atMark
      exact congrArg (mark.stamp + 2 * ·) List.count_singleton_self.symm

theorem apply (counted : traffic.Counted log) (update : Update α) :
    Counted ⟨update.apply traffic.ring, traffic.flights⟩ (log ++ update.fills traffic.ring) := by
  have swapped := (counted.start update).swap 0 false
  unfold Update.fills
  rcases traffic.apply_cases update with
    ⟨none, same⟩ | ⟨round, marked, begun, ⟨lost, same⟩ | ⟨won, same⟩⟩
  · rw [none, List.append_nil]
    rwa [same]
  · rw [begun]
    dsimp only
    rw [lost, if_neg Bool.false_ne_true, List.append_nil]
    rwa [same]
  · have filled := swapped.fill 0
    rw [written_fill begun won] at filled
    rw [begun]
    dsimp only
    rw [won, if_pos rfl]
    rwa [same]

/-- A slot may be overwritten while nobody has marked one. -/
theorem write (counted : traffic.Counted log) (nobody : marksOf traffic.flights = [])
    (event : Event α) (index : Nat) :
    (traffic.step (.perform (.write event index))).Counted
      (log ++ traffic.written (.perform (.write event index))) := by
  have unmarked (other : Nat) : other ∉ markedBy traffic.flights := by
    rw [markedBy, nobody]
    exact List.not_mem_nil
  refine ⟨fun mark mem => ?_, counted.apart, fun other held atOther free => ?_⟩
  · have mem : mark ∈ marksOf traffic.flights := mem
    rw [nobody] at mem
    cases mem
  · have atOther : (traffic.ring.write event index).2.slot? other = some held := atOther
    rw [written, List.count_append]
    rcases traffic.ring.write_cases event index with ⟨absent, run⟩ | ⟨slot, atIndex, run⟩
    · rw [run] at atOther
      have apart : index ≠ other := by
        rintro rfl
        cases absent.symm.trans atOther
      rw [List.count_cons_of_ne apart]
      exact counted.unmarked other held atOther (unmarked other)
    · rw [run, Ring.slot?_setSlot] at atOther
      split at atOther
      · subst other
        obtain ⟨_, _, rfl⟩ := Option.map_eq_some_iff.1 atOther
        have stamp := counted.unmarked index slot atIndex (unmarked index)
        rw [List.count_singleton_self]
        dsimp only
        omega
      · rename_i apart
        rw [List.count_cons_of_ne apart]
        exact counted.unmarked other held atOther (unmarked other)

theorem step (counted : traffic.Counted log) {motion : Motion α}
    (free : ∀ event index, motion = .perform (.write event index) → marksOf traffic.flights = []) :
    (traffic.step motion).Counted (log ++ traffic.written motion) := by
  cases motion with
  | start update =>
    rw [written, List.append_nil]
    exact counted.start update
  | swap number fails =>
    rw [written, List.append_nil]
    exact counted.swap number fails
  | fill number => exact counted.fill number
  | perform operation =>
    cases operation with
    | push event =>
      have applied := counted.apply (.append event)
      rwa [Update.fills_append] at applied
    | pull =>
      have applied := counted.apply (.take .oldest)
      rwa [Update.fills_take] at applied
    | pop =>
      have applied := counted.apply (.take .newest)
      rwa [Update.fills_take] at applied
    | read index | attachWriter | detachWriter =>
      rw [written, List.append_nil]
      exact counted.congr (fun _ => rfl) rfl
    | write event index => exact counted.write (free event index rfl) event index

theorem after (counted : traffic.Counted log) {motions : List (Motion α)}
    (disciplined : traffic.Disciplined motions) :
    (traffic.after motions).Counted (log ++ traffic.writes motions) := by
  induction motions generalizing traffic log with
  | nil =>
    rw [writes, List.append_nil]
    exact counted
  | cons motion motions ih =>
    rw [writes, ← List.append_assoc]
    exact ih (counted.step disciplined.1) disciplined.2

end Counted

variable (traffic : Traffic α)

theorem held_start (update : Update α) (index : Nat) :
    (traffic.start update).ring.held index = traffic.ring.held index := by
  rcases traffic.start_cases update with same | ⟨round, marked, begun, run⟩
  · rw [same]
  · rw [run]
    rcases (Update.marks_of_round? begun).cases with ⟨_, rfl⟩ | ⟨mark, slot, _, rfl, _⟩
    · rfl
    · exact Ring.held_setStamp ..

theorem held_swap (number : Nat) (fails : Bool) (index : Nat) :
    (traffic.swap number fails).ring.held index = traffic.ring.held index := by
  rcases traffic.swap_cases number fails with same | ⟨_, round, _, _, _, ⟨_, run⟩ | ⟨_, run⟩⟩
  · rw [same]
  · rw [run]
    rfl
  · rw [run]
    exact round.held_withdraw _ index

theorem held_fill {number index : Nat} (unwritten : index ∉ traffic.written (.fill number)) :
    (traffic.fill number).ring.held index = traffic.ring.held index := by
  rcases traffic.fill_cases number with ⟨_, same⟩ | ⟨_, round, _, atNumber, _, run⟩
  · rw [same]
  · unfold written at unwritten
    dsimp only at unwritten
    rw [atNumber] at unwritten
    rw [run]
    dsimp only at unwritten ⊢
    unfold Ring.held
    cases isMark : round.mark with
    | none =>
      rw [Round.complete, isMark]
    | some mark =>
      rw [isMark] at unwritten
      have apart : mark.index ≠ index := fun same => unwritten (same ▸ List.mem_cons_self)
      rw [Round.slot?_complete isMark, if_neg apart]

theorem held_apply (update : Update α) {index : Nat}
    (unwritten : index ∉ update.fills traffic.ring) :
    (update.apply traffic.ring).held index = traffic.ring.held index := by
  have swapped := (held_swap _ 0 false index).trans (traffic.held_start update index)
  unfold Update.fills at unwritten
  rcases traffic.apply_cases update with
    ⟨_, same⟩ | ⟨round, marked, begun, ⟨_, same⟩ | ⟨won, same⟩⟩
  · exact congrArg (·.ring.held index) same
  · exact (congrArg (·.ring.held index) same).trans swapped
  · rw [begun] at unwritten
    dsimp only at unwritten
    rw [won, if_pos rfl, ← written_fill begun won] at unwritten
    exact (congrArg (·.ring.held index) same).trans ((held_fill _ unwritten).trans swapped)

/-- A slot that is not written keeps its event. -/
theorem held_step {motion : Motion α} {index : Nat} (unwritten : index ∉ traffic.written motion) :
    (traffic.step motion).ring.held index = traffic.ring.held index := by
  cases motion with
  | start update => exact traffic.held_start update index
  | swap number fails => exact traffic.held_swap number fails index
  | fill number => exact traffic.held_fill unwritten
  | perform operation =>
    cases operation with
    | push event =>
      refine traffic.held_apply (.append event) ?_
      rwa [Update.fills_append]
    | pull =>
      refine traffic.held_apply (.take .oldest) ?_
      rwa [Update.fills_take]
    | pop =>
      refine traffic.held_apply (.take .newest) ?_
      rwa [Update.fills_take]
    | read index | attachWriter | detachWriter => rfl
    | write event other =>
      have apart : other ≠ index := fun same => unwritten (same ▸ List.mem_cons_self)
      unfold step Ring.perform
      dsimp only
      rcases traffic.ring.write_cases event other with ⟨_, run⟩ | ⟨slot, _, run⟩
      · rw [run]
        rfl
      · rw [run]
        have kept := traffic.ring.slot?_setSlot other index ⟨(slot.stamp + 2) / 2 * 2, some event⟩
        rw [if_neg apart] at kept
        exact congrArg (Option.bind · (·.event)) kept

theorem held_after {motions : List (Motion α)} {index : Nat}
    (unwritten : index ∉ traffic.writes motions) :
    (traffic.after motions).ring.held index = traffic.ring.held index := by
  induction motions generalizing traffic with
  | nil => rfl
  | cons motion motions ih =>
    rw [writes, List.mem_append, not_or] at unwritten
    exact (ih _ unwritten.2).trans (traffic.held_step unwritten.1)

end Traffic

/-- What the stamp of a slot tells, if these slots were written first, and then more of them since
it was looked at earlier. -/
structure Slot.CountsWrites (slot : Slot α) (index : Nat) (earlier later : Traffic α)
    (log more : List Nat) : Prop where
  odd : slot.word.toNat % 2 = 1 ↔ ∃ flight ∈ later.flights, Flight.Marks flight index
  once : slot.word.toNat % 2 = 1 →
    ∃! number : Nat, ∃ flight, later.flights[number]? = some flight ∧ flight.Marks index
  twice : slot.word.toNat % 2 = 0 →
    slot.stamp = 2 * (log ++ more).count index ∧
      slot.word.toNat = 2 * (log ++ more).count index % UInt64.size
  /-- A word comes round again after so many writes of one slot, and not before. -/
  unwritten : ∀ old, earlier.ring.slot? index = some old → old.word = slot.word →
    2 * more.count index < UInt64.size → index ∉ more ∧ slot = old

/-- What all stamps of the ring tell later on. -/
def Traffic.CountsWrites (earlier later : Traffic α) (log more : List Nat) : Prop :=
  ∀ index slot, later.ring.slot? index = some slot → slot.CountsWrites index earlier later log more

theorem Reader.slot_of_watch {ring : Ring α} {index : Nat} {probe : Probe}
    (watched : watch ring index = .ok probe) :
    probe.index = index ∧ ∃ slot, ring.slot? index = some slot ∧ slot.stamp = probe.stamp := by
  unfold watch at watched
  split at watched
  · cases watched
  · rename_i slot look
    obtain ⟨atIndex, _⟩ := Ring.look_eq_ok_iff.1 look
    split at watched
    · cases watched
      exact ⟨rfl, slot, atIndex, rfl⟩
    · cases watched
      exact ⟨rfl, slot, atIndex, rfl⟩

section

variable {kind : RegisterKind} {capacity : Nat} {epoch : Time} {patience : Patience}
  {start : Ring α} (created : Ring.create kind capacity epoch patience = .ok start)
  {motions more : List (Motion α)}
  (disciplined : (Traffic.idle start).Disciplined (motions ++ more))

include created disciplined

theorem Traffic.counted_twice :
    ((idle start).after motions).Counted ((idle start).writes motions) ∧
      ((idle start).after (motions ++ more)).Counted
        ((idle start).writes motions ++ ((idle start).after motions).writes more) := by
  obtain ⟨before, since⟩ := disciplined_append.1 disciplined
  have counted := (Counted.of_create created).after before
  rw [after_append]
  exact ⟨counted, counted.after since⟩

/-- Stamps count the writes of any run that overwrites no slot while an append is on its way. -/
theorem Traffic.countsWrites_after :
    CountsWrites ((idle start).after motions) ((idle start).after (motions ++ more))
      ((idle start).writes motions) (((idle start).after motions).writes more) := by
  intro index slot atIndex
  obtain ⟨before, now⟩ := counted_twice created disciplined
  have word : slot.word.toNat = slot.stamp % UInt64.size := slot.stamp_wrapped.symm
  have settled : slot.settled = false ↔ slot.word.toNat % 2 = 1 := by
    rw [slot.settled_eq_word, decide_eq_false_iff_not]
    omega
  have odd := settled.symm.trans (now.settled_eq_false_iff atIndex)
  refine ⟨odd.trans mem_markedBy_iff, fun unsettled => now.marked_once (odd.1 unsettled),
    fun even => ?_, fun old atOld same few => ?_⟩
  · have stamp := now.unmarked index slot atIndex fun isMarked => by
      rw [odd.2 isMarked] at even
      cases even
    exact ⟨stamp, stamp ▸ word⟩
  · have same := (before.word_eq_iff now atOld atIndex few).1 same
    have unwritten := before.unwritten now atOld atIndex same
    have kept := Traffic.held_after _ unwritten
    unfold Ring.held at kept
    rw [← after_append, atIndex, atOld] at kept
    refine ⟨unwritten, ?_⟩
    cases slot
    cases old
    cases same
    cases kept
    rfl

/-- A reader that keeps words instead of stamps watches a slot no worse, unless that is written all
the way round meanwhile. -/
theorem Reader.changed_wrapped {index : Nat} {probe : Probe}
    (watched : watch ((Traffic.idle start).after motions).ring index = .ok probe)
    (few : 2 * (((Traffic.idle start).after motions).writes more).count index < UInt64.size) :
    changed probe.wrapped ((Traffic.idle start).after (motions ++ more)).ring.wrapped =
      changed probe ((Traffic.idle start).after (motions ++ more)).ring := by
  obtain ⟨before, now⟩ := Traffic.counted_twice created disciplined
  obtain ⟨rfl, old, atOld, stamp⟩ := slot_of_watch watched
  unfold changed
  have same : probe.wrapped.index = probe.index := rfl
  rw [same, Ring.look_wrapped]
  cases look : ((Traffic.idle start).after (motions ++ more)).ring.look probe.index with
  | error cause => rfl
  | ok slot =>
    have words := before.word_eq_iff now atOld (Ring.look_eq_ok_iff.1 look).1 few
    have shown : probe.wrapped.stamp = old.word.toNat := by
      rw [← old.stamp_wrapped]
      exact congrArg (· % UInt64.size) stamp.symm
    have stamps : slot.wrapped.stamp ≠ probe.wrapped.stamp ↔ slot.stamp ≠ probe.stamp := by
      rw [shown, slot.stamp_wrapped, ← stamp, Ne, Ne, UInt64.toNat_inj, eq_comm, words, eq_comm]
    dsimp only [Except.map]
    rw [decide_eq_decide.2 stamps]
    rfl

end

end TimedTrace
