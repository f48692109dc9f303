import TimedTrace.Proofs.Flights

namespace TimedTrace

variable {α : Type}

/-- The slot is one of those of the window, on a ring of so many. -/
def Window.Has (size : Nat) (window : Window) (index : Nat) : Prop :=
  ∃ steps, steps < (window.top + size - window.bottom) % size ∧
    index = (window.bottom + steps) % size

namespace Ring

/-- The slots of a window that begins here and has so many. -/
theorem has_iff (ring : Ring α) {bottom length : Nat} (bottom_lt : bottom < ring.size)
    (length_lt : length < ring.size) {index : Nat} :
    Window.Has ring.size ⟨bottom, ring.forward bottom length⟩ index ↔
      ∃ steps, steps < length ∧ index = ring.forward bottom steps := by
  have apart := ring.distance_forward bottom_lt length_lt
  unfold distance at apart
  unfold Window.Has
  dsimp only
  rw [apart]
  rfl

section

variable {ring : Ring α} {window : Window} {index : Nat} (bottom_lt : window.bottom < ring.size)
  (top_lt : window.top < ring.size)

include bottom_lt top_lt

/-- A window without its oldest slot. -/
theorem has_of_next_bottom (some : window.bottom ≠ window.top)
    (has : Window.Has ring.size ⟨ring.next window.bottom, window.top⟩ index) :
    window.Has ring.size index := by
  have top := ring.forward_distance bottom_lt top_lt
  have near := ring.distance_lt window.bottom window.top
  generalize length : ring.distance window.bottom window.top = n at top near
  have positive : n ≠ 0 := by
    rintro rfl
    rw [ring.forward_zero bottom_lt] at top
    exact some top
  have rest : window.top = ring.forward (ring.next window.bottom) (n - 1) := by
    rw [ring.next_eq_forward bottom_lt, ring.forward_forward, ← top]
    congr 1
    omega
  rw [rest, ring.has_iff (ring.next_lt bottom_lt) (by omega)] at has
  obtain ⟨steps, inside, rfl⟩ := has
  rw [ring.next_eq_forward bottom_lt, ring.forward_forward]
  exact ⟨1 + steps, by unfold distance at length; omega, rfl⟩

/-- A window without its newest slot. -/
theorem has_of_prev_top (some : window.bottom ≠ window.top)
    (has : Window.Has ring.size ⟨window.bottom, ring.prev window.top⟩ index) :
    window.Has ring.size index := by
  have top := ring.forward_distance bottom_lt top_lt
  have near := ring.distance_lt window.bottom window.top
  generalize length : ring.distance window.bottom window.top = n at top near
  cases n with
  | zero =>
    rw [ring.forward_zero bottom_lt] at top
    exact absurd top some
  | succ n =>
    rw [← top, ring.prev_forward, ring.has_iff bottom_lt (by omega)] at has
    obtain ⟨steps, inside, rfl⟩ := has
    exact ⟨steps, by unfold distance at length; omega, rfl⟩

/-- A window after an append has the slot at the top, and no other than before. -/
theorem has_of_push (has : Window.Has ring.size
      ⟨if ring.next window.top = window.bottom then ring.next window.bottom else window.bottom,
        ring.next window.top⟩ index) :
    index = window.top ∨ window.Has ring.size index := by
  have top := ring.forward_distance bottom_lt top_lt
  have near := ring.distance_lt window.bottom window.top
  generalize length : ring.distance window.bottom window.top = n at top near
  have next : ring.next window.top = ring.forward window.bottom (n + 1) := by
    rw [← top, ring.next_forward]
  have atSteps {steps : Nat} (upTo : steps ≤ n) (same : index = ring.forward window.bottom steps) :
      index = window.top ∨ window.Has ring.size index := by
    rcases Nat.lt_or_eq_of_le upTo with inside | rfl
    · exact .inr ⟨steps, by unfold distance at length; omega, same⟩
    · exact .inl (same.trans top)
  split at has
  · have rest : ring.next window.top = ring.forward (ring.next window.bottom) n := by
      rw [next, ring.next_eq_forward bottom_lt, ring.forward_forward, Nat.add_comm]
    rw [rest, ring.has_iff (ring.next_lt bottom_lt) near] at has
    obtain ⟨steps, inside, same⟩ := has
    rw [ring.next_eq_forward bottom_lt, ring.forward_forward] at same
    exact atSteps (by omega) same
  · rename_i room
    have short : n + 1 ≠ ring.size := by
      intro full
      rw [next, full, ring.forward_size bottom_lt] at room
      exact room rfl
    rw [next, ring.has_iff bottom_lt (by omega)] at has
    obtain ⟨steps, inside, same⟩ := has
    exact atSteps (by omega) same

end

/-- A round leads to a window that has no slot which is neither of the present one nor marked by the
round. -/
theorem InRange.has_of_round? {ring marked : Ring α} {size : Nat} (inRange : ring.InRange size)
    {update : Update α} {round : Round α Unit} (begun : update.round? ring = some (round, marked))
    {index : Nat} (has : round.next.Has size index) :
    (∃ mark ∈ round.mark, mark.index = index) ∨ ring.window.Has size index := by
  have slots := inRange.slots
  subst slots
  have bottom_lt := inRange.bottom_lt
  have top_lt := inRange.top_lt
  cases update with
  | append event =>
    obtain ⟨slot, _, _, isMark, next, _⟩ := Update.begun_append begun
    rw [next] at has
    exact (has_of_push bottom_lt top_lt has).imp_left fun atTop => ⟨_, isMark, atTop.symm⟩
  | take end_ =>
    obtain ⟨some, _, next, _⟩ := Update.begun_take begun
    rw [next] at has
    right
    cases end_ with
    | oldest => exact has_of_next_bottom bottom_lt top_lt some has
    | newest => exact has_of_prev_top bottom_lt top_lt some has

/-- A swap publishes the window that it is for, or leaves the one that there is. -/
theorem InRange.window_swap {ring : Ring α} {size : Nat} (inRange : ring.InRange size)
    {token : UInt64} {next : Window} (bottom_lt : next.bottom < size) (top_lt : next.top < size)
    {published : Bool} {register : Register}
    (run : ring.register.swap token next = (published, register)) :
    register.window = if published then next else ring.window := by
  have fits := inRange.fits
  have slots : ring.capacity + 1 = size := inRange.slots
  rcases inRange.sound.swap_cases token next (by omega) (by omega) with
    ⟨swapped, swap, _, _, window, _⟩ | ⟨swapped, swap, _, _, swaps⟩
  · cases run.symm.trans swap
    exact window
  · cases run.symm.trans swap
    exact congrArg Snapshot.window (swaps.still rfl)

/-- Slots that hold an event go on to hold one. -/
def Retains (ring after : Ring α) : Prop :=
  ∀ (index : Nat) (slot : Slot α) (event : Event α), ring.slot? index = some slot →
    slot.event = some event → ∃ slot event, after.slot? index = some slot ∧ slot.event = some event

theorem retains_of_slots {ring after : Ring α}
    (same : ∀ index, after.slot? index = ring.slot? index) : ring.Retains after :=
  fun index slot event atIndex holds => ⟨slot, event, (same index).trans atIndex, holds⟩

theorem retains_setStamp (ring : Ring α) (index stamp : Nat) :
    ring.Retains (ring.setStamp index stamp) := by
  intro other slot event atOther holds
  rw [slot?_setStamp]
  split
  · rw [atOther]
    exact ⟨_, event, rfl, holds⟩
  · exact ⟨slot, event, atOther, holds⟩

theorem retains_setSlot (ring : Ring α) (index stamp : Nat) (event : Event α) :
    ring.Retains (ring.setSlot index ⟨stamp, some event⟩) := by
  intro other slot held atOther holds
  rw [slot?_setSlot]
  split
  · rw [atOther]
    exact ⟨_, event, rfl, rfl⟩
  · exact ⟨slot, held, atOther, holds⟩

end Ring

namespace Round

variable {β : Type}

theorem retains_withdraw (round : Round α β) (ring : Ring α) :
    ring.Retains (round.withdraw ring) := by
  unfold withdraw
  split
  · exact Ring.retains_of_slots fun _ => rfl
  · exact Ring.retains_setStamp _ _ _

theorem retains_complete (round : Round α β) (ring : Ring α) :
    ring.Retains (round.complete ring) := by
  unfold complete
  split
  · exact Ring.retains_of_slots fun _ => rfl
  · exact Ring.retains_setSlot _ _ _ _

theorem window_withdraw (round : Round α β) (ring : Ring α) :
    (round.withdraw ring).window = ring.window := by
  unfold withdraw
  split
  · rfl
  · exact Ring.window_setStamp ..

theorem window_complete (round : Round α β) (ring : Ring α) :
    (round.complete ring).window = ring.window := by
  unfold complete
  split
  · rfl
  · rfl

/-- The end of the round settles the slot that it has marked, and no other. -/
def Settles (round : Round α β) (ring after : Ring α) : Prop :=
  ∀ (index : Nat) (slot : Slot α), after.slot? index = some slot → slot.settled = false →
    ring.slot? index = some slot ∧ ∀ mark ∈ round.mark, mark.index ≠ index

variable {round : Round α β} (even : ∀ mark ∈ round.mark, mark.stamp % 2 = 0) (ring : Ring α)

include even

theorem settles_withdraw : round.Settles ring (round.withdraw ring) := by
  intro index slot atIndex odd
  cases isMark : round.mark with
  | none =>
    rw [withdraw, isMark] at atIndex
    exact ⟨atIndex, fun mark isMark => by cases isMark⟩
  | some mark =>
    rw [slot?_withdraw isMark] at atIndex
    split at atIndex
    · obtain ⟨old, _, rfl⟩ := Option.map_eq_some_iff.1 atIndex
      cases odd.symm.trans (decide_eq_true (even mark isMark))
    · refine ⟨atIndex, fun other same => ?_⟩
      cases same
      assumption

theorem settles_complete : round.Settles ring (round.complete ring) := by
  intro index slot atIndex odd
  cases isMark : round.mark with
  | none =>
    rw [complete, isMark] at atIndex
    exact ⟨atIndex, fun mark isMark => by cases isMark⟩
  | some mark =>
    rw [slot?_complete isMark] at atIndex
    split at atIndex
    · obtain ⟨old, _, rfl⟩ := Option.map_eq_some_iff.1 atIndex
      have settled : (mark.stamp + 2) % 2 = 0 := by
        have := even mark isMark
        omega
      cases odd.symm.trans (decide_eq_true settled)
    · refine ⟨atIndex, fun other same => ?_⟩
      cases same
      assumption

end Round

namespace Traffic

/-- The slot was filled once, or somebody is about to fill it. -/
def Fills (traffic : Traffic α) (index : Nat) : Prop :=
  (∃ slot event, traffic.ring.slot? index = some slot ∧ slot.event = some event) ∨
    ∃ round, ⟨round, true⟩ ∈ traffic.flights ∧ ∃ mark ∈ round.mark, mark.index = index

theorem Fills.mono {traffic after : Traffic α} {index : Nat} (fills : traffic.Fills index)
    (retains : traffic.ring.Retains after.ring)
    (flights : ∀ round, ⟨round, true⟩ ∈ traffic.flights → ⟨round, true⟩ ∈ after.flights) :
    after.Fills index := by
  rcases fills with ⟨slot, event, atIndex, holds⟩ | ⟨round, swapped, atMark⟩
  · exact .inl (retains index slot event atIndex holds)
  · exact .inr ⟨round, flights round swapped, atMark⟩

/-- Every slot that is not settled is marked by a flight, and every one of the window that holds no
event by one that has swapped. No flight leads to a window with slots of another kind, save the one
that it has marked itself. -/
structure Backed (traffic : Traffic α) (size : Nat) : Prop where
  inRange : traffic.InRange size
  sane : ∀ mark ∈ marksOf traffic.flights, mark.stamp % 2 = 0 ∧ mark.index < size
  marked : ∀ index slot, traffic.ring.slot? index = some slot → slot.settled = false →
    ∃ mark ∈ marksOf traffic.flights, mark.index = index
  window : ∀ index, traffic.ring.window.Has size index → traffic.Fills index
  next : ∀ round, ⟨round, false⟩ ∈ traffic.flights → ∀ index, round.next.Has size index →
    (∃ mark ∈ round.mark, mark.index = index) ∨ traffic.Fills index

theorem slot_lt {ring : Ring α} {size index : Nat} {slot : Slot α} (inRange : ring.InRange size)
    (atIndex : ring.slot? index = some slot) : index < size := by
  by_contra beyond
  rw [Ring.slot?_eq_none_iff.2 (by rw [inRange.slots]; omega)] at atIndex
  cases atIndex

namespace Backed

variable {traffic : Traffic α} {size : Nat}

theorem start (backed : traffic.Backed size) (update : Update α) :
    (traffic.start update).Backed size := by
  have inRange := backed.inRange.start update
  rcases traffic.start_cases update with same | ⟨round, ring, begun, run⟩
  · rwa [same]
  have marks := Update.marks_of_round? begun
  have retains : traffic.ring.Retains ring := by
    rcases marks.cases with ⟨_, rfl⟩ | ⟨mark, slot, _, rfl, _⟩
    · exact Ring.retains_of_slots fun _ => rfl
    · exact Ring.retains_setStamp _ _ _
  have window : ring.window = traffic.ring.window := congrArg Register.window marks.register_eq
  rw [run] at inRange ⊢
  have fills {index : Nat} (fills : traffic.Fills index) :
      Fills ⟨ring, ⟨round, false⟩ :: traffic.flights⟩ index :=
    fills.mono retains fun _ swapped => List.mem_cons_of_mem _ swapped
  refine ⟨inRange, fun mark mem => ?_, fun index slot atIndex odd => ?_, fun index has => ?_,
    fun other mem index has => ?_⟩
  · rcases mem_marksOf_cons.1 mem with isMark | earlier
    · rcases marks.cases with ⟨unmarked, _⟩ | ⟨_, slot, own, _, _, atIndex, settled, stamp⟩
      · cases unmarked.symm.trans isMark
      · cases own.symm.trans isMark
        exact ⟨stamp ▸ of_decide_eq_true settled, slot_lt backed.inRange.ring atIndex⟩
    · exact backed.sane mark earlier
  · have old (atOld : traffic.ring.slot? index = some slot) :
        ∃ mark ∈ marksOf (⟨round, false⟩ :: traffic.flights), mark.index = index := by
      obtain ⟨mark, mem, atMark⟩ := backed.marked index slot atOld odd
      exact ⟨mark, mem_marksOf_cons.2 (.inr mem), atMark⟩
    rcases marks.cases with ⟨_, rfl⟩ | ⟨mark, _, isMark, rfl, _⟩
    · exact old atIndex
    · rw [Ring.slot?_setStamp] at atIndex
      split at atIndex
      · exact ⟨mark, mem_marksOf_cons.2 (.inl isMark), ‹_›⟩
      · exact old atIndex
  · rw [window] at has
    exact fills (backed.window index has)
  · rcases List.mem_cons.1 mem with same | earlier
    · cases same
      exact (backed.inRange.ring.has_of_round? begun has).imp_right
        fun has => fills (backed.window index has)
    · exact (backed.next other earlier index has).imp_right fills

section

variable {earlier later : List (Flight α)} {round : Round α Unit} {swapped : Bool}

theorem even_of_mem (backed : traffic.Backed size)
    (flights : traffic.flights = earlier ++ ⟨round, swapped⟩ :: later) :
    ∀ mark ∈ round.mark, mark.stamp % 2 = 0 := by
  intro mark isMark
  refine (backed.sane mark ?_).1
  rw [flights, marksOf_append, List.mem_append, mem_marksOf_cons]
  exact .inr (.inl isMark)

/-- A flight that ends leaves no slot unsettled that nobody else has marked. -/
theorem of_landed (backed : traffic.Backed size)
    (flights : traffic.flights = earlier ++ ⟨round, swapped⟩ :: later) {ring : Ring α}
    (inRange : InRange ⟨ring, earlier ++ later⟩ size) (settles : round.Settles traffic.ring ring)
    (window : ring.window = traffic.ring.window)
    (fills : ∀ index, traffic.Fills index → Fills ⟨ring, earlier ++ later⟩ index) :
    Backed ⟨ring, earlier ++ later⟩ size := by
  have sane := backed.sane
  have marked := backed.marked
  have next := backed.next
  rw [flights] at sane marked next
  refine ⟨inRange, fun mark mem => sane mark ?_, fun index slot atIndex odd => ?_,
    fun index has => ?_, fun other mem index has => ?_⟩
  · rw [marksOf_append, List.mem_append] at mem ⊢
    rw [mem_marksOf_cons]
    exact mem.imp_right .inr
  · obtain ⟨atOld, apart⟩ := settles index slot atIndex odd
    obtain ⟨mark, mem, atMark⟩ := marked index slot atOld odd
    rw [marksOf_append, List.mem_append, mem_marksOf_cons] at mem
    refine ⟨mark, ?_, atMark⟩
    rw [marksOf_append, List.mem_append]
    exact mem.imp_right fun mem => mem.resolve_left fun own => apart mark own atMark
  · rw [window] at has
    exact fills index (backed.window index has)
  · have old : ⟨other, false⟩ ∈ earlier ++ ⟨round, swapped⟩ :: later := by
      rw [List.mem_append] at mem ⊢
      exact mem.imp_right (List.mem_cons_of_mem _)
    exact (next other old index has).imp_right (fills index)

end

/-- Once a flight has swapped, its own window is that of the ring, and it is about to fill the slot
that it has marked. -/
theorem of_swapped (backed : traffic.Backed size) {earlier later : List (Flight α)}
    {round : Round α Unit} (flights : traffic.flights = earlier ++ ⟨round, false⟩ :: later)
    {register : Register}
    (inRange : InRange ⟨{ traffic.ring with register }, earlier ++ ⟨round, true⟩ :: later⟩ size)
    (window : register.window = round.next) :
    Backed ⟨{ traffic.ring with register }, earlier ++ ⟨round, true⟩ :: later⟩ size := by
  have swapped (other : Round α Unit) (old : ⟨other, true⟩ ∈ traffic.flights) :
      ⟨other, true⟩ ∈ earlier ++ ⟨round, true⟩ :: later := by
    rw [flights, List.mem_append, List.mem_cons] at old
    rw [List.mem_append, List.mem_cons]
    exact old.imp_right fun old => .inr (old.resolve_left nofun)
  have waiting (other : Round α Unit)
      (mem : ⟨other, false⟩ ∈ earlier ++ ⟨round, true⟩ :: later) :
      ⟨other, false⟩ ∈ traffic.flights := by
    rw [flights, List.mem_append, List.mem_cons]
    rw [List.mem_append, List.mem_cons] at mem
    exact mem.imp_right fun mem => .inr (mem.resolve_left nofun)
  have fills (index : Nat) (fills : traffic.Fills index) :
      Fills ⟨{ traffic.ring with register }, earlier ++ ⟨round, true⟩ :: later⟩ index :=
    fills.mono (Ring.retains_of_slots fun _ => rfl) swapped
  have marks : marksOf (earlier ++ ⟨round, true⟩ :: later) = marksOf traffic.flights := by
    rw [flights, marksOf_append, marksOf_append]
    rfl
  refine ⟨inRange, fun mark mem => ?_, fun index slot atIndex odd => ?_, fun index has => ?_,
    fun other mem index has => ?_⟩
  · rw [marks] at mem
    exact backed.sane mark mem
  · rw [marks]
    exact backed.marked index slot atIndex odd
  · have mem : ⟨round, false⟩ ∈ traffic.flights := by
      rw [flights]
      exact List.mem_append_right _ List.mem_cons_self
    have has : round.next.Has size index := window ▸ has
    rcases backed.next round mem index has with own | filled
    · exact .inr ⟨round, List.mem_append_right _ List.mem_cons_self, own⟩
    · exact fills index filled
  · exact (backed.next other (waiting other mem) index has).imp_right (fills index)

theorem swap (backed : traffic.Backed size) (number : Nat) (fails : Bool) :
    (traffic.swap number fails).Backed size := by
  have inRange := backed.inRange.swap number fails
  rcases traffic.swap_cases number fails with
    same | ⟨earlier, round, later, register, flights, swaps⟩
  · rwa [same]
  have mem : ⟨round, false⟩ ∈ traffic.flights := by
    rw [flights]
    exact List.mem_append_right _ List.mem_cons_self
  obtain ⟨bottom_lt, top_lt⟩ := backed.inRange.flights _ mem
  rcases swaps with ⟨swapped, run⟩ | ⟨lost, run⟩
  · rw [run] at inRange ⊢
    exact backed.of_swapped flights inRange
      (backed.inRange.ring.window_swap bottom_lt top_lt swapped)
  · have window : register.window = traffic.ring.window := by
      rcases lost with rfl | refused
      · rfl
      · exact backed.inRange.ring.window_swap bottom_lt top_lt refused
    have retains := round.retains_withdraw { traffic.ring with register }
    rw [run] at inRange ⊢
    refine backed.of_landed flights inRange
      (round.settles_withdraw (backed.even_of_mem flights) { traffic.ring with register })
      ((round.window_withdraw _).trans window) fun index fills => ?_
    refine fills.mono retains fun other swapped => ?_
    rw [flights, List.mem_append, List.mem_cons] at swapped
    rw [List.mem_append]
    exact swapped.imp_right fun swapped => swapped.resolve_left nofun

theorem fill (backed : traffic.Backed size) (number : Nat) : (traffic.fill number).Backed size := by
  have inRange := backed.inRange.fill number
  rcases traffic.fill_cases number with ⟨_, same⟩ | ⟨earlier, round, later, _, flights, run⟩
  · rwa [same]
  rw [run] at inRange ⊢
  refine backed.of_landed flights inRange
    (round.settles_complete (backed.even_of_mem flights) traffic.ring) (round.window_complete _)
    fun index fills => ?_
  rcases fills with ⟨slot, event, atIndex, holds⟩ | ⟨other, swapped, mark, isMark, atMark⟩
  · exact .inl (round.retains_complete traffic.ring index slot event atIndex holds)
  · rw [flights, List.mem_append, List.mem_cons] at swapped
    by_cases own : other = round
    · -- The flight that fills its slot need not be counted any more: the slot holds an event.
      subst other
      have inside : mark.index < traffic.ring.size := by
        rw [backed.inRange.ring.slots]
        refine (backed.sane mark ?_).2
        rw [flights, marksOf_append, List.mem_append, mem_marksOf_cons]
        exact .inr (.inl isMark)
      obtain ⟨slot, atIndex⟩ := Ring.exists_slot inside
      refine .inl ⟨⟨mark.stamp + 2, some mark.event⟩, mark.event, ?_, rfl⟩
      rw [Round.slot?_complete isMark, if_pos atMark, ← atMark, atIndex]
      rfl
    · refine .inr ⟨other, ?_, mark, isMark, atMark⟩
      rw [List.mem_append]
      refine swapped.imp_right fun swapped => swapped.resolve_left fun same => own ?_
      cases same
      rfl

/-- What happens to the slots behind the backs of all flights. -/
theorem of_ring (backed : traffic.Backed size) {ring : Ring α}
    (inRange : InRange ⟨ring, traffic.flights⟩ size) (window : ring.window = traffic.ring.window)
    (retains : traffic.ring.Retains ring)
    (settles : ∀ index slot, ring.slot? index = some slot → slot.settled = false →
      traffic.ring.slot? index = some slot) : Backed ⟨ring, traffic.flights⟩ size := by
  have fills {index : Nat} (fills : traffic.Fills index) : Fills ⟨ring, traffic.flights⟩ index :=
    fills.mono retains fun _ swapped => swapped
  refine ⟨inRange, backed.sane, fun index slot atIndex odd => ?_, fun index has => ?_,
    fun other mem index has => ?_⟩
  · exact backed.marked index slot (settles index slot atIndex odd) odd
  · rw [window] at has
    exact fills (backed.window index has)
  · exact (backed.next other mem index has).imp_right fills

/-- A slot that is overwritten is settled and holds an event, even if a flight had marked it. -/
theorem write (backed : traffic.Backed size) (event : Event α) (index : Nat) :
    Backed { traffic with ring := (traffic.ring.write event index).2 } size := by
  rcases traffic.ring.write_cases event index with ⟨_, run⟩ | ⟨slot, _, run⟩
  · rwa [run]
  · rw [run]
    refine backed.of_ring ⟨backed.inRange.ring.setSlot .., backed.inRange.flights⟩ rfl
      (Ring.retains_setSlot _ _ _ _) fun other found atOther odd => ?_
    have atOther : (traffic.ring.setSlot index _).slot? other = some found := atOther
    rw [Ring.slot?_setSlot] at atOther
    split at atOther
    · obtain ⟨_, _, rfl⟩ := Option.map_eq_some_iff.1 atOther
      simp [Slot.settled] at odd
    · exact atOther

theorem apply (backed : traffic.Backed size) (update : Update α) :
    Backed { traffic with ring := update.apply traffic.ring } size := by
  rcases traffic.apply_cases update with ⟨_, same⟩ | ⟨_, _, _, ⟨_, lost⟩ | ⟨_, won⟩⟩
  · rwa [same]
  · rw [lost]
    exact (backed.start update).swap 0 false
  · rw [won]
    exact ((backed.start update).swap 0 false).fill 0

theorem step (backed : traffic.Backed size) (motion : Motion α) :
    (traffic.step motion).Backed size := by
  cases motion with
  | start update => exact backed.start update
  | swap number fails => exact backed.swap number fails
  | fill number => exact backed.fill number
  | perform operation =>
    have writers (writers : Nat) :
        Backed { traffic with ring := { traffic.ring with writers } } size :=
      backed.of_ring ⟨backed.inRange.ring.congr rfl rfl, backed.inRange.flights⟩ rfl
        (Ring.retains_of_slots fun _ => rfl) fun _ _ atIndex _ => atIndex
    cases operation with
    | push event => exact backed.apply (.append event)
    | pull => exact backed.apply (.take .oldest)
    | pop => exact backed.apply (.take .newest)
    | read index => exact backed
    | write event index => exact backed.write event index
    | attachWriter => exact writers _
    | detachWriter => exact writers _

theorem of_create {kind : RegisterKind} {capacity : Nat} {epoch : Time} {patience : Patience}
    {ring : Ring α} (created : Ring.create kind capacity epoch patience = .ok ring) :
    (idle ring).Backed ring.size := by
  have holds := Ring.Holds.of_create created
  refine ⟨.of_create created, nofun, fun index slot atIndex odd => ?_, fun index has => ?_, nofun⟩
  · cases odd.symm.trans (Ring.calm_of_create created index slot atIndex)
  · obtain ⟨steps, inside, _⟩ := has
    have empty : ring.distance ring.window.bottom ring.window.top = 0 := holds.length_eq
    exact absurd inside (by unfold Ring.distance at empty; dsimp only [idle]; omega)

theorem after (backed : traffic.Backed size) (motions : List (Motion α)) :
    (traffic.after motions).Backed size := by
  induction motions generalizing traffic with
  | nil => exact backed
  | cons motion motions ih => exact ih (backed.step motion)

/-- With no append on its way all slots are settled, and the window shows a list of events. -/
theorem at_rest (backed : traffic.Backed size) (unmarked : marksOf traffic.flights = []) :
    traffic.ring.Calm ∧ ∃ items, traffic.ring.Holds items := by
  have calm : traffic.ring.Calm := by
    intro index slot atIndex
    by_contra odd
    obtain ⟨mark, mem, _⟩ := backed.marked index slot atIndex (Bool.not_eq_true _ ▸ odd)
    rw [unmarked] at mem
    cases mem
  have inRange := backed.inRange.ring
  have slots := inRange.slots
  have bottom_lt : traffic.ring.window.bottom < traffic.ring.size := slots ▸ inRange.bottom_lt
  have top_lt : traffic.ring.window.top < traffic.ring.size := slots ▸ inRange.top_lt
  have short := traffic.ring.distance_lt traffic.ring.window.bottom traffic.ring.window.top
  have each
      (steps : Fin (traffic.ring.distance traffic.ring.window.bottom traffic.ring.window.top)) :
      ∃ event, traffic.ring.read (traffic.ring.forward traffic.ring.window.bottom steps) =
        .ok event := by
    have has : traffic.ring.window.Has traffic.ring.size
        (traffic.ring.forward traffic.ring.window.bottom steps) := ⟨steps, steps.2, rfl⟩
    rw [slots] at has
    rcases backed.window _ has with ⟨slot, event, atIndex, holds⟩ | ⟨round, mem, mark, isMark, _⟩
    · exact ⟨event, Ring.read_eq_ok_iff.2 ⟨slot, atIndex, calm _ slot atIndex, holds⟩⟩
    · have mem : mark ∈ marksOf traffic.flights := List.mem_filterMap.2 ⟨_, mem, isMark⟩
      rw [unmarked] at mem
      cases mem
  choose event reads using each
  refine ⟨calm, List.ofFn event, inRange.sound, inRange.fits, ?_, bottom_lt, ?_,
    fun i found atI => ?_⟩
  · rw [List.length_ofFn]
    exact Nat.le_of_lt_succ short
  · rw [List.length_ofFn]
    exact (traffic.ring.forward_distance bottom_lt top_lt).symm
  · obtain ⟨inside, rfl⟩ := List.getElem?_eq_some_iff.1 atI
    rw [List.length_ofFn] at inside
    rw [List.getElem_ofFn]
    exact reads ⟨i, inside⟩

end Backed

/-- Whatever has happened to a ring: once no append is on its way any more, all of its slots are
settled, and its window shows a list of events. -/
theorem holds_at_rest {kind : RegisterKind} {capacity : Nat} {epoch : Time} {patience : Patience}
    {ring : Ring α} (created : Ring.create kind capacity epoch patience = .ok ring)
    {motions : List (Motion α)} (atRest : marksOf ((idle ring).after motions).flights = []) :
    ((idle ring).after motions).ring.Calm ∧ ∃ items, ((idle ring).after motions).ring.Holds items :=
  ((Backed.of_create created).after motions).at_rest atRest

end Traffic

end TimedTrace
