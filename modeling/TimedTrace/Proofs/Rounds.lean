import TimedTrace.Proofs.Deque
import TimedTrace.Proofs.Staleness

namespace TimedTrace

variable {α β : Type}

/-- The end of a window that a take takes from. -/
inductive End where
  | oldest
  | newest
  deriving DecidableEq, Repr

namespace End

/-- The opening of a take from this end. -/
def opening : End → Ring α → Opening α (Event α)
  | oldest => Ring.takeOldest
  | newest => Ring.takeNewest

/-- The slot of the event at this end of the window. -/
def index (ring : Ring α) : End → Nat
  | oldest => ring.window.bottom
  | newest => ring.prev ring.window.top

/-- The window without that slot. -/
def next (ring : Ring α) : End → Window
  | oldest => ⟨ring.next ring.window.bottom, ring.window.top⟩
  | newest => ⟨ring.window.bottom, ring.prev ring.window.top⟩

def item? (items : List (Event α)) : End → Option (Event α)
  | oldest => items.head?
  | newest => items.getLast?

def rest (items : List (Event α)) : End → List (Event α)
  | oldest => items.tail
  | newest => items.dropLast

theorem opening_eq (end_ : End) (ring : Ring α) :
    end_.opening ring = ring.take (end_.index ring) (end_.next ring) := by
  cases end_ <;> rfl

theorem index_eq (end_ : End) {ring after : Ring α} (capacity : after.capacity = ring.capacity)
    (window : after.window = ring.window) : end_.index after = end_.index ring := by
  cases end_ <;> simp [index, Ring.prev, Ring.size, capacity, window]

theorem next_eq (end_ : End) {ring after : Ring α} (capacity : after.capacity = ring.capacity)
    (window : after.window = ring.window) : end_.next after = end_.next ring := by
  cases end_ <;> simp [next, Ring.next, Ring.prev, Ring.size, capacity, window]

theorem item?_eq_none_iff (end_ : End) (items : List (Event α)) :
    end_.item? items = none ↔ items = [] := by
  cases end_ <;> simp [item?]

end End

/-- What an update does when it gets through. -/
inductive Deed (α : Type) where
  | append (event : Event α)
  | take (end_ : End) (event : Event α)
  deriving DecidableEq, Repr

namespace Deed

/-- What a deed makes of the events in the window. -/
def apply (capacity : Nat) (items : List (Event α)) : Deed α → List (Event α)
  | append event => appended capacity items event
  | take end_ _ => end_.rest items

/-- An event is only taken from where it is. -/
def Legal (items : List (Event α)) : Deed α → Prop
  | append _ => True
  | take end_ event => end_.item? items = some event

end Deed

namespace Ring

/-- No slot is marked. -/
def Calm (ring : Ring α) : Prop :=
  ∀ (index : Nat) (slot : Slot α), ring.slot? index = some slot → slot.settled = true

/-- What complete calls make of a ring: this many windows were published, and slots that were marked
are still marked and untouched. If nothing was published nothing has changed. -/
structure Evolves (count : Nat) (older newer : Ring α) : Prop where
  swaps : Register.Swaps count older.register newer.register
  capacity : newer.capacity = older.capacity
  patience : newer.patience = older.patience
  writers : newer.writers = older.writers
  marked : ∀ (index : Nat) (slot : Slot α), slot.settled = false →
    (newer.slot? index = some slot ↔ older.slot? index = some slot)
  still : count = 0 → ∀ index, newer.slot? index = older.slot? index

namespace Evolves

theorem refl (ring : Ring α) : Evolves 0 ring ring :=
  ⟨.refl _, rfl, rfl, rfl, fun _ _ _ => .rfl, fun _ _ => rfl⟩

theorem trans {first second : Nat} {older between newer : Ring α}
    (before : Evolves first older between) (after : Evolves second between newer) :
    Evolves (first + second) older newer where
  swaps := before.swaps.trans after.swaps
  capacity := after.capacity.trans before.capacity
  patience := after.patience.trans before.patience
  writers := after.writers.trans before.writers
  marked index slot odd := (after.marked index slot odd).trans (before.marked index slot odd)
  still none index := (after.still (by omega) index).trans (before.still (by omega) index)

/-- A swap, or an attempt at one. -/
theorem publish {count tries : Nat} {older newer : Ring α} (evolves : Evolves count older newer)
    {register : Register} (swaps : Register.Swaps tries newer.register register) :
    Evolves (count + tries) older { newer with register } where
  swaps := evolves.swaps.trans swaps
  capacity := evolves.capacity
  patience := evolves.patience
  writers := evolves.writers
  marked := evolves.marked
  still none := evolves.still (by omega)

/-- Complete calls leave no marks. -/
theorem calm {count : Nat} {older newer : Ring α} (evolves : Evolves count older newer)
    (calm : older.Calm) : newer.Calm := by
  intro index slot atIndex
  refine (Bool.eq_false_or_eq_true slot.settled).resolve_right fun odd => ?_
  have before := calm index slot ((evolves.marked index slot odd).1 atIndex)
  rw [odd] at before
  cases before

end Evolves

@[simp] theorem capacity_setStamp (ring : Ring α) (index stamp : Nat) :
    (ring.setStamp index stamp).capacity = ring.capacity := by
  unfold setStamp
  split <;> rfl

@[simp] theorem register_setStamp (ring : Ring α) (index stamp : Nat) :
    (ring.setStamp index stamp).register = ring.register := by
  unfold setStamp
  split <;> rfl

@[simp] theorem patience_setStamp (ring : Ring α) (index stamp : Nat) :
    (ring.setStamp index stamp).patience = ring.patience := by
  unfold setStamp
  split <;> rfl

@[simp] theorem writers_setStamp (ring : Ring α) (index stamp : Nat) :
    (ring.setStamp index stamp).writers = ring.writers := by
  unfold setStamp
  split <;> rfl

/-- Evolution from a ring in which a slot was settled, through one in which it was marked, to one in
which it is settled again. -/
theorem Evolves.around {count : Nat} {ring before after : Ring α} {index : Nat}
    {slot : Slot α} (evolves : (ring.setStamp index (slot.stamp + 1)).Evolves count before)
    (final : Slot α) (atIndex : ring.slot? index = some slot) (settled : slot.settled = true)
    (settledAfter : final.settled = true) (swaps : after.register = before.register)
    (capacity : after.capacity = before.capacity) (patience : after.patience = before.patience)
    (writers : after.writers = before.writers)
    (slots : ∀ other, after.slot? other =
      if index = other then some final else before.slot? other)
    (still : count = 0 → final = slot) : ring.Evolves count after where
  swaps := by
    have inner := evolves.swaps
    rw [register_setStamp] at inner
    rwa [swaps]
  capacity := by rw [capacity, evolves.capacity, capacity_setStamp]
  patience := by rw [patience, evolves.patience, patience_setStamp]
  writers := by rw [writers, evolves.writers, writers_setStamp]
  marked other odd isOdd := by
    have inner := evolves.marked other odd isOdd
    rw [slots]
    by_cases here : index = other
    · have notFinal : final ≠ odd := by
        rintro rfl
        rw [isOdd] at settledAfter
        cases settledAfter
      have notSlot : slot ≠ odd := by
        rintro rfl
        rw [isOdd] at settled
        cases settled
      subst here
      rw [if_pos rfl, atIndex]
      simp [notFinal, notSlot]
    · rw [slot?_setStamp, if_neg here] at inner
      rw [if_neg here, inner]
  still none other := by
    have inner := evolves.still none other
    rw [slots]
    by_cases here : index = other
    · subst here
      rw [if_pos rfl, atIndex, still none]
    · rw [slot?_setStamp, if_neg here] at inner
      rw [if_neg here, inner]

end Ring

namespace Round

/-- The ring with the mark that the round needs, if it needs any: on the free slot, which was
settled before. -/
def Marks (round : Round α β) (ring marked : Ring α) : Prop :=
  match round.mark with
  | none => marked = ring
  | some mark => mark.index = ring.window.top ∧
      marked = ring.setStamp mark.index (mark.stamp + 1) ∧
      ∃ slot, ring.slot? mark.index = some slot ∧ slot.settled = true ∧ slot.stamp = mark.stamp

/-- A round that was prepared on a ring in order to do this, and has marked it. -/
structure Prepared (round : Round α β) (deed : β → Deed α) (ring marked : Ring α) : Prop where
  token : round.token = ring.register.load.token
  bottom_lt : round.next.bottom < ring.size
  top_lt : round.next.top < ring.size
  marks : round.Marks ring marked
  effect : ∀ {before : Ring α} {register : Register} {items : List (Event α)},
    before.Holds items → before.capacity = ring.capacity → before.window = ring.window →
    register.Sound → register.kind = before.register.kind → register.window = round.next →
    (round.complete { before with register }).Holds
      ((deed (round.answer before.writers)).apply before.capacity items)
  legal : ∀ {before : Ring α} {items : List (Event α)},
    before.Holds items → before.capacity = ring.capacity → before.window = ring.window →
    (∀ index, before.slot? index = marked.slot? index) →
    (deed (round.answer before.writers)).Legal items

namespace Marks

variable {round : Round α β} {ring marked before : Ring α} {items : List (Event α)} {count : Nat}

theorem unsettled_of_mark {slot : Slot α} (settled : slot.settled = true) :
    ({ slot with stamp := slot.stamp + 1 } : Slot α).settled = false := by
  simp only [Slot.settled, decide_eq_true_eq, decide_eq_false_iff_not] at settled ⊢
  omega

theorem settled_of_fill {slot : Slot α} (settled : slot.settled = true) (event : Option (Event α)) :
    (⟨slot.stamp + 2, event⟩ : Slot α).settled = true := by
  simp only [Slot.settled, decide_eq_true_eq] at settled ⊢
  omega

theorem register_eq (marks : round.Marks ring marked) : marked.register = ring.register := by
  unfold Marks at marks
  split at marks
  · rw [marks]
  · rw [marks.2.1]
    exact Ring.register_setStamp ..

theorem capacity_eq (marks : round.Marks ring marked) : marked.capacity = ring.capacity := by
  unfold Marks at marks
  split at marks
  · rw [marks]
  · rw [marks.2.1]
    exact Ring.capacity_setStamp ..

theorem writers_eq (marks : round.Marks ring marked) : marked.writers = ring.writers := by
  unfold Marks at marks
  split at marks
  · rw [marks]
  · rw [marks.2.1]
    exact Ring.writers_setStamp ..

/-- The marked slot as others have left it. -/
theorem slot?_marked {mark : Mark α} (marks : round.Marks ring marked)
    (isMark : round.mark = some mark) (evolves : marked.Evolves count before) :
    ∃ slot, ring.slot? mark.index = some slot ∧ slot.settled = true ∧ slot.stamp = mark.stamp ∧
      before.slot? mark.index = some { slot with stamp := mark.stamp + 1 } := by
  rw [Marks, isMark] at marks
  obtain ⟨_, rfl, slot, atIndex, settled, stamp⟩ := marks
  refine ⟨slot, atIndex, settled, stamp, ?_⟩
  have odd := unsettled_of_mark settled
  rw [stamp] at odd
  refine (evolves.marked _ _ odd).2 ?_
  rw [Ring.slot?_setStamp, if_pos rfl, atIndex]
  rfl

/-- A mark lies outside of the window. -/
theorem holds (marks : round.Marks ring marked) (holds : ring.Holds items) :
    marked.Holds items := by
  unfold Marks at marks
  split at marks
  · rwa [marks]
  · obtain ⟨atTop, rfl, _⟩ := marks
    refine holds.congr (Ring.capacity_setStamp ..) ?_ ?_ (Ring.window_setStamp ..)
      fun i inside => ?_
    · rw [Ring.register_setStamp]
      exact holds.sound
    · rw [Ring.register_setStamp]
    · rw [Ring.slot?_setStamp, if_neg]
      rw [atTop]
      exact Ne.symm (holds.forward_ne_top inside)

/-- A round that is lost takes its mark back and touches nothing else. -/
theorem slot?_withdraw {mark : Mark α} (marks : round.Marks ring marked)
    (isMark : round.mark = some mark) (evolves : marked.Evolves count before) (index : Nat) :
    (round.withdraw before).slot? index =
      if mark.index = index then ring.slot? index else before.slot? index := by
  obtain ⟨slot, atIndex, _, stamp, atBefore⟩ := marks.slot?_marked isMark evolves
  rw [withdraw, isMark]
  dsimp only
  rw [Ring.slot?_setStamp]
  split
  · subst index
    rw [atBefore, atIndex, ← stamp]
    rfl
  · rfl

/-- Calls that were complete before the swap are all that has happened to a ring whose round was
lost. -/
theorem evolves_withdraw (marks : round.Marks ring marked)
    (evolves : marked.Evolves count before) : ring.Evolves count (round.withdraw before) := by
  cases isMark : round.mark with
  | none =>
    rw [Marks, isMark] at marks
    rw [withdraw, isMark]
    rwa [marks] at evolves
  | some mark =>
    have slots := marks.slot?_withdraw isMark evolves
    obtain ⟨slot, atIndex, settled, stamp, _⟩ := marks.slot?_marked isMark evolves
    rw [Marks, isMark] at marks
    rw [marks.2.1, ← stamp] at evolves
    rw [withdraw, isMark] at slots ⊢
    refine evolves.around slot atIndex settled settled (Ring.register_setStamp ..)
      (Ring.capacity_setStamp ..) (Ring.patience_setStamp ..) (Ring.writers_setStamp ..)
      (fun other => ?_) fun _ => rfl
    rw [slots]
    split
    · subst other
      exact atIndex
    · rfl

theorem holds_withdraw (marks : round.Marks ring marked) (evolves : marked.Evolves count before)
    (holds : before.Holds items) : (round.withdraw before).Holds items := by
  unfold withdraw
  cases isMark : round.mark with
  | none => exact holds
  | some mark =>
    obtain ⟨slot, atIndex, settled, stamp, atBefore⟩ := marks.slot?_marked isMark evolves
    have odd := unsettled_of_mark settled
    rw [stamp] at odd
    refine holds.congr (Ring.capacity_setStamp ..) ?_ ?_ (Ring.window_setStamp ..)
      fun i inside => ?_
    · rw [Ring.register_setStamp]
      exact holds.sound
    · rw [Ring.register_setStamp]
    · rw [Ring.slot?_setStamp, if_neg (Ne.symm (holds.forward_ne_marked atBefore odd inside))]

/-- A round that gets through fills the slot that it marked. -/
theorem evolves_complete (marks : round.Marks ring marked)
    (evolves : marked.Evolves count before) (published : count ≠ 0) :
    ring.Evolves count (round.complete before) := by
  unfold complete
  cases isMark : round.mark with
  | none =>
    rw [Marks, isMark] at marks
    rwa [marks] at evolves
  | some mark =>
    obtain ⟨slot, atIndex, settled, stamp, atBefore⟩ := marks.slot?_marked isMark evolves
    rw [Marks, isMark] at marks
    rw [marks.2.1, ← stamp] at evolves
    dsimp only
    refine evolves.around ⟨mark.stamp + 2, some mark.event⟩ atIndex settled ?_ rfl rfl
      rfl rfl (fun other => ?_) fun none => absurd none published
    · rw [← stamp]
      exact settled_of_fill settled _
    · rw [Ring.slot?_setSlot]
      split
      · subst other
        rw [atBefore]
        rfl
      · rfl

end Marks

/-- All that can become of a round when it tries to swap. -/
theorem Prepared.publish_cases {round : Round α β} {deed : β → Deed α} {ring marked before : Ring α}
    {items : List (Event α)} {count : Nat} (prepared : round.Prepared deed ring marked)
    (evolves : marked.Evolves count before) (holds : before.Holds items)
    (few : ring.register.kind = .versioned → count < VersionedRegister.generations) :
    (∃ after, round.publish before = (some (round.answer before.writers), after) ∧
        before.window = ring.window ∧ ring.Evolves (count + 1) after ∧
        after.Holds ((deed (round.answer before.writers)).apply before.capacity items) ∧
        (ring.register.kind = .versioned →
          count = 0 ∧ (deed (round.answer before.writers)).Legal items)) ∨
      ∃ register, round.publish before = (none, round.withdraw { before with register }) ∧
        before.register.load.token ≠ round.token ∧
        Register.Swaps 0 before.register register ∧
        ring.Evolves count (round.withdraw { before with register }) ∧
        (round.withdraw { before with register }).Holds items := by
  have swaps := evolves.swaps
  rw [prepared.marks.register_eq] at swaps
  have capacity := evolves.capacity.trans prepared.marks.capacity_eq
  have fits := holds.fits
  have size : ring.size = before.capacity + 1 := by rw [capacity]; rfl
  have bottom_lt := prepared.bottom_lt
  have top_lt := prepared.top_lt
  unfold publish
  rcases holds.sound.swap_cases round.token round.next (by omega) (by omega) with
    ⟨register, run, current, sound, window, tries⟩ | ⟨register, run, stale, sound, tries⟩
  · left
    rw [run]
    rw [prepared.token] at current
    obtain ⟨windowEq, none⟩ := swaps.window_eq current few
    refine ⟨_, rfl, windowEq,
      prepared.marks.evolves_complete (evolves.publish tries) (Nat.succ_ne_zero _),
      prepared.effect holds capacity windowEq sound tries.kind window,
      fun isVersioned => ⟨none isVersioned, prepared.legal holds capacity windowEq ?_⟩⟩
    exact evolves.still (none isVersioned)
  · right
    rw [run]
    refine ⟨register, rfl, stale, tries, prepared.marks.evolves_withdraw (evolves.publish tries),
      prepared.marks.holds_withdraw (evolves.publish tries) ?_⟩
    exact holds.congr rfl sound tries.kind (congrArg Snapshot.window (tries.still rfl))
      fun _ _ => rfl

end Round

/-- With nobody else about, the first round gets through. -/
theorem Round.Prepared.uncontended {opening : Ring α → Opening α β} {round : Round α β}
    {deed : β → Deed α} {ring marked : Ring α} {items : List (Event α)}
    (prepared : round.Prepared deed ring marked) (holds : ring.Holds items)
    (opens : opening ring = .ready round marked) :
    ∃ after, ring.uncontended opening = (.ok (round.answer ring.writers), after) ∧
      ring.Evolves 1 after ∧
      after.Holds ((deed (round.answer ring.writers)).apply ring.capacity items) := by
  have marks := prepared.marks
  rcases prepared.publish_cases (.refl marked) (marks.holds holds) (fun _ => by decide) with
    ⟨after, run, _, evolves, holdsAfter, _⟩ | ⟨register, _, stale, _⟩
  · rw [marks.writers_eq] at run holdsAfter
    rw [marks.capacity_eq] at holdsAfter
    refine ⟨after, ?_, evolves, holdsAfter⟩
    simp only [Ring.uncontended, Ring.contend, opens, run]
  · rw [marks.register_eq, prepared.token] at stale
    exact absurd rfl stale

namespace Ring

variable {ring : Ring α} {items : List (Event α)}

/-- An opening whose rounds are all prepared in order to do this. -/
def Serves (opening : Ring α → Opening α β) (deed : β → Deed α) : Prop :=
  ∀ ⦃ring : Ring α⦄ ⦃items : List (Event α)⦄ ⦃round : Round α β⦄ ⦃marked : Ring α⦄,
    ring.Holds items → opening ring = .ready round marked → round.Prepared deed ring marked

namespace Holds

theorem append_eq (event : Event α) {slot : Slot α}
    (atTop : ring.slot? ring.window.top = some slot) :
    Ring.append event ring =
      if slot.settled then
        .ready (ring.pushRound slot event) (ring.setStamp ring.window.top (slot.stamp + 1))
      else .blocked := by
  simp only [Ring.append, atTop]
  rfl

/-- The slot at either end of the window holds the event there. -/
theorem read_end (holds : ring.Holds items) {end_ : End} {event : Event α}
    (atEnd : end_.item? items = some event) : ring.read (end_.index ring) = .ok event := by
  cases end_ with
  | oldest =>
    rw [End.item?, List.head?_eq_getElem?] at atEnd
    have read := holds.read 0 event atEnd
    rwa [ring.forward_zero holds.bottom_lt] at read
  | newest =>
    rw [End.item?, List.getLast?_eq_getElem?] at atEnd
    have some : 0 < items.length := by
      have inside := (List.getElem?_eq_some_iff.1 atEnd).1
      omega
    have prev : ring.prev ring.window.top = ring.forward ring.window.bottom (items.length - 1) := by
      rw [holds.top]
      conv =>
        lhs
        rw [show items.length = items.length - 1 + 1 by omega]
      exact ring.prev_forward ..
    rw [End.index, prev]
    exact holds.read _ event atEnd

/-- A take begins a round as long as there is an event. -/
theorem take_eq (holds : ring.Holds items) (end_ : End) :
    end_.opening ring =
      match end_.item? items with
      | none => .refused .empty
      | some event => .ready ⟨ring.snapshot.token, end_.next ring, none, fun _ => event⟩ ring := by
  rw [End.opening_eq, take]
  cases atEnd : end_.item? items with
  | none => rw [if_pos (holds.bottom_eq_top_iff.2 ((end_.item?_eq_none_iff items).1 atEnd))]
  | some event =>
    have some : items ≠ [] := by
      rintro rfl
      cases end_ <;> cases atEnd
    rw [if_neg (mt holds.bottom_eq_top_iff.1 some), holds.read_end atEnd]

end Holds

theorem serves_append (event : Event α) : Serves (append event) fun _ => .append event := by
  intro ring items round marked holds opens
  obtain ⟨slot, atTop⟩ := exists_slot holds.top_lt
  rw [Holds.append_eq event atTop] at opens
  split at opens
  · rename_i settled
    cases opens
    refine ⟨rfl, ?_, ring.next_lt holds.top_lt, ⟨rfl, rfl, slot, atTop, settled, rfl⟩, ?_,
      fun _ _ _ _ => trivial⟩
    · show (ring.windowAfterPush).bottom < ring.size
      unfold Ring.windowAfterPush
      dsimp only
      split
      · exact ring.next_lt holds.bottom_lt
      · exact holds.bottom_lt
    · intro before register items holds capacity window sound kind published
      have top : before.window.top = ring.window.top := by rw [window]
      have next : before.windowAfterPush = ring.windowAfterPush := by
        unfold Ring.windowAfterPush Ring.next
        rw [window, size_eq capacity]
      have after := holds.append sound kind (published.trans next.symm)
        (Round.Marks.settled_of_fill settled (some event)) rfl
      rw [top] at after
      exact after
  · cases opens

theorem serves_take (end_ : End) : Serves (α := α) end_.opening (.take end_) := by
  intro ring items round marked holds opens
  rw [holds.take_eq] at opens
  cases atEnd : end_.item? items with
  | none =>
    rw [atEnd] at opens
    cases opens
  | some event =>
    rw [atEnd] at opens
    cases opens
    have atIndex := holds.read_end atEnd
    have nonempty : items ≠ [] := by
      rintro rfl
      cases end_ <;> cases atEnd
    refine ⟨rfl, ?_, ?_, rfl, ?_, ?_⟩
    · cases end_ with
      | oldest => exact ring.next_lt holds.bottom_lt
      | newest => exact holds.bottom_lt
    · cases end_ with
      | oldest => exact holds.top_lt
      | newest => exact ring.prev_lt holds.top_lt
    · intro before register others holdsBefore capacity window sound kind published
      rw [← end_.next_eq capacity window] at published
      have some : others ≠ [] := by
        have apart := mt holds.bottom_eq_top_iff.1 nonempty
        rw [← window] at apart
        exact mt holdsBefore.bottom_eq_top_iff.2 apart
      cases end_ with
      | oldest => exact holdsBefore.tail some sound kind published
      | newest => exact holdsBefore.dropLast some sound kind published
    · intro before others holdsBefore capacity window slots
      cases atEndBefore : end_.item? others with
      | none =>
        have none := (end_.item?_eq_none_iff others).1 atEndBefore
        have meet := holdsBefore.bottom_eq_top_iff.2 none
        rw [window] at meet
        exact absurd (holds.bottom_eq_top_iff.1 meet) nonempty
      | some other =>
        have atIndexBefore := holdsBefore.read_end atEndBefore
        rw [end_.index_eq capacity window] at atIndexBefore
        have same := read_congr (slots (end_.index ring)) atIndex
        rw [atIndexBefore] at same
        cases same
        exact atEndBefore

end Ring

end TimedTrace
