import TimedTrace.Proofs.Rounds

namespace TimedTrace

namespace Ring

variable {α : Type}

/-- How an append ends that finds these events in the window. -/
def admission (ring : Ring α) (items : List (Event α)) : Admission :=
  if 1 < ring.writers then .unordered
  else if items.length = ring.capacity then .displaced
  else .stored

section

variable {ring : Ring α} {items : List (Event α)}

theorem Holds.push (holds : ring.Holds items) (calm : ring.Calm) (event : Event α) :
    ∃ after, ring.push event = (.ok (ring.admission items), after) ∧ after.Calm ∧
      after.Holds (appended ring.capacity items event) := by
  obtain ⟨slot, atTop⟩ := exists_slot holds.top_lt
  have opens := Holds.append_eq event atTop
  rw [if_pos (calm _ slot atTop)] at opens
  obtain ⟨after, run, evolves, holdsAfter⟩ :=
    (serves_append event holds opens).uncontended holds opens
  have answer : (ring.pushRound slot event).answer ring.writers = ring.admission items := by
    simp only [pushRound, admission, holds.full_iff]
  rw [answer] at run
  exact ⟨after, run, evolves.calm calm, holdsAfter⟩

/-- A take from either end, with nobody else about. -/
theorem Holds.uncontended_take (holds : ring.Holds items) (calm : ring.Calm) (end_ : End) :
    (items = [] ∧ ring.uncontended end_.opening = (.error .empty, ring)) ∨
      ∃ event after, end_.item? items = some event ∧
        ring.uncontended end_.opening = (.ok event, after) ∧ after.Calm ∧
        after.Holds (end_.rest items) := by
  have opens := holds.take_eq end_
  cases atEnd : end_.item? items with
  | none =>
    rw [atEnd] at opens
    refine .inl ⟨(end_.item?_eq_none_iff items).1 atEnd, ?_⟩
    simp only [uncontended, contend, opens]
  | some event =>
    rw [atEnd] at opens
    obtain ⟨after, run, evolves, holdsAfter⟩ :=
      (serves_take end_ holds opens).uncontended holds opens
    exact .inr ⟨event, after, rfl, run, evolves.calm calm, holdsAfter⟩

/-- Writing to a slot of the window replaces its event, and writing to any other changes nothing. -/
theorem Holds.write (holds : ring.Holds items) (calm : ring.Calm) (event : Event α) {index : Nat}
    (inside : index < ring.size) :
    ∃ after, ring.write event index = (.ok (), after) ∧ after.Calm ∧
      after.Holds (items.set (ring.distance ring.window.bottom index) event) := by
  obtain ⟨slot, atIndex⟩ := exists_slot inside
  have filled : (⟨(slot.stamp + 2) / 2 * 2, some event⟩ : Slot α).settled = true := by
    simp [Slot.settled]
  refine ⟨ring.setSlot index ⟨(slot.stamp + 2) / 2 * 2, some event⟩, ?_, ?_, ?_⟩
  · simp only [Ring.write, atIndex]
  · intro other slotAfter atOther
    rw [slot?_setSlot] at atOther
    split at atOther
    · obtain ⟨_, _, rfl⟩ := Option.map_eq_some_iff.1 atOther
      exact filled
    · exact calm other slotAfter atOther
  · refine holds.shift 0 rfl holds.sound rfl ?_ ?_ fun i other atI => ?_
    · rw [List.length_set]
      exact holds.short
    · rw [List.length_set, Nat.zero_add, ring.forward_zero holds.bottom_lt]
      exact holds.window_eq
    · have short := holds.short
      have i_lt : i < items.length := by
        have bound := (List.getElem?_eq_some_iff.1 atI).1
        rwa [List.length_set] at bound
      rw [Nat.zero_add]
      by_cases here : ring.distance ring.window.bottom index = i
      · subst here
        rw [List.getElem?_set_self i_lt] at atI
        cases atI
        rw [ring.forward_distance holds.bottom_lt inside]
        refine read_eq_ok_iff.2 ⟨_, ?_, filled, rfl⟩
        rw [slot?_setSlot, if_pos rfl, atIndex]
        rfl
      · rw [List.getElem?_set_ne here] at atI
        refine read_congr ?_ (holds.read i other atI)
        rw [slot?_setSlot, if_neg]
        rintro rfl
        exact here (ring.distance_forward holds.bottom_lt (Nat.lt_succ_of_lt (by omega)))

theorem Holds.read_window (holds : ring.Holds items) (end_ : End) :
    items = [] ∨ ∃ event, end_.item? items = some event ∧ ring.read (end_.index ring) = .ok event := by
  cases atEnd : end_.item? items with
  | none => exact .inl ((end_.item?_eq_none_iff items).1 atEnd)
  | some event => exact .inr ⟨event, rfl, holds.read_end atEnd⟩

theorem Holds.span_eq (holds : ring.Holds items) :
    ring.span = .ok (ring.window, items.head?.map (·.time), items.getLast?.map (·.time)) := by
  unfold Ring.span
  by_cases empty : items = []
  · rw [if_pos (holds.bottom_eq_top_iff.2 empty), empty]
    rfl
  · obtain ⟨oldest, atOldest, readOldest⟩ := (holds.read_window .oldest).resolve_left empty
    obtain ⟨newest, atNewest, readNewest⟩ := (holds.read_window .newest).resolve_left empty
    simp only [End.index] at readOldest readNewest
    simp only [End.item?] at atOldest atNewest
    simp only [mt holds.bottom_eq_top_iff.1 empty, if_false, readOldest, readNewest, atOldest,
      atNewest, Option.map_some]

/-- Writers come and go without touching what the ring holds. -/
theorem Holds.of_writers (holds : ring.Holds items) (writers : Nat) :
    { ring with writers }.Holds items :=
  holds.congr rfl holds.sound rfl rfl fun _ _ => rfl

end

/-- What can be done to a ring. -/
inductive Operation (α : Type) where
  | push (event : Event α)
  | pull
  | pop
  | read (index : Nat)
  | write (event : Event α) (index : Nat)
  | attachWriter
  | detachWriter
  deriving DecidableEq, Repr

/-- What the ring answers. -/
inductive Reply (α : Type) where
  | pushed (result : Except RingError Admission)
  | taken (result : Except RingError (Event α))
  | found (result : Except RingError (Event α))
  | written (result : Except RingError Unit)
  | done
  deriving Repr

def perform (ring : Ring α) : Operation α → Reply α × Ring α
  | .push event => (ring.push event).map .pushed id
  | .pull => ring.pull.map .taken id
  | .pop => ring.pop.map .taken id
  | .read index => (.found (ring.read index), ring)
  | .write event index => (ring.write event index).map .written id
  | .attachWriter => (.done, ring.attachWriter)
  | .detachWriter => (.done, ring.detachWriter)

/-- The slots of the window are those a number of steps from its bottom. -/
def windowSlot (ring : Ring α) (i : Nat) : Nat :=
  (ring.window.bottom + i) % (ring.capacity + 1)

/-- The ring shows these events, and no others, as those of its window. -/
structure Presents (ring : Ring α) (items : List (Event α)) : Prop where
  short : items.length ≤ ring.capacity
  length : ring.length = items.length
  isEmpty : ring.isEmpty = items.isEmpty
  read : ∀ (i : Nat) (event : Event α), items[i]? = some event →
    ring.read (ring.windowSlot i) = .ok event
  span : ring.span = .ok (ring.window, items.head?.map (·.time), items.getLast?.map (·.time))

/-- A bounded deque with these events answers the operation so, and has the later ones afterwards.
-/
def Accords (ring : Ring α) (items : List (Event α)) (reply : Reply α) (after : Ring α)
    (later : List (Event α)) : Operation α → Prop
  | .push event =>
    reply = .pushed (.ok (ring.admission items)) ∧
      later = (if items.length = ring.capacity then items.tail else items) ++ [event]
  | .pull =>
    match items with
    | [] => reply = .taken (.error .empty) ∧ after = ring ∧ later = []
    | first :: rest => reply = .taken (.ok first) ∧ later = rest
  | .pop =>
    match items.getLast? with
    | none => reply = .taken (.error .empty) ∧ after = ring ∧ later = []
    | some last => reply = .taken (.ok last) ∧ items = later ++ [last]
  | .read index => reply = .found (ring.read index) ∧ after = ring ∧ later = items
  | .write event index =>
    (∀ i, i < items.length → index = ring.windowSlot i →
      reply = .written (.ok ()) ∧ later = items.set i event) ∧
    ((∀ i, i < items.length → index ≠ ring.windowSlot i) → later = items)
  | .attachWriter => after.writers = ring.writers + 1 ∧ later = items
  | .detachWriter => after.writers = ring.writers - 1 ∧ later = items

/-- The ring behaves like a bounded deque all through these operations. -/
inductive Mirrors : Ring α → List (Event α) → List (Operation α) → Prop
  | done {ring : Ring α} {items : List (Event α)} : ring.Presents items → Mirrors ring items []
  | step {ring after : Ring α} {items later : List (Event α)} {reply : Reply α}
      {operation : Operation α} {operations : List (Operation α)} :
      ring.Presents items → ring.perform operation = (reply, after) →
      ring.Accords items reply after later operation → Mirrors after later operations →
      Mirrors ring items (operation :: operations)

section

variable {ring : Ring α} {items : List (Event α)}

theorem Holds.presents (holds : ring.Holds items) : ring.Presents items where
  short := holds.short
  length := holds.length_eq
  isEmpty := by
    unfold Ring.isEmpty
    rw [holds.length_eq]
    cases items <;> simp
  read := holds.read
  span := holds.span_eq

/-- Every operation keeps the ring in order and answers as the deque does. -/
theorem Holds.perform (holds : ring.Holds items) (calm : ring.Calm) (operation : Operation α) :
    ∃ reply after later, ring.perform operation = (reply, after) ∧ after.Calm ∧ after.Holds later ∧
      ring.Accords items reply after later operation := by
  cases operation with
  | push event =>
    obtain ⟨after, run, calmAfter, holdsAfter⟩ := holds.push calm event
    exact ⟨_, after, _, by rw [Ring.perform, run]; rfl, calmAfter, holdsAfter, rfl, rfl⟩
  | pull =>
    rcases holds.uncontended_take calm .oldest with
      ⟨rfl, run⟩ | ⟨event, after, atEnd, run, calmAfter, holdsAfter⟩
    · exact ⟨.taken (.error .empty), ring, [], congrArg (Prod.map Reply.taken id) run, calm, holds,
        rfl, rfl, rfl⟩
    · refine ⟨.taken (.ok event), after, _, congrArg (Prod.map Reply.taken id) run, calmAfter,
        holdsAfter, ?_⟩
      cases items with
      | nil => cases atEnd
      | cons first rest =>
        cases atEnd
        exact ⟨rfl, rfl⟩
  | pop =>
    rcases holds.uncontended_take calm .newest with
      ⟨rfl, run⟩ | ⟨event, after, atEnd, run, calmAfter, holdsAfter⟩
    · exact ⟨.taken (.error .empty), ring, [], congrArg (Prod.map Reply.taken id) run, calm, holds,
        rfl, rfl, rfl⟩
    · refine ⟨.taken (.ok event), after, _, congrArg (Prod.map Reply.taken id) run, calmAfter,
        holdsAfter, ?_⟩
      have atEnd : items.getLast? = some event := atEnd
      obtain ⟨rest, rfl⟩ := List.getLast?_eq_some_iff.1 atEnd
      simp only [Accords, atEnd, true_and]
      rw [End.rest, List.dropLast_concat]
  | read index => exact ⟨_, ring, items, rfl, calm, holds, rfl, rfl, rfl⟩
  | write event index =>
    have short := holds.short
    by_cases inside : index < ring.size
    · obtain ⟨after, run, calmAfter, holdsAfter⟩ := holds.write calm event inside
      refine ⟨_, after, _, by rw [Ring.perform, run]; rfl, calmAfter, holdsAfter,
        fun i bound atI => ⟨rfl, ?_⟩, fun outside => ?_⟩
      · rw [atI]
        exact congrArg (items.set · event)
          (ring.distance_forward holds.bottom_lt (Nat.lt_succ_of_lt (by omega)))
      · refine List.set_eq_of_length_le (Nat.not_lt.1 fun near => outside _ near ?_)
        exact (ring.forward_distance holds.bottom_lt inside).symm
    · have absent := slot?_eq_none_iff.2 (Nat.not_lt.1 inside)
      have run : ring.write event index = (.error (.outOfBound index ring.size), ring) := by
        simp only [Ring.write, absent]
      refine ⟨_, ring, items, by rw [Ring.perform, run]; rfl, calm, holds, fun i bound atI => ?_,
        fun _ => rfl⟩
      exact absurd (atI ▸ ring.forward_lt ..) inside
  | attachWriter => exact ⟨_, _, items, rfl, calm, holds.of_writers _, rfl, rfl⟩
  | detachWriter => exact ⟨_, _, items, rfl, calm, holds.of_writers _, rfl, rfl⟩

theorem calm_of_create {kind : RegisterKind} {capacity : Nat} {epoch : Time} {patience : Patience}
    (created : Ring.create kind capacity epoch patience = .ok ring) : ring.Calm := by
  unfold Ring.create at created
  split at created
  · split at created
    · cases created
      intro index slot atIndex
      obtain ⟨_, same⟩ := Vector.getElem?_eq_some_iff.1 atIndex
      rw [Vector.getElem_replicate] at same
      cases same
      rfl
    · cases created
  · cases created

theorem Holds.mirrors (holds : ring.Holds items) (calm : ring.Calm)
    (operations : List (Operation α)) : ring.Mirrors items operations := by
  induction operations generalizing ring items with
  | nil => exact .done holds.presents
  | cons operation operations ih =>
    obtain ⟨reply, after, later, run, calmAfter, holdsAfter, accords⟩ :=
      holds.perform calm operation
    exact .step holds.presents run accords (ih holdsAfter calmAfter)

end

/-- A ring that one party uses alone is a bounded deque, whatever its register. -/
theorem refines_deque {kind : RegisterKind} {capacity : Nat} {epoch : Time} {patience : Patience}
    {ring : Ring α} (created : Ring.create kind capacity epoch patience = .ok ring)
    (operations : List (Operation α)) : ring.Mirrors [] operations :=
  (Holds.of_create created).mirrors (calm_of_create created) operations

/-- A ring with room for two events that overflows, is written to, and runs empty. -/
theorem refines_deque_small :
    Ring.create .packed 2 .zero .standard = .ok smallRing ∧
      smallRing.Mirrors [] [.push ⟨1, .zero⟩, .push ⟨2, .zero⟩, .push ⟨3, .zero⟩,
        .write ⟨4, .zero⟩ 2, .write ⟨5, .zero⟩ 7, .pop, .attachWriter, .attachWriter,
        .push ⟨6, .zero⟩, .read 1, .pull, .pull, .pull] :=
  ⟨create_smallRing, refines_deque create_smallRing _⟩

end Ring

end TimedTrace
