import TimedTrace.Proofs.Atomicity

namespace TimedTrace

variable {α : Type}

namespace Deed

/-- The events that a deed brings into the window. -/
def brought : Deed α → List (Event α)
  | append event => [event]
  | take .. => []

/-- The events that a deed returns. -/
def returned : Deed α → List (Event α)
  | append _ => []
  | take _ event => [event]

/-- The events that a deed drops for want of room. -/
def dropped (capacity : Nat) (items : List (Event α)) : Deed α → List (Event α)
  | append _ => if items.length = capacity then items.take 1 else []
  | take .. => []

theorem perm_of_legal (capacity : Nat) {items : List (Event α)} {deed : Deed α}
    (legal : deed.Legal items) :
    (items ++ deed.brought).Perm
      (deed.returned ++ (deed.dropped capacity items ++ deed.apply capacity items)) := by
  cases deed with
  | append event =>
    have whole : (dropped capacity items (.append event)) ++ appended capacity items event =
        items ++ [event] := by
      unfold dropped appended
      by_cases full : items.length = capacity
      · rw [if_pos full, if_pos full, ← List.append_assoc, ← List.drop_one, List.take_append_drop]
      · rw [if_neg full, if_neg full, List.nil_append]
    exact .of_eq whole.symm
  | take end_ event =>
    rw [brought, List.append_nil]
    cases end_ with
    | oldest =>
      obtain ⟨rest, rfl⟩ := List.head?_eq_some_iff.1 legal
      exact .refl _
    | newest =>
      obtain ⟨rest, rfl⟩ := List.getLast?_eq_some_iff.1 legal
      rw [apply, End.rest, List.dropLast_concat]
      exact List.perm_append_comm

end Deed

/-- The events that deeds bring into the window. -/
def broughtBy (done : List (Deed α)) : List (Event α) := done.flatMap Deed.brought

/-- The events that deeds return. -/
def returnedBy (done : List (Deed α)) : List (Event α) := done.flatMap Deed.returned

/-- The events that deeds drop, one after the other, for want of room. -/
def droppedBy (capacity : Nat) : List (Event α) → List (Deed α) → List (Event α)
  | _, [] => []
  | items, deed :: done =>
    deed.dropped capacity items ++ droppedBy capacity (deed.apply capacity items) done

/-- What was in the window or came into it has been returned once or dropped, or is in it still. -/
theorem Lawful.perm {capacity : Nat} {items : List (Event α)} {done : List (Deed α)}
    (lawful : Lawful capacity items done) :
    (items ++ broughtBy done).Perm
      (returnedBy done ++ (droppedBy capacity items done ++ replay capacity items done)) := by
  induction done generalizing items with
  | nil =>
    rw [broughtBy, List.flatMap_nil, List.append_nil]
    exact .refl _
  | cons deed done ih =>
    obtain ⟨legal, later⟩ := lawful
    have step := (Deed.perm_of_legal capacity legal).append_right (broughtBy done)
    have rest := (ih later).append_left (deed.returned ++ deed.dropped capacity items)
    have swap : (deed.dropped capacity items ++ returnedBy done).Perm
        (returnedBy done ++ deed.dropped capacity items) := List.perm_append_comm
    have sorted := (swap.append_left deed.returned).append_right
      (droppedBy capacity (deed.apply capacity items) done ++
        replay capacity (deed.apply capacity items) done)
    simp only [List.append_assoc] at step rest sorted
    have whole := (step.trans rest).trans sorted
    simpa [broughtBy, returnedBy, droppedBy, replay] using whole

/-- Takes alone make the window shorter each time. -/
theorem length_replay {capacity : Nat} {items : List (Event α)} {done : List (Deed α)}
    (takes : ∀ event, .append event ∉ done) :
    (replay capacity items done).length = items.length - done.length := by
  induction done generalizing items with
  | nil => rfl
  | cons deed done ih =>
    cases deed with
    | append event => exact absurd (.head _) (takes event)
    | take end_ event =>
      have shorter : (end_.rest items).length = items.length - 1 := by
        cases end_ with
        | oldest => exact List.length_tail
        | newest => exact List.length_dropLast
      have rest : (replay capacity (end_.rest items) done).length =
          (end_.rest items).length - done.length := ih fun event mem => takes event (.tail _ mem)
      rw [shorter] at rest
      rw [List.length_cons, Nat.add_comm, ← Nat.sub_sub, ← rest]
      rfl

/-- Takes alone cannot bring back a window with events in it. -/
theorem Ring.Becomes.eq_nil_of_window {ring after : Ring α} {items : List (Event α)}
    {notes : List (Note α)} (becomes : ring.Becomes items notes after) (holds : ring.Holds items)
    (some : items ≠ []) (window : after.window = ring.window)
    (takes : ∀ event, .append event ∉ deeds notes) : deeds notes = [] := by
  have same : after.length = ring.length := by
    unfold Ring.length Ring.distance
    rw [window, Ring.size_eq becomes.evolves.capacity]
  rw [becomes.holds.length_eq, holds.length_eq, length_replay takes] at same
  have := List.length_pos_iff.2 some
  exact List.length_eq_zero_iff.1 (by omega)

/-- A take that begins a round has read the event that it will return, and has marked nothing. -/
theorem Ring.Holds.of_take_ready {ring marked : Ring α} {items : List (Event α)} {end_ : End}
    {round : Round α (Event α)} (holds : ring.Holds items)
    (opens : end_.opening ring = .ready round marked) :
    ∃ event, end_.item? items = some event ∧ (∀ writers, round.answer writers = event) ∧
      marked = ring := by
  rw [holds.take_eq] at opens
  cases atEnd : end_.item? items with
  | none =>
    rw [atEnd] at opens
    cases opens
  | some event =>
    rw [atEnd] at opens
    cases opens
    exact ⟨event, rfl, fun _ => rfl, rfl⟩

/-- A take that gets through returns what it read when its last round began, and removes what is
there just before its swap. The two are the same if nothing was done in between. -/
theorem Attempt.Ends.taken {attempt : Attempt α (Event α) (List (Note α))} {end_ : End}
    {ring after : Ring α} {items : List (Event α)} {notes last : List (Note α)} {event : Event α}
    (ends : attempt.Ends end_.opening ring items notes (.ok event) after last) :
    ∃ held removed during, last = attempt.start.2 ++ during ∧
      attempt.start.1.read (end_.index attempt.start.1) = .ok event ∧
      attempt.swap.1.Holds held ∧ end_.item? held = some removed ∧
      after.Holds (end_.rest held) ∧
      (ring.register.kind = .versioned ∨ (∀ other, .append other ∉ deeds during) →
        removed = event) := by
  obtain ⟨found, marked, during, holds, opens, noted, becomes, outlasts⟩ := ends.during
  obtain ⟨earlier, _, before⟩ := ends.before
  obtain ⟨read, atRead, answers, rfl⟩ := holds.of_take_ready opens
  rcases ends.result with ⟨answer, isOk, run⟩ | ⟨_, _, isError, _⟩
  · cases isOk
    rcases (Ring.serves_take end_ holds opens).publish_cases becomes.evolves becomes.holds outlasts
      with
      ⟨won, wins, window, _, holdsAfter, counted⟩ | ⟨_, loses, _⟩
    · rw [run, answers] at wins
      cases wins
      have nonempty : found ≠ [] := by
        rw [Ne, ← end_.item?_eq_none_iff, atRead]
        exact nofun
      have stillSome : end_.item? (replay attempt.start.1.capacity found (deeds during)) ≠ none := by
        rw [Ne, end_.item?_eq_none_iff, ← becomes.holds.bottom_eq_top_iff, window,
          holds.bottom_eq_top_iff]
        exact nonempty
      obtain ⟨removed, atRemoved⟩ := Option.ne_none_iff_exists'.1 stillSome
      refine ⟨_, removed, during, ends.last.symm.trans noted, holds.read_end atRead, becomes.holds,
        atRemoved, holdsAfter, fun calm => ?_⟩
      have idle : deeds during = [] := by
        rcases calm with isVersioned | takes
        · exact List.length_eq_zero_iff.1 (counted (before.evolves.swaps.kind.trans isVersioned)).1
        · exact becomes.eq_nil_of_window holds nonempty window takes
      rw [idle] at atRemoved
      exact Option.some.inj (atRemoved.symm.trans atRead)
    · rw [run] at loses
      cases loses
  · cases isError

/-- Whatever others do in the meantime, a take that gets through takes effect in one step; and
unless the register is packed, what it returns is what it removes. Then over all calls from any one
moment on, each event is returned once, or dropped once, or is still there. -/
theorem take_linearizable {start : Ring α} (reachable : start.Reachable) (earlier : List (Call α))
    (end_ : End) (script : List (Meanwhile α))
    (withstands : ∀ call ∈ earlier ++ [.take end_ script], start.Withstands call.script) :
    ∃ items ring past result after notes left,
      start.Holds items ∧ runAll earlier (start, []) = (ring, past) ∧
      Ring.contend end_.opening (turns script) 0 (ring, past) = (result, after, notes) ∧
      after.Calm ∧ after.Holds left ∧
      (∀ event, result = .ok event → ∃ attempt held removed during,
        finalAttempt end_.opening (turns script) 0 (ring, past) = some attempt ∧
        notes = attempt.start.2 ++ during ∧
        attempt.start.1.read (end_.index attempt.start.1) = .ok event ∧
        attempt.swap.1.Holds held ∧ end_.item? held = some removed ∧ left = end_.rest held ∧
        (start.register.kind = .versioned ∨ (∀ other, .append other ∉ deeds during) →
          removed = event)) ∧
      (start.register.kind = .versioned →
        let done := deeds (notes ++ ownNotes (.take end_) result)
        (items ++ broughtBy done).Perm
          (returnedBy done ++ (droppedBy start.capacity items done ++ left))) := by
  obtain ⟨calm, items, holds⟩ := reachable.holds
  obtain ⟨ring, past, runEarlier, _, before⟩ := orderly_calls earlier [] holds fun call mem =>
    withstands call (List.mem_append_left _ mem)
  have kind := before.evolves.swaps.kind
  have now : start.Withstands script :=
    withstands (.take end_ script) (List.mem_append_right _ (.head _))
  obtain ⟨result, after, more, run, _, becomes, final⟩ :=
    contend_ends (Ring.serves_take end_) script (fun calls _ _ => orderly_calls calls) 0 past
      before.holds (now.mono kind)
  have whole := before.trans becomes
  rw [← List.append_assoc] at whole
  refine ⟨items, ring, past, result, after, past ++ more, _, holds, runEarlier, run,
    whole.evolves.calm calm, whole.holds, fun event isOk => ?_,
    fun isVersioned => (whole.lawful isVersioned).perm⟩
  subst isOk
  cases isFinal : finalAttempt end_.opening (turns script) 0 (ring, past) with
  | none =>
    rw [isFinal] at final
    obtain ⟨cause, isError, _⟩ := final
    cases isError
  | some attempt =>
    rw [isFinal] at final
    obtain ⟨held, removed, during, noted, read, holdsSwap, atRemoved, holdsAfter, same⟩ :=
      final.taken
    rw [kind] at same
    exact ⟨attempt, held, removed, during, rfl, noted, read, holdsSwap, atRemoved,
      whole.holds.unique holdsAfter, same⟩

/-- One event is appended. -/
def loading : List (Call Nat) := [.append ⟨1, .zero⟩ []]

/-- Others take the event that a take is about to take, and put another one in its place. -/
def replacing : List (Meanwhile Nat) :=
  [.others [.take .newest [], .append ⟨2, .zero⟩ []] false]

theorem withstands_replacing :
    ∀ call ∈ loading ++ [.take .oldest replacing], versionedRing.Withstands call.script := by
  intro call mem calls fails now
  rcases List.mem_cons.1 mem with rfl | mem
  · cases now
  · cases List.mem_singleton.1 mem
    cases List.mem_singleton.1 now
    exact fun _ => by decide

/-- Over a register that counts its publications the take starts over, and takes the other one. -/
theorem take_linearizable_replacing :
    versionedRing.Reachable ∧
      (∀ call ∈ loading ++ [.take .oldest replacing], versionedRing.Withstands call.script) ∧
      ∃ ring past attempt held after notes,
        runAll loading (versionedRing, []) = (ring, past) ∧
        finalAttempt End.oldest.opening (turns replacing) 0 (ring, past) = some attempt ∧
        Ring.contend End.oldest.opening (turns replacing) 0 (ring, past) =
          (.ok ⟨2, .zero⟩, after, notes) ∧
        attempt.swap.1.Holds held ∧ End.oldest.item? held = some ⟨2, .zero⟩ ∧
        after.Holds held.tail := by
  have reachable := Ring.Reachable.create create_versionedRing
  obtain ⟨items, ring, past, result, after, notes, left, _, runLoading, run, _, holdsAfter, took, _⟩ :=
    take_linearizable reachable loading .oldest replacing withstands_replacing
  have answer : (Ring.contend End.oldest.opening (turns replacing) 0
      (runAll loading (versionedRing, []))).1 = .ok ⟨2, .zero⟩ := rfl
  rw [runLoading, run] at answer
  obtain rfl : result = .ok ⟨2, .zero⟩ := answer
  obtain ⟨attempt, held, removed, during, isFinal, _, _, holds, atRemoved, rfl, same⟩ := took _ rfl
  rw [same (.inl rfl)] at atRemoved
  exact ⟨reachable, withstands_replacing, ring, past, attempt, held, after, notes, runLoading,
    isFinal, run, holds, atRemoved, holdsAfter⟩

/-- What the others leave if nothing gets in their way. -/
def replaced : Ring Nat :=
  (((smallRing.perform (.push ⟨1, .zero⟩)).2.perform .pop).2.perform (.push ⟨2, .zero⟩)).2

/-- A packed register looks as it did before, so the take gets through. It returns an event that
somebody else has taken, and the one in its place gets lost. -/
theorem take_stale :
    smallRing.Reachable ∧ ∃ ring past attempt held after notes,
      runAll loading (smallRing, []) = (ring, past) ∧
      finalAttempt End.oldest.opening (turns replacing) 0 (ring, past) = some attempt ∧
      Ring.contend End.oldest.opening (turns replacing) 0 (ring, past) =
        (.ok ⟨1, .zero⟩, after, notes) ∧
      deeds notes = [.append ⟨1, .zero⟩, .take .newest ⟨1, .zero⟩, .append ⟨2, .zero⟩] ∧
      attempt.swap.1.Holds held ∧ End.oldest.item? held = some ⟨2, .zero⟩ ∧
      after.isEmpty = true := by
  have reachable := Ring.Reachable.create create_smallRing
  obtain ⟨_, held, holds⟩ : replaced.Calm ∧ ∃ held, replaced.Holds held :=
    (((reachable.perform (.push ⟨1, .zero⟩)).perform .pop).perform (.push ⟨2, .zero⟩)).holds
  have length : replaced.length = 1 := rfl
  have found : replaced.read (End.oldest.index replaced) = .ok ⟨2, .zero⟩ := rfl
  rcases holds.read_window .oldest with rfl | ⟨event, atEnd, read⟩
  · rw [holds.length_eq] at length
    cases length
  · rw [read] at found
    cases found
    exact ⟨reachable, _, _, _, held, _, _, rfl, rfl, rfl, rfl, holds, atEnd, rfl⟩

end TimedTrace
