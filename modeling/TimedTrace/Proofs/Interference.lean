import TimedTrace.Proofs.Rounds

namespace TimedTrace

variable {α β : Type}

/-- What is noted down while calls are made: the ring whenever a call is about to begin or a swap is
about to be tried, and what the calls do that get through. -/
inductive Note (α : Type) where
  | saw (ring : Ring α)
  | did (deed : Deed α)

mutual

/-- An append or a take, with what happens just before each of its swaps. -/
inductive Call (α : Type) where
  | append (event : Event α) (script : List (Meanwhile α))
  | take (end_ : End) (script : List (Meanwhile α))

/-- What happens just before a swap: others complete these calls, and then the swap is tried, or
fails for no reason. -/
inductive Meanwhile (α : Type) where
  | others (calls : List (Call α)) (fails : Bool)

end

/-- What happens just before each swap of a call. -/
def Call.script : Call α → List (Meanwhile α)
  | .append _ script => script
  | .take _ script => script

/-- Notes down what a call has done, if it got through. -/
def record (deed : β → Deed α) : Except RingError β × Ring α × List (Note α) →
    Ring α × List (Note α)
  | (.ok answer, ring, notes) => (ring, notes ++ [.did (deed answer)])
  | (.error _, ring, notes) => (ring, notes)

mutual

def Call.run : Call α → Ring α × List (Note α) → Ring α × List (Note α)
  | .append event script, state =>
    record (fun _ => .append event) (Ring.contend (Ring.append event) (turns script) 0 state)
  | .take end_ script, state =>
    record (.take end_) (Ring.contend end_.opening (turns script) 0 state)

/-- What others do, turn by turn. -/
def turns : List (Meanwhile α) → List (Turn α (List (Note α)))
  | [] => []
  | .others calls fails :: script => ⟨runAll calls, fails⟩ :: turns script

/-- Makes the calls one after the other. -/
def runAll : List (Call α) → Ring α × List (Note α) → Ring α × List (Note α)
  | [], (ring, notes) => (ring, notes ++ [.saw ring])
  | call :: calls, (ring, notes) => runAll calls (call.run (ring, notes ++ [.saw ring]))

end

mutual

/-- The number of calls in a call, itself included. -/
def Call.count : Call α → Nat
  | .append _ script => 1 + scriptCount script
  | .take _ script => 1 + scriptCount script

/-- The number of calls that others make according to a script. -/
def scriptCount : List (Meanwhile α) → Nat
  | [] => 0
  | .others calls _ :: script => callCount calls + scriptCount script

def callCount : List (Call α) → Nat
  | [] => 0
  | call :: calls => call.count + callCount calls

end

theorem Call.count_eq (call : Call α) : call.count = 1 + scriptCount call.script := by
  cases call <;> rw [count, script]

/-- The deeds among the notes. -/
def deeds (notes : List (Note α)) : List (Deed α) :=
  notes.filterMap fun
    | .saw _ => none
    | .did deed => some deed

@[simp] theorem deeds_append (notes more : List (Note α)) :
    deeds (notes ++ more) = deeds notes ++ deeds more := List.filterMap_append

/-- What deeds make of the events in the window, one after the other. -/
def replay (capacity : Nat) (items : List (Event α)) (done : List (Deed α)) : List (Event α) :=
  done.foldl (Deed.apply capacity) items

theorem replay_append (capacity : Nat) (items : List (Event α)) (done more : List (Deed α)) :
    replay capacity items (done ++ more) = replay capacity (replay capacity items done) more :=
  List.foldl_append

/-- Each deed is legal when its turn comes. -/
def Lawful (capacity : Nat) : List (Event α) → List (Deed α) → Prop
  | _, [] => True
  | items, deed :: done => deed.Legal items ∧ Lawful capacity (deed.apply capacity items) done

theorem lawful_append {capacity : Nat} {items : List (Event α)} {done more : List (Deed α)} :
    Lawful capacity items (done ++ more) ↔
      Lawful capacity items done ∧ Lawful capacity (replay capacity items done) more := by
  induction done generalizing items with
  | nil => simp [Lawful, replay]
  | cons deed done ih =>
    simp only [List.cons_append, Lawful, ih, and_assoc]
    rfl

namespace Ring

/-- The other ring shows the marks of this one, untouched. -/
def Protects (ring other : Ring α) : Prop :=
  ∀ (index : Nat) (slot : Slot α), slot.settled = false → ring.slot? index = some slot →
    other.slot? index = some slot

theorem Protects.trans {ring other third : Ring α} (first : ring.Protects other)
    (second : other.Protects third) : ring.Protects third :=
  fun index slot odd atIndex => second index slot odd (first index slot odd atIndex)

theorem Evolves.protects {count : Nat} {ring after : Ring α} (evolves : ring.Evolves count after) :
    ring.Protects after := fun index slot odd => (evolves.marked index slot odd).2

theorem protects_marked {round : Round α β} {ring marked : Ring α}
    (marks : round.Marks ring marked) : ring.Protects marked := by
  unfold Round.Marks at marks
  split at marks
  · rw [marks]
    exact fun _ _ _ atIndex => atIndex
  · rename_i mark _
    obtain ⟨_, rfl, slot, atMark, settled, _⟩ := marks
    intro index other odd atIndex
    have apart : mark.index ≠ index := by
      rintro rfl
      rw [atMark] at atIndex
      cases atIndex
      rw [odd] at settled
      cases settled
    rw [slot?_setStamp, if_neg apart]
    exact atIndex

/-- Calls that leave these notes make this of the ring. -/
structure Becomes (ring : Ring α) (items : List (Event α)) (notes : List (Note α))
    (after : Ring α) : Prop where
  evolves : ring.Evolves (deeds notes).length after
  holds : after.Holds (replay ring.capacity items (deeds notes))
  lawful : ring.register.kind = .versioned → Lawful ring.capacity items (deeds notes)
  seen : ∀ seen, .saw seen ∈ notes → (∃ held, seen.Holds held) ∧ ring.Protects seen

namespace Becomes

variable {ring between after : Ring α} {items : List (Event α)} {notes more : List (Note α)}

theorem refl (holds : ring.Holds items) : ring.Becomes items [] ring :=
  ⟨.refl ring, holds, fun _ => trivial, nofun⟩

theorem trans (first : ring.Becomes items notes between)
    (second : between.Becomes (replay ring.capacity items (deeds notes)) more after) :
    ring.Becomes items (notes ++ more) after where
  evolves := by
    rw [deeds_append, List.length_append]
    exact first.evolves.trans second.evolves
  holds := by
    have holds := second.holds
    rw [first.evolves.capacity] at holds
    rwa [deeds_append, replay_append]
  lawful isVersioned := by
    have later := second.lawful (first.evolves.swaps.kind.trans isVersioned)
    rw [first.evolves.capacity] at later
    rw [deeds_append, lawful_append]
    exact ⟨first.lawful isVersioned, later⟩
  seen seen mem := by
    rcases List.mem_append.1 mem with earlier | later
    · exact first.seen seen earlier
    · exact (second.seen seen later).imp_right first.evolves.protects.trans

/-- Between two calls the ring is seen as it is. -/
theorem saw (becomes : ring.Becomes items notes after) :
    ring.Becomes items (notes ++ [.saw after]) after := by
  refine ⟨?_, ?_, ?_, fun seen mem => ?_⟩
  · simpa [deeds] using becomes.evolves
  · simpa [deeds] using becomes.holds
  · simpa [deeds] using becomes.lawful
  · rcases List.mem_append.1 mem with earlier | now
    · exact becomes.seen seen earlier
    · cases List.mem_singleton.1 now
      exact ⟨⟨_, becomes.holds⟩, becomes.evolves.protects⟩

end Becomes

end Ring

/-- The last attempt of an update to swap: the round, the ring it began with, and the ring as it is
just before the swap, each with what others have for themselves. -/
structure Attempt (α β τ : Type) where
  round : Round α β
  start : Ring α × τ
  swap : Ring α × τ

/-- The attempt that an update ends with, unless it ends because it cannot begin another round. -/
def finalAttempt {τ : Type} (opening : Ring α → Opening α β) :
    List (Turn α τ) → Nat → Ring α × τ → Option (Attempt α β τ)
  | turns, lost, (ring, rest) =>
    match opening ring with
    | .refused _ | .blocked => none
    | .ready round marked =>
      match turns with
      | [] => some ⟨round, (ring, rest), (marked, rest)⟩
      | turn :: turns =>
        let (left, kept) := turn.act (marked, rest)
        match round.attempt turn.fails left with
        | (some _, _) => some ⟨round, (ring, rest), (left, kept)⟩
        | (none, withdrawn) =>
          if withdrawn.patience.exhausted (lost + 1) then
            some ⟨round, (ring, rest), (left, kept)⟩
          else finalAttempt opening turns (lost + 1) (withdrawn, kept)

/-- Notes down what an update has done by itself. -/
def ownNotes (deed : β → Deed α) : Except RingError β → List (Note α)
  | .ok answer => [.did (deed answer)]
  | .error _ => []

theorem record_eq (deed : β → Deed α) (result : Except RingError β) (ring : Ring α)
    (notes : List (Note α)) :
    record deed (result, ring, notes) = (ring, notes ++ ownNotes deed result) := by
  cases result with
  | ok answer => rfl
  | error cause => simp [record, ownNotes]

/-- So few calls that the generations of a versioned register cannot wrap around meanwhile. -/
def Ring.Outlasts (ring : Ring α) (calls : Nat) : Prop :=
  ring.register.kind = .versioned → calls < VersionedRegister.generations

theorem Ring.Outlasts.mono {ring other : Ring α} {calls fewer : Nat} (outlasts : ring.Outlasts calls)
    (kind : other.register.kind = ring.register.kind) (le : fewer ≤ calls) :
    other.Outlasts fewer :=
  fun isVersioned => Nat.lt_of_le_of_lt le (outlasts (kind.symm.trans isVersioned))

/-- The generations do not wrap around while others act before any one of the swaps. -/
def Ring.Withstands (ring : Ring α) (script : List (Meanwhile α)) : Prop :=
  ∀ calls fails, .others calls fails ∈ script → ring.Outlasts (callCount calls)

theorem Ring.Withstands.mono {ring other : Ring α} {script : List (Meanwhile α)}
    (withstands : ring.Withstands script) (kind : other.register.kind = ring.register.kind) :
    other.Withstands script :=
  fun calls fails mem => (withstands calls fails mem).mono kind (Nat.le_refl _)

theorem Ring.Withstands.rest {ring : Ring α} {now : Meanwhile α} {script : List (Meanwhile α)}
    (withstands : ring.Withstands (now :: script)) : ring.Withstands script :=
  fun calls fails mem => withstands calls fails (.tail _ mem)

theorem Ring.Outlasts.withstands {ring : Ring α} {script : List (Meanwhile α)}
    (outlasts : ring.Outlasts (scriptCount script)) : ring.Withstands script := by
  induction script with
  | nil => exact nofun
  | cons now script ih =>
    obtain ⟨calls, fails⟩ := now
    rw [scriptCount] at outlasts
    rintro others spoilt mem
    rcases List.mem_cons.1 mem with same | later
    · cases same
      exact outlasts.mono rfl (Nat.le_add_right ..)
    · exact ih (outlasts.mono rfl (Nat.le_add_left ..)) others spoilt later

theorem Ring.Outlasts.withstands_all {ring : Ring α} {calls : List (Call α)}
    (outlasts : ring.Outlasts (callCount calls)) : ∀ call ∈ calls, ring.Withstands call.script := by
  induction calls with
  | nil => exact nofun
  | cons call calls ih =>
    rw [callCount, Call.count_eq] at outlasts
    intro other mem
    rcases List.mem_cons.1 mem with rfl | later
    · exact Ring.Outlasts.withstands (outlasts.mono rfl (by omega))
    · exact ih (outlasts.mono rfl (Nat.le_add_left ..)) other later

/-- An update ended with this attempt. Before its last round calls have made one ring of another,
and during it they have made the one it swapped of the one it marked. -/
structure Attempt.Ends (attempt : Attempt α β (List (Note α))) (opening : Ring α → Opening α β)
    (ring : Ring α) (items : List (Event α)) (notes : List (Note α)) (result : Except RingError β)
    (after : Ring α) (last : List (Note α)) : Prop where
  last : attempt.swap.2 = last
  before : ∃ earlier, attempt.start.2 = notes ++ earlier ∧
    ring.Becomes items earlier attempt.start.1
  during : ∃ items marked during, attempt.start.1.Holds items ∧
    opening attempt.start.1 = .ready attempt.round marked ∧
    attempt.swap.2 = attempt.start.2 ++ during ∧
    marked.Becomes items during attempt.swap.1 ∧ attempt.start.1.Outlasts (deeds during).length
  result : (∃ answer, result = .ok answer ∧
      attempt.round.publish attempt.swap.1 = (some answer, after)) ∨
    ∃ lost register, result = .error (.contended lost) ∧
      Register.Swaps 0 attempt.swap.1.register register ∧
      after = attempt.round.withdraw { attempt.swap.1 with register }

/-- A round, from the ring it was prepared on. -/
theorem Round.Prepared.becomes {round : Round α β} {deed : β → Deed α} {ring marked before : Ring α}
    {items : List (Event α)} {during : List (Note α)} (prepared : round.Prepared deed ring marked)
    (becomes : marked.Becomes items during before) (outlasts : ring.Outlasts (deeds during).length)
    (fails : Bool) :
    (∃ answer after, round.publish before = (some answer, after) ∧
        round.attempt fails before = (some answer, after) ∧
        ring.Becomes items (during ++ [.did (deed answer)]) after) ∨
      ∃ register, round.attempt fails before = (none, round.withdraw { before with register }) ∧
        (fails = false → before.register.load.token ≠ round.token) ∧
        Register.Swaps 0 before.register register ∧
        ring.Becomes items during (round.withdraw { before with register }) := by
  have capacity := prepared.marks.capacity_eq
  have kind : marked.register.kind = ring.register.kind := by rw [prepared.marks.register_eq]
  have seen (seen : Ring α) (mem : .saw seen ∈ during) :
      (∃ held, seen.Holds held) ∧ ring.Protects seen :=
    (becomes.seen seen mem).imp_right (Ring.protects_marked prepared.marks).trans
  have holds := becomes.holds
  have lawful := becomes.lawful
  rw [capacity] at holds lawful
  rw [kind] at lawful
  cases fails with
  | true =>
    exact .inr ⟨before.register, rfl, nofun, .refl _,
      prepared.marks.evolves_withdraw becomes.evolves,
      prepared.marks.holds_withdraw becomes.evolves holds, lawful, seen⟩
  | false =>
    rcases prepared.publish_cases becomes.evolves holds outlasts with
      ⟨after, run, window, evolves, holdsAfter, legal⟩ |
      ⟨register, run, stale, swaps, evolves, holdsAfter⟩
    · left
      rw [becomes.evolves.capacity, capacity] at holdsAfter
      refine ⟨_, after, run, run, ?_, ?_, fun isVersioned => ?_, fun ring mem => ?_⟩
      · rw [deeds_append, List.length_append]
        exact evolves
      · rw [deeds_append, replay_append]
        exact holdsAfter
      · rw [deeds_append, lawful_append]
        exact ⟨lawful isVersioned, (legal isVersioned).2, trivial⟩
      · rcases List.mem_append.1 mem with earlier | own
        · exact seen ring earlier
        · cases List.mem_singleton.1 own
    · right
      exact ⟨register, run, fun _ => stale, swaps, evolves, holdsAfter, lawful, seen⟩

/-- Whatever ring these calls are made on, they go from deed to deed. -/
def OrderlyAll (calls : List (Call α)) : Prop :=
  ∀ ⦃ring : Ring α⦄ ⦃items : List (Event α)⦄ (notes : List (Note α)), ring.Holds items →
    (∀ call ∈ calls, ring.Withstands call.script) →
    ∃ after more, runAll calls (ring, notes) = (after, notes ++ more) ∧
      (deeds more).length ≤ callCount calls ∧ ring.Becomes items more after

/-- How an update ends that began on this ring: with which result, and with which attempt to swap if
it came to one. -/
def Ring.EndsIn (ring : Ring α) (items : List (Event α)) (notes : List (Note α)) (calls : Nat)
    (opening : Ring α → Opening α β) (deed : β → Deed α)
    (outcome : Except RingError β × Ring α × List (Note α))
    (final : Option (Attempt α β (List (Note α)))) : Prop :=
  ∃ result after more, outcome = (result, after, notes ++ more) ∧ (deeds more).length ≤ calls ∧
    ring.Becomes items (more ++ ownNotes deed result) after ∧
    match final with
    | none => ∃ cause, result = .error cause ∧
        (opening after = .refused cause ∨ opening after = .blocked)
    | some attempt => attempt.Ends opening ring items notes result after (notes ++ more)

section

variable {opening : Ring α → Opening α β} {deed : β → Deed α} {ring : Ring α}
  {items : List (Event α)} {notes during : List (Note α)} {calls : Nat}

theorem Ring.EndsIn.mono {more : Nat} {outcome : Except RingError β × Ring α × List (Note α)}
    {final : Option (Attempt α β (List (Note α)))}
    (ends : ring.EndsIn items notes calls opening deed outcome final) (le : calls ≤ more) :
    ring.EndsIn items notes more opening deed outcome final := by
  obtain ⟨result, after, later, rfl, bound, becomes, last⟩ := ends
  exact ⟨result, after, later, rfl, Nat.le_trans bound le, becomes, last⟩

/-- An update that goes on after others have made one ring of another. -/
theorem Ring.EndsIn.resume {between : Ring α} {more : Nat}
    {outcome : Except RingError β × Ring α × List (Note α)}
    {final : Option (Attempt α β (List (Note α)))}
    (ends : between.EndsIn (replay ring.capacity items (deeds during)) (notes ++ during) more opening
      deed outcome final)
    (becomes : ring.Becomes items during between) (few : (deeds during).length ≤ calls) :
    ring.EndsIn items notes (calls + more) opening deed outcome final := by
  obtain ⟨result, after, later, rfl, bound, becomesLater, last⟩ := ends
  refine ⟨result, after, during ++ later, by rw [List.append_assoc], ?_, ?_, ?_⟩
  · rw [deeds_append, List.length_append]
    exact Nat.add_le_add few bound
  · rw [List.append_assoc]
    exact becomes.trans becomesLater
  · rw [← List.append_assoc]
    cases final with
    | none => exact last
    | some attempt =>
      obtain ⟨noted, ⟨earlier, starts, before⟩, duringLast, result⟩ := last
      refine ⟨noted, ⟨during ++ earlier, ?_, becomes.trans before⟩, duringLast, result⟩
      rw [starts, List.append_assoc]

/-- A round that gets through ends the update. -/
theorem Ring.EndsIn.of_won {round : Round α β} {marked before after : Ring α} {answer : β}
    (holds : ring.Holds items) (opens : opening ring = .ready round marked)
    (duringRound : marked.Becomes items during before) (few : (deeds during).length ≤ calls)
    (outlasts : ring.Outlasts (deeds during).length)
    (run : round.publish before = (some answer, after))
    (becomes : ring.Becomes items (during ++ [.did (deed answer)]) after) :
    ring.EndsIn items notes calls opening deed (.ok answer, after, notes ++ during)
      (some ⟨round, (ring, notes), (before, notes ++ during)⟩) :=
  ⟨.ok answer, after, during, rfl, few, becomes, rfl,
    ⟨[], (List.append_nil _).symm, .refl holds⟩,
    ⟨items, marked, during, holds, opens, rfl, duringRound, outlasts⟩, .inl ⟨answer, rfl, run⟩⟩

/-- So does one that is lost, if the update has no patience left. -/
theorem Ring.EndsIn.of_lost {round : Round α β} {marked before : Ring α} {register : Register}
    {lost : Nat} (holds : ring.Holds items) (opens : opening ring = .ready round marked)
    (duringRound : marked.Becomes items during before) (few : (deeds during).length ≤ calls)
    (outlasts : ring.Outlasts (deeds during).length)
    (swaps : Register.Swaps 0 before.register register)
    (becomes : ring.Becomes items during (round.withdraw { before with register })) :
    ring.EndsIn items notes calls opening deed
      (.error (.contended lost), round.withdraw { before with register }, notes ++ during)
      (some ⟨round, (ring, notes), (before, notes ++ during)⟩) := by
  refine ⟨.error (.contended lost), _, during, rfl, few, ?_, rfl,
    ⟨[], (List.append_nil _).symm, .refl holds⟩,
    ⟨items, marked, during, holds, opens, rfl, duringRound, outlasts⟩,
    .inr ⟨lost, register, rfl, swaps, rfl⟩⟩
  rwa [ownNotes, List.append_nil]

end

section

variable {opening : Ring α → Opening α β} {deed : β → Deed α} {ring marked : Ring α}
  {round : Round α β} {items : List (Event α)} {notes : List (Note α)} {lost : Nat}

/-- An update ends at once if it cannot begin a round. -/
theorem contend_stopped (holds : ring.Holds items) (script : List (Turn α (List (Note α))))
    (stops : (∃ cause, opening ring = .refused cause) ∨ opening ring = .blocked) :
    ring.EndsIn items notes 0 opening deed (Ring.contend opening script lost (ring, notes))
      (finalAttempt opening script lost (ring, notes)) := by
  unfold Ring.contend finalAttempt
  rcases stops with ⟨cause, refused⟩ | blocked
  · rw [refused]
    exact ⟨.error cause, ring, [], by rw [List.append_nil], Nat.zero_le _, .refl holds, cause, rfl,
      .inl refused⟩
  · rw [blocked]
    exact ⟨.error _, ring, [], by rw [List.append_nil], Nat.zero_le _, .refl holds, _, rfl,
      .inr blocked⟩

/-- With nobody left to interfere the round gets through. -/
theorem contend_alone (prepared : round.Prepared deed ring marked) (holds : ring.Holds items)
    (opens : opening ring = .ready round marked) :
    ring.EndsIn items notes 0 opening deed (Ring.contend opening [] lost (ring, notes))
      (finalAttempt opening [] lost (ring, notes)) := by
  have unchanged := Ring.Becomes.refl (prepared.marks.holds holds)
  have none : ring.Outlasts 0 := fun _ => by decide
  rcases prepared.becomes unchanged none false with
    ⟨answer, after, publishes, _, becomes⟩ | ⟨register, _, stale, _⟩
  · have ends : ring.EndsIn items notes 0 opening deed (.ok answer, after, notes ++ [])
        (some ⟨round, (ring, notes), (marked, notes ++ [])⟩) :=
      .of_won holds opens unchanged (Nat.zero_le _) none publishes becomes
    rw [List.append_nil] at ends
    rw [Ring.contend, finalAttempt, opens]
    dsimp only
    rw [publishes]
    exact ends
  · have stale := stale rfl
    rw [prepared.marks.register_eq, prepared.token] at stale
    exact absurd rfl stale

/-- A round during which others make one ring of another. -/
theorem contend_turn (prepared : round.Prepared deed ring marked) (holds : ring.Holds items)
    (opens : opening ring = .ready round marked)
    {act : Ring α × List (Note α) → Ring α × List (Note α)} {fails : Bool} {before : Ring α}
    {during : List (Note α)} (acts : act (marked, notes) = (before, notes ++ during))
    (becomes : marked.Becomes items during before) {first calls : Nat}
    (few : (deeds during).length ≤ first) (outlasts : ring.Outlasts first)
    {script : List (Turn α (List (Note α)))}
    (rest : ∀ withdrawn, ring.Becomes items during withdrawn →
      withdrawn.EndsIn (replay ring.capacity items (deeds during)) (notes ++ during) calls opening
        deed (Ring.contend opening script (lost + 1) (withdrawn, notes ++ during))
        (finalAttempt opening script (lost + 1) (withdrawn, notes ++ during))) :
    ring.EndsIn items notes (first + calls) opening deed
      (Ring.contend opening (⟨act, fails⟩ :: script) lost (ring, notes))
      (finalAttempt opening (⟨act, fails⟩ :: script) lost (ring, notes)) := by
  have room : (deeds during).length ≤ first + calls := Nat.le_add_right_of_le few
  have brief := outlasts.mono rfl few
  rw [Ring.contend, finalAttempt, opens]
  dsimp only
  rw [acts]
  dsimp only
  rcases prepared.becomes becomes brief fails with
    ⟨answer, after, publishes, run, wins⟩ | ⟨register, run, _, swaps, loses⟩
  · rw [run]
    exact .of_won holds opens becomes room brief publishes wins
  · rw [run]
    dsimp only
    by_cases exhausted :
        (round.withdraw { before with register }).patience.exhausted (lost + 1) = true
    · rw [if_pos exhausted, if_pos exhausted]
      exact .of_lost holds opens becomes room brief swaps loses
    · rw [if_neg exhausted, if_neg exhausted]
      exact (rest _ loses).resume loses few

end

/-- An update that runs against a script of orderly calls goes from deed to deed, from the attempt
of one round to that of the next. -/
theorem contend_ends {opening : Ring α → Opening α β} {deed : β → Deed α}
    (serves : Ring.Serves opening deed) (script : List (Meanwhile α))
    (orderly : ∀ calls fails, .others calls fails ∈ script → OrderlyAll calls) (lost : Nat)
    {ring : Ring α} {items : List (Event α)} (notes : List (Note α)) (holds : ring.Holds items)
    (withstands : ring.Withstands script) :
    ring.EndsIn items notes (scriptCount script) opening deed
      (Ring.contend opening (turns script) lost (ring, notes))
      (finalAttempt opening (turns script) lost (ring, notes)) := by
  cases opens : opening ring with
  | refused cause => exact (contend_stopped holds _ (.inl ⟨cause, opens⟩)).mono (Nat.zero_le _)
  | blocked => exact (contend_stopped holds _ (.inr opens)).mono (Nat.zero_le _)
  | ready round marked =>
    have prepared := serves holds opens
    match script with
    | [] => exact contend_alone prepared holds opens
    | .others calls fails :: script =>
      have few := withstands calls fails (.head _)
      have kind : marked.register.kind = ring.register.kind := by rw [prepared.marks.register_eq]
      obtain ⟨before, during, acts, bound, becomes⟩ :=
        orderly calls fails (.head _) notes (prepared.marks.holds holds)
          (few.mono kind (Nat.le_refl _)).withstands_all
      rw [scriptCount, turns]
      exact contend_turn prepared holds opens acts becomes bound few fun _ loses =>
        contend_ends serves script (fun calls fails mem => orderly calls fails (.tail _ mem))
          (lost + 1) (notes ++ during) loses.holds (withstands.rest.mono loses.evolves.swaps.kind)

/-- Whatever ring this call is made on, it goes from deed to deed. -/
def Call.Orderly (call : Call α) : Prop :=
  ∀ ⦃ring : Ring α⦄ ⦃items : List (Event α)⦄ (notes : List (Note α)), ring.Holds items →
    ring.Withstands call.script →
    ∃ after more, call.run (ring, notes) = (after, notes ++ more) ∧
      (deeds more).length ≤ call.count ∧ ring.Becomes items more after

theorem orderly_of_forall {calls : List (Call α)} (each : ∀ call ∈ calls, call.Orderly) :
    OrderlyAll calls := by
  induction calls with
  | nil =>
    intro ring items notes holds withstands
    exact ⟨ring, [.saw ring], by rw [runAll], Nat.zero_le _, (Ring.Becomes.refl holds).saw⟩
  | cons call calls ih =>
    intro ring items notes holds withstands
    obtain ⟨between, first, run, few, becomes⟩ := each call (.head _) (notes ++ [.saw ring]) holds
      (withstands call (.head _))
    have begun := (Ring.Becomes.refl holds).saw.trans becomes
    obtain ⟨after, rest, runRest, fewRest, becomesRest⟩ :=
      ih (fun other mem => each other (.tail _ mem)) (notes ++ [.saw ring] ++ first) becomes.holds
        fun other mem => (withstands other (.tail _ mem)).mono becomes.evolves.swaps.kind
    refine ⟨after, [.saw ring] ++ first ++ rest, ?_, ?_, begun.trans becomesRest⟩
    · rw [runAll, run, runRest]
      simp only [List.append_assoc]
    · rw [deeds_append, List.length_append, callCount]
      exact Nat.add_le_add few fewRest

/-- An update as a call of others. -/
theorem Ring.EndsIn.becomes {opening : Ring α → Opening α β} {deed : β → Deed α} {ring : Ring α}
    {items : List (Event α)} {notes : List (Note α)} {calls : Nat}
    {outcome : Except RingError β × Ring α × List (Note α)}
    {final : Option (Attempt α β (List (Note α)))}
    (ends : ring.EndsIn items notes calls opening deed outcome final) :
    ∃ after more, record deed outcome = (after, notes ++ more) ∧
      (deeds more).length ≤ 1 + calls ∧ ring.Becomes items more after := by
  obtain ⟨result, after, more, rfl, few, becomes, _⟩ := ends
  refine ⟨after, more ++ ownNotes deed result, ?_, ?_, becomes⟩
  · rw [record_eq, List.append_assoc]
  · have own : (deeds (ownNotes deed result)).length ≤ 1 := by
      cases result with
      | ok answer => exact Nat.le_refl _
      | error cause => exact Nat.zero_le _
    rw [deeds_append, List.length_append]
    omega

theorem Call.orderly_of_script (call : Call α)
    (orderly : ∀ calls fails, .others calls fails ∈ call.script → OrderlyAll calls) :
    call.Orderly := by
  intro ring items notes holds withstands
  rw [call.count_eq]
  cases call with
  | append event script =>
    rw [run]
    exact (contend_ends (Ring.serves_append event) script orderly 0 notes holds withstands).becomes
  | take end_ script =>
    rw [run]
    exact (contend_ends (Ring.serves_take end_) script orderly 0 notes holds withstands).becomes

theorem Call.sizeOf_script (call : Call α) : sizeOf call.script < sizeOf call := by
  cases call <;> simp only [script, append.sizeOf_spec, take.sizeOf_spec] <;> omega

theorem Call.orderly (call : Call α) : call.Orderly := by
  refine call.orderly_of_script fun calls fails mem => ?_
  exact orderly_of_forall fun inner within => inner.orderly
termination_by sizeOf call
decreasing_by
  have outer := List.sizeOf_lt_of_mem mem
  have inside := List.sizeOf_lt_of_mem within
  have whole := call.sizeOf_script
  simp only [Meanwhile.others.sizeOf_spec] at outer
  omega

theorem orderly_calls (calls : List (Call α)) : OrderlyAll calls :=
  orderly_of_forall fun call _ => call.orderly

end TimedTrace
