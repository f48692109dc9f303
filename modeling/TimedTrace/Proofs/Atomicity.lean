import TimedTrace.Proofs.Interference
import TimedTrace.Proofs.Operations

namespace TimedTrace

variable {α : Type}

/-- What becomes of a ring by calls that are complete. -/
inductive Ring.Reachable : Ring α → Prop
  | create {kind : RegisterKind} {capacity : Nat} {epoch : Time} {patience : Patience}
      {ring : Ring α} : Ring.create kind capacity epoch patience = .ok ring → Reachable ring
  | perform {ring : Ring α} (operation : Ring.Operation α) : Reachable ring →
      Reachable (ring.perform operation).2
  | call {ring : Ring α} (call : Call α) : Reachable ring → ring.Withstands call.script →
      Reachable (call.run (ring, [])).1

theorem Ring.Reachable.holds {ring : Ring α} (reachable : ring.Reachable) :
    ring.Calm ∧ ∃ items, ring.Holds items := by
  induction reachable with
  | create created => exact ⟨Ring.calm_of_create created, [], .of_create created⟩
  | perform operation _ ih =>
    obtain ⟨calm, items, holds⟩ := ih
    obtain ⟨reply, after, later, run, calmAfter, holdsAfter, _⟩ := holds.perform calm operation
    rw [run]
    exact ⟨calmAfter, later, holdsAfter⟩
  | call call _ withstands ih =>
    obtain ⟨calm, items, holds⟩ := ih
    obtain ⟨after, more, run, _, becomes⟩ := call.orderly [] holds withstands
    rw [run]
    exact ⟨becomes.evolves.calm calm, _, becomes.holds⟩

namespace Attempt

/-- A ring in which the slot is marked as it was when it held this, and is none of the window. -/
def Guards (mark : Mark α) (payload : Option (Event α)) (ring : Ring α) : Prop :=
  ring.slot? mark.index = some ⟨mark.stamp + 1, payload⟩ ∧
    ring.length ≤ ring.distance ring.window.bottom mark.index

/-- From the mark to the swap the marked slot is guarded, whatever others do. -/
def Guarded {β : Type} (attempt : Attempt α β (List (Note α))) : Prop :=
  ∃ mark payload during, attempt.round.mark = some mark ∧
    attempt.start.1.slot? mark.index = some ⟨mark.stamp, payload⟩ ∧
    attempt.swap.2 = attempt.start.2 ++ during ∧
    Guards mark payload attempt.swap.1 ∧ ∀ seen, .saw seen ∈ during → Guards mark payload seen

/-- The ring is as others have left it: the marked slot as it was before the mark, and all else as
it was before the swap. -/
def Undone {β : Type} (attempt : Attempt α β (List (Note α))) (after : Ring α) : Prop :=
  after.window = attempt.swap.1.window ∧ ∃ mark, attempt.round.mark = some mark ∧
    ∀ index, after.slot? index =
      if mark.index = index then attempt.start.1.slot? index else attempt.swap.1.slot? index

end Attempt

section

variable {ring marked before : Ring α} {items : List (Event α)} {event : Event α}

/-- An append that begins a round has found its slot at the top, and has marked it. -/
theorem Ring.Holds.of_append_ready {round : Round α Admission} (holds : ring.Holds items)
    (opens : Ring.append event ring = .ready round marked) :
    ∃ slot, ring.slot? ring.window.top = some slot ∧ slot.settled = true ∧
      round = ring.pushRound slot event ∧
      marked.slot? ring.window.top = some { slot with stamp := slot.stamp + 1 } := by
  obtain ⟨slot, atTop⟩ := Ring.exists_slot holds.top_lt
  rw [Ring.Holds.append_eq event atTop] at opens
  split at opens
  · rename_i settled
    cases opens
    refine ⟨slot, atTop, settled, rfl, ?_⟩
    rw [Ring.slot?_setStamp, if_pos rfl, atTop]
    rfl
  · cases opens

/-- An append begins a round unless another one has marked its slot. -/
theorem Ring.Holds.append_ready (holds : ring.Holds items) (calm : ring.Calm) (event : Event α) :
    ∃ round marked, Ring.append event ring = .ready round marked := by
  obtain ⟨slot, atTop⟩ := Ring.exists_slot holds.top_lt
  rw [Ring.Holds.append_eq event atTop, if_pos (calm _ slot atTop)]
  exact ⟨_, _, rfl⟩

/-- The admission that an append answers with is that of the ring it swaps. -/
theorem Ring.Holds.answer_pushRound {slot : Slot α} (holds : before.Holds items)
    (capacity : before.capacity = ring.capacity) (window : before.window = ring.window) :
    (ring.pushRound slot event).answer before.writers = before.admission items := by
  have full := holds.full_iff
  have next : before.next ring.window.top = ring.next ring.window.top := by
    unfold Ring.next
    rw [Ring.size_eq capacity]
  rw [window, next] at full
  simp only [Ring.pushRound, Ring.admission, full]

end

namespace Attempt.Ends

variable {attempt : Attempt α Admission (List (Note α))} {ring after : Ring α}
  {items : List (Event α)} {event : Event α} {notes last : List (Note α)}
  {result : Except RingError Admission}

theorem guarded (ends : attempt.Ends (Ring.append event) ring items notes result after last) :
    attempt.Guarded := by
  obtain ⟨held, marked, during, holds, opens, noted, becomes, _⟩ := ends.during
  obtain ⟨slot, atTop, settled, isRound, atMark⟩ := holds.of_append_ready opens
  have odd := Round.Marks.unsettled_of_mark settled
  have guards {seen : Ring α} {held : List (Event α)} (holds : seen.Holds held)
      (protects : marked.Protects seen) :
      Guards ⟨attempt.start.1.window.top, slot.stamp, event⟩ slot.event seen :=
    have atSeen := protects _ _ odd atMark
    ⟨atSeen, holds.length_le_distance atSeen odd⟩
  refine ⟨_, _, during, congrArg Round.mark isRound, atTop, noted,
    guards becomes.holds becomes.evolves.protects, fun seen mem => ?_⟩
  obtain ⟨⟨held, holds⟩, protects⟩ := becomes.seen seen mem
  exact guards holds protects

theorem undone {lost : Nat} (ends : attempt.Ends (Ring.append event) ring items notes
    (.error (.contended lost)) after last) : attempt.Undone after := by
  obtain ⟨held, marked, during, holds, opens, _, becomes, _⟩ := ends.during
  have marks := (Ring.serves_append event holds opens).marks
  obtain ⟨slot, atTop, settled, isRound, _⟩ := holds.of_append_ready opens
  rcases ends.result with ⟨_, isOk, _⟩ | ⟨_, register, _, swaps, rfl⟩
  · cases isOk
  · have isMark := congrArg Round.mark isRound
    refine ⟨?_, _, isMark, marks.slot?_withdraw isMark (becomes.evolves.publish swaps)⟩
    rw [Round.withdraw, isMark]
    exact (Ring.window_setStamp ..).trans (congrArg Snapshot.window (swaps.still rfl))

/-- An append that gets through appends to the ring that others left just before its swap. -/
theorem appended {status : Admission} (ends : attempt.Ends (Ring.append event) ring items notes
    (.ok status) after last) :
    ∃ held, attempt.swap.1.Holds held ∧
      after.Holds (TimedTrace.appended ring.capacity held event) ∧
      status = ring.admission held := by
  obtain ⟨held, marked, during, holds, opens, _, becomes, outlasts⟩ := ends.during
  obtain ⟨earlier, _, before⟩ := ends.before
  have prepared := Ring.serves_append event holds opens
  obtain ⟨slot, _, _, isRound, _⟩ := holds.of_append_ready opens
  have capacity := becomes.evolves.capacity.trans prepared.marks.capacity_eq
  have writers := becomes.evolves.writers.trans prepared.marks.writers_eq
  rcases ends.result with ⟨answer, isOk, run⟩ | ⟨lost, _, isError, _⟩
  · cases isOk
    rcases prepared.publish_cases becomes.evolves becomes.holds outlasts with
      ⟨won, wins, window, _, holdsAfter, _⟩ | ⟨_, loses, _⟩
    · rw [run] at wins
      cases wins
      have answer : attempt.round.answer attempt.swap.1.writers =
          attempt.swap.1.admission (replay marked.capacity held (deeds during)) := by
        rw [isRound]
        exact becomes.holds.answer_pushRound capacity window
      refine ⟨_, becomes.holds, ?_, answer.trans ?_⟩
      · rw [capacity.trans before.evolves.capacity] at holdsAfter
        exact holdsAfter
      · simp only [Ring.admission, capacity.trans before.evolves.capacity,
          writers.trans before.evolves.writers]
    · rw [run] at loses
      cases loses
  · cases isError

end Attempt.Ends

/-- An append takes effect in one step, or not at all, whatever others do in the meantime. -/
theorem push_atomic {ring : Ring α} (reachable : ring.Reachable) (event : Event α)
    (script : List (Meanwhile α)) (withstands : ring.Withstands script) :
    ∃ attempt result after,
      finalAttempt (Ring.append event) (turns script) 0 (ring, []) = some attempt ∧
      Ring.contend (Ring.append event) (turns script) 0 (ring, []) =
        (result, after, attempt.swap.2) ∧
      after.Calm ∧ attempt.Guarded ∧
      ((∃ items, attempt.swap.1.Holds items ∧ after.Holds (appended ring.capacity items event) ∧
          result = .ok (ring.admission items)) ∨
        ∃ lost, result = .error (.contended lost) ∧ attempt.Undone after) := by
  obtain ⟨calm, items, holds⟩ := reachable.holds
  obtain ⟨result, after, more, run, _, becomes, final⟩ :=
    contend_ends (Ring.serves_append event) script (fun calls _ _ => orderly_calls calls) 0 []
      holds withstands
  have calmAfter := becomes.evolves.calm calm
  obtain ⟨round, marked, opens⟩ := becomes.holds.append_ready calmAfter event
  cases isFinal : finalAttempt (Ring.append event) (turns script) 0 (ring, []) with
  | none =>
    rw [isFinal] at final
    obtain ⟨cause, _, refused | blocked⟩ := final
    · rw [opens] at refused
      cases refused
    · rw [opens] at blocked
      cases blocked
  | some attempt =>
    rw [isFinal] at final
    refine ⟨attempt, result, after, rfl, run.trans (by rw [final.last]), calmAfter, final.guarded,
      ?_⟩
    rcases final.result with ⟨status, rfl, _⟩ | ⟨lost, _, rfl, _⟩
    · obtain ⟨held, holdsSwap, holdsAfter, isStatus⟩ := final.appended
      exact .inl ⟨held, holdsSwap, holdsAfter, congrArg Except.ok isStatus⟩
    · exact .inr ⟨lost, rfl, final.undone⟩

/-- The ring with room for two events, over a register that counts its publications. -/
def versionedRing : Ring Nat := { smallRing with register := .holding .versioned ⟨0, 0⟩ }

theorem create_versionedRing : Ring.create .versioned 2 .zero .standard = .ok versionedRing := rfl

/-- Others append as well, while yet others take, before an append swaps for the first time. -/
def meddling : List (Meanwhile Nat) :=
  [.others [.append ⟨2, .zero⟩ [.others [.take .oldest []] true], .take .newest []] false,
    .others [] true]

theorem withstands_meddling : versionedRing.Withstands meddling := by
  intro calls fails mem
  rcases List.mem_cons.1 mem with same | mem
  · cases same
    exact fun _ => by decide
  · cases List.mem_singleton.1 mem
    exact fun _ => by decide

theorem push_atomic_meddling :
    versionedRing.Reachable ∧ versionedRing.Withstands meddling ∧
      ∃ attempt result after,
        finalAttempt (Ring.append ⟨1, .zero⟩) (turns meddling) 0 (versionedRing, []) =
          some attempt ∧
        Ring.contend (Ring.append ⟨1, .zero⟩) (turns meddling) 0 (versionedRing, []) =
          (result, after, attempt.swap.2) ∧
        after.Calm ∧ attempt.Guarded ∧
        ((∃ items, attempt.swap.1.Holds items ∧ after.Holds (appended 2 items ⟨1, .zero⟩) ∧
            result = .ok (versionedRing.admission items)) ∨
          ∃ lost, result = .error (.contended lost) ∧ attempt.Undone after) :=
  have reachable := Ring.Reachable.create create_versionedRing
  ⟨reachable, withstands_meddling, push_atomic reachable ⟨1, .zero⟩ meddling withstands_meddling⟩

end TimedTrace
