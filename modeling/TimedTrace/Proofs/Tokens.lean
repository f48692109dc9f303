import Mathlib.Data.List.Nodup
import TimedTrace.Proofs.Staleness

namespace TimedTrace

namespace VersionedRegister

/-- What is asked of a register. A swap may come with any token. -/
inductive Request where
  | load
  | swap (token : UInt64) (next : Window)
  deriving DecidableEq, Repr

/-- Whether the request publishes a window, and the register after it. -/
def perform (register : VersionedRegister) : Request → Bool × VersionedRegister
  | .load => (false, register)
  | .swap token next => register.swap token next

/-- The register after one request after the other. -/
def after (register : VersionedRegister) : List Request → VersionedRegister
  | [] => register
  | request :: requests => (register.perform request).2.after requests

/-- The number of windows that the requests publish. -/
def publications (register : VersionedRegister) : List Request → Nat
  | [] => 0
  | request :: requests =>
    (register.perform request).1.toNat + (register.perform request).2.publications requests

/-- The records that are held. -/
def heldRecords (register : VersionedRegister) : List Nat :=
  (List.range register.records.size).filter fun i => (register.records.getD i default).held

/-- What a register tells of a snapshot that was loaded so many publications ago. -/
structure Recognizes (register : VersionedRegister) (snapshot : Snapshot) (since : Nat) :
    Prop where
  /-- One record is held, the one that the current token names. -/
  held : register.heldRecords = [recordOf register.current]
  /-- No token but the current one publishes anything. -/
  publishes_iff : ∀ token next, (register.swap token next).1 = true ↔ token = register.load.token
  /-- The snapshot's token is current unless something was published since. Generations wrap around,
  so this is told only as long as they have not. -/
  current_iff : since < generations → (snapshot.token = register.load.token ↔ since = 0)
  /-- What is published is loaded next, under a token that the snapshot has not. -/
  published : ∀ token next swapped, register.swap token next = (true, swapped) →
    swapped.load.window = next ∧ (since + 1 < generations → swapped.load.token ≠ snapshot.token)
  /-- A swap that fails does not show. -/
  refused : ∀ token next swapped, register.swap token next = (false, swapped) →
    swapped.load = register.load

section

variable {register loaded : VersionedRegister} {since : Nat}

theorem Sound.heldRecords_eq (sound : register.Sound) :
    register.heldRecords = [recordOf register.current] := by
  have named : ∀ i ∈ List.range register.records.size,
      (register.records.getD i default).held = (i == recordOf register.current) := by
    intro i member
    have room := List.mem_range.1 member
    have held := sound.held i _ (Array.getElem?_eq_getElem room)
    rw [Array.getD_eq_getD_getElem?, Array.getElem?_eq_getElem room, Option.getD_some,
      Bool.eq_iff_iff, held, beq_iff_eq]
  rw [heldRecords, List.filter_congr named, List.filter_beq,
    List.count_eq_one_of_mem List.nodup_range (List.mem_range.2 sound.named)]
  rfl

theorem Sound.perform (sound : register.Sound) (request : Request) :
    (register.perform request).2.Sound ∧
      Register.Swaps (register.perform request).1.toNat (.versioned register)
        (.versioned (register.perform request).2) := by
  cases request with
  | load => exact ⟨sound, .refl _⟩
  | swap token next =>
    rcases Register.versioned_swap_cases sound token next with
      ⟨swapped, run, _, soundAfter, _, swaps⟩ | ⟨swapped, run, _, soundAfter, swaps⟩
    · rw [VersionedRegister.perform, run]
      exact ⟨soundAfter, swaps⟩
    · rw [VersionedRegister.perform, run]
      exact ⟨soundAfter, swaps⟩

/-- A run of requests counts what it publishes. -/
theorem Sound.after (sound : register.Sound) (requests : List Request) :
    (register.after requests).Sound ∧
      Register.Swaps (register.publications requests) (.versioned register)
        (.versioned (register.after requests)) := by
  induction requests generalizing register with
  | nil => exact ⟨sound, .refl _⟩
  | cons request requests ih =>
    obtain ⟨soundNext, first⟩ := sound.perform request
    obtain ⟨soundLast, rest⟩ := ih soundNext
    exact ⟨soundLast, first.trans rest⟩

theorem current_iff_of_swaps
    (swaps : Register.Swaps since (.versioned loaded) (.versioned register))
    (few : since < generations) : loaded.load.token = register.load.token ↔ since = 0 := by
  constructor
  · intro current
    exact (swaps.window_eq current.symm fun _ => few).2 rfl
  · intro none
    exact congrArg Snapshot.token (swaps.still none).symm

theorem Sound.recognizes (sound : register.Sound)
    (swaps : Register.Swaps since (.versioned loaded) (.versioned register)) :
    register.Recognizes loaded.load since where
  held := sound.heldRecords_eq
  current_iff := current_iff_of_swaps swaps
  publishes_iff token next := by
    rcases Register.versioned_swap_cases sound token next with
      ⟨swapped, run, current, _⟩ | ⟨swapped, run, stale, _⟩
    · rw [run]
      exact ⟨fun _ => current.symm, fun _ => rfl⟩
    · rw [run]
      exact ⟨nofun, fun current => absurd current.symm stale⟩
  published token next swapped run := by
    rcases Register.versioned_swap_cases sound token next with
      ⟨other, otherRun, _, _, window, swap⟩ | ⟨other, otherRun, _⟩
    · cases run.symm.trans otherRun
      refine ⟨window, fun few same => ?_⟩
      have none := (current_iff_of_swaps (swaps.trans swap) few).1 same.symm
      omega
    · cases run.symm.trans otherRun
  refused token next swapped run := by
    rcases Register.versioned_swap_cases sound token next with
      ⟨other, otherRun, _⟩ | ⟨other, otherRun, _, _, swap⟩
    · cases run.symm.trans otherRun
    · cases run.symm.trans otherRun
      exact swap.still rfl

end

/-- Whatever was asked before a snapshot is loaded and since, the register recognizes it. -/
theorem recognizes_loaded (window : Window) (spares : Nat) (before since : List Request) :
    (((withSpares window spares).after before).after since).Recognizes
      ((withSpares window spares).after before).load
      (((withSpares window spares).after before).publications since) := by
  obtain ⟨soundLoaded, _⟩ := (sound_withSpares window spares).after before
  obtain ⟨sound, swaps⟩ := soundLoaded.after since
  exact sound.recognizes swaps

/-- With one spare record: a swap, one with the token from before it, and one with a made-up token
that names the record which is free. -/
example : ((withSpares ⟨0, 0⟩ 1).after
    [.swap (token 0 0) ⟨0, 1⟩, .swap (token 0 0) ⟨5, 5⟩, .swap (token 7 0) ⟨6, 6⟩]).load =
      ⟨token 1 1, ⟨0, 1⟩⟩ := by decide

end VersionedRegister

end TimedTrace
