import TimedTrace.Proofs.Publication

namespace TimedTrace

namespace VersionedRegister

/-- The number of generations that a token can tell apart. -/
def generations : Nat := UInt64.size / recordLimit

theorem generationOf_token (generation : Nat) {record : Nat} (bound : record < recordLimit) :
    generationOf (token generation record) = generation % generations := by
  simp only [recordLimit] at bound
  simp only [generationOf, token_toNat, generations, recordLimit, UInt64.size]
  omega

theorem generationOf_lt (seen : UInt64) : generationOf seen < generations := by
  have := seen.toNat_lt
  simp only [generationOf, generations, recordLimit, UInt64.size]
  omega

/-- A swap that succeeds begins the next generation. -/
theorem Sound.generation_swap {register after : VersionedRegister} (sound : register.Sound)
    {seen : UInt64} {next : Window} (run : register.swap seen next = (true, after)) :
    generationOf after.current = (generationOf seen + 1) % generations := by
  cases claimed : register.claim? (recordOf seen) with
  | none =>
    rw [VersionedRegister.swap, claimed] at run
    cases run
  | some target =>
    obtain ⟨_, free, atTarget, _⟩ := claim?_eq_some claimed
    have room : target < register.records.size := (Array.getElem?_eq_some_iff.1 atTarget).1
    rw [VersionedRegister.swap, claimed] at run
    dsimp only at run
    split at run
    · cases run
      exact generationOf_token _ (Nat.lt_of_lt_of_le room sound.few)
    · cases run

/-- A swap with any other token than the current one fails and leaves the current record alone. -/
theorem Sound.swap_stale {register : VersionedRegister} (sound : register.Sound) {seen : UInt64}
    (stale : seen ≠ register.current) (next : Window) :
    ∃ after : VersionedRegister, register.swap seen next = (false, after) ∧ after.Sound ∧
      after.load = register.load := by
  cases claimed : register.claim? (recordOf seen) with
  | none => exact ⟨register, by rw [VersionedRegister.swap, claimed], sound, rfl⟩
  | some target =>
    obtain ⟨_, free, atTarget, notHeld⟩ := claim?_eq_some claimed
    have other : target ≠ recordOf register.current := by
      rintro rfl
      have held := (sound.held _ _ atTarget).2 rfl
      rw [notHeld] at held
      cases held
    have room : target < register.records.size := (Array.getElem?_eq_some_iff.1 atTarget).1
    refine ⟨⟨register.current, register.records.setIfInBounds target ⟨next, false⟩⟩, ?_,
      ⟨?_, ?_, ?_, fun i record atI => ?_⟩, ?_⟩
    · rw [VersionedRegister.swap, claimed]
      exact if_neg (Ne.symm stale)
    · simpa using sound.spare
    · simpa using sound.few
    · simpa using sound.named
    · dsimp only at atI ⊢
      rw [Array.getElem?_setIfInBounds] at atI
      by_cases here : target = i
      · subst here
        rw [if_pos rfl, if_pos room] at atI
        cases atI
        simpa using other
      · rw [if_neg here] at atI
        exact sound.held i record atI
    · simp only [load, window, Array.getD_eq_getD_getElem?, Array.getElem?_setIfInBounds,
        if_neg other]

end VersionedRegister

namespace Register

/-- The generation of the current token. A packed register has but one. -/
def generation : Register → Nat
  | packed _ => 0
  | versioned register => VersionedRegister.generationOf register.current

/-- Between two states of a register this many swaps have succeeded. -/
structure Swaps (count : Nat) (older newer : Register) : Prop where
  kind : newer.kind = older.kind
  still : count = 0 → newer.load = older.load
  generation : older.kind = .versioned →
    newer.generation = (older.generation + count) % VersionedRegister.generations

theorem generation_lt (register : Register) :
    register.generation < VersionedRegister.generations := by
  cases register with
  | packed register => exact (by decide : 0 < VersionedRegister.generations)
  | versioned register => exact VersionedRegister.generationOf_lt _

theorem Swaps.refl (register : Register) : Swaps 0 register register :=
  ⟨rfl, fun _ => rfl, fun _ => (Nat.mod_eq_of_lt register.generation_lt).symm⟩

theorem Swaps.trans {first second : Nat} {older between newer : Register}
    (before : Swaps first older between) (after : Swaps second between newer) :
    Swaps (first + second) older newer where
  kind := after.kind.trans before.kind
  still none := (after.still (by omega)).trans (before.still (by omega))
  generation versioned := by
    rw [after.generation (before.kind.trans versioned), before.generation versioned,
      Nat.mod_add_mod, Nat.add_assoc]

/-- A token that is current again, or still, names the window it was loaded with, unless the
generations have wrapped around. -/
theorem Swaps.window_eq {count : Nat} {older newer : Register} (swaps : Swaps count older newer)
    (current : newer.load.token = older.load.token)
    (few : older.kind = .versioned → count < VersionedRegister.generations) :
    newer.window = older.window ∧ (older.kind = .versioned → count = 0) := by
  cases older with
  | packed older =>
    cases newer with
    | versioned => cases swaps.kind
    | packed newer => exact ⟨congrArg PackedRegister.unpack current, nofun⟩
  | versioned older =>
    cases newer with
    | packed => cases swaps.kind
    | versioned newer =>
      have same : (versioned newer).generation = (versioned older).generation :=
        congrArg VersionedRegister.generationOf current
      have counted := swaps.generation rfl
      have bound := (versioned older).generation_lt
      have small := few rfl
      have none : count = 0 := by
        rw [same] at counted
        generalize (versioned older).generation = generation at *
        generalize VersionedRegister.generations = limit at *
        by_cases wraps : generation + count < limit
        · rw [Nat.mod_eq_of_lt wraps] at counted
          omega
        · rw [Nat.mod_eq_sub_mod (by omega), Nat.mod_eq_of_lt (by omega)] at counted
          omega
      exact ⟨congrArg Snapshot.window (swaps.still none), fun _ => none⟩

/-- All that a swap of a versioned register can do, with the current token or another. -/
theorem versioned_swap_cases {register : VersionedRegister} (sound : register.Sound)
    (seen : UInt64) (next : Window) :
    (∃ after, register.swap seen next = (true, after) ∧ register.current = seen ∧ after.Sound ∧
        after.window = next ∧ Swaps 1 (versioned register) (versioned after)) ∨
      ∃ after, register.swap seen next = (false, after) ∧ register.current ≠ seen ∧ after.Sound ∧
        Swaps 0 (versioned register) (versioned after) := by
  by_cases current : register.current = seen
  · left
    subst current
    obtain ⟨after, run, soundAfter, window⟩ := VersionedRegister.Sound.swap sound next
    exact ⟨after, run, rfl, soundAfter, window, rfl, nofun, fun _ =>
      VersionedRegister.Sound.generation_swap sound run⟩
  · right
    obtain ⟨after, run, soundAfter, same⟩ :=
      VersionedRegister.Sound.swap_stale sound (Ne.symm current) next
    have still : (versioned after).generation = (versioned register).generation :=
      congrArg (VersionedRegister.generationOf ∘ Snapshot.token) same
    refine ⟨after, run, current, soundAfter, rfl, fun _ => same, fun _ => ?_⟩
    rw [still, Nat.add_zero]
    exact (Nat.mod_eq_of_lt (generation_lt _)).symm

/-- All that a swap can do. -/
theorem Sound.swap_cases {register : Register} (sound : register.Sound) (token : UInt64)
    (next : Window) (bottom_fits : next.bottom ≤ register.kind.maxIndex)
    (top_fits : next.top ≤ register.kind.maxIndex) :
    (∃ after, register.swap token next = (true, after) ∧ register.load.token = token ∧
        after.Sound ∧ after.window = next ∧ Swaps 1 register after) ∨
      ∃ after, register.swap token next = (false, after) ∧ register.load.token ≠ token ∧
        after.Sound ∧ Swaps 0 register after := by
  cases register with
  | packed register =>
    by_cases current : (packed register).load.token = token
    · left
      subst current
      obtain ⟨after, run, soundAfter, kind, window⟩ := swap_packed register bottom_fits top_fits
      exact ⟨after, run, rfl, soundAfter, window, kind, nofun, nofun⟩
    · right
      have run : (packed register).swap token next = (false, packed register) := by
        simp [Register.swap, PackedRegister.swap, show register.word ≠ token from current]
      exact ⟨_, run, current, trivial, Swaps.refl _⟩
  | versioned register =>
    rcases versioned_swap_cases sound token next with
      ⟨after, run, current, soundAfter, window, swaps⟩ | ⟨after, run, stale, soundAfter, swaps⟩
    · exact .inl ⟨versioned after, by rw [Register.swap, run]; rfl, current, soundAfter, window,
        swaps⟩
    · exact .inr ⟨versioned after, by rw [Register.swap, run]; rfl, stale, soundAfter, swaps⟩

end Register

end TimedTrace
