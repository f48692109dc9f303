import TimedTrace.Register

namespace TimedTrace

namespace VersionedRegister

/-- The current record is held and no other is, and there is another. -/
structure Sound (register : VersionedRegister) : Prop where
  spare : 2 ≤ register.records.size
  few : register.records.size ≤ recordLimit
  named : recordOf register.current < register.records.size
  held : ∀ (i : Nat) (record : Record), register.records[i]? = some record →
    (record.held = true ↔ i = recordOf register.current)

/-- At first the home record is held, whatever the number of spares. -/
theorem sound_withSpares (window : Window) (spares : Nat) : (withSpares window spares).Sound := by
  have current : recordOf (withSpares window spares).current = 0 := rfl
  have records : (withSpares window spares).records.size =
      1 + max 1 (min spares (recordLimit - 1)) := by
    simp [withSpares]
  have positive : 0 < recordLimit - 1 := by decide
  refine ⟨by omega, by omega, by omega, fun i record atI => ?_⟩
  rw [current]
  simp only [withSpares, Array.getElem?_append, Array.getElem?_replicate] at atI
  cases i with
  | zero =>
    cases atI
    simp
  | succ i =>
    simp only [List.size_toArray, List.length_singleton, Nat.not_lt.2 (Nat.le_add_left 1 i),
      if_false] at atI
    split at atI
    · cases atI
      simp
    · cases atI

theorem sound_holding (window : Window) : (holding window).Sound :=
  sound_withSpares window defaultSpares

/-- A record is free for the next update. -/
theorem Sound.exists_claim {register : VersionedRegister} (sound : register.Sound) :
    ∃ target, register.claim? (recordOf register.current) = some target := by
  have some : ∃ record, record < register.records.size ∧ record ≠ recordOf register.current := by
    have spare := sound.spare
    by_cases home : recordOf register.current = 0
    · exact ⟨1, by omega, by omega⟩
    · exact ⟨0, by omega, by omega⟩
  obtain ⟨record, room, other⟩ := some
  have atRecord := Array.getElem?_eq_getElem room
  have free : register.records[record].held = false := by
    have held := mt (sound.held record _ atRecord).1 other
    simpa using held
  have claimed : (register.claim? (recordOf register.current)).isSome = true := by
    refine List.find?_isSome.2 ⟨record, mem_candidates.2 ⟨room, other⟩, ?_⟩
    simp [Array.getD, room, free]
  exact Option.isSome_iff_exists.1 claimed

theorem Sound.swap {register : VersionedRegister} (sound : register.Sound) (next : Window) :
    ∃ swapped : VersionedRegister, register.swap register.current next = (true, swapped) ∧
      swapped.Sound ∧ swapped.window = next := by
  obtain ⟨target, claimed⟩ := sound.exists_claim
  obtain ⟨other, free, atTarget, _⟩ := claim?_eq_some claimed
  have room : target < register.records.size := (Array.getElem?_eq_some_iff.1 atTarget).1
  have few := sound.few
  have names : recordOf (token (generationOf register.current + 1) target) = target :=
    recordOf_token _ (by omega)
  -- Filling the target and freeing the record that was current moves the one held record.
  have records (i : Nat) : ((register.records.setIfInBounds target ⟨next, true⟩).modify
      (recordOf register.current) fun record => { record with held := false })[i]? =
        if recordOf register.current = i then
          register.records[i]?.map fun record => { record with held := false }
        else if target = i then some ⟨next, true⟩ else register.records[i]? := by
    rw [Array.getElem?_modify, Array.getElem?_setIfInBounds]
    by_cases here : recordOf register.current = i
    · simp [here, show target ≠ i by omega]
    · by_cases there : target = i
      · simp [here, there, show i < register.records.size by omega]
      · simp [here, there]
  refine ⟨_, by rw [VersionedRegister.swap, claimed]; exact if_pos rfl, ?_, ?_⟩
  · refine ⟨by simpa using sound.spare, by simpa using few, by simpa [names] using room, ?_⟩
    intro i record atI
    rw [records] at atI
    rw [names]
    by_cases here : recordOf register.current = i
    · rw [if_pos here] at atI
      obtain ⟨_, _, rfl⟩ := Option.map_eq_some_iff.1 atI
      simp; omega
    · rw [if_neg here] at atI
      by_cases there : target = i
      · rw [if_pos there] at atI
        cases atI
        simp [there]
      · rw [if_neg there] at atI
        rw [sound.held i record atI]
        omega
  · unfold window
    dsimp only
    rw [names, Array.getD_eq_getD_getElem?, records, if_neg (by omega), if_pos rfl]
    rfl

end VersionedRegister

namespace Register

def kind : Register → RegisterKind
  | packed _ => .packed
  | versioned _ => .versioned

/-- The register can be swapped. A packed one always can. -/
def Sound : Register → Prop
  | packed _ => True
  | versioned register => register.Sound

theorem kind_holding (kind : RegisterKind) (window : Window) :
    (holding kind window).kind = kind := by
  cases kind <;> rfl

theorem sound_holding (kind : RegisterKind) (window : Window) : (holding kind window).Sound := by
  cases kind with
  | packed => trivial
  | versioned => exact VersionedRegister.sound_holding window

theorem window_holding {kind : RegisterKind} {window : Window}
    (bottom_fits : window.bottom ≤ kind.maxIndex) (top_fits : window.top ≤ kind.maxIndex) :
    (holding kind window).window = window := by
  cases kind with
  | versioned => rfl
  | packed =>
    have room : PackedRegister.maxIndex < PackedRegister.half := by decide
    exact PackedRegister.unpack_pack (Nat.lt_of_le_of_lt bottom_fits room)
      (Nat.lt_of_le_of_lt top_fits room)

theorem swap_packed (register : PackedRegister) {next : Window}
    (bottom_fits : next.bottom ≤ RegisterKind.packed.maxIndex)
    (top_fits : next.top ≤ RegisterKind.packed.maxIndex) :
    ∃ swapped : Register, (packed register).swap register.word next = (true, swapped) ∧
      swapped.Sound ∧ swapped.kind = .packed ∧ swapped.window = next := by
  refine ⟨holding .packed next, ?_, trivial, rfl, window_holding bottom_fits top_fits⟩
  simp [Register.swap, PackedRegister.swap, holding, PackedRegister.holding]

theorem swap_versioned {register : VersionedRegister} (sound : register.Sound) (next : Window) :
    ∃ swapped : Register, (versioned register).swap register.current next = (true, swapped) ∧
      swapped.Sound ∧ swapped.kind = .versioned ∧ swapped.window = next := by
  obtain ⟨swapped, run, soundAfter, window⟩ := VersionedRegister.Sound.swap sound next
  refine ⟨versioned swapped, ?_, soundAfter, rfl, window⟩
  rw [Register.swap, run]
  rfl

theorem Sound.swap {register : Register} (sound : register.Sound) {next : Window}
    (bottom_fits : next.bottom ≤ register.kind.maxIndex)
    (top_fits : next.top ≤ register.kind.maxIndex) :
    ∃ swapped : Register, register.swap register.load.token next = (true, swapped) ∧
      swapped.Sound ∧ swapped.kind = register.kind ∧ swapped.window = next := by
  cases register with
  | packed register =>
    exact swap_packed register bottom_fits top_fits
  | versioned register =>
    exact swap_versioned sound next

end Register

end TimedTrace
