import TimedTrace.Proofs.Quiescence

namespace TimedTrace

/-- No index of the window is greater than this one. -/
def Window.UpTo (window : Window) (greatest : Nat) : Prop :=
  window.bottom ≤ greatest ∧ window.top ≤ greatest

namespace PackedRegister

theorem half_pos : 0 < half := by decide

theorem toNat_lowBits (word : UInt64) : (word &&& 0xffffffff).toNat = word.toNat % half := by
  rw [UInt64.toNat_and]
  exact Nat.and_two_pow_sub_one_eq_mod word.toNat 32

/-- The upper bits of `bottom` are masked off, and those of `top` shifted out. -/
theorem pack_eq_bits (window : Window) :
    pack window =
      UInt64.ofNat window.top <<< 32 ||| UInt64.ofNat window.bottom &&& 0xffffffff := by
  have shifted : (UInt64.ofNat window.top <<< 32).toNat = half * (window.top % half) := by
    rw [UInt64.toNat_shiftLeft, UInt64.toNat_ofNat', Nat.shiftLeft_eq]
    simp only [UInt64.reduceToNat, Nat.reduceMod, Nat.reducePow, half, UInt32.size]
    omega
  have masked : (UInt64.ofNat window.bottom &&& 0xffffffff).toNat = window.bottom % half := by
    rw [toNat_lowBits, UInt64.toNat_ofNat', half, UInt32.size]
    omega
  have short : window.bottom % half < 2 ^ 32 := Nat.mod_lt _ half_pos
  apply UInt64.toNat_inj.1
  rw [pack_toNat, UInt64.toNat_or, shifted, masked, Nat.mul_comm]
  exact Nat.two_pow_add_eq_or_of_lt short _

theorem unpack_eq_bits (word : UInt64) :
    unpack word = ⟨(word &&& 0xffffffff).toNat, (word >>> 32).toNat⟩ := by
  rw [toNat_lowBits, UInt64.toNat_shiftRight, Nat.shiftRight_eq_div_pow]
  rfl

/-- Packing cuts both indices down to half a word. -/
theorem unpack_pack_eq (window : Window) :
    unpack (pack window) = ⟨window.bottom % half, window.top % half⟩ := by
  have short : window.bottom % half < half := Nat.mod_lt _ half_pos
  rw [unpack, pack_toNat, Nat.mul_comm, Nat.mul_add_mod, Nat.mod_eq_of_lt short,
    Nat.mul_add_div half_pos, Nat.div_eq_of_lt short, Nat.add_zero]

theorem unpack_pack_iff {window : Window} :
    unpack (pack window) = window ↔ window.bottom < half ∧ window.top < half := by
  rw [unpack_pack_eq]
  constructor
  · intro same
    rw [← same]
    exact ⟨Nat.mod_lt _ half_pos, Nat.mod_lt _ half_pos⟩
  · rintro ⟨bottom_lt, top_lt⟩
    rw [Nat.mod_eq_of_lt bottom_lt, Nat.mod_eq_of_lt top_lt]

end PackedRegister

variable {α : Type}

/-- A ring with a packed register has room for fewer events than half a word has values, one slot
aside for the free one. -/
theorem Ring.of_create_packed {capacity : Nat} {epoch : Time} {patience : Patience} {ring : Ring α}
    (created : Ring.create .packed capacity epoch patience = .ok ring) :
    ring.capacity = capacity ∧ capacity < PackedRegister.maxIndex := by
  unfold Ring.create at created
  split at created
  · split at created
    · rename_i fits
      cases created
      exact ⟨rfl, fits⟩
    · cases created
  · cases created

namespace Traffic.InRange

variable {traffic : Traffic α} {size : Nat}

/-- A flight whose swap succeeds has published the window that it is for. -/
theorem window_of_swap (inRange : traffic.InRange size) {flight : Flight α}
    (mem : flight ∈ traffic.flights) {fails : Bool} {after : Ring α}
    (swapped : flight.round.swap fails traffic.ring = (true, after)) :
    after.window = flight.round.next := by
  obtain ⟨bottom_lt, top_lt⟩ := inRange.flights flight mem
  rcases flight.round.swap_cases fails traffic.ring with ⟨register, run, same⟩ | ⟨_, _, same⟩
  · cases same.symm.trans swapped
    exact inRange.ring.window_swap bottom_lt top_lt run
  · cases same.symm.trans swapped

end Traffic.InRange

namespace PackedRegister

/-- Packing keeps exactly the windows that fit, and every word stands for one. Whatever capacity a
ring with a packed register is made with, and whatever happens to it, its window fits, and so does
each that an update is about to publish. So a swap that succeeds leaves the window to be loaded that
it was given. -/
theorem publishes_exactly :
    (∀ window : Window,
      unpack (pack window) = window ↔ window.bottom < half ∧ window.top < half) ∧
    (∀ word : UInt64, pack (unpack word) = word) ∧
    ∀ {capacity : Nat} {epoch : Time} {patience : Patience} {start : Ring α},
      Ring.create .packed capacity epoch patience = .ok start →
      capacity < half ∧
      ∀ motions : List (Motion α),
        ((Traffic.idle start).after motions).ring.window.UpTo capacity ∧
        ∀ flight ∈ ((Traffic.idle start).after motions).flights,
          flight.round.next.UpTo capacity ∧
          ∀ (fails : Bool) (after : Ring α),
            flight.round.swap fails ((Traffic.idle start).after motions).ring = (true, after) →
            after.register.load.window = flight.round.next := by
  refine ⟨fun window => unpack_pack_iff, pack_unpack, fun created => ?_⟩
  rename_i capacity epoch patience start
  obtain ⟨same, fits⟩ := Ring.of_create_packed created
  have greatest : maxIndex < half := by decide
  refine ⟨Nat.lt_trans fits greatest, fun motions => ?_⟩
  have inRange := (Traffic.InRange.of_create created).after motions
  have size : start.size = capacity + 1 := congrArg (· + 1) same
  rw [size] at inRange
  refine ⟨⟨Nat.le_of_lt_succ inRange.ring.bottom_lt, Nat.le_of_lt_succ inRange.ring.top_lt⟩,
    fun flight mem => ?_⟩
  obtain ⟨bottom_lt, top_lt⟩ := inRange.flights flight mem
  exact ⟨⟨Nat.le_of_lt_succ bottom_lt, Nat.le_of_lt_succ top_lt⟩,
    fun fails after swapped => inRange.window_of_swap mem swapped⟩

/-- An append that sets out on a full ring of which the window has come around. -/
def wrapping : List (Motion Nat) :=
  [.perform (.push ⟨1, .zero⟩), .perform (.push ⟨2, .zero⟩), .perform (.push ⟨3, .zero⟩),
    .start (.append ⟨4, .zero⟩)]

theorem publishes_exactly_wrapping :
    ∃ flight ∈ ((Traffic.idle smallRing).after wrapping).flights,
      ∃ after, flight.round.swap false ((Traffic.idle smallRing).after wrapping).ring =
          (true, after) ∧
        after.register.load.window = ⟨2, 1⟩ := by
  obtain ⟨_, _, rings⟩ := @publishes_exactly Nat
  obtain ⟨_, exactly⟩ := rings create_smallRing
  exact ⟨_, List.mem_cons_self, _, rfl,
    ((exactly wrapping).2 _ List.mem_cons_self).2 false _ rfl⟩

end PackedRegister

end TimedTrace
