import TimedTrace.Window

namespace TimedTrace

/-- A window in one word, `top` in its upper half and `bottom` in the lower. The word is its own
token, so a swap cannot tell a word that came back from one that never left. -/
structure PackedRegister where
  word : UInt64
  deriving DecidableEq, Repr

namespace PackedRegister

/-- The number of values of half a word. -/
def half : Nat := UInt32.size

/-- Indices that do not fit lose their upper bits. -/
def pack (window : Window) : UInt64 :=
  UInt64.ofNat (window.top % half * half + window.bottom % half)

def unpack (word : UInt64) : Window := ⟨word.toNat % half, word.toNat / half⟩

/-- The greatest index that half a word holds. -/
def maxIndex : Nat := half - 1

def holding (window : Window) : PackedRegister := ⟨pack window⟩

def load (register : PackedRegister) : Snapshot := ⟨register.word, unpack register.word⟩

/-- Publishes the window if the register still holds the given word. -/
def swap (register : PackedRegister) (token : UInt64) (next : Window) : Bool × PackedRegister :=
  if register.word = token then (true, ⟨pack next⟩) else (false, register)

theorem pack_toNat (window : Window) :
    (pack window).toNat = window.top % half * half + window.bottom % half := by
  simp only [pack, UInt64.toNat_ofNat', half, UInt32.size]
  omega

theorem unpack_pack {window : Window} (bottom_fits : window.bottom < half)
    (top_fits : window.top < half) : unpack (pack window) = window := by
  cases window with
  | mk bottom top =>
    simp only [half, UInt32.size] at bottom_fits top_fits
    simp only [unpack, pack_toNat, half, UInt32.size, Window.mk.injEq]
    omega

theorem pack_unpack (word : UInt64) : pack (unpack word) = word := by
  apply UInt64.toNat_inj.1
  have := word.toNat_lt
  simp only [pack_toNat, unpack, half, UInt32.size]
  omega

end PackedRegister

end TimedTrace
