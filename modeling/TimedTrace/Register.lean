import TimedTrace.Register.Packed
import TimedTrace.Register.Versioned

namespace TimedTrace

inductive RegisterKind where
  | packed
  | versioned
  deriving DecidableEq, Repr

/-- What publishes the window of a ring. A snapshot is loaded, and a window is published on
condition that the token of a snapshot is still current. -/
inductive Register where
  | packed (register : PackedRegister)
  | versioned (register : VersionedRegister)
  deriving DecidableEq, Repr

/-- The greatest index that a register of the kind can publish. -/
def RegisterKind.maxIndex : RegisterKind → Nat
  | packed => PackedRegister.maxIndex
  | versioned => VersionedRegister.maxIndex

namespace Register

def holding (kind : RegisterKind) (window : Window) : Register :=
  match kind with
  | .packed => .packed (.holding window)
  | .versioned => .versioned (.holding window)

def load : Register → Snapshot
  | .packed register => register.load
  | .versioned register => register.load

def window (register : Register) : Window := register.load.window

/-- Publishes the window if the token is still current, and tells whether it did. -/
def swap (register : Register) (token : UInt64) (next : Window) : Bool × Register :=
  match register with
  | .packed register => (register.swap token next).map id .packed
  | .versioned register => (register.swap token next).map id .versioned

end Register

end TimedTrace
