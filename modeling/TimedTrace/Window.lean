namespace TimedTrace

/-- The events from slot `bottom` up to slot `top`, which itself is free. -/
structure Window where
  bottom : Nat
  top : Nat
  deriving DecidableEq, Repr, Inhabited

/-- A window together with the token of the publication it was loaded from. -/
structure Snapshot where
  token : UInt64
  window : Window
  deriving DecidableEq, Repr

end TimedTrace
