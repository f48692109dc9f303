import TimedTrace.Window

namespace TimedTrace

/-- A place for a window. It is held while it is current or being filled. -/
structure Record where
  window : Window
  held : Bool
  deriving DecidableEq, Repr, Inhabited

/-- Windows in records, of which the name of the current one is swapped. Record 0 is the home
record; the others are spare. A token is a generation, counted up with every publication, above the
number of a record, so an old token never equals the current one unless the generations have wrapped
around in between. -/
structure VersionedRegister where
  current : UInt64
  records : Array Record
  deriving DecidableEq, Repr

namespace VersionedRegister

/-- Values of the part of a token that names a record. -/
def recordLimit : Nat := 256

/-- The record a token names. -/
def recordOf (token : UInt64) : Nat := token.toNat % recordLimit

def generationOf (token : UInt64) : Nat := token.toNat / recordLimit

/-- The token of a generation and a record. Generations wrap around. -/
def token (generation record : Nat) : UInt64 :=
  UInt64.ofNat (generation * recordLimit + record)

/-- Every index fits into a record. -/
def maxIndex : Nat := UInt64.size - 1

/-- A register whose home record holds the window, with at least one and at most 255 spare
records. -/
def withSpares (window : Window) (spares : Nat) : VersionedRegister where
  current := token 0 0
  records :=
    #[⟨window, true⟩] ++ Array.replicate (max 1 (min spares (recordLimit - 1))) ⟨⟨0, 0⟩, false⟩

/-- Spare records unless told otherwise. -/
def defaultSpares : Nat := 3

def holding (window : Window) : VersionedRegister := withSpares window defaultSpares

def window (register : VersionedRegister) : Window :=
  (register.records.getD (recordOf register.current) default).window

def load (register : VersionedRegister) : Snapshot := ⟨register.current, register.window⟩

/-- The records an update may fill, in order of preference: the home record first, never the one its
token names. -/
def candidates (register : VersionedRegister) (named : Nat) : List Nat :=
  (List.range register.records.size).filter (· ≠ named)

/-- The first candidate that is free. -/
def claim? (register : VersionedRegister) (named : Nat) : Option Nat :=
  (register.candidates named).find? fun record =>
    !(register.records.getD record ⟨⟨0, 0⟩, true⟩).held

/-- Fills a free record with the window and makes it current if the token is still the current one.
If it is not, the record is free again, but keeps what was written. -/
def swap (register : VersionedRegister) (seen : UInt64) (next : Window) :
    Bool × VersionedRegister :=
  let named := recordOf seen
  match register.claim? named with
  | none => (false, register)
  | some target =>
    if register.current = seen then
      let filled := register.records.setIfInBounds target ⟨next, true⟩
      let released := filled.modify named fun record => { record with held := false }
      (true, ⟨token (generationOf seen + 1) target, released⟩)
    else (false, { register with records := register.records.setIfInBounds target ⟨next, false⟩ })

theorem token_toNat (generation record : Nat) :
    (token generation record).toNat = (generation * recordLimit + record) % UInt64.size := by
  simp only [token, UInt64.toNat_ofNat', UInt64.size]

theorem recordOf_token (generation : Nat) {record : Nat} (bound : record < recordLimit) :
    recordOf (token generation record) = record := by
  simp only [recordLimit] at bound
  simp only [recordOf, token_toNat, recordLimit, UInt64.size]
  omega

theorem token_parts (seen : UInt64) : token (generationOf seen) (recordOf seen) = seen := by
  apply UInt64.toNat_inj.1
  have := seen.toNat_lt
  simp only [token_toNat, generationOf, recordOf, recordLimit, UInt64.size]
  omega

theorem mem_candidates {register : VersionedRegister} {named record : Nat} :
    record ∈ register.candidates named ↔ record < register.records.size ∧ record ≠ named := by
  simp [candidates]

/-- Only a free record other than the one named is ever filled. -/
theorem claim?_eq_some {register : VersionedRegister} {named record : Nat}
    (claimed : register.claim? named = some record) :
    record ≠ named ∧ ∃ free, register.records[record]? = some free ∧ free.held = false := by
  have candidate := mem_candidates.1 (List.mem_of_find?_eq_some claimed)
  refine ⟨candidate.2, register.records[record], by simp [candidate.1], ?_⟩
  have free := List.find?_some claimed
  simpa [Array.getD, candidate.1] using free

end VersionedRegister

end TimedTrace
