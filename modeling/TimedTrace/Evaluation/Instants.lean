import TimedTrace.Evaluation.Offsets
import TimedTrace.Tape

namespace TimedTrace

namespace Tape

variable {α : Type}

/-- The time of the event at a position, if it can be read. -/
def timeAt (tape : Tape α) (head : Nat) : Option Int :=
  match tape.read head with
  | .ok event => some event.time.toInstant
  | .error _ => none

/-- The time of the first event after an instant. -/
def firstAfter (tape : Tape α) (instant : Int) : Scan (Option Int) := fun head =>
  match Time.ofInstant? instant with
  | some time =>
    match tape.seek time head with
    | (.ok _, head) => (tape.timeAt (head + 1), head)
    | (.error _, _) => ((tape.timeAt 0).filter (instant < ·), 0)
  | none => if instant < 0 then (tape.timeAt 0, 0) else (none, head)

/-- The time of the last event before an instant. -/
def lastBefore (tape : Tape α) (instant : Int) : Scan (Option Int) := fun head =>
  let seekTo (time : Time) :=
    match tape.seek time head with
    | (.ok _, head) => (tape.timeAt head, head)
    | (.error _, head) => (none, head)
  match Time.ofInstant? (instant - 1) with
  | some time => seekTo time
  | none => if 0 < instant then seekTo .greatest else (none, head)

/-- Searches for one shift after another and keeps the best of what is found, and of what was found
before. -/
def bestOf (best : Int → Int → Int) (search : Int → Scan (Option Int)) (before : Option Int) :
    List Int → Scan (Option Int)
  | [], head => (before, head)
  | shift :: shifts, head =>
    let (found, head) := search shift head
    bestOf best search (Option.merge best before found) shifts head

/-- The next instant after `c` at which an event meets one of the shifts: the least `e - s` beyond
`c`, over the times `e` of events and the shifts `s`. -/
def nextInstant (tape : Tape α) (c : Int) : List Int → Scan (Option Int) :=
  bestOf min (fun shift => Scan.map (·.map (· - shift)) (tape.firstAfter (c + shift))) none

/-- The previous instant before `c` at which an event meets one of the shifts. -/
def previousInstant (tape : Tape α) (c : Int) : List Int → Scan (Option Int) :=
  bestOf max (fun shift => Scan.map (fun found => (found.map (· - shift)).filter (0 ≤ ·))
    (tape.lastBefore (c + shift))) none

/-- The time of the newest event not after the greatest time, sought from where the head stands. -/
def newest (tape : Tape α) : Scan (Option Int) := fun head =>
  match tape.seek .greatest head with
  | (.ok _, head) => (tape.timeAt head, head)
  | (.error _, head) => (none, head)

/-- The time of the oldest event. -/
def oldest (tape : Tape α) : Scan (Option Int) := fun _ => (tape.timeAt 0, 0)

theorem timeAt_eq_some_iff {tape : Tape α} {head : Nat} {instant : Int} :
    tape.timeAt head = some instant ↔
      ∃ event, tape.read head = .ok event ∧ event.time.toInstant = instant := by
  unfold timeAt
  split <;> simp_all

theorem timeAt_bounds {tape : Tape α} {head : Nat} {instant : Int}
    (found : tape.timeAt head = some instant) : 0 ≤ instant ∧ instant ≤ maxNanos := by
  obtain ⟨event, _, rfl⟩ := timeAt_eq_some_iff.1 found
  exact ⟨event.time.toInstant_nonneg, event.time.toInstant_le⟩

/-- Going back stops at an event that is not after the time sought. -/
theorem rewind_ok {tape : Tape α} {time : Time} {head : Nat} {done : Unit} {stop : Nat}
    (run : tape.rewind time head = (.ok done, stop)) :
    ∃ event, tape.read stop = .ok event ∧ event.time ≤ time := by
  induction head with
  | zero =>
    unfold rewind at run
    split at run
    · simp at run
    · rename_i event atHead
      split at run
      · rename_i early
        simp only [Prod.mk.injEq] at run
        exact ⟨event, run.2 ▸ atHead, early⟩
      · simp at run
  | succ head ih =>
    unfold rewind at run
    split at run
    · simp at run
    · rename_i event atHead
      split at run
      · rename_i early
        simp only [Prod.mk.injEq] at run
        exact ⟨event, run.2 ▸ atHead, early⟩
      · exact ih run

/-- Going on never leaves the events that are not after the time sought, and ends where the next one
is, or where there is none. -/
theorem advance_ok {tape : Tape α} {time : Time} {head : Nat} {done : Unit} {stop : Nat}
    (run : tape.advance time head = (.ok done, stop))
    (here : ∃ event, tape.read head = .ok event ∧ event.time ≤ time) :
    (∃ event, tape.read stop = .ok event ∧ event.time ≤ time) ∧
      ∀ event, tape.readNext stop = .ok event → time < event.time := by
  fun_induction advance tape time head with
  | case1 => simp at run
  | case2 head onTape event atNext early ih => exact ih run ⟨event, atNext, early⟩
  | case3 head onTape event atNext late =>
    simp only [Prod.mk.injEq] at run
    refine ⟨run.2 ▸ here, fun other atOther => ?_⟩
    rw [← run.2, atNext] at atOther
    cases atOther
    exact Nat.lt_of_not_le late
  | case4 head last =>
    simp only [Prod.mk.injEq] at run
    refine ⟨run.2 ▸ here, fun other atOther => ?_⟩
    rw [← run.2, readNext_eq_unavailable (by omega)] at atOther
    cases atOther

/-- A successful search ends at an event not after the time sought, before one that is. -/
theorem seek_ok {tape : Tape α} {time : Time} {head : Nat} {done : Unit} {stop : Nat}
    (run : tape.seek time head = (.ok done, stop)) :
    (∃ event, tape.read stop = .ok event ∧ event.time ≤ time) ∧
      ∀ event, tape.readNext stop = .ok event → time < event.time := by
  unfold seek at run
  split at run
  · simp at run
  · rename_i back
    exact advance_ok run (rewind_ok back)

theorem firstAfter_gt {tape : Tape α} {instant e : Int} {head : Nat}
    (found : (tape.firstAfter instant head).1 = some e) : instant < e ∧ e ≤ maxNanos := by
  unfold firstAfter at found
  split at found
  · rename_i time atInstant
    have same := Time.toInstant_of_ofInstant? atInstant
    split at found
    · rename_i stop run
      obtain ⟨event, atNext, rfl⟩ := timeAt_eq_some_iff.1 found
      have later := (seek_ok run).2 event atNext
      exact ⟨same ▸ Int.ofNat_lt.2 later, event.time.toInstant_le⟩
    · rw [Option.filter_eq_some_iff] at found
      exact ⟨of_decide_eq_true found.2, (timeAt_bounds found.1).2⟩
  · split at found
    · have := timeAt_bounds found
      omega
    · simp at found

theorem lastBefore_lt {tape : Tape α} {instant e : Int} {head : Nat}
    (found : (tape.lastBefore instant head).1 = some e) : e < instant := by
  have sought {time : Time} (bound : time.toInstant < instant)
      (found : (match tape.seek time head with
        | (.ok _, head) => (tape.timeAt head, head)
        | (.error _, head) => (none, head)).1 = some e) : e < instant := by
    split at found
    · rename_i run
      obtain ⟨event, atStop, early⟩ := (seek_ok run).1
      obtain ⟨other, atOther, rfl⟩ := timeAt_eq_some_iff.1 found
      rw [atStop] at atOther
      cases atOther
      have : event.time.toInstant ≤ time.toInstant := Int.ofNat_le.2 early
      omega
    · simp at found
  unfold lastBefore at found
  dsimp only at found
  split at found
  · rename_i time atInstant
    exact sought (by have := Time.toInstant_of_ofInstant? atInstant; omega) found
  · rename_i absent
    split at found
    · refine sought ?_ found
      have := Time.ofInstant?_eq_none_iff.1 absent
      have greatest : Time.greatest.toInstant = maxNanos := rfl
      omega
    · simp at found

theorem merge_eq_some {f : Int → Int → Int} (pick : ∀ a b, f a b = a ∨ f a b = b)
    {a b : Option Int} {x : Int} (merged : Option.merge f a b = some x) :
    a = some x ∨ b = some x := by
  cases a with
  | none => cases b <;> simp_all [Option.merge]
  | some a =>
    cases b with
    | none => simp_all [Option.merge]
    | some b =>
      simp only [Option.merge, Option.some.injEq] at merged
      rcases pick a b with left | right
      · left; rw [← merged, left]
      · right; rw [← merged, right]

/-- What is found for several shifts was found before, or the search for one of them finds it. -/
theorem bestOf_eq_some {best : Int → Int → Int} (pick : ∀ a b, best a b = a ∨ best a b = b)
    {search : Int → Scan (Option Int)} {before : Option Int} {shifts : List Int} {head : Nat}
    {x : Int} (found : (bestOf best search before shifts head).1 = some x) :
    before = some x ∨ ∃ shift ∈ shifts, ∃ start, (search shift start).1 = some x := by
  induction shifts generalizing before head with
  | nil => exact .inl found
  | cons shift shifts ih =>
    rcases ih found with merged | ⟨other, member, start, there⟩
    · rcases merge_eq_some pick merged with earlier | here
      · exact .inl earlier
      · exact .inr ⟨shift, List.mem_cons_self, head, here⟩
    · exact .inr ⟨other, List.mem_cons_of_mem _ member, start, there⟩

/-- The next instant lies ahead, and where some event meets a shift. -/
theorem nextInstant_eq_some {tape : Tape α} {c next : Int} {shifts : List Int} {head : Nat}
    (found : (tape.nextInstant c shifts head).1 = some next) :
    c < next ∧ ∃ shift ∈ shifts, next + shift ≤ maxNanos := by
  rcases bestOf_eq_some (fun a b => by omega) found with before | ⟨shift, member, start, here⟩
  · simp at before
  obtain ⟨e, atShift, rfl⟩ := Option.map_eq_some_iff.1 here
  have := firstAfter_gt atShift
  exact ⟨by omega, shift, member, by omega⟩

/-- The previous instant lies behind, and not before zero. -/
theorem previousInstant_eq_some {tape : Tape α} {c previous : Int} {shifts : List Int} {head : Nat}
    (found : (tape.previousInstant c shifts head).1 = some previous) :
    0 ≤ previous ∧ previous < c := by
  rcases bestOf_eq_some (fun a b => by omega) found with before | ⟨shift, _, start, here⟩
  · simp at before
  obtain ⟨shifted, notBefore⟩ := Option.filter_eq_some_iff.1 here
  obtain ⟨e, atShift, rfl⟩ := Option.map_eq_some_iff.1 shifted
  have := lastBefore_lt atShift
  have := of_decide_eq_true notBefore
  omega

end Tape

end TimedTrace
