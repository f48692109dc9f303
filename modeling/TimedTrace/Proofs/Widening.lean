import Mathlib
import TimedTrace.Proofs.Derived

namespace TimedTrace

variable {α : Type}

namespace Tape

section

variable {tape : Tape α} {left right : Operand} {shifts : Thunk (List Int)}
  {finish wide : Option Int}

theorem unsettledAhead_ne_holds (tape : Tape α) (finish : Option Int) (head : Nat) :
    (tape.unsettledAhead finish head).1 ≠ .holds := by
  unfold unsettledAhead
  split
  · dsimp only
    split
    · exact nofun
    · exact nofun
  · exact nofun

/-- A search that comes to hold before its end does not need to know where that is. -/
theorem searchAhead_holds_of_wider (wider : ∀ c, Before finish c → Before wide c) {c : Int}
    {head : Nat} (holds : (tape.searchAhead left right shifts finish c head).1 = .holds) :
    (tape.searchAhead left right shifts wide c head).1 = .holds := by
  cases settles : Verdict.settle (left.value c head).1 (right.value c (left.value c head).2).1 with
  | some verdict =>
    rw [searchAhead_settled rfl rfl settles] at holds ⊢
    exact holds
  | none =>
    rcases run : tape.nextInstant c shifts.get (right.value c (left.value c head).2).2 with
      ⟨found, last⟩
    rw [searchAhead_unsettled rfl rfl settles run] at holds ⊢
    cases found with
    | none => exact absurd holds (unsettledAhead_ne_holds tape finish last)
    | some next =>
      have := instantsLeft_lt run
      dsimp only at holds ⊢
      by_cases room : Before finish next
      · rw [if_pos (all_lt_iff_before.2 room)] at holds
        rw [if_pos (all_lt_iff_before.2 (wider next room))]
        exact searchAhead_holds_of_wider wider holds
      · rw [if_neg (mt all_lt_iff_before.1 room)] at holds
        exact absurd holds (unsettledAhead_ne_holds tape finish last)
termination_by instantsLeft shifts.get c

/-- The same if there is nothing to search: then it does not come to hold. -/
theorem foldForward_holds_of_wider (wider : ∀ c, Before finish c → Before wide c) {c : Int}
    {head : Nat} (holds : (tape.foldForward left right finish c head).1 = .holds) :
    (tape.foldForward left right wide c head).1 = .holds := by
  unfold foldForward at holds ⊢
  by_cases room : Before finish c
  · rw [if_pos (all_lt_iff_before.2 room)] at holds
    rw [if_pos (all_lt_iff_before.2 (wider c room))]
    exact searchAhead_holds_of_wider wider holds
  · rw [if_neg (mt all_lt_iff_before.1 room)] at holds
    exact absurd holds (unsettledAhead_ne_holds tape finish head)

end

section

variable {events : List (Event α)} {right : Operand} {shifts : Thunk (List Int)}

/-- Whether a search that nothing settles fails is up to its end and the newest event. -/
theorem unsettledAhead_fails_iff {stop : Int} {head : Nat}
    (onTape : (ofEvents events).OnTape head) :
    ((ofEvents events).unsettledAhead (some stop) head).1 = .fails ↔ Reaches events stop := by
  rw [(unsettledAhead_yields events (some stop)).eq onTape, unsettled]
  split
  · simp [*]
  · simp [*]

variable (stays : ∀ c, (ofEvents events).Stays (right.value c))

include stays

/-- A search for something fails only if the trace reaches the end of the window, and then it fails
for any window that ends before. -/
theorem searchAhead_fails_of_narrower {narrow stop : Int} (narrower : narrow ≤ stop) {c : Int}
    {head : Nat} (onTape : (ofEvents events).OnTape head)
    (fails : ((ofEvents events).searchAhead (.always .holds) right shifts (some stop) c head).1 =
      .fails) :
    Reaches events stop ∧
      ((ofEvents events).searchAhead (.always .holds) right shifts (some narrow) c head).1 =
        .fails := by
  have leftRun : (Operand.always .holds).value c head = (.holds, head) := rfl
  rcases rightRun : right.value c head with ⟨value, middle⟩
  have middleOn := (stays c).of_run onTape rightRun
  cases settles : Verdict.settle .holds value with
  | some verdict =>
    rw [searchAhead_settled leftRun rightRun settles] at fails
    -- What is found settles the search for good: it is never a failure.
    subst fails
    cases (Verdict.settle_eq_fails_iff.1 settles).2
  | none =>
    rcases run : (ofEvents events).nextInstant c shifts.get middle with ⟨found, last⟩
    have lastOn := (stays_nextInstant _ c shifts.get).of_run middleOn run
    have unsettled_fails (reaches : Reaches events stop) :
        ((ofEvents events).unsettledAhead (some narrow) last).1 = .fails :=
      (unsettledAhead_fails_iff lastOn).2 (reaches.mono narrower)
    rw [searchAhead_unsettled leftRun rightRun settles run] at fails ⊢
    cases found with
    | none =>
      have reaches := (unsettledAhead_fails_iff lastOn).1 fails
      exact ⟨reaches, unsettled_fails reaches⟩
    | some next =>
      have := instantsLeft_lt run
      dsimp only at fails ⊢
      by_cases room : next < stop
      · rw [if_pos (by simpa using room)] at fails
        obtain ⟨reaches, rest⟩ := searchAhead_fails_of_narrower narrower lastOn fails
        refine ⟨reaches, ?_⟩
        split
        · exact rest
        · exact unsettled_fails reaches
      · rw [if_neg (by simpa using room)] at fails
        have reaches := (unsettledAhead_fails_iff lastOn).1 fails
        refine ⟨reaches, ?_⟩
        rw [if_neg (by simp; omega)]
        exact unsettled_fails reaches
termination_by instantsLeft shifts.get c

/-- The same if there is nothing to search. -/
theorem foldForward_fails_of_narrower {narrow stop : Int} (narrower : narrow ≤ stop) {c : Int}
    {head : Nat} (onTape : (ofEvents events).OnTape head)
    (fails : ((ofEvents events).foldForward (.always .holds) right (some stop) c head).1 =
      .fails) :
    ((ofEvents events).foldForward (.always .holds) right (some narrow) c head).1 = .fails := by
  have unsettled_fails (reaches : Reaches events stop) :
      ((ofEvents events).unsettledAhead (some narrow) head).1 = .fails :=
    (unsettledAhead_fails_iff onTape).2 (reaches.mono narrower)
  unfold foldForward at fails ⊢
  split at fails
  · obtain ⟨reaches, rest⟩ := searchAhead_fails_of_narrower stays narrower onTape fails
    split
    · exact rest
    · exact unsettled_fails reaches
  · rename_i empty
    rw [if_neg (by simp at empty ⊢; omega)]
    exact unsettled_fails ((unsettledAhead_fails_iff onTape).1 fails)

end

/-- Every window of the one length lies within a window of the other. -/
def Narrower (bound wide : Option Time) : Prop := ∀ long ∈ wide, ∃ short ∈ bound, short ≤ long

theorem narrower_none (bound : Option Time) : Narrower bound none := nofun

theorem narrower_some {short long : Time} (shorter : short ≤ long) :
    Narrower (some short) (some long) := by
  rintro _ ⟨⟩
  exact ⟨short, rfl, shorter⟩

theorem Narrower.before {bound wide : Option Time} (narrower : Narrower bound wide) {start c : Int}
    (inside : Before (bound.map fun length => start + length.toInstant) c) :
    Before (wide.map fun length => start + length.toInstant) c := by
  intro stop isStop
  obtain ⟨long, isLong, rfl⟩ := Option.map_eq_some_iff.1 isStop
  obtain ⟨short, isShort, shorter⟩ := narrower long isLong
  have := inside _ (Option.map_eq_some_iff.2 ⟨short, isShort, rfl⟩)
  have := Time.toInstant_le_iff.2 shorter
  omega

section

variable {tape : Tape α} {bound wide : Option Time} {time : Time} {head : Nat}

theorem untl_holds_of_narrower (narrower : Narrower bound wide) {left right : Operand}
    (holds : (tape.untl bound left right time head).1 = .holds) :
    (tape.untl wide left right time head).1 = .holds :=
  foldForward_holds_of_wider (fun _ => narrower.before) holds

theorem eventually_upTo (tape : Tape α) (limit : Option Time) (operand : Operand) (time : Time) :
    tape.eventually (.upTo limit) operand time = tape.untl limit (.always .holds) operand time := by
  cases limit with
  | none => rfl
  | some length => rfl

theorem always_upTo (tape : Tape α) (limit : Option Time) (operand : Operand) (time : Time) :
    tape.always (.upTo limit) operand time =
      Scan.map Verdict.not (tape.untl limit (.always .holds) operand.negated time) := by
  cases limit with
  | none => rfl
  | some length => rfl

variable [DecidableEq α]

theorem evaluate_untl_of_narrower (narrower : Narrower bound wide) {l r : Formula α}
    (holds : (tape.evaluate (.untl bound l r) time head).1 = .holds) :
    (tape.evaluate (.untl wide l r) time head).1 = .holds :=
  untl_holds_of_narrower narrower holds

theorem evaluate_eventually_of_narrower (narrower : Narrower bound wide) {f : Formula α}
    (holds : (tape.evaluate (.eventually (.upTo bound) f) time head).1 = .holds) :
    (tape.evaluate (.eventually (.upTo wide) f) time head).1 = .holds := by
  rw [evaluate_eventually, eventually_upTo] at holds ⊢
  exact untl_holds_of_narrower narrower holds

/-- What fails to hold throughout a window fails to hold throughout any wider one. -/
theorem evaluate_always_fails_of_narrower (narrower : Narrower bound wide) {f : Formula α}
    (fails : (tape.evaluate (.always (.upTo bound) f) time head).1 = .fails) :
    (tape.evaluate (.always (.upTo wide) f) time head).1 = .fails := by
  rw [evaluate_always, always_upTo] at fails ⊢
  exact Verdict.not_eq_fails_iff.2
    (untl_holds_of_narrower narrower (Verdict.not_eq_fails_iff.1 fails))

end

/-- What holds throughout a window holds throughout any narrower one: if the trace covers the one,
it covers the other, whatever the order of its events. -/
theorem evaluate_always_holds_of_wider [DecidableEq α] {events : List (Event α)} {short long : Time}
    (shorter : short ≤ long) {f : Formula α} {time : Time} {head : Nat}
    (onTape : (ofEvents events).OnTape head)
    (holds : ((ofEvents events).evaluate (.always (.within long) f) time head).1 = .holds) :
    ((ofEvents events).evaluate (.always (.within short) f) time head).1 = .holds := by
  have stays := (timed_operand (ofEvents events) f).negated.stays
  have ends : time.toInstant + short.toInstant ≤ time.toInstant + long.toInstant :=
    Int.add_le_add_left (Time.toInstant_le_iff.2 shorter) _
  exact Verdict.not_eq_holds_iff.2
    (foldForward_fails_of_narrower stays ends onTape (Verdict.not_eq_holds_iff.1 holds))

end Tape

namespace Cursor

variable [DecidableEq α]

/-- Verdicts over settled events, whatever their order and wherever the cursor stands, are monotone
in the bound: what came about within a bound, or failed to last throughout it, did so within any
wider one and within none; what lasted throughout a bound lasted throughout any narrower one. -/
theorem evaluate_monotone {cursor : Cursor} {ring : Ring α} {events : List (Event α)}
    (shows : cursor.reader.Shows ring events)
    (valid : Valid cursor.reader ring cursor.position) {short long : Time} (shorter : short ≤ long)
    (l r f : Formula α) (time : Time) :
    ((cursor.evaluate ring (.untl (some short) l r) time).1 = .holds →
      (cursor.evaluate ring (.untl (some long) l r) time).1 = .holds ∧
        (cursor.evaluate ring (.untl none l r) time).1 = .holds) ∧
    ((cursor.evaluate ring (.eventually (.within short) f) time).1 = .holds →
      (cursor.evaluate ring (.eventually (.within long) f) time).1 = .holds ∧
        (cursor.evaluate ring (.eventually .unbounded f) time).1 = .holds) ∧
    ((cursor.evaluate ring (.always (.within long) f) time).1 = .holds →
      (cursor.evaluate ring (.always (.within short) f) time).1 = .holds) ∧
    ((cursor.evaluate ring (.always (.within short) f) time).1 = .fails →
      (cursor.evaluate ring (.always (.within long) f) time).1 = .fails ∧
        (cursor.evaluate ring (.always .unbounded f) time).1 = .fails) := by
  have wider := Tape.narrower_some shorter
  have widest := Tape.narrower_none (some short)
  refine ⟨fun holds => ?_, fun holds => ?_, fun holds => ?_, fun fails => ?_⟩
  · exact ⟨Tape.evaluate_untl_of_narrower wider holds, Tape.evaluate_untl_of_narrower widest holds⟩
  · exact ⟨Tape.evaluate_eventually_of_narrower wider holds,
      Tape.evaluate_eventually_of_narrower widest holds⟩
  · have onTape := onTape_consumed shows valid
    unfold evaluate Cursor.onTape at holds ⊢
    rw [shows.tape_eq] at holds ⊢
    exact Tape.evaluate_always_holds_of_wider shorter onTape holds
  · exact ⟨Tape.evaluate_always_fails_of_narrower wider fails,
      Tape.evaluate_always_fails_of_narrower widest fails⟩

theorem wrappedCursor_shows_disordered : wrappedCursor.reader.Shows disorderedRing
    [⟨true, .ofNanos 5⟩, ⟨false, .ofNanos 3⟩, ⟨true, .ofNanos 9⟩] := by
  refine ⟨rfl, fun i event atI => ?_⟩
  match i with
  | 0 | 1 | 2 =>
    cases atI
    rfl

/-- Over times that decrease: at the newest event all is settled at once, and from the second one
on nothing happens until the newest one ends the window. -/
theorem evaluate_monotone_disordered :
    let value (f : Formula Bool) (time : Time) : Verdict :=
      (wrappedCursor.evaluate disorderedRing f time).1
    value (.untl (some (.ofNanos 8)) .bot (.atom true)) (.ofNanos 9) = .holds ∧
    value (.untl none .bot (.atom true)) (.ofNanos 9) = .holds ∧
    value (.eventually (.within (.ofNanos 8)) (.atom true)) (.ofNanos 9) = .holds ∧
    value (.eventually .unbounded (.atom true)) (.ofNanos 9) = .holds ∧
    value (.always (.within .zero) (.atom false)) (.ofNanos 3) = .holds ∧
    value (.always (.within (.ofNanos 8)) (.atom false)) (.ofNanos 9) = .fails ∧
    value (.always .unbounded (.atom false)) (.ofNanos 9) = .fails := by
  have valid : Valid wrappedCursor.reader disorderedRing wrappedCursor.position := by decide
  have longer : Time.ofNanos 6 ≤ .ofNanos 8 := by decide
  have positive : Time.zero ≤ .ofNanos 6 := by decide
  obtain ⟨untl, eventually, _, _⟩ := evaluate_monotone wrappedCursor_shows_disordered valid longer
    .bot (.atom true) (.atom true) (.ofNanos 9)
  obtain ⟨_, _, _, fails⟩ := evaluate_monotone wrappedCursor_shows_disordered valid longer
    .top .top (.atom false) (.ofNanos 9)
  obtain ⟨_, _, holds, _⟩ := evaluate_monotone wrappedCursor_shows_disordered valid positive
    .top .top (.atom false) (.ofNanos 3)
  have cameAbout := untl (by cbv)
  have found := eventually (by cbv)
  have broke := fails (by cbv)
  refine ⟨cameAbout.1, cameAbout.2, found.1, found.2, holds ?_, broke.1, broke.2⟩
  let window := tape wrappedCursor.reader disorderedRing
  let never := (window.operand (.atom false)).negated
  have looked : never.value 3 1 = (.fails, 1) := by cbv
  have next : window.nextInstant 3 (shiftsOf (.always .holds) never) 1 = (some 9, 1) := by cbv
  have search : (window.foldForward (.always .holds) never (some 9) 3 1).1 = .fails := by
    rw [Tape.foldForward, if_pos (by decide), Tape.searchAhead_unsettled rfl looked rfl next]
    cbv
  exact Verdict.not_eq_holds_iff.2 search

end Cursor

end TimedTrace
