import TimedTrace.Proofs.Instants

namespace TimedTrace

variable {α : Type} {events : List (Event α)}

/-- The instant lies before the end of the window, if the window has one. -/
def Before (finish : Option Int) (c : Int) : Prop := ∀ stop ∈ finish, c < stop

/-- The answer of a forward search that nothing settles. -/
def unsettled (events : List (Event α)) : Option Int → Verdict
  | some stop => if Reaches events stop then .fails else .unknown
  | none => .unknown

/-- A search from `start` looked at an instant up to `c` which settled nothing, and no event is met
from there to `c`. -/
def Overlooked (events : List (Event α)) (shifts : List Int) (left right : Int → Verdict)
    (start c : Int) : Prop :=
  ∃ seen, start ≤ seen ∧ seen ≤ c ∧ Verdict.settle (left seen) (right seen) = none ∧
    Quiet events shifts seen c

/-- How a forward search from `start` ends: at the first instant that settles it, or without one. -/
inductive SearchEnds (events : List (Event α)) (shifts : List Int) (left right : Int → Verdict)
    (finish : Option Int) (start : Int) : Verdict → Prop
  | settled {c : Int} {verdict : Verdict} : start ≤ c → Before finish c →
      (c = start ∨ Meets events shifts c) → Verdict.settle (left c) (right c) = some verdict →
      (∀ d, start ≤ d → d < c → Overlooked events shifts left right start d) →
      SearchEnds events shifts left right finish start verdict
  | exhausted : (∀ d, start ≤ d → Before finish d → Overlooked events shifts left right start d) →
      SearchEnds events shifts left right finish start (unsettled events finish)

/-- The answer of a backward search that nothing settles. -/
def unsettledBack (events : List (Event α)) : Option Int → Verdict
  | some start => if ReachesBack events start then .fails else .unknown
  | none => .unknown

/-- A backward search looks at the instant unless it has ended before: it lies in the window, after
its start, and it meets an event or is the first one of the window. -/
def Visits (events : List (Event α)) (shifts : List Int) (start : Option Int) (c : Int) : Prop :=
  0 ≤ c ∧ (∀ border ∈ start, border < c) ∧
    (Meets events shifts c ∨ ∃ border ∈ start, c = max (border + 1) 0)

/-- A backward search from `c`, which is not looked at itself. -/
inductive SearchesBack (events : List (Event α)) (shifts : List Int) (left right : Int → Verdict)
    (start : Option Int) : Int → Verdict → Prop
  | settles {c next : Int} {verdict : Verdict} :
      IsPrevious (Visits events shifts start) c (some next) →
      Verdict.settle (left next) (right next) = some verdict →
      SearchesBack events shifts left right start c verdict
  | goesOn {c next : Int} {verdict : Verdict} :
      IsPrevious (Visits events shifts start) c (some next) →
      Verdict.settle (left next) (right next) = none →
      SearchesBack events shifts left right start next verdict →
      SearchesBack events shifts left right start c verdict
  | ends {c : Int} : IsPrevious (Visits events shifts start) c none →
      SearchesBack events shifts left right start c (unsettledBack events start)

/-- A measurement from `c` on: from an instant that meets an event to the next, with the value at
the first one for the stretch between them, up to the end of the window or the last event. -/
inductive Accumulates (events : List (Event α)) (shifts : List Int) (value : Int → Verdict)
    (finish : Int) : Int → Measure → Measure → Prop
  | done {c : Int} {measure : Measure} : finish ≤ c →
      Accumulates events shifts value finish c measure measure
  | cut {c : Int} {measure : Measure} : c < finish → IsNext (Meets events shifts) c none →
      Accumulates events shifts value finish c measure measure.taint
  | stretch {c next : Int} {measure total : Measure} : c < finish →
      IsNext (Meets events shifts) c (some next) →
      Accumulates events shifts value finish (min next finish)
        (Tape.tally measure (value c) (min next finish - c)) total →
      Accumulates events shifts value finish c measure total

theorem unsettled_ne_holds (events : List (Event α)) (finish : Option Int) :
    unsettled events finish ≠ .holds := by
  unfold unsettled
  split
  · split
    · exact nofun
    · exact nofun
  · exact nofun

theorem unsettledBack_ne_holds (events : List (Event α)) (start : Option Int) :
    unsettledBack events start ≠ .holds := by
  unfold unsettledBack
  split
  · split
    · exact nofun
    · exact nofun
  · exact nofun

theorem all_lt_iff_before {finish : Option Int} {c : Int} :
    finish.all (c < ·) = true ↔ Before finish c := by
  cases finish <;> simp [Before]

section

variable {shifts : List Int} {left right : Int → Verdict} {finish : Option Int} {start : Int}

theorem Overlooked.from {next d : Int}
    (overlooked : Overlooked events shifts left right next d) (ahead : start ≤ next) :
    Overlooked events shifts left right start d := by
  obtain ⟨seen, lower, upper, nothing, quiet⟩ := overlooked
  exact ⟨seen, ahead.trans lower, upper, nothing, quiet⟩

/-- No event is met before the next instant. -/
theorem IsNext.quiet {found : Option Int} (next : IsNext (Meets events shifts) start found) {d : Int}
    (before : ∀ instant ∈ found, d < instant) : Quiet events shifts start d := by
  intro c after upTo meets
  cases found with
  | none =>
    have := next c meets
    omega
  | some instant =>
    have := next.2.2 c meets after
    have := before instant rfl
    omega

/-- All that lies before the next instant is overlooked if the first one settles nothing. -/
theorem overlooked_of_isNext {found : Option Int}
    (nothing : Verdict.settle (left start) (right start) = none)
    (next : IsNext (Meets events shifts) start found) {d : Int} (from_start : start ≤ d)
    (before : ∀ instant ∈ found, d < instant) : Overlooked events shifts left right start d :=
  ⟨start, le_rfl, from_start, nothing, next.quiet before⟩

theorem Overlooked.not_looked {c : Int} (looked : c = start ∨ Meets events shifts c)
    (settles : Verdict.settle (left c) (right c) ≠ none) :
    ¬ Overlooked events shifts left right start c := by
  rintro ⟨seen, lower, upper, nothing, quiet⟩
  by_cases same : seen = c
  · rw [same] at nothing
    exact settles nothing
  · exact quiet c (by omega) le_rfl (looked.resolve_left (by omega))

/-- A search ends with the first of the instants it looks at that settles anything. -/
theorem SearchEnds.eq_of_first {c : Int} {verdict first : Verdict}
    (ends : SearchEnds events shifts left right finish start verdict) (lower : start ≤ c)
    (room : Before finish c) (looked : c = start ∨ Meets events shifts c)
    (settles : Verdict.settle (left c) (right c) = some first)
    (before : ∀ d, start ≤ d → d < c → d = start ∨ Meets events shifts d →
      Verdict.settle (left d) (right d) = none) : verdict = first := by
  have seen : ¬ Overlooked events shifts left right start c :=
    Overlooked.not_looked looked (by rw [settles]; exact Option.some_ne_none _)
  cases ends with
  | @settled d _ lowerD _ lookedD settlesD overlooked =>
    rcases lt_trichotomy d c with early | rfl | late
    · rw [before d lowerD early lookedD] at settlesD
      cases settlesD
    · exact Option.some.inj (settlesD.symm.trans settles)
    · exact absurd (overlooked c lower late) seen
  | exhausted overlooked => exact absurd (overlooked c lower room) seen

/-- A search that none of the instants settles that it looks at. -/
theorem SearchEnds.eq_unsettled {verdict : Verdict}
    (ends : SearchEnds events shifts left right finish start verdict)
    (never : ∀ c, start ≤ c → Before finish c → c = start ∨ Meets events shifts c →
      Verdict.settle (left c) (right c) = none) : verdict = unsettled events finish := by
  cases ends with
  | exhausted => rfl
  | @settled c _ lower room looked settles _ =>
    rw [never c lower room looked] at settles
    cases settles

/-- A search that settles nothing at first goes on from the next instant. -/
theorem SearchEnds.step {next : Int} {verdict : Verdict}
    (nothing : Verdict.settle (left start) (right start) = none)
    (isNext : IsNext (Meets events shifts) start (some next))
    (rest : SearchEnds events shifts left right finish next verdict) :
    SearchEnds events shifts left right finish start verdict := by
  have ahead := isNext.2.1
  have skipped {d : Int} (from_start : start ≤ d) (before : d < next) :
      Overlooked events shifts left right start d :=
    overlooked_of_isNext nothing isNext from_start
      fun instant same => by cases same; exact before
  cases rest with
  | settled from_next room looked settles overlooked =>
    have meets := looked.elim (fun same => same ▸ isNext.1) id
    refine .settled (ahead.le.trans from_next) room (.inr meets) settles fun d lower upper => ?_
    by_cases before : d < next
    · exact skipped lower before
    · exact (overlooked d (by omega) upper).from ahead.le
  | exhausted overlooked =>
    refine .exhausted fun d lower room => ?_
    by_cases before : d < next
    · exact skipped lower before
    · exact (overlooked d (by omega) room).from ahead.le

end

/-- The previous instant that meets an event, or the first one of the window if that is later, is
the previous one that a search looks at. -/
theorem isPrevious_stepBack {shifts : List Int} {previous : Option Int} {c : Int}
    (start : Option Int)
    (isPrevious : IsPrevious (fun point => 0 ≤ point ∧ Meets events shifts point) c previous) :
    IsPrevious (Visits events shifts start) c
      (Tape.stepBack previous (start.map fun start => (start + 1).toNat) c) := by
  cases start with
  | none =>
    refine isPrevious.congr fun point => ?_
    simp [Visits]
  | some start =>
    have early {point : Int} (lower : start < point) (meets : 0 ≤ point ∧ Meets events shifts point)
        (before : point < c) : ∃ instant ∈ previous, point ≤ instant := by
      cases previous with
      | none =>
        have := isPrevious point meets
        omega
      | some instant => exact ⟨instant, rfl, isPrevious.2.2 point meets before⟩
    dsimp only [Option.map_some, Tape.stepBack]
    split
    · rename_i inside
      obtain ⟨instant, rfl, after⟩ := (Option.any_eq_true ..).1 inside
      have := of_decide_eq_true after
      obtain ⟨⟨nonnegative, meets⟩, before, last⟩ := isPrevious
      refine ⟨⟨nonnegative, fun _ same => ?_, .inl meets⟩, before, ?_⟩
      · cases same
        omega
      · rintro point ⟨lower, _, here | ⟨border, same, rfl⟩⟩ upper
        · exact last point ⟨lower, here⟩ upper
        · cases same
          omega
    · rename_i outside
      have behind {instant : Int} (found : instant ∈ previous) : instant < (start + 1).toNat := by
        subst found
        exact Int.not_le.1 (mt decide_eq_true outside)
      have first : max (start + 1) 0 = (start + 1).toNat := by omega
      split
      · refine ⟨⟨by omega, fun _ same => ?_, .inr ⟨start, rfl, first.symm⟩⟩, by omega, ?_⟩
        · cases same
          omega
        · rintro point ⟨lower, after, here | ⟨border, same, rfl⟩⟩ upper
          · obtain ⟨instant, found, upTo⟩ := early (after start rfl) ⟨lower, here⟩ upper
            have := behind found
            omega
          · cases same
            omega
      · rintro point ⟨lower, after, _⟩
        have := after start rfl
        omega

section

variable {shifts : List Int} {left right : Int → Verdict} {start : Option Int} {c : Int}
  {verdict : Verdict}

/-- A backward search that none of the instants settles that it looks at. -/
theorem SearchesBack.eq_unsettled (searches : SearchesBack events shifts left right start c verdict)
    (never : ∀ d, d < c → Visits events shifts start d →
      Verdict.settle (left d) (right d) = none) : verdict = unsettledBack events start := by
  induction searches with
  | settles steps settles =>
    rw [never _ steps.2.1 steps.1] at settles
    cases settles
  | goesOn steps _ _ ih => exact ih fun d before => never d (before.trans steps.2.1)
  | ends _ => rfl

/-- A backward search that comes to hold has found an instant. -/
theorem SearchesBack.exists_of_holds
    (searches : SearchesBack events shifts left right start c verdict)
    (isHolds : verdict = .holds) :
    ∃ d, d < c ∧ Visits events shifts start d ∧ right d = .holds := by
  induction searches with
  | settles steps settles =>
    rw [isHolds] at settles
    exact ⟨_, steps.2.1, steps.1, Verdict.settle_eq_holds_iff.1 settles⟩
  | goesOn steps _ _ ih =>
    obtain ⟨d, before, visits, holds⟩ := ih isHolds
    exact ⟨d, before.trans steps.2.1, visits, holds⟩
  | ends _ => exact absurd isHolds (unsettledBack_ne_holds events start)

/-- A search back for something comes to hold if an instant is found on the way, and all is known
that is looked at before. -/
theorem SearchesBack.holds_of {d : Int}
    (searches : SearchesBack events shifts (fun _ => .holds) right start c verdict) (before : d < c)
    (visits : Visits events shifts start d) (holds : right d = .holds)
    (known : ∀ x, d < x → Visits events shifts start x → right x ≠ .unknown) :
    verdict = .holds := by
  induction searches with
  | @settles c next _ steps settles =>
    have passed := steps.2.2 d visits before
    have decided : right next ≠ .unknown := by
      by_cases same : d = next
      · rw [← same, holds]
        exact Verdict.holds_ne_unknown
      · exact known next (by omega) steps.1
    cases found : right next with
    | holds =>
      rw [found] at settles
      exact (Option.some.inj settles).symm
    | fails =>
      rw [found] at settles
      cases settles
    | unknown => exact absurd found decided
  | @goesOn c next _ steps nothing _ ih =>
    have passed := steps.2.2 d visits before
    refine ih (lt_of_le_of_ne passed ?_)
    rintro rfl
    rw [holds] at nothing
    cases nothing
  | ends steps =>
    have := steps d visits
    omega

end

namespace Tape

theorem unsettledAhead_yields (events : List (Event α)) (finish : Option Int) :
    (ofEvents events).Yields ((ofEvents events).unsettledAhead finish)
      (unsettled events finish) := by
  cases finish with
  | none => exact yields_answer _ _
  | some stop =>
    intro head onTape
    obtain ⟨last, run, lastOn⟩ := newest_yields events head onTape
    refine ⟨last, ?_, lastOn⟩
    have same : (events.getLast?.map fun event => event.time.toInstant).any (stop ≤ ·) = true ↔
        Reaches events stop := by
      unfold Reaches
      cases events.getLast? <;> simp
    simp only [unsettledAhead, run, unsettled, same]

section

variable {tape : Tape α} {left right : Operand} {shifts : Thunk (List Int)} {finish : Option Int}
  {c : Int} {head middle stop last : Nat} {leftValue rightValue : Verdict}

theorem searchAhead_settled {verdict : Verdict} (leftRun : left.value c head = (leftValue, middle))
    (rightRun : right.value c middle = (rightValue, stop))
    (settles : Verdict.settle leftValue rightValue = some verdict) :
    tape.searchAhead left right shifts finish c head = (verdict, stop) := by
  rw [searchAhead]
  simp only [leftRun, rightRun, settles]

theorem searchAhead_unsettled {found : Option Int}
    (leftRun : left.value c head = (leftValue, middle))
    (rightRun : right.value c middle = (rightValue, stop))
    (nothing : Verdict.settle leftValue rightValue = none)
    (foundRun : tape.nextInstant c shifts.get stop = (found, last)) :
    tape.searchAhead left right shifts finish c head =
      match found with
      | some next =>
        if finish.all (next < ·) then tape.searchAhead left right shifts finish next last
        else tape.unsettledAhead finish last
      | none => tape.unsettledAhead finish last := by
  have sameRun : tape.nextInstant c shifts.get (right.value c (left.value c head).2).2 =
      (found, last) := by
    rw [leftRun, rightRun]
    exact foundRun
  rw [searchAhead]
  simp only [leftRun, rightRun, nothing]
  split
  · rename_i otherRun
    cases sameRun.symm.trans otherRun
    rfl
  · rename_i otherRun
    cases sameRun.symm.trans otherRun
    rfl

end

section

variable {left right : Operand} {l r : Int → Verdict}

/-- How a forward search ends that has an instant to look at. -/
theorem searchAhead_yields (ordered : Ordered events)
    (leftYields : ∀ c, (ofEvents events).Yields (left.value c) (l c))
    (rightYields : ∀ c, (ofEvents events).Yields (right.value c) (r c)) (shifts : Thunk (List Int))
    (finish : Option Int) (c : Int) (room : Before finish c) :
    ∃ verdict,
      (ofEvents events).Yields ((ofEvents events).searchAhead left right shifts finish c) verdict ∧
        SearchEnds events shifts.get l r finish c verdict := by
  cases settles : Verdict.settle (l c) (r c) with
  | some verdict =>
    refine ⟨verdict, fun head onTape => ?_,
      .settled le_rfl room (.inl rfl) settles fun d lower upper => absurd lower (by omega)⟩
    obtain ⟨middle, leftRun, middleOn⟩ := leftYields c head onTape
    obtain ⟨stop, rightRun, stopOn⟩ := rightYields c middle middleOn
    exact ⟨stop, searchAhead_settled leftRun rightRun settles, stopOn⟩
  | none =>
    obtain ⟨found, foundYields, isNext⟩ := nextInstant_yields ordered c shifts.get
    by_cases goesOn : ∃ next ∈ found, Before finish next
    · obtain ⟨next, rfl, nextRoom⟩ := goesOn
      obtain ⟨_, firstRun, _⟩ := foundYields 0 (onTape_zero _)
      have := instantsLeft_lt firstRun
      obtain ⟨verdict, restYields, rest⟩ :=
        searchAhead_yields ordered leftYields rightYields shifts finish next nextRoom
      refine ⟨verdict, fun head onTape => ?_, rest.step settles isNext⟩
      obtain ⟨middle, leftRun, middleOn⟩ := leftYields c head onTape
      obtain ⟨stop, rightRun, stopOn⟩ := rightYields c middle middleOn
      obtain ⟨last, foundRun, lastOn⟩ := foundYields stop stopOn
      obtain ⟨final, restRun, finalOn⟩ := restYields last lastOn
      rw [searchAhead_unsettled leftRun rightRun settles foundRun]
      dsimp only
      rw [if_pos (all_lt_iff_before.2 nextRoom)]
      exact ⟨final, restRun, finalOn⟩
    · refine ⟨unsettled events finish, fun head onTape => ?_, .exhausted fun d lower upper => ?_⟩
      · obtain ⟨middle, leftRun, middleOn⟩ := leftYields c head onTape
        obtain ⟨stop, rightRun, stopOn⟩ := rightYields c middle middleOn
        obtain ⟨last, foundRun, lastOn⟩ := foundYields stop stopOn
        rw [searchAhead_unsettled leftRun rightRun settles foundRun]
        cases found with
        | none => exact unsettledAhead_yields events finish last lastOn
        | some next =>
          dsimp only
          rw [if_neg fun room => goesOn ⟨next, rfl, all_lt_iff_before.1 room⟩]
          exact unsettledAhead_yields events finish last lastOn
      · refine overlooked_of_isNext settles isNext lower fun instant isFound => ?_
        by_contra beyond
        exact goesOn ⟨instant, isFound, fun stop isStop => by
          have := upper stop isStop
          omega⟩
termination_by instantsLeft shifts.get c

/-- How a forward search ends, be its window empty or not. -/
theorem foldForward_yields (ordered : Ordered events)
    (leftYields : ∀ c, (ofEvents events).Yields (left.value c) (l c))
    (rightYields : ∀ c, (ofEvents events).Yields (right.value c) (r c)) (finish : Option Int)
    (c : Int) :
    ∃ verdict,
      (ofEvents events).Yields ((ofEvents events).foldForward left right finish c) verdict ∧
        SearchEnds events (shiftsOf left right) l r finish c verdict := by
  unfold foldForward
  by_cases room : Before finish c
  · rw [if_pos (all_lt_iff_before.2 room)]
    exact searchAhead_yields ordered leftYields rightYields _ finish c room
  · rw [if_neg (mt all_lt_iff_before.1 room)]
    refine ⟨_, unsettledAhead_yields events finish, .exhausted fun d lower upper => ?_⟩
    exact absurd (fun stop isStop => lower.trans_lt (upper stop isStop)) room

theorem unsettledBehind_yields (events : List (Event α)) (start : Option Int) :
    (ofEvents events).Yields ((ofEvents events).unsettledBehind start)
      (unsettledBack events start) := by
  cases start with
  | none => exact yields_answer _ Verdict.unknown
  | some start =>
    have same : ((ofEvents events).timeAt 0).any (· ≤ start) = true ↔ ReachesBack events start := by
      rw [timeAt_ofEvents, ReachesBack, List.head?_eq_getElem?]
      cases events[0]? <;> simp
    by_cases nonnegative : 0 ≤ start
    · refine fun head _ => ⟨0, ?_, onTape_zero _⟩
      simp only [unsettledBehind, if_pos nonnegative, oldest, unsettledBack, same]
    · refine fun head onTape => ⟨head, ?_, onTape⟩
      have short : ¬ ReachesBack events start := mt ReachesBack.nonneg nonnegative
      simp only [unsettledBehind, if_neg nonnegative, unsettledBack, if_neg short]

section

variable {tape : Tape α} {shifts : List Int} {start : Option Int} {c : Int} {head last : Nat}
  {previous : Option Int} (foundRun : tape.previousInstant c shifts head = (previous, last))

include foundRun

theorem searchBehind_stops
    (step : stepBack previous (start.map fun start => (start + 1).toNat) c = none) :
    tape.searchBehind left right shifts start c head = tape.unsettledBehind start last := by
  rw [searchBehind]
  split
  rename_i otherRun
  cases foundRun.symm.trans otherRun
  split
  · rfl
  · rename_i other
    cases step.symm.trans other

theorem searchBehind_goes {next : Int}
    (step : stepBack previous (start.map fun start => (start + 1).toNat) c = some next) :
    tape.searchBehind left right shifts start c head =
      match Verdict.settle (left.value next last).1
          (right.value next (left.value next last).2).1 with
      | some verdict => (verdict, (right.value next (left.value next last).2).2)
      | none =>
        tape.searchBehind left right shifts start next
          (right.value next (left.value next last).2).2 := by
  rw [searchBehind]
  split
  rename_i otherRun
  cases foundRun.symm.trans otherRun
  split
  · rename_i other
    cases step.symm.trans other
  · rename_i other
    cases step.symm.trans other
    rfl

end

/-- How a backward search goes. -/
theorem searchBehind_yields (ordered : Ordered events)
    (leftYields : ∀ c, (ofEvents events).Yields (left.value c) (l c))
    (rightYields : ∀ c, (ofEvents events).Yields (right.value c) (r c)) (shifts : List Int)
    (start : Option Int) (c : Int) :
    ∃ verdict,
      (ofEvents events).Yields ((ofEvents events).searchBehind left right shifts start c)
        verdict ∧ SearchesBack events shifts l r start c verdict := by
  obtain ⟨previous, foundYields, isPrevious⟩ := previousInstant_yields ordered c shifts
  have steps := isPrevious_stepBack start isPrevious
  cases step : stepBack previous (start.map fun start => (start + 1).toNat) c with
  | none =>
    rw [step] at steps
    refine ⟨unsettledBack events start, fun head onTape => ?_, .ends steps⟩
    obtain ⟨last, foundRun, lastOn⟩ := foundYields head onTape
    rw [searchBehind_stops foundRun step]
    exact unsettledBehind_yields events start last lastOn
  | some next =>
    rw [step] at steps
    have := steps.1.1
    have := steps.2.1
    have goes {head : Nat} (onTape : (ofEvents events).OnTape head) :
        ∃ stop, (ofEvents events).OnTape stop ∧
          (ofEvents events).searchBehind left right shifts start c head =
            match Verdict.settle (l next) (r next) with
            | some verdict => (verdict, stop)
            | none => (ofEvents events).searchBehind left right shifts start next stop := by
      obtain ⟨last, foundRun, lastOn⟩ := foundYields head onTape
      obtain ⟨middle, leftRun, middleOn⟩ := leftYields next last lastOn
      obtain ⟨stop, rightRun, stopOn⟩ := rightYields next middle middleOn
      refine ⟨stop, stopOn, ?_⟩
      rw [searchBehind_goes foundRun step]
      simp only [leftRun, rightRun]
    cases settles : Verdict.settle (l next) (r next) with
    | some verdict =>
      refine ⟨verdict, fun head onTape => ?_, .settles steps settles⟩
      obtain ⟨stop, stopOn, run⟩ := goes onTape
      exact ⟨stop, by rw [run, settles], stopOn⟩
    | none =>
      obtain ⟨verdict, restYields, rest⟩ :=
        searchBehind_yields ordered leftYields rightYields shifts start next
      refine ⟨verdict, fun head onTape => ?_, .goesOn steps settles rest⟩
      obtain ⟨stop, stopOn, run⟩ := goes onTape
      rw [run, settles]
      exact restYields stop stopOn
termination_by c.toNat

end

theorem accumulate_of_run {tape : Tape α} {operand : Operand} {shifts : List Int} {finish c : Int}
    {measure : Measure} {head last : Nat} {found : Option Int} (within : c < finish)
    (foundRun : tape.nextInstant c shifts head = (found, last)) :
    tape.accumulate operand shifts finish c measure head =
      match found with
      | none => (measure.taint, last)
      | some next =>
        tape.accumulate operand shifts finish (min next finish)
          (tally measure (operand.value c last).1 (min next finish - c))
          (operand.value c last).2 := by
  rw [accumulate, dif_pos within]
  split
  · rename_i otherRun
    cases foundRun.symm.trans otherRun
    rfl
  · rename_i otherRun
    cases foundRun.symm.trans otherRun
    rfl

/-- How a measurement goes. -/
theorem accumulate_yields (ordered : Ordered events) {operand : Operand} {value : Int → Verdict}
    (yields : ∀ c, (ofEvents events).Yields (operand.value c) (value c)) (shifts : List Int)
    (finish c : Int) (measure : Measure) :
    ∃ total,
      (ofEvents events).Yields ((ofEvents events).accumulate operand shifts finish c measure)
        total ∧ Accumulates events shifts value finish c measure total := by
  by_cases within : c < finish
  · obtain ⟨found, foundYields, isNext⟩ := nextInstant_yields ordered c shifts
    cases found with
    | none =>
      refine ⟨measure.taint, fun head onTape => ?_, .cut within isNext⟩
      obtain ⟨last, foundRun, lastOn⟩ := foundYields head onTape
      rw [accumulate_of_run within foundRun]
      exact ⟨last, rfl, lastOn⟩
    | some next =>
      have := isNext.2.1
      obtain ⟨total, restYields, rest⟩ := accumulate_yields ordered yields shifts finish
        (min next finish) (tally measure (value c) (min next finish - c))
      refine ⟨total, fun head onTape => ?_, .stretch within isNext rest⟩
      obtain ⟨last, foundRun, lastOn⟩ := foundYields head onTape
      obtain ⟨stop, run, stopOn⟩ := yields c last lastOn
      rw [accumulate_of_run within foundRun]
      simp only [run]
      exact restYields stop stopOn
  · refine ⟨measure, fun head onTape => ⟨head, ?_, onTape⟩, .done (Int.not_lt.1 within)⟩
    rw [accumulate, dif_neg within]
termination_by (finish - c).toNat

end Tape

end TimedTrace
