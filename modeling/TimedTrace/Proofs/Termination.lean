import TimedTrace.Proofs.Search
import Mathlib.Data.Finset.Prod
import Mathlib.Data.List.ReduceOption

namespace TimedTrace

/-- What one round of a loop does: it may look at something, and either it ends the loop with a
result or it leaves a state for the next round. -/
abbrev Loop (σ ι ρ : Type) := σ → Option ι × (ρ ⊕ σ)

namespace Loop

variable {σ ι ρ : Type} {round : Loop σ ι ρ}

/-- The rounds of a loop from a state on, each with what it looked at, down to one that ends it. -/
inductive Ends (round : Loop σ ι ρ) : σ → List (Option ι) → ρ → Prop
  | last {state : σ} {looked : Option ι} {result : ρ} :
      round state = (looked, .inl result) → Ends round state [looked] result
  | next {state following : σ} {looked : Option ι} {log : List (Option ι)} {result : ρ} :
      round state = (looked, .inr following) → Ends round following log result →
      Ends round state (looked :: log) result

/-- The loop ends with the result after no more rounds than the limit. What it looked at comes in
the given order, and all of it is in place. -/
def EndsWithin (round : Loop σ ι ρ) (before : ι → ι → Prop) (InPlace : ι → Prop) (limit : Nat)
    (state : σ) (result : ρ) : Prop :=
  ∃ log, Ends round state log result ∧ log.reduceOption.Pairwise before ∧
    (∀ looked ∈ log.reduceOption, InPlace looked) ∧ log.length ≤ limit

/-- A function that goes by the rounds of a loop is what the loop ends with, if something gets less
from round to round. -/
theorem exists_ends (run : σ → ρ) (left : σ → Nat)
    (unfolds : ∀ state, run state = (round state).2.elim id run)
    (shrinks : ∀ {state following looked}, round state = (looked, .inr following) →
      left following < left state) (state : σ) : ∃ log, Ends round state log (run state) := by
  rw [unfolds]
  rcases step : round state with ⟨looked, result | following⟩
  · exact ⟨[looked], .last step⟩
  · have := shrinks step
    obtain ⟨log, ends⟩ := exists_ends run left unfolds shrinks following
    exact ⟨looked :: log, .next step ends⟩
termination_by left state

/-- If every round looks at something that is `Ahead` of its state, and leaves ahead only what was
and comes after that, then the loop looks at one thing after another. -/
theorem Ends.pairwise {before : ι → ι → Prop} {Ahead : σ → ι → Prop} {state : σ}
    {log : List (Option ι)} {result : ρ} (ends : Ends round state log result)
    (looks : ∀ {state looked outcome}, round state = (some looked, outcome) → Ahead state looked)
    (leaves : ∀ {state following looked later}, round state = (looked, .inr following) →
      Ahead following later → Ahead state later ∧ ∀ now ∈ looked, before now later) :
    log.reduceOption.Pairwise before ∧ ∀ looked ∈ log.reduceOption, Ahead state looked := by
  induction ends with
  | @last state looked result step =>
    cases looked with
    | none => simp
    | some looked =>
      have := looks step
      simpa using this
  | @next state following looked log result step _ ih =>
    obtain ⟨ordered, ahead⟩ := ih
    cases looked with
    | none => exact ⟨ordered, fun later member => (leaves step (ahead later member)).1⟩
    | some looked =>
      rw [List.reduceOption_cons_of_some]
      refine ⟨List.pairwise_cons.2 ⟨fun later member => ?_, ordered⟩, fun later member => ?_⟩
      · exact (leaves step (ahead later member)).2 looked rfl
      · rcases List.mem_cons.1 member with rfl | after
        · exact looks step
        · exact (leaves step (ahead later after)).1

/-- Only the last round may have looked at nothing. -/
theorem Ends.length_le {state : σ} {log : List (Option ι)} {result : ρ}
    (ends : Ends round state log result)
    (looks : ∀ {state following}, round state ≠ (none, .inr following)) :
    log.length ≤ log.reduceOption.length + 1 := by
  induction ends with
  | last _ => simp
  | @next state following looked log result step _ ih =>
    cases looked with
    | none => exact absurd step looks
    | some looked => simpa using ih

/-- A loop looks at no more than its state allows for, if each look is paid for. -/
theorem Ends.looks_le {state : σ} {log : List (Option ι)} {result : ρ}
    (ends : Ends round state log result) (allowance : σ → Nat)
    (stops : ∀ {state looked result}, round state = (looked, .inl result) →
      looked.toList.length ≤ allowance state)
    (goesOn : ∀ {state following looked}, round state = (looked, .inr following) →
      allowance following + looked.toList.length ≤ allowance state) :
    log.reduceOption.length ≤ allowance state := by
  induction ends with
  | @last state looked result step =>
    have := stops step
    cases looked with
    | none => simp
    | some looked => simpa using this
  | @next state following looked log result step _ ih =>
    have := goesOn step
    cases looked with
    | none => simpa using ih.trans this
    | some looked =>
      simp only [List.reduceOption_cons_of_some, List.length_cons]
      simp only [Option.toList_some, List.length_singleton] at this
      omega

end Loop

namespace Tape

variable {α : Type} {tape : Tape α} {shifts : List Int}

/-- An event that can be read meets a shift at the instant. -/
def Meets (tape : Tape α) (shifts : List Int) (c : Int) : Prop :=
  ∃ position instant, tape.timeAt position = some instant ∧ ∃ shift ∈ shifts, c = instant - shift

theorem lt_size_of_timeAt {position : Nat} {instant : Int}
    (found : tape.timeAt position = some instant) : position < tape.size := by
  obtain ⟨event, atPosition, _⟩ := timeAt_eq_some_iff.1 found
  by_contra beyond
  have absent : tape.cells[position]? = none :=
    Array.getElem?_eq_none (by simpa [size] using beyond)
  simp [read, absent] at atPosition

theorem exists_timeAt_of_firstAfter {instant e : Int} {head : Nat}
    (found : (tape.firstAfter instant head).1 = some e) :
    ∃ position, tape.timeAt position = some e := by
  unfold firstAfter at found
  split at found
  · split at found
    · exact ⟨_, found⟩
    · exact ⟨0, (Option.filter_eq_some_iff.1 found).1⟩
  · split at found
    · exact ⟨0, found⟩
    · cases found

theorem exists_timeAt_of_lastBefore {instant e : Int} {head : Nat}
    (found : (tape.lastBefore instant head).1 = some e) :
    ∃ position, tape.timeAt position = some e := by
  unfold lastBefore at found
  dsimp only at found
  split at found
  · split at found
    · exact ⟨_, found⟩
    · cases found
  · split at found
    · split at found
      · exact ⟨_, found⟩
      · cases found
    · cases found

/-- The next instant lies ahead, and an event meets a shift there. -/
theorem nextInstant_meets {c next : Int} {head last : Nat}
    (run : tape.nextInstant c shifts head = (some next, last)) :
    c < next ∧ tape.Meets shifts next := by
  have found : (tape.nextInstant c shifts head).1 = some next := congrArg Prod.fst run
  refine ⟨(nextInstant_eq_some found).1, ?_⟩
  rcases bestOf_eq_some (fun a b => by omega) found with before | ⟨shift, member, start, here⟩
  · cases before
  · obtain ⟨e, atShift, rfl⟩ := Option.map_eq_some_iff.1 here
    obtain ⟨position, atPosition⟩ := exists_timeAt_of_firstAfter atShift
    exact ⟨position, e, atPosition, shift, member, rfl⟩

/-- The previous instant lies behind, and an event meets a shift there. -/
theorem previousInstant_meets {c previous : Int} {head last : Nat}
    (run : tape.previousInstant c shifts head = (some previous, last)) :
    (0 ≤ previous ∧ previous < c) ∧ tape.Meets shifts previous := by
  have found : (tape.previousInstant c shifts head).1 = some previous := congrArg Prod.fst run
  refine ⟨previousInstant_eq_some found, ?_⟩
  rcases bestOf_eq_some (fun a b => by omega) found with before | ⟨shift, member, start, here⟩
  · cases before
  · obtain ⟨shifted, _⟩ := Option.filter_eq_some_iff.1 here
    obtain ⟨e, atShift, rfl⟩ := Option.map_eq_some_iff.1 shifted
    obtain ⟨position, atPosition⟩ := exists_timeAt_of_lastBefore atShift
    exact ⟨position, e, atPosition, shift, member, rfl⟩

/-- The meeting of each pair of a cell and a shift. -/
def meetings (tape : Tape α) (shifts : List Int) : Finset Int :=
  (Finset.range tape.size ×ˢ shifts.toFinset).image fun pair =>
    (tape.timeAt pair.1).getD 0 - pair.2

theorem card_meetings_le (tape : Tape α) (shifts : List Int) :
    (tape.meetings shifts).card ≤ tape.size * shifts.toFinset.card := by
  refine Finset.card_image_le.trans ?_
  rw [Finset.card_product, Finset.card_range]

theorem Meets.mem_meetings {c : Int} (meets : tape.Meets shifts c) : c ∈ tape.meetings shifts := by
  obtain ⟨i, instant, atI, shift, inShifts, rfl⟩ := meets
  refine Finset.mem_image.2 ⟨(i, shift), ?_, ?_⟩
  · exact Finset.mem_product.2
      ⟨Finset.mem_range.2 (lt_size_of_timeAt atI), List.mem_toFinset.2 inShifts⟩
  · dsimp only
    rw [atI, Option.getD_some]

/-- The instants at which an event meets a shift are no more than pairs of a cell and a shift. -/
theorem length_le_of_meets {visited : List Int} {special : Int} (nodup : visited.Nodup)
    (inPlace : ∀ c ∈ visited, c = special ∨ tape.Meets shifts c) :
    visited.length ≤ tape.size * shifts.toFinset.card + 1 := by
  have inside : visited.toFinset ⊆ insert special (tape.meetings shifts) := by
    intro c member
    rcases inPlace c (List.mem_toFinset.1 member) with rfl | meets
    · exact Finset.mem_insert_self _ _
    · exact Finset.mem_insert_of_mem meets.mem_meetings
  calc visited.length = visited.toFinset.card := (List.toFinset_card_of_nodup nodup).symm
    _ ≤ (insert special (tape.meetings shifts)).card := Finset.card_le_card inside
    _ ≤ (tape.meetings shifts).card + 1 := Finset.card_insert_le _ _
    _ ≤ tape.size * shifts.toFinset.card + 1 :=
      Nat.add_le_add_right (tape.card_meetings_le shifts) 1

/-- A loop over instants ends within as many rounds as there are pairs of a cell and a shift, and
two: one for the first instant of the window, and one that looks at nothing. -/
theorem endsWithin_of_meets {σ ρ : Type} {round : Loop σ Int ρ} {before : Int → Int → Prop}
    {Ahead : σ → Int → Prop} {state : σ} {log : List (Option Int)} {result : ρ} {special : Int}
    {InPlace : Int → Prop} (ends : Loop.Ends round state log result)
    (looks : ∀ {state looked outcome}, round state = (some looked, outcome) → Ahead state looked)
    (leaves : ∀ {state following looked later}, round state = (looked, .inr following) →
      Ahead following later → Ahead state later ∧ ∀ now ∈ looked, before now later)
    (goesOn : ∀ {state following}, round state ≠ (none, .inr following))
    (irreflexive : ∀ c d, before c d → c ≠ d)
    (places : ∀ c, Ahead state c → InPlace c)
    (few : ∀ c, InPlace c → c = special ∨ tape.Meets shifts c) :
    Loop.EndsWithin round before InPlace (tape.size * shifts.toFinset.card + 2) state result := by
  obtain ⟨ordered, ahead⟩ := ends.pairwise looks leaves
  refine ⟨log, ends, ordered, fun c member => places c (ahead c member), ?_⟩
  have nodup : log.reduceOption.Nodup := ordered.imp fun {c d} => irreflexive c d
  have := length_le_of_meets nodup fun c member => few c (places c (ahead c member))
  have := ends.length_le goesOn
  omega

section

variable {left right : Operand} {finish start : Option Int}

/-- A round of a forward search looks at the instant that it stands at. -/
def aheadRound (tape : Tape α) (left right : Operand) (shifts : List Int) (finish : Option Int) :
    Loop (Int × Nat) Int (Verdict × Nat) := fun (c, head) =>
  let (leftValue, head) := left.value c head
  let (rightValue, head) := right.value c head
  match Verdict.settle leftValue rightValue with
  | some verdict => (some c, .inl (verdict, head))
  | none =>
    match tape.nextInstant c shifts head with
    | (some next, head) =>
      if finish.all (next < ·) then (some c, .inr (next, head))
      else (some c, .inl (tape.unsettledAhead finish head))
    | (none, head) => (some c, .inl (tape.unsettledAhead finish head))

/-- A round of a backward search looks at the instant that it steps back to, if there is one. -/
def behindRound (tape : Tape α) (left right : Operand) (shifts : List Int) (start : Option Int) :
    Loop (Int × Nat) Int (Verdict × Nat) := fun (c, head) =>
  let (previous, head) := tape.previousInstant c shifts head
  match stepBack previous (start.map fun start => (start + 1).toNat) c with
  | none => (none, .inl (tape.unsettledBehind start head))
  | some c =>
    let (leftValue, head) := left.value c head
    let (rightValue, head) := right.value c head
    match Verdict.settle leftValue rightValue with
    | some verdict => (some c, .inl (verdict, head))
    | none => (some c, .inr (c, head))

/-- A round of a measurement looks at the instant that it stands at, unless that is the end. -/
def measureRound (tape : Tape α) (operand : Operand) (shifts : List Int) (finish : Int) :
    Loop (Int × Measure × Nat) Int (Measure × Nat) := fun (c, measure, head) =>
  if c < finish then
    match tape.nextInstant c shifts head with
    | (none, head) => (some c, .inl (measure.taint, head))
    | (some next, head) =>
      let stop := min next finish
      let (verdict, head) := operand.value c head
      (some c, .inr (stop, tally measure verdict (stop - c), head))
  else (none, .inl (measure, head))

theorem aheadRound_looks {state : Int × Nat} {looked : Option Int}
    {outcome : (Verdict × Nat) ⊕ (Int × Nat)}
    (step : tape.aheadRound left right shifts finish state = (looked, outcome)) :
    looked = some state.1 := by
  unfold aheadRound at step
  dsimp only at step
  split at step
  · cases step
    rfl
  · split at step
    · split at step
      · cases step
        rfl
      · cases step
        rfl
    · cases step
      rfl

theorem aheadRound_goesOn {state following : Int × Nat} {looked : Option Int}
    (step : tape.aheadRound left right shifts finish state = (looked, .inr following)) :
    ∃ head, tape.nextInstant state.1 shifts head = (some following.1, following.2) := by
  unfold aheadRound at step
  dsimp only at step
  split at step
  · cases step
  · split at step
    · rename_i run
      split at step
      · cases step
        exact ⟨_, run⟩
      · cases step
    · cases step

/-- What a forward search may look at when it stands at an instant: that one, and those ahead where
an event meets a shift. -/
def Ahead (tape : Tape α) (shifts : List Int) (c d : Int) : Prop :=
  d = c ∨ c < d ∧ tape.Meets shifts d

/-- What may be looked at from the next instant may be looked at from here, and comes later. -/
theorem Ahead.of_next {c next d : Int} (further : c < next) (meets : tape.Meets shifts next)
    (ahead : tape.Ahead shifts next d) : tape.Ahead shifts c d ∧ c < d := by
  have beyond : c < d ∧ tape.Meets shifts d := by
    rcases ahead with rfl | ⟨after, here⟩
    · exact ⟨further, meets⟩
    · exact ⟨further.trans after, here⟩
  exact ⟨.inr beyond, beyond.1⟩

theorem aheadRound_leaves {state following : Int × Nat} {looked : Option Int} {later : Int}
    (step : tape.aheadRound left right shifts finish state = (looked, .inr following))
    (ahead : tape.Ahead shifts following.1 later) :
    tape.Ahead shifts state.1 later ∧ ∀ now ∈ looked, now < later := by
  obtain ⟨_, run⟩ := aheadRound_goesOn step
  obtain ⟨further, meets⟩ := nextInstant_meets run
  obtain ⟨still, after⟩ := ahead.of_next further meets
  refine ⟨still, fun now isNow => ?_⟩
  cases (aheadRound_looks step).symm.trans isNow
  exact after

/-- A step back leads to the previous instant, or to the first one of the window. -/
theorem stepBack_cases {previous : Option Int} {c next : Int}
    (step : stepBack previous (start.map fun start => (start + 1).toNat) c = some next) :
    previous = some next ∨ next < c ∧ ∃ border ∈ start, next = max (border + 1) 0 := by
  cases start with
  | none => exact .inl step
  | some border =>
    dsimp only [Option.map_some, stepBack] at step
    split at step
    · exact .inl step
    · split at step
      · rename_i room
        cases step
        exact .inr ⟨room, border, rfl, by omega⟩
      · cases step

/-- What a backward search may look at when it stands at an instant: those behind where an event
meets a shift, and the first one of the window. -/
def Behind (tape : Tape α) (shifts : List Int) (start : Option Int) (c d : Int) : Prop :=
  d < c ∧ ((∃ border ∈ start, d = max (border + 1) 0) ∨ tape.Meets shifts d)

theorem behindRound_looks {state : Int × Nat} {looked : Int}
    {outcome : (Verdict × Nat) ⊕ (Int × Nat)}
    (step : tape.behindRound left right shifts start state = (some looked, outcome)) :
    0 ≤ looked ∧ tape.Behind shifts start state.1 looked := by
  unfold behindRound at step
  dsimp only at step
  split at step
  · cases step
  · rename_i next back
    have same : next = looked := by
      split at step
      · cases step
        rfl
      · cases step
        rfl
    subst same
    rcases stepBack_cases back with atPrevious | ⟨room, border, isStart, atEdge⟩
    · obtain ⟨behind, meets⟩ := previousInstant_meets (Prod.ext atPrevious rfl)
      exact ⟨behind.1, behind.2, .inr meets⟩
    · exact ⟨by omega, room, .inl ⟨border, isStart, atEdge⟩⟩

theorem behindRound_goesOn {state following : Int × Nat} {looked : Option Int}
    (step : tape.behindRound left right shifts start state = (looked, .inr following)) :
    looked = some following.1 := by
  unfold behindRound at step
  dsimp only at step
  split at step
  · cases step
  · split at step
    · cases step
    · cases step
      rfl

theorem behindRound_leaves {state following : Int × Nat} {looked : Option Int} {later : Int}
    (step : tape.behindRound left right shifts start state = (looked, .inr following))
    (behind : tape.Behind shifts start following.1 later) :
    tape.Behind shifts start state.1 later ∧ ∀ now ∈ looked, now > later := by
  cases behindRound_goesOn step
  obtain ⟨_, before, _⟩ := behindRound_looks step
  refine ⟨⟨behind.1.trans before, behind.2⟩, fun now isNow => ?_⟩
  cases isNow
  exact behind.1

theorem measureRound_looks {operand : Operand} {finish looked : Int} {state : Int × Measure × Nat}
    {outcome : (Measure × Nat) ⊕ (Int × Measure × Nat)}
    (step : tape.measureRound operand shifts finish state = (some looked, outcome)) :
    looked = state.1 ∧ state.1 < finish := by
  unfold measureRound at step
  dsimp only at step
  split at step
  · rename_i within
    split at step
    · cases step
      exact ⟨rfl, within⟩
    · cases step
      exact ⟨rfl, within⟩
  · cases step

theorem measureRound_goesOn {operand : Operand} {finish : Int}
    {state following : Int × Measure × Nat} {looked : Option Int}
    (step : tape.measureRound operand shifts finish state = (looked, .inr following)) :
    looked = some state.1 ∧ state.1 < finish ∧ ∃ next, following.1 = min next finish ∧
      state.1 < next ∧ tape.Meets shifts next := by
  unfold measureRound at step
  dsimp only at step
  split at step
  · rename_i within
    split at step
    · cases step
    · rename_i next _ run
      cases step
      exact ⟨rfl, within, next, rfl, nextInstant_meets run⟩
  · cases step

theorem measureRound_leaves {operand : Operand} {finish later : Int}
    {state following : Int × Measure × Nat} {looked : Option Int}
    (step : tape.measureRound operand shifts finish state = (looked, .inr following))
    (ahead : later < finish ∧ tape.Ahead shifts following.1 later) :
    (later < finish ∧ tape.Ahead shifts state.1 later) ∧ ∀ now ∈ looked, now < later := by
  obtain ⟨rfl, within, next, same, further, meets⟩ := measureRound_goesOn step
  obtain ⟨inside, ahead⟩ := ahead
  -- At the end of the stretch there is nothing left to look at.
  have fromNext : tape.Ahead shifts next later := by
    rcases ahead with atStop | ⟨after, here⟩
    · exact .inl (by omega)
    · exact .inr ⟨by omega, here⟩
  obtain ⟨still, after⟩ := fromNext.of_next further meets
  refine ⟨⟨inside, still⟩, fun now isNow => ?_⟩
  cases isNow
  exact after

theorem searchAhead_ends (tape : Tape α) (left right : Operand) (shifts : Thunk (List Int))
    (finish : Option Int) (state : Int × Nat) :
    ∃ log, Loop.Ends (tape.aheadRound left right shifts.get finish) state log
      (tape.searchAhead left right shifts finish state.1 state.2) := by
  refine Loop.exists_ends (fun state => tape.searchAhead left right shifts finish state.1 state.2)
    (fun state => instantsLeft shifts.get state.1) ?_ ?_ state
  · intro (c, head)
    dsimp only [aheadRound]
    cases settles : Verdict.settle (left.value c head).1
        (right.value c (left.value c head).2).1 with
    | some verdict => exact searchAhead_settled rfl rfl settles
    | none =>
      rcases run : tape.nextInstant c shifts.get (right.value c (left.value c head).2).2 with
        ⟨found, last⟩
      rw [searchAhead_unsettled rfl rfl settles run]
      cases found with
      | none => rfl
      | some next =>
        dsimp only
        split
        · rfl
        · rfl
  · intro state following looked step
    obtain ⟨_, run⟩ := aheadRound_goesOn step
    exact instantsLeft_lt run

theorem searchBehind_ends (tape : Tape α) (left right : Operand) (shifts : List Int)
    (start : Option Int) (state : Int × Nat) :
    ∃ log, Loop.Ends (tape.behindRound left right shifts start) state log
      (tape.searchBehind left right shifts start state.1 state.2) := by
  refine Loop.exists_ends (fun state => tape.searchBehind left right shifts start state.1 state.2)
    (fun state => state.1.toNat) ?_ ?_ state
  · intro (c, head)
    rcases run : tape.previousInstant c shifts head with ⟨previous, last⟩
    dsimp only [behindRound]
    rw [run]
    dsimp only
    cases back : stepBack previous (start.map fun start => (start + 1).toNat) c with
    | none => exact searchBehind_stops run back
    | some next =>
      rw [searchBehind_goes run back]
      dsimp only
      cases Verdict.settle (left.value next last).1
          (right.value next (left.value next last).2).1 with
      | none => rfl
      | some verdict => rfl
  · intro state following looked step
    cases behindRound_goesOn step
    obtain ⟨nonnegative, before, _⟩ := behindRound_looks step
    omega

theorem accumulate_ends (tape : Tape α) (operand : Operand) (shifts : List Int) (finish : Int)
    (state : Int × Measure × Nat) :
    ∃ log, Loop.Ends (tape.measureRound operand shifts finish) state log
      (tape.accumulate operand shifts finish state.1 state.2.1 state.2.2) := by
  refine Loop.exists_ends
    (fun state => tape.accumulate operand shifts finish state.1 state.2.1 state.2.2)
    (fun state => (finish - state.1).toNat) ?_ ?_ state
  · intro (c, measure, head)
    dsimp only [measureRound]
    by_cases within : c < finish
    · rcases run : tape.nextInstant c shifts head with ⟨found, last⟩
      rw [if_pos within, accumulate_of_run within run]
      cases found with
      | none => rfl
      | some next => rfl
    · rw [if_neg within, accumulate, dif_neg within]
      rfl
  · intro state following looked step
    obtain ⟨_, within, next, same, later, _⟩ := measureRound_goesOn step
    omega

/-- A forward search looks ever further ahead. -/
theorem searchAhead_endsWithin (tape : Tape α) (left right : Operand) (shifts : Thunk (List Int))
    (finish : Option Int) (c : Int) (head : Nat) :
    Loop.EndsWithin (tape.aheadRound left right shifts.get finish) (· < ·)
      (fun d => d = c ∨ tape.Meets shifts.get d) (tape.size * shifts.get.toFinset.card + 2)
      (c, head) (tape.searchAhead left right shifts finish c head) := by
  obtain ⟨log, ends⟩ := tape.searchAhead_ends left right shifts finish (c, head)
  have looks {state : Int × Nat} {looked : Int} {outcome : (Verdict × Nat) ⊕ (Int × Nat)}
      (step : tape.aheadRound left right shifts.get finish state = (some looked, outcome)) :
      tape.Ahead shifts.get state.1 looked := .inl (Option.some.inj (aheadRound_looks step))
  exact endsWithin_of_meets ends looks aheadRound_leaves
    (fun step => nomatch aheadRound_looks step) (fun _ _ => ne_of_lt)
    (fun d ahead => ahead.imp_right And.right) (fun d inPlace => inPlace)

/-- A backward search looks ever further back. -/
theorem searchBehind_endsWithin (tape : Tape α) (left right : Operand) (shifts : List Int)
    (start : Option Int) (c : Int) (head : Nat) :
    Loop.EndsWithin (tape.behindRound left right shifts start) (· > ·)
      (fun d => (∃ border ∈ start, d = max (border + 1) 0) ∨ tape.Meets shifts d)
      (tape.size * shifts.toFinset.card + 2) (c, head)
      (tape.searchBehind left right shifts start c head) := by
  obtain ⟨log, ends⟩ := tape.searchBehind_ends left right shifts start (c, head)
  have few (d : Int)
      (inPlace : (∃ border ∈ start, d = max (border + 1) 0) ∨ tape.Meets shifts d) :
      d = max (start.getD 0 + 1) 0 ∨ tape.Meets shifts d := by
    rcases inPlace with ⟨border, isStart, same⟩ | meets
    · cases isStart
      exact .inl same
    · exact .inr meets
  exact endsWithin_of_meets ends (fun step => (behindRound_looks step).2) behindRound_leaves
    (fun step => nomatch behindRound_goesOn step) (fun _ _ => ne_of_gt)
    (fun d behind => behind.2) few

/-- A measurement looks ever further ahead. -/
theorem accumulate_endsWithin (tape : Tape α) (operand : Operand) (shifts : List Int)
    (finish c : Int) (measure : Measure) (head : Nat) :
    Loop.EndsWithin (tape.measureRound operand shifts finish) (· < ·)
      (fun d => d = c ∨ tape.Meets shifts d) (tape.size * shifts.toFinset.card + 2)
      (c, measure, head) (tape.accumulate operand shifts finish c measure head) := by
  obtain ⟨log, ends⟩ := tape.accumulate_ends operand shifts finish (c, measure, head)
  have looks {state : Int × Measure × Nat} {looked : Int}
      {outcome : (Measure × Nat) ⊕ (Int × Measure × Nat)}
      (step : tape.measureRound operand shifts finish state = (some looked, outcome)) :
      looked < finish ∧ tape.Ahead shifts state.1 looked := by
    obtain ⟨rfl, within⟩ := measureRound_looks step
    exact ⟨within, .inl rfl⟩
  exact endsWithin_of_meets ends looks measureRound_leaves
    (fun step => nomatch (measureRound_goesOn step).1) (fun _ _ => ne_of_lt)
    (fun d ahead => ahead.2.imp_right And.right) (fun d inPlace => inPlace)

end

/-- The legs of a seek: back to an event that is not late, then on to the last one. -/
inductive Leg where
  | back
  | on
  deriving DecidableEq, Repr

/-- A round of a seek looks at the leg it is on if it moves the head, or would but for the end of
the tape. -/
def seekRound (tape : Tape α) (time : Time) : Loop (Leg × Nat) Leg (Except ReaderError Unit × Nat)
  | (.back, head) =>
    match tape.read head with
    | .error cause => (none, .inl (.error cause, head))
    | .ok event =>
      if event.time ≤ time then (none, .inr (.on, head))
      else
        match decrement head with
        | (.error cause, head) => (some .back, .inl (.error cause, head))
        | (.ok _, head) => (some .back, .inr (.back, head))
  | (.on, head) =>
    match tape.readNext head with
    | .ok event =>
      if event.time ≤ time then
        match tape.increment head with
        | (.error cause, head) => (some .on, .inl (.error cause, head))
        | (.ok _, head) => (some .on, .inr (.on, head))
      else (none, .inl (.ok (), head))
    | .error .unavailable => (none, .inl (.ok (), head))
    | .error cause => (none, .inl (.error cause, head))

theorem readNext_eq_ok {head : Nat} {event : Event α} (found : tape.readNext head = .ok event) :
    head + 1 < tape.size := by
  by_contra beyond
  rw [readNext_eq_unavailable (by omega)] at found
  cases found

theorem readNext_ne_unavailable {head : Nat} (room : head + 1 < tape.size) :
    tape.readNext head ≠ .error .unavailable := by
  intro absent
  have atNext : tape.cells[head + 1]? = some tape.cells[head + 1] := Array.getElem?_eq_getElem room
  unfold readNext read at absent
  rw [atNext] at absent
  split at absent
  · rename_i nothing
    cases nothing
  · cases absent
  · cases absent

theorem read_eq_ok {head : Nat} {event : Event α} (found : tape.read head = .ok event) :
    head < tape.size :=
  lt_size_of_timeAt (timeAt_eq_some_iff.2 ⟨event, found, rfl⟩)

/-- How a round of a seek goes on: the head turns, or it goes one cell back, or one on. -/
theorem seekRound_goesOn {time : Time} {state following : Leg × Nat} {looked : Option Leg}
    (step : tape.seekRound time state = (looked, .inr following)) :
    state.2 < tape.size ∧
      ((state.1 = .back ∧ following = (.on, state.2) ∧ looked = none) ∨
        (∃ head, state = (.back, head + 1) ∧ following = (.back, head) ∧ looked = some .back) ∨
        (state.1 = .on ∧ state.2 + 1 < tape.size ∧ following = (.on, state.2 + 1) ∧
          looked = some .on)) := by
  rcases state with ⟨_ | _, head⟩
  · dsimp only [seekRound] at step
    split at step
    · cases step
    · rename_i event atHead
      refine ⟨read_eq_ok atHead, ?_⟩
      split at step
      · cases step
        exact .inl ⟨rfl, rfl, rfl⟩
      · cases head with
        | zero => cases step
        | succ head =>
          cases step
          exact .inr (.inl ⟨head, rfl, rfl, rfl⟩)
  · dsimp only [seekRound] at step
    split at step
    · rename_i event atNext
      have room := readNext_eq_ok atNext
      split at step
      · rw [increment, if_pos room] at step
        cases step
        exact ⟨Nat.lt_of_succ_lt room, .inr (.inr ⟨rfl, room, rfl, rfl⟩)⟩
      · cases step
    · cases step
    · cases step

/-- A round that tries to move the head and ends the seek has found it at the first cell. -/
theorem seekRound_stops {time : Time} {state : Leg × Nat} {leg : Leg}
    {result : Except ReaderError Unit × Nat}
    (step : tape.seekRound time state = (some leg, .inl result)) :
    state = (.back, 0) ∧ 0 < tape.size := by
  rcases state with ⟨_ | _, head⟩
  · dsimp only [seekRound] at step
    split at step
    · cases step
    · rename_i event atHead
      split at step
      · cases step
      · cases head with
        | zero => exact ⟨rfl, read_eq_ok atHead⟩
        | succ head => cases step
  · dsimp only [seekRound] at step
    split at step
    · rename_i event atNext
      split at step
      · rw [increment, if_pos (readNext_eq_ok atNext)] at step
        cases step
      · cases step
    · cases step
    · cases step

/-- What is left of a seek that is on one of its legs. -/
def seekFrom (tape : Tape α) (time : Time) : Leg × Nat → Except ReaderError Unit × Nat
  | (.back, head) => tape.seek time head
  | (.on, head) => tape.advance time head

/-- The first leg of a seek: back while the event at the head is later than the time. -/
theorem seek_loop (tape : Tape α) (time : Time) (head : Nat) : tape.seek time head =
    match tape.read head with
    | .error cause => (.error cause, head)
    | .ok event =>
      if event.time ≤ time then tape.advance time head
      else
        match decrement head with
        | (.error cause, head) => (.error cause, head)
        | (.ok _, head) => tape.seek time head := by
  rw [seek, rewind.eq_def]
  cases tape.read head with
  | error cause => rfl
  | ok event =>
    dsimp only
    by_cases early : event.time ≤ time
    · rw [if_pos early, if_pos early]
    · rw [if_neg early, if_neg early]
      cases head with
      | zero => rfl
      | succ head => rfl

/-- The second leg: on while the next event is not later than the time. -/
theorem advance_loop (tape : Tape α) (time : Time) (head : Nat) : tape.advance time head =
    match tape.readNext head with
    | .ok event =>
      if event.time ≤ time then
        match tape.increment head with
        | (.error cause, head) => (.error cause, head)
        | (.ok _, head) => tape.advance time head
      else (.ok (), head)
    | .error .unavailable => (.ok (), head)
    | .error cause => (.error cause, head) := by
  rw [advance]
  by_cases room : head + 1 < tape.size
  · rw [if_pos room]
    cases atNext : tape.readNext head with
    | ok event =>
      dsimp only
      rw [increment, if_pos room]
    | error cause =>
      cases cause with
      | unavailable => exact absurd atNext (readNext_ne_unavailable room)
      | overflow => rfl
      | read cause => rfl
  · rw [if_neg room, readNext_eq_unavailable (by omega)]

theorem seekFrom_eq (tape : Tape α) (time : Time) (state : Leg × Nat) :
    tape.seekFrom time state = (tape.seekRound time state).2.elim id (tape.seekFrom time) := by
  rcases state with ⟨_ | _, head⟩
  · dsimp only [seekFrom, seekRound]
    rw [seek_loop]
    cases tape.read head with
    | error cause => rfl
    | ok event =>
      dsimp only
      by_cases early : event.time ≤ time
      · rw [if_pos early, if_pos early]
        rfl
      · rw [if_neg early, if_neg early]
        cases head with
        | zero => rfl
        | succ head => rfl
  · dsimp only [seekFrom, seekRound]
    rw [advance_loop]
    cases tape.readNext head with
    | ok event =>
      dsimp only
      by_cases early : event.time ≤ time
      · rw [if_pos early, if_pos early, increment]
        by_cases room : head + 1 < tape.size
        · rw [if_pos room]
          rfl
        · rw [if_neg room]
          rfl
      · rw [if_neg early, if_neg early]
        rfl
    | error cause =>
      cases cause with
      | unavailable => rfl
      | overflow => rfl
      | read cause => rfl

/-- A bound on the rounds that a seek has left. -/
def roundsLeft (tape : Tape α) : Leg × Nat → Nat
  | (.back, head) => tape.size + head + 1
  | (.on, head) => tape.size - head

theorem seekRound_roundsLeft {time : Time} {state following : Leg × Nat} {looked : Option Leg}
    (step : tape.seekRound time state = (looked, .inr following)) :
    tape.roundsLeft following < tape.roundsLeft state := by
  obtain ⟨inside, ⟨isBack, rfl, _⟩ | ⟨head, rfl, rfl, _⟩ | ⟨isOn, room, rfl, _⟩⟩ :=
    seekRound_goesOn step
  · rcases state with ⟨_ | _, head⟩
    · dsimp only [roundsLeft]
      omega
    · cases isBack
  · dsimp only [roundsLeft]
    omega
  · rcases state with ⟨_ | _, head⟩
    · cases isOn
    · dsimp only [roundsLeft] at room ⊢
      omega

theorem seek_ends (tape : Tape α) (time : Time) (state : Leg × Nat) :
    ∃ log, Loop.Ends (tape.seekRound time) state log (tape.seekFrom time state) :=
  Loop.exists_ends (tape.seekFrom time) tape.roundsLeft (tape.seekFrom_eq time)
    seekRound_roundsLeft state

/-- A bound on the moves of the head that a seek has left. A head beyond the tape stays there. -/
def movesLeft (tape : Tape α) : Leg × Nat → Nat
  | (.back, head) => if head < tape.size then tape.size + head else 0
  | (.on, head) => tape.size - (head + 1)

theorem movesLeft_back_le (tape : Tape α) (head : Nat) :
    tape.movesLeft (.back, head) ≤ 2 * tape.size := by
  dsimp only [movesLeft]
  split
  · omega
  · omega

/-- Each round takes what it moves the head off the moves that are left. -/
theorem seekRound_movesLeft {time : Time} {state following : Leg × Nat} {looked : Option Leg}
    (step : tape.seekRound time state = (looked, .inr following)) :
    tape.movesLeft following + looked.toList.length ≤ tape.movesLeft state := by
  obtain ⟨inside, ⟨isBack, rfl, rfl⟩ | ⟨head, rfl, rfl, rfl⟩ | ⟨isOn, room, rfl, rfl⟩⟩ :=
    seekRound_goesOn step
  · rcases state with ⟨_ | _, head⟩
    · simp only [movesLeft, if_pos inside, Option.toList_none, List.length_nil]
      omega
    · cases isBack
  · have before : head < tape.size := Nat.lt_of_succ_lt inside
    simp only [movesLeft, if_pos inside, if_pos before, Option.toList_some, List.length_singleton]
    omega
  · rcases state with ⟨_ | _, head⟩
    · cases isOn
    · simp only [movesLeft, Option.toList_some, List.length_singleton] at room ⊢
      omega

/-- Wherever the head stands, a seek moves it at most once over each cell on either leg. -/
theorem seek_moves_le {time : Time} {head : Nat} {log : List (Option Leg)}
    {result : Except ReaderError Unit × Nat}
    (ends : Loop.Ends (tape.seekRound time) (.back, head) log result) :
    log.reduceOption.length ≤ 2 * tape.size := by
  refine (ends.looks_le tape.movesLeft (fun step => ?_) seekRound_movesLeft).trans
    (tape.movesLeft_back_le head)
  rename_i state looked result
  cases looked with
  | none => exact Nat.zero_le _
  | some leg =>
    obtain ⟨rfl, room⟩ := seekRound_stops step
    simp only [movesLeft, if_pos room, Option.toList_some, List.length_singleton]
    omega

end Tape

namespace Cursor

variable {α : Type}

/-- Over any window, from any head, for any operands and any bounds of a search: what its loop looks
at lies strictly one after another, each time where an event of the window meets a shift or at the
first instant, and the loop ends within as many rounds as there are pairs of an event and a shift,
and two. A forward search of an empty stretch takes no round. A seek ends within two moves for each
event. -/
theorem searches_end (reader : Reader) (ring : Ring α) (head : Nat) :
    (∀ (left right : Operand) (finish : Option Int) (c : Int),
      if finish.all (c < ·) then
        Loop.EndsWithin ((tape reader ring).aheadRound left right (shiftsOf left right) finish)
          (· < ·) (fun d => d = c ∨ (tape reader ring).Meets (shiftsOf left right) d)
          (reader.length ring * (shiftsOf left right).toFinset.card + 2) (c, head)
          ((tape reader ring).foldForward left right finish c head)
      else
        (tape reader ring).foldForward left right finish c head =
          (tape reader ring).unsettledAhead finish head) ∧
    (∀ (left right : Operand) (start : Option Int) (c : Int),
      Loop.EndsWithin ((tape reader ring).behindRound left right (shiftsOf left right) start)
        (· > ·)
        (fun d => (∃ border ∈ start, d = max (border + 1) 0) ∨
          (tape reader ring).Meets (shiftsOf left right) d)
        (reader.length ring * (shiftsOf left right).toFinset.card + 2) (c, head)
        ((tape reader ring).foldBackward left right start c head)) ∧
    (∀ (operand : Operand) (finish c : Int) (measure : Measure),
      Loop.EndsWithin ((tape reader ring).measureRound operand operand.shifts finish)
        (· < ·) (fun d => d = c ∨ (tape reader ring).Meets operand.shifts d)
        (reader.length ring * operand.shifts.toFinset.card + 2) (c, measure, head)
        ((tape reader ring).accumulate operand operand.shifts finish c measure head)) ∧
    (∀ time : Time, ∃ log,
      Loop.Ends ((tape reader ring).seekRound time) (.back, head) log
          ((tape reader ring).seek time head) ∧
        log.reduceOption.length ≤ 2 * reader.length ring) := by
  rw [← size_tape reader ring]
  refine ⟨fun left right finish c => ?_, fun left right start c => ?_,
    fun operand finish c measure => ?_, fun time => ?_⟩
  · unfold Tape.foldForward
    split
    · exact
        Tape.searchAhead_endsWithin _ left right (.mk fun _ => shiftsOf left right) finish c head
    · rfl
  · exact Tape.searchBehind_endsWithin _ left right (shiftsOf left right) start c head
  · exact Tape.accumulate_endsWithin _ operand operand.shifts finish c measure head
  · obtain ⟨log, ends⟩ := (tape reader ring).seek_ends time (.back, head)
    exact ⟨log, ends, Tape.seek_moves_le ends⟩

end Cursor

end TimedTrace
