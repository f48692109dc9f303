import TimedTrace.Proofs.Interference
import TimedTrace.Proofs.Quiescence
import TimedTrace.Proofs.Stamps

namespace TimedTrace

variable {α β τ υ : Type}

/-- What is kept while calls are made: the notes, and the slots that were written. -/
structure Logbook (α : Type) where
  notes : List (Note α)
  writes : List Nat

def Logbook.add (book : Logbook α) (noted : List (Note α)) (written : List Nat) : Logbook α :=
  ⟨book.notes ++ noted, book.writes ++ written⟩

@[simp] theorem Logbook.add_nil (book : Logbook α) : book.add [] [] = book := by
  unfold add
  rw [List.append_nil, List.append_nil]

theorem Logbook.add_add (book : Logbook α) (noted more : List (Note α)) (written since : List Nat) :
    (book.add noted written).add more since = book.add (noted ++ more) (written ++ since) := by
  unfold add
  rw [List.append_assoc, List.append_assoc]

/-- Notes down what a call has done, if it got through, and logs the slot that it has filled. -/
def recordWrite (deed : β → Deed α) (filled : Ring α → List Nat) :
    Except RingError β × Ring α × Logbook α → Ring α × Logbook α
  | (.ok answer, ring, book) => (ring, book.add [.did (deed answer)] (filled ring))
  | (.error _, ring, book) => (ring, book)

/-- Notes down what the ring looks like. -/
def sighted : Ring α × Logbook α → Ring α × Logbook α
  | (ring, book) => (ring, book.add [.saw ring] [])

mutual

/-- The same calls, with a log of the slots that they fill. An append that got through has filled
the slot before the top. -/
def Call.logged : Call α → Ring α × Logbook α → Ring α × Logbook α
  | .append event script, state =>
    recordWrite (fun _ => .append event) (fun ring => [ring.prev ring.window.top])
      (Ring.contend (Ring.append event) (loggedTurns script) 0 state)
  | .take end_ script, state =>
    recordWrite (.take end_) (fun _ => [])
      (Ring.contend end_.opening (loggedTurns script) 0 state)

def loggedTurns : List (Meanwhile α) → List (Turn α (Logbook α))
  | [] => []
  | .others calls fails :: script => ⟨loggedAll calls, fails⟩ :: loggedTurns script

def loggedAll : List (Call α) → Ring α × Logbook α → Ring α × Logbook α
  | [], state => sighted state
  | call :: calls, state => loggedAll calls (call.logged (sighted state))

end

/-- What is so of a call as soon as it is of all that come in between is so of every call. -/
@[elab_as_elim]
theorem Call.script_induction {motive : Call α → Prop}
    (each : ∀ call : Call α, (∀ calls fails, .others calls fails ∈ call.script →
      ∀ inner ∈ calls, motive inner) → motive call) (call : Call α) : motive call := by
  refine each call fun calls fails mem inner within => ?_
  exact inner.script_induction each
termination_by sizeOf call
decreasing_by
  have outer := List.sizeOf_lt_of_mem mem
  have inside := List.sizeOf_lt_of_mem within
  have whole := call.sizeOf_script
  simp only [Meanwhile.others.sizeOf_spec] at outer
  omega

/-- The same turn, of which only a part is shown. -/
structure Turn.Shows (part : τ → υ) (turn : Turn α τ) (shown : Turn α υ) : Prop where
  fails : shown.fails = turn.fails
  act : ∀ ring rest, shown.act (ring, part rest) = Prod.map id part (turn.act (ring, rest))

/-- It makes no difference to an update what others keep for themselves. -/
theorem Ring.contend_shown {part : τ → υ} {turns : List (Turn α τ)} {shown : List (Turn α υ)}
    (shows : List.Forall₂ (Turn.Shows part) turns shown) (opening : Ring α → Opening α β)
    (lost : Nat) (ring : Ring α) (rest : τ) :
    contend opening shown lost (ring, part rest) =
      Prod.map id (Prod.map id part) (contend opening turns lost (ring, rest)) := by
  induction shows generalizing lost ring rest with
  | nil =>
    unfold contend
    cases opening ring with
    | refused cause => rfl
    | blocked => rfl
    | ready round marked =>
      dsimp only
      rcases round.publish marked with ⟨_ | answer, after⟩
      · rfl
      · rfl
  | @cons turn other turns shown first _ ih =>
    obtain ⟨act, _⟩ := turn
    obtain ⟨actShown, fails⟩ := other
    obtain ⟨rfl, acts⟩ := first
    have acts (ring : Ring α) (rest : τ) :
        actShown (ring, part rest) = Prod.map id part (act (ring, rest)) := acts ring rest
    rw [contend, contend]
    cases opening ring with
    | refused cause => rfl
    | blocked => rfl
    | ready round marked =>
      dsimp only
      rw [acts]
      rcases act (marked, rest) with ⟨before, kept⟩
      dsimp only [Prod.map_apply, id]
      rcases round.attempt fails before with ⟨_ | answer, after⟩
      · dsimp only
        split
        · rfl
        · exact ih ..
      · rfl

theorem record_shown (deed : β → Deed α) (filled : Ring α → List Nat)
    (outcome : Except RingError β × Ring α × Logbook α) :
    record deed (Prod.map id (Prod.map id Logbook.notes) outcome) =
      Prod.map id Logbook.notes (recordWrite deed filled outcome) := by
  obtain ⟨_ | answer, ring, book⟩ := outcome
  · rfl
  · rfl

/-- The log makes no difference to the call and to its notes. -/
def Call.Logs (call : Call α) : Prop :=
  ∀ state, call.run (Prod.map id Logbook.notes state) =
    Prod.map id Logbook.notes (call.logged state)

theorem runAll_logged {calls : List (Call α)} (each : ∀ call ∈ calls, call.Logs)
    (state : Ring α × Logbook α) :
    runAll calls (Prod.map id Logbook.notes state) =
      Prod.map id Logbook.notes (loggedAll calls state) := by
  induction calls generalizing state with
  | nil =>
    rw [runAll, loggedAll]
    rfl
  | cons call calls ih =>
    obtain ⟨ring, book⟩ := state
    have first := each call (.head _) (sighted (ring, book))
    have rest := ih (fun other mem => each other (.tail _ mem)) (call.logged (sighted (ring, book)))
    rw [loggedAll, ← rest, ← first, Prod.map_apply, runAll]
    rfl

theorem turns_logged {script : List (Meanwhile α)}
    (others : ∀ calls fails, .others calls fails ∈ script → ∀ call ∈ calls, call.Logs) :
    List.Forall₂ (Turn.Shows Logbook.notes) (loggedTurns script) (turns script) := by
  induction script with
  | nil =>
    rw [turns, loggedTurns]
    exact .nil
  | cons now script ih =>
    obtain ⟨calls, fails⟩ := now
    rw [turns, loggedTurns]
    have rest := ih fun calls fails mem => others calls fails (.tail _ mem)
    refine .cons ⟨rfl, fun ring book => ?_⟩ rest
    exact runAll_logged (others calls fails (.head _)) (ring, book)

theorem Call.logs (call : Call α) : call.Logs := by
  induction call using Call.script_induction with
  | each call others =>
    intro state
    have shows := turns_logged others
    cases call with
    | append event script =>
      have outcome := Ring.contend_shown shows (Ring.append event) 0 state.1 state.2
      rw [run, logged, ← record_shown]
      exact congrArg _ outcome
    | take end_ script =>
      have outcome := Ring.contend_shown shows end_.opening 0 state.1 state.2
      rw [run, logged, ← record_shown]
      exact congrArg _ outcome

/-- A part of an update. -/
def Motion.Partial (motion : Motion α) : Prop := ∀ operation, motion ≠ .perform operation

namespace Round

/-- A round is tried by its flight: it swaps, and fills its slot if it has swapped. -/
theorem attempt_eq (round : Round α β) (fails : Bool) (ring : Ring α) :
    round.attempt fails ring =
      match round.silent.swap fails ring with
      | (true, after) => (some (round.answer after.writers), round.silent.complete after)
      | (false, after) => (none, after) := by
  unfold attempt publish swap
  cases fails with
  | true => rfl
  | false =>
    have tried : ring.register.swap round.silent.token round.silent.next =
        ring.register.swap round.token round.next := rfl
    simp only [Bool.false_eq_true, if_false]
    rw [tried]
    rcases ring.register.swap round.token round.next with ⟨_ | _, register⟩
    · rfl
    · rfl

theorem of_attempt_some {round : Round α β} {fails : Bool} {ring after : Ring α} {answer : β}
    (run : round.attempt fails ring = (some answer, after)) :
    ∃ between, round.silent.swap fails ring = (true, between) ∧
      after = round.silent.complete between := by
  rw [attempt_eq] at run
  split at run
  · rename_i between swaps
    cases run
    exact ⟨between, swaps, rfl⟩
  · cases run

theorem of_attempt_none {round : Round α β} {fails : Bool} {ring after : Ring α}
    (run : round.attempt fails ring = (none, after)) :
    round.silent.swap fails ring = (false, after) := by
  rw [attempt_eq] at run
  split at run
  · cases run
  · rename_i swaps
    cases run
    exact swaps

/-- A round that gets through publishes the window that it has prepared. -/
theorem window_attempt {round : Round α β} {fails : Bool} {ring after : Ring α} {answer : β}
    {flights : List (Flight α)} {size : Nat}
    (inRange : Traffic.InRange ⟨ring, ⟨round.silent, false⟩ :: flights⟩ size)
    (run : round.attempt fails ring = (some answer, after)) : after.window = round.next := by
  obtain ⟨bottom_lt, top_lt⟩ := inRange.flights _ (.head _)
  obtain ⟨between, swaps, rfl⟩ := of_attempt_some run
  rw [window_complete]
  rcases round.silent.swap_cases fails ring with ⟨register, swapped, same⟩ | ⟨_, _, same⟩
  · cases same.symm.trans swaps
    exact inRange.ring.window_swap bottom_lt top_lt swapped
  · cases same.symm.trans swaps

end Round

namespace Traffic

/-- These motions lead from here to there and write these slots. The ring is some time on the way as
it was seen according to the notes. -/
structure Leads (traffic : Traffic α) (motions : List (Motion α)) (after : Traffic α)
    (noted : List (Note α)) (written : List Nat) : Prop where
  runs : traffic.after motions = after
  writes : traffic.writes motions = written
  seen : ∀ ring, .saw ring ∈ noted → ∃ part, part <+: motions ∧ (traffic.after part).ring = ring

theorem Leads.trans {traffic between after : Traffic α} {motions more : List (Motion α)}
    {noted notedToo : List (Note α)} {written writtenToo : List Nat}
    (first : traffic.Leads motions between noted written)
    (second : between.Leads more after notedToo writtenToo) :
    traffic.Leads (motions ++ more) after (noted ++ notedToo) (written ++ writtenToo) where
  runs := by rw [after_append, first.runs, second.runs]
  writes := by rw [writes_append, first.runs, first.writes, second.writes]
  seen ring mem := by
    rcases List.mem_append.1 mem with early | late
    · obtain ⟨part, inside, shows⟩ := first.seen ring early
      exact ⟨part, inside.trans (List.prefix_append ..), shows⟩
    · obtain ⟨part, inside, shows⟩ := second.seen ring late
      refine ⟨motions ++ part, (List.prefix_append_right_inj motions).2 inside, ?_⟩
      rw [after_append, first.runs]
      exact shows

/-- Parts of updates lead from here to there, and are entered in the book. -/
def Passes (traffic : Traffic α) (book : Logbook α) (after : Traffic α) (bookAfter : Logbook α) :
    Prop :=
  ∃ motions noted written, (∀ motion ∈ motions, motion.Partial) ∧
    bookAfter = book.add noted written ∧ traffic.Leads motions after noted written

namespace Passes

variable {traffic between after : Traffic α} {book bookBetween bookAfter : Logbook α}

theorem refl (traffic : Traffic α) (book : Logbook α) : traffic.Passes book traffic book :=
  ⟨[], [], [], nofun, book.add_nil.symm, rfl, rfl, nofun⟩

theorem trans (first : traffic.Passes book between bookBetween)
    (second : between.Passes bookBetween after bookAfter) :
    traffic.Passes book after bookAfter := by
  obtain ⟨motions, noted, written, parts, rfl, leads⟩ := first
  obtain ⟨more, notedToo, writtenToo, partsToo, rfl, leadsToo⟩ := second
  refine ⟨_, _, _, fun motion mem => ?_, book.add_add .., leads.trans leadsToo⟩
  exact (List.mem_append.1 mem).elim (parts motion) (partsToo motion)

theorem inRange (passes : traffic.Passes book after bookAfter) {size : Nat}
    (inRange : traffic.InRange size) : after.InRange size := by
  obtain ⟨motions, _, _, _, _, leads⟩ := passes
  rw [← leads.runs]
  exact inRange.after motions

theorem sighted (traffic : Traffic α) (book : Logbook α) :
    traffic.Passes book traffic (book.add [.saw traffic.ring] []) := by
  refine ⟨[], _, _, nofun, rfl, rfl, rfl, fun ring mem => ?_⟩
  cases List.mem_singleton.1 mem
  exact ⟨[], List.nil_prefix, rfl⟩

theorem step (traffic : Traffic α) {motion : Motion α} (part : motion.Partial) (book : Logbook α) :
    traffic.Passes book (traffic.step motion) (book.add [] (traffic.written motion)) :=
  ⟨[motion], _, _, fun _ mem => List.mem_singleton.1 mem ▸ part, rfl, rfl, List.append_nil _, nofun⟩

/-- A deed is noted down when the slot is filled. -/
theorem fill (traffic : Traffic α) (number : Nat) (book : Logbook α) (deed : Deed α) :
    traffic.Passes book (traffic.fill number)
      (book.add [.did deed] (traffic.written (.fill number))) := by
  refine ⟨[.fill number], _, _, fun motion mem => ?_, rfl, rfl, List.append_nil _,
    fun ring mem => ?_⟩
  · cases List.mem_singleton.1 mem
    exact nofun
  · cases List.mem_singleton.1 mem

/-- An update sets out as soon as it can begin a round. -/
theorem start {update : Update α} {ring marked : Ring α} {round : Round α Unit}
    (begun : update.round? ring = some (round, marked)) (flights : List (Flight α))
    (book : Logbook α) : Passes ⟨ring, flights⟩ book ⟨marked, ⟨round, false⟩ :: flights⟩ book := by
  have starts := step ⟨ring, flights⟩ (show Motion.Partial (.start update) from nofun) book
  dsimp only [Traffic.step, Traffic.start, written] at starts
  rwa [begun, book.add_nil] at starts

section

variable {round : Round α β} {fails : Bool} {ring landed : Ring α}

theorem swap {swapped : Bool} (run : round.silent.swap fails ring = (swapped, landed))
    (flights : List (Flight α)) (book : Logbook α) :
    Passes ⟨ring, ⟨round.silent, false⟩ :: flights⟩ book
      ⟨landed, if swapped then ⟨round.silent, true⟩ :: flights else flights⟩ book := by
  have swaps := step ⟨ring, ⟨round.silent, false⟩ :: flights⟩
    (show Motion.Partial (.swap 0 fails) from nofun) book
  dsimp only [Traffic.step, Traffic.swap, written, List.getElem?_cons_zero] at swaps
  rw [run, book.add_nil] at swaps
  cases swapped with
  | true => exact swaps
  | false => exact swaps

/-- An attempt lands the flight, and if it succeeds the slot is filled that was marked. -/
theorem attempt_some {answer : β} (run : round.attempt fails ring = (some answer, landed))
    (flights : List (Flight α)) (book : Logbook α) (deed : Deed α) :
    Passes ⟨ring, ⟨round.silent, false⟩ :: flights⟩ book ⟨landed, flights⟩
      (book.add [.did deed] (round.mark.toList.map (·.index))) := by
  obtain ⟨between, swaps, rfl⟩ := Round.of_attempt_some run
  have fills := fill ⟨between, ⟨round.silent, true⟩ :: flights⟩ 0 book deed
  exact (swap swaps flights book).trans fills

theorem attempt_none (run : round.attempt fails ring = (none, landed)) (flights : List (Flight α))
    (book : Logbook α) :
    Passes ⟨ring, ⟨round.silent, false⟩ :: flights⟩ book ⟨landed, flights⟩ book :=
  swap (Round.of_attempt_none run) flights book

end

end Passes

/-- Parts of updates overwrite no slot. -/
theorem disciplined_of_partial {motions : List (Motion α)}
    (parts : ∀ motion ∈ motions, motion.Partial) (traffic : Traffic α) :
    traffic.Disciplined motions := by
  induction motions generalizing traffic with
  | nil => trivial
  | cons motion motions ih =>
    refine ⟨fun event index same => absurd same (parts motion (.head _) _), ?_⟩
    exact ih (fun other mem => parts other (.tail _ mem)) _

end Traffic

/-- Whatever ring this is done to, and whatever is on its way then: it is made of parts of updates,
what is on its way stays so, and the book has every slot that is written. -/
def Passing (act : Ring α × Logbook α → Ring α × Logbook α) : Prop :=
  ∀ ring book flights size, Traffic.InRange ⟨ring, flights⟩ size →
    Traffic.Passes ⟨ring, flights⟩ book ⟨(act (ring, book)).1, flights⟩ (act (ring, book)).2

theorem passing_sighted : Passing (sighted (α := α)) :=
  fun ring book flights _ _ => .sighted ⟨ring, flights⟩ book

theorem Passing.comp {act next : Ring α × Logbook α → Ring α × Logbook α} (first : Passing act)
    (second : Passing next) : Passing fun state => next (act state) := by
  intro ring book flights size inRange
  have acts := first ring book flights size inRange
  exact acts.trans (second _ _ flights size (acts.inRange inRange))

section

variable {opening : Ring α → Opening α β} {filled : Ring α → List Nat}
  (fills : ∀ {ring marked after : Ring α} {round : Round α β}, opening ring = .ready round marked →
    after.size = ring.size → after.window = round.next →
      filled after = round.mark.toList.map (·.index))

include fills

/-- Whoever gets through has filled the slot that the round has marked. -/
theorem round_won {ring marked before after : Ring α} {round : Round α β} {answer : β}
    (begun : opening ring = .ready round marked) {flights : List (Flight α)}
    {book kept : Logbook α} {size : Nat} (inRange : Traffic.InRange ⟨ring, flights⟩ size)
    (flies : Traffic.Passes ⟨ring, flights⟩ book ⟨before, ⟨round.silent, false⟩ :: flights⟩ kept)
    {fails : Bool} (run : round.attempt fails before = (some answer, after)) (deed : Deed α) :
    Traffic.Passes ⟨ring, flights⟩ book ⟨after, flights⟩ (kept.add [.did deed] (filled after)) := by
  have ready := flies.inRange inRange
  have lands := Traffic.Passes.attempt_some run flights kept deed
  have slots := (lands.inRange ready).ring.slots.trans inRange.ring.slots.symm
  rw [← fills begun slots (Round.window_attempt ready run)] at lands
  exact flies.trans lands

/-- An update is made of its rounds and what others do in each of them. -/
theorem contend_passing {update : Update α}
    (opens : ∀ ring, update.round? ring = (opening ring).round?) (deed : β → Deed α)
    {script : List (Meanwhile α)}
    (others : ∀ calls fails, .others calls fails ∈ script → Passing (loggedAll calls))
    (lost : Nat) : Passing fun state =>
      recordWrite deed filled (Ring.contend opening (loggedTurns script) lost state) := by
  intro ring book flights size inRange
  dsimp only
  have starts {ring marked : Ring α} {round : Round α β}
      (begun : opening ring = .ready round marked) (book : Logbook α) :=
    Traffic.Passes.start ((opens ring).trans (congrArg Opening.round? begun)) flights book
  induction script generalizing lost ring book with
  | nil =>
    rw [loggedTurns, Ring.contend]
    cases begun : opening ring with
    | refused cause => exact .refl ..
    | blocked => exact .refl ..
    | ready round marked =>
      have flies := starts begun book
      have once : round.publish marked = round.attempt false marked := rfl
      dsimp only
      rw [once]
      rcases run : round.attempt false marked with ⟨_ | answer, after⟩
      · exact flies.trans (.attempt_none run flights book)
      · exact round_won fills begun inRange flies run (deed answer)
  | cons now script ih =>
    obtain ⟨calls, fails⟩ := now
    rw [loggedTurns, Ring.contend]
    cases begun : opening ring with
    | refused cause => exact .refl ..
    | blocked => exact .refl ..
    | ready round marked =>
      have flies := starts begun book
      have acts := others calls fails (.head _) marked book _ size (flies.inRange inRange)
      dsimp only
      rcases meanwhile : loggedAll calls (marked, book) with ⟨before, kept⟩
      rw [meanwhile] at acts
      have flies := flies.trans acts
      dsimp only
      rcases run : round.attempt fails before with ⟨_ | answer, after⟩
      · have loses := flies.trans (.attempt_none run flights kept)
        dsimp only
        split
        · exact loses
        · have rest := ih (fun calls fails mem => others calls fails (.tail _ mem)) (lost + 1)
          exact loses.trans (rest after kept (loses.inRange inRange))
      · exact round_won fills begun inRange flies run (deed answer)

end

theorem passing_of_forall {calls : List (Call α)} (each : ∀ call ∈ calls, Passing call.logged) :
    Passing (loggedAll calls) := by
  induction calls with
  | nil =>
    have none : loggedAll ([] : List (Call α)) = sighted := by
      funext state
      rw [loggedAll]
    rw [none]
    exact passing_sighted
  | cons call calls ih =>
    have all : loggedAll (call :: calls) =
        fun state => loggedAll calls (call.logged (sighted state)) := by
      funext state
      rw [loggedAll]
    rw [all]
    have first := passing_sighted.comp (each call (.head _))
    exact first.comp (ih fun other mem => each other (.tail _ mem))

/-- Whoever has just appended an event has filled the slot before the top. -/
theorem Ring.filled_append {ring marked after : Ring α} {event : Event α}
    {round : Round α Admission} (begun : append event ring = .ready round marked)
    (slots : after.size = ring.size) (window : after.window = round.next) :
    [after.prev after.window.top] = round.mark.toList.map (·.index) := by
  have opened : (Update.append event).round? ring = some (round.silent, marked) :=
    congrArg Opening.round? begun
  obtain ⟨slot, _, _, isMark, next, _⟩ := Update.begun_append opened
  have isMark : round.mark = some ⟨ring.window.top, slot.stamp, event⟩ := isMark
  have top : after.window.top = ring.next ring.window.top := by
    rw [window]
    exact congrArg Window.top next
  have back : after.prev (ring.next ring.window.top) = ring.window.top := by
    have same : after.prev = ring.prev := by
      funext index
      unfold prev
      rw [slots]
    rw [same, prev_next]
  rw [isMark, top, back]
  rfl

theorem Call.passing (call : Call α) : Passing call.logged := by
  induction call using Call.script_induction with
  | each call inner =>
    have others (calls : List (Call α)) (fails : Bool) (mem : .others calls fails ∈ call.script) :
        Passing (loggedAll calls) := passing_of_forall (inner calls fails mem)
    cases call with
    | append event script =>
      have whole : (append event script).logged = _ := funext fun state => by rw [logged]
      have opens (ring : Ring α) :
          (Update.append event).round? ring = (Ring.append event ring).round? := rfl
      rw [whole]
      exact contend_passing Ring.filled_append opens _ others 0
    | take end_ script =>
      have whole : (take end_ script).logged = _ := funext fun state => by rw [logged]
      have opens (ring : Ring α) :
          (Update.take end_).round? ring = (end_.opening ring).round? := rfl
      rw [whole]
      refine contend_passing (fun {ring marked after round} begun _ _ => ?_) opens _ others 0
      have opened : (Update.take end_).round? ring = some (round.silent, marked) :=
        congrArg Opening.round? begun
      obtain ⟨_, unmarked, _⟩ := Update.begun_take opened
      have unmarked : round.mark = none := unmarked
      rw [unmarked]
      rfl

/-- What somebody does with a ring: a call, whoever comes in between, or overwriting a slot. -/
inductive Deal (α : Type) where
  | call (call : Call α)
  | write (event : Event α) (index : Nat)

namespace Deal

def run : Deal α → Ring α × List (Note α) → Ring α × List (Note α)
  | .call made, state => made.run state
  | .write event index, (ring, notes) => ((ring.write event index).2, notes)

/-- The same, with a log of the slots that were written. -/
def logged : Deal α → Ring α × Logbook α → Ring α × Logbook α
  | .call made, state => made.logged state
  | .write event index, (ring, book) => ((ring.write event index).2, book.add [] [index])

theorem run_logged (deal : Deal α) (state : Ring α × Logbook α) :
    deal.run (Prod.map id Logbook.notes state) = Prod.map id Logbook.notes (deal.logged state) := by
  cases deal with
  | call made => exact made.logs state
  | write event index =>
    obtain ⟨ring, book⟩ := state
    exact congrArg (Prod.mk _) (List.append_nil _).symm

end Deal

/-- One thing is done after the other. -/
def runDeals : List (Deal α) → Ring α × List (Note α) → Ring α × List (Note α)
  | [], state => state
  | deal :: deals, state => runDeals deals (deal.run state)

def loggedDeals : List (Deal α) → Ring α × Logbook α → Ring α × Logbook α
  | [], state => state
  | deal :: deals, state => loggedDeals deals (deal.logged state)

theorem runDeals_logged (deals : List (Deal α)) (state : Ring α × Logbook α) :
    runDeals deals (Prod.map id Logbook.notes state) =
      Prod.map id Logbook.notes (loggedDeals deals state) := by
  induction deals generalizing state with
  | nil => rfl
  | cons deal deals ih =>
    rw [runDeals, deal.run_logged, ih, loggedDeals]

/-- The slots that are written while one thing is done after the other, as those who write them can
tell: the one that an append has filled if it got through, and the one that a call to overwrite it
was made for. -/
def writesOf (deals : List (Deal α)) (ring : Ring α) : List Nat :=
  (loggedDeals deals (ring, ⟨[], []⟩)).2.writes

/-- A call or a write that is logged is a run in which no slot is overwritten while an append is on
its way. -/
theorem Deal.disciplined (deal : Deal α) {size : Nat} (ring : Ring α) (book : Logbook α)
    (inRange : (Traffic.idle ring).InRange size) :
    ∃ motions after noted written, deal.logged (ring, book) = (after, book.add noted written) ∧
      (Traffic.idle ring).Disciplined motions ∧
      (Traffic.idle ring).Leads motions (.idle after) noted written := by
  cases deal with
  | call made =>
    obtain ⟨motions, noted, written, parts, same, leads⟩ := made.passing ring book [] size inRange
    refine ⟨motions, _, noted, written, ?_, Traffic.disciplined_of_partial parts _, leads⟩
    exact congrArg (Prod.mk _) same
  | write event index =>
    refine ⟨[.perform (.write event index)], _, [], [index], rfl, ?_, rfl, rfl, nofun⟩
    exact ⟨fun _ _ _ => rfl, trivial⟩

theorem disciplined_logged (deals : List (Deal α)) {size : Nat} (ring : Ring α) (book : Logbook α)
    (inRange : (Traffic.idle ring).InRange size) :
    ∃ motions after noted written,
      loggedDeals deals (ring, book) = (after, book.add noted written) ∧
      (Traffic.idle ring).Disciplined motions ∧
      (Traffic.idle ring).Leads motions (.idle after) noted written := by
  induction deals generalizing ring book with
  | nil =>
    have nothing : (ring, book) = (ring, book.add [] []) := congrArg _ book.add_nil.symm
    exact ⟨[], ring, [], [], nothing, trivial, rfl, rfl, nofun⟩
  | cons deal deals ih =>
    obtain ⟨motions, between, noted, written, first, disciplined, leads⟩ :=
      deal.disciplined ring book inRange
    have stays := inRange.after motions
    rw [leads.runs] at stays
    obtain ⟨more, after, notedToo, writtenToo, rest, disciplinedToo, leadsToo⟩ :=
      ih between (book.add noted written) stays
    refine ⟨motions ++ more, after, _, _, ?_, ?_, leads.trans leadsToo⟩
    · rw [loggedDeals, first, rest, book.add_add]
    · rw [Traffic.disciplined_append, leads.runs]
      exact ⟨disciplined, disciplinedToo⟩

/-- Somebody who does one thing after the other overwrites no slot while an append is on its way,
not even one of those who come in between, and what they report to have written is what is written
on the way. -/
theorem disciplined_deals (deals : List (Deal α)) {ring : Ring α} {size : Nat}
    (inRange : (Traffic.idle ring).InRange size) :
    ∃ motions, (Traffic.idle ring).Disciplined motions ∧
      (Traffic.idle ring).Leads motions (.idle (runDeals deals (ring, [])).1)
        (runDeals deals (ring, [])).2 (writesOf deals ring) := by
  obtain ⟨motions, after, noted, written, logged, disciplined, leads⟩ :=
    disciplined_logged deals ring ⟨[], []⟩ inRange
  have run : runDeals deals (ring, []) = _ := runDeals_logged deals (ring, ⟨[], []⟩)
  refine ⟨motions, disciplined, ?_⟩
  rw [run, writesOf, logged]
  exact leads

/-- Stamps count writes. Whatever has happened to the ring, as long as no slot is overwritten while
an append is on its way: the stamp of a slot is odd exactly if a flight has marked it, and then only
one has; otherwise it is twice the number of times that the slot was written. So a slot that shows
the same stamp twice was not written in between, and is the same, unless its stamp has come round.
Calls that others interrupt to any depth are such a run, and stamps count what they report to have
written. Whoever keeps stamps in words throughout finds the words of those that count without
end. -/
theorem stamps_count_writes {kind : RegisterKind} {capacity : Nat} {epoch : Time}
    {patience : Patience} {start : Ring α}
    (created : Ring.create kind capacity epoch patience = .ok start) :
    (∀ motions more : List (Motion α), (Traffic.idle start).Disciplined (motions ++ more) →
      Traffic.CountsWrites ((Traffic.idle start).after motions)
        ((Traffic.idle start).after (motions ++ more)) ((Traffic.idle start).writes motions)
        (((Traffic.idle start).after motions).writes more)) ∧
    (∀ (deals more : List (Deal α)) (earlier later : Ring α) (noted notedToo : List (Note α)),
      runDeals deals (start, []) = (earlier, noted) →
      runDeals more (earlier, []) = (later, notedToo) →
        Traffic.CountsWrites (.idle earlier) (.idle later) (writesOf deals start)
          (writesOf more earlier) ∧
        ∃ motions, (Traffic.idle start).Disciplined motions ∧
          (Traffic.idle start).Leads motions (.idle earlier) noted (writesOf deals start)) ∧
    ∀ motions : List (Motion α),
      (Traffic.idle start).afterWords motions = ((Traffic.idle start).after motions).wrapped := by
  have inRange := Traffic.InRange.of_create created
  refine ⟨fun motions more disciplined => Traffic.countsWrites_after created disciplined, ?_, ?_⟩
  · intro deals more earlier later noted notedToo first second
    obtain ⟨motions, disciplined, leads⟩ := disciplined_deals deals inRange
    rw [first] at leads
    have stays := inRange.after motions
    rw [leads.runs] at stays
    obtain ⟨since, disciplinedToo, leadsToo⟩ := disciplined_deals more stays
    rw [second] at leadsToo
    refine ⟨?_, motions, disciplined, leads⟩
    have both : (Traffic.idle start).Disciplined (motions ++ since) := by
      rw [Traffic.disciplined_append, leads.runs]
      exact ⟨disciplined, disciplinedToo⟩
    have counts := Traffic.countsWrites_after created both
    rwa [Traffic.after_append, leads.runs, leads.writes, leadsToo.runs, leadsToo.writes] at counts
  · intro motions
    have words := (Traffic.idle start).afterWords_wrapped motions
    have wrapped : (Traffic.idle start).wrapped = .idle start :=
      congrArg Traffic.idle (Ring.wrapped_of_create created)
    rwa [wrapped] at words

/-- A slot is overwritten; an append marks it, holds up another one and loses its round; it gets
through the second time, and the next one has marked its slot before the first has filled its
own. -/
def staggered : List (Motion Nat) :=
  [.perform (.write ⟨7, .zero⟩ 0), .start (.append ⟨1, .zero⟩), .perform (.push ⟨2, .zero⟩),
    .swap 0 true, .start (.append ⟨1, .zero⟩), .swap 0 false, .start (.append ⟨3, .zero⟩), .fill 1]

/-- The second append gets through, and a third is complete before it has filled its slot. -/
def overlapping : List (Motion Nat) := [.swap 0 false, .perform (.push ⟨5, .zero⟩)]

/-- A slot is overwritten, and then filled by an append. Just before it swaps, others have replaced
the event below, one of them while yet another tried in vain. -/
def replacement : List (Deal Nat) :=
  [.call (.append ⟨1, .zero⟩ []), .write ⟨7, .zero⟩ 1,
    .call (.append ⟨2, .zero⟩ [.others
      [.take .newest [], .append ⟨3, .zero⟩ [.others [.append ⟨4, .zero⟩ []] true]] false])]

theorem stamps_count_writes_staggered :
    (∃ earlier later : Traffic Nat,
      (Traffic.idle smallRing).Disciplined (staggered ++ overlapping) ∧
      (Traffic.idle smallRing).after staggered = earlier ∧
      (Traffic.idle smallRing).after (staggered ++ overlapping) = later ∧
      later.ring.slot? 0 = some ⟨4, some ⟨1, .zero⟩⟩ ∧
      ((Traffic.idle smallRing).writes staggered ++ earlier.writes overlapping).count 0 = 2 ∧
      earlier.ring.slot? 1 = some ⟨1, none⟩ ∧ later.ring.slot? 1 = some ⟨1, none⟩ ∧
      (∃! number : Nat, ∃ flight, later.flights[number]? = some flight ∧ flight.Marks 1) ∧
      1 ∉ earlier.writes overlapping) ∧
    ∃ ring notes, runDeals replacement (smallRing, []) = (ring, notes) ∧
      ring.slot? 1 = some ⟨4, some ⟨2, .zero⟩⟩ ∧ (writesOf replacement smallRing).count 1 = 2 ∧
      ∃ motions, (Traffic.idle smallRing).Disciplined motions ∧
        (Traffic.idle smallRing).after motions = .idle ring := by
  obtain ⟨counts, nested, _⟩ := stamps_count_writes create_smallRing
  constructor
  · have disciplined : (Traffic.idle smallRing).Disciplined (staggered ++ overlapping) :=
      ⟨fun _ _ _ => rfl, nofun, nofun, nofun, nofun, nofun, nofun, nofun, nofun, nofun, trivial⟩
    have zero := counts staggered overlapping disciplined 0 ⟨4, some ⟨1, .zero⟩⟩ rfl
    have one := counts staggered overlapping disciplined 1 ⟨1, none⟩ rfl
    refine ⟨_, _, disciplined, rfl, rfl, rfl, ?_, rfl, rfl, one.once rfl, ?_⟩
    · have stamp : 4 = 2 * _ := (zero.twice rfl).1
      omega
    · exact (one.unwritten ⟨1, none⟩ rfl rfl (by decide)).1
  · rcases run : runDeals replacement (smallRing, []) with ⟨ring, notes⟩
    obtain ⟨replaced, motions, disciplined, leads⟩ :=
      nested replacement [] ring ring notes [] run rfl
    have atOne : ring.slot? 1 = some ⟨4, some ⟨2, .zero⟩⟩ := by
      have found : (runDeals replacement (smallRing, [])).1.slot? 1 =
          some ⟨4, some ⟨2, .zero⟩⟩ := rfl
      rwa [run] at found
    have stamp : 4 = 2 * (writesOf replacement smallRing ++ []).count 1 :=
      ((replaced 1 _ atOne).twice rfl).1
    rw [List.append_nil] at stamp
    exact ⟨ring, notes, rfl, atOne, by omega, motions, disciplined, leads.runs⟩

end TimedTrace
