import TimedTrace.Monitor
import TimedTrace.Proofs.Growth
import TimedTrace.Proofs.Tracking

namespace TimedTrace

variable {α : Type}

section

variable {ring : Ring α} {pushed : List (Event α)} {reader : Reader} {first past watched : Nat}

/-- A reader that has lost nothing shows the events that its numbers say. -/
theorem Reader.Tracks.shows (tracks : reader.Tracks ring pushed first past watched)
    (filled : ring.Filled pushed) (safe : pushed.length ≤ watched) :
    reader.Shows ring (stretch pushed first past) := by
  have size : ring.size = ring.capacity + 1 := rfl
  obtain ⟨window, _, upTo, short, inside, near, watches⟩ := tracks
  constructor
  · rw [Reader.length, window, ring.distance_mod upTo (by omega), stretch, List.length_drop,
      List.length_take]
    omega
  · intro i event atI
    rw [stretch_getElem?] at atI
    split at atI
    · have slot := filled.slots (first + i + ring.size) (by omega) (by omega)
      rw [Nat.add_mod_right] at slot
      rw [window, ring.forward_mod]
      refine Ring.read_eq_ok_iff.2 ⟨_, slot, settled_heldUntil .., ?_⟩
      rw [heldUntil_add _ ring.size_pos]
      exact atI
    · cases atI

end

theorem Reader.UpToDate.stands {reader : Reader} {ring : Ring α} {pushed : List (Event α)}
    {first : Nat} (upToDate : reader.UpToDate ring pushed first) :
    reader.Stands ring pushed first := by
  obtain ⟨past, watched, tracks, _⟩ := upToDate
  exact ⟨past, watched, tracks⟩

theorem Reader.UpToDate.bottom_lt {reader : Reader} {ring : Ring α} {pushed : List (Event α)}
    {first : Nat} (upToDate : reader.UpToDate ring pushed first) :
    reader.window.bottom < ring.size := by
  obtain ⟨past, watched, tracks, _⟩ := upToDate
  rw [tracks.window]
  exact Nat.mod_lt _ ring.size_pos

namespace Cursor

variable {cursor : Cursor} {ring : Ring α} {pushed : List (Event α)} {first : Nat}

theorem synchronize_stands (filled : ring.Filled pushed)
    (stands : cursor.reader.Stands ring pushed first) :
    ∃ status caught next, cursor.synchronize ring = (.ok status, caught) ∧
      caught.reader.UpToDate ring pushed next ∧ Valid caught.reader ring caught.position := by
  obtain ⟨past, watched, tracks⟩ := stands
  obtain ⟨status, reader, next, run, upToDate, _⟩ := tracks.synchronize filled
  refine ⟨status, cursor.follow ring reader, next, by rw [synchronize, run]; rfl, ?_, ?_⟩
  · rw [reader_follow]
    exact upToDate
  · rw [reader_follow]
    exact cursor.valid_follow upToDate.bottom_lt

variable [DecidableEq α]

/-- A reader that is up to date and finds an event not after the time lets a formula be evaluated
over all that it has not lost or consumed. -/
theorem evaluate_after_seek (filled : ring.Filled pushed) (increasing : Increasing pushed)
    (upToDate : cursor.reader.UpToDate ring pushed first)
    (valid : Valid cursor.reader ring cursor.position) {time : Time} {after : Cursor}
    (sought : cursor.seek ring time = (.ok (), after)) (f : Formula α) :
    ∃ oldest, pushed[first]? = some oldest ∧ oldest.time.toInstant ≤ time.toInstant ∧
      (after.evaluate ring f time).1 =
        (Tape.ofEvents (stretch pushed first pushed.length)).valueOf f time.toInstant := by
  have bound := upToDate.bottom_lt
  obtain ⟨past, watched, tracks, safe, ends⟩ := upToDate
  have shows := tracks.shows filled safe
  have ordered := increasing.ordered_stretch first past
  obtain ⟨still, validAfter, oldest, atFirst, early⟩ :=
    seek_ok shows ordered valid time bound sought
  rw [stretch_getElem?, Nat.add_zero] at atFirst
  split at atFirst
  · have newest : past = pushed.length := ends.resolve_right (by omega)
    subst newest
    rw [← still] at shows
    exact ⟨oldest, atFirst, early, evaluate_eq_valueOf shows ordered validAfter f time⟩
  · cases atFirst

end Cursor

/-- What a formula that looks ahead only tells over some stretch it tells over all later events, as
long as one of them is not after the time. -/
theorem Increasing.valueOf_below [DecidableEq α] {pushed : List (Event α)} {f : Formula α}
    (increasing : Increasing pushed) (plain : f.PlainFuture) (anchored : f.Anchored)
    {past first : Nat} {time : Time} {oldest : Event α} (former : Nat)
    (inside : past ≤ pushed.length)
    (atFirst : pushed[first]? = some oldest) (early : oldest.time.toInstant ≤ time.toInstant) :
    ((Tape.ofEvents (stretch pushed former past)).valueOf f time.toInstant).Below
      ((Tape.ofEvents (stretch pushed first pushed.length)).valueOf f time.toInstant) := by
  have nonempty := (List.getElem?_eq_some_iff.1 atFirst).1
  exact Tape.valueOf_below (increasing.ordered_stretch former past)
    (increasing.ordered_stretch first pushed.length)
    (increasing.extends_stretch inside nonempty atFirst early) plain anchored _ le_rfl

namespace Monitor

/-- What is done to a ring and a monitor. -/
inductive Move (α : Type) where
  | push (event : Event α)
  | run
  | enable
  | disable
  | setPeriod (period : Time)
  | setOrigin (origin : Time)
  deriving DecidableEq, Repr

def Move.pushed? : Move α → Option (Event α)
  | .push event => some event
  | _ => none

/-- The events that the moves push, in order. -/
def pushes (moves : List (Move α)) : List (Event α) := moves.filterMap Move.pushed?

theorem pushes_cons (move : Move α) (moves : List (Move α)) :
    pushes (move :: moves) = pushes [move] ++ pushes moves :=
  List.filterMap_append (l := [move]) ..

theorem append_pushes {move : Move α} (nothing : move.pushed? = none) (pushed : List (Event α)) :
    pushed ++ pushes [move] = pushed := by
  simp [pushes, nothing]

/-- The monitor is the same but for its cursor and its schedule, and for its verdict if that was
undecided. -/
structure Keeps (monitor after : Monitor α) : Prop where
  formula : after.formula = monitor.formula
  origin : after.origin = monitor.origin
  verdict : monitor.verdict ≠ .unknown → after.verdict = monitor.verdict

theorem Keeps.refl (monitor : Monitor α) : monitor.Keeps monitor := ⟨rfl, rfl, fun _ => rfl⟩

theorem Keeps.trans {monitor middle after : Monitor α} (first : monitor.Keeps middle)
    (second : middle.Keeps after) : monitor.Keeps after := by
  refine ⟨second.formula.trans first.formula, second.origin.trans first.origin, fun decided => ?_⟩
  have same := first.verdict decided
  exact (second.verdict (same ▸ decided)).trans same

theorem setOrigin_origin (monitor : Monitor α) : monitor.setOrigin monitor.origin = monitor := by
  simp [setOrigin]

variable [DecidableEq α]

def perform (ring : Ring α) (monitor : Monitor α) : Move α → Ring α × Monitor α
  | .push event => ((ring.push event).2, monitor)
  | .run => (ring, monitor.run ring)
  | .enable => (ring, monitor.enable)
  | .disable => (ring, monitor.disable)
  | .setPeriod period => (ring, monitor.setPeriod period)
  | .setOrigin origin => (ring, monitor.setOrigin origin)

/-- One move after the other. -/
def performAll (ring : Ring α) (monitor : Monitor α) (moves : List (Move α)) :
    Ring α × Monitor α :=
  moves.foldl (fun (ring, monitor) move => perform ring monitor move) (ring, monitor)

/-- A decided verdict is the value over some stretch of the events. -/
def Backed (monitor : Monitor α) (pushed : List (Event α)) : Prop :=
  monitor.verdict = .unknown ∨ ∃ first past, past ≤ pushed.length ∧ monitor.verdict =
    (Tape.ofEvents (stretch pushed first past)).valueOf monitor.formula monitor.origin.toInstant

/-- What holds of a monitor of a ring that is changed by pushes only. -/
structure Watches (monitor : Monitor α) (ring : Ring α) (pushed : List (Event α)) : Prop where
  filled : ring.Filled pushed
  stands : ∃ first, monitor.cursor.reader.Stands ring pushed first
  backed : monitor.Backed pushed

section

variable {monitor : Monitor α} {ring : Ring α} {pushed : List (Event α)}

theorem Backed.append (backed : monitor.Backed pushed) (more : List (Event α)) :
    monitor.Backed (pushed ++ more) := by
  rcases backed with undecided | ⟨first, past, inside, verdict⟩
  · exact .inl undecided
  · refine .inr ⟨first, past, ?_, ?_⟩
    · rw [List.length_append]
      omega
    · rw [stretch_append inside]
      exact verdict

/-- A run catches up and evaluates over a stretch that ends with the newest event. -/
theorem Watches.run (watches : monitor.Watches ring pushed) (increasing : Increasing pushed)
    (plain : monitor.formula.PlainFuture) (anchored : monitor.formula.Anchored) :
    (monitor.run ring).Watches ring pushed ∧ monitor.Keeps (monitor.run ring) := by
  obtain ⟨filled, ⟨first, stands⟩, backed⟩ := watches
  unfold Monitor.run
  by_cases running : monitor.running = true
  · obtain ⟨status, caught, next, sync, upToDate, valid⟩ :=
      Cursor.synchronize_stands filled stands
    rw [if_pos running, sync]
    dsimp only
    have still := Cursor.reader_seek caught ring monitor.origin
    cases sought : caught.seek ring monitor.origin with
    | mk result after =>
      rw [sought] at still
      cases result with
      | error cause =>
        exact ⟨⟨filled, ⟨next, still ▸ upToDate.stands⟩, backed⟩, rfl, rfl, fun _ => rfl⟩
      | ok _ =>
        obtain ⟨oldest, atFirst, early, value⟩ := Cursor.evaluate_after_seek filled increasing
          upToDate valid sought monitor.formula
        refine ⟨⟨filled, ⟨next, ?_⟩, .inr ⟨next, pushed.length, le_rfl, value⟩⟩, rfl, rfl,
          fun decided => ?_⟩
        · rw [Cursor.reader_evaluate, still]
          exact upToDate.stands
        · -- The former verdict was found over another stretch, maybe of events that are lost by now.
          obtain ⟨former, past, inside, verdict⟩ := backed.resolve_left decided
          have below := increasing.valueOf_below plain anchored former inside atFirst early
          dsimp only
          rw [value, verdict, below.eq (verdict ▸ decided)]
  · rw [if_neg running]
    exact ⟨⟨filled, ⟨first, stands⟩, backed⟩, .refl _⟩

theorem Watches.perform (watches : monitor.Watches ring pushed)
    (plain : monitor.formula.PlainFuture) (anchored : monitor.formula.Anchored) (move : Move α)
    (increasing : Increasing (pushed ++ pushes [move]))
    (unmoved : ∀ origin, move = .setOrigin origin → origin = monitor.origin) :
    ∃ ringAfter after, Monitor.perform ring monitor move = (ringAfter, after) ∧
      after.Watches ringAfter (pushed ++ pushes [move]) ∧ monitor.Keeps after := by
  cases move with
  | push event =>
    obtain ⟨filled, ⟨first, past, watched, tracks⟩, backed⟩ := watches
    obtain ⟨status, after, run, filledAfter, same⟩ := filled.push event
    refine ⟨after, monitor, by rw [Monitor.perform, run], ⟨filledAfter, ⟨first, ?_⟩, ?_⟩, .refl _⟩
    · exact ⟨past, watched, tracks.push same event⟩
    · exact backed.append [event]
  | run =>
    rw [append_pushes rfl] at increasing ⊢
    obtain ⟨after, keeps⟩ := watches.run increasing plain anchored
    exact ⟨ring, _, rfl, after, keeps⟩
  | enable =>
    rw [append_pushes rfl]
    exact ⟨ring, _, rfl, ⟨watches.filled, watches.stands, watches.backed⟩, rfl, rfl, fun _ => rfl⟩
  | disable =>
    rw [append_pushes rfl]
    exact ⟨ring, _, rfl, ⟨watches.filled, watches.stands, watches.backed⟩, rfl, rfl, fun _ => rfl⟩
  | setPeriod period =>
    rw [append_pushes rfl]
    exact ⟨ring, _, rfl, ⟨watches.filled, watches.stands, watches.backed⟩, rfl, rfl, fun _ => rfl⟩
  | setOrigin origin =>
    rw [append_pushes rfl]
    obtain rfl := unmoved origin rfl
    exact ⟨ring, monitor, by rw [Monitor.perform, setOrigin_origin], watches, .refl _⟩

/-- A whole run of moves keeps a decided verdict. -/
theorem Watches.performAll (watches : monitor.Watches ring pushed)
    (plain : monitor.formula.PlainFuture) (anchored : monitor.formula.Anchored)
    (moves : List (Move α)) (increasing : Increasing (pushed ++ pushes moves))
    (unmoved : ∀ origin, .setOrigin origin ∈ moves → origin = monitor.origin) :
    (Monitor.performAll ring monitor moves).2.Watches (Monitor.performAll ring monitor moves).1
      (pushed ++ pushes moves) ∧ monitor.Keeps (Monitor.performAll ring monitor moves).2 := by
  induction moves generalizing ring monitor pushed with
  | nil =>
    rw [show pushed ++ pushes ([] : List (Move α)) = pushed from List.append_nil _]
    exact ⟨watches, .refl _⟩
  | cons move moves ih =>
    rw [pushes_cons, ← List.append_assoc] at increasing ⊢
    have before : Increasing (pushed ++ pushes [move]) :=
      increasing.sublist (List.sublist_append_left ..)
    obtain ⟨ringAfter, after, run, watchesAfter, keeps⟩ :=
      watches.perform plain anchored move before
        fun origin same => unmoved origin (same ▸ List.mem_cons_self)
    have rest := ih watchesAfter (by rwa [keeps.formula]) (by rwa [keeps.formula]) increasing
      fun origin member => (unmoved origin (List.mem_cons_of_mem _ member)).trans keeps.origin.symm
    have unfolded : Monitor.performAll ring monitor (move :: moves) =
        Monitor.performAll ringAfter after moves := by
      simp only [Monitor.performAll, List.foldl_cons, run]
    rw [unfolded]
    exact ⟨rest.1, keeps.trans rest.2⟩

theorem Watches.of_build {plan : MonitorPlan α} (filled : ring.Filled pushed)
    (built : Monitor.build plan ring = .ok monitor) : monitor.Watches ring pushed := by
  obtain ⟨reader, adopted, upToDate⟩ := filled.adopt .fresh .init
  have sync : Cursor.fresh.synchronize ring = (.ok .init, Cursor.fresh.follow ring reader) := by
    have run : Cursor.fresh.reader.synchronize ring = (.ok .init, reader) := adopted
    rw [Cursor.synchronize, run]
    rfl
  unfold Monitor.build at built
  split at built
  · cases built
  · split at built
    · cases built
    · rw [sync] at built
      cases built
      refine ⟨filled, ⟨pushed.length - ring.capacity, ?_⟩, .inl rfl⟩
      dsimp only
      rw [Cursor.reader_follow]
      exact upToDate.stands

end

/-- A decided verdict is final: further pushes, runs and changes of the schedule leave it as it is,
also when the events that decided it are overwritten. -/
theorem verdict_final {kind : RegisterKind} {capacity : Nat} {epoch : Time} {patience : Patience}
    {ring : Ring α} (created : Ring.create kind capacity epoch patience = .ok ring)
    (before : List (Event α)) {plan : MonitorPlan α} {monitor : Monitor α}
    (built : Monitor.build plan (ring.pushAll before) = .ok monitor)
    (plain : monitor.formula.PlainFuture) (anchored : monitor.formula.Anchored)
    (moves later : List (Move α))
    (unmoved : ∀ origin, .setOrigin origin ∈ moves ++ later → origin = monitor.origin)
    (increasing : Increasing (before ++ pushes (moves ++ later)))
    (decided : (performAll (ring.pushAll before) monitor moves).2.verdict ≠ .unknown) :
    (performAll (ring.pushAll before) monitor (moves ++ later)).2.verdict =
      (performAll (ring.pushAll before) monitor moves).2.verdict := by
  have filled := (Ring.Filled.of_create created).pushAll before
  rw [List.nil_append] at filled
  rw [show pushes (moves ++ later) = pushes moves ++ pushes later from List.filterMap_append ..,
    ← List.append_assoc] at increasing
  obtain ⟨watches, keeps⟩ := (Watches.of_build filled built).performAll plain anchored moves
    (increasing.sublist (List.sublist_append_left ..))
    fun origin member => unmoved origin (List.mem_append_left _ member)
  obtain ⟨_, kept⟩ := watches.performAll (by rwa [keeps.formula]) (by rwa [keeps.formula]) later
    increasing fun origin member =>
      (unmoved origin (List.mem_append_right _ member)).trans keeps.origin.symm
  have split : performAll (ring.pushAll before) monitor (moves ++ later) =
      performAll (performAll (ring.pushAll before) monitor moves).1
        (performAll (ring.pushAll before) monitor moves).2 later := List.foldl_append ..
  rw [split]
  exact kept.verdict decided

/-- A monitor that was built after one push. -/
def smallMonitor : Monitor Nat where
  cursor := ⟨⟨⟨0, 1⟩, some ⟨0, 2, .ofNanos 1⟩⟩, 0⟩
  formula := .untl (some (.ofNanos 4)) (.atom 8) (.atom 7)
  origin := .ofNanos 1
  schedule := .standard
  running := true
  verdict := .unknown

/-- The verdict outlives the event that decided it. -/
theorem verdict_final_small :
    (performAll (smallRing.pushAll [⟨7, .ofNanos 1⟩]) smallMonitor
      [.run, .push ⟨8, .ofNanos 2⟩, .push ⟨9, .ofNanos 3⟩, .push ⟨8, .ofNanos 4⟩, .run,
        .setOrigin (.ofNanos 1), .run]).2.verdict = .holds := by
  have holds : (performAll (smallRing.pushAll [⟨7, .ofNanos 1⟩]) smallMonitor
      [.run]).2.verdict = .holds := by cbv
  have built : Monitor.build ⟨some smallMonitor.formula, .ofNanos 1, .standard, true⟩
      (smallRing.pushAll [⟨7, .ofNanos 1⟩]) = .ok smallMonitor := rfl
  have same := verdict_final create_smallRing [⟨7, .ofNanos 1⟩] built
    (.untl _ (.atom _) (.atom _)) (by simp [smallMonitor, Formula.Anchored, Formula.HasAtom]) [.run]
    [.push ⟨8, .ofNanos 2⟩, .push ⟨9, .ofNanos 3⟩, .push ⟨8, .ofNanos 4⟩, .run,
      .setOrigin (.ofNanos 1), .run]
    (by simp [smallMonitor]) (by decide) (by rw [holds]; decide)
  exact same.trans holds

end Monitor

end TimedTrace
