import TimedTrace.Proofs.Tracking

namespace TimedTrace

namespace Reader

/-- What is done to a ring and a reader. -/
inductive Move (α : Type) where
  | push (event : Event α)
  | synchronize
  | pull
  | pop
  deriving DecidableEq, Repr

/-- What comes of it. -/
inductive Outcome (α : Type) where
  | pushed (result : Except RingError Admission)
  | synchronized (result : Except ReaderError Synchronization)
  | pulled (result : Except ReaderError (Event α))
  | popped (result : Except ReaderError (Event α))
  deriving Repr

variable {α : Type}

def perform (ring : Ring α) (reader : Reader) : Move α → Outcome α × Ring α × Reader
  | .push event =>
    let (result, ring) := ring.push event
    (.pushed result, ring, reader)
  | .synchronize =>
    let (result, reader) := reader.synchronize ring
    (.synchronized result, ring, reader)
  | .pull =>
    let (result, reader) := reader.pull ring
    (.pulled result, ring, reader)
  | .pop =>
    let (result, reader) := reader.pop ring
    (.popped result, ring, reader)

/-- The outcomes of one move after the other. -/
def outcomes (ring : Ring α) (reader : Reader) : List (Move α) → List (Outcome α)
  | [] => []
  | move :: moves =>
    let (outcome, ring, reader) := perform ring reader move
    outcome :: outcomes ring reader moves

def Move.pushed? : Move α → Option (Event α)
  | .push event => some event
  | _ => none

/-- The events that the moves push, in order. -/
def pushes (moves : List (Move α)) : List (Event α) := moves.filterMap Move.pushed?

theorem pushes_cons (move : Move α) (moves : List (Move α)) :
    pushes (move :: moves) = pushes [move] ++ pushes moves :=
  List.filterMap_append (l := [move]) ..

theorem append_pushes {move : Move α} (nothing : move.pushed? = none) (pushed : List (Event α)) :
    pushed ++ pushes [move] = pushed := by
  simp [pushes, nothing]

/-- Whether the outcome is one that takes the reader on: a pull, or a reported loss. -/
def Outcome.moves : Outcome α → Bool
  | .pulled (.ok _) | .synchronized (.ok .hard) => true
  | _ => false

/-- How a move takes the reader on from one event number to the next: a pull by one, and a reported
loss by any number. Nothing else moves it. -/
inductive Advances (pushed : List (Event α)) : Outcome α → Nat → Nat → Prop
  | pulled {n : Nat} {event : Event α} : pushed[n]? = some event →
      Advances pushed (.pulled (.ok event)) n (n + 1)
  | jumped {n next : Nat} : n ≤ next → Advances pushed (.synchronized (.ok .hard)) n next
  | stayed {n : Nat} {outcome : Outcome α} : outcome.moves = false → Advances pushed outcome n n

section

variable {ring : Ring α} {reader : Reader} {pushed : List (Event α)} {first : Nat}

/-- One move of a synchronized reader. -/
theorem perform_advances (filled : ring.Filled pushed) (stands : reader.Stands ring pushed first)
    (move : Move α) :
    ∃ outcome ringAfter after next, perform ring reader move = (outcome, ringAfter, after) ∧
      ringAfter.Filled (pushed ++ pushes [move]) ∧
      after.Stands ringAfter (pushed ++ pushes [move]) next ∧
      Advances pushed outcome first next := by
  obtain ⟨past, watched, tracks⟩ := stands
  cases move with
  | push event =>
    obtain ⟨status, ringAfter, run, filledAfter, same⟩ := filled.push event
    exact ⟨.pushed (.ok status), ringAfter, reader, first, by rw [perform, run], filledAfter,
      ⟨past, watched, tracks.push same event⟩, .stayed rfl⟩
  | synchronize =>
    obtain ⟨status, after, next, run, ⟨past, watched, tracks, _⟩, how⟩ := tracks.synchronize filled
    rw [append_pushes rfl]
    refine ⟨.synchronized (.ok status), ring, after, next, by rw [perform, run], filled,
      ⟨past, watched, tracks⟩, ?_⟩
    rcases how with ⟨rfl, rfl⟩ | ⟨rfl, further, _⟩
    · exact .stayed rfl
    · exact .jumped (Nat.le_of_lt further)
  | pull =>
    rw [append_pushes rfl]
    rcases tracks.pull filled with ⟨cause, run, _⟩ | ⟨event, after, next, run, atFirst, tracks⟩
    · exact ⟨.pulled (.error cause), ring, reader, first, by rw [perform, run], filled,
        ⟨past, watched, tracks⟩, .stayed rfl⟩
    · exact ⟨.pulled (.ok event), ring, after, first + 1, by rw [perform, run], filled,
        ⟨past, next, tracks⟩, .pulled atFirst⟩
  | pop =>
    rw [append_pushes rfl]
    rcases tracks.pop filled with ⟨cause, run⟩ | ⟨event, after, newest, run, _, tracks⟩
    · exact ⟨.popped (.error cause), ring, reader, first, by rw [perform, run], filled,
        ⟨past, watched, tracks⟩, .stayed rfl⟩
    · exact ⟨.popped (.ok event), ring, after, first, by rw [perform, run], filled,
        ⟨newest, watched, tracks⟩, .stayed rfl⟩

/-- One move of a reader that was never synchronized. It pulls nothing. -/
theorem perform_fresh (filled : ring.Filled pushed) (move : Move α) :
    ∃ outcome ringAfter after, perform ring .fresh move = (outcome, ringAfter, after) ∧
      ringAfter.Filled (pushed ++ pushes [move]) ∧
      (after = .fresh ∨ ∃ next, after.Stands ringAfter (pushed ++ pushes [move]) next) ∧
      outcome.moves = false := by
  cases move with
  | push event =>
    obtain ⟨status, ringAfter, run, filledAfter, same⟩ := filled.push event
    exact ⟨.pushed (.ok status), ringAfter, .fresh, by rw [perform, run], filledAfter, .inl rfl,
      rfl⟩
  | synchronize =>
    obtain ⟨after, run, past, watched, tracks, _⟩ := filled.adopt .fresh .init
    have sync : Reader.fresh.synchronize ring = (.ok .init, after) := run
    rw [append_pushes rfl]
    exact ⟨.synchronized (.ok .init), ring, after, by rw [perform, sync], filled,
      .inr ⟨_, past, watched, tracks⟩, rfl⟩
  | pull =>
    rw [append_pushes rfl]
    exact ⟨_, ring, .fresh, rfl, filled, .inl rfl, rfl⟩
  | pop =>
    rw [append_pushes rfl]
    exact ⟨_, ring, .fresh, rfl, filled, .inl rfl, rfl⟩

/-- The reader stands before event `head i` when it makes move number `i`. -/
def Heads (head : Nat → Nat) (pushed : List (Event α)) (moves : List (Move α))
    (results : List (Outcome α)) : Prop :=
  ∀ i outcome, results[i]? = some outcome →
    Advances (pushed ++ pushes (moves.take i)) outcome (head i) (head (i + 1))

theorem Heads.cons {head : Nat → Nat} {move : Move α} {moves : List (Move α)}
    {outcome : Outcome α} {results : List (Outcome α)}
    (advances : Advances pushed outcome first (head 0))
    (rest : Heads head (pushed ++ pushes [move]) moves results) :
    Heads (fun i => if i = 0 then first else head (i - 1)) pushed (move :: moves)
      (outcome :: results) := by
  intro i result atI
  cases i with
  | zero =>
    cases atI
    simpa [pushes] using advances
  | succ i =>
    have later := rest i result atI
    rw [List.append_assoc, ← pushes_cons] at later
    simpa using later

/-- A run of a synchronized reader. -/
theorem exists_heads (filled : ring.Filled pushed) (stands : reader.Stands ring pushed first)
    (moves : List (Move α)) :
    ∃ head, head 0 = first ∧ Heads head pushed moves (outcomes ring reader moves) := by
  induction moves generalizing ring reader pushed first with
  | nil => exact ⟨fun _ => first, rfl, fun i outcome atI => by simp [outcomes] at atI⟩
  | cons move moves ih =>
    obtain ⟨outcome, ringAfter, after, next, run, filledAfter, standsAfter, advances⟩ :=
      perform_advances filled stands move
    obtain ⟨head, start, heads⟩ := ih filledAfter standsAfter
    rw [← start] at advances
    rw [outcomes, run]
    exact ⟨_, rfl, heads.cons advances⟩

/-- A run of a reader that was never synchronized before. -/
theorem exists_heads_fresh (filled : ring.Filled pushed) (moves : List (Move α)) :
    ∃ head, Heads head pushed moves (outcomes ring .fresh moves) := by
  induction moves generalizing ring pushed with
  | nil => exact ⟨id, fun i outcome atI => by simp [outcomes] at atI⟩
  | cons move moves ih =>
    obtain ⟨outcome, ringAfter, after, run, filledAfter, standing, still⟩ :=
      perform_fresh filled move
    have rest : ∃ head, Heads head (pushed ++ pushes [move]) moves
        (outcomes ringAfter after moves) := by
      rcases standing with rfl | ⟨next, stands⟩
      · exact ih filledAfter
      · obtain ⟨head, _, heads⟩ := exists_heads filledAfter stands moves
        exact ⟨head, heads⟩
    obtain ⟨head, heads⟩ := rest
    rw [outcomes, run]
    exact ⟨_, heads.cons (.stayed still)⟩

end

section

variable {head : Nat → Nat} {pushed : List (Event α)} {moves : List (Move α)}
  {results : List (Outcome α)}

theorem Advances.le {outcome : Outcome α} {n next : Nat}
    (advances : Advances pushed outcome n next) : n ≤ next := by
  cases advances with
  | pulled => exact Nat.le_succ n
  | jumped further => exact further
  | stayed => exact Nat.le_refl n

theorem Advances.eq {outcome : Outcome α} {n next : Nat}
    (advances : Advances pushed outcome n next) (still : outcome.moves = false) : next = n := by
  cases advances with
  | pulled => cases still
  | jumped => cases still
  | stayed => rfl

theorem Advances.of_pulled {event : Event α} {n next : Nat}
    (advances : Advances pushed (.pulled (.ok event)) n next) :
    pushed[n]? = some event ∧ next = n + 1 := by
  cases advances with
  | pulled atN => exact ⟨atN, rfl⟩
  | stayed still => cases still

/-- An outcome that is neither a pull nor a reported loss leaves the reader where it is. -/
theorem Outcome.moves_eq_false {outcome : Outcome α}
    (notPulled : ∀ event, outcome ≠ .pulled (.ok event))
    (notHard : outcome ≠ .synchronized (.ok .hard)) : outcome.moves = false := by
  unfold Outcome.moves
  split
  · rename_i event
    exact absurd rfl (notPulled event)
  · exact absurd rfl notHard
  · rfl

theorem Heads.le (heads : Heads head pushed moves results) {i : Nat} (steps : Nat)
    (room : i + steps ≤ results.length) : head i ≤ head (i + steps) := by
  induction steps with
  | zero => exact Nat.le_refl _
  | succ steps ih =>
    have advances := heads _ _ (List.getElem?_eq_getElem (show i + steps < results.length by omega))
    exact Nat.le_trans (ih (by omega)) advances.le

theorem Heads.eq (heads : Heads head pushed moves results) {i : Nat} (steps : Nat)
    (room : i + steps ≤ results.length)
    (still : ∀ k outcome, i ≤ k → k < i + steps → results[k]? = some outcome →
      outcome.moves = false) : head (i + steps) = head i := by
  induction steps with
  | zero => rfl
  | succ steps ih =>
    have last := List.getElem?_eq_getElem (show i + steps < results.length by omega)
    have stays := (heads _ _ last).eq (still _ _ (by omega) (by omega) last)
    have before := ih (by omega) fun k outcome lower upper => still k outcome lower (by omega)
    exact stays.trans before

end

/-- The pulls of a run are numbered as their events were pushed. -/
structure InOrder (number : Nat → Nat) (moves : List (Move α)) (results : List (Outcome α)) :
    Prop where
  pushed : ∀ i event, results[i]? = some (.pulled (.ok event)) →
    (pushes (moves.take i))[number i]? = some event
  increasing : ∀ i j a b, i < j → results[i]? = some (.pulled (.ok a)) →
    results[j]? = some (.pulled (.ok b)) → number i < number j
  gap : ∀ i j a b, i < j → results[i]? = some (.pulled (.ok a)) →
    results[j]? = some (.pulled (.ok b)) →
    (∀ k c, i < k → k < j → results[k]? ≠ some (.pulled (.ok c))) →
    number j ≠ number i + 1 → ∃ k, i < k ∧ k < j ∧ results[k]? = some (.synchronized (.ok .hard))

/-- A reader of a ring that is changed by pushes only pulls events in the order they were pushed in,
and leaves none out except where a synchronization reports a loss. -/
theorem consumes_in_order {kind : RegisterKind} {capacity : Nat} {epoch : Time}
    {patience : Patience} {ring : Ring α}
    (created : Ring.create kind capacity epoch patience = .ok ring) (moves : List (Move α)) :
    ∃ number, InOrder number moves (outcomes ring .fresh moves) := by
  obtain ⟨head, heads⟩ := exists_heads_fresh (Ring.Filled.of_create created) moves
  generalize outcomes ring .fresh moves = results at heads
  have next {i : Nat} {event : Event α} (atI : results[i]? = some (.pulled (.ok event))) :
      head (i + 1) = head i + 1 := (heads i _ atI).of_pulled.2
  have room {j : Nat} {outcome : Outcome α} (atJ : results[j]? = some outcome) :
      j < results.length := (List.getElem?_eq_some_iff.1 atJ).1
  refine ⟨head, fun i event atI => ?_, fun i j a b before atI atJ => ?_, ?_⟩
  · simpa using (heads i _ atI).of_pulled.1
  · have later := heads.le (j - (i + 1)) (show i + 1 + (j - (i + 1)) ≤ results.length by
      have := room atJ
      omega)
    rw [show i + 1 + (j - (i + 1)) = j by omega, next atI] at later
    exact later
  · intro i j a b before atI atJ between apart
    refine Classical.byContradiction fun noGap => ?_
    have still (k : Nat) (outcome : Outcome α) (lower : i + 1 ≤ k)
        (upper : k < i + 1 + (j - (i + 1))) (atK : results[k]? = some outcome) :
        outcome.moves = false := by
      refine Outcome.moves_eq_false ?_ ?_
      · rintro event rfl
        exact between k event (by omega) (by omega) atK
      · rintro rfl
        exact noGap ⟨k, by omega, by omega, atK⟩
    have stays := heads.eq (j - (i + 1)) (by have := room atJ; omega) still
    rw [show i + 1 + (j - (i + 1)) = j by omega, next atI] at stays
    exact apart stays

/-- Events of one time and one value, of which the reader misses two. -/
theorem consumes_in_order_small :
    ∃ number, InOrder number
      [.synchronize, .push ⟨7, .zero⟩, .push ⟨7, .zero⟩, .synchronize, .pull, .push ⟨7, .zero⟩,
        .push ⟨7, .zero⟩, .push ⟨7, .zero⟩, .pull, .synchronize, .pull]
      [.synchronized (.ok .init), .pushed (.ok .stored), .pushed (.ok .stored),
        .synchronized (.ok .soft), .pulled (.ok (⟨7, .zero⟩ : Event Nat)),
        .pushed (.ok .displaced), .pushed (.ok .displaced), .pushed (.ok .displaced),
        .pulled (.error .overflow), .synchronized (.ok .hard), .pulled (.ok ⟨7, .zero⟩)] :=
  consumes_in_order create_smallRing _

end Reader

end TimedTrace
