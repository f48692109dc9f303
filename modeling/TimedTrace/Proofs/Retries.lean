import TimedTrace.Proofs.Quiescence

namespace TimedTrace

variable {α β : Type}

/-- So many swaps fail, one after the other. -/
def losing (α : Type) (count : Nat) : List (Turn α Unit) := List.replicate count ⟨id, true⟩

theorem Patience.exhausted_rounds_iff {limit lost : Nat} :
    (Patience.rounds limit).exhausted lost = true ↔ limit ≤ lost := decide_eq_true_iff

namespace Ring

section

variable {opening : Ring α → Opening α β} {ring marked : Ring α} {round : Round α β}
  (opens : opening ring = .ready round marked) (marks : round.Marks ring marked)

include opens

/-- A round that gets through does so however many were lost before. -/
theorem contend_won {answer : β} {after : Ring α}
    (publishes : round.publish marked = (some answer, after)) (lost : Nat) :
    contend opening ([] : List (Turn α Unit)) lost (ring, ()) = (.ok answer, after, ()) := by
  rw [contend, opens]
  dsimp only
  rw [publishes]

include marks

/-- A round that fails for no reason leaves the ring to the next one as it found it. -/
theorem contend_lost (count lost : Nat) :
    contend opening (losing α (count + 1)) lost (ring, ()) =
      if ring.patience.exhausted (lost + 1) then (.error (.contended (lost + 1)), ring, ())
      else contend opening (losing α count) (lost + 1) (ring, ()) := by
  have attempt : round.attempt true marked = (none, ring) :=
    congrArg (Prod.mk none) marks.withdraw_eq
  rw [losing, List.replicate_succ, contend, opens]
  dsimp only [id_eq]
  rw [attempt]
  rfl

/-- Rounds that do not exhaust the patience of the ring do not count. -/
theorem contend_spared {count lost : Nat} (spared : ∀ rounds, lost < rounds →
      rounds ≤ lost + count → ring.patience.exhausted rounds = false) :
    contend opening (losing α count) lost (ring, ()) =
      contend opening [] (lost + count) (ring, ()) := by
  induction count generalizing lost with
  | zero => rfl
  | succ count ih =>
    have next := spared (lost + 1) (by omega) (by omega)
    have rest := @ih (lost + 1) fun rounds after upTo => spared rounds (by omega) (by omega)
    rw [contend_lost opens marks, next, if_neg Bool.false_ne_true, rest, Nat.add_right_comm,
      Nat.add_assoc]

/-- The round that exhausts the patience is the last, whatever would have come after it. -/
theorem contend_exhausted {limit count lost : Nat} (patience : ring.patience = .rounds limit)
    (before : lost < max limit 1) (enough : max limit 1 ≤ lost + count) :
    contend opening (losing α count) lost (ring, ()) =
      (.error (.contended (max limit 1)), ring, ()) := by
  induction count generalizing lost with
  | zero => omega
  | succ count ih =>
    rw [contend_lost opens marks, patience]
    by_cases last : limit ≤ lost + 1
    · rw [if_pos (Patience.exhausted_rounds_iff.2 last), show lost + 1 = max limit 1 by omega]
    · rw [if_neg (mt Patience.exhausted_rounds_iff.1 last)]
      exact ih (by omega) (by omega)

end

/-- The update ends as it would if no swap had failed: it gets through. -/
def GetsThrough (ring : Ring α) (opening : Ring α → Opening α β) (lost : Nat) : Prop :=
  ∃ answer after, ring.uncontended opening = (.ok answer, after) ∧
    contend opening (losing α lost) 0 (ring, ()) = (.ok answer, after, ())

/-- What becomes of an update that loses so many rounds. If the patience is limited, though never to
less than one round, it gives up with the last round that it may lose, and the ring is as it was
before. If it loses fewer rounds it gets through, and so it does if the patience is endless. -/
def Spends (ring : Ring α) (patience : Patience) (opening : Ring α → Opening α β) (lost : Nat) :
    Prop :=
  match patience with
  | .endless => ring.GetsThrough opening lost
  | .rounds limit =>
    if max limit 1 ≤ lost then
      contend opening (losing α lost) 0 (ring, ()) = (.error (.contended (max limit 1)), ring, ())
    else ring.GetsThrough opening lost

theorem GetsThrough.of_spared {ring marked : Ring α} {items : List (Event α)}
    (holds : ring.Holds items) {opening : Ring α → Opening α β} {deed : β → Deed α}
    {round : Round α β} (prepared : round.Prepared deed ring marked)
    (opens : opening ring = .ready round marked) {lost : Nat}
    (spared : ∀ rounds, 0 < rounds → rounds ≤ lost → ring.patience.exhausted rounds = false) :
    ring.GetsThrough opening lost := by
  have marks := prepared.marks
  rcases prepared.publish_cases (.refl marked) (marks.holds holds) (fun _ => by decide) with
    ⟨after, publishes, _⟩ | ⟨_, _, stale, _⟩
  · have won := contend_won opens publishes
    refine ⟨round.answer marked.writers, after, ?_, ?_⟩
    · rw [uncontended, won 0]
    · rw [contend_spared opens marks (by simpa using spared), won (0 + lost)]
  · rw [marks.register_eq, prepared.token] at stale
    exact absurd rfl stale

/-- An update of a ring in order that can begin a round. -/
theorem Holds.spends {ring marked : Ring α} {items : List (Event α)} (holds : ring.Holds items)
    {opening : Ring α → Opening α β} {deed : β → Deed α} (serves : Serves opening deed)
    {round : Round α β} (opens : opening ring = .ready round marked) (lost : Nat) :
    ring.Spends ring.patience opening lost := by
  have prepared := serves holds opens
  cases patience : ring.patience with
  | endless =>
    refine GetsThrough.of_spared holds prepared opens fun _ _ _ => ?_
    rw [patience]
    rfl
  | rounds limit =>
    unfold Spends
    dsimp only
    split
    · exact contend_exhausted opens prepared.marks patience (by omega) (by omega)
    · refine GetsThrough.of_spared holds prepared opens fun rounds positive upTo => ?_
      rw [patience]
      exact decide_eq_false (by omega)

theorem Holds.spends_append {ring : Ring α} {items : List (Event α)} (holds : ring.Holds items)
    (calm : ring.Calm) (event : Event α) (lost : Nat) :
    ring.Spends ring.patience (Ring.append event) lost := by
  obtain ⟨slot, atTop⟩ := exists_slot holds.top_lt
  have opens := Holds.append_eq event atTop
  rw [if_pos (calm _ slot atTop)] at opens
  exact holds.spends (serves_append event) opens lost

/-- A take finds out that there is nothing to take before it swaps. -/
theorem Holds.spends_take {ring : Ring α} {items : List (Event α)} (holds : ring.Holds items)
    (end_ : End) (lost : Nat) :
    if ring.isEmpty then
      contend end_.opening (losing α lost) 0 (ring, ()) = (.error .empty, ring, ())
    else ring.Spends ring.patience end_.opening lost := by
  have opens := holds.take_eq end_
  rw [holds.presents.isEmpty]
  cases items with
  | nil =>
    have none : end_.item? ([] : List (Event α)) = none := (end_.item?_eq_none_iff []).2 rfl
    rw [none] at opens
    unfold contend
    rw [opens]
    rfl
  | cons first rest =>
    have some : end_.item? (first :: rest) ≠ none :=
      mt (end_.item?_eq_none_iff _).1 (List.cons_ne_nil _ _)
    obtain ⟨event, isEvent⟩ := Option.ne_none_iff_exists'.1 some
    rw [isEvent] at opens
    exact holds.spends (serves_take end_) opens lost

theorem patience_of_create {kind : RegisterKind} {capacity : Nat} {epoch : Time}
    {patience : Patience} {ring : Ring α}
    (created : Ring.create kind capacity epoch patience = .ok ring) : ring.patience = patience := by
  unfold create at created
  split at created
  · split at created
    · cases created
      rfl
    · cases created
  · cases created

end Ring

namespace Round

@[simp] theorem patience_withdraw (round : Round α β) (ring : Ring α) :
    (round.withdraw ring).patience = ring.patience := by
  unfold withdraw
  split
  · rfl
  · exact Ring.patience_setStamp ..

@[simp] theorem patience_complete (round : Round α β) (ring : Ring α) :
    (round.complete ring).patience = ring.patience := by
  unfold complete
  split
  · rfl
  · rfl

end Round

namespace Traffic

variable (traffic : Traffic α)

theorem patience_start (update : Update α) :
    (traffic.start update).ring.patience = traffic.ring.patience := by
  rcases traffic.start_cases update with same | ⟨round, marked, begun, run⟩
  · rw [same]
  · rw [run]
    rcases (Update.marks_of_round? begun).cases with ⟨_, rfl⟩ | ⟨mark, slot, _, rfl, _⟩
    · rfl
    · exact Ring.patience_setStamp ..

theorem patience_swap (number : Nat) (fails : Bool) :
    (traffic.swap number fails).ring.patience = traffic.ring.patience := by
  rcases traffic.swap_cases number fails with same | ⟨_, round, _, _, _, ⟨_, run⟩ | ⟨_, run⟩⟩
  · rw [same]
  · rw [run]
  · rw [run]
    exact round.patience_withdraw _

theorem patience_fill (number : Nat) :
    (traffic.fill number).ring.patience = traffic.ring.patience := by
  rcases traffic.fill_cases number with ⟨_, same⟩ | ⟨_, round, _, _, _, run⟩
  · rw [same]
  · rw [run]
    exact round.patience_complete _

theorem patience_apply (update : Update α) :
    (update.apply traffic.ring).patience = traffic.ring.patience := by
  rcases traffic.apply_cases update with ⟨_, same⟩ | ⟨_, _, _, ⟨_, same⟩ | ⟨_, same⟩⟩
  · exact congrArg (·.ring.patience) same
  · refine (congrArg (·.ring.patience) same).trans ?_
    exact (patience_swap _ 0 false).trans (traffic.patience_start update)
  · refine (congrArg (·.ring.patience) same).trans ?_
    refine (patience_fill _ 0).trans ((patience_swap _ 0 false).trans ?_)
    exact traffic.patience_start update

theorem patience_step (motion : Motion α) :
    (traffic.step motion).ring.patience = traffic.ring.patience := by
  cases motion with
  | start update => exact traffic.patience_start update
  | swap number fails => exact traffic.patience_swap number fails
  | fill number => exact traffic.patience_fill number
  | perform operation =>
    cases operation with
    | push event => exact traffic.patience_apply (.append event)
    | pull => exact traffic.patience_apply (.take .oldest)
    | pop => exact traffic.patience_apply (.take .newest)
    | read index => rfl
    | attachWriter | detachWriter => rfl
    | write event index =>
      unfold step Ring.perform
      dsimp only
      rcases traffic.ring.write_cases event index with ⟨_, run⟩ | ⟨slot, _, run⟩
      · rw [run]
        rfl
      · rw [run]
        rfl

theorem patience_after (motions : List (Motion α)) :
    (traffic.after motions).ring.patience = traffic.ring.patience := by
  induction motions generalizing traffic with
  | nil => rfl
  | cons motion motions ih => exact (ih _).trans (traffic.patience_step motion)

end Traffic

/-- The budget of lost rounds is exact, and giving up is harmless. Whatever has happened to the
ring, as long as no append is on its way: an append or a take whose swaps fail so many times gives
up with the last round that it may lose, and leaves the ring as it was; if it may lose more it ends
as if none of them had failed. From an empty ring there is nothing to take, whatever fails. -/
theorem retries_exact {kind : RegisterKind} {capacity : Nat} {epoch : Time} {patience : Patience}
    {start : Ring α} (created : Ring.create kind capacity epoch patience = .ok start)
    {motions : List (Motion α)} {traffic : Traffic α}
    (ran : (Traffic.idle start).after motions = traffic) (atRest : marksOf traffic.flights = [])
    (lost : Nat) :
    (∀ event, traffic.ring.Spends patience (Ring.append event) lost) ∧
      ∀ end_ : End,
        if traffic.ring.isEmpty then
          Ring.contend end_.opening (losing α lost) 0 (traffic.ring, ()) =
            (.error .empty, traffic.ring, ())
        else traffic.ring.Spends patience end_.opening lost := by
  subst ran
  obtain ⟨calm, items, holds⟩ := Traffic.holds_at_rest created atRest
  have kept : ((Traffic.idle start).after motions).ring.patience = patience :=
    ((Traffic.idle start).patience_after motions).trans (Ring.patience_of_create created)
  have append (event : Event α) := holds.spends_append calm event lost
  have take (end_ : End) := holds.spends_take end_ lost
  rw [kept] at append take
  exact ⟨append, take⟩

/-- A ring whose updates may lose two rounds. -/
def hastyRing : Ring Nat := { smallRing with patience := .rounds 2 }

theorem create_hastyRing : Ring.create .packed 2 .zero (.rounds 2) = .ok hastyRing := rfl

/-- An append that finds its slot marked, a slot that is overwritten under its mark, and a round
that is lost. -/
def contested : List (Motion Nat) :=
  [.start (.append ⟨1, .zero⟩), .perform (.push ⟨2, .zero⟩), .perform (.write ⟨3, .zero⟩ 0),
    .perform (.push ⟨4, .zero⟩), .swap 0 false, .start (.take .oldest)]

theorem retries_exact_hasty :
    ∃ traffic, (Traffic.idle hastyRing).after contested = traffic ∧
      marksOf traffic.flights = [] ∧ traffic.ring.isEmpty = false ∧
      Ring.contend (Ring.append ⟨9, .zero⟩) (losing Nat 3) 0 (traffic.ring, ()) =
        (.error (.contended 2), traffic.ring, ()) ∧
      traffic.ring.GetsThrough (Ring.append ⟨9, .zero⟩) 1 ∧
      traffic.ring.GetsThrough End.newest.opening 1 := by
  have ran : (Traffic.idle hastyRing).after contested = (Traffic.idle hastyRing).after contested :=
    rfl
  refine ⟨_, ran, rfl, rfl, ?_, ?_, ?_⟩
  · exact (retries_exact create_hastyRing ran rfl 3).1 ⟨9, .zero⟩
  · exact (retries_exact create_hastyRing ran rfl 1).1 ⟨9, .zero⟩
  · exact (retries_exact create_hastyRing ran rfl 1).2 .newest

end TimedTrace
