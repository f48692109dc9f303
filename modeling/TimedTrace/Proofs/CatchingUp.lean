import TimedTrace.Proofs.Consumption
import TimedTrace.Proofs.Finality

namespace TimedTrace

variable {α : Type}

theorem stretch_append_drop {events : List (Event α)} {first past : Nat} (upTo : first ≤ past)
    (inside : past ≤ events.length) :
    stretch events first past ++ events.drop past = events.drop first := by
  have room : first ≤ (events.take past).length := by
    rw [List.length_take]
    omega
  rw [stretch, ← List.drop_append_of_le_length room, List.take_append_drop]

namespace Reader

/-- The ring and the reader after one move after the other. -/
def performAll (ring : Ring α) (reader : Reader) (moves : List (Move α)) : Ring α × Reader :=
  moves.foldl (fun (ring, reader) move => (perform ring reader move).2) (ring, reader)

/-- The events pushed since the last synchronization, after one more move. -/
def Move.since (recent : List (Event α)) : Move α → List (Event α)
  | .push event => recent ++ [event]
  | .synchronize => []
  | .pull | .pop => recent

/-- The events that the moves have pushed since the last synchronization among them. -/
def pushedSince (moves : List (Move α)) : List (Event α) := moves.foldl Move.since []

/-- The reader watches its next event, which the ring has dropped and only its free slot still
holds. There is one unread event more than a window can have. -/
def Overhangs (reader : Reader) (ring : Ring α) : Prop :=
  reader.probe.map Probe.index = some reader.window.bottom ∧
    ring.window.top = reader.window.bottom

instance (reader : Reader) (ring : Ring α) : Decidable (reader.Overhangs ring) :=
  inferInstanceAs (Decidable (_ ∧ _))

/-- What holds of a ring that these events were pushed to, and of a reader that was synchronized
last before the recent ones were. -/
structure Lags (reader : Reader) (ring : Ring α) (pushed recent : List (Event α)) : Prop where
  filled : ring.Filled pushed
  suffix : recent <:+ pushed
  behind : reader = .fresh ∨ ∃ first past watched,
    reader.Tracks ring pushed first past watched ∧ past + recent.length ≤ pushed.length

section

variable {ring : Ring α} {reader after : Reader} {pushed recent : List (Event α)}
  {first past watched : Nat}

theorem Tracks.lags (tracks : reader.Tracks ring pushed first past watched)
    (filled : ring.Filled pushed) : reader.Lags ring pushed [] :=
  ⟨filled, List.nil_suffix, .inr ⟨first, past, watched, tracks, tracks.inside⟩⟩

theorem Lags.perform (lags : reader.Lags ring pushed recent) (move : Move α) :
    (Reader.perform ring reader move).2.2.Lags (Reader.perform ring reader move).2.1
      (pushed ++ pushes [move]) (move.since recent) := by
  obtain ⟨filled, suffix, behind⟩ := lags
  cases move with
  | push event =>
    obtain ⟨status, ringAfter, run, filledAfter, same⟩ := filled.push event
    have unfolded : Reader.perform ring reader (.push event) =
        (.pushed (.ok status), ringAfter, reader) := by rw [Reader.perform, run]
    rw [unfolded]
    refine ⟨filledAfter, (List.suffix_append_inj_of_length_eq rfl).2 ⟨suffix, rfl⟩,
      behind.imp_right ?_⟩
    rintro ⟨first, past, watched, tracks, behind⟩
    refine ⟨first, past, watched, tracks.push same event, ?_⟩
    simp only [Move.since, pushes, Move.pushed?, List.length_append, List.filterMap_cons,
      List.filterMap_nil, List.length_singleton]
    omega
  | synchronize =>
    rw [append_pushes rfl]
    rcases behind with rfl | ⟨first, past, watched, tracks, behind⟩
    · obtain ⟨after, run, past, watched, tracks, _⟩ := filled.adopt .fresh .init
      have sync : Reader.fresh.synchronize ring = (.ok .init, after) := run
      rw [Reader.perform, sync]
      exact tracks.lags filled
    · obtain ⟨status, after, next, run, ⟨past, watched, tracks, _⟩, _⟩ := tracks.synchronize filled
      rw [Reader.perform, run]
      exact tracks.lags filled
  | pull =>
    rw [append_pushes rfl]
    refine ⟨filled, suffix, ?_⟩
    rcases behind with rfl | ⟨first, past, watched, tracks, behind⟩
    · exact .inl rfl
    · right
      rcases tracks.pull filled with ⟨cause, run, _⟩ | ⟨event, after, next, run, _, tracksAfter⟩
      · rw [Reader.perform, run]
        exact ⟨first, past, watched, tracks, behind⟩
      · rw [Reader.perform, run]
        exact ⟨first + 1, past, next, tracksAfter, behind⟩
  | pop =>
    rw [append_pushes rfl]
    refine ⟨filled, suffix, ?_⟩
    rcases behind with rfl | ⟨first, past, watched, tracks, behind⟩
    · exact .inl rfl
    · right
      rcases tracks.pop filled with ⟨cause, run⟩ | ⟨event, after, newest, run, upTo, tracksAfter⟩
      · rw [Reader.perform, run]
        exact ⟨first, past, watched, tracks, behind⟩
      · rw [Reader.perform, run]
        exact ⟨first, newest, watched, tracksAfter,
          Nat.le_trans (Nat.add_le_add_right upTo _) behind⟩

/-- A whole run. -/
theorem Lags.performAll (lags : reader.Lags ring pushed recent) (moves : List (Move α)) :
    (Reader.performAll ring reader moves).2.Lags (Reader.performAll ring reader moves).1
      (pushed ++ pushes moves) (moves.foldl Move.since recent) := by
  induction moves generalizing ring reader pushed recent with
  | nil =>
    rw [show pushed ++ pushes ([] : List (Move α)) = pushed from List.append_nil _]
    exact lags
  | cons move moves ih =>
    rw [pushes_cons, ← List.append_assoc]
    exact ih (lags.perform move)

theorem status_of_adopt {status found : Synchronization}
    (run : reader.adopt ring status = (.ok found, after)) : found = status := by
  unfold adopt at run
  dsimp only at run
  split at run
  · cases run
  · cases run
    rfl

/-- A synchronization that reports no loss has found none, and moves the end of the window only. -/
theorem of_synchronize_soft (run : reader.synchronize ring = (.ok .soft, after)) :
    after.window = ⟨reader.window.bottom, ring.window.top⟩ ∧
      ∃ probe, reader.probe = some probe ∧ reader.lost probe ring = false := by
  unfold synchronize at run
  cases atProbe : reader.probe with
  | none =>
    rw [atProbe] at run
    cases status_of_adopt run
  | some probe =>
    rw [atProbe] at run
    dsimp only at run
    split at run
    · cases status_of_adopt run
    · rename_i safe
      refine ⟨?_, probe, rfl, by simpa using safe⟩
      split at run
      · split at run
        · cases run
        · cases run
          rfl
      · cases run
        rfl

/-- Unless the reader overhangs, its window ends where that of the ring does. -/
theorem Tracks.soft (tracks : reader.Tracks ring pushed first past watched)
    (filled : ring.Filled pushed) (run : reader.synchronize ring = (.ok .soft, after)) :
    pushed.length ≤ watched ∧
      (reader.Overhangs ring ∨
        ∃ watching, after.Tracks ring pushed first pushed.length watching ∧
          pushed.length ≤ watching) := by
  obtain ⟨window, probe, isProbe, safe⟩ := of_synchronize_soft run
  rw [tracks.probe] at isProbe
  cases isProbe
  have unlost : pushed.length ≤ watched := by
    refine Nat.not_lt.1 fun passed => ?_
    rw [(tracks.lost_iff filled).2 passed] at safe
    cases safe
  obtain ⟨status, found, next, runs, ⟨last, watching, tracksAfter, safeAfter, ends⟩, how⟩ :=
    tracks.synchronize filled
  rw [run] at runs
  cases runs
  rcases how with ⟨_, rfl⟩ | ⟨isHard, _⟩
  · refine ⟨unlost, ?_⟩
    by_cases caught : last = pushed.length
    · subst caught
      exact .inr ⟨watching, tracksAfter, safeAfter⟩
    · left
      obtain rfl := ends.resolve_left caught
      have bottom : reader.window.bottom = last % ring.size := by rw [tracks.window]
      have meets : ring.window.top = last % ring.size :=
        congrArg Window.top (window.symm.trans tracksAfter.window)
      have top : ring.window.top = pushed.length % ring.size := by rw [filled.window]
      rcases tracks.watches with ⟨next, _⟩ | ⟨behind, _⟩
      · refine ⟨?_, meets.trans bottom.symm⟩
        rw [tracks.probe, bottom, ← Nat.add_mod_right, ← next]
        rfl
      · -- The window is drained, so no event further on can be in the slot of the next one.
        have apart := ring.mod_eq_iff (Nat.le_trans tracks.upTo tracks.inside) (by omega)
        exact absurd (apart.1 (meets.symm.trans top)) caught
  · cases isHard

end

/-- A synchronization that reports no loss hides nothing, unless the reader overhangs: then its
window is empty afterwards. -/
theorem soft_hides_nothing {kind : RegisterKind} {capacity : Nat} {epoch : Time}
    {patience : Patience} {start ring : Ring α} {reader after : Reader}
    (created : Ring.create kind capacity epoch patience = .ok start) (moves : List (Move α))
    (ran : performAll start .fresh moves = (ring, reader))
    (soft : reader.synchronize ring = (.ok .soft, after)) :
    after.window.bottom = reader.window.bottom ∧
      (reader.Overhangs ring → after.isEmpty = true) ∧
      (¬ reader.Overhangs ring → ∃ unread more,
        reader.Shows ring unread ∧ after.Shows ring (unread ++ more) ∧
        unread ++ more <:+ pushes moves ∧ pushedSince moves <:+ more ∧
        reader.length ring ≤ after.length ring ∧
        ∀ event, (reader.pull ring).1 = .ok event → (after.pull ring).1 = .ok event) := by
  have lags := Lags.performAll ⟨.of_create created, List.suffix_refl [], .inl rfl⟩ moves
  rw [ran, List.nil_append] at lags
  obtain ⟨filled, suffix, behind⟩ := lags
  obtain ⟨window, probe, isProbe, _⟩ := of_synchronize_soft soft
  rw [window]
  refine ⟨rfl, fun overhangs => ?_, fun fits => ?_⟩
  · rw [isEmpty, window, decide_eq_true_eq]
    exact overhangs.2.symm
  · rcases behind with rfl | ⟨first, past, watched, tracks, behind⟩
    · cases isProbe
    · obtain ⟨safe, later⟩ := tracks.soft filled soft
      obtain ⟨watching, tracksAfter, safeAfter⟩ := later.resolve_left fits
      have shows := tracks.shows filled safe
      have showsAfter := tracksAfter.shows filled safeAfter
      have whole := stretch_append_drop tracks.upTo tracks.inside
      rw [stretch, List.take_length, ← whole] at showsAfter
      refine ⟨_, _, shows, showsAfter, ?_, ?_, ?_, fun event pulls => ?_⟩
      · rw [whole]
        exact List.drop_suffix ..
      · refine List.suffix_of_suffix_length_le suffix (List.drop_suffix ..) ?_
        rw [List.length_drop]
        exact Nat.le_sub_of_add_le' behind
      · rw [shows.length, showsAfter.length, List.length_append]
        exact Nat.le_add_right ..
      · rcases tracks.pull filled with ⟨cause, run, _⟩ | ⟨pulled, _, _, run, atFirst, _⟩
        · rw [run] at pulls
          cases pulls
        · rw [run] at pulls
          cases pulls
          have unread := (List.getElem?_eq_some_iff.1 atFirst).1
          rcases tracksAfter.pull filled with ⟨_, _, drained | lost⟩ | ⟨again, _, _, run, same, _⟩
          · omega
          · omega
          · rw [run]
            rw [atFirst] at same
            cases same
            rfl

/-- One event is unread and another was pushed, and there is room for both. -/
theorem soft_hides_nothing_small :
    ∃ ring reader after,
      performAll smallRing .fresh [.synchronize, .push ⟨1, .zero⟩, .synchronize, .push ⟨2, .zero⟩] =
        (ring, reader) ∧
      reader.synchronize ring = (.ok .soft, after) ∧ ¬ reader.Overhangs ring ∧
      ∃ unread more, reader.Shows ring unread ∧ after.Shows ring (unread ++ more) ∧
        unread ++ more <:+ [⟨1, .zero⟩, ⟨2, .zero⟩] ∧ [⟨2, .zero⟩] <:+ more ∧
        reader.length ring ≤ after.length ring ∧
        ∀ event, (reader.pull ring).1 = .ok event → (after.pull ring).1 = .ok event := by
  refine ⟨_, _, _, rfl, rfl, by decide, ?_⟩
  exact (soft_hides_nothing create_smallRing
    [.synchronize, .push ⟨1, .zero⟩, .synchronize, .push ⟨2, .zero⟩] rfl rfl).2.2 (by decide)

/-- One event is unread and two were pushed, which is one too many. The unread event is still in its
slot and can be pulled, until the reader is synchronized. -/
theorem soft_hides_overhanging :
    ∃ ring reader after,
      performAll smallRing .fresh [.synchronize, .push ⟨1, .zero⟩, .synchronize, .push ⟨2, .zero⟩,
        .push ⟨3, .zero⟩] = (ring, reader) ∧
      reader.length ring = 1 ∧ (reader.pull ring).1 = .ok ⟨1, .zero⟩ ∧
      reader.synchronize ring = (.ok .soft, after) ∧
      after.length ring = 0 ∧ (after.pull ring).1 = .error .unavailable :=
  ⟨_, _, _, rfl, rfl, rfl, rfl, rfl, rfl⟩

end Reader

end TimedTrace
