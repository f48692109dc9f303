import Mathlib.Data.List.TakeWhile
import TimedTrace.Proofs.Seek

namespace TimedTrace

variable {α β : Type} {events : List (Event α)}

/-- The first of the points after `c`, if there is one. -/
def IsNext (points : Int → Prop) (c : Int) : Option Int → Prop
  | some next => points next ∧ c < next ∧ ∀ point, points point → c < point → next ≤ point
  | none => ∀ point, points point → point ≤ c

theorem IsNext.congr {points others : Int → Prop} {c : Int} {found : Option Int}
    (next : IsNext points c found) (same : ∀ point, points point ↔ others point) :
    IsNext others c found := by
  rwa [← funext fun point => propext (same point)]

theorem IsNext.merge {points others : Int → Prop} {c : Int} {a b : Option Int}
    (first : IsNext points c a) (second : IsNext others c b) :
    IsNext (fun point => points point ∨ others point) c (Option.merge min a b) := by
  cases a with
  | none =>
    cases b with
    | none => exact fun point either => either.elim (first point) (second point)
    | some next =>
      refine ⟨.inr second.1, second.2.1, fun point either after => ?_⟩
      rcases either with here | there
      · have := first point here
        omega
      · exact second.2.2 point there after
  | some next =>
    cases b with
    | none =>
      refine ⟨.inl first.1, first.2.1, fun point either after => ?_⟩
      rcases either with here | there
      · exact first.2.2 point here after
      · have := second point there
        omega
    | some other =>
      refine ⟨?_, lt_min first.2.1 second.2.1, fun point either after => ?_⟩
      · rcases min_choice next other with least | least
        · exact .inl (by rw [least]; exact first.1)
        · exact .inr (by rw [least]; exact second.1)
      · rcases either with here | there
        · exact (min_le_left _ _).trans (first.2.2 point here after)
        · exact (min_le_right _ _).trans (second.2.2 point there after)

theorem IsNext.sub {points : Int → Prop} {c shift : Int} {found : Option Int}
    (next : IsNext points (c + shift) found) :
    IsNext (fun point => points (point + shift)) c (found.map (· - shift)) := by
  cases found with
  | none =>
    intro point here
    have := next _ here
    omega
  | some e =>
    have same : e - shift + shift = e := by omega
    obtain ⟨here, after, least⟩ := next
    refine ⟨by simpa only [same] using here, Int.lt_sub_right_of_add_lt after,
      fun point there later => ?_⟩
    exact Int.sub_right_le_of_le_add (least _ there (by omega))

/-- The last of the points before `c`, if there is one. -/
def IsPrevious (points : Int → Prop) (c : Int) : Option Int → Prop
  | some previous =>
    points previous ∧ previous < c ∧ ∀ point, points point → point < c → point ≤ previous
  | none => ∀ point, points point → c ≤ point

/-- What is previous is next in the mirror. -/
theorem isPrevious_iff {points : Int → Prop} {c : Int} {found : Option Int} :
    IsPrevious points c found ↔ IsNext (fun point => points (-point)) (-c) (found.map Neg.neg) := by
  have mirrored {holds : Int → Prop} : (∀ point, holds (-point)) ↔ ∀ point, holds point :=
    ⟨fun all point => by simpa only [neg_neg] using all (-point), fun all point => all (-point)⟩
  cases found with
  | none =>
    rw [IsPrevious, ← mirrored]
    exact forall_congr' fun point => imp_congr_right fun _ => by omega
  | some previous =>
    rw [IsPrevious, ← mirrored]
    dsimp only [Option.map_some, IsNext]
    rw [neg_neg, neg_lt_neg_iff]
    refine and_congr_right' (and_congr_right' (forall_congr' fun point => ?_))
    exact imp_congr_right fun _ => imp_congr (by omega) (by omega)

theorem IsPrevious.congr {points others : Int → Prop} {c : Int} {found : Option Int}
    (previous : IsPrevious points c found) (same : ∀ point, points point ↔ others point) :
    IsPrevious others c found := by
  rwa [← funext fun point => propext (same point)]

/-- There is one previous point, also among others that do not differ before `c`. -/
theorem IsPrevious.unique {points others : Int → Prop} {c : Int} {a b : Option Int}
    (first : IsPrevious points c a) (second : IsPrevious others c b)
    (same : ∀ point, point < c → (points point ↔ others point)) : a = b := by
  cases a with
  | none =>
    cases b with
    | none => rfl
    | some y =>
      obtain ⟨here, before, _⟩ := second
      have := first y ((same y before).2 here)
      omega
  | some x =>
    obtain ⟨here, before, last⟩ := first
    cases b with
    | none =>
      have := second x ((same x before).1 here)
      omega
    | some y =>
      obtain ⟨there, beforeToo, lastToo⟩ := second
      have upper := last y ((same y beforeToo).2 there) beforeToo
      have lower := lastToo x ((same x before).1 here) before
      rw [le_antisymm lower upper]

theorem IsPrevious.merge {points others : Int → Prop} {c : Int} {a b : Option Int}
    (first : IsPrevious points c a) (second : IsPrevious others c b) :
    IsPrevious (fun point => points point ∨ others point) c (Option.merge max a b) := by
  have mirrored : (Option.merge max a b).map Neg.neg =
      Option.merge min (a.map Neg.neg) (b.map Neg.neg) := by
    cases a with
    | none => cases b <;> rfl
    | some x =>
      cases b with
      | none => rfl
      | some y => exact congrArg some (show -max x y = min (-x) (-y) by omega)
  rw [isPrevious_iff, mirrored]
  exact (isPrevious_iff.1 first).merge (isPrevious_iff.1 second)

theorem IsPrevious.sub {points : Int → Prop} {c shift : Int} {found : Option Int}
    (previous : IsPrevious points (c + shift) found) :
    IsPrevious (fun point => points (point + shift)) c (found.map (· - shift)) := by
  have mirrored : (found.map (· - shift)).map Neg.neg = (found.map Neg.neg).map (· - -shift) := by
    cases found with
    | none => rfl
    | some e => exact congrArg some (show -(e - shift) = -e - -shift by omega)
  rw [isPrevious_iff, mirrored]
  have moved : IsNext (fun point => points (-point)) (-c + -shift) (found.map Neg.neg) := by
    rw [show -c + -shift = -(c + shift) by omega]
    exact isPrevious_iff.1 previous
  exact moved.sub.congr fun point => iff_of_eq (congrArg points (by omega))

/-- Nothing lies between an instant and a later one if all points lie before the first. -/
theorem IsPrevious.from_later {points : Int → Prop} {c later : Int} {found : Option Int}
    (previous : IsPrevious points c found) (after : c ≤ later)
    (all : ∀ point, points point → point < c) : IsPrevious points later found := by
  cases found with
  | none =>
    intro point here
    have := previous point here
    have := all point here
    omega
  | some e =>
    obtain ⟨here, before, last⟩ := previous
    exact ⟨here, before.trans_le after, fun point there _ => last point there (all point there)⟩

/-- Only the points from zero on count. -/
theorem IsPrevious.filter {points : Int → Prop} {c : Int} {found : Option Int}
    (previous : IsPrevious points c found) :
    IsPrevious (fun point => 0 ≤ point ∧ points point) c (found.filter (0 ≤ ·)) := by
  cases found with
  | none => exact fun point both => previous point both.2
  | some e =>
    obtain ⟨here, before, last⟩ := previous
    by_cases nonnegative : 0 ≤ e
    · have kept : (some e).filter (0 ≤ ·) = some e := by simp [nonnegative]
      rw [kept]
      exact ⟨⟨nonnegative, here⟩, before, fun point both => last point both.2⟩
    · have leftOut : (some e).filter (0 ≤ ·) = none := by simpa using nonnegative
      rw [leftOut]
      intro point both
      by_contra behind
      have := last point both.2 (by omega)
      omega

/-- Events before the `k`-th lie at or before `c`, and the others after it. -/
theorem Ordered.isNext (ordered : Ordered events) {c : Int} {k : Nat}
    (below : ∀ i event, i < k → events[i]? = some event → event.time.toInstant ≤ c)
    (above : ∀ event, events[k]? = some event → c < event.time.toInstant) :
    IsNext (fun point => ∃ event ∈ events, event.time.toInstant = point) c
      (events[k]?.map fun event => event.time.toInstant) := by
  cases atK : events[k]? with
  | none =>
    rintro point ⟨event, member, rfl⟩
    obtain ⟨i, atI⟩ := List.mem_iff_getElem?.1 member
    have room := (List.getElem?_eq_some_iff.1 atI).1
    have all := List.getElem?_eq_none_iff.1 atK
    exact below i event (by omega) atI
  | some next =>
    refine ⟨⟨next, List.mem_of_getElem? atK, rfl⟩, above next atK, ?_⟩
    rintro point ⟨event, member, rfl⟩ after
    obtain ⟨i, atI⟩ := List.mem_iff_getElem?.1 member
    refine ordered.le (Nat.le_of_not_lt fun early => ?_) atK atI
    have := below i event early atI
    omega

/-- Events before the `k`-th lie before `c`, and the others not. -/
theorem Ordered.isPrevious (ordered : Ordered events) {c : Int} {k : Nat}
    (within : k ≤ events.length)
    (below : ∀ i event, events[i]? = some event → (i < k ↔ event.time.toInstant < c)) :
    IsPrevious (fun point => ∃ event ∈ events, event.time.toInstant = point) c
      (if k = 0 then none else events[k - 1]?.map fun event => event.time.toInstant) := by
  by_cases nothing : k = 0
  · rw [if_pos nothing]
    rintro point ⟨event, member, rfl⟩
    obtain ⟨i, atI⟩ := List.mem_iff_getElem?.1 member
    exact Int.not_lt.1 (mt (below i event atI).2 (by omega))
  · have atLast := List.getElem?_eq_getElem (show k - 1 < events.length by omega)
    rw [if_neg nothing, atLast]
    refine ⟨⟨_, List.mem_of_getElem? atLast, rfl⟩, (below _ _ atLast).1 (by omega), ?_⟩
    rintro point ⟨event, member, rfl⟩ before
    obtain ⟨i, atI⟩ := List.mem_iff_getElem?.1 member
    have early := (below i event atI).2 before
    exact ordered.le (by omega) atI atLast

/-- The value of an atom at an instant: known if an event is in force there and the trace reaches
that far. -/
inductive AtomValue [DecidableEq α] (events : List (Event α)) (data : α) (c : Int) : Verdict → Prop
  | known {event : Event α} : InForce events c event → Reaches events c →
      AtomValue events data c (.ofBool (event.data = data))
  | unknown : (∀ event, InForce events c event → ¬ Reaches events c) →
      AtomValue events data c .unknown

section

variable [DecidableEq α] {data : α} {c : Int} {a b : Verdict}

theorem AtomValue.unique (first : AtomValue events data c a) (second : AtomValue events data c b) :
    a = b := by
  cases first with
  | known inForce reaches =>
    cases second with
    | known other _ => rw [inForce.unique other]
    | unknown nothing => exact absurd reaches (nothing _ inForce)
  | unknown nothing =>
    cases second with
    | known inForce reaches => exact absurd reaches (nothing _ inForce)
    | unknown _ => rfl

theorem AtomValue.congr {others : List (Event α)} {d : Int}
    (atom : AtomValue events data c a)
    (inForce : ∀ event, InForce events c event ↔ InForce others d event)
    (reaches : Reaches events c ↔ Reaches others d) : AtomValue others data d a := by
  cases atom with
  | known here reach => exact .known ((inForce _).1 here) (reaches.1 reach)
  | unknown nothing =>
    refine .unknown fun event there reach => ?_
    exact nothing event ((inForce event).2 there) (reaches.2 reach)

end

theorem Ordered.inForce_border (ordered : Ordered events) {time : Time} {event : Event α}
    (occupied : border events time ≠ 0)
    (atBorder : events[border events time - 1]? = some event) :
    InForce events time.toInstant event := by
  refine ⟨border events time - 1, atBorder, ?_, fun j later after atJ => ?_⟩
  · exact Time.toInstant_le_iff.2 ((lt_border_iff ordered time atBorder).1 (by omega))
  · have late := mt (lt_border_iff ordered time atJ).2 (by omega)
    exact Int.not_le.1 (mt Time.toInstant_le_iff.1 late)

theorem Ordered.not_inForce (ordered : Ordered events) {time : Time}
    (nothing : border events time = 0) (event : Event α) :
    ¬ InForce events time.toInstant event := by
  rintro ⟨i, atI, early, _⟩
  have := (lt_border_iff ordered time atI).2 (Time.toInstant_le_iff.1 early)
  omega

namespace Tape

theorem firstAfter_yields (ordered : Ordered events) (instant : Int) :
    ∃ found, (ofEvents events).Yields ((ofEvents events).firstAfter instant) found ∧
      IsNext (fun point => ∃ event ∈ events, event.time.toInstant = point) instant found := by
  unfold firstAfter
  cases atInstant : Time.ofInstant? instant with
  | some time =>
    have same := Time.toInstant_of_ofInstant? atInstant
    have early {i : Nat} {event : Event α} (atI : events[i]? = some event) :
        i < border events time ↔ event.time.toInstant ≤ instant := by
      rw [lt_border_iff ordered time atI, ← same, Time.toInstant_le_iff]
    refine ⟨events[border events time]?.map fun event => event.time.toInstant,
      fun head onTape => ?_, ordered.isNext (fun i event before atI => (early atI).1 before)
        fun event atBorder => Int.not_le.1 (mt (early atBorder).2 (Nat.lt_irrefl _))⟩
    dsimp only
    rw [seek_ofEvents ordered time onTape]
    by_cases nothing : border events time = 0
    · refine ⟨0, ?_, onTape_zero _⟩
      rw [if_pos nothing, timeAt_ofEvents, nothing]
      cases atStart : events[0]? with
      | none => rfl
      | some event =>
        have late := mt (early atStart).2 (by omega)
        simp [Option.filter, Int.not_le.1 late]
    · refine ⟨border events time - 1, ?_, onTape_border nothing⟩
      rw [if_neg nothing]
      dsimp only
      rw [timeAt_ofEvents, show border events time - 1 + 1 = border events time by omega]
  | none =>
    dsimp only
    by_cases negative : instant < 0
    · refine ⟨events[0]?.map fun event => event.time.toInstant, fun head onTape => ?_,
        ordered.isNext (fun i event before => absurd before (Nat.not_lt_zero i))
          fun event _ => negative.trans_le event.time.toInstant_nonneg⟩
      exact ⟨0, by simp only [if_pos negative, timeAt_ofEvents], onTape_zero _⟩
    · refine ⟨none, fun head onTape => ⟨head, if_neg negative, onTape⟩, ?_⟩
      rintro point ⟨event, _, rfl⟩
      have := (Time.ofInstant?_eq_none_iff.1 atInstant).resolve_left negative
      have := event.time.toInstant_le
      omega

theorem lastBefore_of_time (ordered : Ordered events) {instant : Int} {time : Time}
    (atTime : Time.ofInstant? (instant - 1) = some time) :
    ∃ found, (ofEvents events).Yields ((ofEvents events).lastBefore instant) found ∧
      IsPrevious (fun point => ∃ event ∈ events, event.time.toInstant = point) instant found := by
  have same := Time.toInstant_of_ofInstant? atTime
  refine ⟨if border events time = 0 then none
    else events[border events time - 1]?.map fun event => event.time.toInstant, ?_,
    ordered.isPrevious (border_le_length events time) fun i event atI => ?_⟩
  · by_cases nothing : border events time = 0
    · refine fun head onTape => ⟨0, ?_, onTape_zero _⟩
      simp only [lastBefore, atTime, seek_ofEvents ordered time onTape, if_pos nothing]
    · refine fun head onTape => ⟨border events time - 1, ?_, onTape_border nothing⟩
      simp only [lastBefore, atTime, seek_ofEvents ordered time onTape, if_neg nothing,
        timeAt_ofEvents]
  · rw [lt_border_iff ordered time atI, ← Time.toInstant_le_iff]
    omega

theorem lastBefore_yields (ordered : Ordered events) (instant : Int) :
    ∃ found, (ofEvents events).Yields ((ofEvents events).lastBefore instant) found ∧
      IsPrevious (fun point => ∃ event ∈ events, event.time.toInstant = point) instant found := by
  cases atTime : Time.ofInstant? (instant - 1) with
  | some time => exact lastBefore_of_time ordered atTime
  | none =>
    by_cases positive : 0 < instant
    · -- Beyond the greatest time the search is that from just after it.
      have last : Time.ofInstant? (Time.greatest.toInstant + 1 - 1) = some .greatest := by
        rw [Int.add_sub_cancel]
        exact Time.ofInstant?_toInstant _
      have same : (ofEvents events).lastBefore instant =
          (ofEvents events).lastBefore (Time.greatest.toInstant + 1) := by
        unfold lastBefore
        simp only [atTime, last, positive, if_true]
      have beyond : Time.greatest.toInstant < instant := by
        have := Time.ofInstant?_eq_none_iff.1 atTime
        have greatest : Time.greatest.toInstant = maxNanos := rfl
        omega
      obtain ⟨found, yields, previous⟩ := lastBefore_of_time ordered last
      rw [same]
      refine ⟨found, yields, previous.from_later beyond ?_⟩
      rintro _ ⟨event, _, rfl⟩
      exact Int.lt_add_one_of_le (Time.toInstant_le_iff.2 event.time.le_greatest)
    · refine ⟨none, fun head onTape => ⟨head, ?_, onTape⟩, ?_⟩
      · simp only [lastBefore, atTime, positive, if_false]
      · rintro _ ⟨event, _, rfl⟩
        have := event.time.toInstant_nonneg
        omega

theorem bestOf_yields {tape : Tape α} {search : Int → Scan (Option Int)} {answer : Int → Option Int}
    (each : ∀ shift, tape.Yields (search shift) (answer shift)) (best : Int → Int → Int)
    (before : Option Int) (shifts : List Int) :
    tape.Yields (bestOf best search before shifts)
      (shifts.foldl (fun found shift => Option.merge best found (answer shift)) before) := by
  induction shifts generalizing before with
  | nil => exact yields_answer tape before
  | cons shift shifts ih =>
    intro head onTape
    obtain ⟨middle, run, middleOn⟩ := each shift head onTape
    obtain ⟨stop, rest, stopOn⟩ := ih (Option.merge best before (answer shift)) middle middleOn
    exact ⟨stop, by rw [bestOf, run]; exact rest, stopOn⟩

/-- The best of what is found for each shift is the best for all of them. -/
theorem best_foldl (IsBest : (Int → Prop) → Option Int → Prop) {best : Int → Int → Int}
    (merge : ∀ {points others a b}, IsBest points a → IsBest others b →
      IsBest (fun point => points point ∨ others point) (Option.merge best a b))
    {points : Int → Int → Prop} {answer : Int → Option Int}
    (each : ∀ shift, IsBest (points shift) (answer shift)) {known : Int → Prop}
    {before : Option Int} (first : IsBest known before) (shifts : List Int) :
    IsBest (fun point => known point ∨ ∃ shift ∈ shifts, points shift point)
      (shifts.foldl (fun found shift => Option.merge best found (answer shift)) before) := by
  induction shifts generalizing known before with
  | nil =>
    have same : (fun point => known point ∨ ∃ shift ∈ [], points shift point) = known :=
      funext fun point => by simp
    rwa [same]
  | cons shift shifts ih =>
    have same : (fun point => (known point ∨ points shift point) ∨
        ∃ other ∈ shifts, points other point) =
        fun point => known point ∨ ∃ other ∈ shift :: shifts, points other point :=
      funext fun point => by simp [or_assoc]
    exact same ▸ ih (merge first (each shift))

/-- The next instant is the first one ahead that meets an event. -/
theorem nextInstant_yields (ordered : Ordered events) (c : Int) (shifts : List Int) :
    ∃ found, (ofEvents events).Yields ((ofEvents events).nextInstant c shifts) found ∧
      IsNext (Meets events shifts) c found := by
  choose found yields next using fun shift => firstAfter_yields ordered (c + shift)
  refine ⟨_, bestOf_yields (fun shift => (yields shift).map _) min none shifts, ?_⟩
  have nowhere : IsNext (fun _ => False) c none := fun _ absurd => absurd.elim
  have all := best_foldl (IsNext · c) IsNext.merge (fun shift => (next shift).sub) nowhere shifts
  refine all.congr fun point => ?_
  constructor
  · rintro (impossible | ⟨shift, member, event, atEvent, same⟩)
    · exact impossible.elim
    · exact ⟨event, atEvent, shift, member, same.symm⟩
  · rintro ⟨event, atEvent, shift, member, same⟩
    exact .inr ⟨shift, member, event, atEvent, same.symm⟩

/-- The previous instant is the last one behind that meets an event, from zero on. -/
theorem previousInstant_yields (ordered : Ordered events) (c : Int) (shifts : List Int) :
    ∃ found, (ofEvents events).Yields ((ofEvents events).previousInstant c shifts) found ∧
      IsPrevious (fun point => 0 ≤ point ∧ Meets events shifts point) c found := by
  choose found yields previous using fun shift => lastBefore_yields ordered (c + shift)
  refine ⟨_, bestOf_yields (fun shift => (yields shift).map _) max none shifts, ?_⟩
  have nowhere : IsPrevious (fun _ => False) c none := fun _ absurd => absurd.elim
  have all := best_foldl (IsPrevious · c) IsPrevious.merge
    (fun shift => (previous shift).sub.filter) nowhere shifts
  refine all.congr fun point => ?_
  constructor
  · rintro (impossible | ⟨shift, member, nonnegative, event, atEvent, same⟩)
    · exact impossible.elim
    · exact ⟨nonnegative, event, atEvent, shift, member, same.symm⟩
  · rintro ⟨nonnegative, event, atEvent, shift, member, same⟩
    exact .inr ⟨shift, member, nonnegative, event, atEvent, same.symm⟩

/-- No event is after the greatest time, so on the way to the last one nothing stops the head, be
the times ordered or not. -/
theorem advance_greatest {head : Nat} (inside : head < events.length) :
    (ofEvents events).advance .greatest head = (.ok (), events.length - 1) := by
  rw [advance, size_ofEvents]
  by_cases more : head + 1 < events.length
  · rw [if_pos more, readNext, read_ofEvents, List.getElem?_eq_getElem more]
    dsimp only
    rw [if_pos (Time.le_greatest _)]
    exact advance_greatest more
  · rw [if_neg more, show head = events.length - 1 by omega]
termination_by events.length - head

theorem seek_greatest {head : Nat} (inside : head < events.length) :
    (ofEvents events).seek .greatest head = (.ok (), events.length - 1) := by
  have stands : (ofEvents events).rewind .greatest head = (.ok (), head) := by
    unfold rewind
    rw [read_ofEvents, List.getElem?_eq_getElem inside]
    dsimp only
    rw [if_pos (Time.le_greatest _)]
  rw [seek, stands]
  exact advance_greatest inside

theorem newest_yields (events : List (Event α)) :
    (ofEvents events).Yields (ofEvents events).newest
      (events.getLast?.map fun event => event.time.toInstant) := by
  intro head onTape
  unfold newest
  by_cases empty : events.length = 0
  · cases List.length_eq_zero_iff.1 empty
    rcases onTape with inside | rfl
    · cases inside
    · exact ⟨0, rfl, onTape_zero _⟩
  · have inside : head < events.length := by
      rcases onTape with inside | start
      · rwa [size_ofEvents] at inside
      · omega
    refine ⟨events.length - 1, ?_, .inl (by rw [size_ofEvents]; omega)⟩
    rw [seek_greatest inside]
    dsimp only
    rw [timeAt_ofEvents, List.getLast?_eq_getElem?]

/-- An atom has the value of the event in force, as far as the trace reaches. -/
theorem proposition_yields [DecidableEq α] (ordered : Ordered events) (data : α) (time : Time) :
    ∃ verdict, (ofEvents events).Yields ((ofEvents events).proposition data time) verdict ∧
      AtomValue events data time.toInstant verdict := by
  by_cases nothing : border events time = 0
  · refine ⟨.unknown, Yields.restoring fun head onTape => ⟨0, ?_, onTape_zero _⟩,
      .unknown fun event inForce => absurd inForce (ordered.not_inForce nothing event)⟩
    simp only [seek_ofEvents ordered time onTape, if_pos nothing]
  · have bound := border_le_length events time
    have atBorder : events[border events time - 1]? = some events[border events time - 1] :=
      List.getElem?_eq_getElem (by omega)
    generalize events[border events time - 1] = event at atBorder
    have inForce := ordered.inForce_border nothing atBorder
    have follows : border events time - 1 + 1 = border events time := by omega
    cases atNext : events[border events time]? with
    | some next =>
      have late := mt (lt_border_iff ordered time atNext).2 (Nat.lt_irrefl _)
      have reaches : Reaches events time.toInstant := (reaches_iff ordered).2
        ⟨next, List.mem_of_getElem? atNext, (Int.not_le.1 (mt Time.toInstant_le_iff.1 late)).le⟩
      have readsNext : (ofEvents events).readNext (border events time - 1) = .ok next := by
        rw [readNext, follows, read_ofEvents, atNext]
      refine ⟨_, Yields.restoring fun head onTape => ⟨_, ?_, onTape_border nothing⟩,
        .known inForce reaches⟩
      simp only [seek_ofEvents ordered time onTape, if_neg nothing, read_ofEvents, atBorder,
        readsNext]
    | none =>
      have last : border events time = events.length := by
        have := List.getElem?_eq_none_iff.1 atNext
        omega
      have newest : events.getLast? = some event := by
        rw [List.getLast?_eq_getElem?, ← last, atBorder]
      have readsNext : (ofEvents events).readNext (border events time - 1) =
          .error .unavailable := by
        rw [readNext, follows, read_ofEvents, atNext]
      by_cases now : event.time = time
      · refine ⟨_, Yields.restoring fun head onTape => ⟨_, ?_, onTape_border nothing⟩,
          .known inForce ⟨event, newest, by rw [now]⟩⟩
        simp only [seek_ofEvents ordered time onTape, if_neg nothing, read_ofEvents, atBorder,
          readsNext, if_pos now]
      · refine ⟨.unknown, Yields.restoring fun head onTape => ⟨_, ?_, onTape_border nothing⟩,
          .unknown fun other _ reaches => now ?_⟩
        · simp only [seek_ofEvents ordered time onTape, if_neg nothing, read_ofEvents, atBorder,
            readsNext, if_neg now]
        · obtain ⟨latest, isLast, upTo⟩ := reaches
          cases Option.some.inj (newest.symm.trans isLast)
          have early := (lt_border_iff ordered time atBorder).1 (by omega)
          exact Time.toInstant_inj.1 (le_antisymm (Time.toInstant_le_iff.2 early) upTo)

end Tape

end TimedTrace
