import TimedTrace.Proofs.Survival

namespace TimedTrace

variable {α : Type}

/-- Formulas whose value at an instant is that of the event in force there. -/
inductive Formula.Momentary : Formula α → Prop
  | top : Momentary .top
  | bot : Momentary .bot
  | atom (data : α) : Momentary (.atom data)
  | neg {f : Formula α} : f.Momentary → Momentary (.neg f)
  | disj {l r : Formula α} : l.Momentary → r.Momentary → Momentary (.disj l r)
  | conj {l r : Formula α} : l.Momentary → r.Momentary → Momentary (.conj l r)
  | imp {l r : Formula α} : l.Momentary → r.Momentary → Momentary (.imp l r)

/-- Operators that look back over a window, at formulas of that kind. -/
inductive Formula.LooksBack (bound : Option Time) : Formula α → Prop
  | snce {l r : Formula α} : l.Momentary → r.Momentary → LooksBack bound (.snce bound l r)
  | once {f : Formula α} : f.Momentary → LooksBack bound (.once (.upTo bound) f)
  | historically {f : Formula α} : f.Momentary → LooksBack bound (.historically (.upTo bound) f)

theorem Formula.Momentary.offset_eq_zero {f : Formula α} (momentary : f.Momentary) :
    ∀ offset ∈ f.offsets, offset = 0 := by
  have both {l r : Formula α} (left : ∀ offset ∈ l.offsets, offset = 0)
      (right : ∀ offset ∈ r.offsets, offset = 0) :
      ∀ offset ∈ union l.offsets r.offsets, offset = 0 :=
    fun offset member => (mem_union.1 member).elim (left offset) (right offset)
  induction momentary with
  | top => exact nofun
  | bot => exact nofun
  | atom data => exact fun offset member => List.mem_singleton.1 member
  | neg _ ih => exact ih
  | disj _ _ left right => exact both left right
  | conj _ _ left right => exact both left right
  | imp _ _ left right => exact both left right

/-- What becomes of a value when the trace grows: it tells as much as before, what it told beyond
the newest event holds at all times, and it is known wherever there is an event. -/
structure Outgrows (events others : List (Event α)) (value more : Int → Verdict) : Prop where
  below : ∀ c, (value c).Below (more c)
  late : ∀ (c : Int) (time : Time), ¬ Reaches events c → (value c).Below (more time.toInstant)
  known : ∀ event ∈ others, more event.time.toInstant ≠ .unknown

section

variable {events others : List (Event α)} {left right value moreLeft moreRight more : Int → Verdict}

theorem Outgrows.holds : Outgrows events others (fun _ => .holds) fun _ => .holds :=
  ⟨fun _ => .refl _, fun _ _ _ => .refl _, fun _ _ => Verdict.holds_ne_unknown⟩

theorem Outgrows.not (outgrows : Outgrows events others value more) :
    Outgrows events others (fun c => (value c).not) fun c => (more c).not :=
  ⟨fun c => (outgrows.below c).not, fun c time beyond => (outgrows.late c time beyond).not,
    fun event member => Verdict.not_ne_unknown (outgrows.known event member)⟩

theorem Outgrows.joined {op : Verdict → Verdict → Verdict}
    (first : Outgrows events others left moreLeft) (second : Outgrows events others right moreRight)
    (monotone : ∀ {a b c d : Verdict}, a.Below c → b.Below d → (op a b).Below (op c d))
    (decides : ∀ {a b : Verdict}, a ≠ .unknown → b ≠ .unknown → op a b ≠ .unknown) :
    Outgrows events others (fun c => op (left c) (right c))
      fun c => op (moreLeft c) (moreRight c) :=
  ⟨fun c => monotone (first.below c) (second.below c),
    fun c time beyond => monotone (first.late c time beyond) (second.late c time beyond),
    fun event member => decides (first.known event member) (second.known event member)⟩

/-- A value that is the same at all times. -/
theorem Outgrows.timed {verdict : Verdict} (decided : verdict ≠ .unknown)
    (outside : ∀ c, Time.ofInstant? c = none → value c = .unknown)
    (inside : ∀ time : Time, value time.toInstant = verdict)
    (insideMore : ∀ time : Time, more time.toInstant = verdict) :
    Outgrows events others value more := by
  have below (c : Int) (time : Time) : (value c).Below (more time.toInstant) := by
    rw [insideMore]
    cases atC : Time.ofInstant? c with
    | none => exact .inl (outside c atC)
    | some own =>
      rw [← Time.toInstant_of_ofInstant? atC, inside]
      exact .refl _
  refine ⟨fun c => ?_, fun c time _ => below c time, fun event _ => by rwa [insideMore]⟩
  cases atC : Time.ofInstant? c with
  | none => exact .inl (outside c atC)
  | some time =>
    rw [← Time.toInstant_of_ofInstant? atC]
    exact below _ time

end

section

variable [DecidableEq α] {events others : List (Event α)}

theorem outgrows_atom (ordered : Ordered events) (orderedToo : Ordered others)
    (grown : ∀ start, Extends start events others) (data : α) :
    Outgrows events others ((Tape.ofEvents events).valueOf (.atom data))
      ((Tape.ofEvents others).valueOf (.atom data)) := by
  refine ⟨fun c => ?_, fun c time beyond => .inl ?_, fun event member => ?_⟩
  · exact Tape.below_of_times (fun time later => (Tape.valueOf_atom ordered data time).below
      (grown c) later (Tape.valueOf_atom orderedToo data time)) c le_rfl
  · cases atC : Time.ofInstant? c with
    | none => exact Tape.valueOf_of_none atC
    | some own =>
      obtain rfl := Time.toInstant_of_ofInstant? atC
      exact (Tape.valueOf_atom ordered data own).unique (.unknown fun _ _ reaches => beyond reaches)
  · exact (Tape.valueOf_atom orderedToo data event.time).ne_unknown orderedToo
      (.of_mem orderedToo member)

theorem Formula.Momentary.outgrows (ordered : Ordered events) (orderedToo : Ordered others)
    (grown : ∀ start, Extends start events others) {f : Formula α} (momentary : f.Momentary) :
    Outgrows events others ((Tape.ofEvents events).valueOf f)
      ((Tape.ofEvents others).valueOf f) := by
  induction momentary with
  | top =>
    exact .timed Verdict.holds_ne_unknown (fun c => Tape.valueOf_of_none)
      (fun time => Tape.valueOf_toInstant _ _ time) fun time => Tape.valueOf_toInstant _ _ time
  | bot =>
    exact .timed Verdict.fails_ne_unknown (fun c => Tape.valueOf_of_none)
      (fun time => Tape.valueOf_toInstant _ _ time) fun time => Tape.valueOf_toInstant _ _ time
  | atom data => exact outgrows_atom ordered orderedToo grown data
  | neg _ ih =>
    rw [funext (Tape.valueOf_neg _ _), funext (Tape.valueOf_neg _ _)]
    exact ih.not
  | disj _ _ left right =>
    rw [funext (Tape.valueOf_disj ordered _ _), funext (Tape.valueOf_disj orderedToo _ _)]
    exact left.joined right .or Verdict.or_ne_unknown
  | conj _ _ left right =>
    rw [funext (Tape.valueOf_conj ordered _ _), funext (Tape.valueOf_conj orderedToo _ _)]
    exact left.joined right .and Verdict.and_ne_unknown
  | imp _ _ left right =>
    rw [funext (Tape.valueOf_imp ordered _ _), funext (Tape.valueOf_imp orderedToo _ _)]
    exact left.joined right .implies Verdict.implies_ne_unknown

end

/-- The instant lies in the window of an operator that looks back from `c`. -/
def InWindow (bound : Option Time) (c d : Int) : Prop :=
  d < c ∧ ∀ border ∈ windowStart bound c, border < d

/-- What is appended does not overthrow what is there: none of it lies in the window, or nothing of
what is there. -/
def Clear (events more : List (Event α)) (bound : Option Time) (c : Int) : Prop :=
  (∀ event ∈ more, ¬ InWindow bound c event.time.toInstant) ∨
    ∀ event ∈ events, ∃ border ∈ windowStart bound c, event.time.toInstant ≤ border

/-- Up to the instant after the newest event, all that is appended lies after the window. -/
theorem Increasing.clear {events more : List (Event α)} {c : Int}
    (increasing : Increasing (events ++ more)) (near : Reaches events (c - 1))
    (bound : Option Time) : Clear events more bound c := by
  refine .inl fun event member inside => ?_
  obtain ⟨newest, last, upTo⟩ := near
  have after : newest.time.toInstant < event.time.toInstant :=
    Int.ofNat_lt.2 ((List.pairwise_append.1 increasing).2.2 newest (List.mem_of_getLast? last)
      event member)
  have := inside.1
  omega

/-- What keeps a verdict on an operator that looks back when events are appended: where they lie, or
that the verdict rests on an instant that was found. -/
inductive Lasting (events more : List (Event α)) (bound : Option Time) (c : Int) :
    Formula α → Verdict → Prop
  | clear {f : Formula α} {verdict : Verdict} : Clear events more bound c →
      Lasting events more bound c f verdict
  | once {f : Formula α} : Lasting events more bound c (.once (.upTo bound) f) .holds
  | historically {f : Formula α} :
      Lasting events more bound c (.historically (.upTo bound) f) .fails

section

variable {events others : List (Event α)} {shifts offsets : List Int}
  {left right moreLeft moreRight : Int → Verdict} {start : Option Int} {c : Int} {a b : Verdict}

/-- A search back that looks at the same instants and knows more tells at least as much. -/
theorem SearchesBack.below_of_same (leftBelow : ∀ d, (left d).Below (moreLeft d))
    (rightBelow : ∀ d, (right d).Below (moreRight d))
    (ends : (unsettledBack events start).Below (unsettledBack others start))
    (same : ∀ d, d < c → (Visits events shifts start d ↔ Visits others offsets start d))
    (first : SearchesBack events shifts left right start c a)
    (second : SearchesBack others offsets moreLeft moreRight start c b) : a.Below b := by
  have step (d : Int) := (leftBelow d).settle (rightBelow d)
  induction first with
  | settles steps settles =>
    cases second with
    | settles later settlesMore =>
      obtain rfl := Option.some.inj (steps.unique later same)
      rcases step _ with undecided | told
      · exact .inl (Option.some.inj (settles.symm.trans undecided))
      · exact .inr (Option.some.inj (settles.symm.trans (told.trans settlesMore)))
    | goesOn later nothing _ =>
      obtain rfl := Option.some.inj (steps.unique later same)
      rcases step _ with undecided | told
      · exact .inl (Option.some.inj (settles.symm.trans undecided))
      · cases settles.symm.trans (told.trans nothing)
    | ends later => cases steps.unique later same
  | goesOn steps nothing _ ih =>
    cases second with
    | settles later settlesMore =>
      obtain rfl := Option.some.inj (steps.unique later same)
      rcases step _ with undecided | told
      · cases nothing.symm.trans undecided
      · cases nothing.symm.trans (told.trans settlesMore)
    | goesOn later _ rest =>
      obtain rfl := Option.some.inj (steps.unique later same)
      exact ih (fun d before => same d (before.trans steps.2.1)) rest
    | ends later => cases steps.unique later same
  | ends steps =>
    cases second with
    | settles later _ => cases steps.unique later same
    | goesOn later _ _ => cases steps.unique later same
    | ends _ => exact ends

/-- A search back that every instant settles in one way that it looks at. -/
theorem SearchesBack.eq_of_settles {d : Int} {told : Verdict}
    (searches : SearchesBack events shifts left right start c a) (before : d < c)
    (visits : Visits events shifts start d)
    (settles : ∀ x, x < c → Visits events shifts start x →
      Verdict.settle (left x) (right x) = some told) : a = told := by
  cases searches with
  | settles steps found => exact Option.some.inj (found.symm.trans (settles _ steps.2.1 steps.1))
  | goesOn steps nothing _ => cases nothing.symm.trans (settles _ steps.2.1 steps.1)
  | ends steps =>
    have := steps d visits
    omega

/-- All that a search back looks at in a window that begins when all events are past. -/
theorem Visits.eq_first {border d : Int} (zero : ∀ shift ∈ shifts, shift = 0)
    (past : ∀ event ∈ events, event.time.toInstant ≤ border)
    (visits : Visits events shifts (some border) d) : d = max (border + 1) 0 := by
  obtain ⟨_, after, ⟨event, member, shift, atShift, meets⟩ | ⟨_, same, isFirst⟩⟩ := visits
  · have := past event member
    have := after border rfl
    have := zero shift atShift
    omega
  · cases same
    exact isFirst

theorem visits_first (trace : List (Event α)) (shifts : List Int) (border : Int) :
    Visits trace shifts (some border) (max (border + 1) 0) :=
  ⟨by omega, fun _ same => by cases same; omega, .inr ⟨border, rfl, rfl⟩⟩

/-- A step that is settled beyond the newest event is settled so at all times. -/
theorem Outgrows.settle_late {time : Time} {x d : Int}
    (leftGrows : Outgrows events others left moreLeft)
    (rightGrows : Outgrows events others right moreRight) (beyond : ¬ Reaches events x)
    (nonnegative : 0 ≤ d) (before : d < time.toInstant) :
    Verdict.settle (left x) (right x) = some .unknown ∨
      Verdict.settle (left x) (right x) = Verdict.settle (moreLeft d) (moreRight d) := by
  obtain ⟨own, rfl⟩ := Time.exists_toInstant nonnegative (before.le.trans time.toInstant_le)
  exact (leftGrows.late x own beyond).settle (rightGrows.late x own beyond)

/-- A search back in a window that begins when all events are past: it looks at the first instant of
the window, and what is known there holds at all times. -/
theorem SearchesBack.below_of_late {border : Int} {time : Time}
    (zero : ∀ shift ∈ shifts, shift = 0)
    (past : ∀ event ∈ events, event.time.toInstant ≤ border)
    (leftGrows : Outgrows events others left moreLeft)
    (rightGrows : Outgrows events others right moreRight)
    (ends : (unsettledBack events (some border)).Below (unsettledBack others (some border)))
    (first : SearchesBack events shifts left right (some border) time.toInstant a)
    (second : SearchesBack others offsets moreLeft moreRight (some border) time.toInstant b) :
    a.Below b := by
  have looked := visits_first events shifts border
  have lookedToo := visits_first others offsets border
  have only {d : Int} (visits : Visits events shifts (some border) d) := visits.eq_first zero past
  have least {d : Int} (visits : Visits others offsets (some border) d) :
      max (border + 1) 0 ≤ d := by
    have := visits.1
    have := visits.2.1 border rfl
    omega
  have beyond : ¬ Reaches events (max (border + 1) 0) := by
    rintro ⟨newest, last, upTo⟩
    have := past newest (List.mem_of_getLast? last)
    omega
  generalize max (border + 1) 0 = x at *
  have told {d : Int} (before : d < time.toInstant)
      (visits : Visits others offsets (some border) d) :=
    leftGrows.settle_late rightGrows beyond visits.1 before
  by_cases room : x < time.toInstant
  · cases settles : Verdict.settle (left x) (right x) with
    | none =>
      rw [first.eq_unsettled fun d _ visits => by rw [only visits, settles],
        second.eq_unsettled fun d before visits => ?_]
      · exact ends
      · rcases told before visits with unknown | same
        · cases settles.symm.trans unknown
        · rw [← same, settles]
    | some verdict =>
      rw [first.eq_of_settles room looked fun d _ visits => by rw [only visits, settles]]
      by_cases unknown : verdict = .unknown
      · exact .inl unknown
      · refine .inr (second.eq_of_settles room lookedToo fun d before visits => ?_).symm
        rcases told before visits with undecided | same
        · exact absurd (Option.some.inj (settles.symm.trans undecided)) unknown
        · rw [← same, settles]
  · rw [first.eq_unsettled fun d before visits => absurd before (by rw [only visits]; exact room),
      second.eq_unsettled fun d before visits => absurd ((least visits).trans_lt before) room]
    exact ends

/-- What a search tells that comes to hold is found again, with what is looked at before. -/
theorem SearchesBack.holds_of_found (zero : ∀ shift ∈ offsets, shift = 0)
    (visits : ∀ d, Visits events shifts start d → Visits others offsets start d)
    (grows : Outgrows events others right moreRight)
    (first : SearchesBack events shifts left right start c .holds)
    (second : SearchesBack others offsets (fun _ => .holds) moreRight start c b) : b = .holds := by
  obtain ⟨d, before, looked, holds⟩ := first.exists_of_holds rfl
  have told : moreRight d = .holds := by
    rw [← (grows.below d).eq (by rw [holds]; exact Verdict.holds_ne_unknown), holds]
  refine second.holds_of before (visits d looked) told fun x later visitsToo => ?_
  obtain ⟨_, _, ⟨event, member, shift, atShift, meets⟩ | ⟨border, isStart, isFirst⟩⟩ := visitsToo
  · obtain rfl := zero shift atShift
    rw [show x = event.time.toInstant by omega]
    exact grows.known event member
  · have := looked.1
    have := looked.2.1 border isStart
    omega

end

section

variable {events more : List (Event α)} {shifts offsets : List Int} {bound : Option Time}
  {time : Time} {start : Option Int} {c : Int}

theorem unsettledBack_below (events more : List (Event α)) (start : Option Int) :
    (unsettledBack events start).Below (unsettledBack (events ++ more) start) := by
  cases start with
  | none => exact .refl _
  | some start =>
    by_cases reaches : ReachesBack events start
    · have reachesToo : ReachesBack (events ++ more) start := by
        obtain ⟨oldest, first, early⟩ := reaches
        exact ⟨oldest, List.mem_head?_append_of_mem_head? first, early⟩
      simp only [unsettledBack, if_pos reaches, if_pos reachesToo]
      exact .refl _
    · exact .inl (by simp only [unsettledBack, if_neg reaches])

variable (zero : ∀ shift, shift ∈ shifts ↔ shift = 0)
  (zeroToo : ∀ shift, shift ∈ offsets ↔ shift = 0)

include zero zeroToo

/-- A search back also looks at all that it looked at before more events came. -/
theorem Visits.append (visits : Visits events shifts start c) :
    Visits (events ++ more) offsets start c := by
  obtain ⟨nonnegative, inside, ⟨event, member, shift, atShift, meets⟩ | first⟩ := visits
  · obtain rfl := (zero shift).1 atShift
    exact ⟨nonnegative, inside,
      .inl ⟨event, List.mem_append_left _ member, 0, (zeroToo 0).2 rfl, meets⟩⟩
  · exact ⟨nonnegative, inside, .inr first⟩

theorem visits_append_iff (apart : ∀ event ∈ more, ¬ InWindow bound c event.time.toInstant)
    {d : Int} (before : d < c) : Visits events shifts (windowStart bound c) d ↔
      Visits (events ++ more) offsets (windowStart bound c) d := by
  refine ⟨.append zero zeroToo, ?_⟩
  rintro ⟨nonnegative, inside, ⟨event, member, shift, atShift, meets⟩ | first⟩
  · obtain rfl := (zeroToo shift).1 atShift
    rw [Int.add_zero] at meets
    rcases List.mem_append.1 member with old | new
    · exact ⟨nonnegative, inside, .inl ⟨event, old, 0, (zero 0).2 rfl, by omega⟩⟩
    · exact absurd ⟨meets ▸ before, fun border isStart => meets ▸ inside border isStart⟩
        (apart event new)
  · exact ⟨nonnegative, inside, .inr first⟩

theorem SearchesBack.below_of_clear {left right moreLeft moreRight : Int → Verdict} {a b : Verdict}
    (clear : Clear events more bound time.toInstant)
    (leftGrows : Outgrows events (events ++ more) left moreLeft)
    (rightGrows : Outgrows events (events ++ more) right moreRight)
    (first : SearchesBack events shifts left right (windowStart bound time.toInstant)
      time.toInstant a)
    (second : SearchesBack (events ++ more) offsets moreLeft moreRight
      (windowStart bound time.toInstant) time.toInstant b) : a.Below b := by
  have ends := unsettledBack_below events more (windowStart bound time.toInstant)
  rcases clear with apart | late
  · exact first.below_of_same leftGrows.below rightGrows.below ends
      (fun d before => visits_append_iff zero zeroToo apart before) second
  · cases bound with
    | none =>
      -- A window without a start has no events before it.
      obtain rfl : events = [] := List.eq_nil_iff_forall_not_mem.2 fun event member => by
        obtain ⟨border, nothing, _⟩ := late event member
        cases nothing
      refine .inl (first.eq_unsettled ?_)
      rintro d _ ⟨_, _, ⟨event, member, _⟩ | ⟨border, nothing, _⟩⟩
      · cases member
      · cases nothing
    | some length =>
      refine first.below_of_late (fun shift atShift => (zero shift).1 atShift)
        (fun event member => ?_) leftGrows rightGrows ends second
      obtain ⟨border, same, upTo⟩ := late event member
      cases same
      exact upTo

end

namespace Formula.Momentary

variable {l r f : Formula α}

theorem mem_shifts_union_iff [DecidableEq α] (tape : Tape α) (left : l.Momentary)
    (right : r.Momentary) (shift : Int) :
    shift ∈ shiftsOf (tape.operand l) (tape.operand r) ↔ shift = 0 := by
  rw [Tape.mem_shifts_union, mem_union, or_iff_left_iff_imp]
  exact fun member => member.elim (left.offset_eq_zero shift) (right.offset_eq_zero shift)

theorem mem_shifts_always_iff [DecidableEq α] (tape : Tape α) (momentary : f.Momentary)
    (shift : Int) : shift ∈ shiftsOf (.always .holds) (tape.operand f) ↔ shift = 0 := by
  rw [Tape.mem_shifts_always, or_iff_left_iff_imp]
  exact momentary.offset_eq_zero shift

end Formula.Momentary

namespace Tape

variable [DecidableEq α] {events more : List (Event α)} {bound : Option Time} {f : Formula α}

/-- What an operator that looks back tells it tells as well when more events come, as long as that
verdict lasts. -/
theorem valueOf_below_of_lasting (ordered : Ordered events) (orderedToo : Ordered (events ++ more))
    (grown : ∀ start, Extends start events (events ++ more)) (looksBack : f.LooksBack bound)
    (time : Time) {verdict : Verdict}
    (told : (ofEvents events).valueOf f time.toInstant = verdict)
    (lasting : Lasting events more bound time.toInstant f verdict) :
    verdict.Below ((ofEvents (events ++ more)).valueOf f time.toInstant) := by
  subst told
  cases looksBack with
  | @snce l r left right =>
    cases lasting with
    | clear clear =>
      exact (valueOf_snce ordered l r bound time).below_of_clear
        (left.mem_shifts_union_iff _ right) (left.mem_shifts_union_iff _ right) clear
        (left.outgrows ordered orderedToo grown) (right.outgrows ordered orderedToo grown)
        (valueOf_snce orderedToo l r bound time)
  | @once f momentary =>
    have first := valueOf_once ordered f bound time
    have second := valueOf_once orderedToo f bound time
    have zero (tape : Tape α) := momentary.mem_shifts_always_iff tape
    have grows := momentary.outgrows ordered orderedToo grown
    generalize (ofEvents events).valueOf (.once (.upTo bound) f) time.toInstant = verdict at *
    cases lasting with
    | clear clear => exact first.below_of_clear (zero _) (zero _) clear .holds grows second
    | once =>
      exact .inr (first.holds_of_found (fun shift atShift => (zero _ shift).1 atShift)
        (fun d => .append (zero _) (zero _)) grows second).symm
  | @historically f momentary =>
    have first := valueOf_historically ordered f bound time
    have second := valueOf_historically orderedToo f bound time
    have zero (tape : Tape α) := momentary.mem_shifts_always_iff tape
    have grows := (momentary.outgrows ordered orderedToo grown).not
    generalize (ofEvents events).valueOf (.historically (.upTo bound) f) time.toInstant = verdict
      at *
    cases lasting with
    | clear clear =>
      have opposite := first.below_of_clear (zero _) (zero _) clear .holds grows second
      simpa only [Verdict.not_not] using opposite.not
    | historically =>
      have opposite := first.holds_of_found (fun shift atShift => (zero _ shift).1 atShift)
        (fun d => .append (zero _) (zero _)) grows second
      exact .inr (Verdict.not_eq_holds_iff.1 opposite).symm

/-- Up to the instant after the newest event, whatever comes later. -/
theorem valueOf_below_of_near (increasing : Increasing (events ++ more))
    (looksBack : f.LooksBack bound) (time : Time) (near : Reaches events (time.toInstant - 1)) :
    ((ofEvents events).valueOf f time.toInstant).Below
      ((ofEvents (events ++ more)).valueOf f time.toInstant) := by
  have orderedLater : Ordered (events ++ more) := increasing.imp Nat.le_of_lt
  have ordered : Ordered events := orderedLater.sublist (List.sublist_append_left ..)
  exact valueOf_below_of_lasting ordered orderedLater increasing.extends_append looksBack time rfl
    (.clear (increasing.clear near bound))

end Tape

namespace Cursor

variable [DecidableEq α] {cursor later : Cursor} {ring after : Ring α}
  {events more : List (Event α)} {bound : Option Time}

/-- A verdict on an operator that looks back survives when the trace grows, as long as no event is
appended inside the window. Beyond the newest event that event is taken to stay in force up to the
instant that the verdict is about, and one inside the window may overthrow that. -/
theorem evaluate_outlasts (shows : cursor.reader.Shows ring events)
    (valid : Valid cursor.reader ring cursor.position)
    (showsLater : later.reader.Shows after (events ++ more))
    (validLater : Valid later.reader after later.position)
    (increasing : Increasing (events ++ more)) {f : Formula α} (looksBack : f.LooksBack bound)
    (time : Time) (decided : (cursor.evaluate ring f time).1 ≠ .unknown)
    (lasting : Lasting events more bound time.toInstant f (cursor.evaluate ring f time).1) :
    (later.evaluate after f time).1 = (cursor.evaluate ring f time).1 := by
  have orderedLater : Ordered (events ++ more) := increasing.imp Nat.le_of_lt
  have ordered : Ordered events := orderedLater.sublist (List.sublist_append_left ..)
  have told := (evaluate_eq_valueOf shows ordered valid f time).symm
  have below := Tape.valueOf_below_of_lasting ordered orderedLater increasing.extends_append
    looksBack time told lasting
  rw [evaluate_eq_valueOf showsLater orderedLater validLater, below.eq decided]

/-- Up to the instant after the newest event nothing that is appended can lie in the window: a
verdict stays as it is, or it becomes known. -/
theorem evaluate_below_of_near (shows : cursor.reader.Shows ring events)
    (valid : Valid cursor.reader ring cursor.position)
    (showsLater : later.reader.Shows after (events ++ more))
    (validLater : Valid later.reader after later.position)
    (increasing : Increasing (events ++ more)) {f : Formula α} (looksBack : f.LooksBack bound)
    (time : Time) (near : Reaches events (time.toInstant - 1)) :
    (cursor.evaluate ring f time).1.Below (later.evaluate after f time).1 := by
  have orderedLater : Ordered (events ++ more) := increasing.imp Nat.le_of_lt
  have ordered : Ordered events := orderedLater.sublist (List.sublist_append_left ..)
  rw [evaluate_eq_valueOf shows ordered valid,
    evaluate_eq_valueOf showsLater orderedLater validLater]
  exact Tape.valueOf_below_of_near increasing looksBack time near

end Cursor

/-- A search back over three nanoseconds looks at one instant, that of the second event. -/
theorem visits_growing_iff {shifts : List Int} (zero : ∀ shift, shift ∈ shifts ↔ shift = 0)
    {c : Int} : Visits growingEvents shifts
      (windowStart (some (.ofNanos 3)) (Time.ofNanos 4).toInstant) c ↔ c = 2 := by
  have isStart : windowStart (some (.ofNanos 3)) (Time.ofNanos 4).toInstant = some 1 := rfl
  rw [isStart]
  constructor
  · rintro ⟨_, inside, ⟨event, member, shift, atShift, meets⟩ | ⟨_, same, isFirst⟩⟩
    · have after := inside 1 rfl
      obtain rfl := (zero shift).1 atShift
      have early : ∀ event ∈ growingEvents, event.time.toInstant ≤ 2 := by decide
      have := early event member
      omega
    · cases same
      exact isFirst
  · rintro rfl
    exact ⟨by decide, fun _ same => by cases same; decide, .inr ⟨1, rfl, rfl⟩⟩

theorem once_growing :
    (growingCursor.evaluate growingRing (.once (.within (.ofNanos 3)) (.atom true))
      (.ofNanos 4)).1 = .holds := by
  have zero (tape : Tape Bool) := (Formula.Momentary.atom true).mem_shifts_always_iff tape
  have atTwo : (Tape.ofEvents growingEvents).valueOf (.atom true) 2 = .holds := by cbv
  rw [Cursor.evaluate_eq_valueOf growingCursor_shows (by decide) (by decide)]
  refine (Tape.valueOf_once (by decide) (.atom true) (some (.ofNanos 3)) (.ofNanos 4)).eq_of_settles
    (show (2 : Int) < _ by decide) ((visits_growing_iff (zero _)).2 rfl) fun x _ visits => ?_
  obtain rfl := (visits_growing_iff (zero _)).1 visits
  rw [atTwo]
  rfl

/-- The third event lies in the window, but the second one was found there before. -/
theorem evaluate_outlasts_growing :
    (grownCursor.evaluate grownRing (.once (.within (.ofNanos 3)) (.atom true))
      (.ofNanos 4)).1 =
    (growingCursor.evaluate growingRing (.once (.within (.ofNanos 3)) (.atom true))
      (.ofNanos 4)).1 := by
  have looksBack : Formula.LooksBack (some (.ofNanos 3))
      (.once (.within (.ofNanos 3)) (.atom true)) := .once (.atom true)
  refine Cursor.evaluate_outlasts growingCursor_shows (by decide) grownCursor_shows (by decide)
    (by decide) looksBack (.ofNanos 4) ?_ ?_
  · rw [once_growing]
    exact Verdict.holds_ne_unknown
  · rw [once_growing]
    exact .once

theorem once_not_growing :
    (Tape.ofEvents growingEvents).valueOf (.once (.within (.ofNanos 3)) (.neg (.atom true)))
      (Time.ofNanos 4).toInstant = .fails := by
  have zero (tape : Tape Bool) := (Formula.Momentary.atom true).neg.mem_shifts_always_iff tape
  have atTwo : (Tape.ofEvents growingEvents).valueOf (.neg (.atom true)) 2 = .fails := by cbv
  refine (Tape.valueOf_once (by decide) (.neg (.atom true)) (some (.ofNanos 3))
    (.ofNanos 4)).eq_unsettled fun x _ visits => ?_
  obtain rfl := (visits_growing_iff (zero _)).1 visits
  rw [atTwo]
  rfl

theorem once_not_grown :
    (Tape.ofEvents (growingEvents ++ [⟨false, .ofNanos 3⟩])).valueOf
      (.once (.within (.ofNanos 3)) (.neg (.atom true))) (Time.ofNanos 4).toInstant = .holds := by
  have zero (tape : Tape Bool) := (Formula.Momentary.atom true).neg.mem_shifts_always_iff tape
  have atThree : (Tape.ofEvents (growingEvents ++ [⟨false, .ofNanos 3⟩])).valueOf
      (.neg (.atom true)) 3 = .holds := by cbv
  have increasing : Increasing (growingEvents ++ [⟨false, .ofNanos 3⟩]) := by decide
  refine (Tape.valueOf_once (increasing.imp Nat.le_of_lt) (.neg (.atom true)) (some (.ofNanos 3))
    (.ofNanos 4)).holds_of (show (3 : Int) < _ by decide) ?_ atThree ?_
  · refine ⟨by decide, fun _ same => by cases same; decide, .inl ?_⟩
    exact ⟨⟨false, .ofNanos 3⟩, by decide, 0, (zero _ 0).2 rfl, rfl⟩
  · rintro x later ⟨_, _, ⟨event, member, shift, atShift, meets⟩ | ⟨_, same, isFirst⟩⟩
    · obtain rfl := (zero _ shift).1 atShift
      have early : ∀ event ∈ growingEvents ++ [⟨false, .ofNanos 3⟩], event.time.toInstant ≤ 3 := by
        decide
      have := early event member
      omega
    · cases same
      rw [isFirst] at later
      exact absurd later (by decide)

/-- A verdict that an event in the window overthrows: up to the instant it is about, the newest
event was taken to stay in force. -/
theorem evaluate_outdated :
    growingCursor.reader.Shows growingRing growingEvents ∧
    Cursor.Valid growingCursor.reader growingRing growingCursor.position ∧
    grownCursor.reader.Shows grownRing (growingEvents ++ [⟨false, .ofNanos 3⟩]) ∧
    Cursor.Valid grownCursor.reader grownRing grownCursor.position ∧
    Increasing (growingEvents ++ [⟨false, .ofNanos 3⟩]) ∧
    Formula.LooksBack (some (.ofNanos 3)) (.once (.within (.ofNanos 3)) (.neg (.atom true))) ∧
    (growingCursor.evaluate growingRing (.once (.within (.ofNanos 3)) (.neg (.atom true)))
      (.ofNanos 4)).1 = .fails ∧
    (grownCursor.evaluate grownRing (.once (.within (.ofNanos 3)) (.neg (.atom true)))
      (.ofNanos 4)).1 = .holds := by
  refine ⟨growingCursor_shows, by decide, grownCursor_shows, by decide, by decide,
    .once (.neg (.atom true)), ?_, ?_⟩
  · rw [Cursor.evaluate_eq_valueOf growingCursor_shows (by decide) (by decide)]
    exact once_not_growing
  · rw [Cursor.evaluate_eq_valueOf grownCursor_shows (by decide) (by decide)]
    exact once_not_grown

end TimedTrace
