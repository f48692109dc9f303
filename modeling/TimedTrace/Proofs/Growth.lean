import TimedTrace.Proofs.Dense

namespace TimedTrace

variable {α : Type}

/-- From the instant on, the other trace reaches as far and has the same events in force. -/
structure Extends (start : Int) (events others : List (Event α)) : Prop where
  reaches : ∀ c, start ≤ c → Reaches events c → Reaches others c
  inForce : ∀ c event, start ≤ c → Reaches events c → InForce events c event →
    InForce others c event

section

variable {events others : List (Event α)} {start c : Int} {left right : Int → Verdict}
  {moreLeft moreRight : Int → Verdict} {finish : Option Int}

theorem AtomValue.below [DecidableEq α] (grown : Extends start events others) {data : α}
    {a b : Verdict} (later : start ≤ c) (first : AtomValue events data c a)
    (second : AtomValue others data c b) : a.Below b := by
  cases first with
  | unknown => exact .inl rfl
  | known inForce reaches =>
    right
    exact AtomValue.unique
      (.known (grown.inForce c _ later reaches inForce) (grown.reaches c later reaches)) second

theorem unsettled_below (grown : Extends start events others)
    (later : ∀ stop ∈ finish, start ≤ stop) :
    (unsettled events finish).Below (unsettled others finish) := by
  cases finish with
  | none => exact .refl _
  | some stop =>
    by_cases reaches : Reaches events stop
    · have more := grown.reaches stop (later stop rfl) reaches
      simp only [unsettled, reaches, more, if_true]
      exact .refl _
    · simp only [unsettled, reaches, if_false]
      exact .inl rfl

/-- With more known about its operands a search tells at least as much. -/
theorem DenseEnds.below (grown : Extends start events others) (later : start ≤ c)
    (ahead : ∀ stop ∈ finish, start ≤ stop)
    (moreLeftBelow : ∀ d, start ≤ d → (left d).Below (moreLeft d))
    (moreRightBelow : ∀ d, start ≤ d → (right d).Below (moreRight d)) {a b : Verdict}
    (first : DenseEnds events left right finish c a)
    (second : DenseEnds others moreLeft moreRight finish c b) : a.Below b := by
  have step (d : Int) (from_start : c ≤ d) :=
    (moreLeftBelow d (later.trans from_start)).settle (moreRightBelow d (later.trans from_start))
  have still (d : Int) (from_start : c ≤ d)
      (nothing : Verdict.settle (left d) (right d) = none) :
      Verdict.settle (moreLeft d) (moreRight d) = none := by
    rcases step d from_start with undecided | same
    · rw [nothing] at undecided
      cases undecided
    · rw [← same, nothing]
  cases first with
  | @settled x _ lower room settle before =>
    rcases step x lower with undecided | same
    · left
      exact Option.some.inj (settle.symm.trans undecided)
    · right
      rw [same] at settle
      exact DenseEnds.unique
        (.settled lower room settle fun d from_start upper => still d from_start
          (before d from_start upper)) second
  | exhausted never =>
    have rest := DenseEnds.unique second
      (.exhausted fun d from_start room => still d from_start (never d from_start room))
    rw [rest]
    exact unsettled_below grown ahead

end

namespace Tape

variable [DecidableEq α] {events others : List (Event α)} {start : Int}

/-- Where there is no time nothing is known, so only times matter. -/
theorem below_of_times {f : Formula α}
    (atTimes : ∀ time : Time, start ≤ time.toInstant →
      ((ofEvents events).valueOf f time.toInstant).Below
        ((ofEvents others).valueOf f time.toInstant)) (c : Int) (later : start ≤ c) :
    ((ofEvents events).valueOf f c).Below ((ofEvents others).valueOf f c) := by
  cases atC : Time.ofInstant? c with
  | none => exact .inl (valueOf_of_none atC)
  | some time =>
    obtain rfl := Time.toInstant_of_ofInstant? atC
    exact atTimes time later

theorem valueOf_below (ordered : Ordered events) (orderedToo : Ordered others)
    (grown : Extends start events others) {f : Formula α} (plain : f.PlainFuture)
    (anchored : f.Anchored) (c : Int) (later : start ≤ c) :
    ((ofEvents events).valueOf f c).Below ((ofEvents others).valueOf f c) := by
  have ahead (bound : Option Time) (time : Time) (later : start ≤ time.toInstant) :
      ∀ stop ∈ windowEnd bound time.toInstant, start ≤ stop := by
    rintro _ isStop
    obtain ⟨length, _, rfl⟩ := Option.mem_map.1 isStop
    have := length.toInstant_nonneg
    omega
  induction plain generalizing c with
  | top =>
    refine below_of_times (fun time _ => ?_) c later
    rw [valueOf_toInstant, valueOf_toInstant]
    exact .refl _
  | bot =>
    refine below_of_times (fun time _ => ?_) c later
    rw [valueOf_toInstant, valueOf_toInstant]
    exact .refl _
  | atom data =>
    exact below_of_times (fun time later => (valueOf_atom ordered data time).below grown later
      (valueOf_atom orderedToo data time)) c later
  | neg _ ih =>
    rw [valueOf_neg, valueOf_neg]
    exact (ih anchored c later).not
  | disj _ _ left right =>
    rw [valueOf_disj ordered, valueOf_disj orderedToo]
    exact (left anchored.1 c later).or (right anchored.2 c later)
  | conj _ _ left right =>
    rw [valueOf_conj ordered, valueOf_conj orderedToo]
    exact (left anchored.1 c later).and (right anchored.2 c later)
  | imp _ _ left right =>
    rw [valueOf_imp ordered, valueOf_imp orderedToo]
    exact (left anchored.1 c later).implies (right anchored.2 c later)
  | @untl bound l r first second left right =>
    obtain ⟨_, leftAnchored, rightAnchored⟩ := anchored
    refine below_of_times (fun time later => ?_) c later
    have ends := untl_ends ordered bound time first second leftAnchored rightAnchored
    have more := untl_ends orderedToo bound time first second leftAnchored rightAnchored
    exact ends.below grown later (ahead bound time later) (left leftAnchored)
      (right rightAnchored) more
  | @eventually bound f plain ih =>
    refine below_of_times (fun time later => ?_) c later
    have ends := eventually_ends ordered bound time plain anchored.2
    have more := eventually_ends orderedToo bound time plain anchored.2
    exact ends.below grown later (ahead bound time later) (fun _ _ => .refl _) (ih anchored.2) more
  | @always bound f plain ih =>
    refine below_of_times (fun time later => ?_) c later
    have ends := always_ends ordered bound time plain anchored.2
    have more := always_ends orderedToo bound time plain anchored.2
    have opposite := ends.below grown later (ahead bound time later) (fun _ _ => .refl _)
      (fun d from_start => (ih anchored.2 d from_start).not) more
    have twice := opposite.not
    rwa [Verdict.not_not, Verdict.not_not] at twice

end Tape

/-- The times strictly increase. -/
def Increasing (events : List (Event α)) : Prop := events.Pairwise fun a b => a.time < b.time

instance (events : List (Event α)) : Decidable (Increasing events) :=
  inferInstanceAs (Decidable (List.Pairwise _ _))

/-- The events from number `first` up to number `past`. -/
def stretch (events : List (Event α)) (first past : Nat) : List (Event α) :=
  (events.take past).drop first

section

variable {events : List (Event α)} {first past : Nat}

theorem Increasing.lt (increasing : Increasing events) {i j : Nat} {a b : Event α} (before : i < j)
    (atI : events[i]? = some a) (atJ : events[j]? = some b) :
    a.time.toInstant < b.time.toInstant := by
  obtain ⟨iBound, rfl⟩ := List.getElem?_eq_some_iff.1 atI
  obtain ⟨jBound, rfl⟩ := List.getElem?_eq_some_iff.1 atJ
  exact Int.ofNat_lt.2 (List.pairwise_iff_getElem.1 increasing i j iBound jBound before)

theorem Increasing.ordered_stretch (increasing : Increasing events) (first past : Nat) :
    Ordered (stretch events first past) := by
  have sublist : (stretch events first past).Sublist events :=
    (List.drop_sublist ..).trans (List.take_sublist ..)
  exact (increasing.sublist sublist).imp Nat.le_of_lt

theorem stretch_getElem? (i : Nat) :
    (stretch events first past)[i]? = if first + i < past then events[first + i]? else none := by
  rw [stretch, List.getElem?_drop, List.getElem?_take]

theorem stretch_append (inside : past ≤ events.length) (more : List (Event α)) :
    stretch (events ++ more) first past = stretch events first past := by
  rw [stretch, List.take_append_of_le_length inside]
  rfl

/-- A stretch that ends later tells as much from an instant on that its oldest event is not after,
wherever it begins. -/
theorem Increasing.extends_stretch (increasing : Increasing events) {laterFirst laterPast : Nat}
    {start : Int} {oldest : Event α} (ends : past ≤ laterPast)
    (nonempty : laterFirst < laterPast) (atFirst : events[laterFirst]? = some oldest)
    (early : oldest.time.toInstant ≤ start) :
    Extends start (stretch events first past) (stretch events laterFirst laterPast) := by
  have member {n : Nat} {event : Event α} (lower : laterFirst ≤ n) (upper : n < laterPast)
      (atN : events[n]? = some event) :
      (stretch events laterFirst laterPast)[n - laterFirst]? = some event := by
    rw [stretch_getElem?, show laterFirst + (n - laterFirst) = n by omega, if_pos upper]
    exact atN
  have numbered {i : Nat} {event : Event α}
      (atI : (stretch events first past)[i]? = some event) :
      first + i < past ∧ events[first + i]? = some event := by
    rw [stretch_getElem?] at atI
    split at atI
    · exact ⟨‹_›, atI⟩
    · cases atI
  have orderedFirst := increasing.ordered_stretch first past
  have orderedLater := increasing.ordered_stretch laterFirst laterPast
  constructor
  · intro c later reaches
    obtain ⟨event, isMember, reached⟩ := (reaches_iff orderedFirst).1 reaches
    obtain ⟨i, atI⟩ := List.mem_iff_getElem?.1 isMember
    obtain ⟨inside, atNumber⟩ := numbered atI
    by_cases dropped : first + i < laterFirst
    · have after := increasing.lt dropped atNumber atFirst
      have shown := member (Nat.le_refl _) nonempty atFirst
      exact (reaches_iff orderedLater).2 ⟨oldest, List.mem_of_getElem? shown, by omega⟩
    · have shown := member (show laterFirst ≤ first + i by omega) (by omega) atNumber
      exact (reaches_iff orderedLater).2 ⟨event, List.mem_of_getElem? shown, reached⟩
  · rintro c event later reaches ⟨i, atI, before, last⟩
    obtain ⟨inside, atNumber⟩ := numbered atI
    obtain ⟨other, isMember, reached⟩ := (reaches_iff orderedFirst).1 reaches
    obtain ⟨k, atK⟩ := List.mem_iff_getElem?.1 isMember
    obtain ⟨insideToo, atOther⟩ := numbered atK
    -- All events numbered after the one in force are after `c`, whether the first stretch has them.
    have after {n : Nat} {next : Event α} (beyond : first + i < n)
        (atN : events[n]? = some next) : c < next.time.toInstant := by
      by_cases shown : n < past
      · refine last (n - first) next (by omega) ?_
        rw [stretch_getElem?, show first + (n - first) = n by omega, if_pos shown]
        exact atN
      · have further := increasing.lt (show first + k < n by omega) atOther atN
        omega
    have kept : laterFirst ≤ first + i := by
      by_contra dropped
      have := after (by omega) atFirst
      omega
    refine ⟨first + i - laterFirst, member kept (by omega) atNumber, before,
      fun j next beyond atJ => ?_⟩
    rw [stretch_getElem?] at atJ
    split at atJ
    · exact after (by omega) atJ
    · cases atJ

end

end TimedTrace
