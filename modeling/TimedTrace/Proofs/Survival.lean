import TimedTrace.Proofs.Agreement
import TimedTrace.Proofs.Coverage
import TimedTrace.Proofs.Growth

namespace TimedTrace

variable {α : Type}

theorem Extends.refl (start : Int) (events : List (Event α)) : Extends start events events :=
  ⟨fun _ _ reaches => reaches, fun _ _ _ _ inForce => inForce⟩

/-- Events that are appended later are after all that the trace reaches. -/
theorem Increasing.extends_append {events more : List (Event α)}
    (increasing : Increasing (events ++ more)) (start : Int) :
    Extends start events (events ++ more) := by
  have shown {i : Nat} {event : Event α} (atI : events[i]? = some event) :
      (events ++ more)[i]? = some event := by
    rwa [List.getElem?_append_left (List.getElem?_eq_some_iff.1 atI).1]
  constructor
  · rintro c _ ⟨newest, last, upTo⟩
    have ordered : Ordered (events ++ more) := increasing.imp Nat.le_of_lt
    have member := List.mem_append_left more (List.mem_of_getLast? last)
    exact (reaches_iff ordered).2 ⟨newest, member, upTo⟩
  · rintro c event _ ⟨newest, last, upTo⟩ ⟨i, atI, early, after⟩
    refine ⟨i, shown atI, early, fun j later beyond atJ => ?_⟩
    by_cases inside : j < events.length
    · rw [List.getElem?_append_left inside] at atJ
      exact after j later beyond atJ
    · rw [Option.mem_def, List.getLast?_eq_getElem?] at last
      have := increasing.lt (show events.length - 1 < j by
        have := (List.getElem?_eq_some_iff.1 atI).1
        omega) (shown last) atJ
      omega

section

variable {events others : List (Event α)} {shifts inner : List Int} {start c : Int}
  {left right moreLeft moreRight : Int → Verdict} {finish : Option Int} {a b : Verdict}

/-- What a search over all instants tells, a search over few tells as well that knows more. -/
theorem DenseEnds.below_search (grown : Extends start events others) (later : start ≤ c)
    (ahead : ∀ stop ∈ finish, start ≤ stop)
    (leftBelow : ∀ d, start ≤ d → (left d).Below (moreLeft d))
    (rightBelow : ∀ d, start ≤ d → (right d).Below (moreRight d))
    (first : Steady others inner moreLeft) (second : Steady others inner moreRight)
    (included : ∀ offset ∈ inner, offset ∈ shifts)
    (dense : DenseEnds events left right finish c a)
    (sparse : SearchEnds others shifts moreLeft moreRight finish c b) : a.Below b := by
  have step (d : Int) (from_start : c ≤ d) :=
    (leftBelow d (later.trans from_start)).settle (rightBelow d (later.trans from_start))
  have still (d : Int) (from_start : c ≤ d)
      (nothing : Verdict.settle (left d) (right d) = none) :
      Verdict.settle (moreLeft d) (moreRight d) = none := by
    rcases step d from_start with undecided | same
    · rw [nothing] at undecided
      cases undecided
    · rw [← same, nothing]
  by_cases undecided : a = .unknown
  · exact .inl undecided
  right
  cases dense with
  | @settled x _ lower room settles before =>
    have settlesMore : Verdict.settle (moreLeft x) (moreRight x) = some a := by
      rcases step x lower with nothing | same
      · exact absurd (Option.some.inj (settles.symm.trans nothing)) undecided
      · exact same.symm.trans settles
    have looked (overlooked : Overlooked others shifts moreLeft moreRight c x) : False := by
      obtain ⟨leftStays, rightStays⟩ := overlooked.spreads first second included le_rfl
        fun d lower upper => absurd upper (by omega)
      rcases Verdict.settle_eq_none_or leftStays rightStays with nothing | unknown
      · rw [nothing] at settlesMore
        cases settlesMore
      · exact undecided (Option.some.inj (settlesMore.symm.trans unknown))
    cases sparse with
    | @settled z _ lowerZ _ _ settlesZ overlooked =>
      rcases lt_trichotomy z x with early | rfl | late
      · rw [still z lowerZ (before z lowerZ early)] at settlesZ
        cases settlesZ
      · exact Option.some.inj (settlesMore.symm.trans settlesZ)
      · exact (looked (overlooked x lower late)).elim
    | exhausted overlooked => exact (looked (overlooked x lower room)).elim
  | exhausted never =>
    cases sparse with
    | @settled z _ lowerZ roomZ _ settlesZ _ =>
      rw [still z lowerZ (never z lowerZ roomZ)] at settlesZ
      cases settlesZ
    | exhausted _ => exact (unsettled_below grown ahead).eq undecided

/-- A search over all instants whose operands are known throughout its window comes to a
decision. -/
theorem DenseEnds.ne_unknown {stop : Int}
    (ends : DenseEnds events left right (some stop) c a) (reaches : Reaches events stop)
    (known : ∀ d, c ≤ d → d < stop → left d ≠ .unknown ∧ right d ≠ .unknown) :
    a ≠ .unknown := by
  cases ends with
  | @settled d _ lower before settles _ =>
    obtain ⟨first, second⟩ := known d lower (before stop rfl)
    rintro rfl
    exact Verdict.settle_ne_unknown first second settles
  | exhausted =>
    rw [unsettled, if_pos reaches]
    exact Verdict.fails_ne_unknown

end

section

variable [DecidableEq α] {events others : List (Event α)} {start : Int}

theorem onTime_below {value : Time → Verdict} {f : Formula α}
    (atTimes : ∀ time : Time, start ≤ time.toInstant →
      (value time).Below ((Tape.ofEvents others).valueOf f time.toInstant)) (c : Int)
    (later : start ≤ c) : (onTime value c).Below ((Tape.ofEvents others).valueOf f c) := by
  unfold onTime
  cases atC : Time.ofInstant? c with
  | none => exact .inl rfl
  | some time =>
    obtain rfl := Time.toInstant_of_ofInstant? atC
    exact atTimes time later

/-- What an evaluation at every instant tells, evaluation on a grown trace tells as well. -/
theorem Formula.Future.dense_below (ordered : Ordered events) (orderedToo : Ordered others)
    (grown : Extends start events others) {f : Formula α} (future : f.Future) (time : Time)
    (later : start ≤ time.toInstant) :
    (f.dense events time).Below ((Tape.ofEvents others).valueOf f time.toInstant) := by
  have ahead (bound : Option Time) (time : Time) (later : start ≤ time.toInstant) :
      ∀ stop ∈ windowEnd bound time.toInstant, start ≤ stop := by
    rintro _ isStop
    obtain ⟨length, _, rfl⟩ := Option.mem_map.1 isStop
    have := length.toInstant_nonneg
    omega
  induction future generalizing time with
  | top =>
    rw [Tape.valueOf_toInstant]
    exact .refl _
  | bot =>
    rw [Tape.valueOf_toInstant]
    exact .refl _
  | atom data =>
    rw [← Tape.valueOf_eq_dense ordered (.atom data) trivial time]
    exact (Tape.valueOf_atom ordered data time).below grown later
      (Tape.valueOf_atom orderedToo data time)
  | neg _ ih =>
    rw [Tape.valueOf_neg]
    exact (ih time later).not
  | disj _ _ left right =>
    rw [Tape.valueOf_disj orderedToo]
    exact (left time later).or (right time later)
  | conj _ _ left right =>
    rw [Tape.valueOf_conj orderedToo]
    exact (left time later).and (right time later)
  | imp _ _ left right =>
    rw [Tape.valueOf_imp orderedToo]
    exact (left time later).implies (right time later)
  | @untl bound l r first second left right =>
    exact (denseSearch_ends ..).below_search grown later (ahead bound time later)
      (onTime_below left) (onTime_below right)
      ((Tape.steady_of_future orderedToo first).mono subset_union_left)
      ((Tape.steady_of_future orderedToo second).mono subset_union_right)
      (fun shift member => (Tape.mem_shifts_union _ l r shift).2 (.inr member))
      (Tape.valueOf_untl orderedToo l r bound time)
  | @eventually bound f inner ih =>
    rw [dense_eventually]
    exact (denseSearch_ends ..).below_search grown later (ahead bound time later)
      (fun _ _ => .refl _) (onTime_below ih) (.always _) (Tape.steady_of_future orderedToo inner)
      (fun shift member => (Tape.mem_shifts_always _ f shift).2 (.inr member))
      (Tape.valueOf_eventually orderedToo f bound time)
  | @always bound f inner ih =>
    have opposite := (denseSearch_ends events (fun _ => .holds)
        (fun c => (onTime (f.dense events) c).not) (windowEnd bound time.toInstant)
        time.toInstant).below_search grown later (ahead bound time later)
      (fun _ _ => .refl _) (fun d from_start => (onTime_below ih d from_start).not) (.always _)
      (Tape.steady_of_future orderedToo inner).not
      (fun shift member => (Tape.mem_shifts_always _ f shift).2 (.inr member))
      (Tape.valueOf_always orderedToo f bound time)
    rw [dense_always]
    simpa only [Verdict.not_not] using opposite.not
  | @eventuallyAt distance f _ ih =>
    have := distance.toInstant_nonneg
    rw [Tape.valueOf_eventually_exactly]
    exact onTime_below ih _ (by omega)
  | @alwaysAt distance f _ ih =>
    have := distance.toInstant_nonneg
    rw [Tape.valueOf_always_exactly]
    exact onTime_below ih _ (by omega)

/-- Formulas on which evaluation at few instants overlooks nothing: over windows that each have an
atom below them, the operators at one instant stand above the windows only. -/
inductive Formula.Faithful : Formula α → Prop
  | plain {f : Formula α} : f.PlainFuture → f.Anchored → Faithful f
  | neg {f : Formula α} : f.Faithful → Faithful (.neg f)
  | disj {l r : Formula α} : l.Faithful → r.Faithful → Faithful (.disj l r)
  | conj {l r : Formula α} : l.Faithful → r.Faithful → Faithful (.conj l r)
  | imp {l r : Formula α} : l.Faithful → r.Faithful → Faithful (.imp l r)
  | eventuallyAt (distance : Time) {f : Formula α} : f.Faithful →
      Faithful (.eventually (.exactly distance) f)
  | alwaysAt (distance : Time) {f : Formula α} : f.Faithful →
      Faithful (.always (.exactly distance) f)

theorem Formula.Faithful.valueOf_eq_dense (ordered : Ordered events) {f : Formula α}
    (faithful : f.Faithful) (time : Time) :
    (Tape.ofEvents events).valueOf f time.toInstant = f.dense events time := by
  induction faithful generalizing time with
  | plain plain anchored => exact Tape.valueOf_eq_dense ordered plain anchored time
  | neg _ ih =>
    rw [Tape.valueOf_neg, ih]
    rfl
  | disj _ _ left right =>
    rw [Tape.valueOf_disj ordered, left, right]
    rfl
  | conj _ _ left right =>
    rw [Tape.valueOf_conj ordered, left, right]
    rfl
  | imp _ _ left right =>
    rw [Tape.valueOf_imp ordered, left, right]
    rfl
  | eventuallyAt distance _ ih =>
    rw [Tape.valueOf_eventually_exactly, Tape.valueOf_eq_onTime ih]
    rfl
  | alwaysAt distance _ ih =>
    rw [Tape.valueOf_always_exactly, Tape.valueOf_eq_onTime ih]
    rfl

/-- Where the trace covers all that a formula looks at, an evaluation at every instant tells its
value. -/
theorem Formula.Future.dense_ne_unknown (ordered : Ordered events) {f : Formula α}
    (future : f.Future) (bounded : f.Bounded) (time : Time)
    (covers : Covers events f.lookback f.lookahead time.toInstant) :
    f.dense events time ≠ .unknown := by
  have covered {value : Time → Verdict} {behind ahead : Nat}
      (known : ∀ time : Time, Covers events behind ahead time.toInstant → value time ≠ .unknown)
      (c : Int) (covers : Covers events behind ahead c) : onTime value c ≠ .unknown := by
    obtain ⟨time, rfl⟩ := covers.exists_time
    rw [onTime, Time.ofInstant?_toInstant]
    exact known time covers
  induction future generalizing time with
  | top => exact Verdict.holds_ne_unknown
  | bot => exact Verdict.fails_ne_unknown
  | atom data =>
    rw [← Tape.valueOf_eq_dense ordered (.atom data) trivial time]
    exact (Tape.valueOf_atom ordered data time).ne_unknown ordered covers
  | neg _ ih => exact Verdict.not_ne_unknown (ih bounded time covers)
  | disj _ _ left right =>
    exact Verdict.or_ne_unknown (left bounded.1 time covers.left)
      (right bounded.2 time covers.right)
  | conj _ _ left right =>
    exact Verdict.and_ne_unknown (left bounded.1 time covers.left)
      (right bounded.2 time covers.right)
  | imp _ _ left right =>
    exact Verdict.implies_ne_unknown (left bounded.1 time covers.left)
      (right bounded.2 time covers.right)
  | @untl bound l r _ _ left right =>
    cases bound with
    | none => exact absurd bounded.1 Bool.false_ne_true
    | some length =>
      obtain ⟨reaches, inside⟩ := Covers.window covers
      refine (denseSearch_ends ..).ne_unknown reaches fun d lower upper => ?_
      have atD := inside d lower upper.le
      exact ⟨covered (fun time covers => left bounded.2.1 time covers) d atD.left,
        covered (fun time covers => right bounded.2.2 time covers) d atD.right⟩
  | @eventually bound f _ ih =>
    cases bound with
    | none => exact absurd rfl bounded.1
    | some length =>
      obtain ⟨reaches, inside⟩ := Covers.window covers
      exact (denseSearch_ends ..).ne_unknown reaches fun d lower upper =>
        ⟨Verdict.holds_ne_unknown,
          covered (fun time covers => ih bounded.2 time covers) d (inside d lower upper.le)⟩
  | @always bound f _ ih =>
    cases bound with
    | none => exact absurd rfl bounded.1
    | some length =>
      obtain ⟨reaches, inside⟩ := Covers.window covers
      refine Verdict.not_ne_unknown ((denseSearch_ends ..).ne_unknown reaches
        fun d lower upper => ⟨Verdict.holds_ne_unknown, Verdict.not_ne_unknown ?_⟩)
      exact covered (fun time covers => ih bounded.2 time covers) d (inside d lower upper.le)
  | @eventuallyAt distance f _ ih =>
    refine covered (fun time covers => ih bounded.2 time covers) _
      ((Covers.window covers).2 _ ?_ le_rfl)
    exact Int.le_add_of_nonneg_right distance.toInstant_nonneg
  | @alwaysAt distance f _ ih =>
    refine covered (fun time covers => ih bounded.2 time covers) _
      ((Covers.window covers).2 _ ?_ le_rfl)
    exact Int.le_add_of_nonneg_right distance.toInstant_nonneg

end

namespace Cursor

variable [DecidableEq α] {cursor later : Cursor} {ring after : Ring α}
  {events more : List (Event α)}

/-- A verdict on a formula that looks ahead survives when the trace grows, unless evaluation at few
instants has told what evaluation at every instant leaves open. -/
theorem evaluate_survives (shows : cursor.reader.Shows ring events)
    (valid : Valid cursor.reader ring cursor.position)
    (showsLater : later.reader.Shows after (events ++ more))
    (validLater : Valid later.reader after later.position)
    (increasing : Increasing (events ++ more)) {f : Formula α} (future : f.Future) (time : Time)
    (decided : (cursor.evaluate ring f time).1 ≠ .unknown)
    (complete : f.Faithful ∨ f.dense events time ≠ .unknown) :
    (later.evaluate after f time).1 = (cursor.evaluate ring f time).1 := by
  have orderedLater : Ordered (events ++ more) := increasing.imp Nat.le_of_lt
  have ordered : Ordered events := orderedLater.sublist (List.sublist_append_left ..)
  rw [evaluate_eq_valueOf shows ordered valid] at decided
  rw [evaluate_eq_valueOf shows ordered valid,
    evaluate_eq_valueOf showsLater orderedLater validLater]
  have told : f.dense events time ≠ .unknown := by
    rcases complete with faithful | told
    · rwa [← faithful.valueOf_eq_dense ordered time]
    · exact told
  have now := future.dense_below ordered ordered (.refl 0 events) time time.toInstant_nonneg
  have grown := increasing.extends_append 0
  have afterwards := future.dense_below ordered orderedLater grown time time.toInstant_nonneg
  rw [← now.eq told, ← afterwards.eq told]

end Cursor

/-- Nothing that the window looks at two nanoseconds later lies beyond the trace. -/
theorem evaluate_survives_growing :
    (grownCursor.evaluate grownRing (.eventually (.within (.ofNanos 1))
      (.eventually (.exactly (.ofNanos 1)) (.atom true))) .zero).1 =
    (growingCursor.evaluate growingRing (.eventually (.within (.ofNanos 1))
      (.eventually (.exactly (.ofNanos 1)) (.atom true))) .zero).1 := by
  have future : (Formula.eventually (.within (.ofNanos 1))
      (.eventually (.exactly (.ofNanos 1)) (.atom true))).Future :=
    .eventually (some _) (.eventuallyAt _ (.atom _))
  have bounded : (Formula.eventually (.within (.ofNanos 1))
      (.eventually (.exactly (.ofNanos 1)) (.atom true))).Bounded :=
    ⟨nofun, nofun, trivial⟩
  have covers : Covers growingEvents 0 2 Time.zero.toInstant := ⟨by decide, by decide⟩
  refine Cursor.evaluate_survives growingCursor_shows (by decide) grownCursor_shows (by decide)
    (by decide) future .zero ?_ (.inr (future.dense_ne_unknown (by decide) bounded .zero covers))
  rw [Cursor.evaluate_eq_valueOf growingCursor_shows (by decide) (by decide)]
  exact Tape.valueOf_ne_unknown (by decide) _ bounded _ covers

/-- The atom holds two nanoseconds later. -/
def twoLater : Formula Bool := .eventually (.exactly (.ofNanos 2)) (.atom true)

theorem offsets_twoLater : twoLater.offsets = [2] := by cbv

/-- A search from zero does not look at one, where nothing is known. -/
theorem always_twoLater_growing :
    (Tape.ofEvents growingEvents).valueOf (.always (.within (.ofNanos 2)) twoLater)
      Time.zero.toInstant = .holds := by
  have atZero : (Tape.ofEvents growingEvents).valueOf twoLater 0 = .holds := by cbv
  have ends := Tape.valueOf_always (by decide : Ordered growingEvents) twoLater
    (some (.ofNanos 2)) .zero
  rw [← Verdict.not_eq_fails_iff]
  refine ends.eq_unsettled fun c lower room looked => ?_
  have upper : c < 2 := room _ rfl
  have same : c = 0 := by
    rcases looked with rfl | ⟨event, member, shift, atShift, meets⟩
    · rfl
    · rw [Tape.mem_shifts_always, offsets_twoLater, List.mem_singleton] at atShift
      have early : event.time.toInstant = 0 ∨ event.time.toInstant = 2 := by
        rcases List.mem_cons.1 member with rfl | last
        · exact .inl rfl
        · rw [List.mem_singleton.1 last]
          exact .inr rfl
      have : 0 ≤ c := lower
      omega
  rw [same, atZero]
  rfl

/-- After another event it does. -/
theorem always_twoLater_grown :
    (Tape.ofEvents (growingEvents ++ [⟨false, .ofNanos 3⟩])).valueOf
      (.always (.within (.ofNanos 2)) twoLater) Time.zero.toInstant = .fails := by
  have atZero : (Tape.ofEvents (growingEvents ++ [⟨false, .ofNanos 3⟩])).valueOf twoLater 0 =
      .holds := by cbv
  have atOne : (Tape.ofEvents (growingEvents ++ [⟨false, .ofNanos 3⟩])).valueOf twoLater 1 =
      .fails := by cbv
  have ends := Tape.valueOf_always (by decide : Ordered (growingEvents ++ [⟨false, .ofNanos 3⟩]))
    twoLater (some (.ofNanos 2)) .zero
  rw [← Verdict.not_eq_holds_iff]
  refine ends.eq_of_first (show (0 : Int) ≤ 1 by decide) (fun stop isStop => ?_) (.inr ?_)
    (by rw [atOne]; rfl) fun d lower early _ => ?_
  · cases isStop
    decide
  · refine ⟨⟨false, .ofNanos 3⟩, by decide, 2, (Tape.mem_shifts_always ..).2 (.inr ?_), rfl⟩
    rw [offsets_twoLater]
    exact List.mem_cons_self
  · have : (0 : Int) ≤ d := lower
    rw [show d = 0 by omega, atZero]
    rfl

/-- A verdict that another event overthrows. The trace does not tell yet what holds two nanoseconds
after one, but no event meets an offset there. -/
theorem evaluate_overthrown :
    growingCursor.reader.Shows growingRing growingEvents ∧
    Cursor.Valid growingCursor.reader growingRing growingCursor.position ∧
    grownCursor.reader.Shows grownRing (growingEvents ++ [⟨false, .ofNanos 3⟩]) ∧
    Cursor.Valid grownCursor.reader grownRing grownCursor.position ∧
    Increasing (growingEvents ++ [⟨false, .ofNanos 3⟩]) ∧
    (Formula.always (.within (.ofNanos 2)) twoLater).Future ∧
    (growingCursor.evaluate growingRing (.always (.within (.ofNanos 2)) twoLater) .zero).1 =
      .holds ∧
    (grownCursor.evaluate grownRing (.always (.within (.ofNanos 2)) twoLater) .zero).1 =
      .fails := by
  refine ⟨growingCursor_shows, by decide, grownCursor_shows, by decide, by decide,
    .always (some _) (.eventuallyAt _ (.atom _)), ?_, ?_⟩
  · rw [Cursor.evaluate_eq_valueOf growingCursor_shows (by decide) (by decide)]
    exact always_twoLater_growing
  · rw [Cursor.evaluate_eq_valueOf grownCursor_shows (by decide) (by decide)]
    exact always_twoLater_grown

end TimedTrace
