import Mathlib.Algebra.Order.Ring.Int
import TimedTrace.Evaluation

namespace TimedTrace

variable {α : Type} {events : List (Event α)}

theorem Time.toInstant_le_iff {a b : Time} : a.toInstant ≤ b.toInstant ↔ a ≤ b := Int.ofNat_le

theorem Time.toInstant_inj {a b : Time} : a.toInstant = b.toInstant ↔ a = b := by
  constructor
  · intro same
    exact Time.ext (Int.ofNat_inj.1 same)
  · intro same
    rw [same]

theorem Time.exists_toInstant {c : Int} (lower : 0 ≤ c) (upper : c ≤ maxNanos) :
    ∃ time : Time, time.toInstant = c :=
  ⟨⟨c.toNat, by omega⟩, by simp only [Time.toInstant]; omega⟩

/-- The times never decrease. Several events may share one. -/
def Ordered (events : List (Event α)) : Prop := events.Pairwise fun a b => a.time ≤ b.time

instance (events : List (Event α)) : Decidable (Ordered events) :=
  inferInstanceAs (Decidable (List.Pairwise _ _))

/-- The event is the last one of the trace that is not after the instant. -/
def InForce (events : List (Event α)) (c : Int) (event : Event α) : Prop :=
  ∃ i, events[i]? = some event ∧ event.time.toInstant ≤ c ∧
    ∀ (j : Nat) (later : Event α), i < j → events[j]? = some later → c < later.time.toInstant

/-- The newest event of the trace is not before the instant. -/
def Reaches (events : List (Event α)) (c : Int) : Prop :=
  ∃ newest ∈ events.getLast?, c ≤ newest.time.toInstant

instance (events : List (Event α)) (c : Int) : Decidable (Reaches events c) :=
  inferInstanceAs (Decidable (∃ _ ∈ _, _))

/-- The oldest event of the trace is not after the instant. -/
def ReachesBack (events : List (Event α)) (c : Int) : Prop :=
  ∃ oldest ∈ events.head?, oldest.time.toInstant ≤ c

instance (events : List (Event α)) (c : Int) : Decidable (ReachesBack events c) :=
  inferInstanceAs (Decidable (∃ _ ∈ _, _))

/-- From the instant one of the offsets leads to the time of an event. -/
def Meets (events : List (Event α)) (offsets : List Int) (c : Int) : Prop :=
  ∃ event ∈ events, ∃ offset ∈ offsets, c + offset = event.time.toInstant

/-- No instant after `start` and up to `stop` meets an event. -/
def Quiet (events : List (Event α)) (offsets : List Int) (start stop : Int) : Prop :=
  ∀ c, start < c → c ≤ stop → ¬ Meets events offsets c

theorem Ordered.le {i j : Nat} {a b : Event α} (ordered : Ordered events) (before : i ≤ j)
    (atI : events[i]? = some a) (atJ : events[j]? = some b) :
    a.time.toInstant ≤ b.time.toInstant := by
  obtain ⟨iBound, rfl⟩ := List.getElem?_eq_some_iff.1 atI
  obtain ⟨jBound, rfl⟩ := List.getElem?_eq_some_iff.1 atJ
  rcases Nat.eq_or_lt_of_le before with rfl | less
  · exact le_rfl
  · exact Time.toInstant_le_iff.2 (List.pairwise_iff_getElem.1 ordered i j iBound jBound less)

theorem reaches_iff (ordered : Ordered events) {c : Int} :
    Reaches events c ↔ ∃ event ∈ events, c ≤ event.time.toInstant := by
  constructor
  · rintro ⟨newest, last, bound⟩
    exact ⟨newest, List.mem_of_getLast? last, bound⟩
  · rintro ⟨event, member, bound⟩
    obtain ⟨i, atI⟩ := List.mem_iff_getElem?.1 member
    have room := (List.getElem?_eq_some_iff.1 atI).1
    have last : events.getLast? = some events[events.length - 1] := by
      rw [List.getLast?_eq_getElem?, List.getElem?_eq_getElem (by omega)]
    refine ⟨_, last, bound.trans (ordered.le (by omega : i ≤ events.length - 1) atI ?_)⟩
    rw [List.getElem?_eq_getElem (by omega)]

theorem Reaches.mono {c d : Int} (reaches : Reaches events d) (before : c ≤ d) :
    Reaches events c := by
  obtain ⟨newest, last, bound⟩ := reaches
  exact ⟨newest, last, before.trans bound⟩

theorem Reaches.le_maxNanos {c : Int} (reaches : Reaches events c) : c ≤ maxNanos := by
  obtain ⟨newest, _, bound⟩ := reaches
  exact bound.trans newest.time.toInstant_le

theorem ReachesBack.mono {c d : Int} (reaches : ReachesBack events c) (after : c ≤ d) :
    ReachesBack events d := by
  obtain ⟨oldest, first, bound⟩ := reaches
  exact ⟨oldest, first, bound.trans after⟩

theorem ReachesBack.nonneg {c : Int} (reaches : ReachesBack events c) : 0 ≤ c := by
  obtain ⟨oldest, _, bound⟩ := reaches
  exact oldest.time.toInstant_nonneg.trans bound

theorem InForce.unique {c : Int} {a b : Event α} (first : InForce events c a)
    (second : InForce events c b) : a = b := by
  obtain ⟨i, atI, iBound, iLast⟩ := first
  obtain ⟨j, atJ, jBound, jLast⟩ := second
  rcases Nat.lt_trichotomy i j with less | rfl | less
  · have := iLast j b less atJ
    omega
  · exact Option.some.inj (atI.symm.trans atJ)
  · have := jLast i a less atI
    omega

section Quiet

variable {offsets : List Int} {start stop : Int}

theorem Quiet.within {a b : Int} (quiet : Quiet events offsets start stop) (lower : start ≤ a)
    (upper : b ≤ stop) : Quiet events offsets a b :=
  fun c after upTo => quiet c (by omega) (by omega)

theorem Quiet.subset {fewer : List Int} (quiet : Quiet events offsets start stop)
    (included : ∀ offset ∈ fewer, offset ∈ offsets) : Quiet events fewer start stop := by
  rintro c after upTo ⟨event, member, offset, atOffset, meets⟩
  exact quiet c after upTo ⟨event, member, offset, included offset atOffset, meets⟩

theorem Quiet.append {middle : Int} (quiet : Quiet events offsets start middle)
    (rest : Quiet events offsets middle stop) : Quiet events offsets start stop := by
  intro c after upTo
  by_cases early : c ≤ middle
  · exact quiet c after early
  · exact rest c (by omega) upTo

/-- What is quiet for a moved offset is quiet for the offset at the moved instants. -/
theorem Quiet.shift {shifts : List Int} {shift : Int}
    (quiet : Quiet events (widen offsets shifts) start stop) (member : shift ∈ shifts) :
    Quiet events offsets (start + shift) (stop + shift) := by
  rintro c after upTo ⟨event, atEvent, offset, atOffset, meets⟩
  refine quiet (c - shift) (by omega) (by omega) ⟨event, atEvent, offset + shift, ?_, by omega⟩
  exact mem_widen.2 ⟨offset, atOffset, shift, member, rfl⟩

/-- An event stays in force until the next one. -/
theorem Quiet.inForce_iff {c d : Int} {event : Event α} (quiet : Quiet events [0] c d)
    (upTo : c ≤ d) : InForce events c event ↔ InForce events d event := by
  constructor
  · rintro ⟨i, atI, early, last⟩
    refine ⟨i, atI, early.trans upTo, fun j later after atJ => ?_⟩
    by_contra notAfter
    exact quiet later.time.toInstant (last j later after atJ) (by omega)
      ⟨later, List.mem_of_getElem? atJ, 0, by simp, by omega⟩
  · rintro ⟨i, atI, early, last⟩
    refine ⟨i, atI, ?_, fun j later after atJ => upTo.trans_lt (last j later after atJ)⟩
    by_contra notBefore
    exact quiet event.time.toInstant (by omega) early
      ⟨event, List.mem_of_getElem? atI, 0, by simp, by omega⟩

end Quiet

end TimedTrace
