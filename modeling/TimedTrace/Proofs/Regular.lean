import Mathlib.Data.Nat.Find
import TimedTrace.Proofs.Future

namespace TimedTrace

variable {α : Type} {events : List (Event α)}

namespace Verdict

/-- The other verdict tells at least as much. -/
def Below (a b : Verdict) : Prop := a = unknown ∨ a = b

variable {a b c d : Verdict}

theorem Below.refl (a : Verdict) : a.Below a := .inr rfl

theorem Below.eq (below : a.Below b) (decided : a ≠ unknown) : a = b :=
  below.resolve_left decided

theorem Below.not (below : a.Below b) : a.not.Below b.not := by
  rcases below with rfl | rfl
  · exact .inl rfl
  · exact .inr rfl

theorem Below.or (first : a.Below c) (second : b.Below d) : (a.or b).Below (c.or d) := by
  rcases first with rfl | rfl
  · rcases second with rfl | rfl
    · exact .inl rfl
    · cases b <;> cases c <;> simp [Below, Verdict.or]
  · rcases second with rfl | rfl
    · cases a <;> cases d <;> simp [Below, Verdict.or]
    · exact .inr rfl

theorem Below.and (first : a.Below c) (second : b.Below d) : (a.and b).Below (c.and d) := by
  have opposite := (first.not.or second.not).not
  rwa [← not_and, not_not, ← not_and, not_not] at opposite

theorem Below.implies (first : a.Below c) (second : b.Below d) :
    (a.implies b).Below (c.implies d) := first.not.or second

/-- With less known a step leaves the search undecided, or does what it does with more. -/
theorem Below.settle (first : a.Below c) (second : b.Below d) :
    Verdict.settle a b = some unknown ∨ Verdict.settle a b = Verdict.settle c d := by
  rcases second with rfl | rfl
  · exact .inl rfl
  · rcases first with rfl | rfl
    · cases b <;> simp [Verdict.settle]
    · exact .inr rfl

end Verdict

theorem Before.of_le {finish : Option Int} {c d : Int} (room : Before finish d) (upTo : c ≤ d) :
    Before finish c := fun stop isStop => upTo.trans_lt (room stop isStop)

theorem unsettled_of_not_reaches {finish : Option Int} {d : Int} (beyond : ¬ Reaches events d)
    (upTo : ∀ stop ∈ finish, d ≤ stop) : unsettled events finish = .unknown := by
  cases finish with
  | none => rfl
  | some stop =>
    have short : ¬ Reaches events stop := fun reaches => beyond (reaches.mono (upTo stop rfl))
    simp [unsettled, short]

/-- How a search ends that looks at every instant from `start` on. -/
inductive DenseEnds (events : List (Event α)) (left right : Int → Verdict) (finish : Option Int)
    (start : Int) : Verdict → Prop
  | settled {c : Int} {verdict : Verdict} : start ≤ c → Before finish c →
      Verdict.settle (left c) (right c) = some verdict →
      (∀ d, start ≤ d → d < c → Verdict.settle (left d) (right d) = none) →
      DenseEnds events left right finish start verdict
  | exhausted :
      (∀ d, start ≤ d → Before finish d → Verdict.settle (left d) (right d) = none) →
      DenseEnds events left right finish start (unsettled events finish)

section

variable {left right : Int → Verdict} {finish : Option Int} {start : Int}

open Classical in
/-- The outcome of the first step that settles a search over all instants from `start` on. -/
noncomputable def firstSettled (left right : Int → Verdict) (finish : Option Int) (start : Int) :
    Option Verdict :=
  if settles : ∃ n : Nat, Before finish (start + n) ∧
      Verdict.settle (left (start + n)) (right (start + n)) ≠ none then
    Verdict.settle (left (start + Nat.find settles)) (right (start + Nat.find settles))
  else none

/-- A search that looks at every instant, in ascending order. -/
noncomputable def denseSearch (events : List (Event α)) (left right : Int → Verdict)
    (finish : Option Int) (start : Int) : Verdict :=
  (firstSettled left right finish start).getD (unsettled events finish)

theorem denseSearch_ends (events : List (Event α)) (left right : Int → Verdict)
    (finish : Option Int) (start : Int) :
    DenseEnds events left right finish start (denseSearch events left right finish start) := by
  classical
  unfold denseSearch firstSettled
  split
  · rename_i settles
    obtain ⟨room, found⟩ := Nat.find_spec settles
    obtain ⟨verdict, settle⟩ := Option.ne_none_iff_exists'.1 found
    rw [settle]
    refine .settled (by omega) room settle fun d lower upper => ?_
    have earlier := Nat.find_min settles (show (d - start).toNat < Nat.find settles by omega)
    rw [show start + ((d - start).toNat : Int) = d by omega] at earlier
    by_contra nothing
    exact earlier ⟨room.of_le upper.le, nothing⟩
  · rename_i never
    refine .exhausted fun d lower room => ?_
    by_contra nothing
    have position : start + ((d - start).toNat : Int) = d := by omega
    exact never ⟨(d - start).toNat, by rwa [position], by rwa [position]⟩

theorem DenseEnds.unique {a b : Verdict} (first : DenseEnds events left right finish start a)
    (second : DenseEnds events left right finish start b) : a = b := by
  cases first with
  | @settled c _ lower room settle nothing =>
    cases second with
    | @settled d _ lowerD roomD settleD nothingD =>
      rcases lt_trichotomy c d with before | rfl | after
      · rw [nothingD c lower before] at settle
        cases settle
      · exact Option.some.inj (settle.symm.trans settleD)
      · rw [nothing d lowerD after] at settleD
        cases settleD
    | exhausted nothingD =>
      rw [nothingD c lower room] at settle
      cases settle
  | exhausted nothing =>
    cases second with
    | @settled d _ lowerD roomD settleD _ =>
      rw [nothing d lowerD roomD] at settleD
      cases settleD
    | exhausted => rfl

/-- A search that is left undecided only beyond the newest event ends as if nothing settled it. -/
theorem denseEnds_of_undecided (each : ∀ d, start ≤ d → Before finish d →
      Verdict.settle (left d) (right d) = none ∨
        ¬ Reaches events d ∧ Verdict.settle (left d) (right d) = some .unknown) :
    DenseEnds events left right finish start (unsettled events finish) := by
  have ends := denseSearch_ends events left right finish start
  generalize denseSearch events left right finish start = verdict at ends
  have same : verdict = unsettled events finish := by
    cases ends with
    | exhausted => rfl
    | @settled c _ lower room settle _ =>
      rcases each c lower room with nothing | ⟨beyond, undecided⟩
      · rw [nothing] at settle
        cases settle
      · rw [unsettled_of_not_reaches beyond fun stop isStop => (room stop isStop).le]
        exact Option.some.inj (settle.symm.trans undecided)
  rwa [← same]

end

/-- A value that changes with events only. -/
structure Regular (events : List (Event α)) (offsets : List Int) (value : Int → Verdict) :
    Prop where
  constant : ∀ c d, 0 ≤ c → c ≤ d → Reaches events d → Quiet events offsets c d →
    value c = value d
  late : ∀ c d, 0 ≤ c → c ≤ d → ¬ Reaches events d → (value d).Below (value c)

section

variable {offsets inner shifts : List Int} {value left right : Int → Verdict}

theorem Regular.mono {more : List Int} (regular : Regular events offsets value)
    (included : ∀ offset ∈ offsets, offset ∈ more) : Regular events more value :=
  ⟨fun c d lower upTo reaches quiet =>
    regular.constant c d lower upTo reaches (quiet.subset included), regular.late⟩

theorem Regular.always (verdict : Verdict) : Regular events offsets fun _ => verdict :=
  ⟨fun _ _ _ _ _ _ => rfl, fun _ _ _ _ _ => .refl _⟩

/-- The same value at every time, and none known where there is no time. -/
theorem Regular.timed {verdict : Verdict}
    (outside : ∀ c, Time.ofInstant? c = none → value c = .unknown)
    (inside : ∀ time : Time, value time.toInstant = verdict) : Regular events offsets value := by
  constructor
  · intro c d lower upTo reaches quiet
    obtain ⟨time, rfl⟩ := Time.exists_toInstant lower (upTo.trans reaches.le_maxNanos)
    obtain ⟨later, rfl⟩ := Time.exists_toInstant (lower.trans upTo) reaches.le_maxNanos
    rw [inside, inside]
  · intro c d lower upTo beyond
    cases atD : Time.ofInstant? d with
    | none => exact .inl (outside d atD)
    | some later =>
      obtain rfl := Time.toInstant_of_ofInstant? atD
      obtain ⟨time, rfl⟩ := Time.exists_toInstant lower (upTo.trans later.toInstant_le)
      rw [inside, inside]
      exact .refl _

theorem Regular.not (regular : Regular events offsets value) :
    Regular events offsets fun c => (value c).not :=
  ⟨fun c d lower upTo reaches quiet =>
    congrArg Verdict.not (regular.constant c d lower upTo reaches quiet),
    fun c d lower upTo beyond => (regular.late c d lower upTo beyond).not⟩

/-- A connective that never tells less when its operands tell more keeps values regular. -/
theorem Regular.joined {op : Verdict → Verdict → Verdict} (first : Regular events offsets left)
    (second : Regular events offsets right)
    (monotone : ∀ {a b c d : Verdict}, a.Below c → b.Below d → (op a b).Below (op c d)) :
    Regular events offsets fun c => op (left c) (right c) := by
  constructor
  · intro c d lower upTo reaches quiet
    rw [first.constant c d lower upTo reaches quiet, second.constant c d lower upTo reaches quiet]
  · intro c d lower upTo beyond
    exact monotone (first.late c d lower upTo beyond) (second.late c d lower upTo beyond)

section

variable {bound : Option Time} {finish : Option Int} {start c d : Int}
  (first : Regular events inner left) (second : Regular events inner right)

include first second

/-- Where a step settles nothing, none does until an event is met, unless the trace ends. -/
theorem settle_of_quiet (lower : 0 ≤ c) (upTo : c ≤ d) (quiet : Quiet events inner c d)
    (nothing : Verdict.settle (left c) (right c) = none) :
    Verdict.settle (left d) (right d) = none ∨
      ¬ Reaches events d ∧ Verdict.settle (left d) (right d) = some .unknown := by
  by_cases reaches : Reaches events d
  · left
    rwa [← first.constant c d lower upTo reaches quiet,
      ← second.constant c d lower upTo reaches quiet]
  · rcases (first.late c d lower upTo reaches).settle (second.late c d lower upTo reaches) with
      undecided | same
    · exact .inr ⟨reaches, undecided⟩
    · exact .inl (same.trans nothing)

theorem SearchEnds.dense (ordered : Ordered events) (whole : Gapless inner)
    (atShifts : ∀ shift, shift ∈ shifts ↔ shift = 0 ∨ shift ∈ inner) (lower : 0 ≤ start)
    {verdict : Verdict} (ends : SearchEnds events shifts left right finish start verdict) :
    DenseEnds events left right finish start verdict := by
  have gapless := whole.addZero atShifts
  have included := fun offset member => (atShifts offset).2 (.inr member)
  cases ends with
  | @settled c _ from_start room looked settle overlooked =>
    refine .settled from_start room settle fun d later before => ?_
    obtain ⟨seen, after, upTo, nothing, quiet⟩ := overlooked d later before
    -- The search got past `d` only because an event is met later, so the trace reaches `d`.
    have meets := looked.resolve_left (by omega)
    rcases overlooked_covered gapless meets ordered before upTo quiet with rfl | reaches
    · exact nothing
    · rw [← first.constant seen d (by omega) upTo reaches (quiet.subset included),
        ← second.constant seen d (by omega) upTo reaches (quiet.subset included)]
      exact nothing
  | exhausted overlooked =>
    refine denseEnds_of_undecided fun d later room => ?_
    obtain ⟨seen, after, upTo, nothing, quiet⟩ := overlooked d later room
    exact settle_of_quiet first second (by omega) upTo (quiet.subset included) nothing

/-- The searches ahead from two instants that no event separates end alike. -/
theorem DenseEnds.forward (anchor : 0 ∈ inner) (lower : 0 ≤ c) (upTo : c ≤ d)
    (reaches : Reaches events d) (quiet : Quiet events (widen inner (futureEnds bound)) c d)
    {verdict : Verdict} (ends : DenseEnds events left right (windowEnd bound c) c verdict) :
    DenseEnds events left right (windowEnd bound d) d verdict := by
  cases ends with
  | @settled x _ from_start room settle nothing =>
    have wider (y : Int) (early : y - d ≤ x - c) : Before (windowEnd bound d) y := by
      rintro _ isStop
      obtain ⟨length, isLength, rfl⟩ := Option.mem_map.1 isStop
      have := room _ (Option.mem_map_of_mem _ isLength)
      omega
    by_cases passed : d ≤ x
    · exact .settled passed (wider x (by omega)) settle fun y later before =>
        nothing y (by omega) before
    · have spread : Quiet events inner x d :=
        (quiet.shift (zero_mem_futureEnds bound)).within (by omega) (by omega)
      refine .settled le_rfl (wider d (by omega)) ?_ fun y later before => absurd later (by omega)
      rwa [← first.constant x d (by omega) (by omega) reaches spread,
        ← second.constant x d (by omega) (by omega) reaches spread]
  | exhausted nothing =>
    cases bound with
    | none => exact .exhausted fun y later room => nothing y (by omega) room
    | some length =>
      have same : unsettled events (windowEnd (some length) c) =
          unsettled events (windowEnd (some length) d) := by
        have reach :
            Reaches events (c + length.toInstant) ↔ Reaches events (d + length.toInstant) :=
          ⟨fun reach => reach.of_quiet anchor quiet, fun reach => reach.mono (by omega)⟩
        simp only [unsettled, windowEnd, Option.map_some, reach]
      have inside (y : Int) (before : y < c + length.toInstant) :
          Before (windowEnd (some length) c) y := by
        rintro _ isStop
        cases isStop
        exact before
      rw [same]
      refine denseEnds_of_undecided fun y later room => ?_
      have before : y < d + length.toInstant := room _ rfl
      by_cases early : y < c + length.toInstant
      · exact .inl (nothing y (by omega) (inside y early))
      · -- The last instant of the first window is looked at, and nothing is met up to `y`.
        have atEnd : length.toInstant - 1 ∈ futureEnds (some length) := by simp [futureEnds]
        have rest : Quiet events inner (c + length.toInstant - 1) y :=
          (quiet.shift atEnd).within (by omega) (by omega)
        exact settle_of_quiet first second (by omega) (by omega) rest
          (nothing _ (by omega) (inside _ (by omega)))

/-- Beyond the newest event a search that is decided is so from every instant before, at once. -/
theorem DenseEnds.backward (lower : 0 ≤ c) (upTo : c ≤ d) (beyond : ¬ Reaches events d)
    {verdict : Verdict} (decided : verdict ≠ .unknown)
    (ends : DenseEnds events left right (windowEnd bound d) d verdict) :
    DenseEnds events left right (windowEnd bound c) c verdict := by
  cases ends with
  | @settled x _ from_start room settle nothing =>
    have unreached : ¬ Reaches events x := fun reaches => beyond (reaches.mono from_start)
    have steps := (first.late c x lower (by omega) unreached).settle
      (second.late c x lower (by omega) unreached)
    refine .settled le_rfl ?_ ?_ fun y later before => absurd later (by omega)
    · rintro _ isStop
      obtain ⟨length, isLength, rfl⟩ := Option.mem_map.1 isStop
      have := room _ (Option.mem_map_of_mem _ isLength)
      omega
    · rcases steps with undecided | same
      · exact absurd (Option.some.inj (settle.symm.trans undecided)) decided
      · exact same.symm.trans settle
  | exhausted nothing =>
    refine absurd (unsettled_of_not_reaches beyond fun stop isStop => ?_) decided
    obtain ⟨length, _, rfl⟩ := Option.mem_map.1 isStop
    have := length.toInstant_nonneg
    omega

theorem Regular.until (anchor : 0 ∈ inner)
    (outside : ∀ c, Time.ofInstant? c = none → value c = .unknown)
    (ends : ∀ time : Time, DenseEnds events left right (windowEnd bound time.toInstant)
      time.toInstant (value time.toInstant)) :
    Regular events (widen inner (futureEnds bound)) value := by
  constructor
  · intro c d lower upTo reaches quiet
    obtain ⟨time, rfl⟩ := Time.exists_toInstant lower (upTo.trans reaches.le_maxNanos)
    obtain ⟨later, rfl⟩ := Time.exists_toInstant (lower.trans upTo) reaches.le_maxNanos
    have moved := (ends time).forward first second anchor lower upTo reaches quiet
    exact moved.unique (ends later)
  · intro c d lower upTo beyond
    cases atD : Time.ofInstant? d with
    | none => exact .inl (outside d atD)
    | some later =>
      obtain rfl := Time.toInstant_of_ofInstant? atD
      obtain ⟨time, rfl⟩ := Time.exists_toInstant lower (upTo.trans later.toInstant_le)
      by_cases undecided : value later.toInstant = .unknown
      · exact .inl undecided
      · have moved := (ends later).backward first second lower upTo beyond undecided
        exact .inr (moved.unique (ends time))

end

end

mutual

/-- Some atom occurs in the formula. -/
def Formula.HasAtom : Formula α → Prop
  | .top | .bot => False
  | .atom _ => True
  | .neg f => f.HasAtom
  | .disj l r | .conj l r | .imp l r => l.HasAtom ∨ r.HasAtom
  | .untl _ l r | .snce _ l r => l.HasAtom ∨ r.HasAtom
  | .eventually _ f | .always _ f | .once _ f | .historically _ f => f.HasAtom
  | .less l r => l.HasAtom ∨ r.HasAtom

def Term.HasAtom : Term α → Prop
  | .constant _ => False
  | .duration _ f => f.HasAtom
  | .sum l r => l.HasAtom ∨ r.HasAtom

end

mutual

/-- Every temporal operator has an atom below it. -/
def Formula.Anchored : Formula α → Prop
  | .top | .bot | .atom _ => True
  | .neg f => f.Anchored
  | .disj l r | .conj l r | .imp l r => l.Anchored ∧ r.Anchored
  | .untl _ l r | .snce _ l r => (l.HasAtom ∨ r.HasAtom) ∧ l.Anchored ∧ r.Anchored
  | .eventually _ f | .always _ f | .once _ f | .historically _ f => f.HasAtom ∧ f.Anchored
  | .less l r => l.Anchored ∧ r.Anchored

def Term.Anchored : Term α → Prop
  | .constant _ => True
  | .duration _ f => f.HasAtom ∧ f.Anchored
  | .sum l r => l.Anchored ∧ r.Anchored

end

theorem zero_mem_widen {inner : List Int} (anchor : 0 ∈ inner) (bound : Option Time) :
    0 ∈ widen inner (futureEnds bound) :=
  mem_widen.2 ⟨0, anchor, 0, zero_mem_futureEnds bound, rfl⟩

theorem Formula.PlainFuture.zero_mem_offsets {f : Formula α} (plain : f.PlainFuture)
    (some : f.HasAtom) : 0 ∈ f.offsets := by
  induction plain with
  | top => cases some
  | bot => cases some
  | atom data => simp [Formula.offsets]
  | neg _ ih => exact ih some
  | disj _ _ left right => exact mem_union.2 (some.imp left right)
  | conj _ _ left right => exact mem_union.2 (some.imp left right)
  | imp _ _ left right => exact mem_union.2 (some.imp left right)
  | untl bound _ _ left right => exact zero_mem_widen (mem_union.2 (some.imp left right)) bound
  | eventually bound _ ih =>
    rw [offsets_eventually]
    exact zero_mem_widen (ih some) bound
  | always bound _ ih =>
    rw [offsets_always]
    exact zero_mem_widen (ih some) bound

end TimedTrace
