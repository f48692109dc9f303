import TimedTrace.Formula

namespace TimedTrace

/-- Puts an integer in front of a list, unless it stands there already. -/
def consOnce (x : Int) : List Int → List Int
  | [] => [x]
  | y :: rest => if x = y then y :: rest else x :: y :: rest

/-- Two ascending lists in one, with what is in both only once. -/
def union (left right : List Int) : List Int := (left.merge right (· ≤ ·)).foldr consOnce []

/-- Every offset moved by every shift. -/
def widen (offsets shifts : List Int) : List Int :=
  shifts.foldr (fun shift others => union (offsets.map (· + shift)) others) []

/-- The ends of the window `[0, b)`. -/
def futureEnds : Option Time → List Int
  | some length => [0, length.toInstant - 1]
  | none => [0]

/-- The ends of the window `(-b, 0)`. -/
def pastEnds : Option Time → List Int
  | some length => [-1, 1 - length.toInstant]
  | none => [-1]

/-- The ends of the window of an operator that looks ahead. -/
def Bound.ahead : Bound → List Int
  | .within length => futureEnds (some length)
  | .exactly distance => [distance.toInstant]
  | .unbounded => futureEnds none

/-- The ends of the window of an operator that looks back. -/
def Bound.behind : Bound → List Int
  | .within length => pastEnds (some length)
  | .exactly distance => [-distance.toInstant]
  | .unbounded => pastEnds none

variable {α : Type}
mutual

/-- The value of a formula at an instant can only change where one of these offsets leads from there
to the time of an event. They ascend, each comes once, so that nested operators with equal windows
do not pile them up. -/
def Formula.offsets : Formula α → List Int
  | .top | .bot => []
  | .atom _ => [0]
  | .neg f => f.offsets
  | .disj l r | .conj l r | .imp l r => union l.offsets r.offsets
  | .untl bound l r => widen (union l.offsets r.offsets) (futureEnds bound)
  | .snce bound l r => widen (union l.offsets r.offsets) (pastEnds bound)
  | .eventually bound f | .always bound f => widen f.offsets bound.ahead
  | .once bound f | .historically bound f => widen f.offsets bound.behind
  | .less l r => union l.offsets r.offsets

def Term.offsets : Term α → List Int
  | .constant _ => []
  | .duration length f => widen f.offsets [0, length.toInstant]
  | .sum l r => union l.offsets r.offsets

end

theorem mem_consOnce {x y : Int} {rest : List Int} : y ∈ consOnce x rest ↔ y = x ∨ y ∈ rest := by
  cases rest with
  | nil => simp [consOnce]
  | cons z rest =>
    rw [consOnce]
    split
    · subst z; simp
    · simp

theorem mem_foldr_consOnce {x : Int} {offsets : List Int} :
    x ∈ offsets.foldr consOnce [] ↔ x ∈ offsets := by
  induction offsets with
  | nil => simp
  | cons y rest ih => rw [List.foldr_cons, mem_consOnce, ih, List.mem_cons]

theorem mem_union {x : Int} {left right : List Int} :
    x ∈ union left right ↔ x ∈ left ∨ x ∈ right := by
  rw [union, mem_foldr_consOnce, List.mem_merge]

theorem mem_widen {offset : Int} {offsets shifts : List Int} :
    offset ∈ widen offsets shifts ↔ ∃ x ∈ offsets, ∃ shift ∈ shifts, offset = x + shift := by
  induction shifts with
  | nil => simp [widen]
  | cons shift shifts ih =>
    have unfolded : widen offsets (shift :: shifts) =
      union (offsets.map (· + shift)) (widen offsets shifts) := rfl
    rw [unfolded, mem_union, ih, List.mem_map]
    constructor
    · rintro (⟨x, atX, rfl⟩ | ⟨x, atX, other, member, rfl⟩)
      · exact ⟨x, atX, shift, List.mem_cons_self, rfl⟩
      · exact ⟨x, atX, other, List.mem_cons_of_mem _ member, rfl⟩
    · rintro ⟨x, atX, other, member, rfl⟩
      rcases List.mem_cons.1 member with rfl | later
      · exact .inl ⟨x, atX, rfl⟩
      · exact .inr ⟨x, atX, other, later, rfl⟩

/-- Collapsing equal neighbours makes an order strict. -/
theorem pairwise_foldr_consOnce {offsets : List Int} (ordered : offsets.Pairwise (· ≤ ·)) :
    (offsets.foldr consOnce []).Pairwise (· < ·) := by
  induction offsets with
  | nil => simp
  | cons x rest ih =>
    obtain ⟨above, tail⟩ := List.pairwise_cons.1 ordered
    have strict := ih tail
    have least : ∀ y ∈ rest.foldr consOnce [], x ≤ y := fun y member =>
      above y (mem_foldr_consOnce.1 member)
    rw [List.foldr_cons]
    generalize rest.foldr consOnce [] = others at strict least
    cases others with
    | nil => simp [consOnce]
    | cons y others =>
      rw [consOnce]
      split
      · exact strict
      · refine List.pairwise_cons.2 ⟨fun z member => ?_, strict⟩
        have first := least y List.mem_cons_self
        rcases List.mem_cons.1 member with rfl | later
        · omega
        · have := (List.pairwise_cons.1 strict).1 z later
          omega

theorem pairwise_union {left right : List Int} (ordered : left.Pairwise (· < ·))
    (also : right.Pairwise (· < ·)) : (union left right).Pairwise (· < ·) := by
  have weaken {offsets : List Int} (strict : offsets.Pairwise (· < ·)) :
      offsets.Pairwise fun x y => decide (x ≤ y) = true :=
    strict.imp fun less => decide_eq_true (Int.le_of_lt less)
  have trans (x y z : Int) (below : decide (x ≤ y) = true) (above : decide (y ≤ z) = true) :
      decide (x ≤ z) = true :=
    decide_eq_true (Int.le_trans (of_decide_eq_true below) (of_decide_eq_true above))
  have total (x y : Int) : (decide (x ≤ y) || decide (y ≤ x)) = true := by
    simpa using Int.le_total x y
  have merged := List.pairwise_merge trans total left right (weaken ordered) (weaken also)
  exact pairwise_foldr_consOnce (merged.imp of_decide_eq_true)

theorem pairwise_widen {offsets shifts : List Int} (ordered : offsets.Pairwise (· < ·)) :
    (widen offsets shifts).Pairwise (· < ·) := by
  induction shifts with
  | nil => simp [widen]
  | cons shift shifts ih =>
    refine pairwise_union (List.pairwise_map.2 (ordered.imp fun less => ?_)) ih
    omega

mutual

theorem Formula.pairwise_offsets : (f : Formula α) → f.offsets.Pairwise (· < ·)
  | .top | .bot | .atom _ => by simp [Formula.offsets]
  | .neg f => by simpa [Formula.offsets] using f.pairwise_offsets
  | .disj l r | .conj l r | .imp l r => by
    simpa [Formula.offsets] using pairwise_union l.pairwise_offsets r.pairwise_offsets
  | .untl _ l r | .snce _ l r => by
    simpa [Formula.offsets] using
      pairwise_widen (pairwise_union l.pairwise_offsets r.pairwise_offsets)
  | .eventually _ f | .always _ f | .once _ f | .historically _ f => by
    simpa [Formula.offsets] using pairwise_widen f.pairwise_offsets
  | .less l r => by
    simpa [Formula.offsets] using pairwise_union l.pairwise_offsets r.pairwise_offsets

theorem Term.pairwise_offsets : (term : Term α) → term.offsets.Pairwise (· < ·)
  | .constant _ => by simp [Term.offsets]
  | .duration _ f => by simpa [Term.offsets] using pairwise_widen f.pairwise_offsets
  | .sum l r => by
    simpa [Term.offsets] using pairwise_union l.pairwise_offsets r.pairwise_offsets

end

end TimedTrace
