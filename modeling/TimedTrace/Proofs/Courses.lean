import TimedTrace.Proofs.Placement

namespace TimedTrace

variable {α β γ : Type}

/-- The fields of a cursor. All but the last are those of its reader. -/
structure Fields where
  window : Window
  index : Nat
  /-- There is none once the watched slot is known to have been replaced. -/
  stamp : Option Nat
  time : Time
  synchronized : Bool
  position : Nat
  deriving DecidableEq, Repr

namespace Cursor

/-- The fields of a cursor whose reader watches what it has looked at last. -/
def fields (cursor : Cursor) : Fields where
  window := cursor.reader.window
  index :=
    match cursor.reader.probe with
    | some probe => probe.index
    | none => 0
  stamp := cursor.reader.probe.map (·.stamp)
  time := cursor.reader.time
  synchronized := cursor.reader.probe.isSome
  position := cursor.position

/-- What the reader has answered, and the cursor with the reader that it has left. -/
def having (cursor : Cursor) (act : Except ReaderError β × Reader) :
    Except ReaderError β × Cursor :=
  (act.1, { cursor with reader := act.2 })

section

variable {cursor : Cursor} {probe : Probe}

theorem fields_watching (isProbe : cursor.reader.probe = some probe) : cursor.fields =
    ⟨cursor.reader.window, probe.index, some probe.stamp, probe.time, true, cursor.position⟩ := by
  unfold fields Reader.time
  rw [isProbe]
  rfl

theorem fields_fresh (none : cursor.reader.probe = none) : cursor.fields =
    ⟨cursor.reader.window, 0, .none, .zero, false, cursor.position⟩ := by
  unfold fields Reader.time
  rw [none]
  rfl

end

theorem fields_injective {cursor other : Cursor} (same : cursor.fields = other.fields) :
    cursor = other := by
  obtain ⟨⟨window, probe?⟩, position⟩ := cursor
  obtain ⟨⟨otherWindow, otherProbe?⟩, otherPosition⟩ := other
  cases probe? with
  | none =>
    cases otherProbe? with
    | none =>
      cases same
      rfl
    | some other => cases congrArg Fields.stamp same
  | some probe =>
    cases otherProbe? with
    | none => cases congrArg Fields.stamp same
    | some other =>
      obtain ⟨index, stamp, time⟩ := probe
      obtain ⟨otherIndex, otherStamp, otherTime⟩ := other
      cases same
      rfl

end Cursor

namespace Fields

/-- Whether the window has a position. -/
def Has (own : Fields) (ring : Ring α) (position : Nat) : Prop :=
  Cursor.Valid ⟨own.window, none⟩ ring position

instance (own : Fields) (ring : Ring α) (position : Nat) : Decidable (own.Has ring position) :=
  inferInstanceAs (Decidable (Cursor.Valid _ _ _))

end Fields

namespace Reader

theorem watch_eq_look (ring : Ring α) (index : Nat) :
    watch ring index =
      match ring.look index with
      | .error cause => .error (.read cause)
      | .ok slot => .ok ⟨index, slot.stamp, slot.time⟩ := by
  unfold watch Slot.time
  cases ring.look index with
  | error cause => rfl
  | ok slot =>
    dsimp only
    cases slot.event with
    | none => rfl
    | some event => rfl

/-- A slot that has not changed since it was watched can be looked at, and has its old stamp. -/
theorem look_of_kept {reader : Reader} {ring : Ring α} {probe : Probe}
    (kept : reader.lost probe ring = false) :
    ∃ slot, ring.look probe.index = .ok slot ∧ slot.stamp = probe.stamp := by
  have same := (lost_eq_false_iff.1 kept).2
  unfold changed at same
  split at same
  · cases same
  · rename_i slot looked
    refine ⟨slot, looked, ?_⟩
    have stamps := (Bool.or_eq_false_iff.1 same).1
    exact of_not_not (of_decide_eq_false stamps)

end Reader

/-- What a call does, up to its answer: the looks that it takes and the fields that it sets, one
after the other. Others may change the ring between one look and the next. -/
inductive Course (α β : Type) where
  | answer (result : β)
  | refuse (cause : ReaderError)
  /-- It sees the ring as it is now. -/
  | look (next : Ring α → Course α β)
  | consult (next : Fields → Course α β)
  | set (change : Fields → Fields) (next : Course α β)

namespace Course

/-- One course after another, with the answer of the first. A refusal ends both. -/
def bind : Course α β → (β → Course α γ) → Course α γ
  | answer result, following => following result
  | refuse cause, _ => refuse cause
  | look next, following => look fun ring => (next ring).bind following
  | consult next, following => consult fun fields => (next fields).bind following
  | set change next, following => set change (next.bind following)

instance : Monad (Course α) where
  pure := answer
  bind := bind

/-- What comes of a course that sees these rings, one at each look. -/
def run : Course α β → (Nat → Ring α) → Fields → Except ReaderError β × Fields
  | answer result, _, fields => (.ok result, fields)
  | refuse cause, _, fields => (.error cause, fields)
  | look next, views, fields => (next (views 0)).run (fun count => views (count + 1)) fields
  | consult next, views, fields => (next fields).run views fields
  | set change next, views, fields => next.run views (change fields)

/-- On a ring that stands still, the second course goes on where the first has ended. -/
theorem run_bind (course : Course α β) (following : β → Course α γ) (ring : Ring α)
    (fields : Fields) :
    (course >>= following).run (fun _ => ring) fields =
      match course.run (fun _ => ring) fields with
      | (.ok result, fields) => (following result).run (fun _ => ring) fields
      | (.error cause, fields) => (.error cause, fields) := by
  induction course generalizing fields with
  | answer result => rfl
  | refuse cause => rfl
  | look next ih => exact ih ring fields
  | consult next ih => exact ih fields fields
  | set change next ih => exact ih (change fields)

/-- The ring as it is now. -/
def now : Course α (Ring α) := look answer

def fields : Course α Fields := consult answer

def alter (change : Fields → Fields) : Course α Unit := set change (answer ())

/-- The slot at an index, settled now. -/
def slot (index : Nat) : Course α (Slot α) :=
  look fun ring =>
    match ring.look index with
    | .ok slot => answer slot
    | .error cause => refuse (.read cause)

/-- The slot at an index, if it is settled now. -/
def slot? (index : Nat) : Course α (Option (Slot α)) :=
  look fun ring => answer (ring.look index).toOption

/-- Starts to watch a slot that it has looked at. -/
def watch (index : Nat) (stamp : Option Nat) (slot : Slot α) : Course α Unit := do
  alter fun own => { own with index, stamp }
  alter fun own => { own with time := slot.time }

/-- Whether unread events were lost, going by the window that the ring has just shown. -/
def lost (shown : Ring α) : Course α Bool := do
  let own ← fields
  if shown.within shown.window own.window.bottom then
    match own.stamp, ← slot? own.index with
    | some stamp, some slot =>
      return slot.stamp ≠ stamp ||
        match slot.event with
        | some event => own.time < event.time
        | none => false
    | _, _ => return true
  else return true

def gap : Course α Bool := do
  let own ← fields
  if own.synchronized then lost (← now) else return true

/-- Takes over the window that the ring has just shown. -/
def adopt (shown : Ring α) : Course α Unit := do
  let window := shown.window
  let index := if window.bottom = window.top then shown.prev window.bottom else window.bottom
  let first ← slot index
  watch index (some first.stamp) first
  alter fun own => { own with window }

def jump : Course α Synchronization := do
  adopt (← now)
  return .hard

def synchronize : Course α Synchronization := do
  let shown ← now
  let own ← fields
  if own.synchronized then
    if ← lost shown then jump
    else
      let bottom := own.window.bottom
      if own.index ≠ bottom ∧ shown.window.top ≠ bottom then
        let next ← slot bottom
        let again ← slot own.index
        if some again.stamp = own.stamp then
          watch bottom (some next.stamp) next
          alter fun own => { own with window.top := shown.window.top }
          return .soft
        else jump
      else
        alter fun own => { own with window.top := shown.window.top }
        return .soft
  else
    adopt shown
    alter fun own => { own with synchronized := true }
    return .init

/-- Goes on only if there is something unread and nothing of it was lost. -/
def ready : Course α Unit := do
  let own ← fields
  if own.window.bottom = own.window.top then refuse .unavailable
  else if ← gap then refuse .overflow
  else return ()

def pull : Course α (Event α) := do
  ready
  let own ← fields
  let oldest ← slot own.window.bottom
  match oldest.event with
  | none => refuse .overflow
  | some event =>
    if some oldest.stamp = own.stamp ∧ event.time = own.time then
      let next := (← now).next own.window.bottom
      if next = own.window.top then
        alter fun own => { own with window.bottom := next }
        return event
      else
        let following ← slot next
        let again ← slot own.window.bottom
        -- If the next slot was replaced already, so was the one that is consumed.
        watch next (if again.stamp = oldest.stamp then some following.stamp else none) following
        alter fun own => { own with window.bottom := next }
        return event
    else refuse .overflow

def pop : Course α (Event α) := do
  ready
  let own ← fields
  let index := (← now).prev own.window.top
  let newest ← slot index
  match newest.event with
  | none => refuse (.read .empty)
  | some event =>
    alter fun own => { own with window.top := index }
    return event

/-- Sees to it that the position is one of the window. -/
def clamp : Course α Unit := do
  let shown ← now
  alter fun own =>
    if own.Has shown own.position then own else { own with position := own.window.bottom }

/-- What a cursor does when its reader has acted. -/
def clamped (course : Course α β) : Course α β := do
  let result ← course
  clamp
  return result

def moveTo (position : Nat) : Course α Unit := do
  let shown ← now
  let own ← fields
  if own.Has shown position then alter fun own => { own with position }
  else refuse .unavailable

def increment : Course α Unit := do
  let shown ← now
  let own ← fields
  let length := shown.distance own.window.bottom own.window.top
  let consumed := shown.distance own.window.bottom own.position
  if length - consumed < 2 then refuse .unavailable
  else alter fun own => { own with position := shown.next own.position }

def decrement : Course α Unit := do
  let shown ← now
  let own ← fields
  if own.position = own.window.bottom then refuse .unavailable
  else alter fun own => { own with position := shown.prev own.position }

/-- Seen on a ring that stands still, the course takes the cursor where the call takes it in one
step. -/
def ComesTo (course : Course α β) (ring : Ring α) (cursor : Cursor)
    (called : Except ReaderError β × Cursor) : Prop :=
  course.run (fun _ => ring) cursor.fields = (called.1, called.2.fields)

section

variable {cursor : Cursor} {ring : Ring α} {probe : Probe}

theorem run_slot (index : Nat) (own : Fields) :
    (slot index).run (fun _ => ring) own =
      match ring.look index with
      | .ok slot => (.ok slot, own)
      | .error cause => (.error (.read cause), own) := by
  unfold slot
  rw [run]
  split
  · rfl
  · rfl

theorem run_lost (ring : Ring α) (isProbe : cursor.reader.probe = some probe) :
    (lost ring).run (fun _ => ring) cursor.fields =
      (.ok (cursor.reader.lost probe ring), cursor.fields) := by
  rw [Cursor.fields_watching isProbe]
  unfold lost Reader.lost Reader.changed
  simp only [run_bind, fields, run]
  split
  · rename_i within
    simp only [run_bind, slot?, run, within]
    cases ring.look probe.index with
    | error cause => rfl
    | ok slot => rfl
  · rename_i outside
    simp only [outside]
    rfl

theorem run_gap (cursor : Cursor) (ring : Ring α) :
    gap.run (fun _ => ring) cursor.fields = (.ok (cursor.reader.gap ring), cursor.fields) := by
  unfold gap Reader.gap
  simp only [run_bind, fields, run]
  cases isProbe : cursor.reader.probe with
  | none =>
    rw [Cursor.fields_fresh isProbe]
    rfl
  | some probe =>
    have loses := run_lost ring isProbe
    rw [Cursor.fields_watching isProbe] at loses ⊢
    simp only [if_true, run_bind, now, run, loses]

theorem run_ready (cursor : Cursor) (ring : Ring α) :
    ready.run (fun _ => ring) cursor.fields =
      if cursor.reader.isEmpty then (.error .unavailable, cursor.fields)
      else if cursor.reader.gap ring then (.error .overflow, cursor.fields)
      else (.ok (), cursor.fields) := by
  have empty : cursor.reader.isEmpty = true ↔
      cursor.fields.window.bottom = cursor.fields.window.top := decide_eq_true_iff
  unfold ready
  simp only [run_bind, fields, run, empty]
  split
  · rfl
  · simp only [run_bind, run_gap]
    split
    · rfl
    · rfl

/-- Taking over a window succeeds or fails as it does for the reader. -/
theorem run_adopt (own : Fields) (reader : Reader) (ring : Ring α) (status : Synchronization) :
    (∃ cause, (adopt ring).run (fun _ => ring) own = (.error cause, own) ∧
      reader.adopt ring status = (.error cause, reader)) ∨
    ∃ probe, (adopt ring).run (fun _ => ring) own =
        (.ok (), ⟨ring.window, probe.index, some probe.stamp, probe.time, own.synchronized,
          own.position⟩) ∧
      reader.adopt ring status = (.ok status, ⟨ring.window, some probe⟩) := by
  unfold adopt Reader.adopt
  simp only [run_bind, run_slot, Reader.watch_eq_look]
  cases ring.look _ with
  | error cause => exact .inl ⟨_, rfl, rfl⟩
  | ok slot => exact .inr ⟨_, rfl, rfl⟩

theorem jump_comesTo (ring : Ring α) (isProbe : cursor.reader.probe = some probe) :
    jump.ComesTo ring cursor (cursor.having (cursor.reader.adopt ring .hard)) := by
  unfold ComesTo jump Cursor.having
  rw [Cursor.fields_watching isProbe]
  simp only [run_bind, now, run]
  rcases run_adopt ⟨cursor.reader.window, probe.index, some probe.stamp, probe.time, true,
    cursor.position⟩ cursor.reader ring .hard with ⟨cause, course, adopts⟩ | ⟨next, course, adopts⟩
  · rw [course, adopts]
    exact congrArg _ (Cursor.fields_watching isProbe).symm
  · rw [course, adopts]
    rfl

theorem synchronize_comesTo (cursor : Cursor) (ring : Ring α) :
    synchronize.ComesTo ring cursor (cursor.having (cursor.reader.synchronize ring)) := by
  unfold ComesTo synchronize Cursor.having Reader.synchronize
  simp only [run_bind, now, fields, run]
  cases isProbe : cursor.reader.probe with
  | none =>
    rw [Cursor.fields_fresh isProbe]
    simp only [Bool.false_eq_true, if_false, run_bind]
    rcases run_adopt ⟨cursor.reader.window, 0, none, .zero, false, cursor.position⟩ cursor.reader
      ring .init with ⟨cause, course, adopts⟩ | ⟨next, course, adopts⟩
    · rw [course, adopts]
      exact congrArg _ (Cursor.fields_fresh isProbe).symm
    · rw [course, adopts]
      rfl
  | some probe =>
    have loses := run_lost ring isProbe
    have jumps := jump_comesTo ring isProbe
    unfold ComesTo at jumps
    rw [Cursor.fields_watching isProbe] at loses jumps ⊢
    simp only [if_true, run_bind, loses]
    split
    · exact jumps
    · rename_i kept
      split
      · -- The watched slot has not changed, so the second look at it finds the same stamp.
        obtain ⟨slot, looked, same⟩ := Reader.look_of_kept (Bool.eq_false_iff.2 kept)
        simp only [run_bind, run_slot, Reader.watch_eq_look, looked, same]
        cases ring.look cursor.reader.window.bottom with
        | error cause => exact congrArg _ (Cursor.fields_watching isProbe).symm
        | ok next => rfl
      · rfl

theorem pull_comesTo (cursor : Cursor) (ring : Ring α) :
    pull.ComesTo ring cursor (cursor.having (cursor.reader.pull ring)) := by
  unfold ComesTo pull Cursor.having Reader.pull
  simp only [run_bind, run_ready]
  cases cursor.reader.isEmpty with
  | true => rfl
  | false =>
    cases isProbe : cursor.reader.probe with
    | none =>
      have gap : cursor.reader.gap ring = true := by rw [Reader.gap, isProbe]
      rw [gap]
      rfl
    | some probe =>
      have gap : cursor.reader.gap ring = cursor.reader.lost probe ring := by
        rw [Reader.gap, isProbe]
      have own := Cursor.fields_watching isProbe
      rw [gap, own]
      dsimp only
      cases cursor.reader.lost probe ring with
      | true => exact congrArg _ own.symm
      | false =>
        simp only [Bool.false_eq_true, if_false, now, fields, run, run_slot, Reader.watch_eq_look]
        cases looked : ring.look cursor.reader.window.bottom with
        | error cause => exact congrArg _ own.symm
        | ok oldest =>
          obtain ⟨stamp, event?⟩ := oldest
          cases event? with
          | none => exact congrArg _ own.symm
          | some event =>
            simp only [Option.some.injEq]
            split
            · simp only [run_bind, run]
              split
              · rfl
              · simp only [run_bind, run_slot, looked]
                cases ring.look (ring.next cursor.reader.window.bottom) with
                | error cause => exact congrArg _ own.symm
                | ok following => rfl
            · exact congrArg _ own.symm

theorem pop_comesTo (cursor : Cursor) (ring : Ring α) :
    pop.ComesTo ring cursor (cursor.having (cursor.reader.pop ring)) := by
  have window : cursor.fields.window = cursor.reader.window := rfl
  unfold ComesTo pop Cursor.having Reader.pop Ring.read
  simp only [run_bind, run_ready]
  cases cursor.reader.isEmpty with
  | true => rfl
  | false =>
    cases cursor.reader.gap ring with
    | true => rfl
    | false =>
      simp only [Bool.false_eq_true, if_false, now, fields, run, run_slot, window]
      cases ring.look (ring.prev cursor.reader.window.top) with
      | error cause => rfl
      | ok newest =>
        obtain ⟨stamp, event?⟩ := newest
        cases event? with
        | none => rfl
        | some event => rfl

/-- A cursor follows its reader if that has not failed. -/
theorem ComesTo.clamped {course : Course α β} {act : Except ReaderError β × Reader}
    (comes : course.ComesTo ring cursor (cursor.having act)) :
    (clamped course).ComesTo ring cursor (cursor.through ring act) := by
  obtain ⟨result, reader⟩ := act
  unfold ComesTo Course.clamped clamp Cursor.through Cursor.follow
  rw [run_bind, comes]
  unfold Cursor.having
  cases result with
  | error cause => rfl
  | ok result =>
    dsimp only
    by_cases valid : Cursor.Valid reader ring cursor.position
    · rw [if_pos valid]
      exact congrArg (Prod.mk _) (if_pos valid)
    · rw [if_neg valid]
      exact congrArg (Prod.mk _) (if_neg valid)

theorem moveTo_comesTo (cursor : Cursor) (ring : Ring α) (position : Nat) :
    (moveTo position).ComesTo ring cursor (cursor.moveTo ring position) := by
  have has : cursor.fields.Has ring position ↔ Cursor.Valid cursor.reader ring position := .rfl
  unfold ComesTo moveTo Cursor.moveTo
  simp only [run_bind, now, fields, run, has]
  split
  · rfl
  · rfl

theorem increment_comesTo (stands : cursor.Stands ring) :
    increment.ComesTo ring cursor (cursor.increment ring) := by
  have few_iff : ring.distance cursor.fields.window.bottom cursor.fields.window.top -
      ring.distance cursor.fields.window.bottom cursor.fields.position < 2 ↔
        cursor.length ring < 2 := .rfl
  unfold ComesTo increment
  rw [stands.increment_eq]
  simp only [run_bind, now, fields, run, few_iff]
  split
  · rfl
  · rfl

theorem decrement_comesTo (stands : cursor.Stands ring) :
    decrement.ComesTo ring cursor (cursor.decrement ring) := by
  have first_iff : cursor.fields.position = cursor.fields.window.bottom ↔
      cursor.position = cursor.reader.window.bottom := .rfl
  unfold ComesTo decrement
  rw [stands.decrement_eq]
  simp only [run_bind, now, fields, run, first_iff]
  split
  · rfl
  · rfl

end

end Course

/-- A call of a reader, by what it answers. -/
inductive ReaderCall (α : Type) : Type → Type where
  | synchronize : ReaderCall α Synchronization
  | pull : ReaderCall α (Event α)
  | pop : ReaderCall α (Event α)

/-- A call of a cursor that tells whether it was refused, by what it answers. A search is none of
them: one that fails may have moved the cursor. -/
inductive CursorCall (α : Type) : Type → Type where
  | synchronize : CursorCall α Synchronization
  | pull : CursorCall α (Event α)
  | pop : CursorCall α (Event α)
  | moveTo (position : Nat) : CursorCall α Unit
  | increment : CursorCall α Unit
  | decrement : CursorCall α Unit

namespace ReaderCall

def course : ReaderCall α β → Course α β
  | synchronize => .synchronize
  | pull => .pull
  | pop => .pop

/-- The call in one step. -/
def perform (reader : Reader) (ring : Ring α) : ReaderCall α β → Except ReaderError β × Reader
  | synchronize => reader.synchronize ring
  | pull => reader.pull ring
  | pop => reader.pop ring

theorem course_comesTo (call : ReaderCall α β) (cursor : Cursor) (ring : Ring α) :
    call.course.ComesTo ring cursor (cursor.having (call.perform cursor.reader ring)) := by
  cases call with
  | synchronize => exact Course.synchronize_comesTo cursor ring
  | pull => exact Course.pull_comesTo cursor ring
  | pop => exact Course.pop_comesTo cursor ring

end ReaderCall

namespace CursorCall

def course : CursorCall α β → Course α β
  | synchronize => .clamped .synchronize
  | pull => .clamped .pull
  | pop => .clamped .pop
  | moveTo position => .moveTo position
  | increment => .increment
  | decrement => .decrement

/-- The call in one step. -/
def perform (cursor : Cursor) (ring : Ring α) : CursorCall α β → Except ReaderError β × Cursor
  | synchronize => cursor.synchronize ring
  | pull => cursor.pull ring
  | pop => cursor.pop ring
  | moveTo position => cursor.moveTo ring position
  | increment => cursor.increment ring
  | decrement => cursor.decrement ring

theorem course_comesTo (call : CursorCall α β) {cursor : Cursor} {ring : Ring α}
    (stands : cursor.Stands ring) : call.course.ComesTo ring cursor (call.perform cursor ring) := by
  cases call with
  | synchronize => exact (Course.synchronize_comesTo cursor ring).clamped
  | pull => exact (Course.pull_comesTo cursor ring).clamped
  | pop => exact (Course.pop_comesTo cursor ring).clamped
  | moveTo position => exact Course.moveTo_comesTo cursor ring position
  | increment => exact Course.increment_comesTo stands
  | decrement => exact Course.decrement_comesTo stands

end CursorCall

end TimedTrace
