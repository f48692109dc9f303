import TimedTrace.Proofs.Courses

namespace TimedTrace

variable {α β γ : Type}

namespace Course

/-- It cannot be refused. -/
def Sure : Course α β → Prop
  | answer _ => True
  | refuse _ => False
  | look next => ∀ ring, (next ring).Sure
  | consult next => ∀ fields, (next fields).Sure
  | set _ next => next.Sure

/-- It sets no field. -/
def Idle : Course α β → Prop
  | answer _ | refuse _ => True
  | look next => ∀ ring, (next ring).Idle
  | consult next => ∀ fields, (next fields).Idle
  | set _ _ => False

/-- It cannot be refused any more once it has set a field. -/
def Careful : Course α β → Prop
  | answer _ | refuse _ => True
  | look next => ∀ ring, (next ring).Careful
  | consult next => ∀ fields, (next fields).Careful
  | set _ next => next.Sure

section

variable {course : Course α β} {following : β → Course α γ}

theorem Sure.careful (sure : course.Sure) : course.Careful := by
  induction course with
  | answer result => trivial
  | refuse cause => exact sure.elim
  | look next ih => exact fun ring => ih ring (sure ring)
  | consult next ih => exact fun fields => ih fields (sure fields)
  | set change next _ => exact sure

theorem Sure.bind (sure : course.Sure) (also : ∀ result, (following result).Sure) :
    (course.bind following).Sure := by
  induction course with
  | answer result => exact also result
  | refuse cause => exact sure.elim
  | look next ih => exact fun ring => ih ring (sure ring)
  | consult next ih => exact fun fields => ih fields (sure fields)
  | set change next ih => exact ih sure

theorem Idle.bind (idle : course.Idle) (also : ∀ result, (following result).Idle) :
    (course.bind following).Idle := by
  induction course with
  | answer result => exact also result
  | refuse cause => trivial
  | look next ih => exact fun ring => ih ring (idle ring)
  | consult next ih => exact fun fields => ih fields (idle fields)
  | set change next ih => exact idle.elim

/-- Looking around first does no harm. -/
theorem Idle.andThen (idle : course.Idle) (careful : ∀ result, (following result).Careful) :
    (course.bind following).Careful := by
  induction course with
  | answer result => exact careful result
  | refuse cause => trivial
  | look next ih => exact fun ring => ih ring (idle ring)
  | consult next ih => exact fun fields => ih fields (idle fields)
  | set change next ih => exact idle.elim

/-- Nor does anything afterwards that cannot be refused. -/
theorem Careful.bind (careful : course.Careful) (also : ∀ result, (following result).Sure) :
    (course.bind following).Careful := by
  induction course with
  | answer result => exact (also result).careful
  | refuse cause => trivial
  | look next ih => exact fun ring => ih ring (careful ring)
  | consult next ih => exact fun fields => ih fields (careful fields)
  | set change next ih => exact Sure.bind careful also

theorem Sure.run_ne_error (sure : course.Sure) (views : Nat → Ring α) (fields : Fields)
    (cause : ReaderError) : (course.run views fields).1 ≠ .error cause := by
  induction course generalizing views fields with
  | answer result => exact nofun
  | refuse other => exact sure.elim
  | look next ih => exact ih (views 0) (sure (views 0)) _ fields
  | consult next ih => exact ih fields (sure fields) views fields
  | set change next ih => exact ih sure views (change fields)

/-- Whatever others do meanwhile, if a careful course is refused it has set nothing. -/
theorem Careful.unchanged (careful : course.Careful) {views : Nat → Ring α} {fields : Fields}
    {cause : ReaderError} (refused : (course.run views fields).1 = .error cause) :
    (course.run views fields).2 = fields := by
  induction course generalizing views fields with
  | answer result => rfl
  | refuse other => rfl
  | look next ih => exact ih (views 0) (careful (views 0)) refused
  | consult next ih => exact ih fields (careful fields) refused
  | set change next _ => exact (careful.run_ne_error views (change fields) cause refused).elim

end

theorem idle_now : (now : Course α (Ring α)).Idle := fun _ => trivial

theorem idle_fields : (fields : Course α Fields).Idle := fun _ => trivial

theorem idle_slot (index : Nat) : (slot index : Course α (Slot α)).Idle := by
  intro ring
  dsimp only
  split
  · trivial
  · trivial

theorem idle_slot? (index : Nat) : (slot? index : Course α (Option (Slot α))).Idle :=
  fun _ => trivial

theorem idle_lost (shown : Ring α) : (lost shown).Idle := by
  refine idle_fields.bind fun own => ?_
  split
  · refine (idle_slot? _).bind fun slot => ?_
    split
    · trivial
    · trivial
  · trivial

theorem idle_gap : (gap : Course α Bool).Idle := by
  refine idle_fields.bind fun own => ?_
  split
  · exact idle_now.bind idle_lost
  · trivial

theorem idle_ready : (ready : Course α Unit).Idle := by
  refine idle_fields.bind fun own => ?_
  split
  · trivial
  · refine idle_gap.bind fun gap => ?_
    split
    · trivial
    · trivial

theorem careful_adopt (shown : Ring α) : (adopt shown).Careful :=
  (idle_slot _).andThen fun _ => Sure.careful trivial

theorem careful_jump : (jump : Course α Synchronization).Careful :=
  idle_now.andThen fun shown => (careful_adopt shown).bind fun _ => trivial

theorem careful_synchronize : (synchronize : Course α Synchronization).Careful := by
  refine idle_now.andThen fun shown => idle_fields.andThen fun own => ?_
  split
  · refine (idle_lost shown).andThen fun lost => ?_
    split
    · exact careful_jump
    · dsimp only
      split
      · refine (idle_slot _).andThen fun next => (idle_slot _).andThen fun again => ?_
        split
        · exact Sure.careful trivial
        · -- Nothing was set on the way here, so it may still turn to the window of the ring.
          exact careful_jump
      · trivial
  · exact (careful_adopt shown).bind fun _ => trivial

theorem careful_pull : (pull : Course α (Event α)).Careful := by
  refine idle_ready.andThen fun _ => idle_fields.andThen fun own =>
    (idle_slot _).andThen fun oldest => ?_
  split
  · trivial
  split
  · refine idle_now.andThen fun shown => ?_
    dsimp only
    split
    · trivial
    · exact (idle_slot _).andThen fun following => (idle_slot _).andThen fun again =>
        Sure.careful trivial
  · trivial

theorem careful_pop : (pop : Course α (Event α)).Careful := by
  refine idle_ready.andThen fun _ => idle_fields.andThen fun own =>
    idle_now.andThen fun shown => (idle_slot _).andThen fun newest => ?_
  split
  · trivial
  · trivial

theorem Careful.clamped {course : Course α β} (careful : course.Careful) :
    (clamped course).Careful :=
  careful.bind fun _ => Sure.bind (fun _ => trivial) fun _ => trivial

theorem careful_moveTo (position : Nat) : (moveTo position : Course α Unit).Careful := by
  refine idle_now.andThen fun shown => idle_fields.andThen fun own => ?_
  split
  · trivial
  · trivial

theorem careful_increment : (increment : Course α Unit).Careful := by
  refine idle_now.andThen fun shown => idle_fields.andThen fun own => ?_
  dsimp only
  split
  · trivial
  · trivial

theorem careful_decrement : (decrement : Course α Unit).Careful := by
  refine idle_now.andThen fun shown => idle_fields.andThen fun own => ?_
  split
  · trivial
  · trivial

end Course

theorem ReaderCall.careful_course (call : ReaderCall α β) : call.course.Careful := by
  cases call with
  | synchronize => exact Course.careful_synchronize
  | pull => exact Course.careful_pull
  | pop => exact Course.careful_pop

theorem CursorCall.careful_course (call : CursorCall α β) : call.course.Careful := by
  cases call with
  | synchronize => exact Course.careful_synchronize.clamped
  | pull => exact Course.careful_pull.clamped
  | pop => exact Course.careful_pop.clamped
  | moveTo position => exact Course.careful_moveTo position
  | increment => exact Course.careful_increment
  | decrement => exact Course.careful_decrement

theorem ReaderCall.spares (call : ReaderCall α β) (ring : Ring α) (reader : Reader) :
    Spares reader (call.perform reader ring) := by
  cases call with
  | synchronize => exact reader.spares_synchronize ring
  | pull => exact reader.spares_pull ring
  | pop => exact reader.spares_pop ring

theorem Course.Careful.spares {course : Course α β} (careful : course.Careful)
    (views : Nat → Ring α) (own : Fields) : Spares own (course.run views own) :=
  fun _ => careful.unchanged

/-- What a careful course comes to spares the cursor. -/
theorem Course.ComesTo.spares {course : Course α β} {ring : Ring α} {cursor : Cursor}
    {called : Except ReaderError β × Cursor} (comes : course.ComesTo ring cursor called)
    (careful : course.Careful) : Spares cursor called := by
  intro cause refused
  unfold ComesTo at comes
  have spared := careful.spares (fun _ => ring) cursor.fields
  rw [comes] at spared
  exact Cursor.fields_injective (spared cause refused)

/-- A call that is refused has changed nothing, neither of a reader nor of a cursor, whatever the
ring is like; nor has one during which others change the ring between any two looks. -/
theorem refused_unchanged [DecidableEq α] {kind : RegisterKind} {capacity : Nat} {epoch : Time}
    {patience : Patience} {start : Ring α} {traffic : Traffic α} {cursor : Cursor}
    (created : Ring.create kind capacity epoch patience = .ok start)
    (happenings : List (Motion α ⊕ CursorCommand α))
    (ran : Traffic.run Cursor.act happenings (.idle start, .fresh) = (traffic, cursor)) :
    (∀ {β : Type} (call : ReaderCall α β) (ring : Ring α) (reader : Reader),
      Spares reader (call.perform reader ring)) ∧
    (∀ {β : Type} (call : CursorCall α β) (ring : Ring α), ring.size = start.size →
      Spares cursor (call.perform cursor ring)) ∧
    (∀ {β : Type} (call : ReaderCall α β) (views : Nat → Ring α) (own : Fields),
      Spares own (call.course.run views own)) ∧
    ∀ {β : Type} (call : CursorCall α β) (views : Nat → Ring α) (own : Fields),
      Spares own (call.course.run views own) := by
  obtain ⟨inRange, stands⟩ := Cursor.Stands.of_run created happenings ran
  refine ⟨fun call => call.spares, fun call ring size => ?_,
    fun call => call.careful_course.spares, fun call => call.careful_course.spares⟩
  have here : cursor.Stands ring := stands.congr (inRange.slots.trans size.symm)
  exact (call.course_comesTo here).spares call.careful_course

/-- The cursor has nothing unread when an event is pushed. -/
def belated : List (Motion Nat ⊕ CursorCommand Nat) :=
  [.inr .synchronize, .inl (.perform (.push ⟨1, .zero⟩))]

/-- The last slot was filled again, and an append has marked the first one. -/
def overtaken (ring : Ring Nat) : Ring Nat := (ring.setSlot 2 ⟨2, some ⟨3, .zero⟩⟩).setStamp 0 3

/-- A synchronization that looks at the event after its last one, and finds only then that it was
overtaken: it turns to the window of the ring, the oldest slot of which cannot be read. -/
theorem refused_unchanged_overtaken :
    ∃ traffic cursor, Traffic.run Cursor.act belated (.idle smallRing, .fresh) = (traffic, cursor) ∧
      (cursor.synchronize (overtaken traffic.ring)).1 = .error (.read (.busy 0)) ∧
      (cursor.synchronize (overtaken traffic.ring)).2 = cursor ∧
      (CursorCall.synchronize.course.run
          (fun count => if count < 3 then traffic.ring else overtaken traffic.ring)
          cursor.fields).1 = .error (.read (.busy 0)) ∧
      (CursorCall.synchronize.course.run
          (fun count => if count < 3 then traffic.ring else overtaken traffic.ring)
          cursor.fields).2 = cursor.fields := by
  obtain ⟨_, calls, _, courses⟩ := refused_unchanged create_smallRing belated rfl
  exact ⟨_, _, rfl, rfl, calls .synchronize _ rfl _ rfl, rfl, courses .synchronize _ _ _ rfl⟩

end TimedTrace
