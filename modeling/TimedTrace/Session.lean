import TimedTrace.Formula.Compact
import TimedTrace.Ring.Update
import TimedTrace.Session.Command
import TimedTrace.Session.Report

namespace TimedTrace

/-- One ring, one clock moved by hand, and everybody attached to them. Steps are taken one at a
time; only where a step is about to swap the window of the ring can whole steps of others come in
between. -/
structure Session (α : Type) where
  ring : Ring α
  clock : ManualClock
  /-- A writer that was detached keeps its number. -/
  writers : Array (Option (Writer α))
  readers : Array Reader
  cursors : Array Cursor
  /-- A monitor that could not be built uses up a number. -/
  monitors : Array (Option (Monitor α))

namespace Session

variable {α β : Type}

/-- A session with a ring, its clock at zero, and nobody attached. -/
def on (ring : Ring α) : Session α :=
  { ring, clock := .startingAt .zero, writers := #[], readers := #[], cursors := #[],
    monitors := #[] }

/-- The report of a step during which nobody interfered. -/
def report (session : Session α) (answer : Answer α) (view : View α) : Report α × Session α :=
  (.mk session.ring.window answer view [], session)

/-- What others do to the session while a step waits to swap, and what they report. -/
abbrev Interference (α : Type) := List (Turn α (Session α × List (Report α)))

/-- An update of the ring with others about. -/
def update (session : Session α) (opening : Ring α → Opening α β) (turns : Interference α) :
    Except RingError β × Session α × List (Report α) :=
  let (result, ring, after, reports) :=
    Ring.contend opening turns 0 (session.ring, session, [])
  (result, { after with ring }, reports)

/-- An update that nobody's view follows. -/
def updateRing (session : Session α) (opening : Ring α → Opening α β) (answer : β → Answer α)
    (turns : Interference α) : Report α × Session α :=
  let (result, session, reports) := session.update opening turns
  (.mk session.ring.window (.ofRing answer result) .nobody reports, session)

def onRing (session : Session α) (turns : Interference α) :
    RingCommand α → Report α × Session α
  | .push event => session.updateRing (Ring.append event) .status turns
  | .pull => session.updateRing Ring.takeOldest .event turns
  | .pop => session.updateRing Ring.takeNewest .event turns
  | .read index => session.report (.ofRing .event (session.ring.read index)) .nobody
  | .write event index =>
    let (result, ring) := session.ring.write event index
    { session with ring }.report (.ofRing (fun _ => .done) result) .nobody
  | .span =>
    let answer := fun (window, oldest, newest) => Answer.span window oldest newest
    session.report (.ofRing answer session.ring.span) .nobody
  | .align reading => session.report (.time (session.ring.align reading)) .nobody
  | .describe => session.report (.summary session.ring.summary) .nobody

def onClock (session : Session α) : ClockCommand → Report α × Session α
  | .set time =>
    let clock := session.clock.set time
    { session with clock }.report (.time clock.now) .nobody
  | .advance amount =>
    let clock := session.clock.advance amount
    { session with clock }.report (.time clock.now) .nobody

/-- Attaches a writer. -/
def attach (session : Session α) (clock : Clock) : Report α × Session α :=
  let ring := session.ring.attachWriter
  { session with ring, writers := session.writers.push (some (.withClock clock)) }.report
    (.number ring.writers) .nobody

/-- Appends one event by a writer that is attached for it alone. -/
def pushOnce (session : Session α) (event : Event α) (turns : Interference α) :
    Report α × Session α :=
  let (result, session, reports) :=
    { session with ring := session.ring.attachWriter }.update (Ring.append event) turns
  let writer := (Writer.withClock .shared).note event result
  let view := View.passingWriter writer.last session.ring.writers
  let ring := session.ring.detachWriter
  (.mk ring.window (.ofRing .status result) view reports, { session with ring })

/-- Appends an event by an attached writer. -/
def pushBy (session : Session α) (number : Nat) (event : Event α) (turns : Interference α) :
    Report α × Session α :=
  let (result, session, reports) := session.update (Ring.append event) turns
  let writers := session.writers.modify number fun writer? => writer?.map (·.note event result)
  let last := (writers[number]?.join).bind (·.last)
  (.mk session.ring.window (.ofRing .status result) (.writer last) reports,
    { session with writers })

def onWriter (session : Session α) (turns : Interference α) (number : Nat)
    (command : WriterCommand α) : Report α × Session α :=
  match session.writers[number]?.join with
  | none => session.report .absent .nobody
  | some writer =>
    let now := writer.now session.clock
    match command with
    | .push data => session.pushBy number (writer.stamp session.clock data) turns
    | .pushEvent event => session.pushBy number (event.withTime now) turns
    | .pushStamped event => session.pushBy number event turns
    | .now => session.report (.time now) (.writer writer.last)
    | .detach =>
      let ring := session.ring.detachWriter
      { session with ring, writers := session.writers.setIfInBounds number none }.report
        (.number ring.writers) .nobody

def newReader (session : Session α) : Report α × Session α :=
  { session with readers := session.readers.push .fresh }.report
    (.number session.readers.size) (.reader (Reader.fresh.view session.ring))

/-- The report of a reader that has acted. -/
def settleReader (session : Session α) (number : Nat) (answer : Answer α) (reader : Reader) :
    Report α × Session α :=
  { session with readers := session.readers.setIfInBounds number reader }.report answer
    (.reader (reader.view session.ring))

def onReader (session : Session α) (number : Nat) (command : ReaderCommand) :
    Report α × Session α :=
  match session.readers[number]? with
  | none => session.report .absent .nobody
  | some reader =>
    match command with
    | .synchronize =>
      let (result, reader) := reader.synchronize session.ring
      session.settleReader number (.ofReader .synced result) reader
    | .pull =>
      let (result, reader) := reader.pull session.ring
      session.settleReader number (.ofReader .event result) reader
    | .pop =>
      let (result, reader) := reader.pop session.ring
      session.settleReader number (.ofReader .event result) reader
    | .look => session.settleReader number .nothing reader

def newCursor (session : Session α) : Report α × Session α :=
  { session with cursors := session.cursors.push .fresh }.report
    (.number session.cursors.size) (.cursor (Cursor.fresh.view session.ring))

/-- What a cursor answers, and the cursor it becomes. -/
def actCursor [DecidableEq α] (ring : Ring α) (cursor : Cursor) :
    CursorCommand α → Answer α × Cursor
  | .synchronize => (cursor.synchronize ring).map (.ofReader .synced) id
  | .pull => (cursor.pull ring).map (.ofReader .event) id
  | .pop => (cursor.pop ring).map (.ofReader .event) id
  | .gap => (.flag (cursor.gap ring), cursor)
  | .increment => (cursor.increment ring).map (.ofReader fun _ => .done) id
  | .decrement => (cursor.decrement ring).map (.ofReader fun _ => .done) id
  | .moveTo position => (cursor.moveTo ring position).map (.ofReader fun _ => .done) id
  | .seek time => (cursor.seek ring time).map (.ofReader fun _ => .done) id
  | .read => (.ofReader .event (cursor.read ring), cursor)
  | .readNext => (.ofReader .event (cursor.readNext ring), cursor)
  | .readPrevious => (.ofReader .event (cursor.readPrevious ring), cursor)
  | .reset => (.done, cursor.reset)
  | .look => (.nothing, cursor)
  | .evaluate formula time => (cursor.evaluate ring formula time).map .verdict id
  | .evaluateTerm term time => (cursor.evaluateTerm ring term time).map .measure id

def onCursor [DecidableEq α] (session : Session α) (number : Nat) (command : CursorCommand α) :
    Report α × Session α :=
  match session.cursors[number]? with
  | none => session.report .absent .nobody
  | some cursor =>
    let (answer, cursor) := actCursor session.ring cursor command
    { session with cursors := session.cursors.setIfInBounds number cursor }.report answer
      (.cursor (cursor.view session.ring))

def newMonitor (session : Session α) (plan : MonitorPlan α) : Report α × Session α :=
  match Monitor.build plan session.ring with
  | .ok monitor =>
    { session with monitors := session.monitors.push (some monitor) }.report
      (.number session.monitors.size) (.monitor (monitor.view session.ring))
  | .error cause =>
    { session with monitors := session.monitors.push none }.report (.failed (.monitor cause))
      .nobody

/-- What a monitor answers, and the monitor it becomes. -/
def actMonitor [DecidableEq α] [ToString α] (ring : Ring α) (monitor : Monitor α) :
    MonitorCommand → Answer α × Monitor α
  | .run =>
    let monitor := monitor.run ring
    (.verdict monitor.verdict, monitor)
  | .setOrigin origin => (.nothing, monitor.setOrigin origin)
  | .setPeriod period => (.nothing, monitor.setPeriod period)
  | .enable => (.nothing, monitor.enable)
  | .disable => (.nothing, monitor.disable)
  | .formula => (.text monitor.formula.text, monitor)

def onMonitor [DecidableEq α] [ToString α] (session : Session α) (number : Nat)
    (command : MonitorCommand) : Report α × Session α :=
  match session.monitors[number]?.join with
  | none => session.report .absent .nobody
  | some monitor =>
    let (answer, monitor) := actMonitor session.ring monitor command
    { session with monitors := session.monitors.setIfInBounds number (some monitor) }.report
      answer (.monitor (monitor.view session.ring))

/-- Carries out one command. -/
def perform [DecidableEq α] [ToString α] (session : Session α) (turns : Interference α) :
    Command α → Report α × Session α
  | .ring command => session.onRing turns command
  | .clock command => session.onClock command
  | .attach clock => session.attach clock
  | .pushOnce event => session.pushOnce event turns
  | .writer number command => session.onWriter turns number command
  | .newReader => session.newReader
  | .reader number command => session.onReader number command
  | .newCursor => session.newCursor
  | .cursor number command => session.onCursor number command
  | .newMonitor plan => session.newMonitor plan
  | .monitor number command => session.onMonitor number command

variable [DecidableEq α] [ToString α]

mutual

/-- Takes one step. Moves of its script that it has no swap for are dropped. -/
def take (session : Session α) : Step α → Report α × Session α
  | .mk command script => session.perform (interference script) command

/-- The turns of a script. -/
def interference : List (Move α) → Interference α
  | [] => []
  | move :: script => turn move :: interference script

def turn : Move α → Turn α (Session α × List (Report α))
  | .lose => { act := id, fails := true }
  | .pass => { act := id, fails := false }
  | .others steps =>
    { act := fun (ring, session, reports) =>
        let (more, session) := takeAll { session with ring } steps
        (session.ring, session, reports ++ more)
      fails := false }

/-- Takes steps in order, each in the session that the one before it left. -/
def takeAll (session : Session α) : List (Step α) → List (Report α) × Session α
  | [] => ([], session)
  | step :: steps =>
    let (report, session) := session.take step
    let (reports, session) := takeAll session steps
    (report :: reports, session)

end

end Session

end TimedTrace
