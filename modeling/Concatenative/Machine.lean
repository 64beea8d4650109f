import Concatenative.Cell
import Concatenative.Evaluation.Job
import Concatenative.Queue
import Concatenative.Scope

/-! The machine that runs tasks, one at a time. A task runs until it has to wait; then the task that
has been ready longest goes on. Each step of the machine answers one request of the running task or
ends one job, and asks the surroundings at most one question. -/
namespace Concatenative

/-- A computation in progress: what it does now, and what goes on with the outcome of each job that
it performs, innermost first. -/
structure Thread where
  act : Act (Except Failure Next)
  pending : List (Outcome → Act (Except Failure Next)) := []

def Job.thread (job : Job) : Thread := { act := job.act }

structure Task where
  /-- The place that failures of the task are blamed on. -/
  origin : Option Location
  /-- Where the task stands while it does not run. -/
  thread : Option Thread
  cell : Cell := {}

/-- A task that waits for the content of a file. -/
structure Reading where
  task : TaskId
  path : Path
  resume : Except ReadFault String → Thread

structure Machine where
  scope : Scope := {}
  library : Library := {}
  tasks : Array Task := #[]
  running : Option (TaskId × Thread) := none
  /-- Tasks that can go on. -/
  ready : Queue TaskId := {}
  /-- Tasks that go on when no other can, first come first. -/
  reading : List Reading := []
  /-- The next stamp. -/
  stamps : Nat := 0
  /-- Last note first. -/
  notes : List Note := []

namespace Machine

/-- What a step comes to. -/
inductive Step where
  | next (m : Machine)
  | asks (q : Query) (resume : q.Answer → Machine)
  /-- No task can go on. -/
  | idle (m : Machine)

/-! ## Parts of the state

The frames and the tasks grow with every call. `onScope` and `onTask` take the machine apart before
they change them, so that a change is made in place. -/

def onScope {α : Type} (m : Machine) (f : Scope → α × Scope) : α × Machine :=
  let ⟨scope, library, tasks, running, ready, reading, stamps, notes⟩ := m
  let (a, scope) := f scope
  (a, ⟨scope, library, tasks, running, ready, reading, stamps, notes⟩)

def onTask (m : Machine) (t : TaskId) (f : Task → Task) : Machine :=
  let ⟨scope, library, tasks, running, ready, reading, stamps, notes⟩ := m
  ⟨scope, library, tasks.modify t f, running, ready, reading, stamps, notes⟩

/-! ## Tasks -/

/-- Adds a task that is ready to run. -/
def addTask (m : Machine) (origin : Option Location) (job : Job) : TaskId × Machine :=
  let ⟨scope, library, tasks, running, ready, reading, stamps, notes⟩ := m
  let t := tasks.size
  (t, ⟨scope, library, tasks.push { origin, thread := some job.thread }, running, ready.push t,
    reading, stamps, notes⟩)

def wake (m : Machine) (task : Option TaskId) : Machine :=
  match task with
  | some t => { m with ready := m.ready.push t }
  | none => m

def run (m : Machine) (t : TaskId) (thread : Thread) : Machine :=
  { m with running := some (t, thread) }

/-- Puts a task aside. -/
def suspend (m : Machine) (t : TaskId) (thread : Thread) : Machine :=
  m.onTask t ({ · with thread := some thread })

/-- Takes up a task that was put aside. -/
def resume (m : Machine) (t : TaskId) : Machine :=
  match m.tasks[t]?.bind (·.thread) with
  | some thread => (m.onTask t ({ · with thread := none })).run t thread
  | none => m

def setCell (m : Machine) (t : TaskId) (c : Cell) : Machine :=
  m.onTask t ({ · with cell := c })

/-- Ends a task. -/
def finish (m : Machine) (t : TaskId) (o : Outcome) : Machine :=
  match m.tasks[t]? with
  | none => m
  | some task =>
    let o := match task.origin with
      | some l => o.orAt l
      | none => o
    let (cell, woken) := task.cell.finish o
    (m.onTask t ({ · with thread := none, cell })).wake woken

/-- Reads the result of a task for task `t`; there is no outcome if `t` has to wait. -/
def readCell (m : Machine) (t target : TaskId) : Option Outcome × Machine :=
  match m.tasks[target]? with
  | none => (some (.error (Cause.noComputation : Failure)), m)
  | some task =>
    let r := task.cell.read t
    (r.outcome, (m.setCell target r.cell).wake r.woken)

/-! ## Steps -/

/-- Answers a request of the running task `t`: the task goes on with the answer, or stays where it
is and asks again when it is woken. -/
def serve (m : Machine) (t : TaskId) (pending : List (Outcome → Act (Except Failure Next))) :
    (q : Request) → (q.Answer → Act (Except Failure Next)) → Step
  | .enter parent input, k =>
    let (f, m) := m.onScope fun scope => scope.addChild parent (input.map .settled)
    .next (m.run t ⟨k f, pending⟩)
  | .enterModule frame path, k =>
    let (f, m) := m.onScope fun scope => scope.addModule (scope.rootOf frame) path
    .next (m.run t ⟨k f, pending⟩)
  | .declare frame name d, k =>
    let (r, m) := m.onScope fun scope => scope.declare frame name d
    .next (m.run t ⟨k r, pending⟩)
  | .rebind frame name d, k =>
    let (r, m) := m.onScope fun scope => scope.rebind frame name d
    .next (m.run t ⟨k r, pending⟩)
  | .lookup frame name, k => .next (m.run t ⟨k (m.scope.lookup frame name), pending⟩)
  | .input frame, k => .next (m.run t ⟨k (m.scope.input frame), pending⟩)
  | .moduleDirectory frame, k =>
    let r := (m.scope.requireLibrary frame).map fun _ => m.scope.moduleDirectory? frame
    .next (m.run t ⟨k r, pending⟩)
  | .stamp, k => .next ({ m with stamps := m.stamps + 1 }.run t ⟨k m.stamps, pending⟩)
  | .spawn l job, k =>
    let (task, m) := m.addTask (some l) job
    .next (m.run t ⟨k task, pending⟩)
  | .await target, k =>
    match m.readCell t target with
    | (some o, m) => .next (m.run t ⟨k o, pending⟩)
    | (none, m) => .next (m.suspend t ⟨.ask (.await target) k, pending⟩)
  | .perform job, k => .next (m.run t ⟨job.act, k :: pending⟩)
  | .giveWay, k => .next ((m.suspend t ⟨k (), pending⟩).wake (some t))
  | .settings, k => .next (m.run t ⟨k m.library.settings, pending⟩)
  | .claim path, k =>
    match m.library.claim path t with
    | (library, .cached body) => .next ({ m with library }.run t ⟨k (some body), pending⟩)
    | (library, .granted) => .next ({ m with library }.run t ⟨k none, pending⟩)
    | (library, .wait) => .next ({ m with library }.suspend t ⟨.ask (.claim path) k, pending⟩)
  | .countParse, k =>
    .next ({ m with library := m.library.countParse }.run t ⟨k (), pending⟩)
  | .publish path body, k =>
    let (library, woken) := m.library.publish path body
    .next ({ m with library, ready := m.ready.pushAll woken }.run t ⟨k (), pending⟩)
  | .giveUp path, k =>
    let (library, woken) := m.library.giveUp path
    .next (({ m with library }.wake woken).run t ⟨k (), pending⟩)
  | .note n, k => .next ({ m with notes := n :: m.notes }.run t ⟨k (), pending⟩)
  | .world (.content path), k =>
    .next { m with reading := m.reading ++ [⟨t, path, fun a => ⟨k a, pending⟩⟩] }
  | .world .workingDirectory, k => .asks .workingDirectory fun a => m.run t ⟨k a, pending⟩
  | .world (.firstFile candidates), k =>
    .asks (.firstFile candidates) fun a => m.run t ⟨k a, pending⟩
  | .world (.write text), k => .asks (.write text) fun a => m.run t ⟨k a, pending⟩
  | .world (.word name input), k => .asks (.word name input) fun a => m.run t ⟨k a, pending⟩

/-- Goes on with a task. -/
def advance (m : Machine) (t : TaskId) (thread : Thread) : Step :=
  match thread with
  | ⟨.done (.ok (.become job)), pending⟩ => .next (m.run t ⟨job.act, pending⟩)
  | ⟨.done (.ok (.value v)), k :: pending⟩ => .next (m.run t ⟨k (.ok v), pending⟩)
  | ⟨.done (.error e), k :: pending⟩ => .next (m.run t ⟨k (.error e), pending⟩)
  | ⟨.done (.ok (.value v)), []⟩ => .next (m.finish t (.ok v))
  | ⟨.done (.error e), []⟩ => .next (m.finish t (.error e))
  | ⟨.ask q k, pending⟩ => m.serve t pending q k

def step (m : Machine) : Step :=
  match m.running with
  | some (t, thread) => { m with running := none }.advance t thread
  | none =>
    match m.ready.pop? with
    | some (t, ready) => .next ({ m with ready }.resume t)
    | none =>
      match m.reading with
      | r :: reading => .asks (.content r.path) fun a => { m with reading }.run r.task (r.resume a)
      | [] => .idle m

/-- Steps until no task can go on, at most `limit` times. -/
def runAll (limit : Nat) (m : Machine) (w : World) : Machine × World :=
  match limit with
  | 0 => (m, w)
  | limit + 1 =>
    match m.step with
    | .next m => runAll limit m w
    | .asks q resume =>
      let (a, w) := w.answer q
      runAll limit (resume a) w
    | .idle m => (m, w)

def isSettled (m : Machine) : Deferred → Bool
  | .pending t => m.tasks[t]?.any (·.cell.isSettled)
  | _ => true

/-- What a task has come to, if it has ended. -/
def result? (m : Machine) (t : TaskId) : Option Outcome := m.tasks[t]?.bind (·.cell.result)

end Machine

end Concatenative
