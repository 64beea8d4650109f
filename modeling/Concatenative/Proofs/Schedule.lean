import Concatenative.Machine
import Concatenative.Proofs.Surroundings

/-! Machines under any order of their tasks. `Machine.step` always takes up the task that has been
ready longest; `Machine.Moves` lets any ready task go on and any file be answered whenever no task
runs, and takes any answer from the surroundings. What is proved of all `Machine.Runs` holds of
every order, that of `Machine.step` being one (`runs_runAll`). `Machine.Change` says once what a move
can do, request by request, and the invariants of machines are derived from it. -/
namespace Concatenative

/-- A question to the surroundings with its answer. -/
abbrev Asked := (q : Query) × q.Answer

namespace Machine

variable {m m' m₁ : Machine} {t : TaskId} {log : List Asked}

/-! ## Moves -/

/-- One move, with the question that was asked in it, if there was one. -/
inductive Moves (m : Machine) : List Asked → Machine → Prop
  | next {t : TaskId} {thread : Thread} {m' : Machine} : m.running = some (t, thread) →
      { m with running := none }.advance t thread = .next m' → Moves m [] m'
  | asks {t : TaskId} {thread : Thread} {q : Query} {resume : q.Answer → Machine} (a : q.Answer) :
      m.running = some (t, thread) →
      { m with running := none }.advance t thread = .asks q resume → Moves m [⟨q, a⟩] (resume a)
  | take {t : TaskId} {front back : List TaskId} {ready : Queue TaskId} : m.running = none →
      m.ready.toList = front ++ t :: back → ready.toList = front ++ back →
      Moves m [] ({ m with ready }.resume t)
  | read {r : Reading} {front back : List Reading} (a : Except ReadFault String) :
      m.running = none → m.reading = front ++ r :: back →
      Moves m [⟨.content r.path, a⟩] ({ m with reading := front ++ back }.run r.task (r.resume a))

/-- Who is taken from somewhere among those that are ready or read leaves all others there. -/
theorem mem_of_taken {α : Type} {xs front back : List α} {x y : α} (hxs : xs = front ++ x :: back)
    (hy : y ∈ xs) (hne : y ≠ x) : y ∈ front ++ back := by
  rw [hxs, List.mem_append, List.mem_cons] at hy
  exact List.mem_append.2 (hy.imp_right fun h => h.resolve_left hne)

/-- Moves one after the other, with all that was asked. -/
inductive Runs : Machine → List Asked → Machine → Prop
  | refl (m : Machine) : Runs m [] m
  | head {m m₁ m₂ : Machine} {log log' : List Asked} :
      Moves m log m₁ → Runs m₁ log' m₂ → Runs m (log ++ log') m₂

theorem moves_of_step_next (h : m.step = .next m') : Moves m [] m' := by
  unfold step at h
  split at h
  · next t thread hr => exact .next hr h
  · next hr =>
    split at h
    · next t ready hp =>
      cases h
      have hq : m.ready.toList = [] ++ t :: ready.toList := Queue.toList_of_pop? hp
      exact .take hr hq rfl
    · split at h
      · cases h
      · cases h

theorem moves_of_step_asks {q : Query} {resume : q.Answer → Machine} (h : m.step = .asks q resume)
    (a : q.Answer) : Moves m [⟨q, a⟩] (resume a) := by
  unfold step at h
  split at h
  · next t thread hr => exact .asks a hr h
  · next hr =>
    split at h
    · cases h
    · split at h
      · next r reading hm =>
        cases h
        have hq : m.reading = [] ++ r :: reading := hm
        exact .read a hr hq
      · cases h

end Machine

/-- The surroundings answer a list of questions one after the other. -/
inductive World.Answers : World → List Asked → World → Prop
  | nil (w : World) : Answers w [] w
  | cons {w w' : World} {q : Query} {log : List Asked} :
      Answers (w.answer q).2 log w' → Answers w (⟨q, (w.answer q).1⟩ :: log) w'

/-! ## What the running task can do -/

/-- A turn of a thread that concerns nobody else. -/
inductive Thread.Turns : Thread → Thread → Prop
  | becomes {job : Job} {pending : List (Outcome → Act (Except Failure Next))} :
      Turns ⟨.done (.ok (.become job)), pending⟩ ⟨job.act, pending⟩
  | performs {job : Job} {k : Outcome → Act (Except Failure Next)}
      {pending : List (Outcome → Act (Except Failure Next))} :
      Turns ⟨.ask (.perform job) k, pending⟩ ⟨job.act, k :: pending⟩
  | returns {v : Value} {k : Outcome → Act (Except Failure Next)}
      {pending : List (Outcome → Act (Except Failure Next))} :
      Turns ⟨.done (.ok (.value v)), k :: pending⟩ ⟨k (.ok v), pending⟩
  | fails {e : Failure} {k : Outcome → Act (Except Failure Next)}
      {pending : List (Outcome → Act (Except Failure Next))} :
      Turns ⟨.done (.error e), k :: pending⟩ ⟨k (.error e), pending⟩

/-- How a thread ends. -/
inductive Thread.Over : Thread → Outcome → Prop
  | value (v : Value) : Over ⟨.done (.ok (.value v)), []⟩ (.ok v)
  | failure (e : Failure) : Over ⟨.done (.error e), []⟩ (.error e)

namespace Machine

/-- Task `t` gets an answer at once: the machine afterwards, with what was asked outside. -/
inductive Serves (m : Machine) (t : TaskId) :
    (q : Request) → List Asked → q.Answer → Machine → Prop
  | enter (parent : FrameId) (input : Option Value) :
      Serves m t (.enter parent input) [] (m.scope.addChild parent (input.map .settled)).1
        { m with scope := (m.scope.addChild parent (input.map .settled)).2 }
  | enterModule (frame : FrameId) (path : Path) :
      Serves m t (.enterModule frame path) [] (m.scope.addModule (m.scope.rootOf frame) path).1
        { m with scope := (m.scope.addModule (m.scope.rootOf frame) path).2 }
  | declare (frame : FrameId) (name : String) (d : Deferred) :
      Serves m t (.declare frame name d) [] (m.scope.declare frame name d).1
        { m with scope := (m.scope.declare frame name d).2 }
  | rebind (frame : FrameId) (name : String) (d : Deferred) :
      Serves m t (.rebind frame name d) [] (m.scope.rebind frame name d).1
        { m with scope := (m.scope.rebind frame name d).2 }
  | lookup (frame : FrameId) (name : String) :
      Serves m t (.lookup frame name) [] (m.scope.lookup frame name) m
  | input (frame : FrameId) : Serves m t (.input frame) [] (m.scope.input frame) m
  | moduleDirectory (frame : FrameId) :
      Serves m t (.moduleDirectory frame) []
        ((m.scope.requireLibrary frame).map fun _ => m.scope.moduleDirectory? frame) m
  | stamp : Serves m t .stamp [] m.stamps { m with stamps := m.stamps + 1 }
  | spawn (l : Location) (job : Job) :
      Serves m t (.spawn l job) [] (m.addTask (some l) job).1 (m.addTask (some l) job).2
  | await {target : TaskId} {o : Outcome} {m' : Machine} : m.readCell t target = (some o, m') →
      Serves m t (.await target) [] o m'
  | settings : Serves m t .settings [] m.library.settings m
  | cached {path : Path} {library : Library} {body : Body} :
      m.library.claim path t = (library, .cached body) →
      Serves m t (.claim path) [] (some body) { m with library }
  | granted {path : Path} {library : Library} : m.library.claim path t = (library, .granted) →
      Serves m t (.claim path) [] none { m with library }
  | countParse : Serves m t .countParse [] () { m with library := m.library.countParse }
  | publish (path : Path) (body : Body) :
      Serves m t (.publish path body) [] ()
        { m with
          library := (m.library.publish path body).1
          ready := m.ready.pushAll (m.library.publish path body).2 }
  | giveUp (path : Path) :
      Serves m t (.giveUp path) [] ()
        ({ m with library := (m.library.giveUp path).1 }.wake (m.library.giveUp path).2)
  | note (n : Note) : Serves m t (.note n) [] () { m with notes := n :: m.notes }
  | workingDirectory (a : Path) :
      Serves m t (.world .workingDirectory) [⟨.workingDirectory, a⟩] a m
  | firstFile (candidates : List Path) (a : Option Query.Found) :
      Serves m t (.world (.firstFile candidates)) [⟨.firstFile candidates, a⟩] a m
  | write (text : String) (a : Except WriteFault Unit) :
      Serves m t (.world (.write text)) [⟨.write text, a⟩] a m
  | word (name : String) (input : Option Value) (a : Outcome) :
      Serves m t (.world (.word name input)) [⟨.word name input, a⟩] a m

/-- What a move of the running task `t` comes to; `m` is the machine without it. -/
inductive Goes (m : Machine) (t : TaskId) : Thread → List Asked → Machine → Prop
  | turns {thread thread' : Thread} : thread.Turns thread' → Goes m t thread [] (m.run t thread')
  | served {q : Request} {k : q.Answer → Act (Except Failure Next)}
      {pending : List (Outcome → Act (Except Failure Next))} {log : List Asked} {a : q.Answer}
      {m' : Machine} : Serves m t q log a m' → Goes m t ⟨.ask q k, pending⟩ log (m'.run t ⟨k a, pending⟩)
  | awaits {target : TaskId} {k : Outcome → Act (Except Failure Next)}
      {pending : List (Outcome → Act (Except Failure Next))} {m' : Machine} :
      m.readCell t target = (none, m') →
      Goes m t ⟨.ask (.await target) k, pending⟩ [] (m'.suspend t ⟨.ask (.await target) k, pending⟩)
  | claims {path : Path} {k : Option Body → Act (Except Failure Next)}
      {pending : List (Outcome → Act (Except Failure Next))} {library : Library} :
      m.library.claim path t = (library, .wait) →
      Goes m t ⟨.ask (.claim path) k, pending⟩ []
        ({ m with library }.suspend t ⟨.ask (.claim path) k, pending⟩)
  | givesWay {k : Unit → Act (Except Failure Next)}
      {pending : List (Outcome → Act (Except Failure Next))} :
      Goes m t ⟨.ask .giveWay k, pending⟩ [] ((m.suspend t ⟨k (), pending⟩).wake (some t))
  | reads {path : Path} {k : Except ReadFault String → Act (Except Failure Next)}
      {pending : List (Outcome → Act (Except Failure Next))} :
      Goes m t ⟨.ask (.world (.content path)) k, pending⟩ []
        { m with reading := m.reading ++ [⟨t, path, fun a => ⟨k a, pending⟩⟩] }
  | ends {thread : Thread} {o : Outcome} : thread.Over o → Goes m t thread [] (m.finish t o)

/-- A step of the running task that is not a question goes this way, a question for any answer. -/
def Step.Goes (m : Machine) (t : TaskId) (thread : Thread) : Step → Prop
  | .next m' => m.Goes t thread [] m'
  | .asks q resume => ∀ a, m.Goes t thread [⟨q, a⟩] (resume a)
  | .idle _ => False

theorem goes_serve (m : Machine) (t : TaskId)
    (pending : List (Outcome → Act (Except Failure Next))) (q : Request)
    (k : q.Answer → Act (Except Failure Next)) :
    (m.serve t pending q k).Goes m t ⟨.ask q k, pending⟩ := by
  cases q with
  | enter parent input => exact .served (.enter parent input)
  | enterModule frame path => exact .served (.enterModule frame path)
  | declare frame name d => exact .served (.declare frame name d)
  | rebind frame name d => exact .served (.rebind frame name d)
  | lookup frame name => exact .served (.lookup frame name)
  | input frame => exact .served (.input frame)
  | moduleDirectory frame => exact .served (.moduleDirectory frame)
  | stamp => exact .served .stamp
  | spawn l job => exact .served (.spawn l job)
  | await target =>
    rcases h : m.readCell t target with ⟨_ | o, m'⟩
    · simp only [serve, h]
      exact Goes.awaits h
    · simp only [serve, h]
      exact Goes.served (.await h)
  | perform job => exact .turns .performs
  | giveWay => exact .givesWay
  | settings => exact .served .settings
  | claim path =>
    rcases h : m.library.claim path t with ⟨library, body | _ | _⟩
    · simp only [serve, h]
      exact Goes.served (.cached h)
    · simp only [serve, h]
      exact Goes.served (.granted h)
    · simp only [serve, h]
      exact Goes.claims h
  | countParse => exact .served .countParse
  | publish path body => exact .served (.publish path body)
  | giveUp path => exact .served (.giveUp path)
  | note n => exact .served (.note n)
  | world q =>
    cases q with
    | workingDirectory => exact fun a => .served (.workingDirectory a)
    | firstFile candidates => exact fun a => .served (.firstFile candidates a)
    | content path => exact .reads
    | write text => exact fun a => .served (.write text a)
    | word name input => exact fun a => .served (.word name input a)

theorem goes_advance (m : Machine) (t : TaskId) (thread : Thread) :
    (m.advance t thread).Goes m t thread := by
  match thread with
  | ⟨.done (.ok (.become job)), pending⟩ => exact .turns .becomes
  | ⟨.done (.ok (.value v)), k :: pending⟩ => exact .turns .returns
  | ⟨.done (.error e), k :: pending⟩ => exact .turns .fails
  | ⟨.done (.ok (.value v)), []⟩ => exact .ends (.value v)
  | ⟨.done (.error e), []⟩ => exact .ends (.failure e)
  | ⟨.ask q k, pending⟩ => exact goes_serve m t pending q k

/-- What a move can do. -/
inductive Change (m : Machine) : List Asked → Machine → Prop
  | goes {t : TaskId} {thread : Thread} {log : List Asked} {m' : Machine} :
      m.running = some (t, thread) → { m with running := none }.Goes t thread log m' →
      Change m log m'
  | take {t : TaskId} {front back : List TaskId} {ready : Queue TaskId} : m.running = none →
      m.ready.toList = front ++ t :: back → ready.toList = front ++ back →
      Change m [] ({ m with ready }.resume t)
  | read {r : Reading} {front back : List Reading} (a : Except ReadFault String) :
      m.running = none → m.reading = front ++ r :: back →
      Change m [⟨.content r.path, a⟩] ({ m with reading := front ++ back }.run r.task (r.resume a))

theorem Moves.change (h : Moves m log m') : Change m log m' := by
  cases h with
  | @next t thread m' hr hs =>
    have h := goes_advance { m with running := none } t thread
    rw [hs] at h
    exact .goes hr h
  | @asks t thread q resume a hr hs =>
    have h := goes_advance { m with running := none } t thread
    rw [hs] at h
    exact .goes hr (h a)
  | take hr hf hb => exact .take hr hf hb
  | read a hr hm => exact .read a hr hm

/-- A machine in which no task can go on is left as it is. -/
theorem idle_of_step {m m' : Machine} (h : m.step = .idle m') :
    m.running = none ∧ m.ready.toList = [] ∧ m.reading = [] ∧ m' = m := by
  unfold step at h
  split at h
  · -- A task that runs can always go on, be it to wait.
    next t thread hr =>
    have hg := goes_advance { m with running := none } t thread
    rw [h] at hg
    exact hg.elim
  · next hr =>
    split at h
    · cases h
    · next hready =>
      split at h
      · cases h
      · next hm =>
        cases h
        exact ⟨hr, (Queue.pop?_eq_none_iff _).1 hready, hm, rfl⟩

/-- The order of `step` is one of the orders. -/
theorem runs_runAll (limit : Nat) (m : Machine) (w : World) :
    ∃ log, Runs m log (m.runAll limit w).1 ∧ w.Answers log (m.runAll limit w).2 := by
  induction limit generalizing m w with
  | zero => exact ⟨[], .refl m, .nil w⟩
  | succ limit ih =>
    unfold runAll
    cases h : m.step with
    | next m₁ =>
      obtain ⟨log, hr, hw⟩ := ih m₁ w
      exact ⟨log, .head (moves_of_step_next h) hr, hw⟩
    | asks q resume =>
      obtain ⟨log, hr, hw⟩ := ih (resume (w.answer q).1) (w.answer q).2
      exact ⟨_, .head (moves_of_step_asks h _) hr, .cons hw⟩
    | idle m₁ =>
      obtain ⟨_, _, _, rfl⟩ := idle_of_step h
      exact ⟨[], .refl m₁, .nil w⟩

end Machine

end Concatenative
