import Concatenative.Code
import Concatenative.Library
import Concatenative.World

/-! Computations as what they ask for. An `Act` is finished or asks a machine for something and
goes on with the answer; it holds no state of its own. A `Job` describes a computation that may be
called or started, and nothing is computed until a machine unfolds it. -/
namespace Concatenative

/-- How much a note matters. -/
inductive Level where
  | trace | debug | info | warn
deriving DecidableEq

structure Note where
  level : Level
  text : String
deriving DecidableEq

inductive Job where
  /-- Resolves a value, applied to the input if there is one. -/
  | force (v : Value) (input : Option Value)
  /-- Invokes a callable once and performs no force that it leaves to its caller. -/
  | call (c : Callable) (input : Option Value)
  /-- Invokes a callable that leaves a force, and then what it handed back, until no force is
  left. -/
  | bounce (c : Callable) (input : Option Value)
  /-- Folds what a generator yields from an index on. -/
  | generate (generator step total : Value) (index : Nat)
  | forceLater (d : Deferred)
  | compose (g f : Deferred)
  | concat (a b : Deferred)
  | append (items value : Deferred)
  | transform (d : Deferred) (f : Value → Outcome)
  /-- Starts one job for every element of a list, all blamed on one place. -/
  | map (location : Location) (items f : Deferred)
  /-- Waits for all and makes a list of their values. -/
  | gather (ds : List Deferred)
  | reducer (source step : Deferred)
  | load (frame : FrameId) (reference : Deferred)
  | access (frame : FrameId) (reference : Deferred)
  /-- The module of a file as a closure over a frame of its own. -/
  | openModule (frame : FrameId) (path : Path)
  /-- Gives way some times before it comes to its outcome. -/
  | lingering (turns : Nat) (o : Outcome)

/-- What a computation may ask of the machine that runs it. -/
inductive Request where
  /-- A frame for an invocation. -/
  | enter (parent : FrameId) (input : Option Value)
  /-- A frame for a module, under the root that `frame` hangs under. -/
  | enterModule (frame : FrameId) (path : Path)
  | declare (frame : FrameId) (name : String) (d : Deferred)
  | rebind (frame : FrameId) (name : String) (d : Deferred)
  | lookup (frame : FrameId) (name : String)
  | input (frame : FrameId)
  /-- The directory of the file that the code in a frame is from. -/
  | moduleDirectory (frame : FrameId)
  /-- A number that was never given before. -/
  | stamp
  /-- A new task that is not waited for; its failures are blamed on a place. -/
  | spawn (location : Location) (job : Job)
  | await (task : TaskId)
  /-- The outcome of a job, before anything else is done. -/
  | perform (job : Job)
  /-- Lets the tasks that are ready go first. -/
  | giveWay
  | settings
  /-- The body of a module, or the order to load it. -/
  | claim (path : Path)
  | countParse
  | publish (path : Path) (body : Body)
  | giveUp (path : Path)
  | world (q : Query)
  | note (n : Note)

abbrev Request.Answer : Request → Type
  | enter _ _ | enterModule _ _ => FrameId
  | declare _ _ _ | rebind _ _ _ => Except Failure Unit
  | lookup _ _ | input _ => Except Failure Deferred
  | moduleDirectory _ => Except Failure (Option Path)
  | stamp => Nat
  | spawn _ _ => TaskId
  | await _ | perform _ => Outcome
  | settings => LibrarySettings
  | claim _ => Option Body
  | world q => q.Answer
  | giveWay | countParse | publish _ _ | giveUp _ | note _ => Unit

inductive Act (α : Type) where
  | done (a : α)
  | ask (q : Request) (k : q.Answer → Act α)

namespace Act

variable {α β : Type}

protected def bind (x : Act α) (f : α → Act β) : Act β :=
  match x with
  | done a => f a
  | ask q k => ask q fun a => (k a).bind f

instance : Monad Act where
  pure := done
  bind := Act.bind

end Act

/-- Computations that may fail. -/
abbrev Eval := ExceptT Failure Act

namespace Eval

variable {α : Type}

def ask (q : Request) : Eval q.Answer := ExceptT.lift (.ask q .done)

def fail (cause : Cause) : Eval α := throw (cause : Failure)

def orFail : Except Failure α → Eval α
  | .ok a => pure a
  | .error e => throw e

/-- The outcome of a computation, failure included. -/
def attempt (x : Eval α) : Eval (Except Failure α) := ExceptT.lift x.run

/-- Blames a place for the failures that blame nothing yet. -/
def orAt (l : Location) (x : Eval α) : Eval α := x.adapt fun e => e.orAt l

def perform (job : Job) : Eval Value := do orFail (← ask (.perform job))

/-- Starts a job; its result is not waited for. -/
def start (l : Location) (job : Job) : Eval Deferred := do return .pending (← ask (.spawn l job))

def note (level : Level) (text : String) : Eval Unit := ask (.note ⟨level, text⟩)

def await : Deferred → Eval Value
  | .settled v => pure v
  | .rejected e => throw e
  | .pending task => do orFail (← ask (.await task))

/-- The outcomes of all, one after the other, whether they fail or not; `found` are those found
before, last first. -/
def awaitAll (found : List Outcome) : List Deferred → Eval (List Outcome)
  | [] => pure found.reverse
  | d :: rest => do awaitAll ((← attempt (await d)) :: found) rest

/-- Waits for all and then fails with the first failure by position, if there is one. -/
def settleAll (ds : List Deferred) : Eval (List Value) := do
  orFail ((← awaitAll [] ds).mapM id)

/-- Waits for two values and fails with the failure of the first if both fail. -/
def settleBoth (a b : Deferred) : Eval (Value × Value) := do
  let first ← attempt (await a)
  let second ← attempt (await b)
  return (← orFail first, ← orFail second)

end Eval

/-- How a job ends that does not fail: with a value, or by becoming another job. -/
inductive Next where
  | value (v : Value)
  | become (job : Job)

end Concatenative
