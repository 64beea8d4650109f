import Concatenative.Evaluation.Instruction
import Concatenative.Evaluation.Module
import Concatenative.Evaluation.Word

/-! What each job does. A call in the last place is not performed but becomes the job itself, so a
chain of calls that leave their force to the caller runs in one place however long it is. -/
namespace Concatenative

namespace Evaluation

open Eval

def indexValue (n : Nat) : Value := .int (Int64.ofNat n)

/-- What a step of a fold is given. -/
def stepInput (total element : Value) (index : Nat) : Value :=
  .list [total, element, indexValue index]

/-- Folds a list from the left, counting from an index. -/
def foldList (step total : Value) (index : Nat) : List Value → Eval Value
  | [] => pure total
  | v :: rest => do
    let total ← perform (.force step (some (stepInput total v index)))
    foldList step total (index + 1) rest

/-- Calls a reducer. Without an initial value the first element is the initial value. -/
def reduce (source step : Value) (initial : Option Value) : Eval Next :=
  match source, initial with
  | .list items, some total => return .value (← foldList step total 0 items)
  | .list (first :: rest), none => return .value (← foldList step first 1 rest)
  | .list [], none => fail .emptyList
  | generator, some total => return .become (.generate generator step total 0)
  | generator, none => do
    match ← perform (.force generator (some (indexValue 0))) with
    | .none => fail .emptyGenerator
    | first => return .become (.generate generator step first 1)

/-- Calls the first part of a composition, if it can be called, and hands its value to the second.
A force that the second part leaves stays left. -/
def composed (f g : Value) (input : Option Value) : Eval Next := do
  let inner ← if g.isCallable then perform (.force g input) else pure g
  match f with
  | .callable c =>
    if c.isTail then return .become (.call c (some inner))
    else return .become (.force f (some inner))
  | _ => return .become (.force f (some inner))

/-- Calls a guarded value. The handler is given the text of a failure. -/
def guarded (d handler : Deferred) (input : Option Value) : Eval Next := do
  let protectedCall := do perform (.force (← await d) input)
  match ← attempt protectedCall with
  | .ok v => return .value v
  | .error e =>
    note .debug ("Catch intercepted: " ++ e.text)
    return .become (.force (← await handler) (some (.text e.text)))

def call (c : Callable) (input : Option Value) : Eval Next :=
  match c with
  | .closure _ body frame => do
    let inner ← ask (.enter frame input)
    return .value (← code inner body.code [])
  | .composed _ f g => composed f g input
  | .guarded _ d handler => guarded d handler input
  | .reducer _ source step => reduce source step input
  | .host w => return .value (← word w input)

/-- Resolves a value. Failures behind a force that was left are blamed on that force. -/
def force (v : Value) (input : Option Value) : Eval Next :=
  match v with
  | .callable c =>
    match c.tailForce? with
    | some l => return .value (← orAt l (perform (.bounce c input)))
    | none => return .become (.call c input)
  | v => return .value (← orFail (v.apply input))

def bounce (c : Callable) (input : Option Value) : Eval Next := do
  match ← perform (.call c input) with
  | .callable next =>
    if next.isTail then return .become (.bounce next none) else return .become (.call next none)
  | v => return .value v

/-- Starts the jobs of all elements before any is waited for; `started` are those started before,
last first. -/
def startEach (l : Location) (f : Value) (started : List Deferred) (index : Nat) :
    List Value → Eval (List Deferred)
  | [] => pure started.reverse
  | v :: rest => do
    let d ← start l (.force f (some (.list [v, indexValue index])))
    startEach l f (d :: started) (index + 1) rest

def generate (generator step total : Value) (index : Nat) : Eval Next := do
  match ← perform (.force generator (some (indexValue index))) with
  | .none => return .value total
  | v =>
    let total ← perform (.force step (some (stepInput total v index)))
    return .become (.generate generator step total (index + 1))

def linger (o : Outcome) : Nat → Eval Next
  | 0 => return .value (← orFail o)
  | n + 1 => do
    ask .giveWay
    linger o n

end Evaluation

open Eval Evaluation

def Job.act : Job → Eval Next
  | .force v input => Evaluation.force v input
  | .call c input => Evaluation.call c input
  | .bounce c input => Evaluation.bounce c input
  | .generate generator step total index => Evaluation.generate generator step total index
  | .forceLater d => do return .become (.force (← await d) none)
  | .compose g f => do
    let (g, f) ← settleBoth g f
    return .value (.callable (.composed (← ask .stamp) f g))
  | .concat a b => do
    let (a, b) ← settleBoth a b
    return .value (← orFail (a.concat b))
  | .append items value => do
    let (items, value) ← settleBoth items value
    return .value (← orFail (items.append value))
  | .transform d f => do return .value (← orFail (f (← await d)))
  | .map l items f => do
    let (items, f) ← settleBoth items f
    let results ← startEach l f [] 0 (← orFail items.asList)
    return .become (.gather results)
  | .gather ds => do return .value (.list (← settleAll ds))
  | .reducer source step => do
    let (source, step) ← settleBoth source step
    match source with
    | .list _ | .callable _ => return .value (.callable (.reducer (← ask .stamp) source step))
    | v => fail (.notReducible v.kind)
  | .load frame reference => do
    let module ← perform (.openModule frame (← locate frame reference))
    return .become (.force module none)
  | .access frame reference => do return .become (.openModule frame (← locate frame reference))
  | .openModule frame path => do
    let body ← moduleBody path
    let inner ← ask (.enterModule frame path)
    return .value (.callable (.closure (← ask .stamp) body inner))
  | .lingering turns o => linger o turns

end Concatenative
