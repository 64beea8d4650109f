import Concatenative.Act
import Concatenative.Value.Operations

/-! Instructions. Each works on the stack of its invocation, whose slots hold values that may not be
known yet. Names are waited for; whatever else needs a value starts a job and pushes its result
without waiting. -/
namespace Concatenative

abbrev Stack := List Deferred

namespace Evaluation

open Eval

def pop : Stack → Eval (Deferred × Stack)
  | [] => fail .underflow
  | d :: rest => pure (d, rest)

/-- Pops a name and waits for it. -/
def popName (stack : Stack) : Eval (String × Stack) := do
  let (d, stack) ← pop stack
  match ← await d with
  | .text name => return (name, stack)
  | v => fail (.nameExpected v.kind)

/-- The element of a pair. -/
def component (n : Nat) (pair : Value) : Outcome := do
  return (← pair.asList)[n]?.getD .none

/-- Runs one primitive at a place, in a frame. -/
def primitive (frame : FrameId) (l : Location) (p : Primitive) (stack : Stack) : Eval Stack := do
  match p with
  | .bind =>
    let (name, stack) ← popName stack
    let (d, stack) ← pop stack
    orFail (← ask (.declare frame name d))
    return stack
  | .rebind =>
    let (name, stack) ← popName stack
    let (d, stack) ← pop stack
    orFail (← ask (.rebind frame name d))
    return stack
  | .lookup =>
    let (name, stack) ← popName stack
    return (← orFail (← ask (.lookup frame name))) :: stack
  | .input => return (← orFail (← ask (.input frame))) :: stack
  | .compose =>
    let (f, stack) ← pop stack
    let (g, stack) ← pop stack
    return (← start l (.compose g f)) :: stack
  | .force =>
    let (d, stack) ← pop stack
    return (← start l (.forceLater d)) :: stack
  | .guard =>
    let (handler, stack) ← pop stack
    let (guarded, stack) ← pop stack
    return .settled (.callable (.guarded (← ask .stamp) guarded handler)) :: stack
  | .concat =>
    let (b, stack) ← pop stack
    let (a, stack) ← pop stack
    return (← start l (.concat a b)) :: stack
  | .push =>
    let (value, stack) ← pop stack
    let (items, stack) ← pop stack
    return (← start l (.append items value)) :: stack
  | .pop =>
    let (items, stack) ← pop stack
    let pair ← start l (.transform items Value.split)
    let rest ← start l (.transform pair (component 0))
    let last ← start l (.transform pair (component 1))
    return last :: rest :: stack
  | .newList =>
    let (value, stack) ← pop stack
    return (← start l (.transform value Value.singleton)) :: stack
  | .map =>
    let (f, stack) ← pop stack
    let (items, stack) ← pop stack
    return (← start l (.map l items f)) :: stack
  | .reduce =>
    let (step, stack) ← pop stack
    let (source, stack) ← pop stack
    return (← start l (.reducer source step)) :: stack
  | .load =>
    let (reference, stack) ← pop stack
    return (← start l (.load frame reference)) :: stack
  | .access =>
    let (reference, stack) ← pop stack
    return (← start l (.access frame reference)) :: stack
  | .clear =>
    let (_, stack) ← pop stack
    return stack

def instruction (frame : FrameId) (i : Instruction) (stack : Stack) : Eval Stack :=
  orAt i.location <|
    match i.op with
    | .literal v => pure (.settled v.value :: stack)
    | .group body => do
      return .settled (.callable (.closure (← ask .stamp) body frame)) :: stack
    | .primitive p => primitive frame i.location p stack

/-- Runs instructions in order and waits for what ends up on top of the stack. -/
def code (frame : FrameId) : List Instruction → Stack → Eval Value
  | [], [] => pure .none
  | [], top :: _ => await top
  | i :: rest, stack => do code frame rest (← instruction frame i stack)

end Evaluation

end Concatenative
