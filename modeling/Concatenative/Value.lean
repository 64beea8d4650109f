import Concatenative.Code
import Concatenative.Failure

/-! Values. A callable holds what it needs to be called: bodies hold frame numbers and not frames,
results that are not known yet are held by the number of the task that computes them. Callables
that a program makes carry a stamp, a number that no two of them share, so that two of them are
the same only if they were made by the same step. -/
namespace Concatenative

abbrev FrameId := Nat

abbrev TaskId := Nat

mutual

inductive Value where
  | none
  | int (n : Int64)
  | float (x : Float)
  | bool (b : Bool)
  | text (s : String)
  | list (items : List Value)
  | callable (c : Callable)

inductive Callable where
  | closure (stamp : Nat) (body : Body) (frame : FrameId)
  /-- Calls `g` and hands the result to `f`. -/
  | composed (stamp : Nat) (f g : Value)
  /-- Calls `guarded` and hands the text of a failure to `handler`. -/
  | guarded (stamp : Nat) (guarded handler : Deferred)
  /-- Folds `step` over a list or over what a generator yields. -/
  | reducer (stamp : Nat) (source step : Value)
  | host (word : Word)

/-- A value that may not be known yet. -/
inductive Deferred where
  | settled (v : Value)
  | rejected (e : Failure)
  | pending (task : TaskId)

end

instance : Inhabited Value := ⟨.none⟩

abbrev Outcome := Except Failure Value

namespace Outcome

/-- Blames `l` for a failure that blames nothing yet. -/
def orAt (o : Outcome) (l : Location) : Outcome := o.mapError fun e => e.orAt l

end Outcome

def Deferred.ofOutcome : Outcome → Deferred
  | .ok v => .settled v
  | .error e => .rejected e

def Literal.value : Literal → Value
  | int n => .int n
  | float x => .float x
  | text s => .text s
  | bool b => .bool b
  | void => .list []

namespace Value

def void : Value := list []

def kind : Value → ValueKind
  | none => .none
  | int _ => .int
  | float _ => .float
  | bool _ => .bool
  | text _ => .text
  | list _ => .list
  | callable _ => .callable

def isCallable (v : Value) : Bool := v.kind = .callable

def isNumeric (v : Value) : Bool := v.kind = .int || v.kind = .float

def isVoid : Value → Bool
  | list [] => true
  | _ => false

end Value

mutual

/-- Where the force was that a call of the value leaves to its caller. -/
def Value.tailForce? : Value → Option Location
  | .callable c => c.tailForce?
  | _ => none

/-- Closures leave the force that ended their body, compositions that of their outer part. -/
def Callable.tailForce? : Callable → Option Location
  | .closure _ body _ => body.tailForce
  | .composed _ f _ => f.tailForce?
  | _ => none

end

def Callable.isTail (c : Callable) : Bool := c.tailForce?.isSome

def Value.isTail (v : Value) : Bool := v.tailForce?.isSome

end Concatenative
