import Concatenative.Value.Conversion

/-! The arithmetic words. Integers are 64 bits wide and wrap around; one float among the numbers
makes the result a float. -/
namespace Concatenative.Word

def requireNumber (w : Word) (v : Value) : Except Failure Unit :=
  if v.isNumeric then .ok () else .error (Cause.numberExpected w v.kind)

/-- Joins two numbers as floats if one of them is a float, else as integers. -/
def arithmetic (onFloats : Float → Float → Float) (onInts : Int64 → Int64 → Int64)
    (a b : Value) : Value :=
  if a.kind = .float || b.kind = .float then .float (onFloats a.toFloat b.toFloat)
  else .int (onInts a.toInt b.toInt)

/-- Folds a list of numbers from the left. -/
def foldNumbers (w : Word) (join : Value → Value → Value) : Value → List Value → Outcome
  | total, [] => .ok total
  | total, v :: vs => do
    w.requireNumber v
    w.foldNumbers join (join total v) vs

/-- A list is folded; a lone number is its own total. -/
def total (w : Word) (start : Int64) (join : Value → Value → Value) : Option Value → Outcome
  | some (.list items) => w.foldNumbers join (.int start) items
  | some v => do
    w.requireNumber v
    return v
  | none => .error (Cause.missingInput w)

def sumOf : Option Value → Outcome := total .sum 0 (arithmetic (· + ·) (· + ·))

def prodOf : Option Value → Outcome := total .prod 1 (arithmetic (· * ·) (· * ·))

/-- One number or two, from a list of as many. -/
def oneOrTwo (w : Word) (items : List Value) : Except Failure (Value × Option Value) :=
  match items with
  | [a] => do
    w.requireNumber a
    return (a, none)
  | [a, b] => do
    w.requireNumber a
    w.requireNumber b
    return (a, some b)
  | _ => .error (Cause.oneOrTwo w)

def negate (v : Value) : Value :=
  if v.kind = .float then .float (-v.toFloat) else .int (-v.toInt)

/-- Negates one number, or takes the second of two from the first. -/
def diffOf : Option Value → Outcome
  | some (.list items) => do
    match ← oneOrTwo .diff items with
    | (a, none) => return negate a
    | (a, some b) => return arithmetic (· - ·) (· - ·) a b
  | some v => do
    requireNumber .diff v
    return negate v
  | none => .error (Cause.missingInput .diff)

/-- The power of an integer by repeated squaring. -/
def power (base : Int64) (exponent : Nat) : Int64 :=
  if exponent = 0 then 1
  else
    let half := power (base * base) (exponent / 2)
    if exponent % 2 = 1 then base * half else half
termination_by exponent
decreasing_by omega

/-- Integer powers are exact as long as the exponent fits 32 bits and is not negative. -/
def powerOf (a b : Value) : Value :=
  match a, b with
  | .int a, .int b =>
    if 0 ≤ b.toInt ∧ b.toInt < UInt32.size then .int (power a b.toInt.toNat)
    else .float (a.toFloat.pow b.toFloat)
  | a, b => .float (a.toFloat.pow b.toFloat)

def powOf : Option Value → Outcome
  | some (.list items) => do
    match ← oneOrTwo .pow items with
    | (a, none) => return a
    | (a, some b) => return powerOf a b
  | some v => do
    requireNumber .pow v
    return v
  | none => .error (Cause.missingInput .pow)

end Concatenative.Word
