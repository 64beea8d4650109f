import Concatenative.Value.Conversion

/-! What operators do with values that are known. -/
namespace Concatenative.Value

/-- Joins two lists or two strings. The empty list joins with anything and changes nothing. -/
def concat : Value → Value → Outcome
  | list a, list b => .ok (list (a ++ b))
  | text a, text b => .ok (text (a ++ b))
  | a, list [] => .ok a
  | list [], b => .ok b
  | a, b => .error (Cause.notConcatenable a.kind b.kind)

def append (items value : Value) : Outcome := do
  return list ((← items.asList) ++ [value])

def singleton (v : Value) : Outcome := .ok (list [v])

/-- A list as the list of all but its last element and that element. -/
def split (v : Value) : Outcome := do
  let items ← v.asList
  match items.getLast? with
  | some last => return list [list items.dropLast, last]
  | Option.none => throw (Cause.emptyPop : Failure)

/-- The element at an index; `false` and `true` are the first two indices. -/
def index (items : List Value) (i : Value) : Outcome :=
  let find (n : Int64) : Outcome :=
    let n := n.toInt
    match (if 0 ≤ n then items[n.toNat]? else Option.none) with
    | some v => .ok v
    | Option.none => .error (Cause.outOfRange n items.length)
  match i with
  | int n => find n
  | bool b => find (if b then 1 else 0)
  | v => .error (Cause.notAnIndex v.kind)

/-- Applies a value that is not callable: without an input it stands for itself, with one a list is
indexed and anything else refuses. -/
def apply (v : Value) (input : Option Value) : Outcome :=
  match input, v with
  | Option.none, v => .ok v
  | some i, list items => index items i
  | some _, v => .error (Cause.notApplicable v.inspect v.kind)

end Concatenative.Value
