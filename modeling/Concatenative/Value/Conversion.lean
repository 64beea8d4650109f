import Concatenative.Value.Text

/-! Values read as other kinds. The `as` functions refuse a value of another kind; `truth`,
`toInt` and `toFloat` read every value. -/
namespace Concatenative.Value

private def refuse {α : Type} (wanted : ValueKind) (v : Value) : Except Failure α :=
  .error (Cause.expected wanted v.kind)

def asInt : Value → Except Failure Int64
  | int n => .ok n
  | v => v.refuse .int

def asFloat : Value → Except Failure Float
  | float x => .ok x
  | v => v.refuse .float

def asBool : Value → Except Failure Bool
  | bool b => .ok b
  | v => v.refuse .bool

def asText : Value → Except Failure String
  | text s => .ok s
  | v => v.refuse .text

def asList : Value → Except Failure (List Value)
  | list items => .ok items
  | v => v.refuse .list

def asCallable : Value → Except Failure Callable
  | callable c => .ok c
  | v => v.refuse .callable

/-- Zero, the empty string, the empty list and `none` are false. -/
def truth : Value → Bool
  | none => false
  | int n => n != 0
  | float x => x != 0
  | bool b => b
  | text s => !s.isEmpty
  | list items => !items.isEmpty
  | callable _ => true

/-- A float loses its fraction and stops at the ends of the range. -/
def toInt : Value → Int64
  | int n => n
  | float x => x.toInt64
  | bool true => 1
  | _ => 0

def toFloat : Value → Float
  | int n => n.toFloat
  | float x => x
  | bool true => 1
  | _ => 0

end Concatenative.Value
