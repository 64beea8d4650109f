/-! The kinds of values, as messages name them. -/
namespace Concatenative

inductive ValueKind where
  | none | int | float | bool | text | list | callable
deriving DecidableEq

namespace ValueKind

def name : ValueKind → String
  | none => "none"
  | int => "integer"
  | float => "float"
  | bool => "boolean"
  | text => "string"
  | list => "list"
  | callable => "callable"

/-- The name with its article, for a kind that was asked for. -/
def indefinite : ValueKind → String
  | none => "none"
  | int => "an integer"
  | float => "a float"
  | bool => "a boolean"
  | text => "a string"
  | list => "a list"
  | callable => "a callable"

end ValueKind

end Concatenative
