/-! Places in program text: a path tag with a line and a column, both counted from one.
Columns count characters. -/
namespace Concatenative

structure Location where
  path : String
  line : Nat
  column : Nat
deriving DecidableEq

namespace Location

/-- The first character of the text that `path` names. -/
def start (path : String) : Location := ⟨path, 1, 1⟩

/-- Stands where nobody said where something came from. -/
def unspecified : Location := start "unspecified"

def text (l : Location) : String :=
  l.path ++ " (" ++ toString l.line ++ ", " ++ toString l.column ++ ")"

/-- By path, then by line, then by column. -/
protected def compare (a b : Location) : Ordering :=
  (Ord.compare a.path b.path).then <|
    (Ord.compare a.line b.line).then (Ord.compare a.column b.column)

/-- The place that follows a character read at `l`. -/
def after (l : Location) (c : Char) : Location :=
  if c = '\n' then { l with line := l.line + 1, column := 1 }
  else { l with column := l.column + 1 }

end Location

end Concatenative
