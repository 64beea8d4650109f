import Concatenative.Value.Conversion
import Concatenative.Value.Equality

/-! The words of logic, on values read as true or false. -/
namespace Concatenative.Word

/-- Folds the truth of the values of a list; a lone value is its own truth. -/
def truthOf (w : Word) (start : Bool) (join : Bool → Bool → Bool) : Option Value → Outcome
  | some (.list items) => .ok (.bool (items.foldl (fun b v => join b v.truth) start))
  | some v => .ok (.bool v.truth)
  | none => .error (Cause.missingInput w)

def andOf : Option Value → Outcome := truthOf .and true (· && ·)

def orOf : Option Value → Outcome := truthOf .or false (· || ·)

def xorOf : Option Value → Outcome := truthOf .xor false (· != ·)

def eqOf : Option Value → Outcome
  | some (.list [a, b]) => .ok (.bool (a.same b))
  | _ => .error (Cause.pairExpected : Failure)

/-- Turns the truth of a value around, or that of each value of a list. -/
def notOf : Option Value → Outcome
  | some (.list items) => .ok (.list (items.map fun v => .bool !v.truth))
  | some v => .ok (.bool !v.truth)
  | none => .error (Cause.missingInput .not)

end Concatenative.Word
