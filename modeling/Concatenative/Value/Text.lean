import Concatenative.Decimal.Positional
import Concatenative.Text.Quoted
import Concatenative.Value

/-! Values as text. `inspect` quotes strings wherever they stand, `display` quotes only those
inside lists. -/
namespace Concatenative

def Callable.display : Callable → String
  | closure _ body _ => "<closure " ++ body.location.text ++ ">"
  | composed _ _ _ => "<composition>"
  | guarded _ _ _ => "<catch>"
  | reducer _ _ _ => "<reducer>"
  | host word => "<host " ++ word.name ++ ">"

namespace Value

mutual

def inspect : Value → String
  | none => "none"
  | int n => toString n.toInt
  | float x => Decimal.floatText x
  | bool true => "true"
  | bool false => "false"
  | text s => Text.quoted s
  | list [] => "[]"
  | list (v :: vs) => "[ " ++ v.inspect ++ String.join (inspectRest vs) ++ " ]"
  | callable c => c.display

/-- The elements of a list past the first, each with the comma in front of it. -/
def inspectRest : List Value → List String
  | [] => []
  | v :: vs => (", " ++ v.inspect) :: inspectRest vs

end

def display : Value → String
  | text s => s
  | v => v.inspect

end Value

end Concatenative
