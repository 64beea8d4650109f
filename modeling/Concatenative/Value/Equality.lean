import Concatenative.Value

/-! When two values are equal to a program: numbers by their value whatever their kind, lists
element by element, callables by the step that made them, and no other values of two kinds. -/
namespace Concatenative

def Callable.same : Callable → Callable → Bool
  | closure m _ _, closure n _ _ => m == n
  | composed m _ _, composed n _ _ => m == n
  | guarded m _ _, guarded n _ _ => m == n
  | reducer m _ _, reducer n _ _ => m == n
  | host m, host n => m == n
  | _, _ => false

namespace Value

mutual

def same : Value → Value → Bool
  | none, none => true
  | int a, int b => a == b
  | int a, float b => a.toFloat == b
  | float a, int b => a == b.toFloat
  | float a, float b => a == b
  | bool a, bool b => a == b
  | text a, text b => a == b
  | list a, list b => sameAll a b
  | callable a, callable b => a.same b
  | _, _ => false

def sameAll : List Value → List Value → Bool
  | [], [] => true
  | a :: as, b :: bs => a.same b && sameAll as bs
  | _, _ => false

end

end Value

end Concatenative
