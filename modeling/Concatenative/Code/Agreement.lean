import Concatenative.Code
import Concatenative.Value.Equality

/-! When two pieces of code are equal. Groups are shared and not compared inside: two pushes of a
group agree when they push one group of one build, and the opening tells groups of a build apart. -/
namespace Concatenative

def Literal.agrees (a b : Literal) : Bool := a.value.same b.value

/-- `oneBuild` says that the two operations come from the same build. -/
def Op.agrees (oneBuild : Bool) : Op → Op → Bool
  | literal a, literal b => a.agrees b
  | group a, group b => oneBuild && a.location = b.location
  | primitive a, primitive b => a = b
  | _, _ => false

def Instruction.agrees (oneBuild : Bool) (a b : Instruction) : Bool :=
  a.location = b.location && a.op.agrees oneBuild b.op

def codeAgrees (oneBuild : Bool) : List Instruction → List Instruction → Bool
  | [], [] => true
  | a :: as, b :: bs => a.agrees oneBuild b && codeAgrees oneBuild as bs
  | _, _ => false

end Concatenative
