import Concatenative.Token

/-! Code: bodies of instructions. A body is the top level of a text or a group in it. When the
last thing a body does is a force, that force is not an instruction: the body only says where it
was, and whoever calls the body performs it. -/
namespace Concatenative

/-- Values that are written out in a program. -/
inductive Literal where
  | int (n : Int64)
  | float (x : Float)
  | text (s : String)
  | bool (b : Bool)
  /-- The empty list. -/
  | void
deriving DecidableEq

mutual

inductive Op where
  /-- Pushes a value; a bare name pushes its text. -/
  | literal (v : Literal)
  /-- Pushes a group as a closure over the current frame. -/
  | group (body : Body)
  | primitive (p : Primitive)

structure Instruction where
  location : Location
  op : Op

structure Body where
  code : List Instruction
  /-- Where the force was that ended the body. -/
  tailForce : Option Location
  /-- Where the body starts: the start of the text, or the opening of the group. -/
  location : Location

end

namespace Body

/-- Takes a force off the end of the code. -/
def ofCode (code : List Instruction) (location : Location) : Body :=
  match code.getLast? with
  | some ⟨tail, .primitive .force⟩ => ⟨code.dropLast, some tail, location⟩
  | _ => ⟨code, none, location⟩

def isTail (b : Body) : Bool := b.tailForce.isSome

end Body

end Concatenative
