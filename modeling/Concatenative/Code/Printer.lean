import Concatenative.Value.Text

/-! Code as text: one line for every instruction, numbered within its body, the lines of a group
under the instruction that pushes it and six columns further in. -/
namespace Concatenative

def Op.text : Op → String
  | literal v => "PushValue   " ++ v.value.inspect
  | group body =>
    "PushClosure " ++ toString body.code.length ++ " instructions"
      ++ (if body.isTail then ", tail" else "")
  | primitive p => p.name

/-- A number that is filled up with blanks to four columns. -/
def lineNumber (n : Nat) : String :=
  let digits := toString n
  String.ofList (List.replicate (4 - digits.length) ' ') ++ digits

def line (indent number : Nat) (op : Op) : String :=
  String.ofList (List.replicate indent ' ') ++ lineNumber number ++ ": " ++ op.text ++ "\n"

mutual

def Op.innerLines (indent : Nat) : Op → List String
  | .group ⟨code, _, _⟩ => codeLines indent 0 code
  | _ => []

def codeLines (indent number : Nat) : List Instruction → List String
  | [] => []
  | ⟨_, op⟩ :: rest =>
    line indent number op :: (op.innerLines (indent + 6) ++ codeLines indent (number + 1) rest)

end

def Body.lines (b : Body) : List String := codeLines 0 0 b.code

def Body.text (b : Body) : String := String.join b.lines

end Concatenative
