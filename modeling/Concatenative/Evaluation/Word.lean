import Concatenative.Act
import Concatenative.Value.Text
import Concatenative.Word.Arithmetic
import Concatenative.Word.Logic

/-! Words at work. -/
namespace Concatenative.Evaluation

open Eval

/-- Writes a value and a line feed, or the line feed alone. -/
def print (input : Option Value) : Eval Value := do
  let text := (input.map Value.display).getD ""
  match ← ask (.world (.write (text ++ "\n"))) with
  | .ok _ => return .none
  | .error fault => fail (.output fault)

def word (w : Word) (input : Option Value) : Eval Value :=
  match w with
  | .sum => orFail (Word.sumOf input)
  | .prod => orFail (Word.prodOf input)
  | .diff => orFail (Word.diffOf input)
  | .pow => orFail (Word.powOf input)
  | .eq => orFail (Word.eqOf input)
  | .not => orFail (Word.notOf input)
  | .and => orFail (Word.andOf input)
  | .or => orFail (Word.orOf input)
  | .xor => orFail (Word.xorOf input)
  | .print => print input
  | .foreign name => do orFail (← ask (.world (.word name input)))

end Concatenative.Evaluation
