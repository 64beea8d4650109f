/-! The words that programs look up: arithmetic, logic and output, which every program has, and
those that whoever embeds the language adds. -/
namespace Concatenative

inductive Word where
  | sum | prod | diff | pow | eq | not | and | or | xor | print
  /-- Added by whoever embeds the language. -/
  | foreign (name : String)
deriving DecidableEq

namespace Word

/-- In the order in which the root frame declares them. -/
def all : List Word := [.sum, .prod, .diff, .pow, .eq, .not, .and, .or, .xor, .print]

def name : Word → String
  | sum => "sum"
  | prod => "prod"
  | diff => "diff"
  | pow => "pow"
  | eq => "eq"
  | not => "not"
  | and => "and"
  | or => "or"
  | xor => "xor"
  | print => "print"
  | foreign name => name

end Word

end Concatenative
