import Concatenative.Source.Location

/-! Tokens: lexemes of program text with what they denote, their exact text and their place. -/
namespace Concatenative

/-- What one operator character does, the two that delimit groups apart. -/
inductive Primitive where
  | concat | newList | push | pop | bind | rebind | lookup | compose | map | reduce | force | guard
  | input | load | access | clear
deriving DecidableEq

def Primitive.name : Primitive → String
  | concat => "Concat"
  | newList => "NewList"
  | push => "Push"
  | pop => "Pop"
  | bind => "Bind"
  | rebind => "Rebind"
  | lookup => "Lookup"
  | compose => "Compose"
  | map => "Map"
  | reduce => "Reduce"
  | force => "Force"
  | guard => "Catch"
  | input => "Input"
  | load => "Load"
  | access => "Access"
  | clear => "Clear"

/-- The operators, one character each. -/
inductive Operator where
  | openGroup
  | closeGroup
  | primitive (p : Primitive)
deriving DecidableEq

namespace Operator

def name : Operator → String
  | openGroup => "OpenGroup"
  | closeGroup => "CloseGroup"
  | primitive p => p.name

def ofChar? : Char → Option Operator
  | '(' => some openGroup
  | ')' => some closeGroup
  | ',' => some (primitive .concat)
  | ';' => some (primitive .newList)
  | '<' => some (primitive .push)
  | '>' => some (primitive .pop)
  | ':' => some (primitive .bind)
  | '!' => some (primitive .rebind)
  | '.' => some (primitive .lookup)
  | '*' => some (primitive .compose)
  | '^' => some (primitive .map)
  | '/' => some (primitive .reduce)
  | '|' => some (primitive .force)
  | '~' => some (primitive .guard)
  | '$' => some (primitive .input)
  | '#' => some (primitive .load)
  | '@' => some (primitive .access)
  | '-' => some (primitive .clear)
  | _ => none

end Operator

inductive TokenKind where
  | int (n : Int64)
  | float (x : Float)
  | text (s : String)
  | bool (b : Bool)
  | void
  | symbol (name : String)
  | operator (o : Operator)
  /-- Punctuation that is read but means nothing. -/
  | unknown (c : Char)
deriving DecidableEq

structure Token where
  kind : TokenKind
  text : String
  location : Location
deriving DecidableEq

end Concatenative
