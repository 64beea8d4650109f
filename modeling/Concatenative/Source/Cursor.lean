import Concatenative.Source.Location

/-! A cursor over program text. What was read and what is left are kept as two lists that meet at
the cursor, so nothing of the text is lost and the cursor can be taken back to the start. -/
namespace Concatenative

structure Cursor where
  /-- What was read, last character first. -/
  read : List Char
  rest : List Char
  location : Location

namespace Cursor

def ofText (path text : String) : Cursor := ⟨[], text.toList, .start path⟩

/-- The whole text, wherever the cursor stands. -/
def chars (c : Cursor) : List Char := c.read.reverse ++ c.rest

def reset (c : Cursor) : Cursor := ⟨[], c.chars, .start c.location.path⟩

def position (c : Cursor) : Nat := c.read.length

def peek (c : Cursor) : Option Char := c.rest.head?

def peekSecond (c : Cursor) : Option Char := c.rest[1]?

/-- The characters from position `n` up to the cursor. -/
def since (c : Cursor) (n : Nat) : String := String.ofList (c.read.reverse.drop n)

/-- Reads `n` characters, or all that are left. -/
def advance (c : Cursor) : Nat → Cursor
  | 0 => c
  | n + 1 =>
    match c with
    | ⟨_, [], _⟩ => c
    | ⟨read, x :: rest, l⟩ => advance ⟨x :: read, rest, l.after x⟩ n

def next (c : Cursor) : Option Char × Cursor := (c.peek, c.advance 1)

theorem rest_advance (c : Cursor) (n : Nat) : (c.advance n).rest = c.rest.drop n := by
  induction n generalizing c with
  | zero => rfl
  | succ n ih =>
    obtain ⟨read, rest, l⟩ := c
    cases rest with
    | nil => rfl
    | cons x rest => simp [advance, ih]

theorem chars_advance (c : Cursor) (n : Nat) : (c.advance n).chars = c.chars := by
  induction n generalizing c with
  | zero => rfl
  | succ n ih =>
    obtain ⟨read, rest, l⟩ := c
    cases rest with
    | nil => rfl
    | cons x rest => rw [advance, ih]; simp [chars]

end Cursor

end Concatenative
