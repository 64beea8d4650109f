import Concatenative.Value

/-! Where the result of a started computation is read. The first reader takes a lock, takes the
computation and waits for it; what it finds it stores for all, then the lock goes to the next
reader in line. Whoever comes after the outcome is stored does not need the lock. -/
namespace Concatenative

structure Cell where
  /-- What readers see, once a reader stored it. -/
  outcome : Option Outcome := none
  /-- What the computation came to, once it has ended. -/
  result : Option Outcome := none
  /-- The reader that has the lock. -/
  holder : Option TaskId := none
  /-- The reader that took the computation to wait for it. -/
  joined : Option TaskId := none
  /-- Readers in line for the lock, first in line first. -/
  waiting : List TaskId := []

namespace Cell

/-- What an attempt to read comes to: the cell after it, the outcome if there is one, and a reader
that may go on because the lock was handed to it. -/
structure Read where
  cell : Cell
  outcome : Option Outcome
  woken : Option TaskId := none

/-- Hands the lock to the next reader in line. -/
def handOn (c : Cell) (o : Outcome) : Read :=
  { cell := { c with holder := c.waiting.head?, waiting := c.waiting.tail }
    outcome := some o
    woken := c.waiting.head? }

/-- Stores an outcome for all readers. -/
def store (c : Cell) (o : Outcome) : Read := { c with outcome := some o }.handOn o

/-- The reader that has the lock goes on while no outcome is stored: it waits for the computation,
which nobody else may have taken. -/
def join (c : Cell) (reader : TaskId) : Read :=
  if c.joined.all (· = reader) then
    match c.result with
    | some o => { c with joined := some reader }.store o
    | none => { cell := { c with joined := some reader }, outcome := none }
  else c.store (.error (Cause.noComputation : Failure))

/-- A reader tries to read, for the first time or after it was woken. -/
def read (c : Cell) (reader : TaskId) : Read :=
  match c.outcome with
  | some o => if c.holder = some reader then c.handOn o else { cell := c, outcome := some o }
  | none =>
    match c.holder with
    | none => { c with holder := some reader }.join reader
    | some holder =>
      if holder = reader then c.join reader
      else { cell := { c with waiting := c.waiting ++ [reader] }, outcome := none }

/-- The computation ends; the reader that waits for it may go on. -/
def finish (c : Cell) (o : Outcome) : Cell × Option TaskId :=
  ({ c with result := some o }, c.joined)

def isSettled (c : Cell) : Bool := c.outcome.isSome

end Cell

end Concatenative
