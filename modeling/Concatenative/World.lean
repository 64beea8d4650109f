import Concatenative.Files
import Concatenative.Value

/-! What programs see of their surroundings: files, an output and the words that were added to the
language. A question to them is a `Query`, and `World.answer` answers for surroundings that are
known as a value. -/
namespace Concatenative

inductive Query where
  | workingDirectory
  /-- The first candidate that is a file. -/
  | firstFile (candidates : List Path)
  | content (path : Path)
  | write (text : String)
  /-- What a word comes to that was added to the language. -/
  | word (name : String) (input : Option Value)

namespace Query

/-- A file that was found: its place among the candidates and its one absolute path. -/
structure Found where
  index : Nat
  path : Path

abbrev Answer : Query → Type
  | workingDirectory => Path
  | firstFile _ => Option Found
  | content _ => Except ReadFault String
  | write _ => Except WriteFault Unit
  | word _ _ => Outcome

end Query

/-- What becomes of text that is written. -/
inductive Sink where
  | accepting
  /-- Refuses all text. -/
  | closed
  /-- Takes text and then fails to pass it on. -/
  | stuck

structure World where
  files : Files := {}
  sink : Sink := .accepting
  /-- What was written, last first. -/
  written : List String := []
  /-- What the added words do. -/
  words : String → Option Value → Outcome := fun _ _ => .ok .none

namespace World

def firstFile (files : Files) (index : Nat) : List Path → Option Query.Found
  | [] => none
  | p :: rest =>
    match files.fileAt? p with
    | some path => some ⟨index, path⟩
    | none => firstFile files (index + 1) rest

def write (w : World) (text : String) : Except WriteFault Unit × World :=
  match w.sink with
  | .accepting => (.ok (), { w with written := text :: w.written })
  | .closed => (.error .closed, w)
  | .stuck => (.error .noFlush, { w with written := text :: w.written })

def answer (w : World) : (q : Query) → q.Answer × World
  | .workingDirectory => (Files.pathOf w.files.working, w)
  | .firstFile candidates => (firstFile w.files 0 candidates, w)
  | .content path => (w.files.read path, w)
  | .write text => w.write text
  | .word name input => (w.words name input, w)

/-- All that was written. -/
def output (w : World) : String := String.join w.written.reverse

end World

end Concatenative
