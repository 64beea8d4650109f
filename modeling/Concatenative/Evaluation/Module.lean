import Concatenative.Act
import Concatenative.Code.Builder

/-! Modules: which file a reference means, and the body that a file holds. -/
namespace Concatenative

/-- The candidates that were looked at until one was found. -/
def Query.tried (candidates : List Path) : Option Query.Found → List Path
  | some found => candidates.take (found.index + 1)
  | none => candidates

def Path.tryNote (p : Path) : Note := ⟨.trace, "Trying module path " ++ p.text ++ "."⟩

def Build.notes (b : Build) : List Note := b.skipped.map fun t => ⟨.trace, t.skipNotice⟩

namespace Evaluation

open Eval

def noteAll : List Note → Eval Unit
  | [] => pure ()
  | n :: rest => do
    ask (.note n)
    noteAll rest

/-- Without a directory to start from, references start from the working directory. -/
def resolve (reference : String) (directory : Option Path) : Eval Path := do
  let first ← match directory with
    | some d => pure d
    | none => ask (.world .workingDirectory)
  let candidates := (← ask .settings).candidates first reference
  let found ← ask (.world (.firstFile candidates))
  noteAll ((Query.tried candidates found).map Path.tryNote)
  match found with
  | some found => return found.path
  | none => fail (.moduleNotFound reference)

/-- The file that a reference in the code of a frame means. -/
def locate (frame : FrameId) (reference : Deferred) : Eval Path := do
  match ← await reference with
  | .text reference =>
    let directory ← orFail (← ask (.moduleDirectory frame))
    let path ← resolve reference directory
    note .trace ("Module reference " ++ reference ++ " resolved to " ++ path.text ++ ".")
    return path
  | v => fail (.referenceExpected v.kind)

/-- Builds the text of a module and keeps the body if there is one. -/
def buildModule (path : Path) (text : String) : Eval Body := do
  ask .countParse
  note .debug ("Parsing module " ++ path.text ++ ".")
  let b := build (← ask .settings).strict path.text text
  noteAll b.notes
  match b.result with
  | .ok body =>
    ask (.publish path body)
    return body
  | .error e =>
    ask (.giveUp path)
    throw e

/-- The body of a module, from the library or from its file. -/
def moduleBody (path : Path) : Eval Body := do
  match ← ask (.claim path) with
  | some body => return body
  | none =>
    match ← ask (.world (.content path)) with
    | .ok text => buildModule path text
    | .error fault =>
      ask (.giveUp path)
      fail (.moduleUnreadable path.text fault)

end Evaluation

end Concatenative
