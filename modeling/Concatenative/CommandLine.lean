import Concatenative.Session
import Concatenative.Settings

/-! The command line as a function of its arguments, its environment and its surroundings. -/
namespace Concatenative

/-- What a run of the program leaves behind. -/
structure Exit where
  code : Nat
  output : String
  errors : String

namespace CommandLine

/-- Shows a failure. -/
def errorLine (e : Failure) : String := "Error: " ++ e.text ++ "\n"

/-- Shows the value of a program, if that is asked for. -/
def resultLine (s : Settings) (v : Value) : String :=
  if s.showResult then v.inspect ++ "\n" else ""

/-- What is to be run, with which settings. -/
def prepare (e : Environment) (arguments : List String) : Except Failure (Settings × String) := do
  let settings ← (Settings.ofEnvironment e).withArguments arguments
  return (settings, ← settings.requireSourceFile)

/-- There is no exit if the program waits for itself. -/
def run (e : Environment) (arguments : List String) (w : World) : Option Exit :=
  match prepare e arguments with
  | .error failure => some ⟨1, "", errorLine failure⟩
  | .ok (settings, file) =>
    match (Session.start settings.library w).runFile file with
    | (some (.ok v), s) => some ⟨0, s.output ++ resultLine settings v, ""⟩
    | (some (.error failure), s) => some ⟨1, s.output, errorLine failure⟩
    | (none, _) => none

end CommandLine

end Concatenative
