import Concatenative.Act

/-! Settings of a run, from the environment and from the command line. -/
namespace Concatenative

/-- What the environment says. -/
structure Environment where
  /-- Asks for strict building. -/
  strict : Option String := none
  /-- Search paths with colons between them. -/
  libraryPath : Option String := none
  /-- Where the program itself is, searched when there is no library path. -/
  programDirectory : Option Path := none

structure Settings where
  strict : Bool := false
  showResult : Bool := false
  searchPaths : List Path := []
  sourceFile : Option String := none

namespace Settings

/-- `1`, and `true` in any case, mean yes. -/
def isYes (s : String) : Bool := s = "1" || s.toLower = "true"

def ofEnvironment (e : Environment) : Settings :=
  { strict := e.strict.any isYes
    searchPaths := match e.libraryPath with
      | some paths => (paths.splitOn ":").map Path.mk
      | none => e.programDirectory.toList }

/-- What is noted about a search path that is no directory. -/
def warning (p : Path) : Note :=
  ⟨.warn, "Module search path " ++ p.text ++ " is not a directory."⟩

/-- A note for every search path that is no directory. -/
def warnings (s : Settings) (files : Files) : List Note :=
  (s.searchPaths.filter fun p => !files.isDirectory p).map warning

/-- Refuses a command line. -/
def refuse {α : Type} (fault : UsageFault) : Except Failure α := .error (Cause.usage fault)

/-- Reads arguments from left to right; `-I` takes the argument behind it, whatever that is. -/
def withArguments (s : Settings) : List String → Except Failure Settings
  | [] => .ok s
  | "--strict" :: rest => { s with strict := true }.withArguments rest
  | "--show-result" :: rest => { s with showResult := true }.withArguments rest
  | "-I" :: path :: rest =>
    { s with searchPaths := s.searchPaths ++ [Path.mk path] }.withArguments rest
  | ["-I"] => refuse .missingDirectory
  | argument :: rest =>
    if argument.startsWith "-" && argument != "-" then refuse (.unknownOption argument)
    else if s.sourceFile.isSome then refuse .secondFile
    else { s with sourceFile := some argument }.withArguments rest

def requireSourceFile (s : Settings) : Except Failure String :=
  match s.sourceFile with
  | some file => .ok file
  | none => refuse .noFile

def library (s : Settings) : LibrarySettings := { searchPaths := s.searchPaths, strict := s.strict }

end Settings

end Concatenative
