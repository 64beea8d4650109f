import Concatenative.CommandLine

/-! The program: runs a file with the files and the output of the host. -/
namespace Concatenative.Main

/-- The reason of the host in the words of this library. -/
def readFault : IO.Error → ReadFault
  | .noFileOrDirectory _ _ _ => .notFound
  | .inappropriateType _ 20 _ => .notDirectory
  | .inappropriateType _ 21 _ => .isDirectory
  | .invalidArgument _ 36 _ => .nameTooLong
  | e => .other e.toString

/-- The one absolute path of a file. -/
def fileAt? (p : Path) : IO (Option Path) := do
  try
    let real ← IO.FS.realPath p.text
    match (← real.metadata).type with
    | .file => return some ⟨real.toString⟩
    | _ => return none
  catch _ => return none

def isDirectory (p : Path) : IO Bool := do
  try
    let real ← IO.FS.realPath p.text
    real.isDir
  catch _ => return false

def firstFile (index : Nat) : List Path → IO (Option Query.Found)
  | [] => return none
  | p :: rest => do
    match ← fileAt? p with
    | some path => return some ⟨index, path⟩
    | none => firstFile (index + 1) rest

def content (p : Path) : IO (Except ReadFault String) := do
  if p.text.toList.contains '\x00' then return .error .zeroByte
  try
    match String.fromUTF8? (← IO.FS.readBinFile p.text) with
    | some text => return .ok text
    | none => return .error .notUtf8
  catch e => return .error (readFault e)

def write (text : String) : IO (Except WriteFault Unit) := do
  try
    let output ← IO.getStdout
    output.putStr text
    output.flush
    return .ok ()
  catch e => return .error (.other e.toString)

/-- Answers for the surroundings of the program itself. -/
def answer : (q : Query) → IO q.Answer
  | .workingDirectory => return ⟨(← IO.currentDir).toString⟩
  | .firstFile candidates => firstFile 0 candidates
  | .content path => content path
  | .write text => write text
  | .word name input => return ({} : World).words name input

/-- Steps until no task can go on. -/
def drive (m : Machine) : Nat → IO Machine
  | 0 => return m
  | limit + 1 =>
    match m.step with
    | .next m => drive m limit
    | .asks q resume => do drive (resume (← answer q)) limit
    | .idle m => return m

def runJob (m : Machine) (job : Job) : IO (Option Outcome × Machine) := do
  let (task, m) := m.addTask none job
  let m ← drive m Session.stepLimit
  return (m.result? task, m)

def runFile (settings : LibrarySettings) (file : String) : IO (Option Outcome) := do
  let candidates := settings.candidates (← answer .workingDirectory) file
  match ← answer (.firstFile candidates) with
  | none => return some (.error (Cause.moduleNotFound file))
  | some found =>
    let machine := (Session.start settings {}).machine
    match ← runJob machine (.openModule Session.root found.path) with
    | (some (.ok program), machine) => return (← runJob machine (.force program none)).1
    | (failed, _) => return failed

def environment : IO Environment := do
  let program ← IO.appPath
  return {
    strict := ← IO.getEnv "GALL_STRICT"
    libraryPath := ← IO.getEnv "GALL_LIB_PATH"
    programDirectory := program.parent.map fun p => ⟨p.toString⟩ }

open CommandLine in
/-- Runs the program and gives its exit code. -/
def run (arguments : List String) : IO UInt32 := do
  let e ← environment
  for p in (Settings.ofEnvironment e).searchPaths do
    unless ← isDirectory p do IO.eprintln (Settings.warning p).text
  match prepare e arguments with
  | .error failure =>
    IO.eprint (errorLine failure)
    return 1
  | .ok (settings, file) =>
    match ← runFile settings.library file with
    | some (.ok v) =>
      IO.print (resultLine settings v)
      return 0
    | some (.error failure) =>
      IO.eprint (errorLine failure)
      return 1
    | none => return 1

end Concatenative.Main

def main (arguments : List String) : IO UInt32 := Concatenative.Main.run arguments
