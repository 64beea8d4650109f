import Concatenative.Machine

/-! Sessions: an interpreter with its root frame, its library and its surroundings, that runs one
program after the other. Whatever a program started runs to its end before the next one begins. -/
namespace Concatenative

structure Session where
  machine : Machine
  world : World

namespace Session

/-- The frame that all others hang under. -/
def root : FrameId := 0

/-- A root frame with all words. -/
def rootScope : Scope :=
  Word.all.foldl
    (fun s w => (s.declare root w.name (.settled (.callable (.host w)))).2)
    (Scope.addRoot {}).2

def start (settings : LibrarySettings) (world : World) : Session :=
  { machine := { scope := rootScope, library := { settings } }, world }

/-- More steps than a program takes that ends. -/
def stepLimit : Nat := 1000000000000000000

/-- Runs a job and all that it started. There is no outcome if the job waits for itself. -/
def runJob (s : Session) (job : Job) : Option Outcome × Session :=
  let (task, machine) := s.machine.addTask none job
  let (machine, world) := machine.runAll stepLimit s.world
  (machine.result? task, { machine, world })

def note (s : Session) (notes : List Note) : Session :=
  { s with machine := { s.machine with notes := notes.reverse ++ s.machine.notes } }

/-- What is noted when a program has ended. -/
def endNote : Outcome → Note
  | .ok v => ⟨.debug, "Program finished with " ++ v.inspect ++ "."⟩
  | .error e => ⟨.debug, "Program failed: " ++ e.text⟩

/-- Runs a program; `name` says what runs. -/
def runProgram (s : Session) (name : String) (program : Value) : Option Outcome × Session :=
  let s := s.note [⟨.info, "Running " ++ name ++ "."⟩]
  match s.runJob (.force program none) with
  | (some o, s) => (some o, s.note [endNote o])
  | (none, s) => (none, s)

/-- A closure over a new frame under the root. -/
def closure (s : Session) (body : Body) : Value × Session :=
  let m := s.machine
  let (frame, scope) := m.scope.addChild root none
  (.callable (.closure m.stamps body frame),
   { s with machine := { m with scope, stamps := m.stamps + 1 } })

/-- Builds and runs a text. -/
def runText (s : Session) (path text : String) : Option Outcome × Session :=
  let b := build s.machine.library.settings.strict path text
  let s := s.note b.notes
  match b.result with
  | .ok body =>
    let (program, s) := s.closure body
    s.runProgram path program
  | .error e => (some (.error e), s)

/-- The file that a reference means, seen from a directory or the working directory. -/
def resolve (s : Session) (reference : String) (directory : Option Path) :
    Except Failure Path × Session :=
  let files := s.world.files
  let first := directory.getD (Files.pathOf files.working)
  let candidates := s.machine.library.settings.candidates first reference
  let found := World.firstFile files 0 candidates
  let s := s.note ((Query.tried candidates found).map Path.tryNote)
  match found with
  | some found => (.ok found.path, s)
  | none => (.error (Cause.moduleNotFound reference), s)

/-- The module of a file as a closure. -/
def openModule (s : Session) (path : Path) : Option Outcome × Session :=
  s.runJob (.openModule root path)

/-- The body of the module of a file. -/
def load (s : Session) (path : Path) : Option (Except Failure Body) × Session :=
  match s.openModule path with
  | (some (.ok (.callable (.closure _ body _))), s) => (some (.ok body), s)
  | (some (.error e), s) => (some (.error e), s)
  | (_, s) => (none, s)

/-- Finds, builds and runs a file as a module. -/
def runFile (s : Session) (file : String) : Option Outcome × Session :=
  match s.resolve file none with
  | (.error e, s) => (some (.error e), s)
  | (.ok path, s) =>
    match s.openModule path with
    | (some (.ok program), s) => s.runProgram path.text program
    | failed => failed

def force (s : Session) (v : Value) (input : Option Value) : Option Outcome × Session :=
  s.runJob (.force v input)

def call (s : Session) (v : Value) (input : Option Value) : Option Outcome × Session :=
  match v.asCallable with
  | .ok c => s.runJob (.call c input)
  | .error e => (some (.error e), s)

/-- Binds a name in the root frame. -/
def declare (s : Session) (name : String) (v : Value) : Except Failure Unit × Session :=
  let (r, scope) := s.machine.scope.declare root name (.settled v)
  (r, { s with machine := { s.machine with scope } })

def isDeclared (s : Session) (name : String) : Bool := s.machine.scope.isDeclared root name

def isCached (s : Session) (path : Path) : Bool := s.machine.library.isCached path

def parseCount (s : Session) : Nat := s.machine.library.parseCount

/-- Notes in the order in which they were made. -/
def notes (s : Session) : List Note := s.machine.notes.reverse

def output (s : Session) : String := s.world.output

/-- Forgets notes and output. -/
def clear (s : Session) : Session :=
  { machine := { s.machine with notes := [] }, world := { s.world with written := [] } }

end Session

end Concatenative
