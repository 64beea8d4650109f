import Concatenative.Code
import Concatenative.Path
import Concatenative.Value

/-! The library of modules: the bodies that were built from files, kept by path. One task at a time
loads a module; the others that want it wait. When it is built all of them get it, when it can not
be built the next in line tries for itself. -/
namespace Concatenative

/-- How modules are found and built. -/
structure LibrarySettings where
  searchPaths : List Path := []
  strict : Bool := false

namespace LibrarySettings

/-- What module files are called at the end. -/
def moduleExtension : String := "gall"

/-- A path as it is, and with the extension of modules if it has none. -/
def spellings (p : Path) : List Path :=
  if p.extension?.isNone then [p, p.withExtension moduleExtension] else [p]

/-- The paths that a reference may mean, the first file among them being the module. -/
def candidates (s : LibrarySettings) (first : Path) (reference : String) : List Path :=
  (first :: s.searchPaths).flatMap fun base => spellings (base.join ⟨reference⟩)

end LibrarySettings

/-- What the library knows of one path. -/
structure Shelf where
  path : Path
  body : Option Body := none
  /-- The task that loads the module. -/
  loader : Option TaskId := none
  /-- Tasks that wait for the module, first in line first. -/
  waiting : List TaskId := []

structure Library where
  settings : LibrarySettings := {}
  shelves : List Shelf := []
  /-- How many files were read and given to the builder. -/
  parseCount : Nat := 0

namespace Library

def shelf? (l : Library) (p : Path) : Option Shelf := l.shelves.find? fun s => s.path.same p

def isCached (l : Library) (p : Path) : Bool := (l.shelf? p).any fun s => s.body.isSome

/-- Replaces the shelf of a path. -/
def update (l : Library) (p : Path) (f : Shelf → Shelf) : Library :=
  { l with shelves := l.shelves.map fun s => if s.path.same p then f s else s }

inductive Claim where
  | cached (body : Body)
  /-- The task is to load the module. -/
  | granted
  | wait

/-- A task wants a module, for the first time or after it was woken. -/
def claim (l : Library) (p : Path) (task : TaskId) : Library × Claim :=
  match l.shelf? p with
  | none => ({ l with shelves := { path := p, loader := some task } :: l.shelves }, .granted)
  | some s =>
    match s.body, s.loader with
    | some body, _ => (l, .cached body)
    | none, none => (l.update p ({ · with loader := some task }), .granted)
    | none, some loader =>
      if loader = task then (l, .granted)
      else (l.update p fun s => { s with waiting := s.waiting ++ [task] }, .wait)

/-- Keeps a body; all tasks that wait for it may go on. -/
def publish (l : Library) (p : Path) (body : Body) : Library × List TaskId :=
  (l.update p ({ · with body := some body, loader := none, waiting := [] }),
   ((l.shelf? p).map (·.waiting)).getD [])

/-- Gives up loading; the next in line may load. -/
def giveUp (l : Library) (p : Path) : Library × Option TaskId :=
  (l.update p fun s => { s with loader := s.waiting.head?, waiting := s.waiting.tail },
   (l.shelf? p).bind (·.waiting.head?))

def countParse (l : Library) : Library := { l with parseCount := l.parseCount + 1 }

end Library

end Concatenative
