import Concatenative.Failure
import Concatenative.Path

/-! A tree of files and directories without links, and a working directory in it. Names are found
as the file system of the host finds them: every step of a path must be taken from a directory that
is there, also a step back or a step in place. -/
namespace Concatenative

inductive Node where
  | file (bytes : ByteArray)
  | directory

structure Files where
  /-- Where each file is, from the top of the tree. -/
  files : List (List String × ByteArray) := []
  /-- Every directory but the top. -/
  directories : List (List String) := []
  working : List String := []

namespace Files

def node? (t : Files) (place : List String) : Option Node :=
  match t.files.lookup place with
  | some bytes => some (.file bytes)
  | none => if place = [] || t.directories.contains place then some .directory else none

/-- Makes a directory and those it stands in. -/
def addDirectory (t : Files) (place : List String) : Files :=
  let around := (List.range place.length).map fun n => place.take (n + 1)
  { t with directories := t.directories ++ around.filter fun p => !t.directories.contains p }

def write (t : Files) (place : List String) (bytes : ByteArray) : Files :=
  let t := t.addDirectory place.dropLast
  { t with files := (place, bytes) :: t.files.filter (·.1 != place) }

def remove (t : Files) (place : List String) : Files :=
  { t with files := t.files.filter (·.1 != place) }

/-- The most bytes that a name and a whole path may have. -/
def nameLimit : Nat := 255
def pathLimit : Nat := 4095

/-- Takes one step of a path from a place that is there. -/
def step (t : Files) (place : List String) (segment : String) : Except ReadFault (List String) :=
  match t.node? place with
  | some .directory =>
    if segment = "" ∨ segment = "." then .ok place
    else if segment = ".." then .ok place.dropLast
    else if segment.utf8ByteSize > nameLimit then .error .nameTooLong
    else
      let next := place ++ [segment]
      if (t.node? next).isSome then .ok next else .error .notFound
  | some (.file _) => .error .notDirectory
  | none => .error .notFound

/-- The place that a path names. -/
def find (t : Files) (p : Path) : Except ReadFault (List String) :=
  if p.text.toList.contains '\x00' then .error .zeroByte
  else if p.text.isEmpty then .error .notFound
  else if p.text.utf8ByteSize > pathLimit then .error .nameTooLong
  else p.segments.foldlM t.step (if p.isAbsolute then [] else t.working)

def pathOf (place : List String) : Path := ⟨"/" ++ "/".intercalate place⟩

/-- The one absolute path of a file, free of detours. -/
def fileAt? (t : Files) (p : Path) : Option Path :=
  match t.find p with
  | .ok place =>
    match t.node? place with
    | some (.file _) => some (pathOf place)
    | _ => none
  | .error _ => none

def isDirectory (t : Files) (p : Path) : Bool :=
  match t.find p with
  | .ok place => match t.node? place with
    | some .directory => true
    | _ => false
  | .error _ => false

def read (t : Files) (p : Path) : Except ReadFault String := do
  match t.node? (← t.find p) with
  | some (.file bytes) =>
    match String.fromUTF8? bytes with
    | some text => return text
    | none => throw .notUtf8
  | some .directory => throw .isDirectory
  | none => throw .notFound

end Files

end Concatenative
