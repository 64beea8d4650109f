/-! Paths as text, with the parts that their text has. Slashes in a row count as one, a `.` counts
only in front of a relative path, and a trailing slash changes nothing; `..` is kept as it is. Two
paths are the same if they have the same components, however they are spelled. -/
namespace Concatenative

structure Path where
  text : String
deriving DecidableEq

inductive Component where
  | root
  | here
  | up
  | name (s : String)
deriving DecidableEq

namespace Path

/-- The texts between the slashes; one more than there are slashes. -/
def segmentsOf : List Char → List (List Char)
  | [] => [[]]
  | c :: rest =>
    if c = '/' then [] :: segmentsOf rest
    else match segmentsOf rest with
      | [] => [[c]]
      | s :: more => (c :: s) :: more

def segments (p : Path) : List String := (segmentsOf p.text.toList).map String.ofList

def ofSegments (segments : List String) : Path := ⟨"/".intercalate segments⟩

def isAbsolute (p : Path) : Bool := p.text.toList.head? = some '/'

/-- A segment past the first; nothing and `.` are no component there. -/
def componentOf? (s : String) : Option Component :=
  if s = "" ∨ s = "." then none else if s = ".." then some .up else some (.name s)

def components (p : Path) : List Component :=
  match p.segments with
  | [] => []
  | first :: rest =>
    let start := if p.isAbsolute then some .root else if first = "." then some .here
      else componentOf? first
    start.toList ++ rest.filterMap componentOf?

/-- The same file as far as the text tells. -/
def same (p q : Path) : Bool := p.components = q.components

/-- Cuts segments that are no component off the end. -/
def trimEnd (segments : List String) : List String :=
  (segments.reverse.dropWhile fun s => (componentOf? s).isNone).reverse

/-- The path without its last component; a root and an empty path have none. -/
def parent? (p : Path) : Option Path :=
  match p.segments with
  | [] => none
  | first :: rest =>
    match trimEnd rest with
    | [] => if first = "" then none else some ⟨""⟩
    | found =>
      match trimEnd found.dropLast with
      | [] => some (if first = "" then ⟨"/"⟩ else ⟨first⟩)
      | kept => some (ofSegments (first :: kept))

/-- The last component, if it is a name. -/
def fileName? (p : Path) : Option String :=
  match p.components.getLast? with
  | some (.name s) => some s
  | _ => none

/-- A name as the part before its last dot and the part behind it. A dot in front divides
nothing. -/
def divide (name : String) : String × Option String :=
  let chars := name.toList
  let behind := (chars.reverse.takeWhile (· != '.')).reverse
  let before := chars.take (chars.length - behind.length - 1)
  if behind.length = chars.length ∨ before = [] then (name, none)
  else (String.ofList before, some (String.ofList behind))

def extension? (p : Path) : Option String := p.fileName?.bind fun name => (divide name).2

/-- Puts an extension in place of the one that is there. A path without a file name stays. -/
def withExtension (p : Path) (extension : String) : Path :=
  match p.fileName? with
  | none => p
  | some name =>
    let kept := trimEnd p.segments
    ofSegments (kept.dropLast ++ [(divide name).1 ++ "." ++ extension])

/-- `q` seen from `p`; an absolute `q` stays as it is. -/
def join (p q : Path) : Path :=
  if q.isAbsolute then q
  else if p.text.isEmpty || p.text.toList.getLast? = some '/' then ⟨p.text ++ q.text⟩
  else ⟨p.text ++ "/" ++ q.text⟩

end Path

end Concatenative
