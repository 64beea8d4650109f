import Concatenative.Code
import Concatenative.Token.Lexer

/-! Bodies from tokens. A builder holds the group that is open and those around it, and takes one
token at a time, so it can be fed with a list of tokens or straight from a cursor. A lenient
builder skips punctuation that means nothing, ends at a `)` that closes no group and closes
what is left open; a strict one refuses all three. -/
namespace Concatenative

/-- A group that is being read. -/
structure Group where
  location : Location
  /-- Last instruction first. -/
  code : List Instruction

namespace Group

def push (g : Group) (i : Instruction) : Group := { g with code := i :: g.code }

def body (g : Group) : Body := .ofCode g.code.reverse g.location

/-- Closes `inner` inside `g`. -/
def pushGroup (g inner : Group) : Group := g.push ⟨inner.location, .group inner.body⟩

/-- Closes a group and all those around it, innermost first. -/
def closeAll (g : Group) : List Group → Body
  | [] => g.body
  | around :: outer => (around.pushGroup g).closeAll outer

end Group

/-- What came of building: the tokens that were skipped, and the body or why there is none. -/
structure Build where
  skipped : List Token
  result : Except Failure Body

structure Builder where
  strict : Bool
  group : Group
  /-- The groups around `group`, innermost first. -/
  outer : List Group := []
  /-- Last token first. -/
  skipped : List Token := []

namespace Builder

def start (strict : Bool) (location : Location) : Builder :=
  { strict, group := ⟨location, []⟩ }

inductive Progress where
  | more (b : Builder)
  | done (b : Build)

def done (b : Builder) (result : Except Failure Body) : Build := ⟨b.skipped.reverse, result⟩

def refuse (b : Builder) (cause : Cause) (location : Location) : Build :=
  b.done (.error ⟨cause, some location⟩)

def push (b : Builder) (location : Location) (op : Op) : Progress :=
  .more { b with group := b.group.push ⟨location, op⟩ }

def accept (b : Builder) (t : Token) : Progress :=
  match t.kind with
  | .int n => b.push t.location (.literal (.int n))
  | .float x => b.push t.location (.literal (.float x))
  | .text s => b.push t.location (.literal (.text s))
  | .bool v => b.push t.location (.literal (.bool v))
  | .void => b.push t.location (.literal .void)
  | .symbol name => b.push t.location (.literal (.text name))
  | .operator (.primitive p) => b.push t.location (.primitive p)
  | .operator .openGroup =>
    .more { b with group := ⟨t.location, []⟩, outer := b.group :: b.outer }
  | .operator .closeGroup =>
    match b.outer with
    | around :: outer => .more { b with group := around.pushGroup b.group, outer }
    | [] =>
      .done (if b.strict then b.refuse .strayClose t.location else b.done (.ok b.group.body))
  | .unknown c =>
    if b.strict then .done (b.refuse (.unknownToken c) t.location)
    else .more { b with skipped := t :: b.skipped }

/-- The end of the tokens. -/
def finish (b : Builder) : Build :=
  if b.strict && !b.outer.isEmpty then b.refuse .missingClose b.group.location
  else b.done (.ok (b.group.closeAll b.outer))

/-- Builds from tokens that were read before. -/
def ofTokens (b : Builder) : List Token → Build
  | [] => b.finish
  | t :: rest =>
    match b.accept t with
    | .more b => b.ofTokens rest
    | .done build => build

/-- Builds from tokens as they are read, and reads no further than the builder needs. -/
def ofCursor (b : Builder) (c : Cursor) : Build :=
  match _h : c.readToken with
  | (.ok (some t), d) =>
    match b.accept t with
    | .more b => b.ofCursor d
    | .done build => build
  | (.ok none, _) => b.finish
  | (.error e, _) => b.done (.error e)
termination_by c.rest.length
decreasing_by exact Cursor.rest_readToken_lt _h

end Builder

/-- The body of a whole text. -/
def build (strict : Bool) (path text : String) : Build :=
  (Builder.start strict (.start path)).ofCursor (.ofText path text)

/-- How a skipped token is reported. Only punctuation is ever skipped. -/
def Token.skipNotice (t : Token) : String :=
  let shown : String :=
    match t.kind with
    | .unknown '\\' => "\\\\"
    | .unknown c => if c.toNat = 39 then "\\'" else c.toString
    | _ => t.text
  "Skipping unknown token " ++ t.location.text ++ ": Unknown('" ++ shown ++ "') " ++ t.text ++ "."

end Concatenative
