import Concatenative.Source.Location
import Concatenative.Value.Kind
import Concatenative.Word

/-! Why something failed and where. A failure is a cause with the place it is blamed on, if one is
known yet; the wording of every cause is in `Cause.message`. -/
namespace Concatenative

/-- The classes that causes fall into. -/
inductive FailureKind where
  | lexical | parse | duplicateBinding | unboundName | emptyList | notCallable | arity
  | moduleResolution | typeMismatch | index | stackUnderflow | io | usage | internal
deriving DecidableEq

def FailureKind.text : FailureKind → String
  | lexical => "lexical error"
  | parse => "parse error"
  | duplicateBinding => "duplicate binding"
  | unboundName => "unbound name"
  | emptyList => "empty list"
  | notCallable => "not callable"
  | arity => "arity error"
  | moduleResolution => "module resolution error"
  | typeMismatch => "type mismatch"
  | index => "index error"
  | stackUnderflow => "stack underflow"
  | io => "I/O error"
  | usage => "usage error"
  | internal => "internal error"

/-- Why a file could not be read as text. -/
inductive ReadFault where
  | notFound | notDirectory | isDirectory | nameTooLong | zeroByte | notUtf8
  | other (text : String)
deriving DecidableEq

def ReadFault.text : ReadFault → String
  | notFound => "No such file or directory (os error 2)"
  | notDirectory => "Not a directory (os error 20)"
  | isDirectory => "Is a directory (os error 21)"
  | nameTooLong => "File name too long (os error 36)"
  | zeroByte => "file name contained an unexpected NUL byte"
  | notUtf8 => "stream did not contain valid UTF-8"
  | other text => text

/-- Why text could not be written. -/
inductive WriteFault where
  | closed | noFlush
  | other (text : String)
deriving DecidableEq

def WriteFault.text : WriteFault → String
  | closed => "sink closed"
  | noFlush => "can not flush"
  | other text => text

/-- Why a command line was refused. -/
inductive UsageFault where
  | missingDirectory | unknownOption (flag : String) | secondFile | noFile
deriving DecidableEq

def UsageFault.text : UsageFault → String
  | missingDirectory => "-I needs a directory."
  | unknownOption flag => "Unknown option " ++ flag ++ "."
  | secondFile => "Only one source file may be given."
  | noFile => "No source file given."

inductive Cause where
  -- reading text
  | malformedExponent (text : String)
  | malformedNumber (text : String)
  | integerRange (text : String)
  | hexDigits
  | codePoint (digits : String)
  | unknownEscape (c : Char)
  | unterminatedString
  | unexpectedCharacter (c : Char)
  -- building bodies
  | unknownToken (c : Char)
  | strayClose
  | missingClose
  -- names and the stack
  | alreadyDefined (name : String)
  | notDefined (name : String)
  | underflow
  -- values
  | expected (wanted found : ValueKind)
  | nameExpected (found : ValueKind)
  | referenceExpected (found : ValueKind)
  | notConcatenable (a b : ValueKind)
  | notAnIndex (found : ValueKind)
  | outOfRange (index : Int) (size : Nat)
  | notReducible (found : ValueKind)
  | notApplicable (shown : String) (kind : ValueKind)
  | emptyPop
  | emptyList
  | emptyGenerator
  -- words
  | numberExpected (word : Word) (found : ValueKind)
  | missingInput (word : Word)
  | oneOrTwo (word : Word)
  | pairExpected
  -- modules
  | moduleNotFound (reference : String)
  | moduleUnreadable (path : String) (fault : ReadFault)
  -- the surroundings
  | output (fault : WriteFault)
  | usage (fault : UsageFault)
  -- never raised by a program
  | noLibrary
  | noComputation
  /-- Reported by whoever embeds the language, with a text of its own. -/
  | reported (kind : FailureKind) (text : String)
deriving DecidableEq

namespace Cause

def kind : Cause → FailureKind
  | malformedExponent _ | malformedNumber _ | integerRange _ | hexDigits | codePoint _
  | unknownEscape _ | unterminatedString | unexpectedCharacter _ => .lexical
  | unknownToken _ | strayClose | missingClose => .parse
  | alreadyDefined _ => .duplicateBinding
  | notDefined _ => .unboundName
  | underflow => .stackUnderflow
  | expected _ _ | nameExpected _ | referenceExpected _ | notConcatenable _ _ | notAnIndex _
  | notReducible _ | numberExpected _ _ => .typeMismatch
  | outOfRange _ _ => .index
  | notApplicable _ _ => .notCallable
  | emptyPop | emptyList | emptyGenerator => .emptyList
  | missingInput _ | oneOrTwo _ | pairExpected => .arity
  | moduleNotFound _ | moduleUnreadable _ _ => .moduleResolution
  | output _ => .io
  | usage _ => .usage
  | noLibrary | noComputation => .internal
  | reported kind _ => kind

/-- The shape of a correct command line, shown under every complaint about one. -/
def usageLine : String := "Usage: gall [--strict] [--show-result] [-I path]... <file>"

def message : Cause → String
  | malformedExponent text => "Malformed exponent in " ++ text ++ "."
  | malformedNumber text => "Malformed number starting with " ++ text ++ "."
  | integerRange text => "Integer literal " ++ text ++ " out of range."
  | hexDigits => "Expected four hex digits after \\u."
  | codePoint digits => "Invalid code point \\u" ++ digits ++ "."
  | unknownEscape c => "Unknown escape sequence \\" ++ c.toString ++ "."
  | unterminatedString => "Unexpected end of file in string literal."
  | unexpectedCharacter c => "Unexpected character '" ++ c.toString ++ "'."
  | unknownToken c => "Unknown token '" ++ c.toString ++ "'."
  | strayClose => "Unexpected ) outside of any group."
  | missingClose => "Missing ) for this group."
  | alreadyDefined name => "Value for key " ++ name ++ " already defined."
  | notDefined name => "Value for key " ++ name ++ " not defined."
  | underflow => "Stack underflow."
  | expected wanted found => "Expected " ++ wanted.indefinite ++ ", found " ++ found.name ++ "."
  | nameExpected found => "Expected a name, found " ++ found.name ++ "."
  | referenceExpected found => "Module references must be strings, found " ++ found.name ++ "."
  | notConcatenable a b => "Can not concatenate " ++ a.name ++ " with " ++ b.name ++ "."
  | notAnIndex found =>
    "Lists are indexed by integers or booleans, not " ++ found.name ++ "."
  | outOfRange index size =>
    "Index " ++ toString index ++ " out of range for a list of " ++ toString size ++ " values."
  | notReducible found => "Can not reduce over " ++ found.name ++ "."
  | notApplicable shown kind =>
    "Value " ++ shown ++ " of type " ++ kind.name ++ " is not callable."
  | emptyPop => "Can not pop from an empty list."
  | emptyList => "Can not reduce an empty list without an initial value."
  | emptyGenerator => "Can not reduce an empty generator without an initial value."
  | numberExpected word found => word.name ++ " expects numbers, found " ++ found.name ++ "."
  | missingInput word => word.name ++ " must have an input."
  | oneOrTwo word => word.name ++ " may only have 1 or 2 inputs."
  | pairExpected => "eq expects a list of 2 values."
  | moduleNotFound reference => "Could not find module " ++ reference ++ "."
  | moduleUnreadable path fault =>
    "Could not read module " ++ path ++ ": " ++ fault.text ++ "."
  | output fault => "I/O error: " ++ fault.text
  | usage fault => fault.text ++ "\n" ++ usageLine
  | noLibrary => "Scope chain has no module loader."
  | noComputation => "Deferred value has no computation."
  | reported _ text => text

end Cause

structure Failure where
  cause : Cause
  location : Option Location := none
deriving DecidableEq

namespace Failure

def kind (e : Failure) : FailureKind := e.cause.kind

def message (e : Failure) : String := e.cause.message

/-- The message, after the place that is blamed if there is one. -/
def text (e : Failure) : String :=
  match e.location with
  | some l => l.text ++ ": " ++ e.message
  | none => e.message

/-- Blames `l` unless a place is blamed already. -/
def orAt (e : Failure) (l : Location) : Failure :=
  match e.location with
  | some _ => e
  | none => { e with location := some l }

end Failure

instance : Coe Cause Failure := ⟨fun cause => { cause }⟩

end Concatenative
