import Concatenative.Decimal.Positional
import Concatenative.Failure
import Concatenative.Text.Blank
import Concatenative.Token

/-! Single lexemes. `ignored` measures the blanks and comments in front of a lexeme, `lexeme` reads
the one that starts a text. Both look at characters only and know nothing of places. -/
namespace Concatenative

/-- The characters that were read and what they denote, or why they denote nothing. -/
structure Lexeme where
  taken : List Char
  kind : Except Cause TokenKind

/-- How many characters of blanks and `//` comments stand in front. A comment ends before the next
line feed; `comment` says that the text starts inside one. -/
def ignored (comment : Bool) : List Char → Nat
  | [] => 0
  | c :: rest =>
    if comment then ignored (c != '\n') rest + 1
    else if Text.isBlank c then ignored false rest + 1
    else if c = '/' && rest.head? = some '/' then ignored true rest + 1
    else 0

namespace Lexeme

def isNameStart (c : Char) : Bool := c.isAlpha || c = '_'

def isNameChar (c : Char) : Bool := c.isAlphanum || c = '_'

/-- Visible ASCII characters other than letters and digits. -/
def isPunctuation (c : Char) : Bool := '!' ≤ c && c ≤ '~' && !c.isAlphanum

/-! ## Numbers -/

/-- The parts of a number as they are written. -/
structure Numeral where
  sign : List Char
  whole : List Char
  /-- With its point; empty when there is none. -/
  fraction : List Char
  /-- With its mark and sign; empty when there is none. -/
  exponent : List Char

namespace Numeral

def fractionOf : List Char → List Char
  | '.' :: d :: rest => if d.isDigit then '.' :: (d :: rest).takeWhile Char.isDigit else []
  | _ => []

/-- An exponent starts at `e` or `E` with a digit or a sign behind it. -/
def exponentOf : List Char → List Char
  | mark :: next :: rest =>
    if mark = 'e' || mark = 'E' then
      if next = '-' || next = '+' then mark :: next :: rest.takeWhile Char.isDigit
      else if next.isDigit then mark :: (next :: rest).takeWhile Char.isDigit
      else []
    else []
  | _ => []

/-- The longest numeral that starts the text. -/
def ofChars (s : List Char) : Numeral :=
  let sign := if s.head? = some '-' then ['-'] else []
  let s := s.drop sign.length
  let whole := s.takeWhile Char.isDigit
  let s := s.drop whole.length
  let fraction := fractionOf s
  let s := s.drop fraction.length
  { sign, whole, fraction, exponent := exponentOf s }

def chars (n : Numeral) : List Char := n.sign ++ n.whole ++ n.fraction ++ n.exponent

def text (n : Numeral) : String := String.ofList n.chars

def isFloat (n : Numeral) : Bool := !n.fraction.isEmpty || !n.exponent.isEmpty

/-- The mark, or the mark and a sign, with no digits behind. -/
def lacksExponentDigits (n : Numeral) : Bool :=
  !n.exponent.isEmpty && !n.exponent.any Char.isDigit

def intValue (n : Numeral) : Int :=
  let magnitude : Int := Decimal.digitsValue n.whole
  if n.sign.isEmpty then magnitude else -magnitude

def exponentValue (n : Numeral) : Int :=
  let magnitude : Int := Decimal.digitsValue (n.exponent.filter Char.isDigit)
  if n.exponent.contains '-' then -magnitude else magnitude

def floatValue (n : Numeral) : Float :=
  let places := n.fraction.drop 1
  let magnitude :=
    Decimal.nearest (Decimal.digitsValue (n.whole ++ places)) (n.exponentValue - places.length)
  if n.sign.isEmpty then magnitude else -magnitude

/-- What a numeral denotes when `next` is the character behind it. -/
def denote (n : Numeral) (next : Option Char) : Except Cause TokenKind :=
  if n.lacksExponentDigits then .error (.malformedExponent n.text)
  else if next.any fun c => isNameChar c || (c = '.' && n.isFloat) then
    .error (.malformedNumber n.text)
  else if n.isFloat then .ok (.float n.floatValue)
  else if Int64.minValue.toInt ≤ n.intValue ∧ n.intValue ≤ Int64.maxValue.toInt then
    .ok (.int (.ofInt n.intValue))
  else .error (.integerRange n.text)

end Numeral

def number (s : List Char) : Lexeme :=
  let n := Numeral.ofChars s
  ⟨n.chars, n.denote s[n.chars.length]?⟩

/-! ## Strings -/

def hexValue (digits : List Char) : Nat :=
  digits.foldl (fun n c =>
    16 * n + (if c.isDigit then c.toNat - '0'.toNat else c.toLower.toNat - 'a'.toNat + 10)) 0

def isHexDigit (c : Char) : Bool :=
  c.isDigit || ('a' ≤ c && c ≤ 'f') || ('A' ≤ c && c ≤ 'F')

/-- The characters that a backslash and one more character stand for. -/
def simpleEscape? : Char → Option Char
  | '"' => some '"'
  | '\\' => some '\\'
  | '/' => some '/'
  | 'b' => some '\x08'
  | 'f' => some '\x0c'
  | 'n' => some '\n'
  | 'r' => some '\r'
  | 't' => some '\t'
  | _ => none

/-- Reads what follows a backslash: the characters taken and the one they stand for. A character
that does not fit is taken too. -/
def escape : List Char → List Char × Except Cause Char
  | [] => ([], .error .unterminatedString)
  | 'u' :: rest =>
    let digits := (rest.take 4).takeWhile isHexDigit
    if digits.length < 4 then ('u' :: rest.take (digits.length + 1), .error .hexDigits)
    else if h : (hexValue digits).isValidChar then
      ('u' :: digits, .ok (Char.ofNatAux (hexValue digits) h))
    else ('u' :: digits, .error (.codePoint (String.ofList digits)))
  | c :: _ =>
    match simpleEscape? c with
    | some x => ([c], .ok x)
    | none => ([c], .error (.unknownEscape c))

/-- Reads what follows an opening quote, closing quote included. -/
def stringRest (s : List Char) : List Char × Except Cause (List Char) :=
  match s with
  | [] => ([], .error .unterminatedString)
  | c :: rest =>
    if c = '"' then (['"'], .ok [])
    else if c = '\\' then
      match escape rest with
      | (taken, .error cause) => ('\\' :: taken, .error cause)
      | (taken, .ok x) =>
        let (more, result) := stringRest (rest.drop taken.length)
        ('\\' :: taken ++ more, result.map (x :: ·))
    else
      let (more, result) := stringRest rest
      (c :: more, result.map (c :: ·))
termination_by s.length
decreasing_by all_goals simp; try omega

/-! ## All lexemes -/

def name (s : List Char) : Lexeme :=
  let taken := s.takeWhile isNameChar
  ⟨taken, .ok <|
    match String.ofList taken with
    | "true" => .bool true
    | "false" => .bool false
    | "void" => .void
    | symbol => .symbol symbol⟩

def string (s : List Char) : Lexeme :=
  let (taken, result) := stringRest (s.drop 1)
  ⟨'"' :: taken, result.map fun text => .text (String.ofList text)⟩

def startsNumber : List Char → Bool
  | '-' :: c :: _ => c.isDigit
  | c :: _ => c.isDigit
  | [] => false

end Lexeme

/-- The lexeme that a text starts with, given its first character and the rest. A character that
starts none is not taken. -/
def lexeme (c : Char) (rest : List Char) : Lexeme :=
  let s := c :: rest
  if Lexeme.startsNumber s then Lexeme.number s
  else if c = '"' then Lexeme.string s
  else if Lexeme.isNameStart c then Lexeme.name s
  else match Operator.ofChar? c with
    | some o => ⟨[c], .ok (.operator o)⟩
    | none =>
      if Lexeme.isPunctuation c then ⟨[c], .ok (.unknown c)⟩
      else ⟨[], .error (.unexpectedCharacter c)⟩

end Concatenative
