import Concatenative.Source.Cursor
import Concatenative.Token.Lexeme

/-! Reading tokens off a cursor. A lexer may hold one token that was looked at and not yet taken;
its cursor stands behind that token. Main statement: a token that is read shortens the text that
is left, which is why reading all of them ends. -/
namespace Concatenative

namespace Cursor

/-- Moves to the next lexeme or the end. -/
def skipIgnored (c : Cursor) : Cursor := c.advance (ignored false c.rest)

/-- Reads the next token; `none` at the end. After a failure the cursor stands behind the last
character that was read. -/
def readToken (c : Cursor) : Except Failure (Option Token) × Cursor :=
  let c := c.skipIgnored
  match c.rest with
  | [] => (.ok none, c)
  | x :: rest =>
    let l := lexeme x rest
    let after := c.advance l.taken.length
    match l.kind with
    | .ok kind => (.ok (some ⟨kind, String.ofList l.taken, c.location⟩), after)
    | .error cause => (.error ⟨cause, some c.location⟩, after)

end Cursor

private theorem number_taken {c : Char} {rest : List Char}
    (h : Lexeme.startsNumber (c :: rest) = true) : (Lexeme.number (c :: rest)).taken ≠ [] := by
  simp only [Lexeme.number, Lexeme.Numeral.chars, Lexeme.Numeral.ofChars, List.head?_cons]
  by_cases hc : c = '-'
  · simp [hc]
  · have hd : c.isDigit = true := by
      unfold Lexeme.startsNumber at h
      split at h <;> simp_all
    simp [hc, hd]

theorem lexeme_taken {c : Char} {rest : List Char} {kind : TokenKind}
    (h : (lexeme c rest).kind = .ok kind) : (lexeme c rest).taken ≠ [] := by
  by_cases hn : Lexeme.startsNumber (c :: rest) = true
  · simpa [lexeme, hn] using number_taken hn
  by_cases hq : c = '"'
  · subst hq; simp [lexeme, hn, Lexeme.string]
  by_cases hs : Lexeme.isNameStart c = true
  · have : Lexeme.isNameChar c = true := by
      simp only [Lexeme.isNameStart, Lexeme.isNameChar, Char.isAlphanum, Bool.or_eq_true] at hs ⊢
      exact hs.imp_left .inl
    simp [lexeme, hn, hq, hs, Lexeme.name, this]
  cases ho : Operator.ofChar? c with
  | some o => simp [lexeme, hn, hq, hs, ho]
  | none =>
    by_cases hp : Lexeme.isPunctuation c = true <;> simp_all [lexeme]

theorem Cursor.rest_readToken_lt {c d : Cursor} {t : Token}
    (h : c.readToken = (.ok (some t), d)) : d.rest.length < c.rest.length := by
  unfold Cursor.readToken at h
  have hs : c.skipIgnored.rest.length ≤ c.rest.length := by
    simp [Cursor.skipIgnored, Cursor.rest_advance]
  generalize c.skipIgnored = b at h hs
  dsimp only at h
  split at h
  · simp at h
  · rename_i x rest hr
    split at h
    · rename_i kind hk
      have := List.length_pos_iff.mpr (lexeme_taken hk)
      simp only [Prod.mk.injEq] at h
      rw [← h.2, Cursor.rest_advance, List.length_drop]
      have : 0 < b.rest.length := by simp [hr]
      omega
    · simp at h

structure Lexer where
  cursor : Cursor
  peeked : Option Token := none

namespace Lexer

def ofText (path text : String) : Lexer := { cursor := .ofText path text }

def reset (l : Lexer) : Lexer := { cursor := l.cursor.reset }

/-- Takes the next token. -/
def next (l : Lexer) : Except Failure (Option Token) × Lexer :=
  match l.peeked with
  | some t => (.ok (some t), { cursor := l.cursor })
  | none =>
    let (answer, cursor) := l.cursor.readToken
    (answer, { cursor })

/-- Looks at the next token and keeps it for `next`. -/
def peek (l : Lexer) : Except Failure (Option Token) × Lexer :=
  match l.peeked with
  | some t => (.ok (some t), l)
  | none =>
    match l.cursor.readToken with
    | (.ok found, cursor) => (.ok found, { cursor, peeked := found })
    | (.error e, cursor) => (.error e, { cursor })

end Lexer

/-- The tokens up to the end or the first failure, and that failure. -/
def Cursor.tokens (c : Cursor) : List Token × Option Failure :=
  match _h : c.readToken with
  | (.ok (some t), d) =>
    let (more, e) := d.tokens
    (t :: more, e)
  | (.ok none, _) => ([], none)
  | (.error e, _) => ([], some e)
termination_by c.rest.length
decreasing_by exact Cursor.rest_readToken_lt _h

namespace Cursor

variable {c d : Cursor}

theorem tokens_token {t : Token} (h : c.readToken = (.ok (some t), d)) :
    c.tokens = (t :: d.tokens.1, d.tokens.2) := by
  rw [Cursor.tokens]
  split
  · next t' d' h' =>
    rw [h] at h'
    cases h'
    rfl
  · next h' => rw [h] at h'; cases h'
  · next h' => rw [h] at h'; cases h'

theorem tokens_end (h : c.readToken = (.ok none, d)) : c.tokens = ([], none) := by
  rw [Cursor.tokens]
  split
  · next h' => rw [h] at h'; cases h'
  · rfl
  · next h' => rw [h] at h'; cases h'

theorem tokens_failure {e : Failure} (h : c.readToken = (.error e, d)) : c.tokens = ([], some e) := by
  rw [Cursor.tokens]
  split
  · next h' => rw [h] at h'; cases h'
  · next h' => rw [h] at h'; cases h'
  · next h' =>
    rw [h] at h'
    cases h'
    rfl

end Cursor

/-- All tokens of a text. -/
def tokenize (path text : String) : Except Failure (List Token) :=
  match (Cursor.ofText path text).tokens with
  | (tokens, none) => .ok tokens
  | (_, some e) => .error e

theorem tokenize_eq_ok_iff {path text : String} {ts : List Token} :
    tokenize path text = .ok ts ↔ (Cursor.ofText path text).tokens = (ts, none) := by
  unfold tokenize
  rcases (Cursor.ofText path text).tokens with ⟨ts', _ | e⟩ <;> simp

end Concatenative
