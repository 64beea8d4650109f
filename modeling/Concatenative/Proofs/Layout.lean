import Concatenative.Token.Lexer

/-! How tokens lie in a text. Between the tokens are gaps of blanks and comments and nothing else, and
each token stands where the characters in front of it say. Main statement: a text is what its tokens
read and the gaps around them, up to its end or to a lexeme that can not be read, and every location that
the lexer gives is the place of the character there. -/
namespace Concatenative

/-! ## Places -/

/-- The place behind characters: one line more than they have line feeds, one column more than there
are characters behind the last of them. -/
def Location.behind (path : String) (before : List Char) : Location :=
  ⟨path, before.count '\n' + 1, (before.reverse.takeWhile (· != '\n')).length + 1⟩

theorem Location.after_behind (path : String) (before : List Char) (c : Char) :
    (behind path before).after c = behind path (before ++ [c]) := by
  by_cases hc : c = '\n'
  · simp [behind, after, hc]
  · simp [behind, after, hc]

namespace Cursor

variable {c d : Cursor} {path : String}

/-- The cursor is where the characters that were read say. -/
def Placed (path : String) (c : Cursor) : Prop := c.location = .behind path c.read.reverse

theorem placed_ofText (path text : String) : (ofText path text).Placed path := rfl

theorem Placed.advance (h : c.Placed path) (n : Nat) : (c.advance n).Placed path := by
  induction n generalizing c with
  | zero => exact h
  | succ n ih =>
    obtain ⟨read, rest, l⟩ := c
    cases rest with
    | nil => exact h
    | cons x rest =>
      apply ih
      have hl : l = .behind path read.reverse := h
      simp [Placed, hl, Location.after_behind]

theorem read_advance (c : Cursor) (n : Nat) :
    (c.advance n).read.reverse = c.read.reverse ++ c.rest.take n := by
  induction n generalizing c with
  | zero => simp [advance]
  | succ n ih =>
    obtain ⟨read, rest, l⟩ := c
    cases rest with
    | nil => simp [advance]
    | cons x rest => simp [advance, ih]

end Cursor

/-! ## Gaps -/

/-- Blanks and comments with `after` behind them. A comment ends at a line feed, which it does not
hold, or where the text ends. -/
inductive Gap (after : List Char) : List Char → Prop
  | nil : Gap after []
  | blank {c : Char} {gap : List Char} : Text.isBlank c = true → Gap after gap → Gap after (c :: gap)
  | comment {text gap : List Char} : (∀ c ∈ text, c ≠ '\n') → (∀ c ∈ (gap ++ after).head?, c = '\n') →
      Gap after gap → Gap after ('/' :: '/' :: (text ++ gap))

/-- Neither a blank nor a comment starts here, and the text does not end. -/
def StartsLexeme (s : List Char) : Prop :=
  ∃ c rest, s = c :: rest ∧ Text.isBlank c = false ∧ ¬ (c = '/' ∧ rest.head? = some '/')

theorem startsLexeme_cons {c : Char} {rest : List Char} : StartsLexeme (c :: rest) ↔
    Text.isBlank c = false ∧ ¬ (c = '/' ∧ rest.head? = some '/') := by
  constructor
  · rintro ⟨_, _, he, hstarts⟩
    cases he
    exact hstarts
  · exact fun hstarts => ⟨c, rest, rfl, hstarts⟩

/-- What is left of a comment and the gap behind it. -/
def CommentRest (after s : List Char) : Prop :=
  ∃ text gap, s = text ++ gap ∧ (∀ c ∈ text, c ≠ '\n') ∧ (∀ c ∈ (gap ++ after).head?, c = '\n') ∧
    Gap after gap

section

variable {after s : List Char} {c : Char}

theorem Gap.commentRest (h : Gap after s) : CommentRest after ('\n' :: s) :=
  ⟨[], '\n' :: s, rfl, by simp, by simp, .blank (by decide) h⟩

theorem CommentRest.cons (h : CommentRest after s) (hc : c ≠ '\n') : CommentRest after (c :: s) := by
  obtain ⟨text, gap, rfl, ht, he, hg⟩ := h
  refine ⟨c :: text, gap, rfl, ?_, he, hg⟩
  simpa [hc] using ht

theorem CommentRest.gap (h : CommentRest after ('/' :: s)) : Gap after ('/' :: '/' :: s) := by
  obtain ⟨text, gap, hs, ht, he, hg⟩ := h
  cases text with
  | nil =>
    rw [List.nil_append] at hs
    subst hs
    simp at he
  | cons x text =>
    simp only [List.cons_append, List.cons.injEq] at hs
    rw [hs.2]
    exact .comment (fun c hc => ht c (List.mem_cons_of_mem _ hc)) he hg

end

/-- What is ignored is a gap; inside a comment it is first the rest of the comment. -/
theorem gap_ignored (s : List Char) :
    Gap (s.drop (ignored false s)) (s.take (ignored false s)) ∧
      CommentRest (s.drop (ignored true s)) (s.take (ignored true s)) := by
  induction s with
  | nil => exact ⟨.nil, [], [], by simp [Gap.nil]⟩
  | cons c rest ih =>
    constructor
    · by_cases hb : Text.isBlank c = true
      · simpa [ignored, hb] using Gap.blank hb ih.1
      by_cases hs : c = '/' ∧ rest.head? = some '/'
      · obtain ⟨rfl, hr⟩ := hs
        obtain ⟨rest, rfl⟩ := List.head?_eq_some_iff.1 hr
        have hrest := ih.2
        simp only [ignored, if_true, List.take_succ_cons, List.drop_succ_cons] at hrest
        simpa [ignored, hb] using hrest.gap
      · simpa [ignored, hb, hs] using Gap.nil
    · by_cases hl : c = '\n'
      · simpa [ignored, hl] using ih.1.commentRest
      · have hc : (c != '\n') = true := by simpa using hl
        simpa [ignored, hc] using ih.2.cons hl

/-- Nothing more could be ignored. -/
theorem startsLexeme_drop_ignored {s : List Char} (comment : Bool)
    (h : s.drop (ignored comment s) ≠ []) : StartsLexeme (s.drop (ignored comment s)) := by
  fun_induction ignored comment s with
  | case1 comment => simp at h
  | case2 c rest ih => exact ih h
  | case3 comment c rest hc hb ih => exact ih h
  | case4 comment c rest hc hb hs ih => exact ih h
  | case5 comment c rest hc hb hs => exact ⟨c, rest, rfl, by simpa using hb, by simpa using hs⟩

/-! ## Lexemes -/

/-- Two parts that are read one after the other are the start of a text. -/
theorem append_prefix_of_drop {a b s : List Char} (ha : a <+: s) (hb : b <+: s.drop a.length) :
    a ++ b <+: s := by
  obtain ⟨rest, rfl⟩ := ha
  rw [List.drop_left] at hb
  exact (List.prefix_append_right_inj a).2 hb

namespace Lexeme

theorem fractionOf_isPrefix (s : List Char) : Numeral.fractionOf s <+: s := by
  unfold Numeral.fractionOf
  split
  · split
    · exact (List.prefix_cons_inj _).2 (List.takeWhile_prefix _)
    · exact List.nil_prefix
  · exact List.nil_prefix

theorem exponentOf_isPrefix (s : List Char) : Numeral.exponentOf s <+: s := by
  unfold Numeral.exponentOf
  split
  · split
    · split
      · exact (List.prefix_cons_inj _).2 ((List.prefix_cons_inj _).2 (List.takeWhile_prefix _))
      · split
        · exact (List.prefix_cons_inj _).2 (List.takeWhile_prefix _)
        · exact List.nil_prefix
    · exact List.nil_prefix
  · exact List.nil_prefix

theorem numeral_isPrefix (s : List Char) : (Numeral.ofChars s).chars <+: s := by
  have hsign : (Numeral.ofChars s).sign <+: s := by
    cases s with
    | nil => simp [Numeral.ofChars]
    | cons c rest => by_cases hc : c = '-' <;> simp [Numeral.ofChars, hc]
  have hwhole := append_prefix_of_drop hsign (List.takeWhile_prefix Char.isDigit)
  have hfraction := append_prefix_of_drop hwhole (fractionOf_isPrefix _)
  have hexponent := append_prefix_of_drop hfraction (exponentOf_isPrefix _)
  simpa [Numeral.chars, Numeral.ofChars, List.drop_drop, Nat.add_assoc] using hexponent

theorem escape_isPrefix (s : List Char) : (escape s).1 <+: s := by
  unfold escape
  split
  · exact List.nil_prefix
  · next rest =>
    have hd : (rest.take 4).takeWhile isHexDigit <+: rest :=
      (List.takeWhile_prefix _).trans (List.take_prefix 4 rest)
    by_cases hlen : ((rest.take 4).takeWhile isHexDigit).length < 4
    · rw [if_pos hlen]
      exact (List.prefix_cons_inj _).2 (List.take_prefix _ rest)
    · rw [if_neg hlen, apply_dite Prod.fst, dite_eq_ite, ite_self]
      exact (List.prefix_cons_inj _).2 hd
  · split
    · exact (List.prefix_cons_inj _).2 List.nil_prefix
    · exact (List.prefix_cons_inj _).2 List.nil_prefix

theorem stringRest_isPrefix (s : List Char) : (stringRest s).1 <+: s := by
  fun_induction stringRest s with
  | case1 => exact List.nil_prefix
  | case2 rest => exact (List.prefix_cons_inj _).2 List.nil_prefix
  | case3 rest taken cause he =>
    have hp := escape_isPrefix rest
    rw [he] at hp
    exact (List.prefix_cons_inj _).2 hp
  | case4 rest taken x he more result hr _ ih =>
    have hp := escape_isPrefix rest
    rw [he] at hp
    rw [hr] at ih
    exact (List.prefix_cons_inj _).2 (append_prefix_of_drop hp ih)
  | case5 c rest _ _ more result hr ih =>
    rw [hr] at ih
    exact (List.prefix_cons_inj _).2 ih

end Lexeme

/-- A lexeme is the start of the text. -/
theorem taken_isPrefix (c : Char) (rest : List Char) : (lexeme c rest).taken <+: c :: rest := by
  unfold lexeme
  dsimp only
  split
  · exact Lexeme.numeral_isPrefix _
  split
  · next hq =>
    subst hq
    exact (List.prefix_cons_inj _).2 (Lexeme.stringRest_isPrefix _)
  split
  · exact List.takeWhile_prefix _
  split
  · exact (List.prefix_cons_inj _).2 List.nil_prefix
  split
  · exact (List.prefix_cons_inj _).2 List.nil_prefix
  · exact List.nil_prefix

/-! ## Tokens in a text -/

/-- A token with the gap in front of it. -/
structure Piece where
  gap : List Char
  token : Token

def Piece.chars (p : Piece) : List Char := p.gap ++ p.token.text.toList

/-- The text that pieces make. -/
def joined (ps : List Piece) : List Char := ps.flatMap Piece.chars

/-- How a piece lies between what is before it and what is behind it. -/
structure Piece.Lies (path : String) (before after : List Char) (p : Piece) : Prop where
  gap : Gap (p.token.text.toList ++ after) p.gap
  token : p.token.text ≠ ""
  starts : StartsLexeme (p.token.text.toList ++ after)
  location : p.token.location = .behind path (before ++ p.gap)

/-- How pieces with a last gap lie between what is before them and what is behind them. -/
structure Layout (path : String) (before after : List Char) (ps : List Piece) (last : List Char) :
    Prop where
  pieces : ∀ front p back, ps = front ++ p :: back →
    p.Lies path (before ++ joined front) (joined back ++ last ++ after)
  last : Gap after last

/-- What is behind the last gap: the end of the text, or the lexeme that can not be read. -/
def Stopped (path : String) (before after : List Char) : Option Failure → Prop
  | none => after = []
  | some e => ∃ x rest, after = x :: rest ∧ StartsLexeme after ∧
    (lexeme x rest).kind = .error e.cause ∧ e.location = some (.behind path before)

namespace Layout

variable {path : String} {before after last : List Char} {p : Piece} {ps : List Piece}

theorem nil (h : Gap after last) : Layout path before after [] last := by
  refine ⟨fun front p back he => ?_, h⟩
  simp at he

theorem cons (hp : p.Lies path before (joined ps ++ last ++ after))
    (h : Layout path (before ++ p.chars) after ps last) : Layout path before after (p :: ps) last := by
  refine ⟨fun front q back he => ?_, h.last⟩
  cases front with
  | nil =>
    cases he
    simpa [joined] using hp
  | cons first front =>
    rw [List.cons_append, List.cons.injEq] at he
    obtain ⟨rfl, he⟩ := he
    simpa [joined] using h.pieces front q back he

end Layout

namespace Cursor

variable {c d : Cursor} {path : String}

theorem startsLexeme_skipIgnored (h : c.skipIgnored.rest ≠ []) : StartsLexeme c.skipIgnored.rest := by
  rw [skipIgnored, rest_advance] at h ⊢
  exact startsLexeme_drop_ignored false h

/-- What lies in front of the next lexeme, or of the end, is a gap. -/
theorem skipIgnored_spec (c : Cursor) (h : c.Placed path) :
    ∃ gap, c.rest = gap ++ c.skipIgnored.rest ∧ Gap c.skipIgnored.rest gap ∧
      c.skipIgnored.read.reverse = c.read.reverse ++ gap ∧ c.skipIgnored.Placed path ∧
      (c.skipIgnored.rest ≠ [] → StartsLexeme c.skipIgnored.rest) := by
  refine ⟨c.rest.take (ignored false c.rest), ?_, ?_, read_advance _ _, h.advance _,
    startsLexeme_skipIgnored⟩
  · rw [skipIgnored, rest_advance, List.take_append_drop]
  · rw [skipIgnored, rest_advance]
    exact (gap_ignored c.rest).1

/-- What can come of reading: the end, a token, or a failure. The cursor goes to the next lexeme and
then over what was taken of it. -/
theorem readToken_cases (c : Cursor) :
    c.skipIgnored.rest = [] ∧ c.readToken = (.ok none, c.skipIgnored) ∨
    ∃ x rest, c.skipIgnored.rest = x :: rest ∧
      c.readToken.2 = c.skipIgnored.advance (lexeme x rest).taken.length ∧
      ((∃ kind, (lexeme x rest).kind = .ok kind ∧ c.readToken.1 =
          .ok (some ⟨kind, String.ofList (lexeme x rest).taken, c.skipIgnored.location⟩)) ∨
        ∃ cause, (lexeme x rest).kind = .error cause ∧
          c.readToken.1 = .error ⟨cause, some c.skipIgnored.location⟩) := by
  cases hs : c.skipIgnored.rest with
  | nil =>
    refine .inl ⟨rfl, ?_⟩
    unfold readToken
    simp only [hs]
  | cons x rest =>
    refine .inr ⟨x, rest, rfl, ?_⟩
    unfold readToken
    simp only [hs]
    cases (lexeme x rest).kind with
    | ok kind => exact ⟨rfl, .inl ⟨kind, rfl, rfl⟩⟩
    | error cause => exact ⟨rfl, .inr ⟨cause, rfl, rfl⟩⟩

/-- Where a token was read, a gap and its text were. -/
theorem readToken_token {t : Token} (h : c.Placed path) (hr : c.readToken = (.ok (some t), d)) :
    ∃ gap, c.rest = gap ++ t.text.toList ++ d.rest ∧
      d.read.reverse = c.read.reverse ++ gap ++ t.text.toList ∧ d.Placed path ∧
      Piece.Lies path c.read.reverse d.rest ⟨gap, t⟩ := by
  obtain ⟨gap, hc, hg, hread, hplaced, hstarts⟩ := c.skipIgnored_spec h
  rcases c.readToken_cases with ⟨_, he⟩ | ⟨x, rest, hx, hd, ⟨kind, hk, ht⟩ | ⟨cause, _, he⟩⟩
  · cases hr.symm.trans he
  · rw [hr] at hd ht
    cases ht
    obtain rfl : d = _ := hd
    obtain ⟨behind, hb⟩ := taken_isPrefix x rest
    rw [hx, ← hb] at hc hg hstarts
    have hne : (lexeme x rest).taken ≠ [] := lexeme_taken hk
    refine ⟨gap, ?_, ?_, hplaced.advance _, ⟨?_, ?_, ?_, ?_⟩⟩
    · rw [hc, rest_advance, hx, ← hb]
      simp
    · rw [read_advance, hread, hx, ← hb]
      simp
    · simpa [rest_advance, hx, ← hb] using hg
    · simpa using hne
    · simpa [rest_advance, hx, ← hb] using hstarts (by simp [hne])
    · rw [← hread]
      exact hplaced
  · rw [hr] at he
    cases he

theorem readToken_end (h : c.Placed path) (hr : c.readToken = (.ok none, d)) : Gap [] c.rest := by
  obtain ⟨gap, hc, hg, -⟩ := c.skipIgnored_spec h
  rcases c.readToken_cases with ⟨hx, _⟩ | ⟨x, rest, _, _, ⟨kind, _, ht⟩ | ⟨cause, _, he⟩⟩
  · rw [hx] at hc hg
    rwa [hc, List.append_nil]
  · rw [hr] at ht
    cases ht
  · rw [hr] at he
    cases he

/-- Where a token could not be read, a gap was and then the start of the lexeme that is blamed. -/
theorem readToken_failure {e : Failure} (h : c.Placed path) (hr : c.readToken = (.error e, d)) :
    ∃ gap after, c.rest = gap ++ after ∧ Gap after gap ∧
      Stopped path (c.read.reverse ++ gap) after (some e) := by
  obtain ⟨gap, hc, hg, hread, hplaced, hstarts⟩ := c.skipIgnored_spec h
  rcases c.readToken_cases with ⟨_, he⟩ | ⟨x, rest, hx, _, ⟨kind, _, ht⟩ | ⟨cause, hk, he⟩⟩
  · cases hr.symm.trans he
  · rw [hr] at ht
    cases ht
  · rw [hr] at he
    cases he
    rw [hx] at hc hg hstarts
    refine ⟨gap, x :: rest, hc, hg, x, rest, rfl, hstarts (by simp), hk, ?_⟩
    rw [← hread]
    exact congrArg some hplaced

/-- The text from the cursor on is laid out as its tokens say, up to its end or to the lexeme that can
not be read. -/
theorem layout_tokens (c : Cursor) (h : c.Placed path) :
    ∃ ps last after, ps.map Piece.token = c.tokens.1 ∧ c.rest = joined ps ++ last ++ after ∧
      Layout path c.read.reverse after ps last ∧
      Stopped path (c.read.reverse ++ joined ps ++ last) after c.tokens.2 := by
  fun_induction Cursor.tokens c with
  | case1 c t d hr more e hm ih =>
    obtain ⟨gap, hc, hread, hplaced, hlies⟩ := readToken_token h hr
    obtain ⟨ps, last, after, hts, hd, hl, hs⟩ := ih hplaced
    rw [hm] at hts hs
    rw [hread] at hl hs
    rw [hd] at hc hlies
    refine ⟨⟨gap, t⟩ :: ps, last, after, ?_, ?_, .cons hlies ?_, ?_⟩
    · simpa using hts
    · simpa [joined, Piece.chars] using hc
    · simpa [Piece.chars] using hl
    · simpa [joined, Piece.chars] using hs
  | case2 c d hr => exact ⟨[], c.rest, [], rfl, by simp [joined], .nil (readToken_end h hr), rfl⟩
  | case3 c e d hr =>
    obtain ⟨gap, after, hc, hg, hs⟩ := readToken_failure h hr
    exact ⟨[], gap, after, rfl, by simpa [joined] using hc, .nil hg, by simpa [joined] using hs⟩

end Cursor

/-- Lexing loses nothing and places everything. A text that can be read is made of the texts of its
tokens, none of them empty, and of gaps of blanks and comments around them; the place of each token is
that behind all that is before it. If a lexeme can not be read, the same is true of the tokens in front
of it, and the failure is blamed on the place of its first character. -/
theorem lexing_lossless_and_located (path text : String) :
    (∀ ts, tokenize path text = .ok ts → ∃ ps last, ps.map Piece.token = ts ∧
      text.toList = joined ps ++ last ∧ Layout path [] [] ps last) ∧
    ∀ ts e, (Cursor.ofText path text).tokens = (ts, some e) → ∃ ps last x rest,
      ps.map Piece.token = ts ∧ text.toList = joined ps ++ last ++ x :: rest ∧
      Layout path [] (x :: rest) ps last ∧ StartsLexeme (x :: rest) ∧
      (lexeme x rest).kind = .error e.cause ∧
      e.location = some (.behind path (joined ps ++ last)) := by
  obtain ⟨ps, last, after, hts, htext, hl, hs⟩ :=
    (Cursor.ofText path text).layout_tokens (Cursor.placed_ofText path text)
  have htext : text.toList = joined ps ++ last ++ after := htext
  constructor
  · intro ts h
    rw [tokenize_eq_ok_iff.1 h] at hts hs
    obtain rfl : after = [] := hs
    rw [List.append_nil] at htext
    exact ⟨ps, last, hts, htext, hl⟩
  · intro ts e h
    rw [h] at hts hs
    obtain ⟨x, rest, rfl, hstarts, hk, hloc⟩ := hs
    exact ⟨ps, last, x, rest, hts, htext, hl, hstarts, hk, hloc⟩

end Concatenative
