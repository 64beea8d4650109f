import Concatenative.Proofs.OnDemand
import Concatenative.Proofs.Respacing
import Concatenative.Value.Text

/-! Values that read back. The text that shows an integer, a boolean or a string is a lexeme, and the
lexeme denotes the value that is shown: decimal digits stand for their number, and the escapes that are
written are among those that are read. Main statement: at the start of a text such a lexeme is read as
one token that carries the value, and alone it is built to the one instruction that pushes the value
(`scalars_read_back`). -/
namespace Concatenative

/-! ## Integers -/

namespace Lexeme.Numeral

/-- The numeral that shows a number. -/
def ofInt (n : Int) : Numeral where
  sign := if n < 0 then ['-'] else []
  whole := Nat.toDigits 10 n.natAbs
  fraction := []
  exponent := []

theorem chars_ofInt (n : Int) : (ofInt n).chars = (toString n).toList := by
  rw [Int.toString_eq_repr, Int.repr_eq_if]
  by_cases hn : 0 ≤ n
  · have hsign : ¬ n < 0 := by omega
    have habs : n.natAbs = n.toNat := by omega
    simp [ofInt, chars, hn, hsign, habs, Nat.repr_eq_ofList_toDigits]
  · have hsign : n < 0 := by omega
    have habs : n.natAbs = (-n).toNat := by omega
    simp [ofInt, chars, hn, hsign, habs, Nat.repr_eq_ofList_toDigits]

theorem grammatical_ofInt (n : Int) : (ofInt n).Grammatical where
  sign := by
    unfold ofInt
    dsimp only
    split
    · exact .inr rfl
    · exact .inl rfl
  whole := ⟨Nat.toDigits_ne_nil, fun _ hc => Nat.isDigit_of_mem_toDigits (by decide) (by decide) hc⟩
  fraction := .absent
  exponent := .absent

theorem decimal_ofInt (n : Int) : (ofInt n).decimal = n := by
  have hdigits : Decimal.digitsValue (Nat.toDigits 10 n.natAbs) = n.natAbs :=
    Nat.ofDigitChars_ten_toDigits
  rw [decimal, ← digitsValue_eq_ofDigits]
  unfold ofInt
  dsimp only
  rw [hdigits]
  by_cases hn : n < 0
  · simp only [hn, if_true]
    rw [if_neg (by simp)]
    omega
  · simp only [hn, if_false]
    rw [if_pos trivial]
    omega

/-- A numeral for an `Int64` may end where a blank or the end of the text follows it. -/
theorem mayEnd_ofInt (n : Int64) {after : List Char} (h : StartsBlank after) :
    (ofInt n.toInt).MayEnd after.head? := by
  refine ⟨fun c hc => ?_, fun hf => ?_, fun _ => ?_⟩
  · rw [← isNameChar_iff, (Text.isBlank_apart (h c hc)).1]
    exact Bool.false_ne_true
  · rcases hf with hf | hf
    · exact absurd rfl hf
    · exact absurd rfl hf
  · rw [decimal_ofInt]
    have hlow := n.le_toInt
    have hhigh := n.toInt_lt
    omega

end Lexeme.Numeral

namespace Lexeme

variable {after : List Char}

theorem number_shown (n : Int64) (h : StartsBlank after) :
    startsNumber ((toString n.toInt).toList ++ after) = true ∧
      number ((toString n.toInt).toList ++ after) = ⟨(toString n.toInt).toList, .ok (.int n)⟩ := by
  have hgrammar := Numeral.grammatical_ofInt n.toInt
  rw [← Numeral.chars_ofInt]
  refine ⟨(startsNumber_iff _).2 hgrammar.opens, ?_⟩
  obtain ⟨kind, hkind, _, hint⟩ := (Numeral.mayEnd_ofInt n h).denote hgrammar
  obtain ⟨i, rfl, hi⟩ := hint ⟨rfl, rfl⟩
  rw [Numeral.decimal_ofInt, Int64.toInt_inj] at hi
  rw [number, Numeral.ofChars_append hgrammar h.numeral, getElem?_append_length, hkind, hi]

end Lexeme

/-! ## Strings -/

/-- A character is written as it is, or as an escape that is read to it. -/
theorem Text.escaped_cases (c : Char) :
    Text.escaped c = [c] ∧ c ≠ '"' ∧ c ≠ '\\' ∨
      ∃ m, Text.escaped c = ['\\', m] ∧ Lexeme.simpleEscape? m = some c := by
  unfold Text.escaped
  split
  · next h => exact .inr ⟨'"', rfl, by rw [h]; rfl⟩
  next hquote =>
  split
  · next h => exact .inr ⟨'n', rfl, by rw [h]; rfl⟩
  split
  · next h => exact .inr ⟨'r', rfl, by rw [h]; rfl⟩
  split
  · next h => exact .inr ⟨'t', rfl, by rw [h]; rfl⟩
  split
  · next h => exact .inr ⟨'\\', rfl, by rw [h]; rfl⟩
  · next hslash => exact .inl ⟨rfl, hquote, hslash⟩

namespace Lexeme

theorem escape_simple {m c : Char} (h : simpleEscape? m = some c) (rest : List Char) :
    escape (m :: rest) = ([m], .ok c) := by
  have hu : m ≠ 'u' := by
    rintro rfl
    cases h
  rw [escape]
  · rw [h]
  · exact hu

/-- What was written for a character is read to the character. -/
theorem stringRest_escaped (c : Char) (s : List Char) : stringRest (Text.escaped c ++ s) =
    (Text.escaped c ++ (stringRest s).1, (stringRest s).2.map (c :: ·)) := by
  rcases Text.escaped_cases c with ⟨hself, hquote, hslash⟩ | ⟨m, hm, hback⟩
  · rw [hself, List.singleton_append, stringRest, if_neg hquote, if_neg hslash]
    rfl
  · rw [hm, List.cons_append, List.singleton_append, stringRest, if_neg (by decide), if_pos rfl,
      escape_simple hback]
    rfl

/-- A string is read back to its closing quote, whatever is behind that. -/
theorem stringRest_quoted (s after : List Char) :
    stringRest (s.flatMap Text.escaped ++ '"' :: after) = (s.flatMap Text.escaped ++ ['"'], .ok s) := by
  induction s with
  | nil => rw [List.flatMap_nil, List.nil_append, stringRest, if_pos rfl, List.nil_append]
  | cons c s ih =>
    rw [List.flatMap_cons, List.append_assoc, stringRest_escaped, ih, List.append_assoc]
    rfl

theorem string_quoted (s : String) (after : List Char) :
    string ((Text.quoted s).toList ++ after) = ⟨(Text.quoted s).toList, .ok (.text s)⟩ := by
  have hback := stringRest_quoted s.toList after
  simp only [Text.quoted, String.toList_ofList, List.cons_append, List.append_assoc, List.nil_append,
    string, List.drop_one, List.tail_cons, hback]
  rw [Except.map, String.ofList_toList]

end Lexeme

/-! ## Scalars -/

namespace Literal

/-- What a token is that carries a literal. -/
def tokenKind : Literal → TokenKind
  | int n => .int n
  | float x => .float x
  | text s => .text s
  | bool b => .bool b
  | void => .void

/-- Integers, booleans and strings, which are shown by one lexeme each. -/
inductive Scalar : Literal → Prop
  | int (n : Int64) : Scalar (.int n)
  | bool (b : Bool) : Scalar (.bool b)
  | text (s : String) : Scalar (.text s)

end Literal

/-- What is neither a blank nor a slash starts a lexeme. -/
theorem startsLexeme_of_ne_slash {x : Char} {rest : List Char} (hblank : Text.isBlank x = false)
    (hx : x ≠ '/') : StartsLexeme (x :: rest) :=
  startsLexeme_cons.2 ⟨hblank, fun h => hx h.1⟩

theorem Lexeme.startsLexeme_of_startsNumber {s : List Char} (h : startsNumber s = true) :
    StartsLexeme s := by
  obtain ⟨d, rest, hd, rfl | rfl⟩ := (startsNumber_iff s).1 h
  · refine startsLexeme_of_ne_slash ?_ ?_
    · rw [Bool.eq_false_iff]
      intro hblank
      rw [(Text.isBlank_apart hblank).2.1] at hd
      cases hd
    · rintro rfl
      cases hd
  · exact startsLexeme_of_ne_slash (by decide) (by decide)

/-- The text of a scalar is a lexeme that denotes it, wherever a blank or the end of the text follows it,
and for a string whatever follows it. -/
theorem Literal.Scalar.lexeme_shown {v : Literal} (hv : v.Scalar) {after : List Char}
    (h : (∃ s, v = .text s) ∨ StartsBlank after) : ∃ x tail, v.value.inspect.toList = x :: tail ∧
      StartsLexeme (x :: (tail ++ after)) ∧
      lexeme x (tail ++ after) = ⟨x :: tail, .ok v.tokenKind⟩ := by
  cases hv with
  | int n =>
    have hblank : StartsBlank after := h.resolve_left (by simp)
    obtain ⟨hstarts, hnumber⟩ := Lexeme.number_shown n hblank
    obtain ⟨x, tail, hx⟩ := List.exists_cons_of_ne_nil
      (Lexeme.Numeral.chars_ne_nil (Lexeme.Numeral.grammatical_ofInt n.toInt).whole.1)
    rw [Lexeme.Numeral.chars_ofInt] at hx
    rw [hx, List.cons_append] at hstarts hnumber
    refine ⟨x, tail, hx, Lexeme.startsLexeme_of_startsNumber hstarts, ?_⟩
    rw [lexeme, if_pos hstarts, hnumber]
    rfl
  | bool b =>
    have hblank : StartsBlank after := h.resolve_left (by simp)
    cases b with
    | true =>
      have hname := Lexeme.name_respaced (s := ['t', 'r', 'u', 'e']) hblank
      exact ⟨'t', _, rfl, startsLexeme_of_ne_slash (by decide) (by decide), hname⟩
    | false =>
      have hname := Lexeme.name_respaced (s := ['f', 'a', 'l', 's', 'e']) hblank
      exact ⟨'f', _, rfl, startsLexeme_of_ne_slash (by decide) (by decide), hname⟩
  | text s =>
    have hstring := Lexeme.string_quoted s after
    have hquoted : (Text.quoted s).toList = '"' :: (s.toList.flatMap Text.escaped ++ ['"']) :=
      String.toList_ofList
    rw [hquoted, List.cons_append] at hstring
    refine ⟨'"', _, hquoted, startsLexeme_of_ne_slash (by decide) (by decide), ?_⟩
    rw [lexeme, if_neg, if_pos rfl, hstring]
    · rfl
    · rintro ⟨⟩

/-! ## Tokens and bodies -/

/-- A lexeme that a cursor stands in front of is read to a token, and the cursor goes behind it. -/
theorem Cursor.readToken_of_startsLexeme {c : Cursor} {x : Char} {rest taken : List Char}
    {kind : TokenKind} (hc : c.rest = x :: rest) (hs : StartsLexeme (x :: rest))
    (hl : lexeme x rest = ⟨taken, .ok kind⟩) : c.readToken =
      (.ok (some ⟨kind, String.ofList taken, c.location⟩), c.advance taken.length) := by
  have hskip : c.skipIgnored = c := by
    rw [skipIgnored, hc, ignored_of_startsLexeme hs]
    rfl
  have hread := readToken_lexeme (hskip.symm ▸ hc) (congrArg Lexeme.kind hl)
  rw [hread, hskip, hl]

theorem Builder.accept_literal (b : Builder) {t : Token} {v : Literal} (h : t.kind = v.tokenKind) :
    b.accept t = b.push t.location (.literal v) := by
  unfold Builder.accept
  cases v <;> rw [h] <;> rfl

/-- A text with one token that carries a literal is built to the instruction that pushes it. -/
theorem build_literal {path text : String} {t : Token} {v : Literal} (strict : Bool)
    (ht : (Cursor.ofText path text).tokens = ([t], none)) (hv : t.kind = v.tokenKind) :
    build strict path text = ⟨[], .ok ⟨[⟨t.location, .literal v⟩], none, .start path⟩⟩ := by
  rw [build, Builder.ofCursor_eq_feed, ht, Builder.feed, Builder.accept_literal _ hv]
  cases strict <;> rfl

/-- What is shown of an integer, a boolean or a string reads back. Put in front of a text that is empty
or starts with a blank, and for a string in front of any text, it is the first token, whole and with just
this value, and the cursor then stands where that text starts. So it is built to the one instruction that
pushes the value. -/
theorem scalars_read_back (path : String) (v : Literal) (after : String) (hv : v.Scalar)
    (hafter : (∃ s, v = .text s) ∨ StartsBlank after.toList) :
    let shown := v.value.inspect
    let c := Cursor.ofText path (shown ++ after)
    c.readToken = (.ok (some ⟨v.tokenKind, shown, .start path⟩), c.advance shown.length) ∧
    (c.advance shown.length).rest = after.toList ∧
    ∀ strict, build strict path shown = ⟨[], .ok ⟨[⟨.start path, .literal v⟩], none, .start path⟩⟩ := by
  intro shown c
  obtain ⟨x, tail, hshown, hstarts, hlexeme⟩ := hv.lexeme_shown hafter
  have hlist : String.ofList (x :: tail) = shown := by
    rw [← hshown, String.ofList_toList]
  have hlength : (x :: tail).length = shown.length := by
    rw [← hshown, String.length_toList]
  have hrest : c.rest = x :: (tail ++ after.toList) := by
    show (shown ++ after).toList = _
    rw [String.toList_append, hshown, List.cons_append]
  refine ⟨?_, ?_, fun strict => ?_⟩
  · rw [Cursor.readToken_of_startsLexeme hrest hstarts hlexeme, hlist, hlength]
    rfl
  · rw [Cursor.rest_advance, hrest, ← hlength, ← List.cons_append, List.drop_left]
  · -- Alone the lexeme is the whole text.
    have hblank : StartsBlank [] := nofun
    obtain ⟨y, tail', hshown', hstarts', hlexeme'⟩ := hv.lexeme_shown (.inr hblank)
    obtain ⟨rfl, rfl⟩ := List.cons.inj (hshown.symm.trans hshown')
    rw [List.append_nil] at hstarts' hlexeme'
    have hread := Cursor.readToken_of_startsLexeme (c := .ofText path shown) hshown hstarts' hlexeme'
    have hnil : ((Cursor.ofText path shown).advance (x :: tail).length).rest = [] := by
      rw [Cursor.rest_advance, show (Cursor.ofText path shown).rest = x :: tail from hshown,
        List.drop_length]
    have htokens := Cursor.tokens_token hread
    rw [Cursor.tokens_of_rest_eq_nil hnil] at htokens
    exact build_literal strict htokens rfl

/-- A string that ends in a backslash, with a letter straight behind it. -/
theorem scalars_read_back_backslash :
    (Cursor.ofText "a" ((Value.text "\n\\").inspect ++ "x")).readToken.1 =
      .ok (some ⟨.text "\n\\", "\"\\n\\\\\"", ⟨"a", 1, 1⟩⟩) := by
  obtain ⟨hread, _, _⟩ := scalars_read_back "a" (.text "\n\\") "x" (.text _) (.inl ⟨_, rfl⟩)
  exact congrArg Prod.fst hread

end Concatenative
