import Mathlib
import Concatenative.Proofs.Numerals

/-! Tokens on their own. Every lexeme that can be read is read again, to the same characters and the same
meaning, when a blank or the end of the text follows it. Main statement: texts in which the same tokens
stand, one blank between each and the next, come to the same tokens, whatever stood between them before
(`respacing_keeps_tokens`). -/
namespace Concatenative

/-- Empty, or with a blank in front. -/
def StartsBlank (s : List Char) : Prop := ∀ c ∈ s.head?, Text.isBlank c = true

/-! ## Characters -/

theorem Lexeme.toNat_of_isNameChar {c : Char} (h : isNameChar c = true) :
    48 ≤ c.toNat ∧ c.toNat ≤ 57 ∨ 65 ≤ c.toNat ∧ c.toNat ≤ 90 ∨ c.toNat = 95 ∨
      97 ≤ c.toNat ∧ c.toNat ≤ 122 := by
  simp only [isNameChar, Char.isAlphanum, Char.isAlpha, Char.isUpper, Char.isLower, Char.isDigit,
    Bool.or_eq_true, Bool.and_eq_true, decide_eq_true_eq, UInt32.le_iff_toNat_le, ge_iff_le] at h
  rcases h with ((⟨hl, hu⟩ | ⟨hl, hu⟩) | ⟨hl, hu⟩) | rfl
  · exact .inr (.inl ⟨hl, hu⟩)
  · exact .inr (.inr (.inr ⟨hl, hu⟩))
  · exact .inl ⟨hl, hu⟩
  · exact .inr (.inr (.inl rfl))

/-- A blank is no part of a name or a number, and no slash. -/
theorem Text.isBlank_apart {c : Char} (h : isBlank c = true) :
    Lexeme.isNameChar c = false ∧ c.isDigit = false ∧ c ≠ '.' ∧ c ≠ '/' := by
  have hname : Lexeme.isNameChar c = false := by
    rw [Bool.eq_false_iff]
    intro hn
    have hranges := Lexeme.toNat_of_isNameChar hn
    simp only [isBlank, blankRanges, List.any_cons, List.any_nil, Bool.or_false, Bool.or_eq_true,
      Bool.and_eq_true, decide_eq_true_eq] at h
    omega
  refine ⟨hname, ?_, ?_, ?_⟩
  · simp only [Lexeme.isNameChar, Char.isAlphanum, Bool.or_eq_false_iff] at hname
    exact hname.1.2
  · rintro rfl
    revert h
    decide
  · rintro rfl
    revert h
    decide

theorem StartsBlank.numeral {after : List Char} (h : StartsBlank after) :
    ∀ c ∈ after.head?, c.isDigit = false ∧ c ≠ '.' ∧ c ≠ 'e' ∧ c ≠ 'E' := by
  intro c hc
  obtain ⟨hname, hdigit, hpoint, _⟩ := Text.isBlank_apart (h c hc)
  refine ⟨hdigit, hpoint, ?_, ?_⟩ <;> rintro rfl <;> cases hname

namespace Lexeme

variable {s rest after : List Char} {c : Char} {kind : TokenKind}

/-! ## Numbers -/

/-- What a numeral denotes depends on what is behind it only as far as it runs on. -/
theorem Numeral.denote_of_blank {n : Numeral} {next : Option Char} (h : n.denote next = .ok kind)
    (hafter : StartsBlank after) : n.denote after.head? = .ok kind := by
  have hruns : ¬ (after.head?.any fun c => isNameChar c || (c = '.' && n.isFloat)) = true := by
    cases after with
    | nil => simp
    | cons c after =>
      obtain ⟨hname, _, hpoint, _⟩ := Text.isBlank_apart (hafter c rfl)
      simp [hname, hpoint]
  unfold Numeral.denote at h ⊢
  split at h
  · cases h
  · next hl =>
    rw [if_neg hl, if_neg hruns]
    split at h
    · cases h
    · exact h

theorem number_respaced (hs : startsNumber s = true) (h : (number s).kind = .ok kind)
    (hafter : StartsBlank after) :
    startsNumber ((number s).taken ++ after) = true ∧
      number ((number s).taken ++ after) = ⟨(number s).taken, .ok kind⟩ := by
  have hl : (Numeral.ofChars s).lacksExponentDigits = false := by
    by_contra hl
    rw [Bool.not_eq_false] at hl
    simp [number, Numeral.denote, hl] at h
  have hfull : (Numeral.ofChars s).reduced = Numeral.ofChars s := by
    rw [Numeral.reduced, hl]
    rfl
  have hn : (Numeral.ofChars s).Grammatical :=
    hfull ▸ (Numeral.longest_reduced ((startsNumber_iff s).1 hs)).grammatical
  have hback : Numeral.ofChars ((number s).taken ++ after) = Numeral.ofChars s :=
    Numeral.ofChars_append hn hafter.numeral
  refine ⟨(startsNumber_iff _).2 hn.opens, ?_⟩
  have hnext : ((number s).taken ++ after)[(Numeral.ofChars s).chars.length]? = after.head? :=
    getElem?_append_length _ after
  rw [number, hback, hnext, Numeral.denote_of_blank h hafter]
  rfl

/-! ## Strings -/

theorem escape_respaced {taken : List Char} {x : Char} (h : escape s = (taken, .ok x))
    (after : List Char) : escape (taken ++ after) = (taken, .ok x) := by
  unfold escape at h
  split at h
  · cases h
  · next rest =>
    dsimp only at h
    generalize hds : (rest.take 4).takeWhile isHexDigit = ds at h
    split at h
    · cases h
    · next hlen =>
      have hfour : ds.length = 4 := by
        have hle := (List.takeWhile_prefix isHexDigit (l := rest.take 4)).length_le
        rw [hds, List.length_take] at hle
        omega
      have hback : ((ds ++ after).take 4).takeWhile isHexDigit = ds := by
        rw [List.take_left' hfour, List.takeWhile_eq_self_iff]
        intro c hc
        rw [← hds] at hc
        exact List.mem_takeWhile_imp hc
      have htaken : taken = 'u' :: ds := by
        split at h <;> cases h
        rfl
      subst htaken
      rw [List.cons_append, escape]
      simp only [hback]
      rw [if_neg hlen]
      exact h
  · next c rest hu =>
    split at h
    · next y hy =>
      cases h
      rw [List.cons_append, escape]
      · rw [hy]
      · exact hu
    · cases h

/-- A string is read to its closing quote, whatever is behind that. -/
theorem stringRest_respaced {taken text : List Char} (h : stringRest s = (taken, .ok text))
    (after : List Char) : stringRest (taken ++ after) = (taken, .ok text) := by
  fun_induction stringRest s generalizing taken text with
  | case1 => cases h
  | case2 rest =>
    cases h
    rw [List.cons_append, stringRest, if_pos rfl]
  | case3 rest taken' cause he => cases h
  | case4 rest taken' x he more result hr hquote ih =>
    cases result with
    | error _ => cases h
    | ok text' =>
      cases h
      rw [hr] at ih
      have hback := ih rfl
      have hescape := escape_respaced he (more ++ after)
      rw [stringRest.eq_def]
      simp only [List.cons_append, List.append_assoc, hescape, if_neg (by decide : ¬ '\\' = '"')]
      rw [if_pos trivial, List.drop_left, hback]
      rfl
  | case5 c rest hquote hescape more result hr ih =>
    cases result with
    | error _ => cases h
    | ok text' =>
      cases h
      have hback := ih hr
      rw [List.cons_append, stringRest, if_neg hquote, if_neg hescape, hback]
      rfl

theorem string_respaced {c : Char} {rest : List Char} (h : (string (c :: rest)).kind = .ok kind)
    (after : List Char) :
    string (c :: ((stringRest rest).1 ++ after)) = ⟨'"' :: (stringRest rest).1, .ok kind⟩ := by
  simp only [string, List.drop_one, List.tail_cons] at h
  cases ht : (stringRest rest).2 with
  | error e =>
    rw [ht] at h
    cases h
  | ok text =>
    rw [ht] at h
    cases h
    have hback := stringRest_respaced (Prod.ext rfl ht : stringRest rest = (_, .ok text)) after
    simp only [string, List.drop_one, List.tail_cons, hback]
    rfl

/-! ## Names -/

theorem name_respaced (hafter : StartsBlank after) : name ((name s).taken ++ after) = name s := by
  have hback : ((s.takeWhile isNameChar) ++ after).takeWhile isNameChar = s.takeWhile isNameChar := by
    rw [List.takeWhile_append_of_pos fun c hc => List.mem_takeWhile_imp hc]
    cases after with
    | nil => simp
    | cons c after => simp [(Text.isBlank_apart (hafter c rfl)).1]
  simp only [name, hback]

end Lexeme

/-! ## Lexemes and tokens -/

theorem Lexeme.startsNumber_respaced {c : Char} {rest s : List Char}
    (h : ¬ startsNumber (c :: rest) = true) (hs : c ≠ '-' ∨ StartsBlank s) :
    ¬ startsNumber (c :: s) = true := by
  have hdigit : ¬ c.isDigit = true := fun hc => h ((startsNumber_iff _).2 ⟨c, rest, hc, .inl rfl⟩)
  rw [startsNumber_iff]
  rintro ⟨d, s', hd, he | he⟩
  · cases he
    exact hdigit hd
  · cases he
    rcases hs with hne | hblank
    · exact hne rfl
    · exact absurd hd (by rw [(Text.isBlank_apart (hblank d rfl)).2.1]; exact Bool.false_ne_true)

theorem Lexeme.taken_eq_cons {c : Char} {rest : List Char} {kind : TokenKind}
    (h : (lexeme c rest).kind = .ok kind) : ∃ tail, (lexeme c rest).taken = c :: tail := by
  obtain ⟨x, tail, htail⟩ := List.exists_cons_of_ne_nil (lexeme_taken h)
  have hstart := taken_isPrefix c rest
  rw [htail, List.cons_prefix_cons] at hstart
  exact ⟨tail, hstart.1 ▸ htail⟩

open Lexeme in
/-- A lexeme that can be read is read again where a blank or the end follows it. -/
theorem lexeme_respaced {c : Char} {rest after : List Char} {kind : TokenKind}
    (h : (lexeme c rest).kind = .ok kind) (hafter : StartsBlank after) :
    ∃ tail, (lexeme c rest).taken = c :: tail ∧
      lexeme c (tail ++ after) = ⟨c :: tail, .ok kind⟩ := by
  obtain ⟨tail, htail⟩ := taken_eq_cons h
  refine ⟨tail, htail, ?_⟩
  unfold lexeme at h htail ⊢
  dsimp only at h htail ⊢
  -- Kind by kind, in the order of the lexer: each must be ruled out for the text read again as well.
  by_cases hn : startsNumber (c :: rest) = true
  · rw [if_pos hn] at h htail
    obtain ⟨hn', hback⟩ := number_respaced hn h hafter
    rw [htail, List.cons_append] at hn' hback
    rw [if_pos hn', hback]
  rw [if_neg hn] at h htail
  by_cases hq : c = '"'
  · rw [if_pos hq] at h htail ⊢
    rw [if_neg (startsNumber_respaced hn (.inl (by rw [hq]; decide)))]
    obtain rfl : tail = (stringRest rest).1 := (List.cons.inj htail).2.symm
    rw [string_respaced h after, hq]
  rw [if_neg hq] at h htail ⊢
  by_cases hs : isNameStart c = true
  · rw [if_pos hs] at h htail ⊢
    have hne : c ≠ '-' := by
      rintro rfl
      cases hs
    have hback := name_respaced (s := c :: rest) hafter
    rw [htail, List.cons_append] at hback
    rw [if_neg (startsNumber_respaced hn (.inl hne)), hback, ← htail, ← h]
  rw [if_neg hs] at h htail ⊢
  have hone : tail = [] → ¬ startsNumber (c :: (tail ++ after)) = true := by
    rintro rfl
    exact startsNumber_respaced hn (.inr hafter)
  cases ho : Operator.ofChar? c with
  | some o =>
    simp only [ho] at h htail ⊢
    obtain rfl : tail = [] := (List.cons.inj htail).2.symm
    rw [if_neg (hone rfl), ← h]
  | none =>
    simp only [ho] at h htail ⊢
    split at h
    · next hp =>
      rw [if_pos hp] at htail ⊢
      obtain rfl : tail = [] := (List.cons.inj htail).2.symm
      rw [if_neg (hone rfl), ← h]
    · cases h

theorem taken_slash (rest : List Char) : (lexeme '/' rest).taken = ['/'] := by
  have hn : Lexeme.startsNumber ('/' :: rest) = false := by cases rest <;> rfl
  rw [lexeme, hn]
  rfl

theorem ignored_of_startsLexeme {s : List Char} (h : StartsLexeme s) : ignored false s = 0 := by
  obtain ⟨c, rest, rfl, hblank, hcomment⟩ := h
  simp [ignored, hblank, hcomment]

theorem ignored_blank {b : Char} (hb : Text.isBlank b = true) (s : List Char) :
    ignored false (b :: s) = ignored false s + 1 := by
  simp [ignored.eq_def false (b :: s), hb]

/-- The text of a token is read to the token wherever a blank or the end follows it. -/
def Token.Standalone (t : Token) : Prop :=
  ∃ c tail, t.text.toList = c :: tail ∧ ∀ after, StartsBlank after →
    StartsLexeme (c :: (tail ++ after)) ∧ lexeme c (tail ++ after) = ⟨c :: tail, .ok t.kind⟩

theorem Cursor.standalone_of_readToken {c d : Cursor} {t : Token}
    (h : c.readToken = (.ok (some t), d)) : t.Standalone := by
  rcases c.readToken_cases with ⟨_, he⟩ | ⟨x, rest, hx, _, ⟨kind, hk, ht⟩ | ⟨cause, _, he⟩⟩
  · cases h.symm.trans he
  · rw [h] at ht
    cases ht
    obtain ⟨tail, htail⟩ := Lexeme.taken_eq_cons hk
    refine ⟨x, tail, by rw [htail, String.toList_ofList], fun after hafter => ⟨?_, ?_⟩⟩
    · have hstarts := startsLexeme_skipIgnored (hx ▸ List.cons_ne_nil x rest)
      rw [hx, startsLexeme_cons] at hstarts
      refine startsLexeme_cons.2 ⟨hstarts.1, ?_⟩
      -- A slash is a token by itself, so what follows it is a blank or the end.
      rintro ⟨rfl, hslash⟩
      rw [taken_slash] at htail
      obtain rfl : tail = [] := (List.cons.inj htail).2.symm
      exact (Text.isBlank_apart (hafter _ hslash)).2.2.2 rfl
    · obtain ⟨tail', htail', hback⟩ := lexeme_respaced hk hafter
      obtain rfl : tail = tail' := (List.cons.inj (htail.symm.trans htail')).2
      exact hback
  · rw [h] at he
    cases he

/-- A cursor in front of the text of a token, or of one blank and that text, reads the token. -/
theorem Token.Standalone.readToken {t : Token} (h : t.Standalone) {c : Cursor} {gap after : List Char}
    (hgap : gap = [] ∨ ∃ b, Text.isBlank b = true ∧ gap = [b]) (hafter : StartsBlank after)
    (hc : c.rest = gap ++ t.text.toList ++ after) :
    ∃ l d, c.readToken = (.ok (some ⟨t.kind, t.text, l⟩), d) ∧ d.rest = after := by
  obtain ⟨x, tail, htext, hback⟩ := h
  obtain ⟨hstarts, hlex⟩ := hback after hafter
  have hskip : c.skipIgnored.rest = x :: (tail ++ after) := by
    rw [Cursor.skipIgnored, Cursor.rest_advance, hc, htext, List.append_assoc]
    rcases hgap with rfl | ⟨b, hb, rfl⟩
    · simp [ignored_of_startsLexeme hstarts]
    · rw [List.singleton_append, ignored_blank hb, List.drop_succ_cons]
      simp [ignored_of_startsLexeme hstarts]
  have hread := Cursor.readToken_lexeme hskip (hlex ▸ rfl : (lexeme x (tail ++ after)).kind = .ok t.kind)
  rw [hlex] at hread
  dsimp only at hread
  rw [← htext, String.ofList_toList] at hread
  refine ⟨_, _, hread, ?_⟩
  rw [Cursor.rest_advance, hskip, htext]
  simp

/-! ## Texts -/

/-- The texts of tokens with one character between each and the next. -/
def spaced (sep : Nat → Char) : List Token → List Char
  | [] => []
  | [t] => t.text.toList
  | t :: u :: rest => t.text.toList ++ sep 0 :: spaced (fun i => sep (i + 1)) (u :: rest)

/-- What the tokens of a text are without their places. -/
def Token.content (t : Token) : TokenKind × String := (t.kind, t.text)

/-- Behind a token the text ends, or there is a blank with the other tokens behind it. -/
theorem spaced_cons {sep : Nat → Char} (hsep : ∀ i, Text.isBlank (sep i) = true) (t : Token)
    (rest : List Token) : ∃ gap,
      spaced sep (t :: rest) = t.text.toList ++ (gap ++ spaced (fun i => sep (i + 1)) rest) ∧
      StartsBlank (gap ++ spaced (fun i => sep (i + 1)) rest) ∧
      (gap = [] ∨ ∃ b, Text.isBlank b = true ∧ gap = [b]) ∧ (rest = [] → gap = []) := by
  cases rest with
  | nil => exact ⟨[], (List.append_nil _).symm, nofun, .inl rfl, fun _ => rfl⟩
  | cons u rest =>
    refine ⟨[sep 0], rfl, fun c hc => ?_, .inr ⟨_, hsep 0, rfl⟩, nofun⟩
    cases hc
    exact hsep 0

/-- No tokens are left where no text is. -/
theorem Cursor.tokens_of_rest_eq_nil {c : Cursor} (h : c.rest = []) : c.tokens = ([], none) := by
  have hnil : c.skipIgnored.rest = [] := by
    rw [skipIgnored, rest_advance, h]
    exact List.drop_nil
  have hend : c.readToken = (.ok none, c.skipIgnored) := by
    unfold readToken
    simp only [hnil]
  exact tokens_end hend

/-- Tokens that stand alone are read again when they are spaced. -/
theorem tokens_spaced {ts : List Token} (hts : ∀ t ∈ ts, t.Standalone) {sep : Nat → Char}
    (hsep : ∀ i, Text.isBlank (sep i) = true) {c : Cursor} {gap : List Char}
    (hgap : gap = [] ∨ ∃ b, Text.isBlank b = true ∧ gap = [b]) (hc : c.rest = gap ++ spaced sep ts)
    (hts₀ : ts = [] → gap = []) :
    ∃ ts', c.tokens = (ts', none) ∧ ts'.map Token.content = ts.map Token.content := by
  induction ts generalizing sep c gap with
  | nil =>
    obtain rfl := hts₀ rfl
    exact ⟨[], Cursor.tokens_of_rest_eq_nil hc, rfl⟩
  | cons t rest ih =>
    have ht := hts t List.mem_cons_self
    have hrest : ∀ u ∈ rest, u.Standalone := fun u hu => hts u (List.mem_cons_of_mem _ hu)
    obtain ⟨gap', hspaced, hafter, hgap', hnil⟩ := spaced_cons hsep t rest
    rw [hspaced, ← List.append_assoc] at hc
    obtain ⟨l, d, hread, hd⟩ := ht.readToken hgap hafter hc
    obtain ⟨ts', htokens, hcontent⟩ := ih hrest (fun i => hsep (i + 1)) hgap' hd hnil
    refine ⟨⟨t.kind, t.text, l⟩ :: ts', ?_, ?_⟩
    · rw [Cursor.tokens_token hread, htokens]
    · rw [List.map_cons, List.map_cons, hcontent]
      rfl

theorem spaced_congr {ts ts' : List Token} (h : ts'.map Token.text = ts.map Token.text)
    (sep : Nat → Char) : spaced sep ts' = spaced sep ts := by
  induction ts generalizing ts' sep with
  | nil => 
    rw [List.map_eq_nil_iff.1 h]
  | cons t rest ih =>
    obtain ⟨t', rest', rfl, ht, hrest⟩ := List.map_eq_cons_iff.1 h
    cases rest with
    | nil => 
      rw [List.map_eq_nil_iff.1 hrest]
      exact congrArg String.toList ht
    | cons u rest =>
      obtain ⟨u', rest'', rfl, _, _⟩ := List.map_eq_cons_iff.1 hrest
      rw [spaced, spaced, ih hrest, ht]

theorem Cursor.standalone_of_tokens (c : Cursor) : ∀ t ∈ c.tokens.1, t.Standalone := by
  fun_induction Cursor.tokens c with
  | case1 c t d hr more e hm ih =>
    intro u hu
    rcases List.mem_cons.1 hu with rfl | hu
    · exact standalone_of_readToken hr
    · exact ih u (hm ▸ hu)
  | case2 c d hr => exact List.forall_mem_nil _
  | case3 c e d hr => exact List.forall_mem_nil _

/-- Tokens do not depend on what is between them. If a text can be read, then its tokens with any one
blank between each and the next make a text that can be read too, to as many tokens with the same kinds,
values and texts. Spacing these tokens in the same way makes that text again, and spacing them in
another way makes what it makes of the first text. -/
theorem respacing_keeps_tokens (path path' text : String) (ts : List Token) (sep : Nat → Char)
    (h : tokenize path text = .ok ts) (hsep : ∀ i, Text.isBlank (sep i) = true) :
    ∃ ts', tokenize path' (String.ofList (spaced sep ts)) = .ok ts' ∧ ts'.length = ts.length ∧
      ts'.map Token.kind = ts.map Token.kind ∧ ts'.map Token.text = ts.map Token.text ∧
      ∀ sep', spaced sep' ts' = spaced sep' ts := by
  have hts := (Cursor.ofText path text).standalone_of_tokens
  rw [tokenize_eq_ok_iff.1 h] at hts
  obtain ⟨ts', htokens, hcontent⟩ := tokens_spaced (c := .ofText path' (String.ofList (spaced sep ts)))
    hts hsep (.inl rfl) (String.toList_ofList) fun _ => rfl
  have hkinds := congrArg (List.map Prod.fst) hcontent
  have htexts := congrArg (List.map Prod.snd) hcontent
  rw [List.map_map, List.map_map] at hkinds htexts
  exact ⟨ts', tokenize_eq_ok_iff.2 htokens, by simpa using congrArg List.length hcontent, hkinds, htexts,
    spaced_congr htexts⟩

/-- Two slashes that a blank keeps apart, an integer with a point behind it, and a comment. -/
theorem respacing_keeps_tokens_slashes :
    ∃ ts ts', tokenize "a" "x/ /1.//y" = .ok ts ∧ tokenize "b" "x\n/\n/\n1\n." = .ok ts' ∧
      ts'.map Token.kind = ts.map Token.kind ∧
      ts.map Token.text = ["x", "/", "/", "1", "."] ∧ ts'.map Token.text = ts.map Token.text := by
  have h : tokenize "a" "x/ /1.//y" = .ok
      [⟨.symbol "x", "x", ⟨"a", 1, 1⟩⟩, ⟨.operator (.primitive .reduce), "/", ⟨"a", 1, 2⟩⟩,
        ⟨.operator (.primitive .reduce), "/", ⟨"a", 1, 4⟩⟩, ⟨.int 1, "1", ⟨"a", 1, 5⟩⟩,
        ⟨.operator (.primitive .lookup), ".", ⟨"a", 1, 6⟩⟩] := by
    cbv
  obtain ⟨ts', htokens, _, hkinds, htexts, _⟩ :=
    respacing_keeps_tokens "a" "b" "x/ /1.//y" _ (fun _ => '\n') h fun _ => by decide
  exact ⟨_, ts', h, htokens, hkinds, by decide, htexts⟩

end Concatenative
