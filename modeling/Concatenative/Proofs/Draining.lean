import Concatenative.Proofs.Lookahead

/-! Reading on behind failures. Every failure inside a lexeme leaves the cursor behind characters of that
lexeme; only a character that starts no lexeme stays in front of the cursor. Main statement: whoever asks
a lexer for tokens again and again comes to the end of the text in no more calls than it has characters
and one, or to such a character and gets the same failure from then on (`draining_ends_or_sticks`). -/
namespace Concatenative

/-! ## Faults of lexemes -/

/-- A fault inside a lexeme, and not a character that starts none. -/
def Cause.Inside (cause : Cause) : Prop := cause.kind = .lexical ∧ ∀ x, cause ≠ .unexpectedCharacter x

/-- A visible character of ASCII, or the space. -/
def Text.IsPrintable (c : Char) : Prop := ' ' ≤ c ∧ c ≤ '~'

namespace Lexeme

variable {s rest : List Char} {c : Char} {cause : Cause}

theorem Numeral.inside_of_denote {n : Numeral} {next : Option Char} (h : n.denote next = .error cause) :
    cause.Inside := by
  unfold denote at h
  split at h
  · cases h
    exact ⟨rfl, by simp⟩
  split at h
  · cases h
    exact ⟨rfl, by simp⟩
  split at h
  · cases h
  split at h
  · cases h
  · cases h
    exact ⟨rfl, by simp⟩

theorem inside_of_escape (h : (escape s).2 = .error cause) : cause.Inside := by
  unfold escape at h
  split at h
  · cases h
    exact ⟨rfl, by simp⟩
  · dsimp only at h
    split at h
    · cases h
      exact ⟨rfl, by simp⟩
    split at h
    · cases h
    · cases h
      exact ⟨rfl, by simp⟩
  · split at h
    · cases h
    · cases h
      exact ⟨rfl, by simp⟩

theorem inside_of_stringRest (h : (stringRest s).2 = .error cause) : cause.Inside := by
  fun_induction stringRest s with
  | case1 =>
    cases h
    exact ⟨rfl, by simp⟩
  | case2 rest => cases h
  | case3 rest taken cause' he =>
    cases h
    exact inside_of_escape (congrArg Prod.snd he)
  | case4 rest taken x he more result hr _ ih =>
    cases result with
    | ok text => cases h
    | error cause' =>
      cases h
      exact ih (congrArg Prod.snd hr)
  | case5 c rest _ _ more result hr ih =>
    cases result with
    | ok text => cases h
    | error cause' =>
      cases h
      exact ih (congrArg Prod.snd hr)

theorem number_taken_ne_nil (h : startsNumber s = true) : (number s).taken ≠ [] :=
  Numeral.chars_ne_nil (Numeral.longest_reduced ((startsNumber_iff s).1 h)).grammatical.whole.1

/-- Letters, digits, punctuation and the space are all that is printable. -/
theorem not_isPrintable (hdigit : c.isDigit = false) (hname : isNameStart c = false)
    (hpunctuation : isPunctuation c = false) (hblank : Text.isBlank c = false) :
    ¬ Text.IsPrintable c := by
  rintro ⟨hlow, hhigh⟩
  have halnum : c.isAlphanum = false := by
    simp only [isNameStart, Bool.or_eq_false_iff] at hname
    simp [Char.isAlphanum, hdigit, hname.1]
  have hbelow : ¬ '!' ≤ c := by
    intro hbang
    simp [isPunctuation, hbang, hhigh, halnum] at hpunctuation
  have hspace : c = ' ' := by
    simp only [Char.le_def, UInt32.le_iff_toNat_le] at hlow hbelow
    have hlow : 32 ≤ c.toNat := hlow
    have hbelow : ¬ 33 ≤ c.toNat := hbelow
    exact Char.toNat_inj.1 (show c.toNat = 32 by omega)
  rw [hspace] at hblank
  cases hblank

end Lexeme

/-- A lexeme that can not be read is faulty inside and was begun, or it is a character by itself that is
neither printable nor, where lexemes are looked for, a blank. -/
theorem lexeme_failure {c : Char} {rest : List Char} {cause : Cause}
    (h : (lexeme c rest).kind = .error cause) :
    cause.Inside ∧ (lexeme c rest).taken ≠ [] ∨
      cause = .unexpectedCharacter c ∧ (lexeme c rest).taken = [] ∧
        (Text.isBlank c = false → ¬ Text.IsPrintable c) := by
  unfold lexeme at h ⊢
  dsimp only at h ⊢
  by_cases hn : Lexeme.startsNumber (c :: rest) = true
  · rw [if_pos hn] at h ⊢
    exact .inl ⟨Lexeme.Numeral.inside_of_denote h, Lexeme.number_taken_ne_nil hn⟩
  rw [if_neg hn] at h ⊢
  by_cases hq : c = '"'
  · rw [if_pos hq] at h ⊢
    refine .inl ⟨?_, List.cons_ne_nil _ _⟩
    simp only [Lexeme.string, List.drop_one, List.tail_cons] at h
    cases hr : (Lexeme.stringRest rest).2 with
    | ok text =>
      rw [hr] at h
      cases h
    | error cause' =>
      rw [hr] at h
      cases h
      exact Lexeme.inside_of_stringRest hr
  rw [if_neg hq] at h ⊢
  by_cases hs : Lexeme.isNameStart c = true
  · rw [if_pos hs] at h
    cases h
  rw [if_neg hs] at h ⊢
  split at h
  · cases h
  next ho =>
  split at h
  · cases h
  next hp =>
  cases h
  rw [if_neg hp]
  have hdigit : c.isDigit = false := by
    rw [Bool.eq_false_iff]
    exact fun hd => hn ((Lexeme.startsNumber_iff _).2 ⟨c, rest, hd, .inl rfl⟩)
  refine .inr ⟨rfl, rfl, Lexeme.not_isPrintable hdigit ?_ ?_⟩
  · simpa using hs
  · simpa using hp

/-! ## Progress -/

/-- What is answered where nothing more can be taken: that the text ends, or a failure at a character that
is neither a blank nor printable. -/
inductive Halts (c : Cursor) : Lexer.Answer → Prop
  | ended : c.rest = [] → Halts c (.ok none)
  | stuck {x : Char} {rest : List Char} : c.rest = x :: rest → Text.isBlank x = false →
      ¬ Text.IsPrintable x → Halts c (.error ⟨.unexpectedCharacter x, some c.location⟩)

namespace Cursor

theorem position_add_length (c : Cursor) : c.position + c.rest.length = c.chars.length := by
  simp [position, chars]

/-- Reading stops in front of what can not be taken, or it shortens what is left. -/
theorem readToken_halts_or_advances (c : Cursor) :
    (∃ a, c.readToken = (a, c.skipIgnored) ∧ Halts c.skipIgnored a) ∨
    c.readToken.2.rest.length < c.rest.length ∧ ((∃ t, c.readToken.1 = .ok (some t)) ∨
      ∃ e, c.readToken.1 = .error e ∧ e.cause.Inside) := by
  have hle : c.skipIgnored.rest.length ≤ c.rest.length := by
    simp [skipIgnored, rest_advance]
  rcases c.readToken_cases with ⟨hrest, hend⟩ | ⟨x, rest, hrest, hd, hread⟩
  · exact .inl ⟨.ok none, hend, .ended hrest⟩
  have hshorter : (lexeme x rest).taken ≠ [] → c.readToken.2.rest.length < c.rest.length := by
    intro hne
    have hpos := List.length_pos_iff.2 hne
    rw [hd, rest_advance, List.length_drop]
    rw [hrest, List.length_cons] at hle ⊢
    omega
  rcases hread with ⟨kind, hk, hread⟩ | ⟨cause, hk, hread⟩
  · exact .inr ⟨hshorter (lexeme_taken hk), .inl ⟨_, hread⟩⟩
  · rcases lexeme_failure hk with ⟨hinside, hne⟩ | ⟨rfl, hnil, hprint⟩
    · exact .inr ⟨hshorter hne, .inr ⟨_, hread, hinside⟩⟩
    · rw [hnil] at hd
      have hstarts := startsLexeme_skipIgnored (hrest ▸ List.cons_ne_nil x rest)
      rw [hrest, startsLexeme_cons] at hstarts
      have hblank := hstarts.1
      exact .inl ⟨_, Prod.ext hread hd, .stuck hrest hblank (hprint hblank)⟩

end Cursor

namespace Lexer

variable {l : Lexer} {a : Answer} {path text : String}

/-- Whatever the lexer is asked for until it is reset, it answers `a`. -/
def Repeats (l : Lexer) (a : Answer) : Prop :=
  ∀ calls : List Call, .reset ∉ calls → ∀ b ∈ l.answers calls, b = a

theorem repeats_of_halts (hp : l.peeked = none) (hr : l.cursor.readToken = (a, l.cursor.skipIgnored))
    (ha : Halts l.cursor.skipIgnored a) : l.Repeats a := by
  have hnone : a.toOption.join = none := by
    cases ha <;> rfl
  have hagain : l.cursor.skipIgnored.readToken = (a, l.cursor.skipIgnored) := by
    rw [Cursor.readToken_skipIgnored, hr]
  -- The first answer may move the cursor over blanks; from there it stays.
  clear ha
  generalize l.cursor.skipIgnored = d at hr hagain
  intro calls hcalls
  induction calls generalizing l with
  | nil => exact List.forall_mem_nil _
  | cons call rest ih =>
    have hrest : .reset ∉ rest := fun hm => hcalls (List.mem_cons_of_mem _ hm)
    have hserve : l.serve call = (some a, { cursor := d }) := by
      cases call with
      | next => rw [serve, next_of_none hp, hr]
      | peek => rw [serve, peek_of_none hp, hr, hnone]
      | reset => exact absurd List.mem_cons_self hcalls
    intro b hb
    rw [answers, hserve] at hb
    rcases List.mem_append.1 hb with hb | hb
    · exact List.mem_singleton.1 hb
    · exact ih rfl hagain hrest b hb

/-- A lexer halts, or its next answer takes something of what it has before it. -/
theorem halts_or_next_lt (l : Lexer) :
    (∃ a, Halts l.cursor.skipIgnored a ∧ l.Repeats a) ∨ l.next.2.ahead < l.ahead := by
  cases hp : l.peeked with
  | some t =>
    refine .inr ?_
    rw [next_of_held hp]
    simp [ahead, hp]
  | none =>
    rcases l.cursor.readToken_halts_or_advances with ⟨a, hr, ha⟩ | ⟨hlt, _⟩
    · exact .inl ⟨a, ha, repeats_of_halts hp hr ha⟩
    · refine .inr ?_
      rw [next_of_none hp]
      simpa [ahead, hp] using hlt

/-- Asked for tokens again and again, a lexer halts before it has taken more than it has before it. -/
theorem exists_halts (l : Lexer) (n : Nat) (hn : l.ahead ≤ n) : ∃ k ≤ n, ∃ a,
    Halts (l.after (.replicate k .next)).cursor.skipIgnored a ∧
      (l.after (.replicate k .next)).Repeats a := by
  induction n generalizing l with
  | zero =>
    rcases l.halts_or_next_lt with ⟨a, ha⟩ | hlt
    · exact ⟨0, Nat.le_refl 0, a, ha⟩
    · omega
  | succ n ih =>
    rcases l.halts_or_next_lt with ⟨a, ha⟩ | hlt
    · exact ⟨0, Nat.zero_le _, a, ha⟩
    · obtain ⟨k, hk, a, ha⟩ := ih l.next.2 (by omega)
      exact ⟨k + 1, Nat.succ_le_succ hk, a, ha⟩

/-- A token that is held was taken from the text, so it does not count beside what is left. -/
theorem Reads.ahead_le (h : l.Reads path text) : l.ahead ≤ text.length := by
  have hlength := l.cursor.position_add_length
  rw [h.chars, String.length_toList, Cursor.position] at hlength
  rw [ahead]
  cases hp : l.peeked with
  | none =>
    rw [Option.toList_none, List.length_nil]
    omega
  | some t =>
    have hpos := List.length_pos_iff.2 (h.held (by simp [hp]))
    rw [Option.toList_some, List.length_singleton]
    omega

end Lexer

/-- Reading on behind failures comes to the end or sticks. Wherever a cursor stands, reading a token moves
it forward and never out of the text if a token is read or a failure other than an unexpected character
is met; all these failures are lexical. And whatever a lexer for a text was asked before, let it be asked
for tokens again and again, failures or not: after no more calls than the text has characters, so within
one call more, it answers one thing to every further call until it is reset. That is the end of the text,
or the failure for the unexpected character that it stands in front of, which is neither a blank nor
printable in ASCII. -/
theorem draining_ends_or_sticks :
    (∀ c : Cursor,
      c.readToken.2.chars = c.chars ∧ c.readToken.2.position ≤ c.chars.length ∧
      (∀ t, c.readToken.1 = .ok (some t) → c.position < c.readToken.2.position) ∧
      ∀ e, c.readToken.1 = .error e → e.kind = .lexical ∧
        ((∀ x, e.cause ≠ .unexpectedCharacter x) → c.position < c.readToken.2.position)) ∧
    ∀ (path text : String) (calls : List Lexer.Call),
      let l := (Lexer.ofText path text).after calls
      ∃ k ≤ text.length, ∃ a, Halts (l.after (.replicate k .next)).cursor.skipIgnored a ∧
        (l.after (.replicate k .next)).Repeats a := by
  constructor
  · intro c
    have hchars := c.chars_readToken
    have hbefore := c.position_add_length
    have hbehind := c.readToken.2.position_add_length
    rw [hchars] at hbehind
    refine ⟨hchars, by omega, ?_⟩
    rcases c.readToken_halts_or_advances with ⟨a, hread, ha⟩ | ⟨hlt, hread⟩
    · rw [hread]
      dsimp only
      cases ha with
      | ended _ => exact ⟨fun _ ht => (nomatch ht), fun _ he => (nomatch he)⟩
      | @stuck x _ _ _ _ =>
        refine ⟨fun _ ht => (nomatch ht), fun e he => ?_⟩
        obtain rfl := Except.error.inj he
        exact ⟨rfl, fun hne => absurd rfl (hne x)⟩
    · have hforward : c.position < c.readToken.2.position := by omega
      refine ⟨fun _ _ => hforward, fun e he => ⟨?_, fun _ => hforward⟩⟩
      rcases hread with ⟨t, ht⟩ | ⟨e', he', hinside⟩
      · cases ht.symm.trans he
      · cases he'.symm.trans he
        exact hinside.1
  · intro path text calls l
    have hreads : l.Reads path text := (Lexer.reads_ofText path text).after calls
    exact l.exists_halts text.length hreads.ahead_le

/-- Two failures inside lexemes, each read on behind, and a character that is not got over. -/
example : (Lexer.ofText "a" "1e+\"\\q\x00").answers (.replicate 4 .next) =
    [.error ⟨.malformedExponent "1e+", some ⟨"a", 1, 1⟩⟩, .error ⟨.unknownEscape 'q', some ⟨"a", 1, 4⟩⟩,
      .error ⟨.unexpectedCharacter '\x00', some ⟨"a", 1, 7⟩⟩,
      .error ⟨.unexpectedCharacter '\x00', some ⟨"a", 1, 7⟩⟩] := by
  cbv

end Concatenative
