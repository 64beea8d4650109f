import Concatenative.Proofs.Respacing

/-! Looking ahead. What a lexer has yet to answer is one list, up to its first failure or the end of the
text. Taking a token takes the first answer off that list, looking at one leaves the list as it is, and
a reset brings the list of the whole text back. Main statement: as long as nothing has failed since the
last reset, the tokens taken since then tell alone what the next answer is (`peeking_is_transparent`). -/
namespace Concatenative

/-! ## Reading from a cursor -/

namespace Cursor

variable {c d : Cursor}

theorem skipIgnored_skipIgnored (c : Cursor) : c.skipIgnored.skipIgnored = c.skipIgnored := by
  have hnone : ignored false c.skipIgnored.rest = 0 := by
    by_cases hs : c.skipIgnored.rest = []
    · rw [hs]
      rfl
    · exact ignored_of_startsLexeme (startsLexeme_skipIgnored hs)
  rw [skipIgnored, hnone]
  rfl

/-- Reading starts at the next lexeme wherever in front of it the cursor stands. -/
theorem readToken_skipIgnored (c : Cursor) : c.skipIgnored.readToken = c.readToken := by
  unfold readToken
  rw [skipIgnored_skipIgnored]

/-- At the end there is only the end to be read. -/
theorem readToken_again (h : c.readToken = (.ok none, d)) : d.readToken = (.ok none, d) := by
  rcases c.readToken_cases with ⟨_, he⟩ | ⟨x, rest, _, _, ⟨kind, _, hk⟩ | ⟨cause, _, hk⟩⟩
  · obtain rfl : c.skipIgnored = d := congrArg Prod.snd (he.symm.trans h)
    rw [readToken_skipIgnored, h]
  · cases hk.symm.trans (congrArg Prod.fst h)
  · cases hk.symm.trans (congrArg Prod.fst h)

theorem chars_readToken (c : Cursor) : c.readToken.2.chars = c.chars := by
  rcases c.readToken_cases with ⟨_, h⟩ | ⟨x, rest, _, h, _⟩
  · rw [h]
    exact chars_advance _ _
  · rw [h, chars_advance]
    exact chars_advance _ _

theorem Placed.readToken {path : String} (h : c.Placed path) : c.readToken.2.Placed path := by
  rcases c.readToken_cases with ⟨_, hd⟩ | ⟨x, rest, _, hd, _⟩
  · rw [hd]
    exact h.advance _
  · rw [hd]
    exact (h.advance _).advance _

end Cursor

/-! ## Calls -/

namespace Lexer

/-- What a lexer answers: a token, the end, or a failure. -/
abbrev Answer := Except Failure (Option Token)

/-- What a lexer is asked for. -/
inductive Call where
  | next | peek | reset
deriving DecidableEq

/-- The answer to a call, which a reset does not have, and the lexer behind it. -/
def serve (l : Lexer) : Call → Option Answer × Lexer
  | .next => (some l.next.1, l.next.2)
  | .peek => (some l.peek.1, l.peek.2)
  | .reset => (none, l.reset)

/-- The lexer behind calls. -/
def after (l : Lexer) : List Call → Lexer
  | [] => l
  | call :: rest => (l.serve call).2.after rest

/-- The answers to calls. -/
def answers (l : Lexer) : List Call → List Answer
  | [] => []
  | call :: rest => (l.serve call).1.toList ++ (l.serve call).2.answers rest

variable {l m : Lexer} {path text : String}

theorem after_append (l : Lexer) (xs ys : List Call) : l.after (xs ++ ys) = (l.after xs).after ys := by
  induction xs generalizing l with
  | nil => rfl
  | cons call rest ih => exact ih _

/-- A lexer for a text, whatever it was asked before. A token that is held was read. -/
structure Reads (path text : String) (l : Lexer) : Prop where
  chars : l.cursor.chars = text.toList
  placed : l.cursor.Placed path
  held : l.peeked ≠ none → l.cursor.read ≠ []

theorem reads_ofText (path text : String) : (ofText path text).Reads path text :=
  ⟨rfl, rfl, fun h => absurd rfl h⟩

theorem Reads.reset (h : l.Reads path text) : l.reset = ofText path text := by
  have hpath : l.cursor.location.path = path := by
    rw [show l.cursor.location = _ from h.placed]
    rfl
  rw [Lexer.reset, Cursor.reset, h.chars, hpath]
  rfl

theorem next_of_held {t : Token} (h : l.peeked = some t) :
    l.next = (.ok (some t), { cursor := l.cursor }) := by
  unfold next
  rw [h]

theorem next_of_none (h : l.peeked = none) :
    l.next = (l.cursor.readToken.1, { cursor := l.cursor.readToken.2 }) := by
  unfold next
  rw [h]

theorem peek_of_held {t : Token} (h : l.peeked = some t) : l.peek = (.ok (some t), l) := by
  unfold peek
  rw [h]

theorem peek_of_none (h : l.peeked = none) : l.peek =
    (l.cursor.readToken.1,
      { cursor := l.cursor.readToken.2, peeked := l.cursor.readToken.1.toOption.join }) := by
  unfold peek
  rw [h]
  dsimp only
  rcases l.cursor.readToken with ⟨_ | _, _⟩ <;> rfl

theorem Reads.serve (h : l.Reads path text) (call : Call) : (l.serve call).2.Reads path text := by
  cases call with
  | reset =>
    rw [Lexer.serve, h.reset]
    exact reads_ofText path text
  | next =>
    rw [Lexer.serve]
    cases hp : l.peeked with
    | some t =>
      rw [next_of_held hp]
      exact ⟨h.chars, h.placed, fun hne => absurd rfl hne⟩
    | none =>
      rw [next_of_none hp]
      exact ⟨(Cursor.chars_readToken _).trans h.chars, h.placed.readToken, fun hne => absurd rfl hne⟩
  | peek =>
    rw [Lexer.serve]
    cases hp : l.peeked with
    | some t =>
      rw [peek_of_held hp]
      exact h
    | none =>
      rw [peek_of_none hp]
      refine ⟨(Cursor.chars_readToken _).trans h.chars, h.placed.readToken, fun hne => ?_⟩
      dsimp only at hne ⊢
      -- Only a token is held, and a token has characters.
      rcases hr : l.cursor.readToken with ⟨_ | _ | t, d⟩
      · exact absurd (by rw [hr]; rfl) hne
      · exact absurd (by rw [hr]; rfl) hne
      · obtain ⟨gap, _, hread, _, hlies⟩ := Cursor.readToken_token h.placed hr
        rintro (hnil : d.read = [])
        rw [hnil] at hread
        simp only [List.reverse_nil, List.nil_eq, List.append_eq_nil_iff, String.toList_eq_nil_iff] at hread
        exact hlies.token hread.2

theorem Reads.after (h : l.Reads path text) (calls : List Call) : (l.after calls).Reads path text := by
  induction calls generalizing l with
  | nil => exact h
  | cons call rest ih => exact ih (h.serve call)

/-! ## What is to come -/

/-- How much a lexer has before it: characters and the token that it holds. -/
def ahead (l : Lexer) : Nat := l.cursor.rest.length + l.peeked.toList.length

theorem ahead_next_lt {t : Token} (h : l.next = (.ok (some t), m)) : m.ahead < l.ahead := by
  cases hp : l.peeked with
  | some u =>
    rw [next_of_held hp] at h
    cases h
    simp [ahead, hp]
  | none =>
    rw [next_of_none hp, Prod.mk.injEq] at h
    obtain ⟨ht, rfl⟩ := h
    simpa [ahead, hp] using Cursor.rest_readToken_lt (Prod.ext ht rfl)

/-- The answers of `next` up to the first that is no token. -/
def upcoming (l : Lexer) : List Answer :=
  match _h : l.next with
  | (.ok (some t), m) => .ok (some t) :: m.upcoming
  | (.ok none, _) => [.ok none]
  | (.error e, _) => [.error e]
termination_by l.ahead
decreasing_by exact ahead_next_lt _h

theorem upcoming_eq (l : Lexer) : l.upcoming =
    match l.next with
    | (.ok (some t), m) => .ok (some t) :: m.upcoming
    | (.ok none, _) => [.ok none]
    | (.error e, _) => [.error e] := by
  rw [upcoming]
  split <;> simp [*]

/-- A failure to come is the last thing to come. -/
theorem getLast?_upcoming {e : Failure} (h : .error e ∈ l.upcoming) :
    l.upcoming.getLast? = some (.error e) := by
  fun_induction upcoming l with
  | case1 l t m hn ih =>
    have hm : .error e ∈ m.upcoming := by simpa using h
    rw [List.getLast?_cons, ih hm]
    rfl
  | case2 l m hn => cases List.mem_singleton.1 h
  | case3 l e' m hn => rw [List.mem_singleton.1 h, List.getLast?_singleton]

/-- The answers to come, counted from zero; past the last of them is the end of the text. -/
def nth (l : Lexer) (k : Nat) : Answer := l.upcoming.getD k (.ok none)

theorem nth_zero (l : Lexer) : l.nth 0 = l.next.1 := by
  rw [nth, upcoming_eq]
  rcases l.next with ⟨_ | _ | t, m⟩ <;> rfl

theorem nth_of_ended (h : l.next.1 = .ok none) (k : Nat) : l.nth k = .ok none := by
  rcases hn : l.next with ⟨a, m⟩
  obtain rfl : a = .ok none := by rw [← h, hn]
  rw [nth, upcoming_eq, hn]
  cases k <;> rfl

theorem next_again (h : l.next.1 = .ok none) : l.next.2.next.1 = .ok none := by
  cases hp : l.peeked with
  | some t =>
    rw [next_of_held hp] at h
    cases h
  | none =>
    rw [next_of_none hp] at h ⊢
    rw [next_of_none rfl, Cursor.readToken_again (Prod.ext h rfl)]

theorem peek_eq_next (l : Lexer) : l.peek.1 = l.next.1 := by
  cases hp : l.peeked with
  | some t => rw [peek_of_held hp, next_of_held hp]
  | none => rw [peek_of_none hp, next_of_none hp]

/-- Unless it fails, `next` takes one answer off what is to come. -/
theorem nth_next (h : ∀ e, l.next.1 ≠ .error e) (k : Nat) : l.next.2.nth k = l.nth (k + 1) := by
  rcases hn : l.next with ⟨e | _ | t, m⟩
  · exact absurd (congrArg Prod.fst hn) (h e)
  · have hend := congrArg Prod.fst hn
    rw [nth_of_ended hend, ← hn, nth_of_ended (next_again hend)]
  · rw [nth, nth, upcoming_eq l, hn]
    rfl

/-- Unless it fails, `peek` leaves what is to come as it is. -/
theorem nth_peek (h : ∀ e, l.peek.1 ≠ .error e) (k : Nat) : l.peek.2.nth k = l.nth k := by
  cases hp : l.peeked with
  | some t => rw [peek_of_held hp]
  | none =>
    rw [peek_of_none hp] at h ⊢
    rcases hr : l.cursor.readToken with ⟨e | _ | t, d⟩
    · exact absurd (congrArg Prod.fst hr) (h e)
    · have hend : l.next.1 = .ok none := by rw [next_of_none hp, hr]
      have hagain := next_again hend
      rw [next_of_none hp, hr] at hagain
      rw [nth_of_ended hend]
      exact nth_of_ended hagain k
    · rw [nth, nth, upcoming_eq l, next_of_none hp, hr, upcoming_eq, next_of_held rfl]

variable {since : List Call}

/-- What is to come behind calls without a reset and without a failure depends only on how often `next`
was among them. -/
theorem nth_after (hsince : .reset ∉ since) (hclean : ∀ e, .error e ∉ l.answers since) (k : Nat) :
    (l.after since).nth k = l.nth (since.count .next + k) := by
  induction since generalizing l with
  | nil => rw [List.count_nil, Nat.zero_add, after]
  | cons call rest ih =>
    have hrest : .reset ∉ rest := fun hr => hsince (List.mem_cons_of_mem _ hr)
    have hclean' : ∀ e, .error e ∉ (l.serve call).2.answers rest := fun e he =>
      hclean e (List.mem_append_right _ he)
    have hfirst : ∀ e, (l.serve call).1 ≠ some (.error e) := fun e he =>
      hclean e (List.mem_append_left _ (by rw [he]; exact List.mem_singleton_self _))
    rw [after, ih hrest hclean']
    cases call with
    | reset => exact absurd List.mem_cons_self hsince
    | next =>
      have hok : ∀ e, l.next.1 ≠ .error e := fun e he => hfirst e (congrArg some he)
      rw [List.count_cons_self, serve, nth_next hok]
      congr 1
      omega
    | peek =>
      have hok : ∀ e, l.peek.1 ≠ .error e := fun e he => hfirst e (congrArg some he)
      rw [List.count_cons_of_ne (by decide), serve, nth_peek hok]

/-- Looking ahead is not seen, and a reset is complete. Let `S` be the answers of `next` on a new lexer up
to its first failure or to the end of the text. Take any calls on a lexer for the same text, of which the
last ones, `since`, come behind a reset or are all there are, hold no reset and had no failure for an
answer. Then the next call of `next` or `peek` is answered by the entry of `S` that stands behind as many
as there are calls of `next` in `since`, or by the end if there is none; and if this answer is a failure,
it is the failure that `S` ends with. -/
theorem peeking_is_transparent (path text : String) (before since : List Call) (call : Call)
    (hstart : before = [] ∨ before.getLast? = some .reset) (hsince : .reset ∉ since)
    (hclean : ∀ e, .error e ∉ ((ofText path text).after before).answers since)
    (hcall : call ≠ .reset) :
    let S := (ofText path text).upcoming
    ∃ answer, (((ofText path text).after (before ++ since)).serve call).1 = some answer ∧
      answer = S.getD (since.count .next) (.ok none) ∧
      ∀ e, answer = .error e → S.getLast? = some (.error e) := by
  have hnew : (ofText path text).after before = ofText path text := by
    rcases hstart with rfl | hlast
    · rfl
    · obtain ⟨before, rfl⟩ := List.getLast?_eq_some_iff.1 hlast
      rw [after_append]
      exact ((reads_ofText path text).after before).reset
  rw [hnew] at hclean
  rw [after_append, hnew]
  have hnth := nth_after hsince hclean 0
  rw [nth_zero, Nat.add_zero] at hnth
  refine ⟨_, ?_, hnth, fun e he => getLast?_upcoming ?_⟩
  · cases call with
    | next => rfl
    | peek => rw [serve, peek_eq_next]
    | reset => exact absurd rfl hcall
  · rw [he, nth, List.getD_eq_getElem?_getD] at hnth
    cases hget : (ofText path text).upcoming[since.count .next]? with
    | none =>
      rw [hget] at hnth
      cases hnth
    | some a =>
      rw [hget] at hnth
      obtain rfl : .error e = a := hnth
      exact List.mem_of_getElem? hget

/-- A text with an unclosed string at its end, read past its failure and then from the start with the
first token looked at twice. -/
theorem peeking_is_transparent_unclosed :
    (((ofText "a" "x \"y").after
        [.next, .peek, .next, .reset, .peek, .peek, .next]).serve .peek).1 =
      some (.error ⟨.unterminatedString, some ⟨"a", 1, 3⟩⟩) := by
  have hclean : ((ofText "a" "x \"y").after [.next, .peek, .next, .reset]).answers
      [.peek, .peek, .next] = List.replicate 3 (.ok (some ⟨.symbol "x", "x", ⟨"a", 1, 1⟩⟩)) := by
    cbv
  have hfirst : (ofText "a" "x \"y").next =
      (.ok (some ⟨.symbol "x", "x", ⟨"a", 1, 1⟩⟩), ⟨⟨['x'], [' ', '"', 'y'], ⟨"a", 1, 2⟩⟩, none⟩) := by
    cbv
  have hsecond : (Lexer.mk ⟨['x'], [' ', '"', 'y'], ⟨"a", 1, 2⟩⟩ none).next =
      (.error ⟨.unterminatedString, some ⟨"a", 1, 3⟩⟩,
        ⟨⟨['y', '"', ' ', 'x'], [], ⟨"a", 1, 5⟩⟩, none⟩) := by
    cbv
  obtain ⟨answer, hserve, hanswer, _⟩ := peeking_is_transparent "a" "x \"y" [.next, .peek, .next, .reset]
    [.peek, .peek, .next] .peek (.inr (by decide)) (by decide) (by rw [hclean]; simp) (by decide)
  have hupcoming : (ofText "a" "x \"y").upcoming = [.ok (some ⟨.symbol "x", "x", ⟨"a", 1, 1⟩⟩),
      .error ⟨.unterminatedString, some ⟨"a", 1, 3⟩⟩] := by
    rw [upcoming_eq, hfirst]
    dsimp only
    rw [upcoming_eq, hsecond]
  rw [hupcoming] at hanswer
  exact hserve.trans (congrArg some hanswer)

end Lexer

end Concatenative
