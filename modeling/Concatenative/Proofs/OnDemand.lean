import Concatenative.Proofs.Strictness

/-! Building while tokens are read. A builder that is fed straight from a text reads no further than it
needs, so it may end before a lexeme that can not be read. Main statement: if all tokens of a text can
be read, it makes no difference whether they are read before; if a lexeme can not be read, the builder
comes to what it comes to on the tokens in front of it if it ends inside them, and fails with the
failure to read otherwise. -/
namespace Concatenative

/-- A builder ends at the token, given where the groups were opened that are open: a strict one at
whatever is at fault, a lenient one only at a `)` that closes no group. -/
def Token.ends (strict : Bool) (opened : List Location) (t : Token) : Bool :=
  (t.fault? opened).any fun cause => strict || cause = .strayClose

/-- A builder ends at one of the tokens. -/
def endsInside (strict : Bool) (opened : List Location) : List Token → Bool
  | [] => false
  | t :: rest => t.ends strict opened || endsInside strict (t.openedBehind opened) rest

namespace Builder

variable {b b' : Builder} {t : Token} {ts : List Token}

/-- Takes tokens as long as the builder goes on. -/
def feed (b : Builder) : List Token → Progress
  | [] => .more b
  | t :: rest =>
    match b.accept t with
    | .more b => b.feed rest
    | .done build => .done build

/-- What a builder comes to when there are no more tokens, for want of text or for a failure to
read. -/
def Progress.close (failure : Option Failure) : Progress → Build
  | .done build => build
  | .more b =>
    match failure with
    | none => b.finish
    | some e => b.done (.error e)

theorem ofTokens_eq_feed (b : Builder) (ts : List Token) : b.ofTokens ts = (b.feed ts).close none := by
  induction ts generalizing b with
  | nil => rfl
  | cons t rest ih =>
    rw [ofTokens, feed]
    cases b.accept t with
    | more b' => exact ih b'
    | done build => rfl

/-- The builder and the cursor stay in step. -/
theorem ofCursor_eq_feed (b : Builder) (c : Cursor) :
    b.ofCursor c = (b.feed c.tokens.1).close c.tokens.2 := by
  fun_induction Builder.ofCursor b c with
  | case1 b c t d hread b' hb ih => rw [Cursor.tokens_token hread, feed, hb, ih]
  | case2 b c t d hread build hb =>
    rw [Cursor.tokens_token hread, feed, hb]
    rfl
  | case3 b c d hread =>
    rw [Cursor.tokens_end hread]
    rfl
  | case4 b c e d hread =>
    rw [Cursor.tokens_failure hread]
    rfl

/-- A token that the builder does not end at is taken or skipped. -/
theorem accept_of_ends_eq_false (h : t.ends b.strict b.opened = false) :
    ∃ b', b.accept t = .more b' ∧ b'.strict = b.strict ∧ b'.opened = t.openedBehind b.opened := by
  cases hf : t.fault? b.opened with
  | none =>
    obtain ⟨b', ha, _, hs, ho⟩ := accept_of_fault?_eq_none hf
    exact ⟨b', ha, hs, ho⟩
  | some cause =>
    have hne : b.strict = false ∧ cause ≠ .strayClose := by simpa [Token.ends, hf] using h
    rcases Token.fault?_cases hf with ⟨c, hk, rfl⟩ | ⟨_, _, rfl⟩
    · refine ⟨{ b with skipped := t :: b.skipped }, ?_, rfl, ?_⟩
      · simp [accept, hk, hne.1]
      · simp [Token.openedBehind, hk, opened]
    · exact absurd rfl hne.2

/-- What a builder comes to at the token it ends at. -/
def EndsAt (build : Build) (strict : Bool) (t : Token) : Prop :=
  if strict then ∃ cause : Cause, cause.kind = .parse ∧ build.result = .error ⟨cause, some t.location⟩
  else t.kind = .operator .closeGroup ∧ ∃ body, build.result = .ok body

theorem accept_of_ends (h : t.ends b.strict b.opened = true) :
    ∃ build, b.accept t = .done build ∧ EndsAt build b.strict t := by
  obtain ⟨cause, hf, hc⟩ : ∃ cause, t.fault? b.opened = some cause ∧
      (b.strict = true ∨ cause = .strayClose) := by
    simpa [Token.ends, Option.any_eq_true] using h
  cases hb : b.strict with
  | true =>
    refine ⟨_, accept_of_fault?_eq_some hb hf, ?_⟩
    exact ⟨cause, Token.kind_of_fault? hf, rfl⟩
  | false =>
    rw [hb] at hc
    obtain rfl : cause = .strayClose := by simpa using hc
    rcases Token.fault?_cases hf with ⟨c, _, hne⟩ | ⟨hk, ho, _⟩
    · cases hne
    · refine ⟨b.done (.ok b.group.body), ?_, ?_⟩
      · simp [accept, hk, hb, opened_eq_nil ho]
      · exact ⟨hk, b.group.body, rfl⟩

theorem feed_of_endsInside (h : endsInside b.strict b.opened ts = true) :
    ∃ build, b.feed ts = .done build ∧ ∃ t ∈ ts, EndsAt build b.strict t := by
  induction ts generalizing b with
  | nil => cases h
  | cons t rest ih =>
    rw [feed]
    cases ht : t.ends b.strict b.opened with
    | true =>
      obtain ⟨build, ha, he⟩ := accept_of_ends ht
      rw [ha]
      exact ⟨build, rfl, t, List.mem_cons_self, he⟩
    | false =>
      obtain ⟨b', ha, hs, ho⟩ := accept_of_ends_eq_false ht
      rw [endsInside, ht, Bool.false_or, ← hs, ← ho] at h
      obtain ⟨build, hf, u, hu, he⟩ := ih h
      rw [ha]
      exact ⟨build, hf, u, List.mem_cons_of_mem _ hu, hs ▸ he⟩

theorem feed_of_endsInside_eq_false (h : endsInside b.strict b.opened ts = false) :
    ∃ b', b.feed ts = .more b' := by
  induction ts generalizing b with
  | nil => exact ⟨b, rfl⟩
  | cons t rest ih =>
    rw [endsInside, Bool.or_eq_false_iff] at h
    obtain ⟨b', ha, hs, ho⟩ := accept_of_ends_eq_false h.1
    rw [feed, ha]
    exact ih (by rw [hs, ho]; exact h.2)

end Builder

/-- Reading tokens on demand builds the same as reading them before. If a lexeme can not be read, that
is seen only if the builder does not end at one of the tokens in front of it: a strict builder with an
error of parsing there, a lenient one at a `)` that closes no group. -/
theorem build_on_demand (strict : Bool) (location : Location) (path text : String) :
    (∀ ts, tokenize path text = .ok ts →
      (Builder.start strict location).ofCursor (.ofText path text) =
        (Builder.start strict location).ofTokens ts) ∧
    ∀ ts e, (Cursor.ofText path text).tokens = (ts, some e) →
      (endsInside strict [] ts = true →
        (Builder.start strict location).ofCursor (.ofText path text) =
          (Builder.start strict location).ofTokens ts ∧
        ∃ t ∈ ts, Builder.EndsAt ((Builder.start strict location).ofTokens ts) strict t) ∧
      (endsInside strict [] ts = false →
        ((Builder.start strict location).ofCursor (.ofText path text)).result = .error e) := by
  rw [Builder.ofCursor_eq_feed]
  constructor
  · intro ts h
    rw [tokenize_eq_ok_iff.1 h, Builder.ofTokens_eq_feed]
  · intro ts e h
    rw [h, Builder.ofTokens_eq_feed]
    constructor
    · intro hin
      obtain ⟨build, hf, t, ht, he⟩ := Builder.feed_of_endsInside (b := .start strict location) hin
      rw [hf]
      exact ⟨rfl, t, ht, he⟩
    · intro hout
      obtain ⟨b', hf⟩ := Builder.feed_of_endsInside_eq_false (b := .start strict location) hout
      rw [hf]
      rfl

end Concatenative
