import Concatenative.Code.Builder

/-! Strict builders. A scan reads tokens from left to right with a stack of the places where groups
were opened. It finds the first token that means nothing or closes no group, and if there is none, the
innermost group that is never closed. Main statement: a strict builder fails with just what the scan
finds, and if it finds nothing the builder makes the body that a lenient one makes. -/
namespace Concatenative

namespace Token

/-- What is wrong with a token, given where the groups were opened that are open before it. -/
def fault? (opened : List Location) (t : Token) : Option Cause :=
  match t.kind with
  | .unknown c => some (.unknownToken c)
  | .operator .closeGroup => if opened.isEmpty then some .strayClose else none
  | _ => none

/-- Where the groups were opened that are open behind a token, innermost first. -/
def openedBehind (opened : List Location) (t : Token) : List Location :=
  match t.kind with
  | .operator .openGroup => t.location :: opened
  | .operator .closeGroup => opened.tail
  | _ => opened

variable {opened : List Location} {t : Token} {cause : Cause}

/-- A token at fault means nothing, or closes a group where none is open. -/
theorem fault?_cases (h : t.fault? opened = some cause) :
    (∃ c, t.kind = .unknown c ∧ cause = .unknownToken c) ∨
      t.kind = .operator .closeGroup ∧ opened = [] ∧ cause = .strayClose := by
  obtain ⟨kind, text, location⟩ := t
  cases kind with
  | unknown c =>
    cases h
    exact .inl ⟨c, rfl, rfl⟩
  | operator o =>
    cases o with
    | closeGroup =>
      cases opened with
      | nil =>
        cases h
        exact .inr ⟨rfl, rfl, rfl⟩
      | cons l opened => cases h
    | openGroup => cases h
    | primitive p => cases h
  | _ => cases h

theorem kind_of_fault? (h : t.fault? opened = some cause) : cause.kind = .parse := by
  rcases fault?_cases h with ⟨c, _, rfl⟩ | ⟨_, _, rfl⟩ <;> rfl

end Token

/-- What is wrong with tokens, given where the groups were opened that are open before them. -/
def scan (opened : List Location) : List Token → Option Failure
  | [] => opened.head?.map fun l => ⟨.missingClose, some l⟩
  | t :: rest =>
    match t.fault? opened with
    | some cause => some ⟨cause, some t.location⟩
    | none => scan (t.openedBehind opened) rest

theorem kind_of_scan {opened : List Location} {ts : List Token} {e : Failure}
    (h : scan opened ts = some e) : e.kind = .parse := by
  induction ts generalizing opened with
  | nil =>
    cases opened with
    | nil => cases h
    | cons l outer => cases h; rfl
  | cons t rest ih =>
    rw [scan] at h
    split at h
    · next cause hf =>
      cases h
      exact Token.kind_of_fault? hf
    · exact ih h

namespace Builder

variable {b b' : Builder} {t : Token} {ts : List Token} {e : Failure}

/-- Where the groups were opened that are open. The outermost of all is not a group of the text. -/
def opened (b : Builder) : List Location := ((b.group :: b.outer).dropLast).map Group.location

/-- The builder with the same groups that refuses nothing. -/
def lenient (b : Builder) : Builder := { b with strict := false }

theorem opened_eq_nil (h : b.opened = []) : b.outer = [] := by
  cases ho : b.outer with
  | nil => rfl
  | cons around outer => simp [opened, ho] at h

theorem opened_push (b : Builder) (i : Instruction) :
    opened { b with group := b.group.push i } = b.opened := by
  cases ho : b.outer with
  | nil => simp [opened, ho]
  | cons around outer => simp [opened, ho, Group.push]

theorem opened_pushGroup {around : Group} {outer : List Group} (ho : b.outer = around :: outer) :
    opened { b with group := around.pushGroup b.group, outer } = b.opened.tail := by
  cases outer with
  | nil => simp [opened, ho]
  | cons next outer => simp [opened, ho, Group.pushGroup, Group.push]

/-- A token that is not at fault is taken, by a strict builder and a lenient one alike. -/
theorem accept_of_fault?_eq_none (h : t.fault? b.opened = none) :
    ∃ b', b.accept t = .more b' ∧ b.lenient.accept t = .more b'.lenient ∧ b'.strict = b.strict ∧
      b'.opened = t.openedBehind b.opened := by
  obtain ⟨kind, text, location⟩ := t
  cases kind with
  | unknown c => simp [Token.fault?] at h
  | operator o =>
    cases o with
    | openGroup => exact ⟨_, rfl, rfl, rfl, by simp [opened, Token.openedBehind]⟩
    | closeGroup =>
      cases ho : b.outer with
      | nil => simp [opened, ho, Token.fault?] at h
      | cons around outer =>
        refine ⟨{ b with group := around.pushGroup b.group, outer }, ?_, ?_, rfl, ?_⟩
        · simp [accept, ho]
        · simp [accept, lenient, ho]
        · simpa [Token.openedBehind] using opened_pushGroup ho
    | primitive p => exact ⟨_, rfl, rfl, rfl, opened_push b _⟩
  | _ => exact ⟨_, rfl, rfl, rfl, opened_push b _⟩

/-- A token that is at fault is refused by a strict builder. -/
theorem accept_of_fault?_eq_some {cause : Cause} (hb : b.strict = true)
    (h : t.fault? b.opened = some cause) : b.accept t = .done (b.refuse cause t.location) := by
  rcases Token.fault?_cases h with ⟨c, hk, rfl⟩ | ⟨hk, ho, rfl⟩
  · simp [accept, hk, hb]
  · simp [accept, hk, hb, opened_eq_nil ho]

theorem ofTokens_of_scan_eq_some (hb : b.strict = true) (h : scan b.opened ts = some e) :
    (b.ofTokens ts).result = .error e := by
  induction ts generalizing b with
  | nil =>
    cases ho : b.outer with
    | nil => simp [scan, opened, ho] at h
    | cons around outer =>
      simp only [scan, opened, ho, List.dropLast_cons_cons, List.map_cons, List.head?_cons,
        Option.map_some, Option.some.injEq] at h
      simp [ofTokens, finish, hb, ho, refuse, done, ← h]
  | cons t rest ih =>
    rw [scan] at h
    split at h
    · next cause hf =>
      cases h
      rw [ofTokens, accept_of_fault?_eq_some hb hf]
      rfl
    · next hf =>
      obtain ⟨b', ha, _, hs, ho⟩ := accept_of_fault?_eq_none hf
      rw [ofTokens, ha]
      exact ih (hs.trans hb) (ho ▸ h)

theorem ofTokens_of_scan_eq_none (h : scan b.opened ts = none) :
    ∃ body, (b.ofTokens ts).result = .ok body ∧ (b.lenient.ofTokens ts).result = .ok body := by
  induction ts generalizing b with
  | nil =>
    have ho : b.outer = [] := opened_eq_nil (by simpa [scan] using h)
    exact ⟨b.group.body, by simp [ofTokens, finish, ho, done, Group.closeAll],
      by simp [ofTokens, finish, lenient, ho, done, Group.closeAll]⟩
  | cons t rest ih =>
    rw [scan] at h
    split at h
    · cases h
    · next hf =>
      obtain ⟨b', ha, hl, _, ho⟩ := accept_of_fault?_eq_none hf
      rw [ofTokens, ofTokens, ha, hl]
      exact ih (ho ▸ h)

end Builder

/-- A strict builder accepts just the tokens that are well-formed. If the scan finds something wrong,
the builder fails with it and it is an error of parsing; otherwise strict and lenient builders make the
same body. -/
theorem strict_build_follows_scan (location : Location) (ts : List Token) :
    (∀ e, scan [] ts = some e → e.kind = .parse ∧
      ((Builder.start true location).ofTokens ts).result = .error e) ∧
    (scan [] ts = none → ∃ body, ((Builder.start true location).ofTokens ts).result = .ok body ∧
      ((Builder.start false location).ofTokens ts).result = .ok body) := by
  constructor
  · intro e h
    exact ⟨kind_of_scan h, Builder.ofTokens_of_scan_eq_some rfl h⟩
  · intro h
    exact Builder.ofTokens_of_scan_eq_none (b := .start true location) h

end Concatenative
