import Concatenative.Proofs.Layout
import Mathlib.Data.List.TakeWhile
import Mathlib.Data.Nat.Digits.Defs

/-! Numbers by their grammar. A numeral is an optional minus, digits, an optional fraction and an
optional exponent. Main statements: the parts that are read off a text are those of the longest numeral
that starts it, an exponent without digits left out (`longest_reduced`), and a number is read exactly
where what is behind that numeral lets it end (`numbers_follow_grammar`). -/
namespace Concatenative

theorem getElem?_append_length (as bs : List Char) : (as ++ bs)[as.length]? = bs.head? := by
  rw [List.getElem?_append_right (Nat.le_refl _), Nat.sub_self, List.head?_eq_getElem?]

namespace Lexeme

/-- A number starts here: a digit, or a minus with a digit behind it. -/
def OpensNumber (s : List Char) : Prop :=
  ∃ d rest, d.isDigit = true ∧ (s = d :: rest ∨ s = '-' :: d :: rest)

theorem startsNumber_iff (s : List Char) : startsNumber s = true ↔ OpensNumber s := by
  constructor
  · intro h
    unfold startsNumber at h
    split at h
    · next d rest => exact ⟨d, rest, h, .inr rfl⟩
    · next c rest _ => exact ⟨c, rest, h, .inl rfl⟩
    · cases h
  · rintro ⟨d, rest, hd, rfl | rfl⟩
    · have hne : d ≠ '-' := by rintro rfl; cases hd
      simp [startsNumber, hne, hd]
    · simpa [startsNumber] using hd

namespace Numeral

/-! ## The grammar -/

/-- One digit or more. -/
def IsDigits (ds : List Char) : Prop := ds ≠ [] ∧ ∀ c ∈ ds, c.isDigit = true

inductive IsFraction : List Char → Prop
  | absent : IsFraction []
  | places {ds : List Char} : IsDigits ds → IsFraction ('.' :: ds)

inductive IsExponent : List Char → Prop
  | absent : IsExponent []
  | power {mark : Char} {sign ds : List Char} : mark = 'e' ∨ mark = 'E' →
      sign = [] ∨ sign = ['+'] ∨ sign = ['-'] → IsDigits ds → IsExponent (mark :: (sign ++ ds))

/-- The parts are as the grammar has them. -/
structure Grammatical (n : Numeral) : Prop where
  sign : n.sign = [] ∨ n.sign = ['-']
  whole : IsDigits n.whole
  fraction : IsFraction n.fraction
  exponent : IsExponent n.exponent

/-- No longer numeral starts the text. -/
structure Longest (s : List Char) (n : Numeral) : Prop where
  grammatical : n.Grammatical
  starts : n.chars <+: s
  longest : ∀ m : Numeral, m.Grammatical → m.chars <+: s → m.chars.length ≤ n.chars.length

/-- The number that a numeral without fraction and exponent stands for. -/
def decimal (n : Numeral) : Int :=
  let magnitude : Nat := Nat.ofDigits 10 (n.whole.reverse.map fun c => c.toNat - '0'.toNat)
  if n.sign = [] then magnitude else -magnitude

/-- The numeral may end in front of `next`, and it stands for a number that there is. -/
def MayEnd (n : Numeral) (next : Option Char) : Prop :=
  (∀ c ∈ next, ¬ (c.isAlpha = true ∨ c.isDigit = true ∨ c = '_')) ∧
  (n.fraction ≠ [] ∨ n.exponent ≠ [] → next ≠ some '.') ∧
  (n.fraction = [] ∧ n.exponent = [] → -2 ^ 63 ≤ n.decimal ∧ n.decimal ≤ 2 ^ 63 - 1)

theorem isFloat_iff (n : Numeral) : n.isFloat = true ↔ n.fraction ≠ [] ∨ n.exponent ≠ [] := by
  simp [isFloat]

theorem digitsValue_eq_ofDigits (ds : List Char) :
    Decimal.digitsValue ds = Nat.ofDigits 10 (ds.reverse.map fun c => c.toNat - '0'.toNat) := by
  rw [Nat.ofDigits_eq_foldr, List.map_reverse, List.foldr_reverse, List.foldl_map]
  simp only [Decimal.digitsValue, Nat.cast_id, Nat.add_comm]

theorem intValue_eq_decimal (n : Numeral) : n.intValue = n.decimal := by
  simp only [intValue, decimal, digitsValue_eq_ofDigits, List.isEmpty_iff]

/-! ## Parts -/

/-- A numeral that was read off `s`, and what is left of the text behind its sign, its digits and its
fraction. -/
structure Parts (n : Numeral) (s s₁ s₂ s₃ : List Char) : Prop where
  sign : n.sign = if s.head? = some '-' then ['-'] else []
  behindSign : s = n.sign ++ s₁
  whole : n.whole = s₁.takeWhile Char.isDigit
  behindWhole : s₁ = n.whole ++ s₂
  fraction : n.fraction = fractionOf s₂
  behindFraction : s₂ = n.fraction ++ s₃
  exponent : n.exponent = exponentOf s₃

theorem ofChars_parts (s : List Char) : ∃ s₁ s₂ s₃, (ofChars s).Parts s s₁ s₂ s₃ := by
  have hdrop : ∀ {a b : List Char}, a <+: b → b = a ++ b.drop a.length := fun h =>
    (List.prefix_iff_eq_append.1 h).symm
  have hsign : (ofChars s).sign <+: s := by
    cases s with
    | nil => simp [ofChars]
    | cons c rest => by_cases hc : c = '-' <;> simp [ofChars, hc]
  exact ⟨_, _, _, rfl, hdrop hsign, rfl, hdrop (List.takeWhile_prefix _), rfl,
    hdrop (fractionOf_isPrefix _), rfl⟩

section

variable {s ds tail f e : List Char}

/-- Digits that start a text are all that do, or nothing but digits is looked for. -/
theorem digits_cases (hd : ∀ c ∈ ds, c.isDigit = true) (ht : ∀ c ∈ tail.head?, c.isDigit = false)
    (h : ds ++ tail <+: s) : ds = s.takeWhile Char.isDigit ∨
      tail = [] ∧ ds.length ≤ (s.takeWhile Char.isDigit).length := by
  obtain ⟨rest, rfl⟩ := h
  rw [List.append_assoc, List.takeWhile_append_of_pos hd]
  cases tail with
  | nil => exact .inr ⟨rfl, by simp⟩
  | cons c tail =>
    have hc := ht c rfl
    exact .inl (by simp [hc])

theorem IsExponent.head (h : IsExponent e) : ∀ c ∈ e.head?, c = 'e' ∨ c = 'E' := by
  cases h with
  | absent => nofun
  | power hm _ _ =>
    intro c hc
    cases hc
    exact hm

theorem head_of_fraction (hf : IsFraction f) (he : IsExponent e) :
    ∀ c ∈ (f ++ e).head?, c.isDigit = false := by
  cases hf with
  | absent =>
    intro c hc
    rcases he.head c hc with rfl | rfl <;> rfl
  | places _ =>
    intro c hc
    cases hc
    rfl

theorem isFraction_fractionOf (s : List Char) : IsFraction (fractionOf s) := by
  unfold fractionOf
  split
  · next d rest =>
    split
    · next hd => exact .places ⟨by simp [hd], fun c hc => List.mem_takeWhile_imp hc⟩
    · exact .absent
  · exact .absent

/-- A fraction that starts a text is the one that is read, or nothing but a fraction is looked for. -/
theorem fraction_cases (hf : IsFraction f) (he : IsExponent e) (h : f ++ e <+: s) :
    f = fractionOf s ∨ e = [] ∧ f.length ≤ (fractionOf s).length := by
  cases hf with
  | absent =>
    cases he with
    | absent => exact .inr ⟨rfl, Nat.zero_le _⟩
    | power hm _ _ =>
      obtain ⟨rest, rfl⟩ := h
      refine .inl ?_
      rcases hm with rfl | rfl <;> rfl
  | @places ds hds =>
    obtain ⟨rest, rfl⟩ := h
    obtain ⟨d, ds, rfl⟩ := List.exists_cons_of_ne_nil hds.1
    have hd : d.isDigit = true := hds.2 d List.mem_cons_self
    have hread : fractionOf ('.' :: d :: ds ++ e ++ rest) =
        '.' :: (d :: ds ++ e ++ rest).takeWhile Char.isDigit := by
      simp [fractionOf, hd]
    rw [hread]
    have hprefix : d :: ds ++ e <+: d :: ds ++ e ++ rest := List.prefix_append _ _
    rcases digits_cases hds.2 (head_of_fraction .absent he) hprefix with heq | ⟨hnil, hle⟩
    · exact .inl (congrArg (List.cons '.') heq)
    · exact .inr ⟨hnil, Nat.succ_le_succ hle⟩

/-- What is read of an exponent is one, or a mark without digits. -/
theorem exponentOf_cases (s : List Char) : IsExponent (exponentOf s) ∨
    (exponentOf s).any Char.isDigit = false ∧ ∃ c ∈ s.head?, c = 'e' ∨ c = 'E' := by
  unfold exponentOf
  split
  · next mark next rest =>
    split
    · next hm =>
      have hmark : mark = 'e' ∨ mark = 'E' := by simpa using hm
      split
      · next hsign =>
        have hs : [next] = [] ∨ [next] = ['+'] ∨ [next] = ['-'] := by
          simpa [or_comm] using hsign
        cases hds : rest.takeWhile Char.isDigit with
        | nil =>
          refine .inr ⟨?_, mark, rfl, hmark⟩
          have hnext : next = '-' ∨ next = '+' := by simpa using hsign
          rcases hmark with rfl | rfl <;> rcases hnext with rfl | rfl <;> rfl
        | cons d ds =>
          refine .inl (IsExponent.power hmark hs ⟨List.cons_ne_nil _ _, ?_⟩)
          rw [← hds]
          exact fun c hc => List.mem_takeWhile_imp hc
      · split
        · next hd =>
          have hds : IsDigits ((next :: rest).takeWhile Char.isDigit) :=
            ⟨by simp [hd], fun c hc => List.mem_takeWhile_imp hc⟩
          exact .inl (.power hmark (.inl rfl) hds)
        · exact .inl .absent
    · exact .inl .absent
  · exact .inl .absent

/-- Behind a mark, its sign and a digit, all the digits that follow are read. -/
theorem exponentOf_power {mark : Char} {sign : List Char} (hmark : mark = 'e' ∨ mark = 'E')
    (hsign : sign = [] ∨ sign = ['+'] ∨ sign = ['-']) (hds : IsDigits ds) :
    exponentOf (mark :: (sign ++ ds) ++ tail) =
      mark :: (sign ++ (ds ++ tail).takeWhile Char.isDigit) := by
  obtain ⟨d, ds, rfl⟩ := List.exists_cons_of_ne_nil hds.1
  have hd : d.isDigit = true := hds.2 d List.mem_cons_self
  have hm : (mark = 'e' || mark = 'E') = true := by simpa using hmark
  -- Where there is no sign, the first digit must not be taken for one.
  have hne : ∀ c, c.isDigit = false → d ≠ c := by
    rintro c hc rfl
    cases hc.symm.trans hd
  rcases hsign with rfl | rfl | rfl
  · simp [exponentOf, hm, hd, hne '-' rfl, hne '+' rfl]
  · simp [exponentOf, hm]
  · simp [exponentOf, hm]

/-- An exponent that starts a text is not longer than the one that is read. -/
theorem exponent_cases (he : IsExponent e) (h : e <+: s) :
    e = [] ∨ IsExponent (exponentOf s) ∧ e.length ≤ (exponentOf s).length := by
  cases he with
  | absent => exact .inl rfl
  | @power mark sign ds hmark hsign hds =>
    obtain ⟨rest, rfl⟩ := h
    rw [exponentOf_power hmark hsign hds, List.takeWhile_append_of_pos hds.2]
    refine .inr ⟨.power hmark hsign ⟨by simp [hds.1], fun c hc => ?_⟩, by simp⟩
    rcases List.mem_append.1 hc with hc | hc
    · exact hds.2 c hc
    · exact List.mem_takeWhile_imp hc

end

/-! ## The longest numeral -/

/-- Without an exponent that has no digits. -/
def reduced (n : Numeral) : Numeral :=
  { n with exponent := if n.lacksExponentDigits then [] else n.exponent }

theorem length_chars (n : Numeral) : n.chars.length =
    n.sign.length + (n.whole.length + (n.fraction.length + n.exponent.length)) := by
  simp [chars]

theorem chars_ne_nil {n : Numeral} (h : n.whole ≠ []) : n.chars ≠ [] := by
  intro hnil
  simp only [chars, List.append_eq_nil_iff] at hnil
  exact h hnil.1.1.2

theorem reduced_isPrefix (n : Numeral) : n.reduced.chars <+: n.chars := by
  unfold reduced
  split
  · rw [chars, chars, List.append_nil]
    exact List.prefix_append _ _
  · exact List.prefix_rfl

theorem lacksExponentDigits_of_isExponent {n : Numeral} (h : IsExponent n.exponent) :
    n.lacksExponentDigits = false := by
  unfold lacksExponentDigits
  cases he : n.exponent with
  | nil => rfl
  | cons mark rest =>
    rw [he] at h
    cases h with
    | @power _ sign ds _ _ hds =>
      obtain ⟨d, ds, rfl⟩ := List.exists_cons_of_ne_nil hds.1
      simp [hds.2 d List.mem_cons_self]

section

variable {m n : Numeral} {s s₁ s₂ s₃ : List Char}

/-- An exponent that lacks digits starts like one that does not. -/
theorem Parts.lacks (h : n.Parts s s₁ s₂ s₃) (hl : n.lacksExponentDigits = true) :
    ¬ IsExponent n.exponent ∧ ∃ c ∈ s₃.head?, c = 'e' ∨ c = 'E' := by
  have hexp : ¬ IsExponent n.exponent := by
    intro hexp
    cases hl.symm.trans (lacksExponentDigits_of_isExponent hexp)
  refine ⟨hexp, ?_⟩
  rw [h.exponent] at hexp
  exact ((exponentOf_cases s₃).resolve_left hexp).2

theorem Parts.reduced_append (h : n.Parts s s₁ s₂ s₃) (hl : n.lacksExponentDigits = true) :
    s = n.reduced.chars ++ s₃ := by
  rw [chars, reduced, if_pos hl, List.append_nil, List.append_assoc, List.append_assoc,
    ← h.behindFraction, ← h.behindWhole, ← h.behindSign]

theorem Parts.isExponent (h : n.Parts s s₁ s₂ s₃) (hl : n.lacksExponentDigits = false) :
    IsExponent n.exponent := by
  rcases exponentOf_cases s₃ with hexp | ⟨hany, _⟩
  · exact h.exponent ▸ hexp
  · rw [← h.exponent] at hany
    have hnil : n.exponent = [] := by simpa [lacksExponentDigits, hany] using hl
    exact hnil ▸ .absent

theorem Parts.isDigits (h : n.Parts s s₁ s₂ s₃) (hs : OpensNumber s) : IsDigits n.whole := by
  rw [h.whole]
  refine ⟨?_, fun c hc => List.mem_takeWhile_imp hc⟩
  have hsign := h.sign
  have hbehind := h.behindSign
  obtain ⟨d, rest, hd, rfl | rfl⟩ := hs
  · have hne : d ≠ '-' := by rintro rfl; cases hd
    rw [hsign, List.head?_cons, if_neg (by simpa using hne)] at hbehind
    obtain rfl : d :: rest = s₁ := hbehind
    simp [hd]
  · rw [hsign] at hbehind
    obtain rfl : d :: rest = s₁ := by simpa using hbehind
    simp [hd]

theorem Parts.grammatical (h : n.Parts s s₁ s₂ s₃) (hs : OpensNumber s) :
    n.reduced.Grammatical := by
  refine ⟨?_, h.isDigits hs, h.fraction ▸ isFraction_fractionOf s₂, ?_⟩
  · rw [reduced, h.sign]
    split
    · exact .inr rfl
    · exact .inl rfl
  · unfold reduced
    dsimp only
    split
    · exact .absent
    · next hl => exact h.isExponent (by simpa using hl)

theorem Parts.sign_eq (h : n.Parts s s₁ s₂ s₃) (hm : m.Grammatical) (hstarts : m.chars <+: s) :
    m.sign = n.sign := by
  obtain ⟨d, ds, hds⟩ := List.exists_cons_of_ne_nil hm.whole.1
  have hd : d.isDigit = true := hm.whole.2 d (hds ▸ List.mem_cons_self)
  have hne : d ≠ '-' := by rintro rfl; cases hd
  have hsign := h.sign
  obtain ⟨rest, rfl⟩ := hstarts
  rw [hsign]
  rcases hm.sign with hm | hm <;> simp [chars, hm, hds, hne]

theorem Parts.exponent_le (h : n.Parts s s₁ s₂ s₃) (hm : m.Grammatical) (hstarts : m.exponent <+: s₃) :
    m.exponent.length ≤ n.reduced.exponent.length := by
  rcases exponent_cases hm.exponent hstarts with hnil | ⟨hexp, hle⟩
  · rw [hnil]
    exact Nat.zero_le _
  · rw [← h.exponent] at hexp hle
    simpa [reduced, lacksExponentDigits_of_isExponent hexp] using hle

theorem Parts.fraction_le (h : n.Parts s s₁ s₂ s₃) (hm : m.Grammatical)
    (hstarts : m.fraction ++ m.exponent <+: s₂) :
    m.fraction.length + m.exponent.length ≤ n.fraction.length + n.reduced.exponent.length := by
  rcases fraction_cases hm.fraction hm.exponent hstarts with heq | ⟨hnil, hle⟩
  · rw [← h.fraction] at heq
    rw [h.behindFraction, heq, List.prefix_append_right_inj] at hstarts
    have hle := h.exponent_le hm hstarts
    rw [heq]
    omega
  · rw [← h.fraction] at hle
    rw [hnil, List.length_nil]
    omega

theorem Parts.whole_le (h : n.Parts s s₁ s₂ s₃) (hm : m.Grammatical)
    (hstarts : m.whole ++ (m.fraction ++ m.exponent) <+: s₁) :
    m.whole.length + (m.fraction.length + m.exponent.length) ≤
      n.whole.length + (n.fraction.length + n.reduced.exponent.length) := by
  rcases digits_cases hm.whole.2 (head_of_fraction hm.fraction hm.exponent) hstarts with
    heq | ⟨hnil, hle⟩
  · rw [← h.whole] at heq
    rw [h.behindWhole, heq, List.prefix_append_right_inj] at hstarts
    have hle := h.fraction_le hm hstarts
    rw [heq]
    omega
  · rw [← h.whole] at hle
    have hlen := congrArg List.length hnil
    rw [List.length_append, List.length_nil] at hlen
    omega

/-- What is read where a number starts is the longest numeral there, unless the digits of an exponent
are missing. -/
theorem longest_reduced (hs : OpensNumber s) : (ofChars s).reduced.Longest s := by
  obtain ⟨s₁, s₂, s₃, h⟩ := ofChars_parts s
  refine ⟨h.grammatical hs, (reduced_isPrefix _).trans (numeral_isPrefix s), fun m hm hstarts => ?_⟩
  have hsign := h.sign_eq hm hstarts
  have hrest : m.whole ++ (m.fraction ++ m.exponent) <+: s₁ := by
    rw [chars, List.append_assoc, List.append_assoc, hsign] at hstarts
    nth_rewrite 2 [h.behindSign] at hstarts
    exact (List.prefix_append_right_inj _).1 hstarts
  have hle := h.whole_le hm hrest
  rw [length_chars, length_chars, hsign]
  exact Nat.add_le_add_left hle _

end

theorem Longest.chars_eq {s : List Char} {m n : Numeral} (hm : m.Longest s) (hn : n.Longest s) :
    m.chars = n.chars :=
  List.IsPrefix.eq_of_length (List.prefix_of_prefix_length_le hm.starts hn.starts
    (hn.longest m hm.grammatical hm.starts))
    (Nat.le_antisymm (hn.longest m hm.grammatical hm.starts) (hm.longest n hn.grammatical hn.starts))

/-! ## Reading back -/

section

variable {rest f e : List Char}

theorem takeWhile_digits {ds : List Char} (hd : ∀ c ∈ ds, c.isDigit = true)
    (hrest : ∀ c ∈ rest.head?, c.isDigit = false) : (ds ++ rest).takeWhile Char.isDigit = ds := by
  rw [List.takeWhile_append_of_pos hd]
  cases rest with
  | nil => simp
  | cons c rest => simp [hrest c rfl]

theorem fractionOf_append (hf : IsFraction f)
    (hrest : ∀ c ∈ rest.head?, c.isDigit = false ∧ c ≠ '.') : fractionOf (f ++ rest) = f := by
  cases hf with
  | absent =>
    cases rest with
    | nil => rfl
    | cons c rest =>
      rw [List.nil_append, fractionOf]
      rintro d ds ⟨rfl, rfl⟩
      exact (hrest '.' rfl).2 rfl
  | @places ds hds =>
    obtain ⟨d, ds, rfl⟩ := List.exists_cons_of_ne_nil hds.1
    have hback := takeWhile_digits hds.2 fun c hc => (hrest c hc).1
    have hd : d.isDigit = true := hds.2 d List.mem_cons_self
    rw [List.cons_append, List.cons_append, fractionOf, if_pos hd, ← List.cons_append, hback]

theorem exponentOf_append (he : IsExponent e)
    (hrest : ∀ c ∈ rest.head?, c.isDigit = false ∧ c ≠ 'e' ∧ c ≠ 'E') :
    exponentOf (e ++ rest) = e := by
  cases he with
  | absent =>
    cases rest with
    | nil => rfl
    | cons c rest =>
      obtain ⟨_, hc, hC⟩ := hrest c rfl
      cases rest <;> simp [exponentOf, hc, hC]
  | @power mark sign ds hmark hsign hds =>
    have hback := takeWhile_digits hds.2 fun c hc => (hrest c hc).1
    rw [exponentOf_power hmark hsign hds, hback]

theorem Grammatical.opens {n : Numeral} (hn : n.Grammatical) : OpensNumber (n.chars ++ rest) := by
  obtain ⟨d, ds, hds⟩ := List.exists_cons_of_ne_nil hn.whole.1
  have hd : d.isDigit = true := hn.whole.2 d (hds ▸ List.mem_cons_self)
  refine ⟨d, ds ++ n.fraction ++ n.exponent ++ rest, hd, ?_⟩
  rcases hn.sign with hsign | hsign
  · exact .inl (by simp [chars, hsign, hds])
  · exact .inr (by simp [chars, hsign, hds])

/-- A numeral is read back where what is behind it does not go on with it. -/
theorem ofChars_append {n : Numeral} (hn : n.Grammatical)
    (hrest : ∀ c ∈ rest.head?, c.isDigit = false ∧ c ≠ '.' ∧ c ≠ 'e' ∧ c ≠ 'E') :
    ofChars (n.chars ++ rest) = n := by
  obtain ⟨s₁, s₂, s₃, h⟩ := ofChars_parts (n.chars ++ rest)
  have hsign := h.sign_eq hn (List.prefix_append _ _)
  have h₁ : s₁ = n.whole ++ (n.fraction ++ (n.exponent ++ rest)) := by
    have hbehind := h.behindSign
    rw [← hsign] at hbehind
    simpa [chars] using hbehind.symm
  have hwhole : (ofChars (n.chars ++ rest)).whole = n.whole := by
    rw [h.whole, h₁]
    refine takeWhile_digits hn.whole.2 ?_
    rw [← List.append_assoc]
    cases hfe : n.fraction ++ n.exponent with
    | nil => exact fun c hc => (hrest c hc).1
    | cons c tail => 
      intro d hd
      exact head_of_fraction hn.fraction hn.exponent d (hfe ▸ hd)
  have h₂ : s₂ = n.fraction ++ (n.exponent ++ rest) := by
    have hbehind := h.behindWhole
    rw [h₁, hwhole] at hbehind
    exact (List.append_cancel_left hbehind).symm
  have hfraction : (ofChars (n.chars ++ rest)).fraction = n.fraction := by
    rw [h.fraction, h₂]
    refine fractionOf_append hn.fraction ?_
    cases he : n.exponent with
    | nil => exact fun c hc => ⟨(hrest c hc).1, (hrest c hc).2.1⟩
    | cons c tail =>
      intro d hd
      rcases hn.exponent.head d (he ▸ hd) with rfl | rfl
      · exact ⟨rfl, by decide⟩
      · exact ⟨rfl, by decide⟩
  have h₃ : s₃ = n.exponent ++ rest := by
    have hbehind := h.behindFraction
    rw [h₂, hfraction] at hbehind
    exact (List.append_cancel_left hbehind).symm
  have hexponent : (ofChars (n.chars ++ rest)).exponent = n.exponent := by
    rw [h.exponent, h₃]
    exact exponentOf_append hn.exponent fun c hc => ⟨(hrest c hc).1, (hrest c hc).2.2⟩
  generalize ofChars (n.chars ++ rest) = m at hsign hwhole hfraction hexponent
  obtain ⟨sign, whole, fraction, exponent⟩ := m
  dsimp only at hsign hwhole hfraction hexponent
  rw [← hsign, hwhole, hfraction, hexponent]

end

theorem Longest.eq {s : List Char} {m n : Numeral} (hm : m.Longest s) (hn : n.Longest s) : m = n := by
  have hback : ∀ {n : Numeral}, n.Grammatical → ofChars n.chars = n := fun {n} hn => by
    have happend : ofChars (n.chars ++ []) = n := ofChars_append hn nofun
    rwa [List.append_nil] at happend
  rw [← hback hm.grammatical, hm.chars_eq hn, hback hn.grammatical]

/-! ## What a number comes to -/

theorem isNameChar_iff (c : Char) :
    isNameChar c = true ↔ c.isAlpha = true ∨ c.isDigit = true ∨ c = '_' := by
  simp [isNameChar, Char.isAlphanum, or_assoc]

/-- The characters that a numeral must not run into. -/
theorem runsOn_iff (n : Numeral) (next : Option Char) :
    (next.any fun c => isNameChar c || (c = '.' && n.isFloat)) = true ↔
      ¬ ((∀ c ∈ next, ¬ (c.isAlpha = true ∨ c.isDigit = true ∨ c = '_')) ∧
        (n.fraction ≠ [] ∨ n.exponent ≠ [] → next ≠ some '.')) := by
  cases next with
  | none => simp
  | some c =>
    rw [← isFloat_iff]
    simp only [Option.any_some, Bool.or_eq_true, isNameChar_iff, Bool.and_eq_true, decide_eq_true_eq,
      Option.mem_def, Option.some.injEq, forall_eq', ne_eq]
    tauto

theorem inRange_iff (n : Numeral) :
    (Int64.minValue.toInt ≤ n.intValue ∧ n.intValue ≤ Int64.maxValue.toInt) ↔
      -2 ^ 63 ≤ n.decimal ∧ n.decimal ≤ 2 ^ 63 - 1 := by
  rw [intValue_eq_decimal]
  rfl

theorem MayEnd.denote {n : Numeral} {next : Option Char} (hn : n.Grammatical) (h : n.MayEnd next) :
    ∃ kind, n.denote next = .ok kind ∧
      (n.fraction ≠ [] ∨ n.exponent ≠ [] → ∃ x, kind = .float x) ∧
      (n.fraction = [] ∧ n.exponent = [] → ∃ i, kind = .int i ∧ i.toInt = n.decimal) := by
  have hruns : ¬ (next.any fun c => isNameChar c || (c = '.' && n.isFloat)) = true := fun hr =>
    (runsOn_iff n next).1 hr ⟨h.1, h.2.1⟩
  rw [Numeral.denote, lacksExponentDigits_of_isExponent hn.exponent, if_neg Bool.false_ne_true,
    if_neg hruns]
  by_cases hf : n.isFloat = true
  · rw [if_pos hf]
    refine ⟨.float n.floatValue, rfl, fun _ => ⟨_, rfl⟩, fun hnone => ?_⟩
    rcases (isFloat_iff n).1 hf with hp | hp
    · exact absurd hnone.1 hp
    · exact absurd hnone.2 hp
  · have hnone : n.fraction = [] ∧ n.exponent = [] := by
      simpa [not_or] using fun hp => hf ((isFloat_iff n).2 hp)
    have hrange := h.2.2 hnone
    rw [if_neg hf, if_pos ((inRange_iff n).2 hrange)]
    refine ⟨_, rfl, fun hp => absurd ((isFloat_iff n).2 hp) hf, fun _ => ⟨_, rfl, ?_⟩⟩
    rw [intValue_eq_decimal]
    refine Int64.toInt_ofInt_of_le ?_ ?_
    · omega
    · omega

theorem denote_of_not_mayEnd {n : Numeral} {next : Option Char} (hn : n.Grammatical)
    (h : ¬ n.MayEnd next) : ∃ cause, n.denote next = .error cause ∧ cause.kind = .lexical := by
  rw [Numeral.denote, lacksExponentDigits_of_isExponent hn.exponent, if_neg Bool.false_ne_true]
  by_cases hruns : (next.any fun c => isNameChar c || (c = '.' && n.isFloat)) = true
  · rw [if_pos hruns]
    exact ⟨_, rfl, rfl⟩
  · rw [if_neg hruns]
    rw [runsOn_iff, not_not] at hruns
    have hrange : n.fraction = [] ∧ n.exponent = [] ∧
        ¬ (-2 ^ 63 ≤ n.decimal ∧ n.decimal ≤ 2 ^ 63 - 1) := by
      by_contra hnot
      refine h ⟨hruns.1, hruns.2, fun hnone => ?_⟩
      by_contra hr
      exact hnot ⟨hnone.1, hnone.2, hr⟩
    have hf : ¬ n.isFloat = true := by
      rw [isFloat_iff]
      simp [hrange.1, hrange.2.1]
    rw [if_neg hf, if_neg (mt (inRange_iff n).1 hrange.2.2)]
    exact ⟨_, rfl, rfl⟩

/-- What is read where a number starts: the longest numeral there if it may end, and otherwise a failure. -/
theorem Longest.number {s : List Char} {n : Numeral} (hs : OpensNumber s) (h : n.Longest s) :
    (n.MayEnd s[n.chars.length]? → (number s).taken = n.chars ∧
      (number s).kind = n.denote s[n.chars.length]?) ∧
    (¬ n.MayEnd s[n.chars.length]? →
      ∃ cause, (number s).kind = .error cause ∧ cause.kind = .lexical) := by
  obtain rfl : n = (ofChars s).reduced := h.eq (longest_reduced hs)
  by_cases hl : (ofChars s).lacksExponentDigits = true
  · obtain ⟨s₁, s₂, s₃, hparts⟩ := ofChars_parts s
    obtain ⟨_, c, hc, hmark⟩ := hparts.lacks hl
    have hnext : s[(ofChars s).reduced.chars.length]? = some c := by
      nth_rewrite 1 [hparts.reduced_append hl]
      rw [getElem?_append_length]
      exact hc
    have hnot : ¬ (ofChars s).reduced.MayEnd s[(ofChars s).reduced.chars.length]? := by
      rw [hnext]
      intro hm
      refine hm.1 c rfl (.inl ?_)
      rcases hmark with rfl | rfl <;> rfl
    refine ⟨fun hm => absurd hm hnot, fun _ => ⟨.malformedExponent (ofChars s).text, ?_, rfl⟩⟩
    rw [Lexeme.number, Numeral.denote, if_pos hl]
  · have hfull : (ofChars s).reduced = ofChars s := by
      rw [reduced, if_neg hl]
    rw [hfull]
    exact ⟨fun _ => ⟨rfl, rfl⟩, fun hm => denote_of_not_mayEnd (hfull ▸ h.grammatical) hm⟩

end Numeral

end Lexeme

section

variable {c : Cursor} {x : Char} {rest : List Char}

theorem Cursor.readToken_lexeme {kind : TokenKind} (hx : c.skipIgnored.rest = x :: rest)
    (hk : (lexeme x rest).kind = .ok kind) : c.readToken =
      (.ok (some ⟨kind, String.ofList (lexeme x rest).taken, c.skipIgnored.location⟩),
        c.skipIgnored.advance (lexeme x rest).taken.length) := by
  unfold readToken
  simp only [hx, hk]

theorem Cursor.readToken_fault {cause : Cause} (hx : c.skipIgnored.rest = x :: rest)
    (hk : (lexeme x rest).kind = .error cause) :
    c.readToken.1 = .error ⟨cause, some c.skipIgnored.location⟩ := by
  unfold readToken
  simp only [hx, hk]

end

open Lexeme in
/-- A number is read exactly where the grammar has one. Let `c` be a cursor with a number in front of it,
gaps aside. Then there is a longest numeral there. A token is read if and only if that numeral may end in
front of what is behind it: no letter, digit or underscore, no point if it has a fraction or an exponent,
and if it has neither then its value is that of an `Int64`. The token is the numeral, it stands where the
numeral starts, and it is a float if there is a fraction or an exponent and otherwise the integer that
the digits say. In all other cases there is a lexical failure, which is blamed on the start of the
numeral. -/
theorem numbers_follow_grammar (path : String) (c : Cursor) (hp : c.Placed path)
    (hn : OpensNumber c.skipIgnored.rest) :
    (∃ n : Numeral, n.Longest c.skipIgnored.rest) ∧
    ∀ n : Numeral, n.Longest c.skipIgnored.rest →
      let start := Location.behind path c.skipIgnored.read.reverse
      let next := c.skipIgnored.rest[n.chars.length]?
      ((∃ t, c.readToken.1 = .ok (some t)) ↔ n.MayEnd next) ∧
      (∀ t, c.readToken.1 = .ok (some t) →
        t.text = String.ofList n.chars ∧ t.location = start ∧
        c.readToken.2 = c.skipIgnored.advance n.chars.length ∧
        (n.fraction ≠ [] ∨ n.exponent ≠ [] → ∃ x, t.kind = .float x) ∧
        (n.fraction = [] ∧ n.exponent = [] → ∃ i, t.kind = .int i ∧ i.toInt = n.decimal)) ∧
      (¬ n.MayEnd next → ∃ cause, c.readToken.1 = .error ⟨cause, some start⟩ ∧
        cause.kind = .lexical) := by
  have hnum := (startsNumber_iff _).2 hn
  refine ⟨⟨_, Numeral.longest_reduced hn⟩, fun n h => ?_⟩
  obtain ⟨htaken, hfails⟩ := h.number hn
  -- A token is read or a failure found as the number says.
  obtain ⟨x, rest, hx⟩ : ∃ x rest, c.skipIgnored.rest = x :: rest := by
    obtain ⟨d, rest, _, he | he⟩ := hn
    · exact ⟨d, rest, he⟩
    · exact ⟨'-', d :: rest, he⟩
  have hlex : lexeme x rest = number c.skipIgnored.rest := by
    rw [lexeme, ← hx, if_pos hnum]
  have hplace : c.skipIgnored.location = .behind path c.skipIgnored.read.reverse := hp.advance _
  by_cases hm : n.MayEnd c.skipIgnored.rest[n.chars.length]?
  · obtain ⟨kind, hkind, hfloat, hint⟩ := hm.denote h.grammatical
    obtain ⟨hchars, hdenote⟩ := htaken hm
    have hread := Cursor.readToken_lexeme hx (hlex ▸ hdenote.trans hkind)
    rw [hlex, hchars, hplace] at hread
    rw [hread]
    refine ⟨⟨fun _ => hm, fun _ => ⟨_, rfl⟩⟩, fun t ht => ?_, fun hnot => absurd hm hnot⟩
    cases ht
    exact ⟨rfl, rfl, rfl, hfloat, hint⟩
  · obtain ⟨cause, hcause, hlexical⟩ := hfails hm
    have hread := Cursor.readToken_fault hx (hlex ▸ hcause)
    rw [hplace] at hread
    rw [hread]
    refine ⟨⟨fun htoken => ?_, fun hn => absurd hn hm⟩, fun t ht => ?_,
      fun _ => ⟨cause, rfl, hlexical⟩⟩
    · obtain ⟨t, ht⟩ := htoken
      cases ht
    · cases ht

open Lexeme in
/-- The least integer, with a point behind it that is not of a fraction. -/
theorem numbers_follow_grammar_least :
    ∃ t, (Cursor.ofText "a" " -9223372036854775808.").readToken.1 = .ok (some t) ∧
      t.text = "-9223372036854775808" ∧ t.location = ⟨"a", 1, 2⟩ ∧
      ∃ i, t.kind = .int i ∧ i.toInt = -9223372036854775808 := by
  have hopens : OpensNumber (Cursor.ofText "a" " -9223372036854775808.").skipIgnored.rest :=
    ⟨'9', "223372036854775808.".toList, by decide, .inr (by decide)⟩
  obtain ⟨_, h⟩ := numbers_follow_grammar "a" (Cursor.ofText "a" " -9223372036854775808.")
    (Cursor.placed_ofText _ _) hopens
  obtain ⟨hread, htoken, _⟩ := h _ (Numeral.longest_reduced hopens)
  have hdecimal : (Numeral.ofChars (Cursor.ofText "a"
      " -9223372036854775808.").skipIgnored.rest).reduced.decimal = -9223372036854775808 := by
    rw [← Numeral.intValue_eq_decimal]
    decide +kernel
  have hend : ∀ c ∈ some '.', ¬ (c.isAlpha = true ∨ c.isDigit = true ∨ c = '_') := by
    rintro _ ⟨⟩
    decide
  obtain ⟨t, ht⟩ := hread.2 ⟨hend, by decide, fun _ => hdecimal ▸ by decide⟩
  obtain ⟨htext, hplace, _, _, hint⟩ := htoken t ht
  obtain ⟨i, hi, hvalue⟩ := hint (by decide)
  exact ⟨t, ht, htext.trans (by decide), hplace.trans (by decide), i, hi,
    hvalue.trans hdecimal⟩

end Concatenative
