import Mathlib.Data.Int.ModEq
import Mathlib.Data.List.Fold
import Mathlib.Algebra.BigOperators.Group.List.Basic
import Concatenative.Word.Arithmetic

/-! What the arithmetic words compute. Integers are those modulo 2^64, so that totals of integers
depend on neither order nor grouping; among mixed values the first that is no number is refused,
and one float makes the total a float. -/
namespace Concatenative.Word

/-- The outcome is the integer of 64 bits that is congruent to `k`. -/
def Wraps (o : Outcome) (k : Int) : Prop :=
  ∃ n : Int64, o = .ok (.int n) ∧ n.toInt ≡ k [ZMOD 2 ^ 64]

theorem eq_of_modEq {a b : Int64} (h : a.toInt ≡ b.toInt [ZMOD 2 ^ 64]) : a = b := by
  have ha := a.toInt_lt
  have ha' := a.le_toInt
  have hb := b.toInt_lt
  have hb' := b.le_toInt
  rw [← Int64.toInt_inj]
  unfold Int.ModEq at h
  omega

theorem Wraps.unique {o o' : Outcome} {k : Int} (h : Wraps o k) (h' : Wraps o' k) : o = o' := by
  obtain ⟨n, rfl, hn⟩ := h
  obtain ⟨n', rfl, hn'⟩ := h'
  rw [eq_of_modEq (hn.trans hn'.symm)]

theorem bmod_modEq (k : Int) : k.bmod (2 ^ 64) ≡ k [ZMOD 2 ^ 64] := by
  unfold Int.ModEq
  exact_mod_cast Int.bmod_emod

/-- The operation on integers of 64 bits is `op`, whatever stands for its operands modulo 2^64. -/
def Computes (onInts : Int64 → Int64 → Int64) (op : Int → Int → Int) : Prop :=
  ∀ ⦃a b : Int64⦄ ⦃x y : Int⦄, a.toInt ≡ x [ZMOD 2 ^ 64] → b.toInt ≡ y [ZMOD 2 ^ 64] →
    (onInts a b).toInt ≡ op x y [ZMOD 2 ^ 64]

theorem computes_add : Computes (· + ·) (· + ·) := fun a b x y ha hb => by
  simp only [Int64.toInt_add]
  exact (bmod_modEq _).trans (ha.add hb)

theorem computes_sub : Computes (· - ·) (· - ·) := fun a b x y ha hb => by
  simp only [Int64.toInt_sub]
  exact (bmod_modEq _).trans (ha.sub hb)

theorem computes_mul : Computes (· * ·) (· * ·) := fun a b x y ha hb => by
  simp only [Int64.toInt_mul]
  exact (bmod_modEq _).trans (ha.mul hb)

theorem Computes.foldl {onInts : Int64 → Int64 → Int64} {op : Int → Int → Int}
    (hop : Computes onInts op) {ns : List Int64} {ks : List Int}
    (hs : List.Forall₂ (fun n k => n.toInt ≡ k [ZMOD 2 ^ 64]) ns ks) {s : Int64} {x : Int}
    (hx : s.toInt ≡ x [ZMOD 2 ^ 64]) :
    (ns.foldl onInts s).toInt ≡ ks.foldl op x [ZMOD 2 ^ 64] := by
  induction hs generalizing s x with
  | nil => exact hx
  | cons hn _ ih => exact ih (hop hx hn)

/-- By induction on the recursion, which squares the base and halves the exponent. -/
theorem power_modEq (a : Int64) (n : Nat) : (power a n).toInt ≡ a.toInt ^ n [ZMOD 2 ^ 64] := by
  have hsquare (a : Int64) : (a * a).toInt ≡ a.toInt ^ 2 [ZMOD 2 ^ 64] := by
    rw [pow_two]
    exact computes_mul rfl rfl
  fun_induction power a n with
  | case1 a => simp
  | case2 a n _ half hodd ih =>
    have hhalf : half.toInt ≡ (a.toInt ^ 2) ^ (n / 2) [ZMOD 2 ^ 64] :=
      ih.trans ((hsquare a).pow _)
    calc (a * half).toInt ≡ a.toInt * (a.toInt ^ 2) ^ (n / 2) [ZMOD 2 ^ 64] :=
          computes_mul rfl hhalf
      _ = a.toInt ^ (2 * (n / 2) + 1) := by rw [← pow_mul, ← pow_succ']
      _ = a.toInt ^ n := by congr 1; omega
  | case3 a n _ half heven ih =>
    calc half.toInt ≡ (a.toInt ^ 2) ^ (n / 2) [ZMOD 2 ^ 64] := ih.trans ((hsquare a).pow _)
      _ = a.toInt ^ (2 * (n / 2)) := (pow_mul _ _ _).symm
      _ = a.toInt ^ n := by congr 1; omega

/-! ### Folding a list of numbers -/

theorem foldNumbers_of_numeric {w : Word} (join : Value → Value → Value) {vs : List Value}
    (hvs : ∀ v ∈ vs, v.isNumeric) (t : Value) :
    w.foldNumbers join t vs = .ok (vs.foldl join t) := by
  induction vs generalizing t with
  | nil => rfl
  | cons v vs ih =>
    obtain ⟨hv, hvs⟩ := List.forall_mem_cons.1 hvs
    rw [foldNumbers, requireNumber, if_pos hv]
    exact ih hvs _

/-- What stands behind the first value that is no number is not looked at. -/
theorem foldNumbers_refused {w : Word} (join : Value → Value → Value) {vs : List Value}
    {v : Value} (h : vs.find? (fun v => !v.isNumeric) = some v) (t : Value) :
    w.foldNumbers join t vs = .error (Cause.numberExpected w v.kind) := by
  induction vs generalizing t with
  | nil => cases h
  | cons u vs ih =>
    by_cases hu : u.isNumeric
    · rw [List.find?_cons_of_neg (by simp [hu])] at h
      rw [foldNumbers, requireNumber, if_pos hu]
      exact ih h _
    · rw [List.find?_cons_of_pos (by simp [hu]), Option.some.injEq] at h
      rw [foldNumbers, requireNumber, if_neg hu, h]
      rfl

variable {w : Word} {start : Int64} {onFloats : Float → Float → Float}
  {onInts : Int64 → Int64 → Int64} {op : Int → Int → Int} {unit : Int}

theorem foldl_ints (ns : List Int64) (s : Int64) :
    (ns.map Value.int).foldl (arithmetic onFloats onInts) (.int s) =
      .int (ns.foldl onInts s) := by
  induction ns generalizing s with
  | nil => rfl
  | cons n ns ih => exact ih (onInts s n)

theorem arithmetic_kind (onFloats : Float → Float → Float) (onInts : Int64 → Int64 → Int64)
    (a b : Value) :
    (arithmetic onFloats onInts a b).isNumeric ∧
      ((arithmetic onFloats onInts a b).kind = .float ↔ a.kind = .float ∨ b.kind = .float) := by
  unfold arithmetic
  by_cases h : a.kind = .float ∨ b.kind = .float
  · rw [if_pos (by simpa using h)]
    exact ⟨rfl, iff_of_true rfl h⟩
  · rw [if_neg (by simpa using h)]
    exact ⟨rfl, iff_of_false nofun h⟩

/-- Once a float, the running total stays one. -/
theorem foldl_kind (onFloats : Float → Float → Float) (onInts : Int64 → Int64 → Int64)
    (vs : List Value) {t : Value} (ht : t.isNumeric) :
    (vs.foldl (arithmetic onFloats onInts) t).isNumeric ∧
      ((vs.foldl (arithmetic onFloats onInts) t).kind = .float ↔
        t.kind = .float ∨ ∃ v ∈ vs, v.kind = .float) := by
  induction vs generalizing t with
  | nil => exact ⟨ht, by simp⟩
  | cons v vs ih =>
    obtain ⟨hnumeric, hkind⟩ := arithmetic_kind onFloats onInts t v
    rw [List.foldl_cons, List.exists_mem_cons_iff, ← or_assoc, ← hkind]
    exact ih hnumeric

/-! ### The words -/

/-- A list of integers, as the input of a word. -/
def ints (ns : List Int64) : Option Value := some (.list (ns.map .int))

/-- What the total of a list of numbers promises; `exact` is that of unbounded integers. -/
structure Totals (w : Word) (f : Option Value → Outcome) (exact : List Int → Int) : Prop where
  wraps (ns : List Int64) : Wraps (f (ints ns)) (exact (ns.map Int64.toInt))
  perm {xs ys : List Int64} : xs.Perm ys → f (ints xs) = f (ints ys)
  append (xs ys : List Int64) : ∃ a b, f (ints xs) = .ok (.int a) ∧ f (ints ys) = .ok (.int b) ∧
    f (ints (xs ++ ys)) = f (ints [a, b])
  refused {vs : List Value} {v : Value} : vs.find? (fun v => !v.isNumeric) = some v →
    ∃ e, f (some (.list vs)) = .error e ∧ e.kind = .typeMismatch ∧
      e.message = w.name ++ " expects numbers, found " ++ v.kind.name ++ "."
  mixed {vs : List Value} : (∀ v ∈ vs, v.isNumeric) → ∃ r, f (some (.list vs)) = .ok r ∧
    r.isNumeric ∧ (r.kind = .float ↔ ∃ v ∈ vs, v.kind = .float)

theorem total_wraps [Std.Associative op] [Std.Commutative op] (hop : Computes onInts op)
    (hstart : start.toInt = unit) {ns : List Int64} {ks : List Int}
    (hs : List.Forall₂ (fun n k => n.toInt ≡ k [ZMOD 2 ^ 64]) ns ks) :
    Wraps (w.total start (arithmetic onFloats onInts) (ints ns)) (ks.foldr op unit) := by
  have hnumeric : ∀ v ∈ ns.map Value.int, v.isNumeric := by simp [Value.isNumeric, Value.kind]
  refine ⟨ns.foldl onInts start, ?_, ?_⟩
  · rw [ints, total, foldNumbers_of_numeric _ hnumeric, foldl_ints]
  · rw [← List.foldl_eq_foldr]
    exact hop.foldl hs (by rw [hstart])

/-- A list in two parts has the total of the two totals. -/
theorem foldr_append_pair [Std.Associative op] [Std.LawfulIdentity op unit] (xs ys : List Int) :
    (xs ++ ys).foldr op unit = [xs.foldr op unit, ys.foldr op unit].foldr op unit := by
  have hleft (k : Int) : op unit k = k := Std.LawfulLeftIdentity.left_id k
  have hright (k : Int) : op k unit = k := Std.LawfulRightIdentity.right_id k
  calc (xs ++ ys).foldr op unit = xs.foldr op (op unit (ys.foldr op unit)) := by
        rw [List.foldr_append, hleft]
    _ = op (xs.foldr op unit) (ys.foldr op unit) := List.foldr_assoc
    _ = op (xs.foldr op unit) (op (ys.foldr op unit) unit) := by rw [hright]

/-- The laws of integers follow from congruence to one exact total. -/
theorem totals [Std.Associative op] [Std.Commutative op] [Std.LawfulIdentity op unit]
    (hop : Computes onInts op) (hstart : start.toInt = unit) :
    Totals w (w.total start (arithmetic onFloats onInts)) (List.foldr op unit) := by
  have hwraps (ns : List Int64) :
      Wraps (w.total start (arithmetic onFloats onInts) (ints ns))
        ((ns.map Int64.toInt).foldr op unit) :=
    total_wraps hop hstart (List.forall₂_map_right_iff.2 (List.forall₂_same.2 fun _ _ => rfl))
  constructor
  case wraps => exact hwraps
  case perm =>
    intro xs ys hp
    have h := hwraps ys
    rw [← (hp.map Int64.toInt).foldr_eq] at h
    exact (hwraps xs).unique h
  case append =>
    intro xs ys
    obtain ⟨a, ha, hxs⟩ := hwraps xs
    obtain ⟨b, hb, hys⟩ := hwraps ys
    have h := hwraps (xs ++ ys)
    rw [List.map_append, foldr_append_pair] at h
    exact ⟨a, b, ha, hb, h.unique (total_wraps hop hstart (.cons hxs (.cons hys .nil)))⟩
  case refused =>
    intro vs v hv
    exact ⟨_, foldNumbers_refused _ hv _, rfl, rfl⟩
  case mixed =>
    intro vs hvs
    have hstart : (Value.int start).isNumeric := rfl
    obtain ⟨hr, hk⟩ := foldl_kind onFloats onInts vs hstart
    refine ⟨_, foldNumbers_of_numeric _ hvs _, hr, ?_⟩
    simpa [Value.kind] using hk

theorem neg_wraps (a : Int64) : Wraps (.ok (negate (.int a))) (-a.toInt) := by
  refine ⟨-a, rfl, ?_⟩
  rw [Int64.toInt_neg]
  exact bmod_modEq _

theorem pow_wraps (a : Int64) {e : Int64} (h : 0 ≤ e.toInt) (he : e.toInt < 2 ^ 32) :
    Wraps (powOf (ints [a, e])) (a.toInt ^ e.toInt.toNat) := by
  have hpower : powOf (ints [a, e]) = .ok (powerOf (.int a) (.int e)) := rfl
  rw [hpower, powerOf, if_pos ⟨h, he⟩]
  exact ⟨_, rfl, power_modEq a _⟩

/-- The arithmetic words compute modulo 2^64. Totals of integers depend on neither order nor
grouping; of mixed values the first that is no number is named, and a float makes a float. -/
theorem integer_words_modulo :
    Totals .sum sumOf List.sum ∧ Totals .prod prodOf List.prod ∧
    sumOf (ints []) = .ok (.int 0) ∧ prodOf (ints []) = .ok (.int 1) ∧
    (∀ a : Int64, Wraps (diffOf (ints [a])) (-a.toInt) ∧
      Wraps (diffOf (some (.int a))) (-a.toInt)) ∧
    (∀ a b : Int64, Wraps (diffOf (ints [a, b])) (a.toInt - b.toInt)) ∧
    ∀ a e : Int64, 0 ≤ e.toInt → e.toInt < 2 ^ 32 →
      Wraps (powOf (ints [a, e])) (a.toInt ^ e.toInt.toNat) :=
  ⟨totals computes_add rfl, totals computes_mul rfl, rfl, rfl,
    fun a => ⟨neg_wraps a, neg_wraps a⟩,
    fun _ _ => ⟨_, rfl, computes_sub rfl rfl⟩, fun a _ => pow_wraps a⟩

/-- At the ends of the range. -/
theorem integer_words_modulo_limits :
    sumOf (ints [1, Int64.maxValue]) = sumOf (ints [Int64.maxValue, 1]) ∧
    diffOf (ints [Int64.minValue]) = .ok (.int Int64.minValue) ∧
    (∃ e, sumOf (some (.list [.int 1, .bool true, .none])) = .error e ∧
      e.kind = .typeMismatch ∧ e.message = "sum expects numbers, found boolean.") ∧
    (∃ r, prodOf (some (.list [.int 2, .float 0.5])) = .ok r ∧ r.kind = .float) ∧
    powOf (ints [2, 64]) = .ok (.int 0) := by
  obtain ⟨hsum, hprod, -, -, hneg, -, hpow⟩ := integer_words_modulo
  refine ⟨hsum.perm (.swap _ _ _), ?_, ?_, ?_, ?_⟩
  · exact (hneg Int64.minValue).1.unique ⟨Int64.minValue, rfl, by decide⟩
  · have hfirst : [Value.int 1, .bool true, .none].find? (fun v => !v.isNumeric) =
        some (.bool true) := rfl
    obtain ⟨e, he, hkind, hmessage⟩ := hsum.refused hfirst
    exact ⟨e, he, hkind, hmessage.trans (by decide)⟩
  · have hnumeric : ∀ v ∈ [Value.int 2, .float 0.5], v.isNumeric := by
      simp [Value.isNumeric, Value.kind]
    obtain ⟨r, hr, -, hkind⟩ := hprod.mixed hnumeric
    exact ⟨r, hr, hkind.2 ⟨.float 0.5, by simp, rfl⟩⟩
  · exact (hpow 2 64 (by decide) (by decide)).unique ⟨0, rfl, by decide⟩

end Concatenative.Word
