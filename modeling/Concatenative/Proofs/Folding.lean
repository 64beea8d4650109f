import Concatenative.Proofs.Trampoline

/-! Reducers. A reducer over a list runs through its elements, a reducer over a generator draws
elements until there are no more. Main statement: if what the step comes to depends on its argument
alone, both are the left fold with an index. The step is called once for each element that is folded,
in their order, and not again behind a call that fails; and a generator that yields the elements of a
list and then nothing makes for the same calls of the step and the same end as the list. -/
namespace Concatenative

open Eval Evaluation
open Act (Ends)

/-- The left fold of elements that are counted from an index. -/
def foldOutcome (F : Value → Outcome) (total : Value) (index : Nat) (xs : List Value) : Outcome :=
  (xs.zipIdx index).foldlM (fun total p => F (stepInput total p.1 p.2)) total

/-- What a reducer calls: its generator for the next element, or its step. -/
inductive Role where
  | draw | step
deriving DecidableEq

structure Called where
  role : Role
  argument : Value
  outcome : Outcome

/-- A call of the step for an element. -/
def stepCall (F : Value → Outcome) (total element : Value) (index : Nat) : Called :=
  ⟨.step, stepInput total element index, F (stepInput total element index)⟩

/-- The calls of a fold over a list. -/
def foldCalls (F : Value → Outcome) (total : Value) (index : Nat) : List Value → List Called
  | [] => []
  | v :: rest =>
    stepCall F total v index ::
      match F (stepInput total v index) with
      | .ok total => foldCalls F total (index + 1) rest
      | .error _ => []

/-- The calls of a fold over a generator that yields the elements of a list. -/
def drawnCalls (F : Value → Outcome) (total : Value) (index : Nat) : List Value → List Called
  | [] => [⟨.draw, indexValue index, .ok .none⟩]
  | v :: rest =>
    ⟨.draw, indexValue index, .ok v⟩ :: stepCall F total v index ::
      match F (stepInput total v index) with
      | .ok total => drawnCalls F total (index + 1) rest
      | .error _ => []

variable {S : Type} {H : Surroundings S} {s s' : S}

/-- Calls of a reducer with a source and a step, one after the other. -/
inductive Calls (H : Surroundings S) (source step : Value) : S → List Called → S → Prop
  | nil (s : S) : Calls H source step s [] s
  | draw {s s₁ s' : S} {x : Value} {o : Outcome} {rest : List Called} :
      (Job.force source (some x)).Comes H s o s₁ → Calls H source step s₁ rest s' →
      Calls H source step s (⟨.draw, x, o⟩ :: rest) s'
  | step {s s₁ s' : S} {x : Value} {o : Outcome} {rest : List Called} :
      (Job.force step (some x)).Comes H s o s₁ → Calls H source step s₁ rest s' →
      Calls H source step s (⟨.step, x, o⟩ :: rest) s'

variable {source step total : Value} {F : Value → Outcome} {index : Nat} {xs : List Value}

theorem foldOutcome_cons {v : Value} :
    foldOutcome F total index (v :: xs) =
      F (stepInput total v index) >>= fun total => foldOutcome F total (index + 1) xs := by
  simp only [foldOutcome, List.zipIdx_cons, List.foldlM_cons]

theorem calls_nil : Calls H source step s [] s' ↔ s' = s := by
  constructor
  · rintro ⟨⟩
    rfl
  · rintro rfl
    exact .nil s'

theorem calls_step {x : Value} {o : Outcome} {rest : List Called} :
    Calls H source step s (⟨.step, x, o⟩ :: rest) s' ↔
      ∃ s₁, (Job.force step (some x)).Comes H s o s₁ ∧ Calls H source step s₁ rest s' := by
  constructor
  · rintro ⟨⟩
    exact ⟨_, ‹_›, ‹_›⟩
  · rintro ⟨s₁, h, hrest⟩
    exact .step h hrest

theorem calls_draw {x : Value} {o : Outcome} {rest : List Called} :
    Calls H source step s (⟨.draw, x, o⟩ :: rest) s' ↔
      ∃ s₁, (Job.force source (some x)).Comes H s o s₁ ∧ Calls H source step s₁ rest s' := by
  constructor
  · rintro ⟨⟩
    exact ⟨_, ‹_›, ‹_›⟩
  · rintro ⟨s₁, h, hrest⟩
    exact .draw h hrest

/-- What a value comes to for an input is known beforehand. This is asked of the states in `I` only,
which no call may leave. -/
def Yields (H : Surroundings S) (I : S → Prop) (v x : Value) (o : Outcome) : Prop :=
  ∀ s, I s → ∀ o' s', (Job.force v (some x)).Comes H s o' s' → o' = o ∧ I s'

variable {I : S → Prop} {v x : Value}

theorem Yields.ends_ok {α : Type} {a : Value} {k : Value → Eval α} {r : Except Failure α}
    (h : Yields H I v x (.ok a)) (hs : I s) :
    Ends H (perform (.force v (some x)) >>= k).run s r s' ↔
      ∃ s₁, I s₁ ∧ (Job.force v (some x)).Comes H s (.ok a) s₁ ∧ Ends H (k a).run s₁ r s' := by
  simp only [Eval.ends_bind, Eval.ends_perform]
  constructor
  · rintro (⟨a', s₁, hv, hk⟩ | ⟨e, hv, rfl⟩)
    · obtain ⟨⟨⟩, hi⟩ := h s hs _ _ hv
      exact ⟨s₁, hi, hv, hk⟩
    · cases (h s hs _ _ hv).1
  · rintro ⟨s₁, _, hv, hk⟩
    exact .inl ⟨a, s₁, hv, hk⟩

theorem Yields.ends_error {α : Type} {e : Failure} {k : Value → Eval α} {r : Except Failure α}
    (h : Yields H I v x (.error e)) (hs : I s) :
    Ends H (perform (.force v (some x)) >>= k).run s r s' ↔
      r = .error e ∧ (Job.force v (some x)).Comes H s (.error e) s' := by
  simp only [Eval.ends_bind, Eval.ends_perform]
  constructor
  · rintro (⟨a, s₁, hv, hk⟩ | ⟨e', hv, rfl⟩)
    · cases (h s hs _ _ hv).1
    · cases (h s hs _ _ hv).1
      exact ⟨rfl, hv⟩
  · rintro ⟨rfl, hv⟩
    exact .inr ⟨e, hv, rfl⟩

theorem Yields.comes_ok {a : Value} {k : Value → Eval Next} {o : Outcome}
    (h : Yields H I v x (.ok a)) (hs : I s) :
    (perform (.force v (some x)) >>= k).Comes H s o s' ↔
      ∃ s₁, I s₁ ∧ (Job.force v (some x)).Comes H s (.ok a) s₁ ∧ (k a).Comes H s₁ o s' := by
  simp only [Eval.Comes, h.ends_ok hs]
  constructor
  · rintro ⟨r, s₂, ⟨s₁, hi, hv, hk⟩, hr⟩
    exact ⟨s₁, hi, hv, r, s₂, hk, hr⟩
  · rintro ⟨s₁, hi, hv, r, s₂, hk, hr⟩
    exact ⟨r, s₂, ⟨s₁, hi, hv, hk⟩, hr⟩

theorem Yields.comes_error {e : Failure} {k : Value → Eval Next} {o : Outcome}
    (h : Yields H I v x (.error e)) (hs : I s) :
    (perform (.force v (some x)) >>= k).Comes H s o s' ↔
      o = .error e ∧ (Job.force v (some x)).Comes H s (.error e) s' := by
  simp only [Eval.Comes, h.ends_error hs]
  constructor
  · rintro ⟨r, s₁, ⟨rfl, hv⟩, rfl, rfl⟩
    exact ⟨rfl, hv⟩
  · rintro ⟨rfl, hv⟩
    exact ⟨_, s', ⟨rfl, hv⟩, rfl, rfl⟩

/-! ## Lists -/

theorem ends_foldList (hF : ∀ x, Yields H I step x (F x)) (hs : I s) {o : Outcome} :
    Ends H (foldList step total index xs).run s o s' ↔
      o = foldOutcome F total index xs ∧ Calls H source step s (foldCalls F total index xs) s' := by
  induction xs generalizing total index s with
  | nil =>
    simp only [foldList, Eval.ends_pure, foldCalls, calls_nil]
    rfl
  | cons v rest ih =>
    have hv := hF (stepInput total v index)
    simp only [foldList, foldOutcome_cons, foldCalls, stepCall, calls_step]
    cases hx : F (stepInput total v index) with
    | error e =>
      rw [hx] at hv
      simp only [hv.ends_error hs, calls_nil]
      constructor
      · rintro ⟨rfl, h⟩
        exact ⟨rfl, s', h, rfl⟩
      · rintro ⟨rfl, s₁, h, rfl⟩
        exact ⟨rfl, h⟩
    | ok a =>
      rw [hx] at hv
      rw [hv.ends_ok hs]
      constructor
      · rintro ⟨s₁, hi, h, hrest⟩
        obtain ⟨rfl, hc⟩ := (ih hi).1 hrest
        exact ⟨rfl, s₁, h, hc⟩
      · rintro ⟨rfl, s₁, h, hc⟩
        have hi := (hv s hs _ _ h).2
        exact ⟨s₁, hi, h, (ih hi).2 ⟨rfl, hc⟩⟩

/-! ## Generators -/

/-- A generator yields the elements of a list, from an index on, and then nothing. -/
def Generates (H : Surroundings S) (I : S → Prop) (g : Value) (index : Nat) (xs : List Value) : Prop :=
  ∀ i, i ≤ xs.length → Yields H I g (indexValue (index + i)) (.ok (xs[i]?.getD .none))

variable {g : Value}

theorem Generates.nil (h : Generates H I g index []) :
    Yields H I g (indexValue index) (.ok .none) := h 0 (Nat.zero_le _)

theorem Generates.head (h : Generates H I g index (v :: xs)) :
    Yields H I g (indexValue index) (.ok v) := h 0 (Nat.zero_le _)

theorem Generates.tail (h : Generates H I g index (v :: xs)) : Generates H I g (index + 1) xs := by
  intro i hi
  have hs := h (i + 1) (Nat.succ_le_succ hi)
  rwa [Nat.add_assoc, Nat.add_comm 1 i]

theorem Eval.comes_pure {n : Next} {o : Outcome} :
    (pure n : Eval Next).Comes H s o s' ↔ Next.Comes H (.ok n) s o s' := by
  simp only [Eval.Comes, Eval.ends_pure]
  constructor
  · rintro ⟨r, s₁, ⟨rfl, rfl⟩, ho⟩
    exact ho
  · intro ho
    exact ⟨_, s, ⟨rfl, rfl⟩, ho⟩

theorem Eval.comes_fail {cause : Cause} {o : Outcome} :
    (fail cause : Eval Next).Comes H s o s' ↔ o = .error cause ∧ s' = s := by
  have h : ∀ r s₁, Ends H (fail cause : Eval Next).run s r s₁ ↔ r = .error cause ∧ s₁ = s :=
    fun r s₁ => Act.ends_done
  simp only [Eval.Comes, h]
  constructor
  · rintro ⟨r, s₁, ⟨rfl, rfl⟩, ho⟩
    exact ho
  · intro ho
    exact ⟨_, s, ⟨rfl, rfl⟩, ho⟩

theorem comes_generate_none (hg : Yields H I g (indexValue index) (.ok .none)) (hs : I s)
    {o : Outcome} :
    (Job.generate g step total index).Comes H s o s' ↔
      o = .ok total ∧ (Job.force g (some (indexValue index))).Comes H s (.ok .none) s' := by
  rw [Job.comes_iff, Job.act, Evaluation.generate, hg.comes_ok hs]
  simp only [Eval.comes_pure, Next.Comes]
  constructor
  · rintro ⟨s₁, _, h, rfl, rfl⟩
    exact ⟨rfl, h⟩
  · rintro ⟨rfl, h⟩
    exact ⟨s', (hg s hs _ _ h).2, h, rfl, rfl⟩

theorem comes_generate (hv : v ≠ .none) (hg : Yields H I g (indexValue index) (.ok v)) (hs : I s)
    {o : Outcome} :
    (Job.generate g step total index).Comes H s o s' ↔
      ∃ s₁, I s₁ ∧ (Job.force g (some (indexValue index))).Comes H s (.ok v) s₁ ∧
        (perform (.force step (some (stepInput total v index))) >>= fun total =>
          pure (.become (.generate g step total (index + 1))) : Eval Next).Comes H s₁ o s' := by
  rw [Job.comes_iff, Job.act, Evaluation.generate, hg.comes_ok hs]
  cases v with
  | none => exact absurd rfl hv
  | _ => exact Iff.rfl

/-- A generator that yields the elements of a list is folded like the list. The induction is on what
it has yet to yield. -/
theorem comes_generate_fold (hF : ∀ x, Yields H I step x (F x)) (hn : ∀ x ∈ xs, x ≠ .none)
    (hg : Generates H I g index xs) (hs : I s) {o : Outcome} :
    (Job.generate g step total index).Comes H s o s' ↔
      o = foldOutcome F total index xs ∧ Calls H g step s (drawnCalls F total index xs) s' := by
  induction xs generalizing total index s with
  | nil =>
    rw [comes_generate_none hg.nil hs]
    simp only [drawnCalls, calls_draw, calls_nil]
    constructor
    · rintro ⟨rfl, h⟩
      exact ⟨rfl, s', h, rfl⟩
    · rintro ⟨rfl, s₁, h, rfl⟩
      exact ⟨rfl, h⟩
  | cons v rest ih =>
    have hv := hF (stepInput total v index)
    have hrest : ∀ x ∈ rest, x ≠ .none := fun x hx => hn x (List.mem_cons_of_mem v hx)
    rw [comes_generate (hn v List.mem_cons_self) hg.head hs]
    simp only [foldOutcome_cons, drawnCalls, stepCall, calls_draw, calls_step]
    cases hx : F (stepInput total v index) with
    | error e =>
      rw [hx] at hv
      simp only [calls_nil]
      constructor
      · rintro ⟨s₁, hi, hd, hp⟩
        obtain ⟨rfl, h⟩ := (hv.comes_error hi).1 hp
        exact ⟨rfl, s₁, hd, s', h, rfl⟩
      · rintro ⟨rfl, s₁, hd, s₂, h, rfl⟩
        have hi := (hg.head s hs _ _ hd).2
        exact ⟨s₁, hi, hd, (hv.comes_error hi).2 ⟨rfl, h⟩⟩
    | ok a =>
      rw [hx] at hv
      constructor
      · rintro ⟨s₁, hi, hd, hp⟩
        obtain ⟨s₂, hj, h, hb⟩ := (hv.comes_ok hi).1 hp
        obtain ⟨rfl, hc⟩ := (ih hrest hg.tail hj).1 (Eval.comes_pure.1 hb)
        exact ⟨rfl, s₁, hd, s₂, h, hc⟩
      · rintro ⟨rfl, s₁, hd, s₂, h, hc⟩
        have hi := (hg.head s hs _ _ hd).2
        have hj := (hv s₁ hi _ _ h).2
        have hb := (ih hrest hg.tail hj).2 ⟨rfl, hc⟩
        exact ⟨s₁, hi, hd, (hv.comes_ok hi).2 ⟨s₂, hj, h, Eval.comes_pure.2 hb⟩⟩

/-! ## Reducers -/

/-- What a reducer over a list comes to. Without an initial value the first element is that value. -/
def reduceOutcome (F : Value → Outcome) : Option Value → List Value → Outcome
  | some total, xs => foldOutcome F total 0 xs
  | none, first :: rest => foldOutcome F first 1 rest
  | none, [] => .error (.emptyList : Cause)

def reduceCalls (F : Value → Outcome) : Option Value → List Value → List Called
  | some total, xs => foldCalls F total 0 xs
  | none, first :: rest => foldCalls F first 1 rest
  | none, [] => []

/-- What a reducer over a generator comes to that yields the elements of a list. -/
def generatorOutcome (F : Value → Outcome) : Option Value → List Value → Outcome
  | some total, xs => foldOutcome F total 0 xs
  | none, first :: rest => foldOutcome F first 1 rest
  | none, [] => .error (.emptyGenerator : Cause)

def generatorCalls (F : Value → Outcome) : Option Value → List Value → List Called
  | some total, xs => drawnCalls F total 0 xs
  | none, first :: rest => ⟨.draw, indexValue 0, .ok first⟩ :: drawnCalls F first 1 rest
  | none, [] => [⟨.draw, indexValue 0, .ok .none⟩]

variable {m : Nat} {init : Option Value} {o : Outcome}

theorem comes_reducer_list (hF : ∀ x, Yields H I step x (F x)) (hs : I s) :
    (Job.call (.reducer m (.list xs) step) init).Comes H s o s' ↔
      o = reduceOutcome F init xs ∧ Calls H (.list xs) step s (reduceCalls F init xs) s' := by
  rw [Job.comes_iff, Job.act, Evaluation.call]
  cases init with
  | some total => exact comes_value.trans (ends_foldList hF hs)
  | none =>
    cases xs with
    | nil =>
      refine Eval.comes_fail.trans ?_
      simp only [reduceOutcome, reduceCalls, calls_nil]
    | cons first rest => exact comes_value.trans (ends_foldList hF hs)

/-- How a reducer goes on that drew its initial value. -/
def afterFirst (g step : Value) : Value → Eval Next
  | .none => fail .emptyGenerator
  | first => pure (.become (.generate g step first 1))

theorem reduce_generator (hk : g.kind ≠ .list) : reduce g step none =
    perform (.force g (some (indexValue 0))) >>= afterFirst g step := by
  cases g with
  | list items => exact absurd rfl hk
  | _ => rfl

theorem afterFirst_of_ne (hv : v ≠ .none) :
    afterFirst g step v = pure (.become (.generate g step v 1)) := by
  cases v with
  | none => exact absurd rfl hv
  | _ => rfl

theorem comes_reducer_generator (hF : ∀ x, Yields H I step x (F x)) (hk : g.kind ≠ .list)
    (hn : ∀ x ∈ xs, x ≠ .none) (hg : Generates H I g 0 xs) (hs : I s) :
    (Job.call (.reducer m g step) init).Comes H s o s' ↔
      o = generatorOutcome F init xs ∧ Calls H g step s (generatorCalls F init xs) s' := by
  rw [Job.comes_iff, Job.act, Evaluation.call]
  cases init with
  | some total =>
    have h : reduce g step (some total) = pure (.become (.generate g step total 0)) := by
      cases g with
      | list items => exact absurd rfl hk
      | _ => rfl
    rw [h, Eval.comes_pure]
    exact comes_generate_fold hF hn hg hs
  | none =>
    cases xs with
    | nil =>
      rw [reduce_generator hk, hg.nil.comes_ok hs]
      simp only [afterFirst, Eval.comes_fail, generatorOutcome, generatorCalls, calls_draw, calls_nil]
      constructor
      · rintro ⟨s₁, _, h, rfl, rfl⟩
        exact ⟨rfl, s', h, rfl⟩
      · rintro ⟨rfl, s₁, h, rfl⟩
        exact ⟨s', (hg.nil s hs _ _ h).2, h, rfl, rfl⟩
    | cons first rest =>
      have hrest : ∀ x ∈ rest, x ≠ .none := fun x hx => hn x (List.mem_cons_of_mem first hx)
      rw [reduce_generator hk, hg.head.comes_ok hs, afterFirst_of_ne (hn first List.mem_cons_self)]
      simp only [Eval.comes_pure, generatorOutcome, generatorCalls, calls_draw]
      constructor
      · rintro ⟨s₁, hi, h, hb⟩
        obtain ⟨rfl, hc⟩ := (comes_generate_fold hF hrest hg.tail hi).1 hb
        exact ⟨rfl, s₁, h, hc⟩
      · rintro ⟨rfl, s₁, h, hc⟩
        have hi := (hg.head s hs _ _ h).2
        exact ⟨s₁, hi, h, (comes_generate_fold hF hrest hg.tail hi).2 ⟨rfl, hc⟩⟩

/-! ## The calls of a fold -/

theorem foldOutcome_take_succ {i : Nat} {v : Value} :
    foldOutcome F total index ((v :: xs).take (i + 1)) =
      F (stepInput total v index) >>= fun total => foldOutcome F total (index + 1) (xs.take i) := by
  rw [List.take_succ_cons, foldOutcome_cons]

/-- The step is called for an element if and only if the fold of those before it does not fail. -/
theorem foldCalls_getElem? {i : Nat} {c : Called} :
    (foldCalls F total index xs)[i]? = some c ↔
      ∃ v t, xs[i]? = some v ∧ foldOutcome F total index (xs.take i) = .ok t ∧
        c = stepCall F t v (index + i) := by
  induction xs generalizing total index i with
  | nil => simp [foldCalls]
  | cons v rest ih =>
    cases i with
    | zero =>
      simp only [foldCalls, List.getElem?_cons_zero, Option.some.injEq, List.take_zero, Nat.add_zero]
      constructor
      · rintro rfl
        exact ⟨v, total, rfl, rfl, rfl⟩
      · rintro ⟨_, _, rfl, ⟨⟩, rfl⟩
        rfl
    | succ i =>
      rw [foldCalls, List.getElem?_cons_succ, List.getElem?_cons_succ, foldOutcome_take_succ]
      cases F (stepInput total v index) with
      | error e =>
        constructor
        · rintro ⟨⟩
        · rintro ⟨_, _, _, ⟨⟩, _⟩
      | ok t =>
        have hi : index + (i + 1) = index + 1 + i := by omega
        rw [hi]
        exact ih

/-- A call that fails is what the fold fails with. -/
theorem foldOutcome_of_failed {c : Called} {e : Failure} (hc : c ∈ foldCalls F total index xs)
    (he : c.outcome = .error e) : foldOutcome F total index xs = .error e := by
  induction xs generalizing total index with
  | nil => cases hc
  | cons v rest ih =>
    rw [foldOutcome_cons]
    rcases List.mem_cons.1 hc with rfl | hc
    · rw [show F (stepInput total v index) = .error e from he]
      rfl
    · cases hv : F (stepInput total v index) with
      | error e' => rw [hv] at hc; cases hc
      | ok t => rw [hv] at hc; exact ih hc

theorem filter_drawnCalls :
    (drawnCalls F total index xs).filter (·.role == .step) = foldCalls F total index xs := by
  induction xs generalizing total index with
  | nil => rfl
  | cons v rest ih =>
    have h : ∀ (d : Value) (calls : List Called),
        (⟨.draw, d, .ok v⟩ :: stepCall F total v index :: calls).filter (·.role == .step) =
          stepCall F total v index :: calls.filter (·.role == .step) := fun d calls => rfl
    rw [drawnCalls, foldCalls, h]
    cases F (stepInput total v index) with
    | error e => rfl
    | ok t => rw [ih]

theorem filter_generatorCalls :
    (generatorCalls F init xs).filter (·.role == .step) = reduceCalls F init xs := by
  match init, xs with
  | some total, xs => exact filter_drawnCalls
  | none, [] => rfl
  | none, first :: rest =>
    show (drawnCalls F first 1 rest).filter (·.role == .step) = foldCalls F first 1 rest
    exact filter_drawnCalls

theorem generatorOutcome_kind :
    (generatorOutcome F init xs).mapError Failure.kind =
      (reduceOutcome F init xs).mapError Failure.kind := by
  match init, xs with
  | some total, xs => rfl
  | none, [] => rfl
  | none, first :: rest => rfl

/-! ## Reducers come to an end -/

/-- A value comes to something for an input, in all states of `I`. -/
def Answers (H : Surroundings S) (I : S → Prop) (v x : Value) : Prop :=
  ∀ s, I s → ∃ o s', (Job.force v (some x)).Comes H s o s'

theorem Yields.exists_comes (h : Yields H I v x o) (ha : Answers H I v x) (hs : I s) :
    ∃ s', I s' ∧ (Job.force v (some x)).Comes H s o s' := by
  obtain ⟨o', s', hv⟩ := ha s hs
  obtain ⟨rfl, hi⟩ := h s hs _ _ hv
  exact ⟨s', hi, hv⟩

section
variable (hF : ∀ x, Yields H I step x (F x)) (hstep : ∀ x, Answers H I step x)
include hF hstep

theorem exists_calls_fold (hs : I s) :
    ∃ s', Calls H source step s (foldCalls F total index xs) s' := by
  induction xs generalizing total index s with
  | nil => exact ⟨s, .nil s⟩
  | cons v rest ih =>
    obtain ⟨s₁, hi, h⟩ := (hF (stepInput total v index)).exists_comes (hstep _) hs
    simp only [foldCalls, stepCall, calls_step]
    cases hv : F (stepInput total v index) with
    | error e => exact ⟨s₁, s₁, hv ▸ h, .nil s₁⟩
    | ok t =>
      obtain ⟨s', hc⟩ : ∃ s', Calls H source step s₁ (foldCalls F t (index + 1) rest) s' := ih hi
      exact ⟨s', s₁, hv ▸ h, hc⟩

theorem exists_calls_drawn (hg : Generates H I g index xs)
    (hdraw : ∀ i, i ≤ xs.length → Answers H I g (indexValue (index + i))) (hs : I s) :
    ∃ s', Calls H g step s (drawnCalls F total index xs) s' := by
  induction xs generalizing total index s with
  | nil =>
    obtain ⟨s', _, h⟩ := hg.nil.exists_comes (hdraw 0 (Nat.le_refl 0)) hs
    exact ⟨s', .draw h (.nil s')⟩
  | cons v rest ih =>
    obtain ⟨s₁, hi, hd⟩ := hg.head.exists_comes (hdraw 0 (Nat.zero_le _)) hs
    obtain ⟨s₂, hj, h⟩ := (hF (stepInput total v index)).exists_comes (hstep _) hi
    simp only [drawnCalls, stepCall, calls_draw, calls_step]
    cases hv : F (stepInput total v index) with
    | error e => exact ⟨s₂, s₁, hd, s₂, hv ▸ h, .nil s₂⟩
    | ok t =>
      have hrest : ∀ i, i ≤ rest.length → Answers H I g (indexValue (index + 1 + i)) := by
        intro i hi
        have := hdraw (i + 1) (Nat.succ_le_succ hi)
        rwa [Nat.add_assoc, Nat.add_comm 1 i]
      obtain ⟨s', hc⟩ : ∃ s', Calls H g step s₂ (drawnCalls F t (index + 1) rest) s' :=
        ih hg.tail hrest hj
      exact ⟨s', s₁, hd, s₂, hv ▸ h, hc⟩

theorem exists_calls_reduce (hs : I s) :
    ∃ s', Calls H source step s (reduceCalls F init xs) s' := by
  match init, xs with
  | some total, xs => exact exists_calls_fold hF hstep hs
  | none, [] => exact ⟨s, .nil s⟩
  | none, first :: rest => exact exists_calls_fold hF hstep hs

theorem exists_calls_generator (hg : Generates H I g 0 xs)
    (hdraw : ∀ i, i ≤ xs.length → Answers H I g (indexValue i)) (hs : I s) :
    ∃ s', Calls H g step s (generatorCalls F init xs) s' := by
  match init, xs with
  | some total, xs =>
    refine exists_calls_drawn hF hstep hg (fun i hi => ?_) hs
    rw [Nat.zero_add]
    exact hdraw i hi
  | none, [] =>
    obtain ⟨s', _, h⟩ := hg.nil.exists_comes (hdraw 0 (Nat.zero_le _)) hs
    exact ⟨s', .draw h (.nil s')⟩
  | none, first :: rest =>
    obtain ⟨s₁, hi, h⟩ := hg.head.exists_comes (hdraw 0 (Nat.zero_le _)) hs
    have hrest : ∀ i, i ≤ rest.length → Answers H I g (indexValue (0 + 1 + i)) := by
      intro i hi
      have := hdraw (i + 1) (Nat.succ_le_succ hi)
      rwa [Nat.zero_add, Nat.add_comm 1 i]
    obtain ⟨s', hc⟩ := exists_calls_drawn hF hstep hg.tail hrest hi
    exact ⟨s', .draw h hc⟩

end

/-- A reducer is the left fold with an index. If what the step comes to depends on its argument alone,
a reducer over a list comes to the fold of its elements and makes just the calls of that fold: one for
each element whose predecessors can be folded, in their order, and the call that fails is the last and
is what the reducer fails with. A generator that yields the elements of a list in which there is no
`none`, and then `none`, makes for the same calls of the step and for the same value, or a failure of
the same kind. If the calls come to an end, so do the reducers. All this is said of the states in `I`,
which may be all states or those that a run can get to. -/
theorem reduce_is_indexed_left_fold {S : Type} (H : Surroundings S) (I : S → Prop) (m : Nat)
    (step : Value) (F : Value → Outcome) (hF : ∀ x, Yields H I step x (F x)) (xs : List Value) :
    (∀ init s o s', I s → ((Job.call (.reducer m (.list xs) step) init).Comes H s o s' ↔
      o = reduceOutcome F init xs ∧ Calls H (.list xs) step s (reduceCalls F init xs) s')) ∧
    (∀ total index (ys : List Value) i c, (foldCalls F total index ys)[i]? = some c ↔
      ∃ v t, ys[i]? = some v ∧ foldOutcome F total index (ys.take i) = .ok t ∧
        c = stepCall F t v (index + i)) ∧
    (∀ total index (ys : List Value) c e, c ∈ foldCalls F total index ys → c.outcome = .error e →
      foldOutcome F total index ys = .error e) ∧
    ((∀ x, Answers H I step x) → ∀ init s, I s → ∃ s',
      (Job.call (.reducer m (.list xs) step) init).Comes H s (reduceOutcome F init xs) s') ∧
    ((∀ x ∈ xs, x ≠ .none) → ∀ g, g.kind ≠ .list → Generates H I g 0 xs → ∀ init,
      (∀ s o s', I s → ((Job.call (.reducer m g step) init).Comes H s o s' ↔
        o = generatorOutcome F init xs ∧ Calls H g step s (generatorCalls F init xs) s')) ∧
      (generatorCalls F init xs).filter (·.role == .step) = reduceCalls F init xs ∧
      (generatorOutcome F init xs).mapError Failure.kind =
        (reduceOutcome F init xs).mapError Failure.kind ∧
      ((∀ x, Answers H I step x) → (∀ i, i ≤ xs.length → Answers H I g (indexValue i)) →
        ∀ s, I s → ∃ s',
          (Job.call (.reducer m g step) init).Comes H s (generatorOutcome F init xs) s')) := by
  refine ⟨fun init s o s' hs => comes_reducer_list hF hs,
    fun total index ys i c => foldCalls_getElem?,
    fun total index ys c e hc he => foldOutcome_of_failed hc he, fun hstep init s hs => ?_,
    fun hn g hk hg init => ⟨fun s o s' hs => comes_reducer_generator hF hk hn hg hs,
      filter_generatorCalls, generatorOutcome_kind, fun hstep hdraw s hs => ?_⟩⟩
  · obtain ⟨s', hc⟩ := exists_calls_reduce hF hstep hs
    exact ⟨s', (comes_reducer_list hF hs).2 ⟨rfl, hc⟩⟩
  · obtain ⟨s', hc⟩ := exists_calls_generator hF hstep hg hdraw hs
    exact ⟨s', (comes_reducer_generator hF hk hn hg hs).2 ⟨rfl, hc⟩⟩

theorem comes_sum {input : Option Value} :
    (Job.force (.callable (.host .sum)) input).Comes H s o s' ↔
      o = Word.sumOf input ∧ s' = s := by
  rw [comes_force_call rfl, Job.comes_iff]
  exact comes_value.trans Eval.ends_orFail

/-- A generator of the elements of a list, made by composing the list with a word that hands a number
on as it is. -/
def elements (xs : List Value) : Value := .callable (.composed 0 (.list xs) (.callable (.host .sum)))

theorem comes_elements {xs : List Value} {i : Int64} :
    (Job.force (elements xs) (some (.int i))).Comes H s o s' ↔
      o = (Value.list xs).apply (some (.int i)) ∧ s' = s := by
  rw [elements, comes_force_call rfl, Job.comes_iff, Job.act, Evaluation.call]
  have hsum : Yields H (fun t => t = s) (.callable (.host .sum)) (.int i) (.ok (.int i)) := by
    rintro _ rfl o' s' h
    obtain ⟨rfl, rfl⟩ := comes_sum.1 h
    exact ⟨rfl, rfl⟩
  refine (hsum.comes_ok rfl).trans ?_
  constructor
  · rintro ⟨_, rfl, _, h⟩
    exact (comes_force_apply rfl).1 (Eval.comes_pure.1 h)
  · rintro ⟨rfl, rfl⟩
    exact ⟨_, rfl, comes_sum.2 ⟨rfl, rfl⟩, Eval.comes_pure.2 ((comes_force_apply rfl).2 ⟨rfl, rfl⟩)⟩

/-- Run with nothing beside it, adding up ten and twenty and their indices from five on makes 36, over
the list and over a generator of its elements. -/
theorem reduce_is_indexed_left_fold_sum :
    let H := Sequential.surroundings
    let xs : List Value := [.int 10, .int 20]
    let step : Value := .callable (.host .sum)
    (∃ s', (Job.call (.reducer 0 (.list xs) step) (some (.int 5))).Comes H {} (.ok (.int 36)) s') ∧
    ∃ s', (Job.call (.reducer 0 (elements [.int 10, .int 20, .none]) step) (some (.int 5))).Comes H {}
      (.ok (.int 36)) s' := by
  intro H xs step
  have hF : ∀ x, Yields H (fun _ => True) step x (Word.sumOf (some x)) := by
    intro x s _ o s' h
    exact ⟨(comes_sum.1 h).1, trivial⟩
  have hstep : ∀ x, Answers H (fun _ => True) step x := by
    intro x s _
    exact ⟨_, s, comes_sum.2 ⟨rfl, rfl⟩⟩
  have hg : Generates H (fun _ => True) (elements [.int 10, .int 20, .none]) 0 xs := by
    intro i hi s _ o s' h
    obtain ⟨rfl, _⟩ := comes_elements.1 h
    match i, hi with
    | 0, _ | 1, _ | 2, _ => exact ⟨rfl, trivial⟩
  have hdraw : ∀ i, i ≤ xs.length →
      Answers H (fun _ => True) (elements [.int 10, .int 20, .none]) (indexValue i) :=
    fun i _ s _ => ⟨_, s, comes_elements.2 ⟨rfl, rfl⟩⟩
  have hn : ∀ x ∈ xs, x ≠ .none := by
    intro x hx h
    subst h
    simp [xs] at hx
  obtain ⟨_, _, _, hlist, hgenerator⟩ := reduce_is_indexed_left_fold H (fun _ => True) 0 step _ hF xs
  exact ⟨hlist hstep (some (.int 5)) {} trivial,
    (hgenerator hn _ (by decide) hg (some (.int 5))).2.2.2 hstep hdraw {} trivial⟩

end Concatenative
