import Concatenative.Proofs.Trampoline

/-! How many slots the stack of an invocation has. Every operation takes a fixed number of slots and
leaves a fixed number, so the depth in front of each instruction can be read off the code. Main
statement: in all surroundings the stack has just that depth wherever an invocation gets to. If the
depth covers what every instruction takes, no instruction finds too few slots; otherwise every run
of the code fails, at the latest at the first instruction that takes more than there is. -/
namespace Concatenative

open Eval Evaluation
open Act (Ends)

/-- What an operation does to the depth of a stack. -/
structure Effect where
  need : Nat
  yield : Nat

def Primitive.effect : Primitive → Effect
  | input => ⟨0, 1⟩
  | bind | rebind => ⟨2, 0⟩
  | lookup | force | newList | load | access => ⟨1, 1⟩
  | compose | guard | concat | push | map | reduce => ⟨2, 1⟩
  | pop => ⟨1, 2⟩
  | clear => ⟨1, 0⟩

def Op.effect : Op → Effect
  | literal _ | group _ => ⟨0, 1⟩
  | primitive p => p.effect

/-- The depth behind an operation that finds `depth` slots. -/
def Effect.apply (e : Effect) (depth : Nat) : Nat := depth - e.need + e.yield

/-- The depth behind instructions that find an empty stack. -/
def depthBehind (is : List Instruction) : Nat :=
  is.foldl (fun depth i => i.op.effect.apply depth) 0

/-- The depth in front of an instruction covers what it takes. -/
def Covered (is : List Instruction) (n : Nat) : Prop :=
  ∀ i, is[n]? = some i → i.op.effect.need ≤ depthBehind (is.take n)

variable {S : Type} {H : Surroundings S} {s s' : S} {f : FrameId} {l : Location} {p : Primitive}
  {d : Deferred} {stack : Stack}

/-! ## Names -/

/-- Primitives that wait for a name on top of the stack. -/
def Primitive.takesName : Primitive → Bool
  | bind | rebind | lookup => true
  | _ => false

/-- What is made of a slot in which a name should be. -/
def nameOf : Outcome → Except Failure String
  | .ok (.text name) => .ok name
  | .ok v => .error (.nameExpected v.kind : Cause)
  | .error e => .error e

theorem ends_popName {r : Except Failure (String × Stack)} :
    Ends H (popName (d :: stack)).run s r s' ↔
      ∃ o, Ends H (await d).run s o s' ∧ r = (nameOf o).map (·, stack) := by
  have h : popName (d :: stack) =
      await d >>= fun v => orFail ((nameOf (.ok v)).map (·, stack)) := by
    show (await d >>= _) = _
    congr 1
    funext v
    cases v <;> rfl
  rw [h]
  simp only [Eval.ends_bind, Eval.ends_orFail]
  constructor
  · rintro (⟨v, s₁, hd, rfl, rfl⟩ | ⟨e, hd, rfl⟩)
    · exact ⟨_, hd, rfl⟩
    · exact ⟨_, hd, rfl⟩
  · rintro ⟨⟨e⟩ | v, hd, rfl⟩
    · exact .inr ⟨e, hd, rfl⟩
    · exact .inl ⟨v, s', hd, rfl, rfl⟩

/-- A name is popped and handed on. -/
theorem ends_popName_bind {α : Type} {k : String × Stack → Eval α} {r : Except Failure α} :
    Ends H (popName (d :: stack) >>= k).run s r s' ↔
      (∃ o e, Ends H (await d).run s o s' ∧ nameOf o = .error e ∧ r = .error e) ∨
      (∃ o name s₁, Ends H (await d).run s o s₁ ∧ nameOf o = .ok name ∧
        Ends H (k (name, stack)).run s₁ r s') := by
  simp only [Eval.ends_bind, ends_popName]
  constructor
  · rintro (⟨_, s₁, ⟨o, hd, ho⟩, hk⟩ | ⟨e, ⟨o, hd, ho⟩, rfl⟩)
    · cases hn : nameOf o with
      | error e => rw [hn] at ho; cases ho
      | ok name =>
        rw [hn] at ho
        cases ho
        exact .inr ⟨o, name, s₁, hd, hn, hk⟩
    · cases hn : nameOf o with
      | error e => rw [hn] at ho; cases ho; exact .inl ⟨o, _, hd, hn, rfl⟩
      | ok name => rw [hn] at ho; cases ho
  · rintro (⟨o, e, hd, hn, rfl⟩ | ⟨o, name, s₁, hd, hn, hk⟩)
    · exact .inr ⟨e, ⟨o, hd, by rw [hn]; rfl⟩, rfl⟩
    · exact .inl ⟨_, s₁, ⟨o, hd, by rw [hn]; rfl⟩, hk⟩

/-- What `bind` and `rebind` fail with that find one slot only, by what the slot comes to. -/
def withoutValue (l : Location) (o : Outcome) : Failure :=
  match nameOf o with
  | .ok _ => ⟨.underflow, some l⟩
  | .error e => e.orAt l

theorem orFail_bind_pure {α β : Type} (a : Except Failure α) (g : α → β) :
    (orFail a >>= fun v => pure (g v) : Eval β) = orFail (a.map g) := by
  cases a <;> rfl

/-- Pops a name and a value and asks something about both that may be refused. -/
def popBoth (x : String → Deferred → Eval (Except Failure Unit)) (stack : Stack) : Eval Stack := do
  let (name, stack) ← popName stack
  let (d, stack) ← pop stack
  orFail (← x name d)
  return stack

theorem primitive_bind :
    primitive f l .bind stack = popBoth (fun name d => ask (.declare f name d)) stack := rfl

theorem primitive_rebind :
    primitive f l .rebind stack = popBoth (fun name d => ask (.rebind f name d)) stack := rfl

variable {x : String → Deferred → Eval (Except Failure Unit)} {r : Except Failure Stack}

theorem ends_popBoth_one :
    Ends H (orAt l (popBoth x [d])).run s r s' ↔
      ∃ o, Ends H (await d).run s o s' ∧ r = .error (withoutValue l o) := by
  have hpop : ∀ (k : Deferred × Stack → Eval Stack) (r₀ : Except Failure Stack) (s₁ : S),
      Ends H (pop [] >>= k).run s₁ r₀ s' ↔ r₀ = .error (.underflow : Cause) ∧ s' = s₁ :=
    fun k r₀ s₁ => Act.ends_done
  simp only [popBoth, Eval.ends_orAt, ends_popName_bind, hpop]
  constructor
  · rintro ⟨_, ⟨o, e, hd, hn, rfl⟩ | ⟨o, name, s₁, hd, hn, rfl, rfl⟩, rfl⟩
    · exact ⟨o, hd, by rw [withoutValue, hn]; rfl⟩
    · exact ⟨o, hd, by rw [withoutValue, hn]; rfl⟩
  · rintro ⟨o, hd, rfl⟩
    cases hn : nameOf o with
    | error e => exact ⟨.error e, .inl ⟨o, e, hd, hn, rfl⟩, by rw [withoutValue, hn]; rfl⟩
    | ok name => exact ⟨_, .inr ⟨o, name, s', hd, hn, rfl, rfl⟩, by rw [withoutValue, hn]; rfl⟩

/-- A name and a value are there: there is no name in the slot, or what is asked about both decides. -/
theorem ends_popBoth_two {value : Deferred} {R : String → S → Except Failure Unit → S → Prop}
    (hx : ∀ name s r s', Ends H (x name value).run s r s' ↔ ∃ a, R name s a s' ∧ r = .ok a) :
    Ends H (popBoth x (d :: value :: stack)).run s r s' ↔
      (∃ o e, Ends H (await d).run s o s' ∧ nameOf o = .error e ∧ r = .error e) ∨
      (∃ o name s₁, Ends H (await d).run s o s₁ ∧ nameOf o = .ok name ∧
        ∃ a, R name s₁ a s' ∧ r = a.map fun _ => stack) := by
  have hboth : ∀ (name : String) (s₁ : S),
      Ends H (x name value >>= fun a => orFail a >>= fun _ => pure stack).run s₁ r s' ↔
        ∃ a, R name s₁ a s' ∧ r = a.map fun _ => stack := by
    intro name s₁
    simp only [orFail_bind_pure, Eval.ends_bind, hx, Eval.ends_orFail]
    constructor
    · rintro (⟨a, s₂, ⟨_, ha, ⟨⟩⟩, rfl, rfl⟩ | ⟨e, ⟨_, _, ⟨⟩⟩, _⟩)
      exact ⟨a, ha, rfl⟩
    · rintro ⟨a, ha, rfl⟩
      exact .inl ⟨a, s', ⟨a, ha, rfl⟩, rfl, rfl⟩
  simp only [popBoth, ends_popName_bind, pop, pure_bind, hboth]

/-! ## Primitives that find what they take -/

theorem ends_ask_orFail {α : Type} {q : Request} (hq : q.isPerform = false)
    {g : q.Answer → Except Failure α} {r : Except Failure α} :
    Ends H (ask q >>= fun a => orFail (g a)).run s r s' ↔ ∃ a, H s q a s' ∧ r = g a := by
  simp only [Eval.ends_ask_bind hq, Eval.ends_orFail]
  constructor
  · rintro ⟨a, s₁, ha, rfl, rfl⟩
    exact ⟨a, ha, rfl⟩
  · rintro ⟨a, ha, rfl⟩
    exact ⟨a, s', ha, rfl, rfl⟩

theorem ends_primitive_lookup :
    Ends H (primitive f l .lookup (d :: stack)).run s r s' ↔
      (∃ o e, Ends H (await d).run s o s' ∧ nameOf o = .error e ∧ r = .error e) ∨
      (∃ o name s₁, Ends H (await d).run s o s₁ ∧ nameOf o = .ok name ∧
        ∃ a, H s₁ (.lookup f name) a s' ∧ r = a.map (· :: stack)) := by
  simp only [primitive, ends_popName_bind, orFail_bind_pure,
    ends_ask_orFail (q := .lookup _ _) rfl]

theorem ends_primitive_input :
    Ends H (primitive f l .input stack).run s r s' ↔
      ∃ a, H s (.input f) a s' ∧ r = a.map (· :: stack) := by
  simp only [primitive, orFail_bind_pure, ends_ask_orFail (q := .input f) rfl]

/-- A primitive asks its frame for nothing: all it does is to start jobs and to make callables. -/
def Primitive.isPlain : Primitive → Bool
  | bind | rebind | lookup | input => false
  | _ => true

/-- What cannot fail, and leaves a stack of a given depth if it ends. -/
def Leaving (H : Surroundings S) (x : Eval Stack) (depth : Nat) : Prop :=
  ∀ s r s', Ends H x.run s r s' → ∃ stack, r = .ok stack ∧ stack.length = depth

theorem leaving_pure (stack : Stack) : Leaving H (pure stack) stack.length := by
  intro s r s' h
  obtain ⟨rfl, rfl⟩ := Eval.ends_pure.1 h
  exact ⟨stack, rfl, rfl⟩

theorem leaving_start {job : Job} {k : Deferred → Eval Stack} {depth : Nat}
    (hk : ∀ d, Leaving H (k d) depth) : Leaving H (start l job >>= k) depth := by
  intro s r s' h
  simp only [Eval.ends_bind, Eval.ends_start] at h
  obtain ⟨_, s₁, ⟨task, _, ⟨⟩⟩, h⟩ | ⟨e, ⟨_, _, h⟩, _⟩ := h
  · exact hk _ s₁ r s' h
  · cases h

theorem leaving_stamp {k : Nat → Eval Stack} {depth : Nat} (hk : ∀ n, Leaving H (k n) depth) :
    Leaving H (ask .stamp >>= k) depth := by
  intro s r s' h
  obtain ⟨n, s₁, _, h⟩ := (Eval.ends_ask_bind rfl).1 h
  exact hk n s₁ r s' h

theorem leaving_primitive (hp : p.isPlain = true) (hc : p.effect.need ≤ stack.length) :
    Leaving H (primitive f l p stack) (p.effect.apply stack.length) := by
  match p, stack, hp with
  | .compose, _ :: _ :: rest, _ | .concat, _ :: _ :: rest, _ | .push, _ :: _ :: rest, _
  | .map, _ :: _ :: rest, _ | .reduce, _ :: _ :: rest, _ =>
    exact leaving_start fun d => leaving_pure (d :: rest)
  | .force, _ :: rest, _ | .newList, _ :: rest, _ | .load, _ :: rest, _ | .access, _ :: rest, _ =>
    exact leaving_start fun d => leaving_pure (d :: rest)
  | .guard, _ :: _ :: rest, _ => exact leaving_stamp fun _ => leaving_pure (_ :: rest)
  | .pop, _ :: rest, _ =>
    exact leaving_start fun _ => leaving_start fun b => leaving_start fun a =>
      leaving_pure (a :: b :: rest)
  | .clear, _ :: rest, _ => exact leaving_pure rest

/-! ## Instructions -/

/-- How an instruction fails that finds what it takes: there is no name where it waits for one, or
its frame refuses what it asks for. -/
inductive Instruction.Raises (H : Surroundings S) (f : FrameId) :
    Instruction → Stack → S → Failure → S → Prop
  | name {l : Location} {p : Primitive} {d : Deferred} {stack : Stack} {s s' : S} {o : Outcome}
      {e : Failure} :
      p.takesName = true → Ends H (await d).run s o s' → nameOf o = .error e →
      Raises H f ⟨l, .primitive p⟩ (d :: stack) s (e.orAt l) s'
  | declare {l : Location} {d value : Deferred} {stack : Stack} {s s₁ s' : S} {o : Outcome}
      {name : String} {e : Failure} :
      Ends H (await d).run s o s₁ → nameOf o = .ok name →
      H s₁ (.declare f name value) (.error e) s' →
      Raises H f ⟨l, .primitive .bind⟩ (d :: value :: stack) s (e.orAt l) s'
  | rebind {l : Location} {d value : Deferred} {stack : Stack} {s s₁ s' : S} {o : Outcome}
      {name : String} {e : Failure} :
      Ends H (await d).run s o s₁ → nameOf o = .ok name →
      H s₁ (.rebind f name value) (.error e) s' →
      Raises H f ⟨l, .primitive .rebind⟩ (d :: value :: stack) s (e.orAt l) s'
  | lookup {l : Location} {d : Deferred} {stack : Stack} {s s₁ s' : S} {o : Outcome}
      {name : String} {e : Failure} :
      Ends H (await d).run s o s₁ → nameOf o = .ok name → H s₁ (.lookup f name) (.error e) s' →
      Raises H f ⟨l, .primitive .lookup⟩ (d :: stack) s (e.orAt l) s'
  | input {l : Location} {stack : Stack} {s s' : S} {e : Failure} :
      H s (.input f) (.error e) s' →
      Raises H f ⟨l, .primitive .input⟩ stack s (e.orAt l) s'

variable {i : Instruction}

/-- An instruction that finds what it takes fails in one of these ways or leaves a stack of the depth
that its effect gives. -/
theorem Instruction.ends_covered (hc : i.op.effect.need ≤ stack.length)
    (hi : Ends H (instruction f i stack).run s r s') :
    (∃ e, r = .error e ∧ i.Raises H f stack s e s') ∨
      ∃ stack', r = .ok stack' ∧ stack'.length = i.op.effect.apply stack.length := by
  obtain ⟨l, op⟩ := i
  obtain ⟨r₀, h, rfl⟩ := Eval.ends_orAt.1 hi
  clear hi
  cases op with
  | literal v =>
    obtain ⟨rfl, rfl⟩ := Eval.ends_pure.1 h
    exact .inr ⟨_, rfl, rfl⟩
  | group body =>
    obtain ⟨stack', rfl, hl⟩ := leaving_stamp
      (fun n => leaving_pure (.settled (.callable (.closure n body f)) :: stack)) s r₀ s' h
    exact .inr ⟨stack', rfl, hl⟩
  | primitive p =>
    by_cases hp : p.isPlain = true
    · obtain ⟨stack', rfl, hl⟩ := leaving_primitive hp hc s r₀ s' h
      exact .inr ⟨stack', rfl, hl⟩
    -- The operators that ask the scope are the ones that can fail.
    · match p, stack with
      | .bind, d :: value :: rest =>
        obtain ⟨o, e, hd, hn, rfl⟩ | ⟨o, name, s₁, hd, hn, ⟨e⟩ | _, ha, rfl⟩ :=
          (ends_popBoth_two (x := fun name d => ask (.declare f name d))
            fun _ _ _ _ => Eval.ends_ask rfl).1 h
        · exact .inl ⟨_, rfl, .name rfl hd hn⟩
        · exact .inl ⟨_, rfl, .declare hd hn ha⟩
        · exact .inr ⟨rest, rfl, rfl⟩
      | .rebind, d :: value :: rest =>
        obtain ⟨o, e, hd, hn, rfl⟩ | ⟨o, name, s₁, hd, hn, ⟨e⟩ | _, ha, rfl⟩ :=
          (ends_popBoth_two (x := fun name d => ask (.rebind f name d))
            fun _ _ _ _ => Eval.ends_ask rfl).1 h
        · exact .inl ⟨_, rfl, .name rfl hd hn⟩
        · exact .inl ⟨_, rfl, .rebind hd hn ha⟩
        · exact .inr ⟨rest, rfl, rfl⟩
      | .lookup, d :: rest =>
        obtain ⟨o, e, hd, hn, rfl⟩ | ⟨o, name, s₁, hd, hn, ⟨e⟩ | v, ha, rfl⟩ := ends_primitive_lookup.1 h
        · exact .inl ⟨_, rfl, .name rfl hd hn⟩
        · exact .inl ⟨_, rfl, .lookup hd hn ha⟩
        · exact .inr ⟨v :: rest, rfl, rfl⟩
      | .input, stack =>
        obtain ⟨⟨e⟩ | v, ha, rfl⟩ := ends_primitive_input.1 h
        · exact .inl ⟨_, rfl, .input ha⟩
        · exact .inr ⟨v :: stack, rfl, rfl⟩

/-- The ways to fail are ways in which an instruction does fail. -/
theorem Instruction.Raises.ends {e : Failure} (h : i.Raises H f stack s e s')
    (hc : i.op.effect.need ≤ stack.length) :
    Ends H (instruction f i stack).run s (.error e) s' := by
  cases h with
  | @name l p d stack _ _ o e hp hd hn =>
    refine Eval.ends_orAt.2 ⟨.error e, ?_, rfl⟩
    match p with
    | .bind | .rebind | .lookup => exact ends_popName_bind.2 (.inl ⟨o, e, hd, hn, rfl⟩)
  | declare hd hn ha =>
    refine Eval.ends_orAt.2 ⟨.error _, ?_, rfl⟩
    exact (ends_popBoth_two (x := fun name d => ask (.declare f name d))
      fun _ _ _ _ => Eval.ends_ask rfl).2 (.inr ⟨_, _, _, hd, hn, _, ha, rfl⟩)
  | rebind hd hn ha =>
    refine Eval.ends_orAt.2 ⟨.error _, ?_, rfl⟩
    exact (ends_popBoth_two (x := fun name d => ask (.rebind f name d))
      fun _ _ _ _ => Eval.ends_ask rfl).2 (.inr ⟨_, _, _, hd, hn, _, ha, rfl⟩)
  | lookup hd hn ha =>
    exact Eval.ends_orAt.2 ⟨_, ends_primitive_lookup.2 (.inr ⟨_, _, _, hd, hn, _, ha, rfl⟩), rfl⟩
  | input ha => exact Eval.ends_orAt.2 ⟨_, ends_primitive_input.2 ⟨_, ha, rfl⟩, rfl⟩

/-- Operations that take a name and, below it, a value. -/
def Op.takesBoth : Op → Bool
  | primitive .bind | primitive .rebind => true
  | _ => false

theorem Op.need_of_takesBoth {o : Op} (h : o.takesBoth = true) : o.effect.need = 2 := by
  match o with
  | .primitive .bind | .primitive .rebind => rfl

/-- An instruction that finds too few slots fails for that, unless it finds a name. -/
theorem Instruction.ends_short (hs : stack.length < i.op.effect.need)
    (hn : i.op.takesBoth = true → stack = []) :
    Ends H (instruction f i stack).run s r s' ↔ r = .error ⟨.underflow, some i.location⟩ ∧ s' = s := by
  obtain ⟨l, op⟩ := i
  match op, stack with
  | .primitive .bind, [] | .primitive .rebind, [] | .primitive .lookup, []
  | .primitive .compose, [] | .primitive .compose, [_] | .primitive .concat, []
  | .primitive .concat, [_] | .primitive .push, [] | .primitive .push, [_]
  | .primitive .map, [] | .primitive .map, [_] | .primitive .reduce, [] | .primitive .reduce, [_]
  | .primitive .guard, [] | .primitive .guard, [_] | .primitive .force, []
  | .primitive .newList, [] | .primitive .load, [] | .primitive .access, []
  | .primitive .pop, [] | .primitive .clear, [] => exact Act.ends_done
  | .primitive .bind, [d] | .primitive .rebind, [d] => cases hn rfl

theorem Instruction.ends_one (hn : i.op.takesBoth = true) :
    Ends H (instruction f i [d]).run s r s' ↔
      ∃ o, Ends H (await d).run s o s' ∧ r = .error (withoutValue i.location o) := by
  obtain ⟨l, op⟩ := i
  match op with
  | .primitive .bind => exact ends_popBoth_one (x := fun name d => ask (.declare f name d))
  | .primitive .rebind => exact ends_popBoth_one (x := fun name d => ask (.rebind f name d))

/-- An instruction that does not fail found what it takes. -/
theorem Instruction.ends_ok {stack' : Stack}
    (h : Ends H (instruction f i stack).run s (.ok stack') s') :
    i.op.effect.need ≤ stack.length ∧ stack'.length = i.op.effect.apply stack.length := by
  rcases Nat.lt_or_ge stack.length i.op.effect.need with hs | hc
  · by_cases hn : i.op.takesBoth = true → stack = []
    · cases ((Instruction.ends_short hs hn).1 h).1
    · obtain ⟨hb, hne⟩ := Classical.not_imp.1 hn
      have hpos := List.length_pos_iff.2 hne
      rw [Op.need_of_takesBoth hb] at hs
      obtain ⟨d, rfl⟩ := List.length_eq_one_iff.1 (show stack.length = 1 by omega)
      obtain ⟨o, _, ho⟩ := (Instruction.ends_one hb).1 h
      cases ho
  · obtain ⟨e, he, _⟩ | ⟨_, ⟨⟩, hl⟩ := Instruction.ends_covered hc h
    · cases he
    · exact ⟨hc, hl⟩

/-! ## Invocations -/

theorem ends_instructions_length {is : List Instruction} {stack' : Stack}
    (h : Ends H (instructions f is stack).run s (.ok stack') s') :
    stack'.length = is.foldl (fun depth i => i.op.effect.apply depth) stack.length := by
  induction is generalizing stack s with
  | nil =>
    cases (Eval.ends_pure.1 h).1
    rfl
  | cons i rest ih =>
    obtain ⟨stack₁, s₁, hi, hrest⟩ | ⟨e, _, he⟩ := Eval.ends_bind.1 h
    · rw [ih hrest, (Instruction.ends_ok hi).2]
      rfl
    · cases he

/-- Instructions fail where one of them does, after those in front of it. -/
theorem ends_instructions_error {is : List Instruction} {e : Failure} :
    Ends H (instructions f is stack).run s (.error e) s' ↔
      ∃ n i stack' s₁, is[n]? = some i ∧
        Ends H (instructions f (is.take n) stack).run s (.ok stack') s₁ ∧
        Ends H (instruction f i stack').run s₁ (.error e) s' := by
  constructor
  · intro h
    induction is generalizing stack s with
    | nil => cases (Eval.ends_pure.1 h).1
    | cons i rest ih =>
      obtain ⟨stack₁, s₁, hi, hrest⟩ | ⟨e', hi, ⟨⟩⟩ := Eval.ends_bind.1 h
      · obtain ⟨n, j, stack₂, s₂, hj, htake, hfail⟩ := ih hrest
        exact ⟨n + 1, j, stack₂, s₂, hj, Eval.ends_bind.2 (.inl ⟨stack₁, s₁, hi, htake⟩), hfail⟩
      · exact ⟨0, i, stack, s, rfl, Eval.ends_pure.2 ⟨rfl, rfl⟩, hi⟩
  · rintro ⟨n, i, stack₁, s₁, hi, htake, hfail⟩
    obtain ⟨hn, rfl⟩ := List.getElem?_eq_some_iff.1 hi
    rw [← List.take_append_drop n is, instructions_append, Eval.ends_bind,
      List.drop_eq_getElem_cons hn]
    exact .inl ⟨stack₁, s₁, htake, Eval.ends_bind.2 (.inr ⟨e, hfail, rfl⟩)⟩

variable {frame : FrameId} {is : List Instruction} {x : Option Value} {n m : Nat} {e : Failure}

/-- An invocation gets to the instruction `n` of its code, in the frame `f` and with a stack. -/
def Reaches (H : Surroundings S) (frame : FrameId) (is : List Instruction) (x : Option Value) (s : S)
    (n : Nat) (f : FrameId) (stack : Stack) (s' : S) : Prop :=
  ∃ s₁, H s (.enter frame x) f s₁ ∧ Ends H (instructions f (is.take n) []).run s₁ (.ok stack) s'

/-- An invocation gets to the instruction `n` of its code, and there it fails. -/
def FailsAt (H : Surroundings S) (frame : FrameId) (is : List Instruction) (x : Option Value) (s : S)
    (n : Nat) (e : Failure) (s' : S) : Prop :=
  ∃ i f stack s₁, is[n]? = some i ∧ Reaches H frame is x s n f stack s₁ ∧
    Ends H (instruction f i stack).run s₁ (.error e) s'

theorem leaves_ok : Leaves H frame is x s (.ok stack) s' ↔
    ∃ f, Reaches H frame is x s is.length f stack s' := by
  simp only [Leaves, Reaches, List.take_length]

theorem leaves_error : Leaves H frame is x s (.error e) s' ↔
    ∃ n, FailsAt H frame is x s n e s' := by
  simp only [Leaves, ends_instructions_error, FailsAt, Reaches]
  constructor
  · rintro ⟨f, s₁, ha, n, i, stack, s₂, hi, htake, hfail⟩
    exact ⟨n, i, f, stack, s₂, hi, ⟨s₁, ha, htake⟩, hfail⟩
  · rintro ⟨n, i, f, stack, s₂, hi, ⟨s₁, ha, htake⟩, hfail⟩
    exact ⟨f, s₁, ha, n, i, stack, s₂, hi, htake, hfail⟩

theorem Reaches.length (h : Reaches H frame is x s n f stack s') :
    stack.length = depthBehind (is.take n) := by
  obtain ⟨s₁, _, h⟩ := h
  exact ends_instructions_length h

/-- What was passed found what it takes. -/
theorem Reaches.covered (h : Reaches H frame is x s n f stack s') (hm : m < n) : Covered is m := by
  intro i hi
  obtain ⟨s₁, _, h⟩ := h
  have hlen : m < (is.take n).length := by
    have := (List.getElem?_eq_some_iff.1 hi).1
    simp only [List.length_take]
    omega
  rw [← List.take_append_drop m (is.take n), instructions_append, Eval.ends_bind,
    List.drop_eq_getElem_cons hlen, List.take_take, Nat.min_eq_left (Nat.le_of_lt hm)] at h
  obtain ⟨stack₁, s₂, htake, hrest⟩ | ⟨e, _, he⟩ := h
  · obtain ⟨stack₂, s₃, hi', _⟩ | ⟨e, _, he⟩ := Eval.ends_bind.1 hrest
    · have hneed := (Instruction.ends_ok hi').1
      have he : (is.take n)[m] = i := by
        rw [List.getElem_take]
        exact (List.getElem?_eq_some_iff.1 hi).2
      rw [ends_instructions_length htake, he] at hneed
      exact hneed
    · cases he
  · cases he

/-- What an invocation comes to: the failure of an instruction, nothing if it leaves no slot, or what
the top slot comes to. -/
theorem comes_invocation {k : Nat} {body : Body} {o : Outcome} :
    (Job.call (.closure k body frame) x).Comes H s o s' ↔
      (∃ n e, FailsAt H frame body.code x s n e s' ∧ o = .error e) ∨
      (∃ f stack s₁, Reaches H frame body.code x s body.code.length f stack s₁ ∧
        (depthBehind body.code = 0 ∧ o = .ok .none ∧ s' = s₁ ∨
          ∃ d rest, stack = d :: rest ∧ Ends H (await d).run s₁ o s')) := by
  rw [comes_call_closure]
  simp only [leaves_ok, leaves_error]
  constructor
  · rintro (⟨stack, s₁, ⟨f, hr⟩, htop⟩ | ⟨e, ⟨n, hf⟩, rfl⟩)
    · refine .inr ⟨f, stack, s₁, hr, ?_⟩
      cases stack with
      | nil =>
        have hl := hr.length
        rw [List.take_length] at hl
        exact .inl ⟨hl.symm, Eval.ends_pure.1 htop⟩
      | cons d rest => exact .inr ⟨d, rest, rfl, htop⟩
    · exact .inl ⟨n, e, hf, rfl⟩
  · rintro (⟨n, e, hf, rfl⟩ | ⟨f, stack, s₁, hr, ⟨hd, ho⟩ | ⟨d, rest, rfl, htop⟩⟩)
    · exact .inr ⟨e, ⟨n, hf⟩, rfl⟩
    · have hl := hr.length
      rw [List.take_length, hd] at hl
      cases List.length_eq_zero_iff.1 hl
      exact .inl ⟨[], s₁, ⟨f, hr⟩, Eval.ends_pure.2 ho⟩
    · exact .inl ⟨d :: rest, s₁, ⟨f, hr⟩, htop⟩

/-- No run gets past an instruction that takes more than there is. -/
theorem fails_of_short {k : Nat} {body : Body} {o : Outcome} (hi : body.code[n]? = some i)
    (hs : depthBehind (body.code.take n) < i.op.effect.need)
    (h : (Job.call (.closure k body frame) x).Comes H s o s') :
    ∃ m e, m ≤ n ∧ FailsAt H frame body.code x s m e s' ∧ o = .error e := by
  have hshort : ¬ Covered body.code n := fun hc => absurd (hc i hi) (Nat.not_le.2 hs)
  obtain ⟨m, e, hf, rfl⟩ | ⟨f, stack, s₁, hr, _⟩ := comes_invocation.1 h
  · refine ⟨m, e, ?_, hf, rfl⟩
    obtain ⟨_, f, stack, s₁, _, hr, _⟩ := hf
    exact Nat.le_of_not_lt fun hm => hshort (hr.covered hm)
  · exact absurd (hr.covered (List.getElem?_eq_some_iff.1 hi).1) hshort

/-- The depth of a stack is static. In all surroundings, an invocation that gets to an instruction
has just the slots there that the effects of the instructions before it give. If these are enough
everywhere, an instruction fails only where it finds no name or its frame refuses something, and what
the invocation comes to is the failure of an instruction, or nothing if the last depth is zero, or
what the top slot comes to. Where they are not enough the invocation fails, there or before; there it
fails because slots are missing, or, if `bind` or `rebind` finds just one, with what that slot comes to
if this is no name. -/
theorem stack_depth_is_static {S : Type} (H : Surroundings S) (k : Nat) (body : Body)
    (frame : FrameId) (x : Option Value) (s : S) :
    (∀ n f stack s₁, Reaches H frame body.code x s n f stack s₁ →
      stack.length = depthBehind (body.code.take n)) ∧
    ((∀ n, Covered body.code n) →
      (∀ n i f stack s₁ e s', body.code[n]? = some i → Reaches H frame body.code x s n f stack s₁ →
        (Ends H (instruction f i stack).run s₁ (.error e) s' ↔ i.Raises H f stack s₁ e s')) ∧
      ∀ o s', (Job.call (.closure k body frame) x).Comes H s o s' ↔
        (∃ n e, FailsAt H frame body.code x s n e s' ∧ o = .error e) ∨
        (∃ f stack s₁, Reaches H frame body.code x s body.code.length f stack s₁ ∧
          (depthBehind body.code = 0 ∧ o = .ok .none ∧ s' = s₁ ∨
            ∃ d rest, stack = d :: rest ∧ Ends H (await d).run s₁ o s'))) ∧
    (∀ n i, body.code[n]? = some i → depthBehind (body.code.take n) < i.op.effect.need →
      (∀ o s', (Job.call (.closure k body frame) x).Comes H s o s' →
        ∃ m e, m ≤ n ∧ FailsAt H frame body.code x s m e s' ∧ o = .error e) ∧
      ∀ f stack s₁, Reaches H frame body.code x s n f stack s₁ →
        ((i.op.takesBoth = true → depthBehind (body.code.take n) = 0) → ∀ r s',
          Ends H (instruction f i stack).run s₁ r s' ↔
            r = .error ⟨.underflow, some i.location⟩ ∧ s' = s₁) ∧
        (i.op.takesBoth = true → depthBehind (body.code.take n) = 1 → ∃ d, stack = [d] ∧ ∀ r s',
          Ends H (instruction f i stack).run s₁ r s' ↔
            ∃ o, Ends H (await d).run s₁ o s' ∧ r = .error (withoutValue i.location o))) := by
  refine ⟨fun n f stack s₁ hr => hr.length, fun hc => ⟨?_, fun o s' => comes_invocation⟩, ?_⟩
  · intro n i f stack s₁ e s' hi hr
    have hneed : i.op.effect.need ≤ stack.length := hr.length ▸ hc n i hi
    constructor
    · intro h
      obtain ⟨_, ⟨⟩, hraise⟩ | ⟨_, hok, _⟩ := Instruction.ends_covered hneed h
      · exact hraise
      · cases hok
    · intro h
      exact h.ends hneed
  · intro n i hi hs
    refine ⟨fun o s' h => fails_of_short hi hs h, fun f stack s₁ hr => ⟨?_, ?_⟩⟩
    · intro hn r s'
      refine Instruction.ends_short (hr.length ▸ hs) fun hb => ?_
      exact List.length_eq_zero_iff.1 (hr.length.trans (hn hb))
    · intro hb hone
      obtain ⟨d, rfl⟩ := List.length_eq_one_iff.1 (hr.length.trans hone)
      exact ⟨d, rfl, fun r s' => Instruction.ends_one hb⟩

/-- A name that is bound with nothing below it. -/
def bindingOnly (name : Literal) : List Instruction :=
  [⟨.start "name", .literal name⟩, ⟨.start "bind", .primitive .bind⟩]

/-- Run with nothing beside them, `5` finds what it takes and comes to five, a lone `:` finds no slot,
and where there is one slot `5 :` fails because five is no name and `x :` because a slot is missing. -/
theorem stack_depth_is_static_five :
    let H := Sequential.surroundings
    let s₁ : Sequential := { scope := (Scope.addChild {} 0 none).2 }
    let bind : Instruction := ⟨.start "bind", .primitive .bind⟩
    (Job.call (.closure 0 ⟨five, none, .start "body"⟩ 0) none).Comes H {} (.ok (.int 5)) s₁ ∧
    Ends H (instruction 0 bind []).run s₁ (.error ⟨.underflow, some (.start "bind")⟩) s₁ ∧
    Ends H (instruction 0 bind [.settled (.int 5)]).run s₁
      (.error ⟨.nameExpected .int, some (.start "bind")⟩) s₁ ∧
    Ends H (instruction 0 bind [.settled (.text "x")]).run s₁
      (.error ⟨.underflow, some (.start "bind")⟩) s₁ := by
  intro H s₁ bind
  have hstatic := fun is => stack_depth_is_static H 0 ⟨is, none, .start "body"⟩ 0 none {}
  have hone : ∀ v, Reaches H 0 (bindingOnly v) none {} 1 0 [.settled v.value] s₁ :=
    fun v => ⟨s₁, rfl, Sequential.ends_of_run (n := 1) rfl⟩
  have hbind : ∀ v : Literal, Ends H (instruction 0 bind [.settled v.value]).run s₁
      (.error (withoutValue (.start "bind") (.ok v.value))) s₁ := by
    intro v
    obtain ⟨d, hd, h⟩ := (((hstatic (bindingOnly v)).2.2 1 bind rfl (Nat.lt_succ_self 1)).2 0 _ s₁
      (hone v)).2 rfl rfl
    cases hd
    exact (h _ _).2 ⟨_, Eval.ends_pure.2 ⟨rfl, rfl⟩, rfl⟩
  refine ⟨?_, ?_, hbind (.int 5), hbind (.text "x")⟩
  · have hcovered : ∀ n, Covered five n := by
      intro n i hi
      match n with
      | 0 => cases hi; exact Nat.zero_le _
    exact (((hstatic five).2.1 hcovered).2 _ _).2 (.inr ⟨0, [.settled (.int 5)], s₁,
      ⟨s₁, rfl, Sequential.ends_of_run (n := 1) rfl⟩, .inr ⟨_, _, rfl, Eval.ends_pure.2 ⟨rfl, rfl⟩⟩⟩)
  · exact (((((hstatic [bind]).2.2 0 bind rfl (by decide)).2 0 [] s₁
      ⟨s₁, rfl, Sequential.ends_of_run (n := 1) rfl⟩).1 fun _ => rfl) _ _).2 ⟨rfl, rfl⟩

end Concatenative
