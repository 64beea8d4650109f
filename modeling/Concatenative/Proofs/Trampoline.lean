import Concatenative.Proofs.Record
import Concatenative.Proofs.Sequential

/-! Forces that are left to the caller. A callable whose body ended in a force hands back what that
force would have been applied to, and `Evaluation.bounce` goes on with it in place. The recursive
reading is simpler: call, then force what was handed back. Main statement: the two come to the same
values and to failures with the same causes, in all surroundings and for chains of any length, and
so a body from which the last force was taken means what it meant with that force in it, unless
there is nothing to force. -/
namespace Concatenative

/-- An outcome without the place that is blamed. -/
def Outcome.unplaced (o : Outcome) : Except Cause Value := o.mapError Failure.cause

theorem Outcome.unplaced_orAt (o : Outcome) (l : Location) : (o.orAt l).unplaced = o.unplaced := by
  rcases o with ⟨cause, _ | _⟩ | v <;> rfl

/-- Whatever one side comes to the other side comes to as well, up to the place that is blamed. -/
def Agree (P Q : Outcome → Prop) : Prop :=
  (∀ o, P o → ∃ o', Q o' ∧ o'.unplaced = o.unplaced) ∧
  (∀ o, Q o → ∃ o', P o' ∧ o'.unplaced = o.unplaced)

namespace Agree

variable {P Q R : Outcome → Prop}

theorem of_iff (h : ∀ o, P o ↔ Q o) : Agree P Q :=
  ⟨fun o ho => ⟨o, (h o).1 ho, rfl⟩, fun o ho => ⟨o, (h o).2 ho, rfl⟩⟩

theorem symm (h : Agree P Q) : Agree Q P := ⟨h.2, h.1⟩

theorem trans (h : Agree P Q) (h' : Agree Q R) : Agree P R := by
  constructor
  · intro o ho
    obtain ⟨o₁, h₁, e₁⟩ := h.1 o ho
    obtain ⟨o₂, h₂, e₂⟩ := h'.1 o₁ h₁
    exact ⟨o₂, h₂, e₂.trans e₁⟩
  · intro o ho
    obtain ⟨o₁, h₁, e₁⟩ := h'.2 o ho
    obtain ⟨o₂, h₂, e₂⟩ := h.2 o₁ h₁
    exact ⟨o₂, h₂, e₂.trans e₁⟩

/-- It makes no difference whether a place is blamed in the end. -/
theorem orAt (P : Outcome → Prop) (l : Location) :
    Agree P fun o => ∃ o₀, P o₀ ∧ o = o₀.orAt l := by
  constructor
  · intro o ho
    exact ⟨o.orAt l, ⟨o, ho, rfl⟩, o.unplaced_orAt l⟩
  · rintro _ ⟨o, ho, rfl⟩
    exact ⟨o, ho, (o.unplaced_orAt l).symm⟩

theorem or (h : Agree P Q) : Agree (fun o => R o ∨ P o) fun o => R o ∨ Q o := by
  constructor
  · rintro o (ho | ho)
    · exact ⟨o, .inl ho, rfl⟩
    · obtain ⟨o', h', e⟩ := h.1 o ho
      exact ⟨o', .inr h', e⟩
  · rintro o (ho | ho)
    · exact ⟨o, .inl ho, rfl⟩
    · obtain ⟨o', h', e⟩ := h.2 o ho
      exact ⟨o', .inr h', e⟩

theorem exists_congr {ι : Type} {P Q : ι → Outcome → Prop} (h : ∀ i, Agree (P i) (Q i)) :
    Agree (fun o => ∃ i, P i o) fun o => ∃ i, Q i o := by
  constructor
  · rintro o ⟨i, ho⟩
    obtain ⟨o', h', e⟩ := (h i).1 o ho
    exact ⟨o', ⟨i, h'⟩, e⟩
  · rintro o ⟨i, ho⟩
    obtain ⟨o', h', e⟩ := (h i).2 o ho
    exact ⟨o', ⟨i, h'⟩, e⟩

theorem and_left {p : Prop} (h : p → Agree P Q) : Agree (fun o => p ∧ P o) fun o => p ∧ Q o := by
  constructor
  · rintro o ⟨hp, ho⟩
    obtain ⟨o', h', e⟩ := (h hp).1 o ho
    exact ⟨o', ⟨hp, h'⟩, e⟩
  · rintro o ⟨hp, ho⟩
    obtain ⟨o', h', e⟩ := (h hp).2 o ho
    exact ⟨o', ⟨hp, h'⟩, e⟩

end Agree

variable {S : Type} {H : Surroundings S} {s s' : S}

open Eval Evaluation

/-! ## Calls and forces -/

/-- The job that goes on with what a call handed back, if there is something to go on with. -/
def handOver : Value → Next
  | .callable next =>
    if next.isTail then .become (.bounce next none) else .become (.call next none)
  | v => .value v

theorem bounce_eq (c : Callable) (x : Option Value) :
    bounce c x = perform (.call c x) >>= fun v => pure (handOver v) := by
  unfold bounce
  congr 1
  funext v
  cases v with
  | callable next =>
    simp only [handOver]
    split <;> rfl
  | _ => rfl

/-- A call, and then a computation with what it handed back. -/
def AfterCall (H : Surroundings S) (c : Callable) (x : Option Value) (s : S)
    (P : Value → S → Outcome → Prop) (s' : S) (o : Outcome) : Prop :=
  (∃ e, (Job.call c x).Comes H s (.error e) s' ∧ o = .error e) ∨
    ∃ v s₁, (Job.call c x).Comes H s (.ok v) s₁ ∧ P v s₁ o

theorem AfterCall.agree {c : Callable} {x : Option Value} {P Q : Value → S → Outcome → Prop}
    (h : ∀ v s₁, Agree (P v s₁) (Q v s₁)) :
    Agree (AfterCall H c x s P s') (AfterCall H c x s Q s') :=
  .or <| .exists_congr fun v => .exists_congr fun s₁ => .and_left fun _ => h v s₁

/-- A job that ends with the value of a computation. -/
theorem comes_value {x : Eval Value} {o : Outcome} :
    (x >>= fun v => (pure (.value v) : Eval Next)).Comes H s o s' ↔ Act.Ends H x.run s o s' := by
  simp only [Eval.Comes, Eval.ends_bind, Eval.ends_pure]
  constructor
  · rintro ⟨r, s₁, ⟨v, s₂, hx, rfl, rfl⟩ | ⟨e, hx, rfl⟩, rfl, rfl⟩
    · exact hx
    · exact hx
  · intro hx
    cases o with
    | ok v => exact ⟨_, s', .inl ⟨v, s', hx, rfl, rfl⟩, rfl, rfl⟩
    | error e => exact ⟨_, s', .inr ⟨e, hx, rfl⟩, rfl, rfl⟩

/-- A call whose value decides how the job goes on. -/
theorem comes_perform_call {c : Callable} {x : Option Value} {f : Value → Next} {o : Outcome} :
    (perform (.call c x) >>= fun v => (pure (f v) : Eval Next)).Comes H s o s' ↔
      AfterCall H c x s (fun v s₁ o => Next.Comes H (.ok (f v)) s₁ o s') s' o := by
  simp only [Eval.Comes, Eval.ends_bind, Eval.ends_perform, Eval.ends_pure, AfterCall]
  constructor
  · rintro ⟨r, s₁, ⟨v, s₂, hc, rfl, rfl⟩ | ⟨e, hc, rfl⟩, hr⟩
    · exact .inr ⟨v, s₁, hc, hr⟩
    · obtain ⟨rfl, rfl⟩ := hr
      exact .inl ⟨e, hc, rfl⟩
  · rintro (⟨e, hc, rfl⟩ | ⟨v, s₁, hc, hr⟩)
    · exact ⟨.error e, s', .inr ⟨e, hc, rfl⟩, rfl, rfl⟩
    · exact ⟨.ok (f v), s₁, .inl ⟨v, s₁, hc, rfl, rfl⟩, hr⟩

theorem comes_bounce {c : Callable} {x : Option Value} {o : Outcome} :
    (Job.bounce c x).Comes H s o s' ↔
      AfterCall H c x s (fun v s₁ o => Next.Comes H (.ok (handOver v)) s₁ o s') s' o := by
  rw [Job.comes_iff, Job.act, bounce_eq]
  exact comes_perform_call

theorem comes_force_tail {c : Callable} {l : Location} (hc : c.tailForce? = some l)
    {x : Option Value} {o : Outcome} :
    (Job.force (.callable c) x).Comes H s o s' ↔
      ∃ o₀, (Job.bounce c x).Comes H s o₀ s' ∧ o = o₀.orAt l := by
  have h : (Job.force (.callable c) x).act =
      (orAt l (perform (.bounce c x)) >>= fun v => pure (.value v)) := by
    rw [Job.act, Evaluation.force, hc]
  rw [Job.comes_iff, h]
  refine comes_value.trans ?_
  simp only [Eval.ends_orAt, Eval.ends_perform]
  exact Iff.rfl

theorem comes_force_call {c : Callable} (hc : c.tailForce? = none) {x : Option Value}
    {o : Outcome} : (Job.force (.callable c) x).Comes H s o s' ↔ (Job.call c x).Comes H s o s' := by
  rw [Job.comes_iff, Job.act, Evaluation.force, hc]
  simp only [Eval.Comes, Eval.ends_pure]
  constructor
  · rintro ⟨r, s₁, ⟨rfl, rfl⟩, hr⟩
    exact hr
  · intro hr
    exact ⟨_, s, ⟨rfl, rfl⟩, hr⟩

theorem comes_force_apply {v : Value} (hv : v.isCallable = false) {x : Option Value}
    {o : Outcome} : (Job.force v x).Comes H s o s' ↔ o = v.apply x ∧ s' = s := by
  have h : (Job.force v x).act = (orFail (v.apply x) >>= fun v => pure (.value v)) := by
    cases v with
    | callable c => cases hv
    | _ => rfl
  rw [Job.comes_iff, h]
  exact comes_value.trans Eval.ends_orFail

/-- To go on in place is to force. -/
theorem handOver_agree (v : Value) (s s' : S) :
    Agree (fun o => Next.Comes H (.ok (handOver v)) s o s')
      (fun o => (Job.force v none).Comes H s o s') := by
  by_cases hv : v.isCallable = false
  · refine .of_iff fun o => ?_
    have h : handOver v = .value v := by
      cases v with
      | callable c => cases hv
      | _ => rfl
    rw [comes_force_apply hv, h]
    exact Iff.rfl
  · obtain ⟨c, rfl⟩ : ∃ c, v = .callable c := by
      cases v with
      | callable c => exact ⟨c, rfl⟩
      | _ => exact absurd rfl hv
    cases hc : c.tailForce? with
    | none =>
      refine .of_iff fun o => ?_
      have h : handOver (.callable c) = .become (.call c none) := by
        simp [handOver, Callable.isTail, hc]
      rw [comes_force_call hc, h]
      exact Iff.rfl
    | some l =>
      have h : handOver (.callable c) = .become (.bounce c none) := by
        simp [handOver, Callable.isTail, hc]
      simp only [comes_force_tail hc, h]
      exact .orAt _ l

/-- The recursive reading of a force: call, and force what is handed back with no input. -/
def callThenForce (c : Callable) (x : Option Value) : Eval Next := do
  return .become (.force (← perform (.call c x)) none)

theorem comes_callThenForce {c : Callable} {x : Option Value} {o : Outcome} :
    (callThenForce c x).Comes H s o s' ↔
      AfterCall H c x s (fun v s₁ o => (Job.force v none).Comes H s₁ o s') s' o :=
  comes_perform_call

theorem bounce_agree (c : Callable) (x : Option Value) (s s' : S) :
    Agree (fun o => (Job.bounce c x).Comes H s o s')
      (fun o => (callThenForce c x).Comes H s o s') := by
  simp only [comes_bounce, comes_callThenForce]
  exact AfterCall.agree fun v s₁ => handOver_agree v s₁ s'

theorem Callable.tailForce_of_isTail {c : Callable} (hc : c.isTail = true) :
    ∃ l, c.tailForce? = some l := Option.isSome_iff_exists.1 hc

theorem force_agree_callThenForce {c : Callable} (hc : c.isTail = true) (x : Option Value)
    (s s' : S) :
    Agree (fun o => (Job.force (.callable c) x).Comes H s o s')
      (fun o => (callThenForce c x).Comes H s o s') := by
  obtain ⟨l, hl⟩ := c.tailForce_of_isTail hc
  simp only [comes_force_tail hl]
  exact (Agree.orAt _ l).symm.trans (bounce_agree c x s s')

/-! ## The recursion all the way down -/

/-- Forcing by recursion alone, with no force left to anybody: a callable that leaves its force is
called, and what it hands back is forced the same way. -/
inductive Forces (H : Surroundings S) : Value → Option Value → S → Outcome → S → Prop
  | apply {v : Value} {x : Option Value} {s : S} :
      v.isCallable = false → Forces H v x s (v.apply x) s
  | call {c : Callable} {x : Option Value} {s s' : S} {o : Outcome} :
      c.isTail = false → (Job.call c x).Comes H s o s' → Forces H (.callable c) x s o s'
  | failed {c : Callable} {x : Option Value} {s s' : S} {e : Failure} :
      c.isTail = true → (Job.call c x).Comes H s (.error e) s' →
      Forces H (.callable c) x s (.error e) s'
  | handed {c : Callable} {x : Option Value} {s s₁ s' : S} {v : Value} {o : Outcome} :
      c.isTail = true → (Job.call c x).Comes H s (.ok v) s₁ → Forces H v none s₁ o s' →
      Forces H (.callable c) x s o s'

theorem comes_of_forces {v : Value} {x : Option Value} {o : Outcome} (h : Forces H v x s o s') :
    ∃ o', (Job.force v x).Comes H s o' s' ∧ o'.unplaced = o.unplaced := by
  induction h with
  | apply hv => exact ⟨_, (comes_force_apply hv).2 ⟨rfl, rfl⟩, rfl⟩
  | call hc hj =>
    have hl := Option.not_isSome_iff_eq_none.1 (Bool.not_eq_true _ ▸ hc)
    exact ⟨_, (comes_force_call hl).2 hj, rfl⟩
  | failed hc hj =>
    exact (force_agree_callThenForce hc _ _ _).2 _ (comes_callThenForce.2 (.inl ⟨_, hj, rfl⟩))
  | handed hc hj _ ih =>
    obtain ⟨o₁, h₁, e₁⟩ := ih
    obtain ⟨o₂, h₂, e₂⟩ := (force_agree_callThenForce hc _ _ _).2 _
      (comes_callThenForce.2 (.inr ⟨_, _, hj, h₁⟩))
    exact ⟨o₂, h₂, e₂.trans e₁⟩

/-- One turn of the chain. -/
theorem ends_bounce {c : Callable} {x : Option Value} {r : Except Failure Next}
    (h : Act.Ends H (Job.bounce c x).act.run s r s') :
    (∃ e, (Job.call c x).Comes H s (.error e) s' ∧ r = .error e) ∨
      (∃ v, (Job.call c x).Comes H s (.ok v) s' ∧ r = .ok (handOver v)) := by
  rw [Job.act, bounce_eq] at h
  simp only [Eval.ends_bind, Eval.ends_perform, Eval.ends_pure] at h
  obtain ⟨v, s₂, hj, rfl, rfl⟩ | ⟨e, hj, rfl⟩ := h
  · exact .inr ⟨v, hj, rfl⟩
  · exact .inl ⟨e, hj, rfl⟩

/-- What a chain of calls comes to that runs in place. The induction is on how the performing of the
first call ends, which is where the chain gets shorter. -/
theorem forces_of_perform_bounce {α : Type} {y : Act α} {b : α} (h : y.Ends H s b s') :
    ∀ c x k, c.isTail = true → y = .ask (.perform (.bounce c x)) k →
      ∃ o o' s₁, Forces H (.callable c) x s o' s₁ ∧ o'.unplaced = o.unplaced ∧
        (k o).Ends H s₁ b s' := by
  induction h with
  | done => intro c x k _ hy; cases hy
  | answered hq => intro c x k _ hy; cases hy; cases hq
  | @value _ job k₀ s s₁ s₂ v b hj hk _ _ =>
    intro c x k hc hy
    cases hy
    obtain ⟨e, _, he⟩ | ⟨w, hw, he⟩ := ends_bounce hj
    · cases he
    · have hv : w.isCallable = false ∧ w = v := by
        cases w with
        | callable n => simp only [handOver] at he; split at he <;> cases he
        | _ => cases he; exact ⟨rfl, rfl⟩
      obtain ⟨hv, rfl⟩ := hv
      exact ⟨.ok w, .ok w, s₁, .handed hc hw (.apply hv), rfl, hk⟩
  | @failed _ job k₀ s s₁ s₂ e b hj hk _ _ =>
    intro c x k hc hy
    cases hy
    obtain ⟨e', he', he⟩ | ⟨w, _, he⟩ := ends_bounce hj
    · cases he
      exact ⟨.error e, .error e, s₁, .failed hc he', rfl, hk⟩
    · cases he
  | @becomes _ job next k₀ s s₁ s₂ b hj hk _ ih =>
    intro c x k hc hy
    cases hy
    obtain ⟨e, _, he⟩ | ⟨w, hw, he⟩ := ends_bounce hj
    · cases he
    · cases w with
      | callable n =>
        simp only [handOver] at he
        split at he
        next hn =>
          cases he
          obtain ⟨o, o', s₃, hf, ho, hk'⟩ := ih n none _ hn rfl
          exact ⟨o, o', s₃, .handed hc hw hf, ho, hk'⟩
        next hn =>
          cases he
          obtain ⟨o, s₃, hc', hk'⟩ := Act.ends_perform.1 hk
          exact ⟨o, o, s₃, .handed hc hw (.call (Bool.eq_false_iff.2 hn) hc'), rfl, hk'⟩
      | _ => cases he

theorem force_agree_forces {c : Callable} (hc : c.isTail = true) (x : Option Value) (s s' : S) :
    Agree (fun o => (Job.force (.callable c) x).Comes H s o s')
      (fun o => Forces H (.callable c) x s o s') := by
  constructor
  · intro o ho
    obtain ⟨l, hl⟩ := c.tailForce_of_isTail hc
    obtain ⟨o₀, hb, rfl⟩ := (comes_force_tail hl).1 ho
    obtain ⟨o₁, o₂, s₁, hf, he, hd⟩ := forces_of_perform_bounce hb c x .done hc rfl
    obtain ⟨rfl, rfl⟩ := Act.ends_done.1 hd
    exact ⟨o₂, hf, he.trans (o₀.unplaced_orAt l).symm⟩
  · intro o ho
    exact comes_of_forces ho

/-! ## Bodies with and without their last force -/

/-- Runs instructions in order and leaves the stack. -/
def instructions (frame : FrameId) : List Instruction → Stack → Eval Stack
  | [], stack => pure stack
  | i :: rest, stack => do instructions frame rest (← instruction frame i stack)

/-- The value of a stack. -/
def top : Stack → Eval Value
  | [] => pure .none
  | d :: _ => await d

theorem code_cons (frame : FrameId) (i : Instruction) (rest : List Instruction) (stack : Stack) :
    code frame (i :: rest) stack = instruction frame i stack >>= code frame rest := by
  cases stack <;> rfl

theorem code_eq (frame : FrameId) (is : List Instruction) (stack : Stack) :
    code frame is stack = instructions frame is stack >>= top := by
  induction is generalizing stack with
  | nil => cases stack <;> rfl
  | cons i rest ih => simp only [code, instructions, ih, bind_assoc]

theorem instructions_append (frame : FrameId) (is js : List Instruction) (stack : Stack) :
    instructions frame (is ++ js) stack =
      instructions frame is stack >>= instructions frame js := by
  induction is generalizing stack with
  | nil => rfl
  | cons i rest ih => simp only [List.cons_append, instructions, ih, bind_assoc]

/-- How the instructions of an invocation end: with the stack they leave, or with a failure. -/
def Leaves (H : Surroundings S) (frame : FrameId) (is : List Instruction) (x : Option Value)
    (s : S) (r : Except Failure Stack) (s' : S) : Prop :=
  ∃ f s₁, H s (.enter frame x) f s₁ ∧ Act.Ends H (instructions f is []).run s₁ r s'

theorem comes_call_closure {n : Nat} {body : Body} {frame : FrameId} {x : Option Value}
    {o : Outcome} :
    (Job.call (.closure n body frame) x).Comes H s o s' ↔
      (∃ stack s₁, Leaves H frame body.code x s (.ok stack) s₁ ∧
        Act.Ends H (top stack).run s₁ o s') ∨
      (∃ e, Leaves H frame body.code x s (.error e) s' ∧ o = .error e) := by
  have h : (Job.call (.closure n body frame) x).act =
      (ask (.enter frame x) >>= fun f => code f body.code []) >>= fun v => pure (.value v) := by
    simp only [Job.act, Evaluation.call, bind_assoc]
  rw [Job.comes_iff, h]
  refine comes_value.trans ?_
  simp only [code_eq, Eval.ends_bind, Eval.ends_ask (q := .enter frame x) rfl, Leaves]
  constructor
  · rintro (⟨f, s₁, ⟨_, ha, ⟨⟩⟩, ⟨stack, s₂, hi, ht⟩ | ⟨e, hi, rfl⟩⟩ | ⟨e, ⟨_, _, h⟩, _⟩)
    · exact .inl ⟨stack, s₂, ⟨f, s₁, ha, hi⟩, ht⟩
    · exact .inr ⟨e, ⟨f, s₁, ha, hi⟩, rfl⟩
    · cases h
  · rintro (⟨stack, s₂, ⟨f, s₁, ha, hi⟩, ht⟩ | ⟨e, ⟨f, s₁, ha, hi⟩, rfl⟩)
    · exact .inl ⟨f, s₁, ⟨f, ha, rfl⟩, .inl ⟨stack, s₂, hi, ht⟩⟩
    · exact .inl ⟨f, s₁, ⟨f, ha, rfl⟩, .inr ⟨e, hi, rfl⟩⟩

/-- Code with a force behind it. -/
def withForce (is : List Instruction) (l : Location) : List Instruction :=
  is ++ [⟨l, .primitive .force⟩]

theorem ofCode_withForce (is : List Instruction) (l location : Location) :
    Body.ofCode (withForce is l) location = ⟨is, some l, location⟩ := by
  simp [Body.ofCode, withForce]

theorem ends_force_nil {frame : FrameId} {l : Location} {r : Except Failure Stack} :
    Act.Ends H (instruction frame ⟨l, .primitive .force⟩ []).run s r s' ↔
      r = .error ⟨.underflow, some l⟩ ∧ s' = s := Act.ends_done

theorem ends_force_cons {frame : FrameId} {l : Location} {d : Deferred} {stack : Stack}
    {r : Except Failure Stack} :
    Act.Ends H (instruction frame ⟨l, .primitive .force⟩ (d :: stack)).run s r s' ↔
      ∃ task, H s (.spawn l (.forceLater d)) task s' ∧ r = .ok (.pending task :: stack) := by
  have h : instruction frame ⟨l, .primitive .force⟩ (d :: stack) =
      orAt l (start l (.forceLater d) >>= fun d => pure (d :: stack)) := rfl
  rw [h]
  simp only [Eval.ends_orAt, Eval.ends_bind, Eval.ends_start, Eval.ends_pure]
  constructor
  · rintro ⟨_, ⟨_, _, ⟨task, ha, ⟨⟩⟩, rfl, rfl⟩ | ⟨e, ⟨_, _, h⟩, _⟩, rfl⟩
    · exact ⟨task, ha, rfl⟩
    · cases h
  · rintro ⟨task, ha, rfl⟩
    exact ⟨_, .inl ⟨_, _, ⟨task, ha, rfl⟩, rfl, rfl⟩, rfl⟩

theorem leaves_withForce {frame : FrameId} {is : List Instruction} {l : Location}
    {x : Option Value} {r : Except Failure Stack} :
    Leaves H frame (withForce is l) x s r s' ↔
      (Leaves H frame is x s (.ok []) s' ∧ r = .error ⟨.underflow, some l⟩) ∨
      (∃ d stack s₁ task, Leaves H frame is x s (.ok (d :: stack)) s₁ ∧
        H s₁ (.spawn l (.forceLater d)) task s' ∧ r = .ok (.pending task :: stack)) ∨
      (∃ e, Leaves H frame is x s (.error e) s' ∧ r = .error e) := by
  have h : ∀ f stack, instructions f [⟨l, .primitive .force⟩] stack =
      instruction f ⟨l, .primitive .force⟩ stack := fun f stack => bind_pure _
  simp only [Leaves, withForce, instructions_append, Eval.ends_bind, h]
  constructor
  · rintro ⟨f, s₁, ha, ⟨_ | ⟨d, stack⟩, s₂, hi, hf⟩ | ⟨e, hi, rfl⟩⟩
    · obtain ⟨rfl, rfl⟩ := ends_force_nil.1 hf
      exact .inl ⟨⟨f, s₁, ha, hi⟩, rfl⟩
    · obtain ⟨task, ht, rfl⟩ := ends_force_cons.1 hf
      exact .inr (.inl ⟨d, stack, s₂, task, ⟨f, s₁, ha, hi⟩, ht, rfl⟩)
    · exact .inr (.inr ⟨e, ⟨f, s₁, ha, hi⟩, rfl⟩)
  · rintro (⟨⟨f, s₁, ha, hi⟩, rfl⟩ | ⟨d, stack, s₂, task, ⟨f, s₁, ha, hi⟩, ht, rfl⟩ |
      ⟨e, ⟨f, s₁, ha, hi⟩, rfl⟩)
    · exact ⟨f, s₁, ha, .inl ⟨[], s', hi, ends_force_nil.2 ⟨rfl, rfl⟩⟩⟩
    · exact ⟨f, s₁, ha, .inl ⟨d :: stack, s₂, hi, ends_force_cons.2 ⟨task, ht, rfl⟩⟩⟩
    · exact ⟨f, s₁, ha, .inr ⟨e, hi, rfl⟩⟩

theorem comes_forceLater {d : Deferred} {o : Outcome} :
    (Job.forceLater d).Comes H s o s' ↔
      (∃ v s₁, Act.Ends H (await d).run s (.ok v) s₁ ∧ (Job.force v none).Comes H s₁ o s') ∨
      (∃ e, Act.Ends H (await d).run s (.error e) s' ∧ o = .error e) := by
  rw [Job.comes_iff, Job.act]
  simp only [Eval.Comes, Eval.ends_bind, Eval.ends_pure]
  constructor
  · rintro ⟨r, s₁, ⟨v, s₂, hd, rfl, rfl⟩ | ⟨e, hd, rfl⟩, hr⟩
    · exact .inl ⟨v, s₁, hd, hr⟩
    · obtain ⟨rfl, rfl⟩ := hr
      exact .inr ⟨e, hd, rfl⟩
  · rintro (⟨v, s₁, hd, hr⟩ | ⟨e, hd, rfl⟩)
    · exact ⟨_, s₁, .inl ⟨v, s₁, hd, rfl, rfl⟩, hr⟩
    · exact ⟨_, s', .inr ⟨e, hd, rfl⟩, rfl, rfl⟩

/-- A closure whose body was built from code that ends in a force. -/
def dropped (n : Nat) (is : List Instruction) (l location : Location) (frame : FrameId) : Callable :=
  .closure n (.ofCode (withForce is l) location) frame

/-- A closure over the same code with the force as its last instruction. -/
def kept (n : Nat) (is : List Instruction) (l location : Location) (frame : FrameId) : Callable :=
  .closure n ⟨withForce is l, none, location⟩ frame

variable {n : Nat} {is : List Instruction} {l location : Location} {frame : FrameId}
  {x : Option Value}

theorem isTail_dropped : (dropped n is l location frame).isTail = true := by
  rw [dropped, ofCode_withForce]
  rfl

theorem comes_kept {o : Outcome} :
    (Job.force (.callable (kept n is l location frame)) x).Comes H s o s' ↔
      (Leaves H frame is x s (.ok []) s' ∧ o = .error ⟨.underflow, some l⟩) ∨
      (∃ d stack s₁ task s₂, Leaves H frame is x s (.ok (d :: stack)) s₁ ∧
        H s₁ (.spawn l (.forceLater d)) task s₂ ∧ H s₂ (.await task) o s') ∨
      (∃ e, Leaves H frame is x s (.error e) s' ∧ o = .error e) := by
  rw [comes_force_call rfl, kept, comes_call_closure]
  simp only [leaves_withForce]
  constructor
  · rintro (⟨stack, s₁, ⟨_, h⟩ | ⟨d, rest, s₂, task, hi, hs, ⟨⟩⟩ | ⟨e, _, h⟩, ht⟩ |
      ⟨e, ⟨hi, ⟨⟩⟩ | ⟨d, rest, s₂, task, _, _, h⟩ | ⟨e', hi, ⟨⟩⟩, rfl⟩)
    · cases h
    · exact .inr (.inl ⟨d, rest, s₂, task, s₁, hi, hs, Eval.ends_await_pending.1 ht⟩)
    · cases h
    · exact .inl ⟨hi, rfl⟩
    · cases h
    · exact .inr (.inr ⟨e, hi, rfl⟩)
  · rintro (⟨hi, rfl⟩ | ⟨d, rest, s₁, task, s₂, hi, hs, ha⟩ | ⟨e, hi, rfl⟩)
    · exact .inr ⟨_, .inl ⟨hi, rfl⟩, rfl⟩
    · exact .inl ⟨_, s₂, .inr (.inl ⟨d, rest, s₁, task, hi, hs, rfl⟩),
        Eval.ends_await_pending.2 ha⟩
    · exact .inr ⟨e, .inr (.inr ⟨e, hi, rfl⟩), rfl⟩

theorem comes_callThenForce_dropped {o : Outcome} :
    (callThenForce (dropped n is l location frame) x).Comes H s o s' ↔
      (Leaves H frame is x s (.ok []) s' ∧ o = .ok .none) ∨
      (∃ d stack s₁, Leaves H frame is x s (.ok (d :: stack)) s₁ ∧
        (Job.forceLater d).Comes H s₁ o s') ∨
      (∃ e, Leaves H frame is x s (.error e) s' ∧ o = .error e) := by
  rw [comes_callThenForce, dropped, ofCode_withForce]
  simp only [AfterCall, comes_call_closure, comes_forceLater]
  constructor
  · rintro (⟨e, ⟨_ | ⟨d, rest⟩, s₁, hi, ht⟩ | ⟨_, hi, ⟨⟩⟩, rfl⟩ |
      ⟨v, s₁, ⟨_ | ⟨d, rest⟩, s₂, hi, ht⟩ | ⟨_, _, h⟩, hf⟩)
    · cases (Eval.ends_pure.1 ht).1
    · exact .inr (.inl ⟨d, rest, s₁, hi, .inr ⟨e, ht, rfl⟩⟩)
    · exact .inr (.inr ⟨e, hi, rfl⟩)
    · obtain ⟨⟨⟩, rfl⟩ := Eval.ends_pure.1 ht
      obtain ⟨rfl, rfl⟩ := (comes_force_apply rfl).1 hf
      exact .inl ⟨hi, rfl⟩
    · exact .inr (.inl ⟨d, rest, s₂, hi, .inl ⟨v, s₁, ht, hf⟩⟩)
    · cases h
  · rintro (⟨hi, rfl⟩ | ⟨d, rest, s₁, hi, ⟨v, s₂, ht, hf⟩ | ⟨e, ht, rfl⟩⟩ | ⟨e, hi, rfl⟩)
    · exact .inr ⟨.none, s', .inl ⟨[], s', hi, Eval.ends_pure.2 ⟨rfl, rfl⟩⟩,
        (comes_force_apply rfl).2 ⟨rfl, rfl⟩⟩
    · exact .inr ⟨v, s₂, .inl ⟨d :: rest, s₁, hi, ht⟩, hf⟩
    · exact .inl ⟨e, .inl ⟨d :: rest, s₁, hi, ht⟩, rfl⟩
    · exact .inl ⟨e, .inr ⟨e, hi, rfl⟩, rfl⟩

theorem force_dropped_agree :
    Agree (fun o => ∃ s', (Job.force (.callable (dropped n is l location frame)) x).Comes H s o s')
      (fun o => ∃ s', (callThenForce (dropped n is l location frame) x).Comes H s o s') :=
  .exists_congr fun s' => force_agree_callThenForce isTail_dropped x s s'

/-- Code that leaves something to force means the same with the force taken off it and with the force
in it, if what the force starts is run as soon as it is started. -/
theorem dropped_agree_kept (hl : H.AtOnce l)
    (hslot : ∀ stack s₁, Leaves H frame is x s (.ok stack) s₁ → stack ≠ []) :
    Agree (fun o => ∃ s', (Job.force (.callable (dropped n is l location frame)) x).Comes H s o s')
      (fun o => ∃ s', (Job.force (.callable (kept n is l location frame)) x).Comes H s o s') := by
  refine force_dropped_agree.trans ?_
  simp only [comes_callThenForce_dropped, comes_kept]
  constructor
  · rintro o ⟨s', ⟨hi, _⟩ | ⟨d, rest, s₁, hi, hf⟩ | ⟨e, hi, rfl⟩⟩
    · exact absurd rfl (hslot [] s' hi)
    · obtain ⟨task, s₂, s₃, hs, ha⟩ := (hl _ s₁ (o.orAt l)).2 ⟨o, s', hf, rfl⟩
      exact ⟨o.orAt l, ⟨s₃, .inr (.inl ⟨d, rest, s₁, task, s₂, hi, hs, ha⟩)⟩, o.unplaced_orAt l⟩
    · exact ⟨_, ⟨s', .inr (.inr ⟨e, hi, rfl⟩)⟩, rfl⟩
  · rintro o ⟨s', ⟨hi, _⟩ | ⟨d, rest, s₁, task, s₂, hi, hs, ha⟩ | ⟨e, hi, rfl⟩⟩
    · exact absurd rfl (hslot [] s' hi)
    · obtain ⟨o₀, s₃, hf, rfl⟩ := (hl _ s₁ o).1 ⟨task, s₂, s', hs, ha⟩
      exact ⟨o₀, ⟨s₃, .inr (.inl ⟨d, rest, s₁, hi, hf⟩)⟩, (o₀.unplaced_orAt l).symm⟩
    · exact ⟨_, ⟨s', .inr (.inr ⟨e, hi, rfl⟩)⟩, rfl⟩

/-- Code that leaves nothing comes to `none` with the force taken off it. -/
theorem dropped_agree_none
    (hnone : ∀ stack s₁, Leaves H frame is x s (.ok stack) s₁ → stack = []) :
    Agree (fun o => ∃ s', (Job.force (.callable (dropped n is l location frame)) x).Comes H s o s')
      (fun o => ∃ s', Leaves H frame is x s (.ok []) s' ∧ o = .ok .none ∨
        ∃ e, Leaves H frame is x s (.error e) s' ∧ o = .error e) := by
  refine force_dropped_agree.trans (.exists_congr fun s' => .of_iff fun o => ?_)
  rw [comes_callThenForce_dropped]
  constructor
  · rintro (h | ⟨d, rest, s₁, hi, _⟩ | h)
    · exact .inl h
    · cases hnone _ s₁ hi
    · exact .inr h
  · rintro (h | h)
    · exact .inl h
    · exact .inr (.inr h)

/-- Code that leaves nothing fails with the force in it. -/
theorem comes_kept_of_none
    (hnone : ∀ stack s₁, Leaves H frame is x s (.ok stack) s₁ → stack = []) {o : Outcome} :
    (Job.force (.callable (kept n is l location frame)) x).Comes H s o s' ↔
      Leaves H frame is x s (.ok []) s' ∧ o = .error ⟨.underflow, some l⟩ ∨
        ∃ e, Leaves H frame is x s (.error e) s' ∧ o = .error e := by
  rw [comes_kept]
  constructor
  · rintro (h | ⟨d, rest, s₁, _, _, hi, _⟩ | h)
    · exact .inl h
    · cases hnone _ s₁ hi
    · exact .inr h
  · rintro (h | h)
    · exact .inl h
    · exact .inr (.inr h)

/-- What a task comes to that forces a callable, calling it and then forcing comes to with the same
answers. -/
theorem callThenForce_recorded {m last : Machine} {log : List Asked} {origin : Option Location}
    {c : Callable} {r : Outcome} (ho : m.Orderly) (hm : m.running = none) (hc : c.isTail = true)
    (hr : Machine.Runs (m.addTask origin (.force (.callable c) x)).2 log last)
    (hres : last.result? m.tasks.size = some r) :
    ∃ τ o, (callThenForce c x).Comes recorded τ o [] ∧ o.unplaced = r.unplaced := by
  obtain ⟨τ, o, hforce, rfl⟩ := Machine.comes_recorded_addTask ho hm hr hres
  obtain ⟨o', hcall, he⟩ := (force_agree_callThenForce hc x τ []).1 o hforce
  refine ⟨τ, o', hcall, he.trans ?_⟩
  rw [Stand.close]
  split
  · exact (o.unplaced_orAt _).symm
  · rfl

/-- Leaving a force to the caller preserves meaning. In all surroundings, a callable that leaves its
force comes to what calling it and then forcing comes to, with the force of what was handed back
understood as in the library or by recursion alone. A body from which the last force was taken
comes to what it comes to with that force in it, if the code in front of the force leaves a slot;
if it leaves none, one comes to `none` and the other fails. The tasks of a machine, in any order of
the moves, come to what this says of their jobs. -/
theorem tailForce_preserves_outcomes {S : Type} (H : Surroundings S) :
    (∀ (c : Callable) (x : Option Value) (s s' : S), c.isTail = true →
      Agree (fun o => (Job.force (.callable c) x).Comes H s o s')
        (fun o => (callThenForce c x).Comes H s o s') ∧
      Agree (fun o => (Job.force (.callable c) x).Comes H s o s')
        (fun o => Forces H (.callable c) x s o s')) ∧
    (∀ (n : Nat) (is : List Instruction) (l location : Location) (frame : FrameId)
      (x : Option Value) (s : S),
      (H.AtOnce l → (∀ stack s₁, Leaves H frame is x s (.ok stack) s₁ → stack ≠ []) →
        Agree
          (fun o => ∃ s', (Job.force (.callable (dropped n is l location frame)) x).Comes H s o s')
          (fun o => ∃ s', (Job.force (.callable (kept n is l location frame)) x).Comes H s o s')) ∧
      ((∀ stack s₁, Leaves H frame is x s (.ok stack) s₁ → stack = []) →
        Agree
          (fun o => ∃ s', (Job.force (.callable (dropped n is l location frame)) x).Comes H s o s')
          (fun o => ∃ s', Leaves H frame is x s (.ok []) s' ∧ o = .ok .none ∨
            ∃ e, Leaves H frame is x s (.error e) s' ∧ o = .error e) ∧
        ∀ o s', (Job.force (.callable (kept n is l location frame)) x).Comes H s o s' ↔
          Leaves H frame is x s (.ok []) s' ∧ o = .error ⟨.underflow, some l⟩ ∨
            ∃ e, Leaves H frame is x s (.error e) s' ∧ o = .error e)) ∧
    (∀ (m last : Machine) (log : List Asked) (origin : Option Location) (c : Callable)
      (x : Option Value) (r : Outcome), m.Orderly → m.running = none → c.isTail = true →
      Machine.Runs (m.addTask origin (.force (.callable c) x)).2 log last →
      last.result? m.tasks.size = some r →
      ∃ τ o, (callThenForce c x).Comes recorded τ o [] ∧ o.unplaced = r.unplaced) := by
  refine ⟨fun c x s s' hc => ⟨force_agree_callThenForce hc x s s', force_agree_forces hc x s s'⟩,
    fun n is l location frame x s => ⟨fun hl hslot => dropped_agree_kept hl hslot, fun hnone => ?_⟩,
    fun m last log origin c x r ho hm hc hr hres => callThenForce_recorded ho hm hc hr hres⟩
  exact ⟨dropped_agree_none hnone, fun o s' => comes_kept_of_none hnone⟩

/-- The code of `5`, and a place for the force behind it. -/
def five : List Instruction := [⟨.start "five", .literal (.int 5)⟩]

theorem leaves_five {r : Except Failure Stack} {s : Sequential} (x : Option Value)
    (h : Leaves Sequential.surroundings 0 five x {} r s) : r = .ok [.settled (.int 5)] := by
  obtain ⟨f, s₁, _, hi⟩ := h
  simp only [five, instructions, instruction, Eval.ends_bind, Eval.ends_orAt, Eval.ends_pure] at hi
  obtain ⟨stack, s₂, ⟨r₀, ⟨rfl, rfl⟩, ⟨⟩⟩, rfl, rfl⟩ | ⟨e, ⟨r₀, ⟨rfl, rfl⟩, h⟩, _⟩ := hi
  · rfl
  · cases h

/-- Run with nothing beside it, `5 |` comes to five by recursion and with its force kept, and a lone
`|` comes to `none` with its force dropped. A machine makes five of `5 |` too. -/
theorem tailForce_preserves_outcomes_five :
    let H := Sequential.surroundings
    let l : Location := .start "force"
    (∃ o s', Forces H (.callable (dropped 0 five l l 0)) none {} o s' ∧
      o.unplaced = .ok (.int 5)) ∧
    (∃ o s', (Job.force (.callable (kept 0 five l l 0)) none).Comes H {} o s' ∧
      o.unplaced = .ok (.int 5)) ∧
    (∃ o s', (Job.force (.callable (dropped 0 [] l l 0)) none).Comes H {} o s' ∧
      o.unplaced = .ok .none) ∧
    ∃ τ o, (callThenForce (dropped 0 five l l 0) none).Comes recorded τ o [] ∧
      o.unplaced = .ok (.int 5) := by
  intro H l
  have hrun : (Job.force (.callable (dropped 0 five l l 0)) none).Comes H {} (.ok (.int 5))
      { scope := (Scope.addChild {} 0 none).2 } := Sequential.ends_of_run (n := 10) rfl
  obtain ⟨htail, hbody, hmachine⟩ := tailForce_preserves_outcomes H
  refine ⟨?_, ?_, ?_, ?_⟩
  · obtain ⟨o, ho, e⟩ := (htail _ none {} _ rfl).2.1 _ hrun
    exact ⟨o, _, ho, e⟩
  · have hslot : ∀ stack s₁, Leaves H 0 five none {} (.ok stack) s₁ → stack ≠ [] := by
      intro stack s₁ h
      cases leaves_five none h
      exact List.cons_ne_nil _ _
    obtain ⟨o, ⟨s', ho⟩, e⟩ := ((hbody 0 five l l 0 none {}).1 (Sequential.surroundings_atOnce l)
      hslot).1 _ ⟨_, hrun⟩
    exact ⟨o, s', ho, e⟩
  · have hnone : ∀ stack s₁, Leaves H 0 [] none {} (.ok stack) s₁ → stack = [] := by
      rintro stack s₁ ⟨f, s₂, _, hi⟩
      cases (Eval.ends_pure.1 hi).1
      rfl
    have hleft : Leaves H 0 [] none {} (.ok []) { scope := (Scope.addChild {} 0 none).2 } :=
      ⟨0, _, rfl, Eval.ends_pure.2 ⟨rfl, rfl⟩⟩
    obtain ⟨o, ⟨s', ho⟩, e⟩ := ((hbody 0 [] l l 0 none {}).2 hnone).1.2 _ ⟨_, .inl ⟨hleft, rfl⟩⟩
    exact ⟨o, s', ho, e⟩
  · obtain ⟨log, hr, _⟩ := Machine.runs_runAll 30 (Machine.addTask {} none
      (.force (.callable (dropped 0 five l l 0)) none)).2 {}
    exact hmachine {} _ log none _ none (.ok (.int 5)) (Machine.orderly_new rfl rfl rfl) rfl rfl hr rfl

end Concatenative
