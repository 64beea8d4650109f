import Mathlib
import Concatenative.Proofs.Answers
import Concatenative.Proofs.Correspondence.Job
import Concatenative.Proofs.Trampoline

/-! Compositions. What can be seen of a computation from outside is how its requests are answered, which
callables it calls with which inputs, and what it comes to. A composition that is forced is seen to
force its inner part, if that can be called, and then its outer part with what the inner part came to
(`force_composed`), whichever of the two leave a force to the caller. Main statement: compositions
around a callable middle may be grouped either way (`composition_assoc`). -/
namespace Concatenative

open Eval Evaluation

/-! ## Invocations -/

/-- A callable and the input that it is called with. -/
structure Invocation where
  callee : Callable
  input : Option Value

/-- The invocation that a job is. -/
def Job.invocation : Job → List Invocation
  | .call c x => [⟨c, x⟩]
  | _ => []

/-- How something can behave: from a state, with these invocations, to an outcome and a state. -/
abbrev Behaviour (S : Type) := S → List Invocation → Outcome → S → Prop

variable {S : Type} {H : Surroundings S} {α β : Type} {s s' : S} {τ : List Invocation}

/-- A computation ends, and the callables that were called for it are those of a list, in its order. -/
inductive Act.Invokes (H : Surroundings S) :
    {α : Type} → Act α → S → List Invocation → α → S → Prop
  | done {α : Type} (a : α) (s : S) : Invokes H (.done a) s [] a s
  | answered {α : Type} {q : Request} {k : q.Answer → Act α} {s s₁ s₂ : S} {a : q.Answer} {b : α}
      {τ : List Invocation} :
      q.isPerform = false → H s q a s₁ → Invokes H (k a) s₁ τ b s₂ → Invokes H (.ask q k) s τ b s₂
  | value {α : Type} {job : Job} {k : Outcome → Act α} {s s₁ s₂ : S} {v : Value} {b : α}
      {τ₁ τ₂ : List Invocation} :
      Invokes H job.act.run s τ₁ (.ok (.value v)) s₁ → Invokes H (k (.ok v)) s₁ τ₂ b s₂ →
      Invokes H (.ask (.perform job) k) s (job.invocation ++ τ₁ ++ τ₂) b s₂
  | failed {α : Type} {job : Job} {k : Outcome → Act α} {s s₁ s₂ : S} {e : Failure} {b : α}
      {τ₁ τ₂ : List Invocation} :
      Invokes H job.act.run s τ₁ (.error e) s₁ → Invokes H (k (.error e)) s₁ τ₂ b s₂ →
      Invokes H (.ask (.perform job) k) s (job.invocation ++ τ₁ ++ τ₂) b s₂
  | becomes {α : Type} {job next : Job} {k : Outcome → Act α} {s s₁ s₂ : S} {b : α}
      {τ₁ τ₂ : List Invocation} :
      Invokes H job.act.run s τ₁ (.ok (.become next)) s₁ →
      Invokes H (.ask (.perform next) k) s₁ τ₂ b s₂ →
      Invokes H (.ask (.perform job) k) s (job.invocation ++ τ₁ ++ τ₂) b s₂

/-- A job comes to something, with all the jobs it becomes, and calls the callables of a list. -/
def Job.Invokes (H : Surroundings S) (job : Job) : Behaviour S := fun s τ o s' =>
  Act.Invokes H (.ask (.perform job) .done) s τ o s'

/-- Whatever ends has called some callables, none or more. -/
theorem Act.ends_iff_invokes {x : Act α} {a : α} :
    x.Ends H s a s' ↔ ∃ τ, x.Invokes H s τ a s' := by
  constructor
  · intro h
    induction h with
    | done a s => exact ⟨[], .done a s⟩
    | answered hq ha _ ih =>
      obtain ⟨τ, ih⟩ := ih
      exact ⟨τ, .answered hq ha ih⟩
    | value _ _ ihj ih =>
      obtain ⟨τ₁, ihj⟩ := ihj
      obtain ⟨τ₂, ih⟩ := ih
      exact ⟨_, .value ihj ih⟩
    | failed _ _ ihj ih =>
      obtain ⟨τ₁, ihj⟩ := ihj
      obtain ⟨τ₂, ih⟩ := ih
      exact ⟨_, .failed ihj ih⟩
    | becomes _ _ ihj ih =>
      obtain ⟨τ₁, ihj⟩ := ihj
      obtain ⟨τ₂, ih⟩ := ih
      exact ⟨_, .becomes ihj ih⟩
  · rintro ⟨τ, h⟩
    induction h with
    | done a s => exact .done a s
    | answered hq ha _ ih => exact .answered hq ha ih
    | value _ _ ihj ih => exact .value ihj ih
    | failed _ _ ihj ih => exact .failed ihj ih
    | becomes _ _ ihj ih => exact .becomes ihj ih

theorem Job.comes_iff_invokes {job : Job} {o : Outcome} :
    job.Comes H s o s' ↔ ∃ τ, job.Invokes H s τ o s' := Act.ends_iff_invokes

namespace Act

theorem invokes_done {a b : α} : Invokes H (.done a) s τ b s' ↔ τ = [] ∧ b = a ∧ s' = s := by
  constructor
  · intro h
    cases h
    exact ⟨rfl, rfl, rfl⟩
  · rintro ⟨rfl, rfl, rfl⟩
    exact .done _ _

theorem invokes_bind {x : Act α} {f : α → Act β} {b : β} :
    Invokes H (x.bind f) s τ b s' ↔
      ∃ a s₁ τ₁ τ₂, Invokes H x s τ₁ a s₁ ∧ Invokes H (f a) s₁ τ₂ b s' ∧ τ = τ₁ ++ τ₂ := by
  constructor
  · intro h
    -- By induction on how all of it goes, where the first part is gone once `x` is done.
    generalize hy : x.bind f = y at h
    induction h generalizing x with
    | done b s =>
      cases x with
      | ask q k => cases hy
      | done a => exact ⟨a, s, [], [], .done a s, bind_done a f ▸ hy ▸ .done b s, rfl⟩
    | @answered _ _ _ _ _ _ _ _ τ hq ha h ih =>
      cases x with
      | done a =>
        exact ⟨a, _, [], τ, .done a _, bind_done a f ▸ hy ▸ .answered hq ha h, rfl⟩
      | ask q k =>
        cases hy
        obtain ⟨a, s₁, τ₁, τ₂, hk, hf, rfl⟩ := ih rfl
        exact ⟨a, s₁, τ₁, τ₂, .answered hq ha hk, hf, rfl⟩
    | value hj h _ ih =>
      cases x with
      | done a => exact ⟨a, _, [], _, .done a _, bind_done a f ▸ hy ▸ .value hj h, rfl⟩
      | ask q k =>
        cases hy
        obtain ⟨a, s₁, τ₁, τ₂, hk, hf, rfl⟩ := ih rfl
        exact ⟨a, s₁, _, τ₂, .value hj hk, hf, (List.append_assoc _ _ _).symm⟩
    | failed hj h _ ih =>
      cases x with
      | done a => exact ⟨a, _, [], _, .done a _, bind_done a f ▸ hy ▸ .failed hj h, rfl⟩
      | ask q k =>
        cases hy
        obtain ⟨a, s₁, τ₁, τ₂, hk, hf, rfl⟩ := ih rfl
        exact ⟨a, s₁, _, τ₂, .failed hj hk, hf, (List.append_assoc _ _ _).symm⟩
    | @becomes _ job next k s s₁ s₂ b _ _ hj h _ ih =>
      cases x with
      | done a => exact ⟨a, _, [], _, .done a _, bind_done a f ▸ hy ▸ .becomes hj h, rfl⟩
      | ask q l =>
        cases hy
        obtain ⟨a, s₁, τ₁, τ₂, hk, hf, rfl⟩ := ih (x := .ask (.perform next) l) rfl
        exact ⟨a, s₁, _, τ₂, .becomes hj hk, hf, (List.append_assoc _ _ _).symm⟩
  · rintro ⟨a, s₁, τ₁, τ₂, hx, hf, rfl⟩
    induction hx with
    | done => exact hf
    | answered hq ha _ ih => exact .answered hq ha (ih hf)
    | value hj _ _ ih => exact List.append_assoc _ _ _ ▸ .value hj (ih hf)
    | failed hj _ _ ih => exact List.append_assoc _ _ _ ▸ .failed hj (ih hf)
    | becomes hj _ _ ih => exact List.append_assoc _ _ _ ▸ .becomes hj (ih hf)

end Act

/-! ## Behaviours -/

namespace Behaviour

variable {P P' R : Behaviour S} {Q Q' : Value → Behaviour S}

/-- Comes to something at once, with no invocation. -/
def pure (o : Outcome) : Behaviour S := fun s τ o' s' => τ = [] ∧ o' = o ∧ s' = s

/-- One after the other, with the value that the first came to. A failure is the end. -/
def andThen (P : Behaviour S) (Q : Value → Behaviour S) : Behaviour S := fun s τ o s' =>
  (∃ e, P s τ (.error e) s' ∧ o = .error e) ∨
    ∃ v s₁ τ₁ τ₂, P s τ₁ (.ok v) s₁ ∧ Q v s₁ τ₂ o s' ∧ τ = τ₁ ++ τ₂

theorem andThen_assoc (P : Behaviour S) (Q Q' : Value → Behaviour S) :
    (P.andThen Q).andThen Q' = P.andThen fun v => (Q v).andThen Q' := by
  funext s τ o s'
  refine propext ⟨?_, ?_⟩
  · rintro (⟨e, ⟨_, hP, ⟨⟩⟩ | ⟨v, s₁, τ₁, τ₂, hP, hQ, rfl⟩, rfl⟩ |
      ⟨w, s₂, _, τ₃, ⟨_, _, ⟨⟩⟩ | ⟨v, s₁, τ₁, τ₂, hP, hQ, rfl⟩, hQ', rfl⟩)
    · exact .inl ⟨_, hP, rfl⟩
    · exact .inr ⟨v, s₁, τ₁, τ₂, hP, .inl ⟨e, hQ, rfl⟩, rfl⟩
    · exact .inr ⟨v, s₁, τ₁, τ₂ ++ τ₃, hP, .inr ⟨w, s₂, τ₂, τ₃, hQ, hQ', rfl⟩,
        List.append_assoc _ _ _⟩
  · rintro (⟨e, hP, rfl⟩ | ⟨v, s₁, τ₁, _, hP, ⟨e, hQ, rfl⟩ | ⟨w, s₂, τ₂, τ₃, hQ, hQ', rfl⟩, rfl⟩)
    · exact .inl ⟨e, .inl ⟨e, hP, rfl⟩, rfl⟩
    · exact .inl ⟨e, .inr ⟨v, s₁, τ₁, _, hP, hQ, rfl⟩, rfl⟩
    · exact .inr ⟨w, s₂, τ₁ ++ τ₂, τ₃, .inr ⟨v, s₁, τ₁, τ₂, hP, hQ, rfl⟩, hQ',
        (List.append_assoc _ _ _).symm⟩

theorem andThen_pure (P : Behaviour S) : (P.andThen fun v => pure (.ok v)) = P := by
  funext s τ o s'
  refine propext ⟨?_, fun h => ?_⟩
  · rintro (⟨e, h, rfl⟩ | ⟨v, _, τ₁, _, h, ⟨rfl, rfl, rfl⟩, rfl⟩)
    · exact h
    · exact (List.append_nil τ₁).symm ▸ h
  · cases o with
    | error e => exact .inl ⟨e, h, rfl⟩
    | ok v => exact .inr ⟨v, s', τ, [], h, ⟨rfl, rfl, rfl⟩, (List.append_nil τ).symm⟩

/-- The invocations of callables that are watched. -/
def watched (p : Callable → Bool) (τ : List Invocation) : List Invocation :=
  τ.filter fun i => p i.callee

/-- Whatever `P` can do, `Q` can do with the same watched invocations, up to the place that is
blamed for a failure. -/
def Within (p : Callable → Bool) (P Q : Behaviour S) : Prop :=
  ∀ s τ o s', P s τ o s' →
    ∃ τ' o', Q s τ' o' s' ∧ watched p τ' = watched p τ ∧ o'.unplaced = o.unplaced

/-- Two behaviours that cannot be told apart by the invocations that are watched and by what they come
to, the place of a failure aside. -/
def Alike (p : Callable → Bool) (P Q : Behaviour S) : Prop := Within p P Q ∧ Within p Q P

variable {p : Callable → Bool}

theorem Within.refl : Within p P P := fun _ τ o _ h => ⟨τ, o, h, rfl, rfl⟩

theorem Within.trans (h : Within p P P') (h' : Within p P' R) : Within p P R := by
  intro s τ o s' hP
  obtain ⟨τ₁, o₁, h₁, e₁, u₁⟩ := h s τ o s' hP
  obtain ⟨τ₂, o₂, h₂, e₂, u₂⟩ := h' s τ₁ o₁ s' h₁
  exact ⟨τ₂, o₂, h₂, e₂.trans e₁, u₂.trans u₁⟩

theorem watched_append (p : Callable → Bool) (τ τ' : List Invocation) :
    watched p (τ ++ τ') = watched p τ ++ watched p τ' := List.filter_append _ _

/-- Outcomes that differ in a place only are the same value or are both failures. -/
theorem unplaced_cases {o o' : Outcome} (h : o'.unplaced = o.unplaced) :
    (∃ v, o = .ok v ∧ o' = .ok v) ∨ ∃ e e', o = .error e ∧ o' = .error e' ∧ e'.cause = e.cause := by
  cases o with
  | ok v =>
    cases o' with
    | ok v' =>
      cases h
      exact .inl ⟨v, rfl, rfl⟩
    | error e' => cases h
  | error e =>
    cases o' with
    | ok v' => cases h
    | error e' => exact .inr ⟨e, e', rfl, rfl, Except.error.inj h⟩

theorem Within.andThen (h : Within p P P') (h' : ∀ v, Within p (Q v) (Q' v)) :
    Within p (P.andThen Q) (P'.andThen Q') := by
  rintro s τ o s' (⟨e, hP, rfl⟩ | ⟨v, s₁, τ₁, τ₂, hP, hQ, rfl⟩)
  · obtain ⟨τ', o', hP', eτ, eo⟩ := h _ _ _ _ hP
    rcases unplaced_cases eo with ⟨v, he, _⟩ | ⟨e₀, e', he, rfl, hc⟩
    · cases he
    · exact ⟨τ', .error e', .inl ⟨e', hP', rfl⟩, eτ, eo⟩
  · obtain ⟨τ₁', o₁, hP', eτ, eo⟩ := h _ _ _ _ hP
    rcases unplaced_cases eo with ⟨v', ⟨⟩, rfl⟩ | ⟨e₀, e', he, _⟩
    · obtain ⟨τ₂', o', hQ', eτ', eo'⟩ := h' v _ _ _ _ hQ
      refine ⟨τ₁' ++ τ₂', o', .inr ⟨v, s₁, τ₁', τ₂', hP', hQ', rfl⟩, ?_, eo'⟩
      rw [watched_append, watched_append, eτ, eτ']
    · cases he

namespace Alike

theorem refl (p : Callable → Bool) (P : Behaviour S) : Alike p P P := ⟨.refl, .refl⟩

theorem of_eq (h : P = P') : Alike p P P' := h ▸ refl p P

theorem symm (h : Alike p P P') : Alike p P' P := ⟨h.2, h.1⟩

theorem trans (h : Alike p P P') (h' : Alike p P' R) : Alike p P R :=
  ⟨h.1.trans h'.1, h'.2.trans h.2⟩

theorem andThen (h : Alike p P P') (h' : ∀ v, Alike p (Q v) (Q' v)) :
    Alike p (P.andThen Q) (P'.andThen Q') :=
  ⟨h.1.andThen fun v => (h' v).1, h.2.andThen fun v => (h' v).2⟩

/-- It makes no difference whether a place is blamed in the end. -/
theorem orAt (P : Behaviour S) (l : Location) :
    Alike p P fun s τ o s' => ∃ o₀, P s τ o₀ s' ∧ o = o₀.orAt l := by
  constructor
  · intro s τ o s' h
    exact ⟨τ, o.orAt l, ⟨o, h, rfl⟩, rfl, o.unplaced_orAt l⟩
  · rintro s τ _ s' ⟨o, h, rfl⟩
    exact ⟨τ, o, h, rfl, (o.unplaced_orAt l).symm⟩

/-- A callable that is not watched may be called. -/
theorem invoking {c : Callable} (hc : p c = false) (x : Option Value) (P : Behaviour S) :
    Alike p (fun s τ o s' => ∃ τ', P s τ' o s' ∧ τ = ⟨c, x⟩ :: τ') P := by
  have hw : ∀ τ, watched p (⟨c, x⟩ :: τ) = watched p τ := fun τ =>
    List.filter_cons_of_neg (by rw [hc]; exact Bool.false_ne_true)
  constructor
  · rintro s _ o s' ⟨τ, h, rfl⟩
    exact ⟨τ, o, h, (hw τ).symm, rfl⟩
  · intro s τ o s' h
    exact ⟨_, o, ⟨τ, h, rfl⟩, hw τ, rfl⟩

end Alike

end Behaviour

/-! ## How computations behave -/

/-- How a computation for a value behaves. -/
def Eval.behaviour (H : Surroundings S) (x : Eval Value) : Behaviour S :=
  fun s τ o s' => x.run.Invokes H s τ o s'

/-- How a job goes on with the end of its own computation. -/
def Next.Invokes (H : Surroundings S) : Except Failure Next → Behaviour S
  | .ok (.value v) => .pure (.ok v)
  | .ok (.become job) => job.Invokes H
  | .error e => .pure (.error e)

theorem Job.invokes_iff {job : Job} {o : Outcome} :
    job.Invokes H s τ o s' ↔ ∃ r s₁ τ₁ τ₂, Act.Invokes H job.act.run s τ₁ r s₁ ∧
      Next.Invokes H r s₁ τ₂ o s' ∧ τ = job.invocation ++ (τ₁ ++ τ₂) := by
  constructor
  · intro h
    cases h with
    | answered hq => cases hq
    | value hj hk => exact ⟨_, _, _, _, hj, Act.invokes_done.1 hk, List.append_assoc _ _ _⟩
    | failed hj hk => exact ⟨_, _, _, _, hj, Act.invokes_done.1 hk, List.append_assoc _ _ _⟩
    | becomes hj hk => exact ⟨_, _, _, _, hj, hk, List.append_assoc _ _ _⟩
  · rintro ⟨r, s₁, τ₁, τ₂, hj, hr, rfl⟩
    rw [← List.append_assoc]
    match r, hr with
    | .ok (.value v), hr => exact .value hj (Act.invokes_done.2 hr)
    | .ok (.become next), hr => exact .becomes hj hr
    | .error e, hr => exact .failed hj (Act.invokes_done.2 hr)

namespace Eval

open Act (Invokes)

theorem invokes_pure {a : α} {r : Except Failure α} :
    Invokes H (pure a : Eval α).run s τ r s' ↔ τ = [] ∧ r = .ok a ∧ s' = s := Act.invokes_done

theorem invokes_bind {x : Eval α} {f : α → Eval β} {r : Except Failure β} :
    Invokes H (x >>= f).run s τ r s' ↔
      (∃ e, Invokes H x.run s τ (.error e) s' ∧ r = .error e) ∨
      ∃ a s₁ τ₁ τ₂, Invokes H x.run s τ₁ (.ok a) s₁ ∧ Invokes H (f a).run s₁ τ₂ r s' ∧
        τ = τ₁ ++ τ₂ := by
  have h : (x >>= f).run = x.run.bind (ExceptT.bindCont f) := rfl
  rw [h, Act.invokes_bind]
  constructor
  · rintro ⟨⟨e⟩ | a, s₁, τ₁, τ₂, hx, hf, rfl⟩
    · obtain ⟨rfl, rfl, rfl⟩ := Act.invokes_done.1 hf
      exact .inl ⟨e, (List.append_nil τ₁).symm ▸ hx, rfl⟩
    · exact .inr ⟨a, s₁, τ₁, τ₂, hx, hf, rfl⟩
  · rintro (⟨e, hx, rfl⟩ | ⟨a, s₁, τ₁, τ₂, hx, hf, rfl⟩)
    · exact ⟨.error e, s', τ, [], hx, .done _ _, (List.append_nil τ).symm⟩
    · exact ⟨.ok a, s₁, τ₁, τ₂, hx, hf, rfl⟩

theorem invokes_orFail {x r : Except Failure α} :
    Invokes H (orFail x).run s τ r s' ↔ τ = [] ∧ r = x ∧ s' = s := by
  cases x <;> exact Act.invokes_done

theorem invokes_perform {job : Job} {o : Outcome} :
    Invokes H (perform job).run s τ o s' ↔ job.Invokes H s τ o s' := by
  have h : (perform job).run = Act.bind (.ask (.perform job) .done) fun o => (orFail o).run := rfl
  rw [h, Act.invokes_bind]
  constructor
  · rintro ⟨o', s₁, τ₁, τ₂, hj, hk, rfl⟩
    obtain ⟨rfl, rfl, rfl⟩ := invokes_orFail.1 hk
    exact (List.append_nil τ₁).symm ▸ hj
  · intro hj
    exact ⟨o, s', τ, [], hj, invokes_orFail.2 ⟨rfl, rfl, rfl⟩, (List.append_nil τ).symm⟩

theorem invokes_orAt {l : Location} {x : Eval α} {r : Except Failure α} :
    Invokes H (orAt l x).run s τ r s' ↔
      ∃ r₀, Invokes H x.run s τ r₀ s' ∧ r = r₀.mapError fun e => e.orAt l := by
  have h : (orAt l x).run = x.run.bind fun r => .done (r.mapError fun e => e.orAt l) := rfl
  rw [h, Act.invokes_bind]
  constructor
  · rintro ⟨r₀, s₁, τ₁, τ₂, hx, hk, rfl⟩
    obtain ⟨rfl, rfl, rfl⟩ := Act.invokes_done.1 hk
    exact ⟨r₀, (List.append_nil τ₁).symm ▸ hx, rfl⟩
  · rintro ⟨r₀, hx, rfl⟩
    exact ⟨r₀, s', τ, [], hx, .done _ _, (List.append_nil τ).symm⟩

/-- How a computation behaves that stands for a job. -/
def jobBehaviour (H : Surroundings S) (x : Eval Next) : Behaviour S := fun s τ o s' =>
  ∃ r s₁ τ₁ τ₂, Invokes H x.run s τ₁ r s₁ ∧ Next.Invokes H r s₁ τ₂ o s' ∧ τ = τ₁ ++ τ₂

theorem jobBehaviour_pure (n : Next) : (pure n : Eval Next).jobBehaviour H = Next.Invokes H (.ok n) := by
  funext s τ o s'
  refine propext ⟨?_, fun h => ⟨_, s, [], τ, invokes_pure.2 ⟨rfl, rfl, rfl⟩, h, rfl⟩⟩
  rintro ⟨r, s₁, τ₁, τ₂, hx, hr, rfl⟩
  obtain ⟨rfl, rfl, rfl⟩ := invokes_pure.1 hx
  exact hr

/-- A job that goes on with a value behaves like what finds the value and then like what it goes on
with. -/
theorem jobBehaviour_bind (x : Eval Value) (f : Value → Eval Next) :
    (x >>= f).jobBehaviour H = (x.behaviour H).andThen fun v => (f v).jobBehaviour H := by
  funext s τ o s'
  refine propext ⟨?_, ?_⟩
  · rintro ⟨r, s₁, τ₁, τ₂, hx, hr, rfl⟩
    obtain ⟨e, hv, rfl⟩ | ⟨v, s₂, τ₁, τ₃, hv, hf, rfl⟩ := invokes_bind.1 hx
    · obtain ⟨rfl, rfl, rfl⟩ := hr
      exact .inl ⟨e, (List.append_nil τ₁).symm ▸ hv, rfl⟩
    · exact .inr ⟨v, s₂, τ₁, τ₃ ++ τ₂, hv, ⟨r, s₁, τ₃, τ₂, hf, hr, rfl⟩, List.append_assoc _ _ _⟩
  · rintro (⟨e, hx, rfl⟩ | ⟨v, s₂, τ₁, _, hx, ⟨r, s₁, τ₃, τ₂, hf, hr, rfl⟩, rfl⟩)
    · exact ⟨.error e, s', τ, [], invokes_bind.2 (.inl ⟨e, hx, rfl⟩), ⟨rfl, rfl, rfl⟩,
        (List.append_nil τ).symm⟩
    · exact ⟨r, s₁, τ₁ ++ τ₃, τ₂, invokes_bind.2 (.inr ⟨v, s₂, τ₁, τ₃, hx, hf, rfl⟩), hr,
        (List.append_assoc _ _ _).symm⟩

theorem behaviour_pure (v : Value) : (pure v : Eval Value).behaviour H = .pure (.ok v) := by
  funext s τ o s'
  exact propext invokes_pure

theorem behaviour_orAt (l : Location) (x : Eval Value) : (orAt l x).behaviour H =
    fun s τ o s' => ∃ o₀, x.behaviour H s τ o₀ s' ∧ o = o₀.orAt l := by
  funext s τ o s'
  exact propext invokes_orAt

theorem behaviour_perform (job : Job) : (perform job).behaviour H = job.Invokes H := by
  funext s τ o s'
  exact propext invokes_perform

/-- A job whose last act is to find its value. -/
theorem jobBehaviour_value (x : Eval Value) :
    (x >>= fun v => (pure (.value v) : Eval Next)).jobBehaviour H = x.behaviour H := by
  simp only [jobBehaviour_bind, jobBehaviour_pure]
  exact Behaviour.andThen_pure _

end Eval

/-- A job that is no call behaves like its computation. -/
theorem Job.invokes_eq {job : Job} (h : job.invocation = []) :
    job.Invokes H = job.act.jobBehaviour H := by
  funext s τ o s'
  refine propext (Job.invokes_iff.trans ?_)
  rw [h]
  exact Iff.rfl

/-- A call behaves like the computation that it stands for, the call itself put in front. -/
theorem Job.invokes_call (c : Callable) (x : Option Value) :
    (Job.call c x).Invokes H = fun s τ o s' =>
      ∃ τ', (Evaluation.call c x).jobBehaviour H s τ' o s' ∧ τ = ⟨c, x⟩ :: τ' := by
  funext s τ o s'
  refine propext (Job.invokes_iff.trans ⟨?_, ?_⟩)
  · rintro ⟨r, s₁, τ₁, τ₂, hj, hr, rfl⟩
    exact ⟨τ₁ ++ τ₂, ⟨r, s₁, τ₁, τ₂, hj, hr, rfl⟩, rfl⟩
  · rintro ⟨_, ⟨r, s₁, τ₁, τ₂, hj, hr, rfl⟩, rfl⟩
    exact ⟨r, s₁, τ₁, τ₂, hj, hr, rfl⟩

/-! ## Forces and compositions -/

variable {p : Callable → Bool}

theorem invokes_force_tail {c : Callable} {l : Location} (hc : c.tailForce? = some l)
    (x : Option Value) : (Job.force (.callable c) x).Invokes H =
      fun s τ o s' => ∃ o₀, (Job.bounce c x).Invokes H s τ o₀ s' ∧ o = o₀.orAt l := by
  have h : (Job.force (.callable c) x).act =
      (orAt l (perform (.bounce c x)) >>= fun v => pure (.value v)) := by
    rw [Job.act, Evaluation.force, hc]
  rw [Job.invokes_eq rfl, h, Eval.jobBehaviour_value, Eval.behaviour_orAt, Eval.behaviour_perform]

theorem invokes_bounce (c : Callable) (x : Option Value) : (Job.bounce c x).Invokes H =
    ((Job.call c x).Invokes H).andThen fun v => Next.Invokes H (.ok (handOver v)) := by
  rw [Job.invokes_eq rfl, Job.act, bounce_eq]
  simp only [Eval.jobBehaviour_bind, Eval.behaviour_perform, Eval.jobBehaviour_pure]

theorem invokes_force_call {c : Callable} (hc : c.tailForce? = none) (x : Option Value) :
    (Job.force (.callable c) x).Invokes H = (Job.call c x).Invokes H := by
  rw [Job.invokes_eq rfl, Job.act, Evaluation.force, hc]
  exact Eval.jobBehaviour_pure _

/-- Only the place for failures tells a force from a call that goes on with what is handed back. -/
theorem force_alike_bounce {c : Callable} {l : Location} (hc : c.tailForce? = some l)
    (x : Option Value) : Behaviour.Alike p ((Job.force (.callable c) x).Invokes H)
      ((Job.bounce c x).Invokes H) := by
  rw [invokes_force_tail hc]
  exact (Behaviour.Alike.orAt _ l).symm

/-- How the inner part of a composition behaves: it is forced if it can be called, and stands for itself
if not. -/
def Value.inner (H : Surroundings S) (g : Value) (x : Option Value) : Behaviour S :=
  if g.isCallable then (Job.force g x).Invokes H else .pure (.ok g)

/-- How a composition goes on with what its inner part came to: a force that the outer part leaves stays
left. -/
def Value.outer (H : Surroundings S) (f : Value) (v : Value) : Behaviour S :=
  match f with
  | .callable c => (Job.call c (some v)).Invokes H
  | f => (Job.force f (some v)).Invokes H

theorem invokes_passOn (f v : Value) : Next.Invokes H (.ok (passOn f v)) = f.outer H v := by
  cases f with
  | callable c =>
    cases hc : c.tailForce? with
    | some l => simp only [passOn, Value.outer, Callable.isTail, hc, Option.isSome, if_true, Next.Invokes]
    | none =>
      have hpass : passOn (.callable c) v = .become (.force (.callable c) (some v)) := by
        simp [passOn, Callable.isTail, hc]
      rw [hpass]
      exact invokes_force_call hc _
  | _ => rfl

theorem jobBehaviour_composed (f g : Value) (x : Option Value) :
    (composed f g x).jobBehaviour H = (g.inner H x).andThen (f.outer H) := by
  rw [composed_eq, Eval.jobBehaviour_bind]
  congr 1
  · unfold Value.inner
    split
    · exact Eval.behaviour_perform _
    · exact Eval.behaviour_pure g
  · funext v
    exact (Eval.jobBehaviour_pure _).trans (invokes_passOn f v)

/-- A call of a composition that is not watched. -/
theorem call_composed {n : Nat} {f g : Value} (hp : p (.composed n f g) = false)
    (x : Option Value) : Behaviour.Alike p ((Job.call (.composed n f g) x).Invokes H)
      ((g.inner H x).andThen (f.outer H)) := by
  rw [Job.invokes_call, Evaluation.call, jobBehaviour_composed]
  exact Behaviour.Alike.invoking hp x _

/-- To force a composition is to force its parts, the inner one first. -/
theorem force_composed {n : Nat} {f g : Value} (hp : p (.composed n f g) = false)
    (x : Option Value) : Behaviour.Alike p ((Job.force (.callable (.composed n f g)) x).Invokes H)
      ((g.inner H x).andThen fun v => (Job.force f (some v)).Invokes H) := by
  cases hf : f.tailForce? with
  | none =>
    have hout : f.outer H = fun v => (Job.force f (some v)).Invokes H := by
      funext v
      cases f with
      | callable c => exact (invokes_force_call hf _).symm
      | _ => rfl
    have hc : (Callable.composed n f g).tailForce? = none := hf
    rw [invokes_force_call hc, ← hout]
    exact call_composed hp x
  | some l =>
    obtain ⟨c, rfl⟩ : ∃ c, f = .callable c := by
      cases f with
      | callable c => exact ⟨c, rfl⟩
      | _ => cases hf
    have hc : (Callable.composed n (.callable c) g).tailForce? = some l := hf
    refine (force_alike_bounce hc x).trans ?_
    rw [invokes_bounce]
    refine ((call_composed hp x).andThen fun _ => .refl p _).trans ?_
    rw [Behaviour.andThen_assoc]
    refine (Behaviour.Alike.refl p _).andThen fun v => ?_
    refine Behaviour.Alike.trans (.of_eq ?_) (force_alike_bounce hf (some v)).symm
    exact (invokes_bounce c (some v)).symm

/-- The first callable that is called for a force is the one that is forced. -/
theorem invokes_force_head {c : Callable} {x : Option Value} {o : Outcome}
    (h : (Job.force (.callable c) x).Invokes H s τ o s') : ∃ τ', τ = ⟨c, x⟩ :: τ' := by
  have hcall : ∀ {s τ o s'}, (Job.call c x).Invokes H s τ o s' → ∃ τ', τ = ⟨c, x⟩ :: τ' := by
    intro s τ o s' h
    rw [Job.invokes_call] at h
    obtain ⟨τ', _, rfl⟩ := h
    exact ⟨τ', rfl⟩
  cases hc : c.tailForce? with
  | none => exact hcall (invokes_force_call hc x ▸ h)
  | some l =>
    rw [invokes_force_tail hc] at h
    obtain ⟨o₀, h, rfl⟩ := h
    rw [invokes_bounce] at h
    obtain ⟨_, h, _⟩ | ⟨_, _, τ₁, τ₂, h, _, rfl⟩ := h
    · exact hcall h
    · obtain ⟨τ', rfl⟩ := hcall h
      exact ⟨τ' ++ τ₂, rfl⟩

/-! ## Grouping -/

/-- A composition with a composition as its inner part. -/
def groupedRight (n k : Nat) (f : Value) (g : Callable) (h : Value) : Callable :=
  .composed n f (.callable (.composed k (.callable g) h))

/-- A composition with a composition as its outer part. -/
def groupedLeft (n k : Nat) (f : Value) (g : Callable) (h : Value) : Callable :=
  .composed n (.callable (.composed k f (.callable g))) h

/-- How three values behave that are forced one after the other, the first one only if it can be
called. -/
def inTurn (H : Surroundings S) (f : Value) (g : Callable) (h : Value) (x : Option Value) :
    Behaviour S :=
  (h.inner H x).andThen fun v =>
    ((Job.force (.callable g) (some v)).Invokes H).andThen fun w => (Job.force f (some w)).Invokes H

variable {n k : Nat} {f h : Value} {g : Callable} {x : Option Value}

theorem force_groupedRight (hp : p (groupedRight n k f g h) = false)
    (hp' : p (.composed k (.callable g) h) = false) :
    Behaviour.Alike p ((Job.force (.callable (groupedRight n k f g h)) x).Invokes H)
      (inTurn H f g h x) := by
  refine (force_composed hp x).trans ?_
  rw [inTurn, ← Behaviour.andThen_assoc]
  exact (force_composed hp' x).andThen fun _ => .refl p _

theorem force_groupedLeft (hp : p (groupedLeft n k f g h) = false)
    (hp' : p (.composed k f (.callable g)) = false) :
    Behaviour.Alike p ((Job.force (.callable (groupedLeft n k f g h)) x).Invokes H)
      (inTurn H f g h x) :=
  (force_composed hp x).trans <|
    (Behaviour.Alike.refl p _).andThen fun v => force_composed hp' (some v)

theorem Stand.unplaced_close (s : Stand) (o : Outcome) : (s.close o).unplaced = o.unplaced := by
  unfold Stand.close
  split
  · exact o.unplaced_orAt _
  · rfl

namespace Machine

/-- Task `t` forced `c` and came to `r`, and `c'` does the same with the answers that the task was
given: it asks for the same in the same order, the watched callables are called with the same inputs
in the same order, and it comes to `r`, up to the place that is blamed. -/
def ForcedLike (m last : Machine) (t : TaskId) (p : Callable → Bool) (c c' : Callable)
    (x : Option Value) (r : Outcome) : Prop :=
  ∃ J answers τ τ' o o', m.Recounts J last ∧ J.answersTo t = told answers ∧
    (Job.force (.callable c) x).Invokes recorded answers τ o [] ∧
    (Job.force (.callable c') x).Invokes recorded answers τ' o' [] ∧
    Behaviour.watched p τ' = Behaviour.watched p τ ∧
    o.unplaced = r.unplaced ∧ o'.unplaced = r.unplaced

theorem forcedLike_of_alike {m last : Machine} {t : TaskId} {c c' : Callable} {log : List Asked}
    {origin : Option Location} {r : Outcome}
    (h : Behaviour.Alike p ((Job.force (.callable c) x).Invokes recorded)
      ((Job.force (.callable c') x).Invokes recorded)) (hm : m.Arises)
    (hs : m.stand t = some ⟨origin, some (Job.force (.callable c) x).thread, none⟩)
    (hr : Runs m log last) (hres : last.result? t = some r) : m.ForcedLike last t p c c' x r := by
  obtain ⟨J, hJ, _⟩ := recounts_runs hr
  obtain ⟨answers, o, hc, hto, rfl⟩ := comes_told hJ hm.orderly.1 (.aside hs rfl) hs hres
  obtain ⟨τ, hτ⟩ := Job.comes_iff_invokes.1 (Thread.comes_job.1 hc)
  obtain ⟨τ', o', hτ', hw, ho⟩ := h.1 _ _ _ _ hτ
  have hclose := Stand.unplaced_close ⟨origin, none, none⟩ o
  exact ⟨J, answers, τ, τ', o, o', hJ, hto, hτ, hτ', hw, hclose.symm, ho.trans hclose.symm⟩

end Machine

/-- Composition is associative around a callable middle. Both groupings leave the same force to the
caller. Forced with any input, in all surroundings, each is seen to force the inner value, if that can
be called, then the middle with what that came to, then the outer value with what the middle came
to; the first callable that is called for a force is always the one that is forced. So the two call the
same callables with the same inputs in the same order, the four compositions themselves aside, ask for
the same, and come to the same value or to failures with the same cause. In whatever run, what a task
comes to that forces one of them, the other comes to with the same answers. -/
theorem composition_assoc (n k n' k' : Nat) (f : Value) (g : Callable) (h : Value) :
    (groupedRight n k f g h).isTail = (groupedLeft n' k' f g h).isTail ∧
    (groupedRight n k f g h).tailForce? = (groupedLeft n' k' f g h).tailForce? ∧
    (∀ {S : Type} {H : Surroundings S} {c : Callable} {x : Option Value} {s s' : S}
      {τ : List Invocation} {o : Outcome},
      (Job.force (.callable c) x).Invokes H s τ o s' → ∃ τ', τ = ⟨c, x⟩ :: τ') ∧
    ∀ (p : Callable → Bool) (x : Option Value),
      (∀ c ∈ [groupedRight n k f g h, .composed k (.callable g) h, groupedLeft n' k' f g h,
        .composed k' f (.callable g)], p c = false) →
      (∀ {S : Type} (H : Surroundings S),
        Behaviour.Alike p ((Job.force (.callable (groupedRight n k f g h)) x).Invokes H)
          ((Job.force (.callable (groupedLeft n' k' f g h)) x).Invokes H) ∧
        Behaviour.Alike p ((Job.force (.callable (groupedRight n k f g h)) x).Invokes H)
          (inTurn H f g h x)) ∧
      ∀ {m last : Machine} {t : TaskId} {log : List Asked} {origin : Option Location} {r : Outcome},
        m.Arises → Machine.Runs m log last → last.result? t = some r →
        (m.stand t = some ⟨origin,
            some (Job.force (.callable (groupedRight n k f g h)) x).thread, none⟩ →
          m.ForcedLike last t p (groupedRight n k f g h) (groupedLeft n' k' f g h) x r) ∧
        (m.stand t = some ⟨origin,
            some (Job.force (.callable (groupedLeft n' k' f g h)) x).thread, none⟩ →
          m.ForcedLike last t p (groupedLeft n' k' f g h) (groupedRight n k f g h) x r) := by
  refine ⟨rfl, rfl, invokes_force_head, fun p x hp => ?_⟩
  simp only [List.forall_mem_cons] at hp
  obtain ⟨hright, hinner, hleft, houter, _⟩ := hp
  have hturn : ∀ {S : Type} (H : Surroundings S), Behaviour.Alike p
      ((Job.force (.callable (groupedRight n k f g h)) x).Invokes H) (inTurn H f g h x) :=
    fun H => force_groupedRight hright hinner
  have halike : ∀ {S : Type} (H : Surroundings S), Behaviour.Alike p
      ((Job.force (.callable (groupedRight n k f g h)) x).Invokes H)
      ((Job.force (.callable (groupedLeft n' k' f g h)) x).Invokes H) :=
    fun H => (hturn H).trans (force_groupedLeft hleft houter).symm
  exact ⟨fun H => ⟨halike H, hturn H⟩, fun hm hr hres =>
    ⟨fun hs => Machine.forcedLike_of_alike (halike recorded) hm hs hr hres,
      fun hs => Machine.forcedLike_of_alike (halike recorded).symm hm hs hr hres⟩⟩

/-- A body whose code is its input, with the force of it left to the caller. -/
def forceInput : Value :=
  .callable (dropped 0 [⟨.start "input", .primitive .input⟩] (.start "force") (.start "body") 0)

def Callable.isComposed : Callable → Bool
  | composed .. => true
  | _ => false

/-- Numbers are added up and the sum is handed to a body that leaves its force. -/
theorem composition_assoc_sum :
    let numbers : Value := .list [.int 2, .int 3]
    let right := groupedRight 3 4 forceInput (.host .sum) numbers
    let m := (Machine.addTask {} none (.force (.callable right) none)).2
    (m.runAll 30 {}).1.result? 0 = some (.ok (.int 5)) ∧
      m.ForcedLike (m.runAll 30 {}).1 0 (fun c => !c.isComposed) right
        (groupedLeft 5 6 forceInput (.host .sum) numbers) none (.ok (.int 5)) := by
  intro numbers right m
  obtain ⟨log, hr, _⟩ := m.runs_runAll 30 {}
  have hm : m.Arises := .starts none _ (.new (m := {}) rfl rfl rfl rfl rfl)
  have hres : (m.runAll 30 {}).1.result? 0 = some (.ok (.int 5)) := by cbv
  have hs : m.stand 0 = some ⟨none, some (Job.force (.callable right) none).thread, none⟩ := rfl
  obtain ⟨_, _, _, halike⟩ := composition_assoc 3 4 5 6 forceInput (.host .sum) numbers
  have hp : ∀ c ∈ [right, .composed 4 (.callable (.host .sum)) numbers,
      groupedLeft 5 6 forceInput (.host .sum) numbers,
      .composed 6 forceInput (.callable (.host .sum))], (!c.isComposed) = false := by
    simp only [List.forall_mem_cons]
    exact ⟨rfl, rfl, rfl, rfl, List.forall_mem_nil _⟩
  exact ⟨hres, ((halike _ none hp).2 hm hr hres).1 hs⟩

end Concatenative
