import Concatenative.Evaluation.Job

/-! What a computation comes to in surroundings that answer its requests. `Surroundings` are any
relation between a request in a state and an answer that leaves a state, so one statement over all
of them speaks of every order of the tasks around a computation and of everything those do
meanwhile. `Act.Ends` runs a computation to its end, `Job.Comes` runs a job with all the jobs it
becomes. The rest of the module says once for each way of building computations how they end. -/
namespace Concatenative

/-- How requests are answered: from a state, with an answer, to a state. A request to perform a job
is never put to the surroundings. -/
abbrev Surroundings (S : Type) := S → (q : Request) → q.Answer → S → Prop

def Request.isPerform : Request → Bool
  | perform _ => true
  | _ => false

def Request.isSpawn : Request → Bool
  | spawn _ _ => true
  | _ => false

variable {S : Type} {H : Surroundings S} {α β : Type} {s s' : S}

/-- A computation ends: every request was answered, and every job that it performed ended. -/
inductive Act.Ends (H : Surroundings S) : {α : Type} → Act α → S → α → S → Prop
  | done {α : Type} (a : α) (s : S) : Ends H (.done a) s a s
  | answered {α : Type} {q : Request} {k : q.Answer → Act α} {s s₁ s₂ : S} {a : q.Answer} {b : α} :
      q.isPerform = false → H s q a s₁ → Ends H (k a) s₁ b s₂ → Ends H (.ask q k) s b s₂
  | value {α : Type} {job : Job} {k : Outcome → Act α} {s s₁ s₂ : S} {v : Value} {b : α} :
      Ends H job.act.run s (.ok (.value v)) s₁ → Ends H (k (.ok v)) s₁ b s₂ →
      Ends H (.ask (.perform job) k) s b s₂
  | failed {α : Type} {job : Job} {k : Outcome → Act α} {s s₁ s₂ : S} {e : Failure} {b : α} :
      Ends H job.act.run s (.error e) s₁ → Ends H (k (.error e)) s₁ b s₂ →
      Ends H (.ask (.perform job) k) s b s₂
  | becomes {α : Type} {job next : Job} {k : Outcome → Act α} {s s₁ s₂ : S} {b : α} :
      Ends H job.act.run s (.ok (.become next)) s₁ → Ends H (.ask (.perform next) k) s₁ b s₂ →
      Ends H (.ask (.perform job) k) s b s₂

/-- A request performs a job, starts one or does neither. -/
theorem Request.perform_or_spawn (q : Request) :
    (∃ job, q = .perform job) ∨ (∃ l job, q = .spawn l job) ∨
      (q.isPerform = false ∧ q.isSpawn = false) := by
  cases q with
  | perform job => exact .inl ⟨job, rfl⟩
  | spawn l job => exact .inr (.inl ⟨l, job, rfl⟩)
  | _ => exact .inr (.inr ⟨rfl, rfl⟩)

/-- What a job comes to, with all the jobs it becomes. -/
def Job.Comes (H : Surroundings S) (job : Job) (s : S) (o : Outcome) (s' : S) : Prop :=
  Act.Ends H (.ask (.perform job) .done) s o s'

/-- To start a job for the place `l` and to wait for it comes to the same as to run it there and
then: the job runs as soon as it is started. -/
def Surroundings.AtOnce (H : Surroundings S) (l : Location) : Prop :=
  ∀ job s o, (∃ task s₁ s₂, H s (.spawn l job) task s₁ ∧ H s₁ (.await task) o s₂) ↔
    ∃ o₀ s₂, job.Comes H s o₀ s₂ ∧ o = o₀.orAt l

/-- What the end of a job comes to. -/
def Next.Comes (H : Surroundings S) : Except Failure Next → S → Outcome → S → Prop
  | .ok (.value v), s, o, s' => o = .ok v ∧ s' = s
  | .ok (.become job), s, o, s' => job.Comes H s o s'
  | .error e, s, o, s' => o = .error e ∧ s' = s

/-- What a computation comes to that stands for a job. -/
def Eval.Comes (H : Surroundings S) (x : Eval Next) (s : S) (o : Outcome) (s' : S) : Prop :=
  ∃ r s₁, Act.Ends H x.run s r s₁ ∧ Next.Comes H r s₁ o s'

/-! ## Computations in general -/

namespace Act

instance : LawfulMonad Act := LawfulMonad.mk' Act
  (fun x => by
    induction x with
    | done a => rfl
    | ask q k ih => exact congrArg (ask q) (funext ih))
  (fun _ _ => rfl)
  (fun x f g => by
    induction x with
    | done a => rfl
    | ask q k ih => exact congrArg (ask q) (funext ih))

theorem ends_done {a b : α} : Ends H (.done a) s b s' ↔ b = a ∧ s' = s := by
  constructor
  · intro h
    cases h
    exact ⟨rfl, rfl⟩
  · rintro ⟨rfl, rfl⟩
    exact .done _ _

theorem bind_done (a : α) (f : α → Act β) : (done a).bind f = f a := rfl

theorem ends_bind {x : Act α} {f : α → Act β} {b : β} :
    Ends H (x.bind f) s b s' ↔ ∃ a s₁, Ends H x s a s₁ ∧ Ends H (f a) s₁ b s' := by
  constructor
  · intro h
    generalize hy : x.bind f = y at h
    -- The derivation is longer than `x` where a job becomes another one.
    induction h generalizing x with
    | done b s =>
      cases x with
      | ask q k => cases hy
      | done a => exact ⟨a, s, .done a s, bind_done a f ▸ hy ▸ .done b s⟩
    | answered hq ha h ih =>
      cases x with
      | done a => exact ⟨a, _, .done a _, bind_done a f ▸ hy ▸ .answered hq ha h⟩
      | ask q k =>
        cases hy
        obtain ⟨a, s₁, hk, hf⟩ := ih rfl
        exact ⟨a, s₁, .answered hq ha hk, hf⟩
    | value hj h _ ih =>
      cases x with
      | done a => exact ⟨a, _, .done a _, bind_done a f ▸ hy ▸ .value hj h⟩
      | ask q k =>
        cases hy
        obtain ⟨a, s₁, hk, hf⟩ := ih rfl
        exact ⟨a, s₁, .value hj hk, hf⟩
    | failed hj h _ ih =>
      cases x with
      | done a => exact ⟨a, _, .done a _, bind_done a f ▸ hy ▸ .failed hj h⟩
      | ask q k =>
        cases hy
        obtain ⟨a, s₁, hk, hf⟩ := ih rfl
        exact ⟨a, s₁, .failed hj hk, hf⟩
    | @becomes _ job next k s s₁ s₂ b hj h _ ih =>
      cases x with
      | done a => exact ⟨a, _, .done a _, bind_done a f ▸ hy ▸ .becomes hj h⟩
      | ask q l =>
        cases hy
        obtain ⟨a, s₁, hk, hf⟩ := ih (x := .ask (.perform next) l) rfl
        exact ⟨a, s₁, .becomes hj hk, hf⟩
  · rintro ⟨a, s₁, hx, hf⟩
    induction hx with
    | done => exact hf
    | answered hq ha _ ih => exact .answered hq ha (ih hf)
    | value hj _ _ ih => exact .value hj (ih hf)
    | failed hj _ _ ih => exact .failed hj (ih hf)
    | becomes hj _ _ ih => exact .becomes hj (ih hf)

theorem ends_perform {job : Job} {k : Outcome → Act α} {b : α} :
    Ends H (.ask (.perform job) k) s b s' ↔
      ∃ o s₁, job.Comes H s o s₁ ∧ Ends H (k o) s₁ b s' :=
  ends_bind (x := .ask (.perform job) .done)

theorem ends_ask {q : Request} {k : q.Answer → Act α} {b : α} (hq : q.isPerform = false) :
    Ends H (.ask q k) s b s' ↔ ∃ a s₁, H s q a s₁ ∧ Ends H (k a) s₁ b s' := by
  constructor
  · intro h
    cases h with
    | answered _ ha hk => exact ⟨_, _, ha, hk⟩
    | value | failed | becomes => cases hq
  · rintro ⟨a, s₁, ha, hk⟩
    exact .answered hq ha hk

end Act

theorem Job.comes_iff {job : Job} {o : Outcome} : job.Comes H s o s' ↔ job.act.Comes H s o s' := by
  constructor
  · intro h
    cases h with
    | answered hq => cases hq
    | value hj hk => exact ⟨_, _, hj, Act.ends_done.1 hk⟩
    | failed hj hk => exact ⟨_, _, hj, Act.ends_done.1 hk⟩
    | becomes hj hk => exact ⟨_, _, hj, hk⟩
  · rintro ⟨r, s₁, hj, hr⟩
    match r, hr with
    | .ok (.value v), hr =>
      obtain ⟨rfl, rfl⟩ := hr
      exact .value hj (.done _ _)
    | .ok (.become next), hr => exact .becomes hj hr
    | .error e, hr =>
      obtain ⟨rfl, rfl⟩ := hr
      exact .failed hj (.done _ _)

/-! ## Computations that may fail -/

namespace Eval

open Act (Ends)

theorem ends_pure {a : α} {r : Except Failure α} :
    Ends H (pure a : Eval α).run s r s' ↔ r = .ok a ∧ s' = s := Act.ends_done

theorem ends_bind {x : Eval α} {f : α → Eval β} {r : Except Failure β} :
    Ends H (x >>= f).run s r s' ↔
      (∃ a s₁, Ends H x.run s (.ok a) s₁ ∧ Ends H (f a).run s₁ r s') ∨
      (∃ e, Ends H x.run s (.error e) s' ∧ r = .error e) := by
  have h : (x >>= f).run = x.run.bind (ExceptT.bindCont f) := rfl
  rw [h, Act.ends_bind]
  constructor
  · rintro ⟨⟨e⟩ | a, s₁, hx, hf⟩
    · obtain ⟨rfl, rfl⟩ := Act.ends_done.1 hf
      exact .inr ⟨e, hx, rfl⟩
    · exact .inl ⟨a, s₁, hx, hf⟩
  · rintro (⟨a, s₁, hx, hf⟩ | ⟨e, hx, rfl⟩)
    · exact ⟨.ok a, s₁, hx, hf⟩
    · exact ⟨.error e, s', hx, .done _ _⟩

theorem ends_ask {q : Request} (hq : q.isPerform = false) {r : Except Failure q.Answer} :
    Ends H (ask q).run s r s' ↔ ∃ a, H s q a s' ∧ r = .ok a := by
  have h : (ask q).run = .ask q fun a => .done (.ok a) := rfl
  rw [h, Act.ends_ask hq]
  constructor
  · rintro ⟨a, s₁, ha, hk⟩
    obtain ⟨rfl, rfl⟩ := Act.ends_done.1 hk
    exact ⟨a, ha, rfl⟩
  · rintro ⟨a, ha, rfl⟩
    exact ⟨a, s', ha, .done _ _⟩

/-- What is asked for is always answered, so only what follows may fail. -/
theorem ends_ask_bind {q : Request} (hq : q.isPerform = false) {f : q.Answer → Eval α}
    {r : Except Failure α} :
    Ends H (ask q >>= f).run s r s' ↔ ∃ a s₁, H s q a s₁ ∧ Ends H (f a).run s₁ r s' := by
  have h : (ask q >>= f).run = .ask q fun a => (f a).run := rfl
  rw [h, Act.ends_ask hq]

theorem ends_orFail {x r : Except Failure α} :
    Ends H (orFail x).run s r s' ↔ r = x ∧ s' = s := by
  cases x <;> exact Act.ends_done

theorem ends_perform {job : Job} {o : Outcome} :
    Ends H (perform job).run s o s' ↔ job.Comes H s o s' := by
  have h : (perform job).run = .ask (.perform job) fun o => (orFail o).run := rfl
  rw [h, Act.ends_perform]
  constructor
  · rintro ⟨o', s₁, hj, hk⟩
    obtain ⟨rfl, rfl⟩ := ends_orFail.1 hk
    exact hj
  · intro hj
    exact ⟨o, s', hj, ends_orFail.2 ⟨rfl, rfl⟩⟩

theorem ends_await_pending {task : TaskId} {o : Outcome} :
    Ends H (await (.pending task)).run s o s' ↔ H s (.await task) o s' := by
  have h : await (.pending task) = ask (.await task) >>= fun o => orFail o := rfl
  rw [h, ends_ask_bind rfl]
  simp only [ends_orFail]
  constructor
  · rintro ⟨a, s₁, ha, rfl, rfl⟩
    exact ha
  · intro ha
    exact ⟨o, s', ha, rfl, rfl⟩

theorem ends_start {l : Location} {job : Job} {r : Except Failure Deferred} :
    Ends H (start l job).run s r s' ↔ ∃ task, H s (.spawn l job) task s' ∧ r = .ok (.pending task) := by
  have h : start l job = ask (.spawn l job) >>= fun task => pure (.pending task) := rfl
  rw [h, ends_ask_bind rfl]
  simp only [ends_pure]
  constructor
  · rintro ⟨task, s₁, ha, rfl, rfl⟩
    exact ⟨task, ha, rfl⟩
  · rintro ⟨task, ha, rfl⟩
    exact ⟨task, s', ha, rfl, rfl⟩

theorem ends_orAt {l : Location} {x : Eval α} {r : Except Failure α} :
    Ends H (orAt l x).run s r s' ↔
      ∃ r₀, Ends H x.run s r₀ s' ∧ r = r₀.mapError fun e => e.orAt l := by
  have h : (orAt l x).run = x.run.bind fun r => .done (r.mapError fun e => e.orAt l) := rfl
  rw [h, Act.ends_bind]
  constructor
  · rintro ⟨r₀, s₁, hx, hk⟩
    obtain ⟨rfl, rfl⟩ := Act.ends_done.1 hk
    exact ⟨r₀, hx, rfl⟩
  · rintro ⟨r₀, hx, rfl⟩
    exact ⟨r₀, s', hx, .done _ _⟩

theorem ends_attempt {x : Eval α} {r : Except Failure (Except Failure α)} :
    Ends H (attempt x).run s r s' ↔ ∃ o, Ends H x.run s o s' ∧ r = .ok o := by
  have h : (attempt x).run = x.run.bind fun o => .done (.ok o) := rfl
  rw [h, Act.ends_bind]
  constructor
  · rintro ⟨o, s₁, hx, hk⟩
    obtain ⟨rfl, rfl⟩ := Act.ends_done.1 hk
    exact ⟨o, hx, rfl⟩
  · rintro ⟨o, hx, rfl⟩
    exact ⟨o, s', hx, .done _ _⟩

end Eval

end Concatenative
