import Concatenative.Proofs.Correspondence.Job
import Concatenative.Proofs.Schedule

/-! Threads that differ in names only. The jobs that a thread performs stand on top of one another,
and only the one at the bottom may be a program: the failures of all the others go to whoever
performs them. -/
namespace Concatenative

/-- How the computation of a job goes on. -/
abbrev Act.Goes (p : Terms) (program : Bool) (ρ : Correspondence)
    (x x' : Act (Except Failure Next)) : Prop :=
  Act.Alike p (fun σ => Matches (p.blame program) (Next.Alike p program σ)) ρ x x'

/-- Threads that are alike now, and alike behind every job that they perform. -/
inductive Thread.Alike (p : Terms) (program : Bool) : Correspondence → Thread → Thread → Prop
  | bottom {ρ : Correspondence} {x x' : Act (Except Failure Next)} : Act.Goes p program ρ x x' →
      Alike p program ρ ⟨x, []⟩ ⟨x', []⟩
  | above {ρ : Correspondence} {x x' : Act (Except Failure Next)}
      {k k' : Outcome → Act (Except Failure Next)}
      {ks ks' : List (Outcome → Act (Except Failure Next))} : Act.Goes p false ρ x x' →
      (∀ σ, ρ ≤ σ → ∀ o o', Outcome.Alike p σ o o' → Alike p program σ ⟨k o, ks⟩ ⟨k' o', ks'⟩) →
      Alike p program ρ ⟨x, k :: ks⟩ ⟨x', k' :: ks'⟩

variable {p : Terms} {program : Bool} {ρ σ : Correspondence}

theorem Act.Goes.mono {x x' : Act (Except Failure Next)} (h : ρ ≤ σ)
    (hx : Act.Goes p program ρ x x') : Act.Goes p program σ x x' :=
  Act.Alike.mono (fun hle hr => hr.imp (fun _ => id) fun _ _ => Next.Alike.mono hle) h hx

theorem Job.Alike.goes {job job' : Job} (h : job.Alike p ρ job')
    (hj : program = true → job.isProgram = true) : Act.Goes p program ρ job.act job'.act := by
  cases program with
  | false => exact h.act
  | true => exact h.act_program (hj rfl)

namespace Thread

theorem Alike.mono {θ θ' : Thread} (h : ρ ≤ σ) (ht : Thread.Alike p program ρ θ θ') :
    Thread.Alike p program σ θ θ' := by
  cases ht with
  | bottom hx => exact .bottom (hx.mono h)
  | above hx hk => exact .above (hx.mono h) fun τ hτ => hk τ (Correspondence.le_trans h hτ)

/-- What a thread does now, and that it may do anything alike instead: what is below does not
depend on it. -/
theorem Alike.inside {x x' : Act (Except Failure Next)}
    {ks ks' : List (Outcome → Act (Except Failure Next))}
    (h : Thread.Alike p program ρ ⟨x, ks⟩ ⟨x', ks'⟩) :
    ∃ b, Act.Goes p b ρ x x' ∧
      ∀ σ, ρ ≤ σ → ∀ y y', Act.Goes p b σ y y' → Thread.Alike p program σ ⟨y, ks⟩ ⟨y', ks'⟩ := by
  cases h with
  | bottom hx => exact ⟨program, hx, fun σ _ y y' hy => .bottom hy⟩
  | above hx hk =>
    exact ⟨false, hx, fun σ hσ y y' hy =>
      .above hy fun τ hτ => hk τ (Correspondence.le_trans hσ hτ)⟩

/-- Threads that are alike answer alike. -/
theorem Alike.asks {q : Request} {k : q.Answer → Act (Except Failure Next)} {θ' : Thread}
    {ks : List (Outcome → Act (Except Failure Next))}
    (h : Thread.Alike p program ρ ⟨.ask q k, ks⟩ θ') :
    ∃ q' k' ks' Q, θ' = ⟨.ask q' k', ks'⟩ ∧ Request.Alike p ρ q q' Q ∧
      ∀ σ, ρ ≤ σ → ∀ a a', Q σ a a' → Thread.Alike p program σ ⟨k a, ks⟩ ⟨k' a', ks'⟩ := by
  obtain ⟨x', ks'⟩ := θ'
  obtain ⟨b, hx, hrest⟩ := h.inside
  cases hx with
  | ask hq hk =>
    exact ⟨_, _, ks', _, rfl, hq, fun σ hσ a a' ha => hrest σ hσ _ _ (hk σ hσ a a' ha)⟩

/-- Threads that are alike turn alike. -/
theorem Alike.turns {θ θ₁ θ' : Thread} (h : Thread.Alike p program ρ θ θ') (ht : θ.Turns θ₁) :
    ∃ θ₁', θ'.Turns θ₁' ∧ Thread.Alike p program ρ θ₁ θ₁' := by
  obtain ⟨x', ks'⟩ := θ'
  have hle := Correspondence.le_refl ρ
  cases ht with
  | becomes =>
    obtain ⟨b, hx, hrest⟩ := h.inside
    cases hx with
    | done hr =>
      cases hr with
      | ok hn =>
        cases hn with
        | become hj hp => exact ⟨_, .becomes, hrest ρ hle _ _ (hj.goes hp)⟩
  | performs =>
    obtain ⟨q', k', ks', Q, he, hq, hk⟩ := h.asks
    cases he
    cases hq with
    | perform hj => exact ⟨_, .performs, .above hj.act hk⟩
  | returns =>
    cases h with
    | above hx hk =>
      cases hx with
      | done hr =>
        cases hr with
        | ok hn =>
          cases hn with
          | value hv => exact ⟨_, .returns, hk ρ hle _ _ (.ok hv)⟩
  | fails =>
    cases h with
    | above hx hk =>
      cases hx with
      | done hr =>
        cases hr with
        | error he => exact ⟨_, .fails, hk ρ hle _ _ (.error he)⟩

/-- Threads that are alike end alike. -/
theorem Alike.over {θ θ' : Thread} {o : Outcome} (h : Thread.Alike p program ρ θ θ')
    (ho : θ.Over o) : ∃ o', θ'.Over o' ∧ Matches (p.blame program) (Value.Alike p ρ) o o' := by
  cases ho with
  | value v =>
    cases h with
    | bottom hx =>
      cases hx with
      | done hr =>
        cases hr with
        | ok hn =>
          cases hn with
          | value hv => exact ⟨_, .value _, .ok hv⟩
  | failure e =>
    cases h with
    | bottom hx =>
      cases hx with
      | done hr =>
        cases hr with
        | error he => exact ⟨_, .failure _, .error he⟩

theorem alike_job {job job' : Job} (h : job.Alike p ρ job')
    (hj : program = true → job.isProgram = true) :
    Thread.Alike p program ρ job.thread job'.thread := .bottom (h.goes hj)

end Thread

end Concatenative
