import Concatenative.Proofs.Passage
import Concatenative.Proofs.Quiescence

/-! What the jobs of a task have been answered, replayed. The journal of a run says which jobs a task is
at and what each of them was answered (`Journal.errands`); these answers lead a job from its beginning to
where the task is now. Main statement: so it is with every task that has not ended, whatever moves a
machine has made (`Unfolds.retraced`). -/
namespace Concatenative

open Eval

/-! ## Computations that have been answered -/

/-- What is left of a computation after some answers. -/
inductive Act.After {α : Type} : Act α → List Answered → Act α → Prop
  | refl (x : Act α) : After x [] x
  | ask {q : Request} {k : q.Answer → Act α} {a : q.Answer} {τ : List Answered} {y : Act α} :
      After (k a) τ y → After (.ask q k) (⟨q, a⟩ :: τ) y

/-- After some answers the computation asks for this. -/
def Act.Poses {α : Type} (x : Act α) (τ : List Answered) (q : Request) : Prop :=
  ∃ k, x.After τ (.ask q k)

namespace Act

variable {α β : Type} {x y z : Act α} {τ τ' : List Answered} {q : Request}

theorem after_done {r : α} : (Act.done r).After τ y ↔ τ = [] ∧ y = .done r := by
  constructor
  · rintro ⟨⟩
    exact ⟨rfl, rfl⟩
  · rintro ⟨rfl, rfl⟩
    exact .refl _

theorem After.append (h : x.After τ y) (h' : y.After τ' z) : x.After (τ ++ τ') z := by
  induction h with
  | refl => exact h'
  | ask _ ih => exact .ask (ih h')

theorem After.snoc {k : q.Answer → Act α} (h : x.After τ (.ask q k)) (a : q.Answer) :
    x.After (τ ++ [⟨q, a⟩]) (k a) := h.append (.ask (.refl _))

/-- Answers lead to one place only. -/
theorem After.unique (h : x.After τ y) (h' : x.After τ z) : y = z := by
  induction h with
  | refl =>
    cases h'
    rfl
  | ask _ ih =>
    cases h' with
    | ask h' => exact ih h'

theorem Poses.unique {q' : Request} (h : x.Poses τ q) (h' : x.Poses τ q') : q = q' := by
  obtain ⟨k, h⟩ := h
  obtain ⟨k', h'⟩ := h'
  cases h.unique h'
  rfl

theorem not_poses_done {r : α} : ¬ (Act.done r).Poses τ q := by
  rintro ⟨k, hk⟩
  cases (after_done.1 hk).2

theorem After.bind (f : α → Act β) (h : x.After τ y) : (x.bind f).After τ (y.bind f) := by
  induction h with
  | refl => exact .refl _
  | ask _ ih => exact .ask ih

/-- The answers have led into the second part, or the first part is where they led to. -/
theorem after_bind {f : α → Act β} {w : Act β} : (x.bind f).After τ w ↔
    (∃ y, x.After τ y ∧ w = y.bind f) ∨
      ∃ r τ₁ τ₂, τ = τ₁ ++ τ₂ ∧ x.After τ₁ (.done r) ∧ (f r).After τ₂ w := by
  constructor
  · intro h
    induction x generalizing τ with
    | done r => exact .inr ⟨r, [], τ, rfl, .refl _, h⟩
    | ask q k ih =>
      cases h with
      | refl => exact .inl ⟨_, .refl _, rfl⟩
      | ask h =>
        rcases ih _ h with ⟨y, hy, rfl⟩ | ⟨r, τ₁, τ₂, rfl, hr, hw⟩
        · exact .inl ⟨y, .ask hy, rfl⟩
        · exact .inr ⟨r, _ :: τ₁, τ₂, rfl, .ask hr, hw⟩
  · rintro (⟨y, hy, rfl⟩ | ⟨r, τ₁, τ₂, rfl, hr, hw⟩)
    · exact hy.bind f
    · exact (hr.bind f).append hw

/-- Whatever is answered to a computation that asks only for what is in `P` was in `P`. -/
theorem Passes.after {P : Request → Prop} {C : Failure → Prop} {x y : Act (Except Failure α)}
    (hx : x.Passes P C) (h : x.After τ y) : (∀ a ∈ τ, P a.1) ∧ y.Passes P C := by
  induction h with
  | refl => exact ⟨fun a ha => absurd ha List.not_mem_nil, hx⟩
  | ask _ ih =>
    cases hx with
    | ask hq _ hk =>
      obtain ⟨hτ, hy⟩ := ih (hk _)
      refine ⟨fun a ha => ?_, hy⟩
      rcases List.mem_cons.1 ha with rfl | ha
      · exact hq
      · exact hτ a ha

theorem Passes.poses {P : Request → Prop} {C : Failure → Prop} {x : Act (Except Failure α)}
    (hx : x.Passes P C) (h : x.Poses τ q) : P q := by
  obtain ⟨k, hk⟩ := h
  cases (hx.after hk).2 with
  | ask hq _ _ => exact hq

end Act

namespace Eval

variable {α β : Type} {τ : List Answered} {q : Request}

/-- The first part still asks, or it has failed, or the answers have led into the second part. -/
theorem after_bind_cases {x : Eval α} {f : α → Eval β} {w : Act (Except Failure β)}
    (h : (x >>= f).run.After τ w) :
    (∃ q k, x.run.After τ (.ask q k) ∧ w = .ask q fun a => (k a).bind (ExceptT.bindCont f)) ∨
      (∃ e, x.run.After τ (.done (.error e)) ∧ w = .done (.error e)) ∨
      ∃ a τ₁ τ₂, τ = τ₁ ++ τ₂ ∧ x.run.After τ₁ (.done (.ok a)) ∧ (f a).run.After τ₂ w := by
  -- A first part that has just come to a value is taken as the start of the second.
  rcases Act.after_bind.1 h with ⟨y, hy, rfl⟩ | ⟨r, τ₁, τ₂, rfl, hr, hw⟩
  · cases y with
    | ask q k => exact .inl ⟨q, k, hy, rfl⟩
    | done r =>
      cases r with
      | error e => exact .inr (.inl ⟨e, hy, rfl⟩)
      | ok a => exact .inr (.inr ⟨a, τ, [], (List.append_nil τ).symm, hy, .refl _⟩)
  · cases r with
    | error e =>
      obtain ⟨rfl, rfl⟩ := Act.after_done.1 hw
      rw [List.append_nil]
      exact .inr (.inl ⟨e, hr, rfl⟩)
    | ok a => exact .inr (.inr ⟨a, τ₁, τ₂, rfl, hr, hw⟩)

theorem after_bind_ok {x : Eval α} {f : α → Eval β} {a : α} (hx : x.run.After τ (.done (.ok a))) :
    (x >>= f).run.After τ (f a).run := hx.bind _

theorem after_bind_error {x : Eval α} {f : α → Eval β} {e : Failure}
    (hx : x.run.After τ (.done (.error e))) : (x >>= f).run.After τ (.done (.error e)) := hx.bind _

theorem poses_bind {x : Eval α} {f : α → Eval β} : (x >>= f).run.Poses τ q ↔ x.run.Poses τ q ∨
    ∃ a τ₁ τ₂, τ = τ₁ ++ τ₂ ∧ x.run.After τ₁ (.done (.ok a)) ∧ (f a).run.Poses τ₂ q := by
  constructor
  · rintro ⟨k, hk⟩
    rcases after_bind_cases hk with ⟨q', k', hx, he⟩ | ⟨e, _, he⟩ | ⟨a, τ₁, τ₂, rfl, ha, hw⟩
    · cases he
      exact .inl ⟨k', hx⟩
    · cases he
    · exact .inr ⟨a, τ₁, τ₂, rfl, ha, k, hw⟩
  · rintro (⟨k, hk⟩ | ⟨a, τ₁, τ₂, rfl, ha, k, hk⟩)
    · exact ⟨_, hk.bind _⟩
    · exact ⟨k, (after_bind_ok ha).append hk⟩

theorem after_bind_eq_ok {x : Eval α} {f : α → Eval β} {b : β}
    (h : (x >>= f).run.After τ (.done (.ok b))) : ∃ a τ₁ τ₂, τ = τ₁ ++ τ₂ ∧
      x.run.After τ₁ (.done (.ok a)) ∧ (f a).run.After τ₂ (.done (.ok b)) := by
  rcases after_bind_cases h with ⟨_, _, _, he⟩ | ⟨_, _, he⟩ | h
  · cases he
  · cases he
  · exact h

theorem poses_orAt {l : Location} {x : Eval α} : (orAt l x).run.Poses τ q ↔ x.run.Poses τ q := by
  constructor
  · rintro ⟨k, hk⟩
    rcases Act.after_bind.1 hk with ⟨y, hy, he⟩ | ⟨r, τ₁, τ₂, rfl, hr, hw⟩
    · cases y with
      | done r => cases he
      | ask q' k' =>
        cases he
        exact ⟨k', hy⟩
    · cases (Act.after_done.1 hw).2
  · rintro ⟨k, hk⟩
    exact ⟨_, hk.bind _⟩

theorem after_orAt {l : Location} {x : Eval α} {r : Except Failure α}
    (hx : x.run.After τ (.done r)) :
    (orAt l x).run.After τ (.done (r.mapError fun e => e.orAt l)) := hx.bind _

end Eval

/-! ## The jobs of a task -/

/-- A job that a task is at: what it was answered by now, and the job that it waits for, if it does. -/
structure Errand where
  job : Job
  given : List Answered := []
  performs : Option Job := none

namespace Errand

def answer (s : Errand) (q : Request) (a : q.Answer) : Errand := { s with given := s.given ++ [⟨q, a⟩] }

/-- The job that was waited for has come to something. -/
def resume (s : Errand) (o : Outcome) : Errand :=
  match s.performs with
  | some job => ⟨s.job, s.given ++ [⟨.perform job, o⟩], none⟩
  | none => s

end Errand

/-- A job that is performed comes before the one that performs it. -/
def Turn.errands (turn : Turn) (ss : List Errand) : List Errand :=
  match turn with
  | performs job => { job } :: ss.modifyHead ({ · with performs := some job })
  | becomes job => { job } :: ss.tail
  | returns o => ss.tail.modifyHead (·.resume o)

/-- The job that a task begins with when this is told. -/
def Entry.begins? (t : TaskId) : Entry → Option Job
  | started u job | answered _ (.spawn _ job) u => if u = t then some job else none
  | _ => none

/-- What the jobs of a task come to by what is told of them. -/
def Entry.errands (t : TaskId) (es : List Errand) : Entry → List Errand
  | turned u turn => if u = t then turn.errands es else es
  | answered u q a => if u = t then es.modifyHead (·.answer q a) else es
  | started _ _ | opened _ _ | declared _ _ => es

namespace Journal

/-- The jobs that a task is at, the innermost first. -/
def errands : Journal → TaskId → List Errand
  | [], _ => []
  | e :: J, t =>
    match e.begins? t with
    | some job => [{ job }]
    | none => e.errands t (errands J t)

variable {J : Journal} {e : Entry} {t : TaskId}

theorem errands_of_begins {job : Job} (h : e.begins? t = some job) : errands (e :: J) t = [{ job }] := by
  simp only [errands, h]

/-- What is told of one task says nothing of the jobs of another. -/
theorem errands_of_ne (hb : e.begins? t = none) (h : e.task? ≠ some t) :
    errands (e :: J) t = errands J t := by
  simp only [errands, hb]
  cases e with
  | turned u turn => exact if_neg fun he => h (congrArg some he)
  | answered u q a => exact if_neg fun he => h (congrArg some he)
  | _ => rfl

theorem errands_turned (turn : Turn) : errands (.turned t turn :: J) t = turn.errands (errands J t) :=
  if_pos rfl

theorem errands_answered {q : Request} {a : q.Answer} (hb : Entry.begins? t (.answered t q a) = none) :
    errands (.answered t q a :: J) t = (errands J t).modifyHead (·.answer q a) := by
  simp only [errands, hb]
  exact if_pos rfl

end Journal

/-! ## What was given is told -/

/-- All that the job was answered is told, but for what it waited for. -/
def Errand.Told (s : Errand) (J : Journal) (t : TaskId) : Prop :=
  ∀ (q : Request) (a : q.Answer), (⟨q, a⟩ : Answered) ∈ s.given → q.isPerform = false →
    Entry.answered t q a ∈ J

namespace Errand

variable {J : Journal} {t : TaskId} {s : Errand} {job : Job}

theorem told_begins (J : Journal) (t : TaskId) (job : Job) : Told { job } J t := fun _ _ ha =>
  absurd ha List.not_mem_nil

theorem Told.cons (h : s.Told J t) (e : Entry) : s.Told (e :: J) t := fun q a ha hq =>
  List.mem_cons_of_mem _ (h q a ha hq)

theorem Told.answer (h : s.Told J t) (q : Request) (a : q.Answer) :
    (s.answer q a).Told (.answered t q a :: J) t := by
  intro q' a' ha hq
  rcases List.mem_append.1 ha with ha | ha
  · exact h.cons _ q' a' ha hq
  · cases List.mem_singleton.1 ha
    exact List.mem_cons_self

theorem Told.resume (h : s.Told J t) (o : Outcome) : (s.resume o).Told J t := by
  unfold Errand.resume
  split
  · intro q a ha hq
    rcases List.mem_append.1 ha with ha | ha
    · exact h q a ha hq
    · cases List.mem_singleton.1 ha
      cases hq
  · exact h

/-- The first job goes on, and whatever was told of the others still is. -/
theorem told_modifyHead {J' : Journal} {f : Errand → Errand} {ss : List Errand}
    (h : ∀ s ∈ ss, s.Told J t) (hfirst : ∀ s, s.Told J t → (f s).Told J' t)
    (hrest : ∀ s : Errand, s.Told J t → s.Told J' t) : ∀ s ∈ ss.modifyHead f, s.Told J' t := by
  cases ss with
  | nil => exact fun s hs => absurd hs List.not_mem_nil
  | cons first ss =>
    rw [List.modifyHead_cons]
    intro s hs
    rcases List.mem_cons.1 hs with rfl | hs
    · exact hfirst first (h first List.mem_cons_self)
    · exact hrest s (h s (List.mem_cons_of_mem _ hs))

theorem told_turn {turn : Turn} {ss : List Errand} (h : ∀ s ∈ ss, s.Told J t) :
    ∀ s ∈ turn.errands ss, s.Told J t := by
  have htail : ∀ s ∈ ss.tail, s.Told J t := fun s hs => h s (List.mem_of_mem_tail hs)
  cases turn with
  | performs job =>
    exact List.forall_mem_cons.2 ⟨told_begins J t job, told_modifyHead h (fun _ => id) fun _ => id⟩
  | becomes job => exact List.forall_mem_cons.2 ⟨told_begins J t job, htail⟩
  | returns o => exact told_modifyHead htail (fun s hs => hs.resume o) fun _ => id

end Errand

/-- Whatever a job of a task was answered is told of this task. -/
theorem Journal.told_of_mem_errands {J : Journal} {t : TaskId} :
    ∀ s ∈ J.errands t, s.Told J t := by
  induction J with
  | nil => exact fun s hs => absurd hs List.not_mem_nil
  | cons e J ih =>
    have hkeep : ∀ s ∈ errands J t, s.Told (e :: J) t := fun s hs => (ih s hs).cons e
    cases hb : e.begins? t with
    | some job =>
      rw [errands_of_begins hb]
      exact List.forall_mem_cons.2 ⟨Errand.told_begins _ t job, fun s hs => absurd hs List.not_mem_nil⟩
    | none =>
      by_cases he : e.task? = some t
      · cases e with
        | turned u turn =>
          cases he
          rw [errands_turned]
          exact Errand.told_turn hkeep
        | answered u q a =>
          cases he
          rw [errands_answered hb]
          exact Errand.told_modifyHead ih (fun s hs => hs.answer q a) fun s hs => hs.cons _
        | _ => cases he
      · rw [errands_of_ne hb he]
        exact hkeep

/-! ## Threads -/

/-- The answers lead the job there. To give way is answered, but it is not told. -/
def Errand.LeadsTo (s : Errand) (x : Act (Except Failure Next)) : Prop :=
  ∃ τ, told τ = s.given ∧ s.job.act.run.After τ x

/-- The job waits for another and goes on with what it comes to. -/
def Errand.Waits (s : Errand) (k : Outcome → Act (Except Failure Next)) : Prop :=
  ∃ job, s.performs = some job ∧ s.LeadsTo (.ask (.perform job) k)

/-- The jobs of a thread are where their answers lead. -/
inductive Thread.Retraces : List Errand → Thread → Prop
  | mk {s : Errand} {ss : List Errand} {θ : Thread} : s.performs = none → s.LeadsTo θ.act →
      List.Forall₂ Errand.Waits ss θ.pending → Retraces (s :: ss) θ

theorem Job.leadsTo_act (job : Job) : Errand.LeadsTo { job } job.act := ⟨[], rfl, .refl _⟩

theorem Job.retraces_thread (job : Job) : job.thread.Retraces [{ job }] := .mk rfl job.leadsTo_act .nil

theorem Errand.LeadsTo.answer {s : Errand} {q : Request} {k : q.Answer → Act (Except Failure Next)}
    (h : s.LeadsTo (.ask q k)) (hq : q.isGiveWay = false) (a : q.Answer) :
    (s.answer q a).LeadsTo (k a) := by
  obtain ⟨τ, hτ, hafter⟩ := h
  refine ⟨_, ?_, hafter.snoc a⟩
  rw [told_append, hτ, told, List.filter_cons, hq]
  rfl

theorem Errand.Waits.resume {s : Errand} {k : Outcome → Act (Except Failure Next)} (h : s.Waits k)
    (o : Outcome) : (s.resume o).performs = none ∧ (s.resume o).LeadsTo (k o) := by
  obtain ⟨job, hjob, hleads⟩ := h
  rw [Errand.resume, hjob]
  exact ⟨rfl, hleads.answer (q := .perform job) rfl o⟩

namespace Thread.Retraces

variable {ss : List Errand} {θ θ' : Thread} {q : Request} {k : q.Answer → Act (Except Failure Next)}
  {ks : List (Outcome → Act (Except Failure Next))}

theorem takes {turn : Turn} (h : θ.Retraces ss) (ht : θ.Takes turn θ') :
    θ'.Retraces (turn.errands ss) := by
  obtain ⟨hperforms, hleads, hks⟩ := h
  have hreturns : ∀ {o : Outcome} {k ss ks}, List.Forall₂ Errand.Waits ss (k :: ks) →
      Thread.Retraces (ss.modifyHead (·.resume o)) ⟨k o, ks⟩ := by
    rintro o k _ ks (_ | ⟨hk, hks⟩)
    obtain ⟨hnone, hleads⟩ := hk.resume o
    exact .mk hnone hleads hks
  cases ht with
  | becomes => exact .mk rfl (Job.leadsTo_act _) hks
  | performs => exact .mk rfl (Job.leadsTo_act _) (.cons ⟨_, rfl, hleads⟩ hks)
  | returns => exact hreturns hks
  | fails => exact hreturns hks

theorem answer (h : Thread.Retraces ss ⟨.ask q k, ks⟩) (hq : q.isGiveWay = false) (a : q.Answer) :
    Thread.Retraces (ss.modifyHead (·.answer q a)) ⟨k a, ks⟩ := by
  obtain ⟨hperforms, hleads, hks⟩ := h
  exact .mk hperforms (hleads.answer hq a) hks

theorem givesWay {k : Unit → Act (Except Failure Next)} (h : Thread.Retraces ss ⟨.ask .giveWay k, ks⟩) :
    Thread.Retraces ss ⟨k (), ks⟩ := by
  obtain ⟨hperforms, ⟨τ, hτ, hafter⟩, hks⟩ := h
  refine .mk hperforms ⟨τ ++ [⟨.giveWay, ()⟩], ?_, hafter.snoc (q := .giveWay) ()⟩ hks
  rw [told_append, hτ]
  exact List.append_nil _

end Thread.Retraces

/-! ## Moves -/

namespace Machine

variable {m m' : Machine} {t u : TaskId} {θ θ' : Thread} {es : List Entry} {J : Journal}

/-- What goes on keeps to what its jobs were answered. -/
theorem GoesOn.retraces (h : GoesOn t θ es θ') (hes : es = [] ∨ ∃ e, es = [e])
    (hb : ∀ e ∈ es, e.begins? t = none) (hθ : θ.Retraces (J.errands t)) :
    θ'.Retraces (Journal.errands (es ++ J) t) := by
  cases h with
  | waits hne =>
    rcases hes with rfl | ⟨e, rfl⟩
    · exact hθ
    · have he := List.mem_singleton.2 (rfl : e = e)
      rw [List.singleton_append, Journal.errands_of_ne (hb e he) (hne e he)]
      exact hθ
  | givesWay => exact hθ.givesWay
  | turns ht =>
    rw [List.singleton_append, Journal.errands_turned]
    exact hθ.takes ht
  | answered a _ hway =>
    rw [List.singleton_append, Journal.errands_answered (hb _ (List.mem_singleton.2 rfl))]
    exact hθ.answer hway a

/-- Only a new task begins. -/
theorem Tells.begins?_eq_none (h : m.Tells es m') (ht : t < m.tasks.size) :
    ∀ e ∈ es, e.begins? t = none := by
  intro e he
  cases h with
  | @serves u q k ks log a m₁ hr hs =>
    cases List.mem_singleton.1 he
    cases hs with
    | spawn l job => exact if_neg (Nat.ne_of_gt ht)
    | _ => rfl
  | turns _ _ | reads _ _ _ =>
    cases List.mem_singleton.1 he
    rfl
  | rests _ _ _ | takes _ _ _ => cases he

/-- A task that was not there before begins with its job. -/
theorem Tells.lt_or_begins (h : m.Tells es m') (ho : m.Orderly) (hu : u < m'.tasks.size) :
    u < m.tasks.size ∨ ∃ e job, es = [e] ∧ e.begins? u = some job ∧ m'.At u job.thread := by
  cases h with
  | turns _ _ | reads _ _ _ => exact .inl hu
  | takes _ _ _ =>
    obtain ⟨tasks, running, he, hsize⟩ := resume_eq { m with ready := _ } _
    rw [he] at hu
    exact .inl (hsize ▸ hu)
  | @serves t q k ks log a m₁ hr hs =>
    refine (Goes.lt_or_spawns (θ := ⟨.ask q k, ks⟩) (.served hs) ho.idle hu).imp_right ?_
    rintro ⟨l, job, k', ks', he, rfl, _⟩
    cases he
    cases hs with
    | spawn l job =>
      refine ⟨_, job, rfl, if_pos rfl, ?_⟩
      exact .aside (stand_addTask_self { m with running := none } (some l) job) rfl
  | @rests t θ log m' hr hg hrest =>
    refine (hg.lt_or_spawns ho.idle hu).imp_right ?_
    rintro ⟨l, job, k', ks', _, _, rfl⟩
    cases hrest

/-- What is done from outside leaves every task where it is, and it may begin a new one. -/
theorem Hosts.at (h : m.Hosts es m') (hat : m'.At t θ) :
    m.At t θ ∨ ∃ job, es = [.started t job] ∧ θ = job.thread := by
  cases h with
  | starts job =>
    cases hat with
    | running hr => exact .inl (.running hr)
    | aside hs hθ =>
      rw [stand_addTask] at hs
      split at hs
      · next ht =>
        subst ht
        cases hs
        exact .inr ⟨job, rfl, (Option.some.inj hθ).symm⟩
      · exact .inl (.aside hs hθ)
    | reading hm => exact .inl (.reading hm)
  | opens _ | declares _ _ | notes _ =>
    left
    cases hat with
    | running hr => exact .running hr
    | aside hs hθ => exact .aside hs hθ
    | reading hm => exact .reading hm

/-- What is done from outside concerns no task that is there. -/
theorem Hosts.concerns_none (h : m.Hosts es m') (ht : t < m.tasks.size) :
    ∀ e ∈ es, e.task? ≠ some t ∧ e.begins? t = none := by
  intro e he
  cases h with
  | starts job =>
    cases List.mem_singleton.1 he
    exact ⟨nofun, if_neg (Nat.ne_of_gt ht)⟩
  | opens _ | declares _ _ =>
    cases List.mem_singleton.1 he
    exact ⟨nofun, rfl⟩
  | notes _ => cases he

theorem not_at_start {settings : LibrarySettings} {world : World} :
    ¬ (Session.start settings world).machine.At t θ := by
  rintro (hr | ⟨hs, _⟩ | hm)
  · cases hr
  · simp [Machine.stand, Session.start] at hs
  · cases hm

/-- Every task that has not ended is where the answers lead that its jobs were given. -/
theorem Unfolds.retraced (h : Unfolds J m) : ∀ t θ, m.At t θ → θ.Retraces (J.errands t) := by
  induction h with
  | start settings world => exact fun t θ hat => absurd hat not_at_start
  | @hosts J es m m' hprev hh ih =>
    intro t θ hat
    rcases hh.at hat with hat₀ | ⟨job, rfl, rfl⟩
    · obtain ⟨s, hs, _⟩ := hat₀.result hprev.orderly.1
      have hnone := hh.concerns_none (stand_lt hs)
      have hgoes : GoesOn t θ es θ := .waits fun e he => (hnone e he).1
      exact hgoes.retraces hh.one (fun e he => (hnone e he).2) (ih t θ hat₀)
    · have hb : Entry.begins? t (.started t job) = some job := if_pos rfl
      rw [List.singleton_append, Journal.errands_of_begins hb]
      exact job.retraces_thread
  | @tells J es m m' hprev ht ih =>
    intro t θ hat
    have ho := hprev.orderly.1
    have ho' := (ht.orderly ho hprev.orderly.2).1
    obtain ⟨s, hs, hnone⟩ := hat.result ho'
    -- Where the task is now is known; where it came from is read back from the machine before.
    rcases ht.lt_or_begins ho (stand_lt hs) with hlt | ⟨e, job, rfl, hb, hnew⟩
    · have hres : m.result? t = none := by
        cases hres : m.result? t with
        | none => rfl
        | some r =>
          have hkept := Recounts.result? (.snoc .refl ht) ho hres
          cases hkept.symm.trans (hat.result?_eq_none ho')
      obtain ⟨⟨θ₀, hat₀⟩, _⟩ := hprev.wakeful.1.located t hlt hres
      rcases ht.goesOn ho hat₀ with ⟨θ', hgoes, hat'⟩ | ⟨⟨o, s', _, _, hend⟩, _⟩
      · rw [hat.unique hat' ho']
        exact hgoes.retraces ht.one (ht.begins?_eq_none hlt) (ih t θ₀ hat₀)
      · cases hs.symm.trans hend
        cases hnone
    · rw [List.singleton_append, Journal.errands_of_begins hb, hat.unique hnew ho']
      exact job.retraces_thread

end Machine

end Concatenative
