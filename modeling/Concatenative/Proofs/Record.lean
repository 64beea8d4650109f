import Concatenative.Proofs.Tasks

/-! Tasks and what they were answered. Whatever the tasks around it do, a task goes on by its own turns
and by the answers that it is given. With these answers on record it comes to the same with nothing
beside it. Main statement: what a task came to in a run of a machine, in any order of the moves, its
job comes to in surroundings that answer as it was recorded (`comes_recorded`). -/
namespace Concatenative

/-! ## What threads come to -/

variable {S : Type} {H : Surroundings S} {s s₁ s' : S} {o : Outcome}

/-- What a computation comes to, and then what goes on with its outcome. -/
def Act.ComesBefore (H : Surroundings S) :
    List (Outcome → Act (Except Failure Next)) → Act (Except Failure Next) → S → Outcome → S → Prop
  | [], x, s, o, s' => Eval.Comes H x s o s'
  | k :: ks, x, s, o, s' => ∃ o₁ s₁, Eval.Comes H x s o₁ s₁ ∧ ComesBefore H ks (k o₁) s₁ o s'

/-- What a thread comes to. -/
def Thread.Comes (H : Surroundings S) (θ : Thread) : S → Outcome → S → Prop :=
  Act.ComesBefore H θ.pending θ.act

/-- Only what a thread does now has to be compared. -/
theorem Act.ComesBefore.imp {ks : List (Outcome → Act (Except Failure Next))}
    {x y : Act (Except Failure Next)}
    (hxy : ∀ o s', Eval.Comes H y s₁ o s' → Eval.Comes H x s o s')
    (h : ComesBefore H ks y s₁ o s') : ComesBefore H ks x s o s' := by
  cases ks with
  | nil => exact hxy o s' h
  | cons k ks =>
    obtain ⟨o₁, s₂, hy, hk⟩ := h
    exact ⟨o₁, s₂, hxy o₁ s₂ hy, hk⟩

namespace Thread

theorem comes_over {θ : Thread} (h : θ.Over o) (s : S) : θ.Comes H s o s := by
  cases h with
  | value v => exact ⟨_, s, .done _ s, rfl, rfl⟩
  | failure e => exact ⟨_, s, .done _ s, rfl, rfl⟩

theorem comes_turns {θ θ' : Thread} (h : θ.Turns θ') (hc : θ'.Comes H s o s') :
    θ.Comes H s o s' := by
  cases h with
  | becomes => exact Act.ComesBefore.imp (fun _ _ hj => ⟨_, s, .done _ s, Job.comes_iff.2 hj⟩) hc
  | performs =>
    obtain ⟨o₁, s₁, hj, hk⟩ := hc
    refine Act.ComesBefore.imp (fun o' s' hx => ?_) hk
    obtain ⟨r, s₂, hx, hr⟩ := hx
    exact ⟨r, s₂, Act.ends_perform.2 ⟨o₁, s₁, Job.comes_iff.2 hj, hx⟩, hr⟩
  | returns => exact ⟨_, s, ⟨_, s, .done _ s, rfl, rfl⟩, hc⟩
  | fails => exact ⟨_, s, ⟨_, s, .done _ s, rfl, rfl⟩, hc⟩

theorem comes_asks {q : Request} {k : q.Answer → Act (Except Failure Next)}
    {ks : List (Outcome → Act (Except Failure Next))} {a : q.Answer} (hq : q.isPerform = false)
    (ha : H s q a s₁) (hc : Thread.Comes H ⟨k a, ks⟩ s₁ o s') :
    Thread.Comes H ⟨.ask q k, ks⟩ s o s' := by
  refine Act.ComesBefore.imp (fun o' s' hx => ?_) hc
  obtain ⟨r, s₂, hx, hr⟩ := hx
  exact ⟨r, s₂, .answered hq ha hx, hr⟩

theorem comes_job {job : Job} : job.thread.Comes H s o s' ↔ job.Comes H s o s' :=
  Job.comes_iff.symm

end Thread

/-! ## Surroundings that answer as it was recorded -/

/-- A request with its answer. -/
abbrev Answered := (q : Request) × q.Answer

def recorded : Surroundings (List Answered) := fun τ q a τ' => τ = ⟨q, a⟩ :: τ'

namespace Machine

variable {m m' last : Machine} {t u : TaskId} {θ : Thread} {log : List Asked}

/-- Where a task that has not ended goes on. A task that reads a file is still to be answered. -/
inductive At (m : Machine) (t : TaskId) : Thread → Prop
  | running {θ : Thread} : m.running = some (t, θ) → At m t θ
  | aside {s : Stand} {θ : Thread} : m.stand t = some s → s.thread = some θ → At m t θ
  | reading {path : Path} {k : Except ReadFault String → Act (Except Failure Next)}
      {ks : List (Outcome → Act (Except Failure Next))} :
      ⟨t, path, fun a => ⟨k a, ks⟩⟩ ∈ m.reading → At m t ⟨.ask (.world (.content path)) k, ks⟩

/-- A task goes on with an answer, by a turn of its own, or not at all. -/
inductive Proceeds : Thread → List Answered → Thread → Prop
  | waits {θ : Thread} : Proceeds θ [] θ
  | turns {θ θ' : Thread} : θ.Turns θ' → Proceeds θ [] θ'
  | answered {q : Request} {k : q.Answer → Act (Except Failure Next)}
      {ks : List (Outcome → Act (Except Failure Next))} {a : q.Answer} : q.isPerform = false →
      Proceeds ⟨.ask q k, ks⟩ [⟨q, a⟩] ⟨k a, ks⟩

theorem Proceeds.comes {θ' : Thread} {τ τ' : List Answered} {o : Outcome} (h : Proceeds θ τ θ')
    (hc : θ'.Comes recorded τ' o []) : θ.Comes recorded (τ ++ τ') o [] := by
  cases h with
  | waits => exact hc
  | turns ht => exact Thread.comes_turns ht hc
  | answered hq => exact Thread.comes_asks hq rfl hc

theorem At.result (h : m.At t θ) (ho : m.Orderly) : ∃ s, m.stand t = some s ∧ s.result = none := by
  cases h with
  | running hr =>
    obtain ⟨_, task, ht, _, hn⟩ := ho.running t θ hr
    exact ⟨task.stand, stand_eq ht, hn⟩
  | @aside s _ hs hθ =>
    obtain ⟨task, ht, rfl⟩ := Option.map_eq_some_iff.1 hs
    have hne : task.thread ≠ none := by
      rw [show task.thread = some θ from hθ]
      exact Option.some_ne_none θ
    exact ⟨task.stand, hs, (ho.aside t task ht hne).1⟩
  | reading hr =>
    obtain ⟨task, ht, _, hn⟩ := ho.reading t (List.mem_map.2 ⟨_, hr, rfl⟩)
    exact ⟨task.stand, stand_eq ht, hn⟩

/-- The running task is nowhere else. -/
theorem At.eq_of_running {θ' : Thread} (h : m.At t θ) (ho : m.Orderly)
    (hr : m.running = some (t, θ')) : θ = θ' := by
  obtain ⟨hnot, task, ht, hn, _⟩ := ho.running t θ' hr
  cases h with
  | running hr' =>
    rw [hr] at hr'
    cases hr'
    rfl
  | aside hs hθ =>
    cases (stand_eq ht).symm.trans hs
    cases hn.symm.trans hθ
  | reading hr' => exact absurd (List.mem_map.2 ⟨_, hr', rfl⟩) hnot

theorem Serves.isPerform {q : Request} {a : q.Answer} (hs : m.Serves t q log a m') :
    q.isPerform = false := by
  cases hs <;> rfl

theorem Serves.stand {q : Request} {a : q.Answer} {s : Stand} (hs : m.Serves t q log a m')
    (ho : m.Orderly) (hu : m.stand u = some s) : m'.stand u = some s := by
  cases hs with
  | spawn l job =>
    rw [stand_addTask, if_neg (Nat.ne_of_lt (stand_lt hu))]
    exact hu
  | await hr => exact ((ho.reads_readCell hr).stand u).trans hu
  | giveUp path => exact (stand_wake _ _ u).trans hu
  | _ => exact hu

/-- The running task `t` leaves the others where they stand. -/
theorem Goes.stand_of_ne {s : Stand} (hg : m.Goes t θ log m') (ho : m.Orderly) (hne : t ≠ u)
    (hu : m.stand u = some s) : m'.stand u = some s := by
  cases hg with
  | turns _ => exact hu
  | served hs => exact hs.stand ho hu
  | awaits hr =>
    rw [stand_suspend, if_neg hne]
    exact ((ho.reads_readCell hr).stand u).trans hu
  | claims _ =>
    rw [stand_suspend, if_neg hne]
    exact hu
  | givesWay =>
    rw [stand_wake, stand_suspend, if_neg hne]
    exact hu
  | reads => exact hu
  | ends _ =>
    rw [stand_finish, if_neg hne]
    exact hu

theorem Goes.mem_reading {r : Reading} (hg : m.Goes t θ log m') (hr : r ∈ m.reading) :
    r ∈ m'.reading := by
  cases hg with
  | turns _ => exact hr
  | served hs =>
    rw [show (run _ t _).reading = _ from hs.reading]
    exact hr
  | awaits hc =>
    obtain ⟨tasks, ready, rfl⟩ := readCell_eq hc
    exact hr
  | claims _ => exact hr
  | givesWay => exact hr
  | reads => exact List.mem_append_left _ hr
  | @ends _ o _ =>
    obtain ⟨tasks, ready, he⟩ := finish_eq m t o
    rw [he]
    exact hr

/-- The task ends. -/
def Closes (m : Machine) (t : TaskId) (θ : Thread) (m' : Machine) : Prop :=
  ∃ o s, θ.Over o ∧ m.stand t = some s ∧ m'.stand t = some ⟨s.origin, none, some (s.close o)⟩

/-- A move of the task itself. -/
theorem Goes.at_self (hg : Goes { m with running := none } t θ log m') (ho : m.Orderly)
    (hr : m.running = some (t, θ)) :
    (∃ τ θ', Proceeds θ τ θ' ∧ m'.At t θ') ∨ m.Closes t θ m' := by
  obtain ⟨_, task, ht, _⟩ := ho.running t θ hr
  have hs := stand_eq ht
  have ho₀ : Orderly { m with running := none } := ho.idle
  cases hg with
  | turns ht => exact .inl ⟨_, _, .turns ht, .running rfl⟩
  | served hserve => exact .inl ⟨_, _, .answered hserve.isPerform, .running rfl⟩
  | awaits hc =>
    refine .inl ⟨_, _, .waits, .aside (s := { task.stand with thread := some _ }) ?_ rfl⟩
    rw [stand_suspend, if_pos rfl, (ho₀.reads_readCell hc).stand t]
    exact congrArg _ hs
  | claims _ =>
    refine .inl ⟨_, _, .waits, .aside (s := { task.stand with thread := some _ }) ?_ rfl⟩
    rw [stand_suspend, if_pos rfl]
    exact congrArg _ hs
  | @givesWay k ks =>
    refine .inl ⟨_, ⟨k (), ks⟩, .answered (q := .giveWay) (a := ()) rfl,
      .aside (s := { task.stand with thread := some ⟨k (), ks⟩ }) ?_ rfl⟩
    rw [stand_wake, stand_suspend, if_pos rfl]
    exact congrArg _ hs
  | reads => exact .inl ⟨_, _, .waits, .reading (List.mem_append_right _ (List.mem_singleton.2 rfl))⟩
  | ends hover =>
    refine .inr ⟨_, task.stand, hover, hs, ?_⟩
    rw [stand_finish, if_pos rfl]
    exact congrArg (Option.map _) hs

/-- A move of another task. -/
theorem Goes.at_other {θ' : Thread} (hg : Goes { m with running := none } u θ' log m')
    (ho : m.Orderly) (hr : m.running = some (u, θ')) (hne : u ≠ t) (h : m.At t θ) : m'.At t θ := by
  have ho₀ : Orderly { m with running := none } := ho.idle
  cases h with
  | running hr' =>
    rw [hr] at hr'
    cases hr'
    exact absurd rfl hne
  | aside hs hθ => exact .aside (hg.stand_of_ne ho₀ hne hs) hθ
  | reading hread => exact .reading (hg.mem_reading hread)

/-- A task that was put aside is taken up. -/
theorem At.resume (h : m.At t θ) (hm : m.running = none) : (m.resume u).At t θ := by
  obtain he | ⟨s, θ', m₁, hs, hθ', he, rfl⟩ := m.resume_cases u
  · rw [he]
    exact h
  · rw [he]
    cases h with
    | running hr => cases hm.symm.trans hr
    | @aside s' _ hs' hθ =>
      by_cases hut : u = t
      · subst hut
        rw [hs] at hs'
        cases hs'
        rw [hθ'] at hθ
        cases hθ
        exact .running rfl
      · refine .aside (s := s') ?_ hθ
        exact (stand_onTask (g := ({ · with thread := none })) (fun _ _ => rfl) t).trans
          ((if_neg hut).trans hs')
    | reading hread => exact .reading hread

/-- Where a ready task is taken up, each task stays with its thread. -/
theorem At.take {ready : Queue TaskId} (h : m.At t θ) (hm : m.running = none) :
    (Machine.resume { m with ready } u).At t θ := by
  have h' : At { m with ready } t θ := by
    cases h with
    | running hr => exact .running hr
    | aside hs hθ => exact .aside hs hθ
    | reading hread => exact .reading hread
  exact h'.resume hm

/-- A task that was put aside runs when it is taken up. -/
theorem running_take {ready : Queue TaskId} {s : Stand} (hs : m.stand t = some s)
    (hθ : s.thread = some θ) : (resume { m with ready } t).running = some (t, θ) := by
  obtain ⟨task, ht, rfl⟩ := Option.map_eq_some_iff.1 hs
  have hthread : m.tasks[t]?.bind (·.thread) = some θ := by
    rw [ht]
    exact hθ
  rw [Machine.resume, hthread]
  rfl

/-- A file is read. -/
theorem At.read {r : Reading} {front back : List Reading} (a : Except ReadFault String)
    (h : m.At t θ) (hm : m.running = none) (hr : m.reading = front ++ r :: back) :
    ∃ τ θ', Proceeds θ τ θ' ∧ (run { m with reading := front ++ back } r.task (r.resume a)).At t θ' := by
  cases h with
  | running hr' => cases hm.symm.trans hr'
  | aside hs hθ => exact ⟨_, _, .waits, .aside hs hθ⟩
  | @reading path k ks hread =>
    by_cases he : r = ⟨t, path, fun a => ⟨k a, ks⟩⟩
    · subst he
      exact ⟨_, _, .answered (q := .world (.content path)) (a := a) rfl, .running rfl⟩
    · exact ⟨_, _, .waits, .reading (mem_of_taken hr hread (Ne.symm he))⟩

theorem Change.at (hc : m.Change log m') (ho : m.Orderly) (h : m.At t θ) :
    (∃ τ θ', Proceeds θ τ θ' ∧ m'.At t θ') ∨ m.Closes t θ m' := by
  cases hc with
  | @goes u θ' _ _ hr hg =>
    by_cases hut : u = t
    · subst hut
      cases h.eq_of_running ho hr
      exact hg.at_self ho hr
    · exact .inl ⟨_, _, .waits, hg.at_other ho hr hut h⟩
  | take hr _ _ => exact .inl ⟨_, _, .waits, h.take hr⟩
  | read a hr hm => exact .inl (h.read a hr hm)

/-- A task keeps its origin when it moves. -/
theorem Goes.origin {s : Stand} (hg : m.Goes t θ log m') (ho : m.Orderly) (hs : m.stand t = some s) :
    ∃ s', m'.stand t = some s' ∧ s'.origin = s.origin := by
  cases hg with
  | turns _ => exact ⟨s, hs, rfl⟩
  | served hserve => exact ⟨s, hserve.stand ho hs, rfl⟩
  | awaits hc =>
    rw [stand_suspend, if_pos rfl, (ho.reads_readCell hc).stand t, hs]
    exact ⟨_, rfl, rfl⟩
  | @claims _ k ks library _ =>
    have hs' : Machine.stand { m with library } t = some s := hs
    rw [stand_suspend, if_pos rfl, hs']
    exact ⟨_, rfl, rfl⟩
  | givesWay =>
    rw [stand_wake, stand_suspend, if_pos rfl, hs]
    exact ⟨_, rfl, rfl⟩
  | reads => exact ⟨s, hs, rfl⟩
  | ends _ =>
    rw [stand_finish, if_pos rfl, hs]
    exact ⟨_, rfl, rfl⟩

/-- A task keeps its origin, and what it came to. -/
theorem Change.keeps_stand {s : Stand} (hc : m.Change log m') (ho : m.Orderly)
    (hs : m.stand u = some s) :
    ∃ s', m'.stand u = some s' ∧ s'.origin = s.origin ∧
      ∀ r, s.result = some r → s'.result = some r := by
  cases hc with
  | @goes t θ _ _ hr hg =>
    have ho₀ : Orderly { m with running := none } := ho.idle
    by_cases htu : t = u
    · subst htu
      obtain ⟨s', hs', horigin⟩ := hg.origin ho₀ hs
      refine ⟨s', hs', horigin, fun r hres => ?_⟩
      obtain ⟨s₀, hs₀, hn⟩ := (At.running hr).result ho
      rw [hs] at hs₀
      cases hs₀
      cases hn.symm.trans hres
    · exact ⟨s, hg.stand_of_ne ho₀ htu hs, rfl, fun _ => id⟩
  | @take t _ _ ready _ _ _ =>
    have hs' : Machine.stand { m with ready } u = some s := hs
    obtain he | ⟨_, θ, _, _, _, he, rfl⟩ := resume_cases { m with ready } t
    · rw [he]
      exact ⟨s, hs', rfl, fun _ => id⟩
    · have hst := stand_onTask (m := { m with ready }) (t := t) (f := ({ · with thread := none }))
        (g := ({ · with thread := none })) (fun _ _ => rfl) u
      rw [hs'] at hst
      rw [he]
      split at hst
      · exact ⟨_, hst, rfl, fun _ => id⟩
      · exact ⟨_, hst, rfl, fun _ => id⟩
  | read a _ _ => exact ⟨s, hs, rfl, fun _ => id⟩

theorem result?_runs {r : Outcome} (hr : Runs m log last) (ho : m.Orderly)
    (h : m.result? t = some r) : last.result? t = some r := by
  induction hr with
  | refl => exact h
  | head hm _ ih =>
    refine ih (ho.change hm.change) ?_
    rw [result?_eq] at h ⊢
    obtain ⟨s, hs, hres⟩ := Option.bind_eq_some_iff.1 h
    obtain ⟨s', hs', _, hkeep⟩ := hm.change.keeps_stand ho hs
    rw [hs']
    exact hkeep r hres

/-- What a task came to, it comes to with its answers on record. -/
theorem comes_recorded {s : Stand} {r : Outcome} (hr : Runs m log last) (ho : m.Orderly)
    (h : m.At t θ) (hs : m.stand t = some s) (hres : last.result? t = some r) :
    ∃ τ o, θ.Comes recorded τ o [] ∧ r = s.close o := by
  induction hr generalizing θ s with
  | refl m =>
    obtain ⟨s', hs', hn⟩ := h.result ho
    rw [result?_eq, hs'] at hres
    cases hn.symm.trans hres
  | @head m m₁ last log log' hm hr ih =>
    have ho₁ := ho.change hm.change
    obtain ⟨τ, θ', hp, h'⟩ | ⟨o, s', hover, hs', hend⟩ := hm.change.at ho h
    · obtain ⟨s₁, hs₁, horigin, _⟩ := hm.change.keeps_stand ho hs
      obtain ⟨τ', o, hc, he⟩ := ih ho₁ h' hs₁ hres
      refine ⟨τ ++ τ', o, hp.comes hc, ?_⟩
      rw [he, Stand.close, Stand.close, horigin]
    · rw [hs] at hs'
      cases hs'
      have hlast : last.result? t = some (s.close o) := by
        refine result?_runs hr ho₁ ?_
        rw [result?_eq, hend]
        rfl
      rw [hlast] at hres
      cases hres
      exact ⟨[], o, Thread.comes_over hover [], rfl⟩

/-- A job that is started: what its task comes to, the job comes to with its answers on record. -/
theorem comes_recorded_addTask {origin : Option Location} {job : Job} {r : Outcome} (ho : m.Orderly)
    (hm : m.running = none) (hr : Runs (m.addTask origin job).2 log last)
    (hres : last.result? m.tasks.size = some r) :
    ∃ τ o, job.Comes recorded τ o [] ∧ r = Stand.close ⟨origin, none, none⟩ o := by
  have hs := m.stand_addTask_self origin job
  obtain ⟨τ, o, hc, he⟩ := comes_recorded hr (ho.addTask hm origin job) (.aside hs rfl) hs hres
  exact ⟨τ, o, Thread.comes_job.1 hc, he⟩

end Machine

end Concatenative
