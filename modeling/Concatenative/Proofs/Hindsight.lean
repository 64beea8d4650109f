import Mathlib.Algebra.BigOperators.Group.Finset.Piecewise
import Mathlib.Data.Multiset.AddSub
import Concatenative.Proofs.Conduct

/-! Runs seen from their end. When all tasks have ended, what each of them came to is known, and so
are all frames, which nobody binds anything in. Against these tables the rest of every task can be
told on its own, without the tasks around it, and the rest of a task that it starts is part of its
own. `Thread.Yields` tells it so. Main statement: each task yields what it came to, and the effects of
the tasks, put together, are those of the run (`ahead_runs`). -/
namespace Concatenative

/-- Code that binds no names, loads no modules and calls no added words. -/
def Terms.unbinding : Terms where
  places _ := True
  binds := False
  loads := False
  foreign := False

/-- The lines that were written and the stamps that were given. -/
abbrev Effects := Multiset String × Multiset Nat

namespace Effects

def line (text : String) : Effects := ({text}, 0)

def stamp (n : Nat) : Effects := (0, {n})

end Effects

/-- What a thread comes to, and with which effects, when `scope` holds all frames and `results` what
all tasks came to. What a task does that the thread starts is told where it is started. -/
inductive Thread.Yields (scope : Scope) (results : TaskId → Option Outcome) :
    Thread → Effects → Outcome → Prop
  | done {θ : Thread} {o : Outcome} : θ.Over o → Yields scope results θ 0 o
  | turns {θ θ' : Thread} {E : Effects} {o : Outcome} : θ.Turns θ' → Yields scope results θ' E o →
      Yields scope results θ E o
  | enter {f a : FrameId} {x : Option Value} {k : FrameId → Act (Except Failure Next)}
      {ks : List (Outcome → Act (Except Failure Next))} {E : Effects} {o : Outcome} :
      scope.frames[a]? = some { parent := some f, input := x.map .settled } → f < a →
      Yields scope results ⟨k a, ks⟩ E o → Yields scope results ⟨.ask (.enter f x) k, ks⟩ E o
  | lookup {f : FrameId} {name : String} {k : Except Failure Deferred → Act (Except Failure Next)}
      {ks : List (Outcome → Act (Except Failure Next))} {E : Effects} {o : Outcome} :
      Yields scope results ⟨k (scope.lookup f name), ks⟩ E o →
      Yields scope results ⟨.ask (.lookup f name) k, ks⟩ E o
  | input {f : FrameId} {k : Except Failure Deferred → Act (Except Failure Next)}
      {ks : List (Outcome → Act (Except Failure Next))} {E : Effects} {o : Outcome} :
      Yields scope results ⟨k (scope.input f), ks⟩ E o →
      Yields scope results ⟨.ask (.input f) k, ks⟩ E o
  | stamp {n : Nat} {k : Nat → Act (Except Failure Next)}
      {ks : List (Outcome → Act (Except Failure Next))} {E : Effects} {o : Outcome} :
      Yields scope results ⟨k n, ks⟩ E o →
      Yields scope results ⟨.ask .stamp k, ks⟩ (.stamp n + E) o
  | write {text : String} {k : Except WriteFault Unit → Act (Except Failure Next)}
      {ks : List (Outcome → Act (Except Failure Next))} {E : Effects} {o : Outcome} :
      Yields scope results ⟨k (.ok ()), ks⟩ E o →
      Yields scope results ⟨.ask (.world (.write text)) k, ks⟩ (.line text + E) o
  | note {n : Note} {k : Unit → Act (Except Failure Next)}
      {ks : List (Outcome → Act (Except Failure Next))} {E : Effects} {o : Outcome} :
      Yields scope results ⟨k (), ks⟩ E o → Yields scope results ⟨.ask (.note n) k, ks⟩ E o
  | await {t : TaskId} {r : Outcome} {k : Outcome → Act (Except Failure Next)}
      {ks : List (Outcome → Act (Except Failure Next))} {E : Effects} {o : Outcome} :
      results t = some r → Yields scope results ⟨k r, ks⟩ E o →
      Yields scope results ⟨.ask (.await t) k, ks⟩ E o
  | spawn {l : Location} {job : Job} {t : TaskId} {r : Outcome}
      {k : TaskId → Act (Except Failure Next)} {ks : List (Outcome → Act (Except Failure Next))}
      {E E' : Effects} {o : Outcome} : Yields scope results job.thread E' r →
      results t = some (r.orAt l) → Yields scope results ⟨k t, ks⟩ E o →
      Yields scope results ⟨.ask (.spawn l job) k, ks⟩ (E' + E) o

namespace Machine

variable {p : Terms} {K : Known} {m m' m₁ last : Machine} {t u : TaskId} {θ : Thread} {log : List Asked}

/-! ## Where tasks stand while one runs -/

/-- Where a task stands, also while it runs. -/
def view (m : Machine) (u : TaskId) : Option Stand :=
  (m.stand u).map fun s =>
    match m.running with
    | some (t, θ) => if t = u then { s with thread := some θ } else s
    | none => s

theorem view_idle (h : m.running = none) (u : TaskId) : m.view u = m.stand u := by
  simp only [view, h, Option.map_id']

theorem view_running (h : m.running = some (t, θ)) (u : TaskId) :
    m.view u =
      if t = u then (m.stand u).map ({ · with thread := some θ }) else m.stand u := by
  simp only [view, h]
  split
  · rfl
  · exact Option.map_id' ..

theorem view_run (m : Machine) (t u : TaskId) (θ : Thread) :
    (m.run t θ).view u =
      if t = u then (m.stand u).map ({ · with thread := some θ }) else m.stand u :=
  view_running rfl u

/-- The task that runs has come to nothing, and is seen where it runs. -/
theorem Orderly.view_self (ho : m.Orderly) (hrun : m.running = some (t, θ)) :
    ∃ s, m.stand t = some s ∧ s.result = none ∧ m.view t = some { s with thread := some θ } := by
  obtain ⟨_, task, ht, _, hres⟩ := ho.running t θ hrun
  refine ⟨task.stand, stand_eq ht, hres, ?_⟩
  rw [view_running hrun, if_pos rfl, stand_eq ht]
  rfl

/-! ## What lies ahead -/

/-- The last machine of a run has what the tasks of `m` are to come to, and the frames of `m`. -/
structure Ahead (last m : Machine) (E : TaskId → Effects) : Prop where
  frames : ∀ f < m.scope.frames.size, last.scope.frames[f]? = m.scope.frames[f]?
  results : ∀ u s o, m.view u = some s → s.result = some o → last.result? u = some o
  yields : ∀ u s θ, m.view u = some s → s.thread = some θ →
    ∃ o, θ.Yields last.scope last.result? (E u) o ∧ last.result? u = some (s.close o)
  still : ∀ u, (∀ s, m.view u = some s → s.thread = none) → E u = 0

theorem Ahead.congr {E : TaskId → Effects} (h : Ahead last m₁ E) (hs : m.scope = m₁.scope)
    (hv : ∀ u, m.view u = m₁.view u) : Ahead last m E := by
  refine ⟨fun f hf => ?_, fun u s o hu => ?_, fun u s θ hu => ?_, fun u hu => ?_⟩
  · rw [hs] at hf ⊢
    exact h.frames f hf
  · exact h.results u s o ((hv u).symm.trans hu)
  · exact h.yields u s θ ((hv u).symm.trans hu)
  · exact h.still u fun s hu' => hu s ((hv u).trans hu')

/-- The effects that lie ahead before task `t` makes a move with the effects `δ`. -/
def before (m : Machine) (t : TaskId) (δ : Effects) (E : TaskId → Effects) (u : TaskId) : Effects :=
  if u = t then δ + E t else if (m.stand u).isSome then E u else 0

theorem sum_before (m : Machine) (δ : Effects) (E : TaskId → Effects) (ht : t < m.tasks.size) :
    ∑ u ∈ Finset.range m.tasks.size, m.before t δ E u =
      δ + ∑ u ∈ Finset.range m.tasks.size, E u := by
  have h : ∀ u ∈ Finset.range m.tasks.size,
      m.before t δ E u = (if u = t then δ else 0) + E u := by
    intro u hu
    have hsome : (m.stand u).isSome = true := by
      rw [stand, Option.isSome_map]
      rw [Array.getElem?_eq_getElem (Finset.mem_range.1 hu)]
      rfl
    by_cases hut : u = t
    · simp [before, hut]
    · simp [before, hut, hsome]
  rw [Finset.sum_congr rfl h, Finset.sum_add_distrib, Finset.sum_ite_eq',
    if_pos (Finset.mem_range.2 ht)]

/-- The running task `t` makes a move and goes on: all others stand where they stood. -/
theorem Ahead.back {E : TaskId → Effects} {θ' : Thread} (h : Ahead last (m₁.run t θ') E)
    (ho : m.Orderly) (hrun : m.running = some (t, θ))
    (hs : m.scope.frames.size ≤ m₁.scope.frames.size)
    (hf : ∀ f < m.scope.frames.size, m₁.scope.frames[f]? = m.scope.frames[f]?)
    (hst : ∀ u s, m.stand u = some s → m₁.stand u = some s) {δ : Effects}
    (hy : ∀ o, θ'.Yields last.scope last.result? (E t) o →
      θ.Yields last.scope last.result? (δ + E t) o) : Ahead last m (m.before t δ E) := by
  obtain ⟨s₀, hstand, hres, hview⟩ := ho.view_self hrun
  have hview₁ : (m₁.run t θ').view t = some { s₀ with thread := some θ' } := by
    rw [view_run, if_pos rfl, hst t _ hstand]
    rfl
  have hother : ∀ u s, u ≠ t → m.view u = some s → (m₁.run t θ').view u = some s := by
    intro u s hut hu
    rw [view_running hrun, if_neg (Ne.symm hut)] at hu
    rw [view_run, if_neg (Ne.symm hut)]
    exact hst u s hu
  -- Of `t` all is told by what it does now, and of any other task by what is told of it in `m₁`.
  refine ⟨fun f hlt => ?_, fun u s o hu hso => ?_, fun u s θ₀ hu hθ => ?_, fun u hu => ?_⟩
  · exact (h.frames f (Nat.lt_of_lt_of_le hlt hs)).trans (hf f hlt)
  · by_cases hut : u = t
    · subst hut
      rw [hview] at hu
      cases hu
      cases hres.symm.trans hso
    · exact h.results u s o (hother u s hut hu) hso
  · by_cases hut : u = t
    · subst hut
      rw [hview] at hu
      cases hu
      cases hθ
      obtain ⟨o, hy', hl⟩ := h.yields u _ θ' hview₁ rfl
      refine ⟨o, ?_, hl⟩
      rw [before, if_pos rfl]
      exact hy o hy'
    · obtain ⟨o, hy', hl⟩ := h.yields u s θ₀ (hother u s hut hu) hθ
      rw [view_running hrun, if_neg (Ne.symm hut)] at hu
      refine ⟨o, ?_, hl⟩
      rw [before, if_neg hut, hu]
      exact hy'
  · by_cases hut : u = t
    · subst hut
      cases hu _ hview
    · rw [before, if_neg hut]
      split
      · next hsome =>
        obtain ⟨s, hs'⟩ := Option.isSome_iff_exists.1 hsome
        have hu' : m.view u = some s := by
          rw [view_running hrun, if_neg (Ne.symm hut)]
          exact hs'
        refine h.still u fun s' hs'' => ?_
        rw [hother u s hut hu'] at hs''
        cases hs''
        exact hu s hu'
      · rfl

/-- The lines that a run wrote. -/
def lines (log : List Asked) : List String :=
  log.filterMap fun
    | ⟨.write text, _⟩ => some text
    | _ => none

/-- All that was written was taken. -/
def Accepted (log : List Asked) : Prop := ∀ text a, ⟨.write text, a⟩ ∈ log → a = .ok ()

/-- What lies ahead of `m` is what lies ahead of `m'` and what was asked and given in between. -/
def Traces (last m : Machine) (log : List Asked) (m' : Machine) (E : TaskId → Effects) : Prop :=
  ∃ E' n, Ahead last m E' ∧ m'.stamps = m.stamps + n ∧
    ∑ u ∈ Finset.range m.tasks.size, E' u =
      ((lines log : Multiset String), (List.range' m.stamps n : Multiset Nat)) +
        ∑ u ∈ Finset.range m'.tasks.size, E u

theorem traces_before {E : TaskId → Effects} {δ : Effects} {n : Nat} (ht : t < m.tasks.size)
    (h : Ahead last m (m.before t δ E)) (hn : m'.stamps = m.stamps + n)
    (hs : m'.tasks.size = m.tasks.size)
    (hδ : δ = ((lines log : Multiset String), (List.range' m.stamps n : Multiset Nat))) :
    Traces last m log m' E := by
  refine ⟨_, n, h, hn, ?_⟩
  rw [sum_before m δ E ht, hδ, hs]

theorem Ahead.traces {E : TaskId → Effects} (h : Ahead last m E) (hn : m'.stamps = m.stamps)
    (hs : m'.tasks.size = m.tasks.size) : Traces last m [] m' E := by
  refine ⟨E, 0, h, hn, ?_⟩
  rw [hs]
  exact (zero_add _).symm

/-- Frames that nobody binds anything in lead to the root on the same way. -/
theorem Ahead.chain {E : TaskId → Effects} {f : FrameId} (h : Ahead last m E)
    (hk : m.scope.Keeps p K) (hf : K.frames f) : last.scope.chain f = m.scope.chain f := by
  induction f using Nat.strongRecOn with
  | ind f ih =>
    obtain ⟨frame, hs, hframe⟩ := hk f hf
    have hl : last.scope.frames[f]? = some frame := (h.frames f (hk.lt hf)).trans hs
    cases hp : frame.parent with
    | none => rw [Scope.chain_root hl hp, Scope.chain_root hs hp]
    | some g =>
      by_cases hlt : g < f
      · rw [Scope.chain_child hl hp hlt, Scope.chain_child hs hp hlt,
          ih g hlt (hframe.parent g hp hlt)]
      · rw [Scope.chain_cut hl hp hlt, Scope.chain_cut hs hp hlt]

theorem Ahead.lookup {E : TaskId → Effects} {f : FrameId} (h : Ahead last m E)
    (hk : m.scope.Keeps p K) (hf : K.frames f) (name : String) :
    last.scope.lookup f name = m.scope.lookup f name := by
  rw [Scope.lookup, Scope.lookup, h.chain hk hf]

theorem Ahead.input {E : TaskId → Effects} {f : FrameId} (h : Ahead last m E)
    (hk : m.scope.Keeps p K) (hf : K.frames f) : last.scope.input f = m.scope.input f := by
  rw [Scope.input, Scope.input, h.chain hk hf]

/-- The running task starts another one, and what that does is told with it. -/
theorem Ahead.spawn {E : TaskId → Effects} {l : Location} {job : Job}
    {k : TaskId → Act (Except Failure Next)} {ks : List (Outcome → Act (Except Failure Next))}
    (ho : m.Orderly) (hlt : t < m.tasks.size)
    (hrun : m.running = some (t, ⟨.ask (.spawn l job) k, ks⟩))
    (h : Ahead last ((addTask { m with running := none } (some l) job).2.run t
      ⟨k m.tasks.size, ks⟩) E) :
    Ahead last m (m.before t (E m.tasks.size) E) := by
  have hstand : ∀ u s, m.stand u = some s →
      (addTask { m with running := none } (some l) job).2.stand u = some s := by
    intro u s hu
    rw [stand_addTask, if_neg (Nat.ne_of_lt (stand_lt hu))]
    exact hu
  have hnew : ((addTask { m with running := none } (some l) job).2.run t ⟨k m.tasks.size, ks⟩).view
      m.tasks.size = some ⟨some l, some job.thread, none⟩ := by
    rw [view_run, if_neg (Nat.ne_of_lt hlt), stand_addTask, if_pos rfl]
  obtain ⟨r, hyr, hres⟩ := h.yields m.tasks.size _ job.thread hnew rfl
  exact h.back ho hrun (Nat.le_refl _) (fun _ _ => rfl) hstand fun o hy => .spawn hyr hres hy

/-- One request of the running task, seen from the end. -/
theorem Serves.traces {q : Request} {a : q.Answer} {k : q.Answer → Act (Except Failure Next)}
    {ks : List (Outcome → Act (Except Failure Next))} {E : TaskId → Effects}
    (hs : Serves { m with running := none } t q log a m₁) (ho : m.Orderly)
    (hk : m.Keeps .unbinding K) (hrun : m.running = some (t, ⟨.ask q k, ks⟩))
    {Q : Correspondence → q.Answer → q.Answer → Prop}
    (hq : Request.Alike .unbinding K.itself q q Q) (hlog : Accepted log)
    (h : Ahead last (m₁.run t ⟨k a, ks⟩) E) :
    Traces last m log (m₁.run t ⟨k a, ks⟩) E := by
  obtain ⟨_, task, htask, _⟩ := ho.running t _ hrun
  have hlt : t < m.tasks.size := (Array.getElem?_eq_some_iff.1 htask).1
  have hle := Nat.le_refl m.scope.frames.size
  -- Nothing is bound anew, so the end still holds all that a request found when it was served.
  cases hs with
  | enter f x =>
    have hframe := (h.frames m.scope.frames.size (by simp [Scope.addChild, Scope.add, run])).trans
      Array.getElem?_push_size
    refine traces_before (δ := 0) (n := 0) hlt (h.back ho hrun ?_ (fun f hf => ?_)
      (fun _ _ => id) fun o hy => ?_) rfl rfl rfl
    · simp [Scope.addChild, Scope.add]
    · simp only [Scope.addChild, Scope.add, Array.getElem?_push_lt hf, Array.getElem?_eq_getElem hf]
    · cases hq with
      | enter hf hx =>
        rw [zero_add]
        exact .enter hframe (hk.scope.lt hf.2) hy
  | lookup f name =>
    cases hq with
    | lookup hf =>
      have hl := h.lookup hk.scope hf.2 name
      refine traces_before (δ := 0) (n := 0) hlt (h.back ho hrun hle (fun _ _ => rfl)
        (fun _ _ => id) fun o hy => ?_) rfl rfl rfl
      rw [zero_add]
      exact .lookup (hl ▸ hy)
  | input f =>
    cases hq with
    | input hf =>
      have hi := h.input hk.scope hf.2
      refine traces_before (δ := 0) (n := 0) hlt (h.back ho hrun hle (fun _ _ => rfl)
        (fun _ _ => id) fun o hy => ?_) rfl rfl rfl
      rw [zero_add]
      exact .input (hi ▸ hy)
  | stamp =>
    exact traces_before (δ := .stamp m.stamps) (n := 1) hlt (h.back ho hrun hle (fun _ _ => rfl)
      (fun _ _ => id) fun o hy => .stamp hy) rfl rfl rfl
  | spawn l job =>
    refine ⟨_, 0, Ahead.spawn ho hlt hrun h, rfl, ?_⟩
    have hsize : ((addTask { m with running := none } (some l) job).2.run t
        ⟨k (addTask { m with running := none } (some l) job).1, ks⟩).tasks.size =
        m.tasks.size + 1 := Array.size_push ..
    rw [sum_before m _ E hlt, hsize, Finset.sum_range_succ, add_comm (E m.tasks.size)]
    exact (zero_add _).symm
  | @await target r _ hr =>
    cases hq with
    | await ht =>
      have ho₀ : Orderly { m with running := none } := ho.idle
      have hread := ho₀.reads_readCell hr
      obtain ⟨s, l, hs, _⟩ := hk.tasks target ht.2
      have hfound : s.result = some r := hread.found s r hs rfl
      have hlast : last.result? target = some r := by
        by_cases he : t = target
        · refine h.results target { s with thread := some ⟨k r, ks⟩ } r ?_ hfound
          rw [view_run, if_pos he, hread.stand target]
          exact congrArg _ hs
        · refine h.results target s r ?_ hfound
          rw [view_run, if_neg he, hread.stand target]
          exact hs
      refine traces_before (δ := 0) (n := 0) hlt (h.back ho hrun (hread.scope ▸ hle)
        (fun _ _ => by rw [hread.scope]) (fun u s hu => (hread.stand u).trans hu)
        fun o hy => ?_) hread.stamps hread.size rfl
      rw [zero_add]
      exact .await hlast hy
  | note n =>
    refine traces_before (δ := 0) (n := 0) hlt (h.back ho hrun hle (fun _ _ => rfl)
      (fun _ _ => id) fun o hy => ?_) rfl rfl rfl
    rw [zero_add]
    exact .note hy
  | write text a =>
    cases hlog text a (List.mem_singleton.2 rfl)
    exact traces_before (δ := .line text) (n := 0) hlt (h.back ho hrun hle (fun _ _ => rfl)
      (fun _ _ => id) fun o hy => .write hy) rfl rfl rfl
  | declare | rebind | moduleDirectory | enterModule | settings | cached | granted | countParse
  | publish | giveUp | workingDirectory | firstFile | word =>
    cases hq
    contradiction

/-- The running task ends. -/
theorem ahead_finish {E : TaskId → Effects} {o : Outcome} (ho : m.Orderly)
    (hrun : m.running = some (t, θ)) (hθ : θ.Over o)
    (h : Ahead last (finish { m with running := none } t o) E) : Ahead last m E := by
  obtain ⟨s₀, hstand, hres, hview⟩ := ho.view_self hrun
  obtain ⟨tasks, ready, he⟩ := finish_eq { m with running := none } t o
  have hidle : (finish { m with running := none } t o).running = none := by rw [he]
  have hscope : (finish { m with running := none } t o).scope = m.scope := by rw [he]
  have hended : (finish { m with running := none } t o).view t =
      some ⟨s₀.origin, none, some (s₀.close o)⟩ := by
    rw [view_idle hidle, stand_finish, if_pos rfl]
    exact congrArg (Option.map _) hstand
  have hother : ∀ u, u ≠ t → (finish { m with running := none } t o).view u = m.view u := by
    intro u hut
    rw [view_idle hidle, stand_finish, if_neg (Ne.symm hut), view_running hrun,
      if_neg (Ne.symm hut)]
    rfl
  refine ⟨fun f hf => ?_, fun u s o' hu ho' => ?_, fun u s θ' hu hθ' => ?_, fun u hu => ?_⟩
  · rw [← hscope] at hf ⊢
    exact h.frames f hf
  · by_cases hut : u = t
    · subst hut
      rw [hview] at hu
      cases hu
      cases hres.symm.trans ho'
    · exact h.results u s o' ((hother u hut).trans hu) ho'
  · by_cases hut : u = t
    · subst hut
      rw [hview] at hu
      cases hu
      cases hθ'
      have hE : E u = 0 := h.still u fun s' hs' => by
        rw [hended] at hs'
        cases hs'
        rfl
      rw [hE]
      exact ⟨o, .done hθ, h.results u _ _ hended rfl⟩
    · exact h.yields u s θ' ((hother u hut).trans hu) hθ'
  · by_cases hut : u = t
    · subst hut
      cases hu _ hview
    · exact h.still u fun s hs => hu s ((hother u hut).symm.trans hs)

theorem view_resume (hm : m.running = none) (u : TaskId) : (m.resume t).view u = m.view u := by
  obtain he | ⟨s, θ, m₁, hs, hθ, he, rfl⟩ := m.resume_cases t
  · rw [he]
  · rw [he, view_run, view_idle hm]
    rw [stand_onTask (g := ({ · with thread := none })) (fun _ _ => rfl)]
    split
    · next htu =>
      subst htu
      rw [hs]
      obtain ⟨origin, thread, result⟩ := s
      cases hθ
      rfl
    · rfl

/-- A move of the running task, seen from the end. -/
theorem Goes.traces {E : TaskId → Effects} (hg : Goes { m with running := none } t θ log m')
    (ho : m.Orderly) (hk : m.Keeps .unbinding K) (hrun : m.running = some (t, θ))
    (hlog : Accepted log) (h : Ahead last m' E) :
    Traces last m log m' E ∧ m'.reading = m.reading := by
  obtain ⟨_, task, htask, _⟩ := ho.running t θ hrun
  have hlt : t < m.tasks.size := (Array.getElem?_eq_some_iff.1 htask).1
  obtain ⟨program, _, hθ⟩ := hk.running t θ hrun
  cases hg with
  | turns ht =>
    refine ⟨traces_before (δ := 0) (n := 0) hlt (h.back ho hrun (Nat.le_refl _) (fun _ _ => rfl)
      (fun _ _ => id) fun o hy => ?_) rfl rfl rfl, rfl⟩
    rw [zero_add]
    exact .turns ht hy
  | served hs =>
    obtain ⟨_, _, _, _, he, hq, _⟩ := hθ.asks
    cases he
    exact ⟨hs.traces ho hk hrun hq hlog h, hs.reading⟩
  | @awaits target k ks m₂ hr =>
    have ho₀ : Orderly { m with running := none } := ho.idle
    have hread := ho₀.reads_readCell hr
    refine ⟨Ahead.traces (h.congr hread.scope.symm fun u => ?_) hread.stamps
      (Array.size_modify.trans hread.size), hread.reading⟩
    rw [view_running hrun, view_idle (m := m₂.suspend t _) hread.running, stand_suspend,
      hread.stand u]
    rfl
  | claims | reads =>
    obtain ⟨_, _, _, _, he, hq, _⟩ := hθ.asks
    cases he
    cases hq
    contradiction
  | givesWay =>
    obtain ⟨_, _, _, _, he, hq, _⟩ := hθ.asks
    cases he
    cases hq
  | @ends _ o hover =>
    obtain ⟨tasks, ready, he⟩ := finish_eq { m with running := none } t o
    refine ⟨Ahead.traces (ahead_finish ho hrun hover h) ?_ (size_finish _ t o), ?_⟩
    · rw [he]
    · rw [he]

/-- A move, seen from the end. -/
theorem Change.traces {E : TaskId → Effects} (hc : m.Change log m') (ho : m.Orderly)
    (hk : m.Keeps .unbinding K) (hread : m.reading = []) (hlog : Accepted log)
    (h : Ahead last m' E) : Traces last m log m' E := by
  cases hc with
  | goes hrun hg => exact (hg.traces ho hk hrun hlog h).1
  | @take t front back ready hrun _ _ =>
    obtain ⟨tasks, running, he, hsize⟩ := resume_eq { m with ready } t
    refine Ahead.traces (h.congr ?_ fun u => ?_) ?_ ?_
    · rw [he]
    · exact (view_resume (m := { m with ready }) hrun u).symm
    · rw [he]
    · rw [he]
      exact hsize
  | read a _ hm =>
    rw [hread] at hm
    simp at hm

theorem Change.reading (hc : m.Change log m') (hk : m.Keeps .unbinding K) (hread : m.reading = []) :
    m'.reading = [] := by
  cases hc with
  | @goes t θ _ _ hrun hg =>
    obtain ⟨program, _, hθ⟩ := hk.running t θ hrun
    cases hg with
    | turns _ => exact hread
    | served hs => exact hs.reading.trans hread
    | awaits hr =>
      obtain ⟨tasks, ready, rfl⟩ := readCell_eq hr
      exact hread
    | claims _ => exact hread
    | givesWay => exact hread
    | reads =>
      obtain ⟨_, _, _, _, he, hq, _⟩ := hθ.asks
      cases he
      cases hq
      contradiction
    | @ends _ o _ =>
      obtain ⟨tasks, ready, he⟩ := finish_eq { m with running := none } t o
      rw [he]
      exact hread
  | @take t _ _ ready _ _ _ =>
    obtain ⟨tasks, running, he, _⟩ := resume_eq { m with ready } t
    rw [he]
    exact hread
  | read a _ hm =>
    rw [hread] at hm
    simp at hm

/-- Nothing is asked that the surroundings could answer in two ways. -/
theorem Change.admits (hc : m.Change log m') (hk : m.Keeps .unbinding K) (hread : m.reading = []) :
    ∀ x ∈ log, Terms.unbinding.AdmitsAnswer K x := by
  cases hc with
  | @goes t θ _ _ hrun hg =>
    obtain ⟨program, _, hθ⟩ := hk.running t θ hrun
    cases hg with
    | served hs =>
      obtain ⟨_, _, _, _, he, hq, _⟩ := hθ.asks
      cases he
      cases hs with
      | workingDirectory | firstFile | write =>
        intro x hx
        cases List.mem_singleton.1 hx
        trivial
      | word =>
        cases hq
        contradiction
      | _ => exact fun x hx => absurd hx List.not_mem_nil
    | _ => exact fun x hx => absurd hx List.not_mem_nil
  | take => exact fun x hx => absurd hx List.not_mem_nil
  | read a _ hm =>
    rw [hread] at hm
    simp at hm

theorem Ended.thread {s : Stand} (he : m.Ended) (ho : m.Orderly) (hs : m.view u = some s) :
    s.thread = none := by
  rw [view_idle (he.running ho)] at hs
  obtain ⟨task, ht, rfl⟩ := Option.map_eq_some_iff.1 hs
  exact he.aside ho ht

theorem Ended.ahead (he : m.Ended) (ho : m.Orderly) : Ahead m m fun _ => 0 := by
  refine ⟨fun _ _ => rfl, fun u s o hs hr => ?_, fun u s θ hs hθ => ?_, fun _ _ => rfl⟩
  · rw [view_idle (he.running ho)] at hs
    rw [result?_eq, hs]
    exact hr
  · rw [he.thread ho hs] at hθ
    cases hθ

/-- A run, seen from its end: each task yields what it came to, and the effects of all tasks, put
together, are those of the run. -/
theorem ahead_runs (hr : Runs m log last) (ho : m.Orderly) (hk : m.Keeps .unbinding K)
    (hread : m.reading = []) (hend : last.Ended) (hlog : Accepted log) :
    ∃ E n, Ahead last m E ∧ last.stamps = m.stamps + n ∧
      ∑ u ∈ Finset.range m.tasks.size, E u =
        ((lines log : Multiset String), (List.range' m.stamps n : Multiset Nat)) := by
  induction hr generalizing K with
  | refl m => exact ⟨fun _ => 0, 0, hend.ahead ho, rfl, Finset.sum_const_zero⟩
  | @head m m₁ last log log' hm _ ih =>
    have hc := hm.change
    obtain ⟨L, _, hk₁⟩ := hk.change ho hc (hc.admits hk hread)
    obtain ⟨E, n, h, hn, hsum⟩ := ih (ho.change hc) hk₁ (hc.reading hk hread) hend
      fun text a ha => hlog text a (List.mem_append_right _ ha)
    obtain ⟨E', n', h', hn', hsum'⟩ := hc.traces ho hk hread
      (fun text a ha => hlog text a (List.mem_append_left _ ha)) h
    refine ⟨E', n' + n, h', by rw [hn, hn', Nat.add_assoc], ?_⟩
    rw [hsum', hsum, hn', ← List.range'_append_1]
    simp only [lines, List.filterMap_append, Prod.mk_add_mk, Multiset.coe_add]

end Machine

end Concatenative
