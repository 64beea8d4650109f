import Concatenative.Proofs.Calm

/-! Machines without what can not be come upon. Sweeping a machine that is at rest empties the frames
that no program can come upon and forgets what such tasks came to. Main statements: all that can be come
upon stays (`matched_swept`), and where that is calm, all that is left is calm (`proper_swept`). -/
namespace Concatenative

open Session (root)

/-- The cell of a task that came to nothing and that nobody has read. -/
def Cell.spent : Cell := { result := some (.ok .none) }

theorem Cell.spent_quiet : Cell.spent.Quiet := ⟨rfl, rfl, nofun, .inr ⟨rfl, rfl⟩⟩

namespace Machine

variable {m : Machine} {f : FrameId} {t : TaskId}

/-- All closures that can be come upon are of calm code. -/
def Calm (m : Machine) : Prop := ∀ h, m.LeadsTo h → ∀ d ∈ m.held h, ∀ c ∈ d.closures, c.1.Calm

open Classical in
/-- The machine without what can not be come upon. -/
noncomputable def swept (m : Machine) : Machine :=
  { m with
    scope := ⟨m.scope.frames.mapIdx fun f frame =>
      if m.LeadsTo (.frame f) then frame else { frame with bindings := [], input := none }⟩
    tasks := m.tasks.mapIdx fun t task =>
      if m.LeadsTo (.task t) then task else { task with cell := .spent } }

theorem size_frames_swept (m : Machine) : m.swept.scope.frames.size = m.scope.frames.size :=
  Array.size_mapIdx

theorem size_tasks_swept (m : Machine) : m.swept.tasks.size = m.tasks.size := Array.size_mapIdx

theorem swept_frame (h : m.LeadsTo (.frame f)) :
    m.swept.scope.frames[f]? = m.scope.frames[f]? := by
  simp only [swept, Array.getElem?_mapIdx, h, if_true, Option.map_id']

theorem swept_task (h : m.LeadsTo (.task t)) : m.swept.tasks[t]? = m.tasks[t]? := by
  simp only [swept, Array.getElem?_mapIdx, h, if_true, Option.map_id']

/-- What is left of a frame. -/
theorem swept_frame_cases {frame : Frame} (h : m.swept.scope.frames[f]? = some frame) :
    (m.LeadsTo (.frame f) ∧ m.scope.frames[f]? = some frame) ∨
      frame.bindings = [] ∧ frame.input = none := by
  by_cases hl : m.LeadsTo (.frame f)
  · exact .inl ⟨hl, swept_frame hl ▸ h⟩
  · simp only [swept, Array.getElem?_mapIdx, hl, if_false] at h
    obtain ⟨_, _, rfl⟩ := Option.map_eq_some_iff.1 h
    exact .inr ⟨rfl, rfl⟩

/-- What is left of a task. -/
theorem swept_task_cases {task : Task} (h : m.swept.tasks[t]? = some task) :
    ∃ old, m.tasks[t]? = some old ∧ task.thread = old.thread ∧
      (m.LeadsTo (.task t) ∧ task = old ∨ task.cell = .spent) := by
  by_cases hl : m.LeadsTo (.task t)
  · exact ⟨task, swept_task hl ▸ h, rfl, .inl ⟨hl, rfl⟩⟩
  · simp only [swept, Array.getElem?_mapIdx, hl, if_false] at h
    obtain ⟨old, ho, rfl⟩ := Option.map_eq_some_iff.1 h
    exact ⟨old, ho, rfl, .inr rfl⟩

theorem AtRest.swept (h : m.AtRest) : m.swept.AtRest := by
  refine ⟨h.running, h.ready, h.reading, fun u task hu => ?_, h.library⟩
  obtain ⟨old, hold, hthread, hcell⟩ := swept_task_cases hu
  refine ⟨hthread.trans (h.tasks u old hold).1, ?_⟩
  rcases hcell with ⟨_, rfl⟩ | hcell
  · exact (h.tasks u task hold).2
  · exact hcell ▸ Cell.spent_quiet

/-- Sweeping keeps all that can be come upon, and calm code does not refer to modules. -/
theorem matched_swept (h : m.Matched .anything m.names m) (hquiet : m.library.Quiet) (hc : m.Calm) :
    m.Matched .unloading m.names m.swept := by
  have hid := m.names_isIdentity
  have hn : Terms.anything.Narrows .unloading m.names m.names := ⟨fun _ _ => id, fun _ => id, id⟩
  refine h.closed.matched hid hn (fun x hl d hd c hcl => (hc x hl d hd c hcl).fits) (fun f hl => ?_)
    (fun t hl => ?_) (Nat.le_refl _) rfl hquiet
  · obtain ⟨frame, frame', hs, hs', ht⟩ := h.scope f f ⟨rfl, hl⟩
    exact ⟨frame, hs, (swept_frame hl).trans hs, ht.above⟩
  · obtain ⟨task, task', ht, ht', ⟨l, hp, ho, _⟩, _⟩ := h.tasks t t ⟨rfl, hl⟩
    exact ⟨task, task, ht, (swept_task hl).trans ht, ⟨l, hp, ho, ho⟩, rfl⟩

end Machine

/-- Calm code in all frames. -/
def Provenance.calm : Provenance := ⟨fun _ => True, fun _ b => b.Calm, fun _ _ => True⟩

theorem Provenance.knows_calm {cs : List Anchored} (h : ∀ c ∈ cs, c.1.Calm) :
    Provenance.calm.Knows cs := fun c hc => ⟨trivial, fun _ hb => (h c hc).part hb⟩

namespace Machine

variable {m : Machine}

/-- What is left of a machine that is calm as far as one can come upon it is known to be calm. -/
theorem proper_swept (hrest : m.AtRest) (hc : m.Calm) : m.swept.Proper [] .calm := by
  refine ⟨fun f frame hf => ?_, fun p b _ part _ => trivial, fun u s θ hu hθ => ?_,
    fun u s o hu ho => ?_, fun u θ hu => ?_, fun r hr => ?_, fun _ _ => rfl⟩
  · rcases swept_frame_cases hf with ⟨hl, hold⟩ | ⟨hb, hi⟩
    · refine Provenance.knows_calm fun c hcl => ?_
      rcases List.mem_append.1 hcl with hcl | hcl
      · obtain ⟨b, hb, hcl⟩ := List.mem_flatMap.1 hcl
        exact hc _ hl b.2 ((mem_held_frame hold).2 (.inl ⟨b, hb, rfl⟩)) c hcl
      · cases hin : frame.input with
        | none =>
          rw [hin] at hcl
          cases hcl
        | some d =>
          rw [hin] at hcl
          exact hc _ hl d ((mem_held_frame hold).2 (.inr hin)) c hcl
    · rw [Frame.closures, hb, hi]
      exact Provenance.knows_nil _
  · obtain ⟨task, htask, rfl⟩ := Option.map_eq_some_iff.1 hu
    cases (hrest.swept.tasks u task htask).1.symm.trans hθ
  · obtain ⟨task, htask, rfl⟩ := Option.map_eq_some_iff.1 hu
    obtain ⟨old, hold, _, ⟨hl, rfl⟩ | hcell⟩ := swept_task_cases htask
    · refine Provenance.knows_calm fun c hcl => ?_
      have hres : m.result? u = some o := by
        rw [Machine.result?, hold]
        exact ho
      refine hc _ hl (.ofOutcome o) (by rw [held_task hres]; exact List.mem_singleton.2 rfl) c ?_
      cases o with
      | ok v => exact hcl
      | error e => cases hcl
    · have hnone : task.cell.result = some o := ho
      rw [hcell] at hnone
      cases hnone
      exact Provenance.knows_nil _
  · cases hrest.running.symm.trans hu
  · rw [hrest.swept.reading] at hr
    cases hr

end Machine

end Concatenative
