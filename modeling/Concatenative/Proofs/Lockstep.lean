import Concatenative.Proofs.Blame
import Concatenative.Proofs.Correspondence.State
import Concatenative.Proofs.Scoping

/-! Machines that go on in step. Two machines that hold the same but for names, as far as the names of a
correspondence lead, do the same in each step: whatever else one of them holds is never come upon. Each
step may make a name on both sides, and the two come to stand for one another. Main statement: machines
that are abreast stay so, and write the same (`Abreast.runAll`). -/
namespace Concatenative

variable {p : Terms} {ρ σ : Correspondence}

/-! ## Machines -/

/-- Tasks that were started in the same way and stand at the same. Failures blame the place where a task
was started, or else it runs a program. -/
structure Task.Alike (p : Terms) (ρ : Correspondence) (program : Bool) (task task' : Task) : Prop where
  origin : task'.origin = task.origin
  started : ∀ l, task.origin = some l → p.places l
  thread : Option.Rel (Thread.Alike p program ρ) task.thread task'.thread
  main : task.origin = none → program = true
  cell : Cell.Alike p ρ task.cell task'.cell

/-- Tasks that wait for the same file and go on alike with what it holds. -/
structure Reading.Alike (p : Terms) (main : TaskId) (ρ : Correspondence) (r r' : Reading) : Prop where
  loads : p.loads
  task : ρ.tasks r.task r'.task
  path : r'.path = r.path
  resume : ∀ a, (∀ text, a = .ok text → p.Admits r.path.text text) →
    Thread.Alike p (r.task = main) ρ (r.resume a) (r'.resume a)

namespace Machine

/-- Names that correspond were made before, and those that are made next are to correspond. -/
structure Paired (φ ρ : Correspondence) (m m' : Machine) : Prop where
  ordered : φ.Ordered
  within : ρ ≤ φ
  made : ∀ a a', ρ.stamps a a' → a < m.stamps ∧ a' < m'.stamps
  frames : ∀ n, φ.frames (m.scope.frames.size + n) (m'.scope.frames.size + n)
  tasks : ∀ n, φ.tasks (m.tasks.size + n) (m'.tasks.size + n)
  stamps : ∀ n, φ.stamps (m.stamps + n) (m'.stamps + n)

/-- Machines that hold the same as far as `ρ` leads; what they make next is to correspond by `φ`, and
`main` runs the program. -/
structure Abreast (p : Terms) (φ : Correspondence) (main : TaskId) (ρ : Correspondence)
    (m m' : Machine) : Prop where
  paired : m.Paired φ ρ m'
  scope : Scope.Twins p ρ m.scope m'.scope
  library : Library.Alike ρ m.library m'.library
  tasks : ∀ t t', ρ.tasks t t' → ∃ task task', m.tasks[t]? = some task ∧
    m'.tasks[t']? = some task' ∧ Task.Alike p ρ (t = main) task task'
  running : Option.Rel (fun x x' => ρ.tasks x.1 x'.1 ∧ Thread.Alike p (x.1 = main) ρ x.2 x'.2)
    m.running m'.running
  ready : List.Forall₂ ρ.tasks m.ready.toList m'.ready.toList
  reading : List.Forall₂ (Reading.Alike p main ρ) m.reading m'.reading

/-- Machines that stay abreast, with more names that correspond. -/
def Onward (p : Terms) (φ : Correspondence) (main : TaskId) (ρ : Correspondence)
    (m m' : Machine) : Prop := ∃ σ, ρ ≤ σ ∧ m.Abreast p φ main σ m'

end Machine

theorem Task.Alike.mono {program : Bool} {task task' : Task} (h : ρ ≤ σ)
    (ht : Task.Alike p ρ program task task') : Task.Alike p σ program task task' :=
  ⟨ht.origin, ht.started, optionRel_imp (fun _ _ => Thread.Alike.mono h) ht.thread, ht.main,
    ht.cell.mono h⟩

/-- A failure is blamed alike where a task was started and where its double was. -/
theorem Task.Alike.settles {program : Bool} {task task' : Task} {o o' : Outcome}
    (hv : Task.Alike p ρ program task task')
    (hoo : Matches (p.blame program) (Value.Alike p ρ) o o') :
    Outcome.Settles p ρ
      (match task.origin with
        | some l => o.orAt l
        | none => o)
      (match task'.origin with
        | some l => o'.orAt l
        | none => o') := by
  rw [hv.origin]
  cases horigin : task.origin with
  | none =>
    rw [hv.main horigin] at hoo
    exact hoo
  | some l =>
    refine Machine.settles_orAt (hv.started l horigin) (hoo.imp (fun e he => ?_) fun _ _ => id)
    cases program with
    | false => exact he
    | true => exact Failure.Blamed.placed he

theorem Reading.Alike.mono {main : TaskId} {r r' : Reading} (h : ρ ≤ σ)
    (hr : Reading.Alike p main ρ r r') : Reading.Alike p main σ r r' :=
  ⟨hr.loads, h.2.2 _ _ hr.task, hr.path, fun a ha => (hr.resume a ha).mono h⟩

namespace Machine

variable {φ : Correspondence} {main : TaskId} {m m' m₁ m₁' : Machine} {t t' u u' : TaskId}
  {θ θ' : Thread}

theorem Paired.congr (h : m.Paired φ ρ m')
    (hf : m₁.scope.frames.size = m.scope.frames.size) (ht : m₁.tasks.size = m.tasks.size)
    (hs : m₁.stamps = m.stamps) (hf' : m₁'.scope.frames.size = m'.scope.frames.size)
    (ht' : m₁'.tasks.size = m'.tasks.size) (hs' : m₁'.stamps = m'.stamps) : m₁.Paired φ ρ m₁' := by
  refine ⟨h.ordered, h.within, ?_, ?_, ?_, ?_⟩
  · rw [hs, hs']; exact h.made
  · rw [hf, hf']; exact h.frames
  · rw [ht, ht']; exact h.tasks
  · rw [hs, hs']; exact h.stamps

namespace Abreast

variable (h : m.Abreast p φ main ρ m')

include h

theorem ordered : ρ.Ordered := h.paired.ordered.anti h.paired.within

theorem onward : m.Onward p φ main ρ m' := ⟨ρ, Correspondence.le_refl ρ, h⟩

theorem task_lt (ht : ρ.tasks t t') : t < m.tasks.size ∧ t' < m'.tasks.size := by
  obtain ⟨task, task', hm, hm', _⟩ := h.tasks t t' ht
  exact ⟨(Array.getElem?_eq_some_iff.1 hm).1, (Array.getElem?_eq_some_iff.1 hm').1⟩

theorem idle : Abreast p φ main ρ { m with running := none } { m' with running := none } :=
  { h with running := .none, paired := h.paired.congr rfl rfl rfl rfl rfl rfl }

theorem run (ht : ρ.tasks t t') (hθ : Thread.Alike p (t = main) ρ θ θ') :
    (m.run t θ).Abreast p φ main ρ (m'.run t' θ') :=
  { h with running := .some ⟨ht, hθ⟩, paired := h.paired.congr rfl rfl rfl rfl rfl rfl }

theorem withReady {ready ready' : Queue TaskId}
    (hr : List.Forall₂ ρ.tasks ready.toList ready'.toList) :
    Abreast p φ main ρ { m with ready } { m' with ready := ready' } :=
  { h with ready := hr, paired := h.paired.congr rfl rfl rfl rfl rfl rfl }

theorem withLibrary {library library' : Library} (hl : Library.Alike ρ library library') :
    Abreast p φ main ρ { m with library } { m' with library := library' } :=
  { h with library := hl, paired := h.paired.congr rfl rfl rfl rfl rfl rfl }

/-- The frames change but none is made. -/
theorem withScope {scope scope' : Scope} (hs : Scope.Twins p ρ scope scope')
    (hf : scope.frames.size = m.scope.frames.size)
    (hf' : scope'.frames.size = m'.scope.frames.size) :
    Abreast p φ main ρ { m with scope } { m' with scope := scope' } :=
  { h with scope := hs, paired := h.paired.congr hf rfl rfl hf' rfl rfl }

theorem wake {x x' : Option TaskId} (hx : Option.Rel ρ.tasks x x') :
    (m.wake x).Abreast p φ main ρ (m'.wake x') := by
  cases hx with
  | none => exact h
  | some ht =>
    refine h.withReady ?_
    rw [Queue.toList_push, Queue.toList_push]
    exact List.rel_append h.ready (.cons ht .nil)

/-- The same change of tasks that correspond. -/
theorem onTask (ht : ρ.tasks t t') {f f' : Task → Task}
    (hf : ∀ task task', m.tasks[t]? = some task → m'.tasks[t']? = some task' →
      Task.Alike p ρ (t = main) task task' → Task.Alike p ρ (t = main) (f task) (f' task')) :
    (m.onTask t f).Abreast p φ main ρ (m'.onTask t' f') := by
  refine { h with
    tasks := fun v v' hv => ?_
    paired := h.paired.congr rfl Array.size_modify rfl rfl Array.size_modify rfl }
  obtain ⟨task, task', hm, hm', hv'⟩ := h.tasks v v' hv
  simp only [Machine.onTask, Array.getElem?_modify, hm, hm', h.ordered.tasks ht hv]
  split
  · next he =>
    subst he
    have htv := (h.ordered.tasks ht hv).2 rfl
    subst htv
    exact ⟨f task, f' task', rfl, rfl, hf task task' hm hm' hv'⟩
  · exact ⟨task, task', rfl, rfl, hv'⟩

theorem suspend (ht : ρ.tasks t t') (hθ : Thread.Alike p (t = main) ρ θ θ') :
    (m.suspend t θ).Abreast p φ main ρ (m'.suspend t' θ') :=
  h.onTask ht fun _ _ _ _ hv => { hv with thread := .some hθ }

theorem resume (ht : ρ.tasks t t') : (m.resume t).Abreast p φ main ρ (m'.resume t') := by
  obtain ⟨task, task', hm, hm', hv⟩ := h.tasks t t' ht
  have hthread := hv.thread
  unfold Machine.resume
  rw [hm, hm', Option.bind_some, Option.bind_some]
  generalize task.thread = x at hthread
  generalize task'.thread = x' at hthread
  cases hthread with
  | none => exact h
  | some hθ =>
    have htaken : (m.onTask t ({ · with thread := none })).Abreast p φ main ρ
        (m'.onTask t' ({ · with thread := none })) :=
      h.onTask ht fun _ _ _ _ hv => { hv with thread := .none }
    exact htaken.run ht hθ

/-- What a task came to is the same, and read in the same way. -/
theorem readCell (ho : m.Orderly) (ht : ρ.tasks t t') (hu : ρ.tasks u u') :
    Option.Rel (Outcome.Settles p ρ) (m.readCell t u).1 (m'.readCell t' u').1 ∧
      (m.readCell t u).2.Abreast p φ main ρ (m'.readCell t' u').2 := by
  obtain ⟨task, task', hm, hm', hv⟩ := h.tasks u u' hu
  have hread := hv.cell.read h.ordered (ho.sound u task hm) ht
  simp only [Machine.readCell, hm, hm']
  refine ⟨hread.outcome, Abreast.wake (h.onTask hu fun _ _ _ _ hv => ?_) hread.woken⟩
  exact { hv with cell := hread.cell }

/-- Tasks end alike. -/
theorem finish {o o' : Outcome} (hf : m.Free t) (ht : ρ.tasks t t')
    (hoo : Matches (p.blame (t = main)) (Value.Alike p ρ) o o') :
    (m.finish t o).Abreast p φ main ρ (m'.finish t' o') := by
  obtain ⟨task, task', hm, hm', hv⟩ := h.tasks t t' ht
  obtain ⟨_, task₀, hm₀, _, hn⟩ := hf
  cases hm.symm.trans hm₀
  obtain ⟨hcell, hwoken⟩ := hv.cell.finish hn (hv.settles hoo)
  simp only [Machine.finish, hm, hm']
  refine Abreast.wake (h.onTask ht fun task₁ task₁' h₁ h₁' hv => ?_) hwoken
  cases hm.symm.trans h₁
  cases hm'.symm.trans h₁'
  exact { hv with thread := .none, cell := hcell }

/-! ### New names -/

/-- A frame is made on both sides. -/
theorem addFrame (frame frame' : Frame) (hrun : m.running = none) (hrun' : m'.running = none)
    (hf : Frame.Holds p ρ frame frame')
    (hparent : Option.Rel ρ.frames frame.parent frame'.parent)
    (hpath : frame'.modulePath = frame.modulePath) (hlib : frame'.library = frame.library) :
    ρ ≤ ρ.withFrame m.scope.frames.size m'.scope.frames.size ∧
      Abreast p φ main (ρ.withFrame m.scope.frames.size m'.scope.frames.size)
        { m with scope := (m.scope.add frame).2 } { m' with scope := (m'.scope.add frame').2 } := by
  have hle := ρ.le_withFrame m.scope.frames.size m'.scope.frames.size
  have htwins : Frame.Twins p ρ m.scope.frames.size m'.scope.frames.size frame frame' := by
    refine { hf with parent := ?_, modulePath := hpath, library := hlib, above := fun g hg => ?_ }
    · refine optionRel_imp (fun g g' hg => ?_) hparent
      obtain ⟨hlt, hlt'⟩ := h.scope.lt hg
      exact ⟨iff_of_true hlt hlt', fun _ => hg⟩
    · rw [hg] at hparent
      generalize frame'.parent = x' at hparent
      cases hparent with
      | some hg => exact (h.scope.lt hg).1
  refine ⟨hle, ⟨⟨h.paired.ordered, ?_, h.paired.made, ?_, h.paired.tasks, h.paired.stamps⟩,
    h.scope.add hle rfl (htwins.mono hle), h.library.mono hle, fun t t' ht => ?_, ?_, h.ready,
    h.reading.imp fun _ _ => Reading.Alike.mono hle⟩⟩
  · refine ⟨h.paired.within.1, ?_, h.paired.within.2.2⟩
    rintro g g' (hg | ⟨rfl, rfl⟩)
    · exact h.paired.within.2.1 g g' hg
    · exact h.paired.frames 0
  · intro n
    simp only [Scope.add, Array.size_push]
    rw [Nat.add_right_comm, Nat.add_right_comm (m'.scope.frames.size)]
    exact h.paired.frames (n + 1)
  · obtain ⟨task, task', hm, hm', hv⟩ := h.tasks t t' ht
    exact ⟨task, task', hm, hm', hv.mono hle⟩
  · simp only [hrun, hrun']
    exact .none

/-- A stamp is given on both sides. -/
theorem addStamp (hrun : m.running = none) (hrun' : m'.running = none) :
    ∃ σ, ρ ≤ σ ∧ σ.stamps m.stamps m'.stamps ∧ Abreast p φ main σ
      { m with stamps := m.stamps + 1 } { m' with stamps := m'.stamps + 1 } := by
  have hnew : ∀ b b', ρ.stamps b b' → b ≠ m.stamps ∧ b' ≠ m'.stamps := fun b b' hb =>
    ⟨Nat.ne_of_lt (h.paired.made b b' hb).1, Nat.ne_of_lt (h.paired.made b b' hb).2⟩
  have hle := ρ.le_withStamp _ _ hnew
  refine ⟨_, hle, .inr ⟨rfl, rfl⟩, ⟨⟨h.paired.ordered, ?_, ?_, h.paired.frames, h.paired.tasks, ?_⟩,
    h.scope.mono hle rfl, h.library.mono hle, fun t t' ht => ?_, ?_, h.ready,
    h.reading.imp fun _ _ => Reading.Alike.mono hle⟩⟩
  · refine ⟨?_, h.paired.within.2⟩
    rintro a a' (ha | ⟨rfl, rfl⟩)
    · exact h.paired.within.1 a a' ha
    · exact h.paired.stamps 0
  · rintro a a' (ha | ⟨rfl, rfl⟩)
    · obtain ⟨hlt, hlt'⟩ := h.paired.made a a' ha
      exact ⟨Nat.lt_succ_of_lt hlt, Nat.lt_succ_of_lt hlt'⟩
    · exact ⟨Nat.lt_succ_self _, Nat.lt_succ_self _⟩
  · intro n
    dsimp only
    rw [Nat.add_right_comm, Nat.add_right_comm m'.stamps]
    exact h.paired.stamps (n + 1)
  · obtain ⟨task, task', hm, hm', hv⟩ := h.tasks t t' ht
    exact ⟨task, task', hm, hm', hv.mono hle⟩
  · simp only [hrun, hrun']
    exact .none

/-- A task is started on both sides. -/
theorem addTask (origin : Option Location) (hrun : m.running = none) (hrun' : m'.running = none)
    {job job' : Job} (hj : job.Alike p ρ job') (hplace : ∀ l, origin = some l → p.places l)
    (hmain : origin = none → m.tasks.size = main)
    (hprogram : m.tasks.size = main → job.isProgram = true) :
    ρ ≤ ρ.withTask m.tasks.size m'.tasks.size ∧
      (m.addTask origin job).2.Abreast p φ main (ρ.withTask m.tasks.size m'.tasks.size)
        (m'.addTask origin job').2 := by
  have hle := ρ.le_withTask m.tasks.size m'.tasks.size
  rw [addTask_eq, addTask_eq]
  refine ⟨hle, ⟨⟨h.paired.ordered, ?_, h.paired.made, h.paired.frames, ?_, h.paired.stamps⟩,
    h.scope.mono hle rfl, h.library.mono hle, ?_, ?_, ?_,
    h.reading.imp fun _ _ => Reading.Alike.mono hle⟩⟩
  · refine ⟨h.paired.within.1, h.paired.within.2.1, ?_⟩
    rintro t t' (ht | ⟨rfl, rfl⟩)
    · exact h.paired.within.2.2 t t' ht
    · exact h.paired.tasks 0
  · intro n
    simp only [Array.size_push]
    rw [Nat.add_right_comm, Nat.add_right_comm m'.tasks.size]
    exact h.paired.tasks (n + 1)
  · rintro t t' (ht | ⟨rfl, rfl⟩)
    · obtain ⟨task, task', hm, hm', hv⟩ := h.tasks t t' ht
      obtain ⟨hlt, hlt'⟩ := h.task_lt ht
      refine ⟨task, task', ?_, ?_, hv.mono hle⟩
      · rw [Array.getElem?_push_lt hlt, ← hm, Array.getElem?_eq_getElem hlt]
      · rw [Array.getElem?_push_lt hlt', ← hm', Array.getElem?_eq_getElem hlt']
    · refine ⟨_, _, Array.getElem?_push_size, Array.getElem?_push_size, rfl, hplace, .some ?_,
        fun hn => decide_eq_true (hmain hn), .parallel Cell.parallel_new⟩
      exact Thread.alike_job (hj.mono hle) fun he => hprogram (of_decide_eq_true he)
  · simp only [hrun, hrun']
    exact .none
  · rw [Queue.toList_push, Queue.toList_push]
    exact List.rel_append (h.ready.imp fun _ _ => .inl) (.cons (.inr ⟨rfl, rfl⟩) .nil)

end Abreast

/-! ### Steps -/

/-- Steps that lead on abreast; what is asked is alike, and the answers that lead on. -/
inductive Step.Alike (p : Terms) (φ : Correspondence) (main : TaskId) (ρ : Correspondence) :
    Step → Step → Prop
  | next {m m' : Machine} : m.Onward p φ main ρ m' → Alike p φ main ρ (.next m) (.next m')
  | asks {q q' : Query} {resume : q.Answer → Machine} {resume' : q'.Answer → Machine}
      {Q : Correspondence → q.Answer → q'.Answer → Prop} :
      Request.Alike p ρ (.world q) (.world q') Q →
      (∀ a a', Q ρ a a' → (resume a).Onward p φ main ρ (resume' a')) →
      Alike p φ main ρ (.asks q resume) (.asks q' resume')
  | idle {m m' : Machine} : m.Abreast p φ main ρ m' → Alike p φ main ρ (.idle m) (.idle m')

variable {q q' : Request} {Q : Correspondence → q.Answer → q'.Answer → Prop}
  {k : q.Answer → Act (Except Failure Next)} {k' : q'.Answer → Act (Except Failure Next)}
  {ks ks' : List (Outcome → Act (Except Failure Next))}

/-- Requests that are alike are answered alike. Terms that allow modules to be loaded allow all code. -/
theorem Abreast.serve (h : m.Abreast p φ main ρ m') (hrun : m.running = none)
    (hrun' : m'.running = none) (ho : m.Orderly) (hp : p.loads → ∀ body : Body, body.Fits p)
    {main' : TaskId} (hmain : ρ.tasks main main') (ht : ρ.tasks t t')
    (hθ : Thread.Alike p (t = main) ρ ⟨.ask q k, ks⟩ ⟨.ask q' k', ks'⟩)
    (hq : Request.Alike p ρ q q' Q)
    (hk : ∀ σ, ρ ≤ σ → ∀ a a', Q σ a a' → Thread.Alike p (t = main) σ ⟨k a, ks⟩ ⟨k' a', ks'⟩) :
    Step.Alike p φ main ρ (m.serve t ks q k) (m'.serve t' ks' q' k') := by
  have hle := Correspondence.le_refl ρ
  -- The task goes on with an answer, in machines that have not made any name.
  have hstay : ∀ {m₁ m₁' : Machine} {a a'}, m₁.Abreast p φ main ρ m₁' → Q ρ a a' →
      (m₁.run t ⟨k a, ks⟩).Onward p φ main ρ (m₁'.run t' ⟨k' a', ks'⟩) := fun h₁ ha =>
    (h₁.run ht (hk ρ hle _ _ ha)).onward
  cases hq with
  | @enter f f' x x' hf hx =>
    obtain ⟨hle', h'⟩ := h.addFrame { parent := some f, input := x.map .settled }
      { parent := some f', input := x'.map .settled } hrun hrun'
      ⟨.nil, optionRel_map hx fun _ _ => Deferred.Alike.settled⟩ (.some hf) rfl rfl
    exact .next ⟨_, hle', h'.run ht (hk _ hle' _ _ (.inr ⟨rfl, rfl⟩))⟩
  | @enterModule f f' path _ hf =>
    obtain ⟨hle', h'⟩ := h.addFrame
      { parent := some (m.scope.rootOf f), modulePath := some path }
      { parent := some (m'.scope.rootOf f'), modulePath := some path } hrun hrun'
      ⟨.nil, .none⟩ (.some (h.scope.rootOf hf)) rfl rfl
    exact .next ⟨_, hle', h'.run ht (hk _ hle' _ _ (.inr ⟨rfl, rfl⟩))⟩
  | declare _ hf hd =>
    obtain ⟨hr, hs⟩ := h.scope.declare h.ordered hf hd _
    exact .next (hstay
      (h.withScope hs Scope.sameShape_declare.size Scope.sameShape_declare.size) hr)
  | rebind _ hf hd =>
    obtain ⟨hr, hs⟩ := h.scope.rebind h.ordered hf hd _
    exact .next (hstay
      (h.withScope hs Scope.sameShape_rebind.size Scope.sameShape_rebind.size) hr)
  | lookup hf => exact .next (hstay h (h.scope.alike.lookup hf _))
  | input hf => exact .next (hstay h (h.scope.alike.input hf))
  | moduleDirectory _ hf =>
    refine .next (hstay h ?_)
    rw [h.scope.requireLibrary hf, Scope.moduleDirectory?, Scope.moduleDirectory?,
      h.scope.modulePath? hf]
    unfold Scope.requireLibrary
    split
    · exact .ok rfl
    · exact .cause _
  | stamp =>
    obtain ⟨σ, hle', hstamp, h'⟩ := h.addStamp hrun hrun'
    exact .next ⟨σ, hle', h'.run (hle'.2.2 _ _ ht) (hk σ hle' _ _ hstamp)⟩
  | spawn hl hj =>
    obtain ⟨hle', h'⟩ := h.addTask _ hrun hrun' hj (fun _ he => Option.some.inj he ▸ hl) nofun
      fun he => absurd (h.task_lt hmain).1 (he ▸ Nat.lt_irrefl _)
    exact .next ⟨_, hle', h'.run (.inl ht) (hk _ hle' _ _ (.inr ⟨rfl, rfl⟩))⟩
  | @await u u' hu =>
    obtain ⟨ho', h'⟩ := h.readCell ho ht hu
    simp only [Machine.serve]
    rcases hr : m.readCell t u with ⟨_ | o, m₁⟩
    · rcases hr' : m'.readCell t' u' with ⟨_ | o', m₁'⟩
      · rw [hr, hr'] at h'
        exact .next (h'.suspend ht hθ).onward
      · rw [hr, hr'] at ho'
        cases ho'
    · rcases hr' : m'.readCell t' u' with ⟨_ | o', m₁'⟩
      · rw [hr, hr'] at ho'
        cases ho'
      · rw [hr, hr'] at ho' h'
        cases ho' with
        | some hoo => exact .next (hstay h' hoo)
  | perform hj =>
    exact .next (h.run ht (.above hj.act fun σ hσ o o' hoo => hk σ hσ o o' hoo)).onward
  | settings _ => exact .next (hstay h h.library.settings.symm)
  | @claim path hloads =>
    obtain ⟨hl, hc⟩ := h.library.claim h.ordered ht path
    simp only [Machine.serve]
    rcases hm : m.library.claim path t with ⟨library, c⟩
    rcases hm' : m'.library.claim path t' with ⟨library', c'⟩
    rw [hm, hm'] at hl hc
    dsimp only at hl hc
    subst hc
    cases c' with
    | cached body =>
      exact .next (hstay (h.withLibrary hl) ⟨rfl, fun b _ => hp hloads b⟩)
    | granted => exact .next (hstay (h.withLibrary hl) ⟨rfl, fun b _ => hp hloads b⟩)
    | wait => exact .next ((h.withLibrary hl).suspend ht hθ).onward
  | countParse _ =>
    refine .next (hstay (h.withLibrary ?_) rfl)
    exact { h.library with parseCount := congrArg (· + 1) h.library.parseCount }
  | @publish path body _ _ =>
    obtain ⟨hl, hw⟩ := h.library.publish path body
    refine .next (hstay ((h.withLibrary hl).withReady ?_) rfl)
    rw [Queue.toList_pushAll, Queue.toList_pushAll]
    exact List.rel_append h.ready hw
  | @giveUp path _ =>
    obtain ⟨hl, hw⟩ := h.library.giveUp path
    exact .next (hstay ((h.withLibrary hl).wake hw) rfl)
  | @note n =>
    have hnoted : Abreast p φ main ρ { m with notes := n :: m.notes }
        { m' with notes := n :: m'.notes } :=
      { h with paired := h.paired.congr rfl rfl rfl rfl rfl rfl }
    exact .next (hstay hnoted rfl)
  | workingDirectory hl => exact .asks (.workingDirectory hl) fun _ _ ha => hstay h ha
  | firstFile hl => exact .asks (.firstFile hl) fun _ _ ha => hstay h ha
  | @content path hl =>
    refine .next (Abreast.onward { h with
      paired := h.paired.congr rfl rfl rfl rfl rfl rfl
      reading := List.rel_append h.reading (.cons ⟨hl, ht, rfl, fun a ha => ?_⟩ .nil) })
    exact hk ρ hle a a ⟨rfl, ha⟩
  | write => exact .asks .write fun _ _ ha => hstay h ha
  | word hw hx => exact .asks (.word hw hx) fun _ _ ha => hstay h ha

theorem advance_turns (m : Machine) (t : TaskId) (h : θ.Turns θ') :
    m.advance t θ = .next (m.run t θ') := by
  cases h <;> rfl

theorem advance_over {o : Outcome} (m : Machine) (t : TaskId) (h : θ.Over o) :
    m.advance t θ = .next (m.finish t o) := by
  cases h <;> rfl

theorem Abreast.advance (h : m.Abreast p φ main ρ m') (hrun : m.running = none)
    (hrun' : m'.running = none) (ho : m.Orderly) (hf : m.Free t)
    (hp : p.loads → ∀ body : Body, body.Fits p) {main' : TaskId} (hmain : ρ.tasks main main')
    (ht : ρ.tasks t t') (hθ : Thread.Alike p (t = main) ρ θ θ') :
    Step.Alike p φ main ρ (m.advance t θ) (m'.advance t' θ') := by
  have hturns : ∀ θ₁, θ.Turns θ₁ → Step.Alike p φ main ρ (m.advance t θ) (m'.advance t' θ') := by
    intro θ₁ hturn
    obtain ⟨θ₁', hturn', hθ₁⟩ := hθ.turns hturn
    rw [advance_turns m t hturn, advance_turns m' t' hturn']
    exact .next (h.run ht hθ₁).onward
  have hover : ∀ o, θ.Over o → Step.Alike p φ main ρ (m.advance t θ) (m'.advance t' θ') := by
    intro o hover
    obtain ⟨o', hover', hoo⟩ := hθ.over hover
    rw [advance_over m t hover, advance_over m' t' hover']
    exact .next (h.finish hf ht hoo).onward
  match θ with
  | ⟨.done (.ok (.become _)), _⟩ => exact hturns _ .becomes
  | ⟨.done (.ok (.value _)), _ :: _⟩ => exact hturns _ .returns
  | ⟨.done (.error _), _ :: _⟩ => exact hturns _ .fails
  | ⟨.done (.ok (.value v)), []⟩ => exact hover _ (.value v)
  | ⟨.done (.error e), []⟩ => exact hover _ (.failure e)
  | ⟨.ask q k, ks⟩ =>
    obtain ⟨q', k', ks', Q, rfl, hq, hk⟩ := hθ.asks
    exact h.serve hrun hrun' ho hp hmain ht hθ hq hk

theorem step_of_running (hr : m.running = some (t, θ)) :
    m.step = { m with running := none }.advance t θ := by
  simp only [step, hr]

theorem step_of_ready {ready : Queue TaskId} (hr : m.running = none)
    (hp : m.ready.pop? = some (t, ready)) : m.step = .next ({ m with ready }.resume t) := by
  simp only [step, hr, hp]

theorem step_of_reading {r : Reading} {rest : List Reading} (hr : m.running = none)
    (hp : m.ready.pop? = none) (hm : m.reading = r :: rest) :
    m.step = .asks (.content r.path) fun a => { m with reading := rest }.run r.task (r.resume a) := by
  simp only [step, hr, hp, hm]

theorem step_of_idle (hr : m.running = none) (hp : m.ready.pop? = none) (hm : m.reading = []) :
    m.step = .idle m := by
  simp only [step, hr, hp, hm]

/-- Machines that are abreast take the same step. -/
theorem Abreast.step (h : m.Abreast p φ main ρ m') (ho : m.Orderly)
    (hp : p.loads → ∀ body : Body, body.Fits p) {main' : TaskId} (hmain : ρ.tasks main main') :
    Step.Alike p φ main ρ m.step m'.step := by
  rcases optionRel_cases h.running with ⟨hr, hr'⟩ | ⟨⟨t, θ⟩, ⟨t', θ'⟩, hr, hr', ht, hθ⟩
  · rcases Queue.pop?_rel h.ready with ⟨hq, hq'⟩ | ⟨t, ready, t', ready', hq, hq', ht, hrest⟩
    · rcases forall₂_cases h.reading with ⟨hm, hm'⟩ | ⟨r, rest, r', rest', hm, hm', hrr, hrest⟩
      · rw [step_of_idle hr hq hm, step_of_idle hr' hq' hm']
        exact .idle h
      · rw [step_of_reading hr hq hm, step_of_reading hr' hq' hm', hrr.path]
        refine .asks (.content hrr.loads) fun a a' ha => ?_
        obtain ⟨rfl, ha⟩ := ha
        have hread : Abreast p φ main ρ { m with reading := rest } { m' with reading := rest' } :=
          { h with reading := hrest, paired := h.paired.congr rfl rfl rfl rfl rfl rfl }
        exact (hread.run hrr.task (hrr.resume a ha)).onward
    · rw [step_of_ready hr hq, step_of_ready hr' hq']
      exact .next ((h.withReady hrest).resume ht).onward
  · rw [step_of_running hr, step_of_running hr']
    exact h.idle.advance rfl rfl ho.idle ((ho.running t θ hr).congr rfl rfl) hp hmain ht hθ

end Machine

/-! ### Runs -/

/-- What added words do does not depend on names. -/
def World.Uniform (p : Terms) (w : World) : Prop :=
  ∀ ρ name x x', InputAlike p ρ x x' → Outcome.Alike p ρ (w.words name x) (w.words name x')

/-- Surroundings in which the same was written, on top of what was there. -/
structure World.Alike (base base' : List String) (w w' : World) : Prop where
  files : w'.files = w.files
  sink : w'.sink = w.sink
  words : w'.words = w.words
  written : ∃ lines, w.written = lines ++ base ∧ w'.written = lines ++ base'

namespace World

variable {base base' : List String} {w w' : World}

theorem Alike.write (h : World.Alike base base' w w') (text : String) :
    (w'.write text).1 = (w.write text).1 ∧
      World.Alike base base' (w.write text).2 (w'.write text).2 := by
  obtain ⟨files, sink, written, words⟩ := w
  obtain ⟨files', sink', written', words'⟩ := w'
  obtain ⟨hfiles, hsink, hwords, lines, hl, hl'⟩ := h
  dsimp only at hfiles hsink hwords hl hl'
  subst hfiles hsink hwords hl hl'
  have hmore : World.Alike base base' ⟨files', sink', text :: (lines ++ base), words'⟩
      ⟨files', sink', text :: (lines ++ base'), words'⟩ := ⟨rfl, rfl, rfl, text :: lines, rfl, rfl⟩
  cases sink' with
  | accepting => exact ⟨rfl, hmore⟩
  | closed => exact ⟨rfl, rfl, rfl, rfl, lines, rfl, rfl⟩
  | stuck => exact ⟨rfl, hmore⟩

/-- Questions that are alike are answered alike. -/
theorem Alike.answer (h : World.Alike base base' w w') (hw : w.Uniform p)
    (hp : p.loads → ∀ path text, p.Admits path text) {q q' : Query}
    {Q : Correspondence → q.Answer → q'.Answer → Prop}
    (hq : Request.Alike p ρ (.world q) (.world q') Q) :
    Q ρ (w.answer q).1 (w'.answer q').1 ∧
      World.Alike base base' (w.answer q).2 (w'.answer q').2 := by
  cases hq with
  | workingDirectory _ => exact ⟨by rw [World.answer, World.answer, h.files], h⟩
  | firstFile _ => exact ⟨by rw [World.answer, World.answer, h.files], h⟩
  | content hl => exact ⟨⟨by rw [World.answer, World.answer, h.files], fun text _ => hp hl _ text⟩, h⟩
  | write =>
    obtain ⟨ha, h'⟩ := h.write _
    exact ⟨ha.symm, h'⟩
  | word _ hx =>
    refine ⟨?_, h⟩
    simp only [World.answer, h.words]
    exact hw ρ _ _ _ hx

end World

/-- Terms that allow modules to be loaded allow everything. -/
def Terms.Open (p : Terms) : Prop :=
  p.loads → (∀ body : Body, body.Fits p) ∧ ∀ path text, p.Admits path text

namespace Machine

variable {φ : Correspondence} {main : TaskId} {m m' : Machine}

/-- Machines that are abreast stay so, and write the same. -/
theorem Abreast.runAll {base base' : List String} {w w' : World} (limit : Nat)
    (h : m.Abreast p φ main ρ m') (ho : m.Orderly) (hp : p.Open) {main' : TaskId}
    (hmain : ρ.tasks main main') (hw : World.Alike base base' w w') (huniform : w.Uniform p) :
    (m.runAll limit w).1.Onward p φ main ρ (m'.runAll limit w').1 ∧
      World.Alike base base' (m.runAll limit w).2 (m'.runAll limit w').2 := by
  induction limit generalizing m m' w w' ρ with
  | zero => exact ⟨h.onward, hw⟩
  | succ limit ih =>
    have hstep := h.step ho (fun hl => (hp hl).1) hmain
    have hchange : ∀ m₁, m.step = .next m₁ → m₁.Orderly := fun m₁ he =>
      ho.change (moves_of_step_next he).change
    have hasks : ∀ q resume a, m.step = .asks q resume → (resume a).Orderly := fun q resume a he =>
      ho.change (moves_of_step_asks he a).change
    unfold Machine.runAll
    generalize m.step = s at hstep hchange hasks
    generalize m'.step = s' at hstep
    cases hstep with
    | next hn =>
      obtain ⟨σ, hle, h₁⟩ := hn
      obtain ⟨⟨τ, hle', h₂⟩, hw₂⟩ := ih h₁ (hchange _ rfl) (hle.2.2 _ _ hmain) hw huniform
      exact ⟨⟨τ, Correspondence.le_trans hle hle', h₂⟩, hw₂⟩
    | @asks q q' resume resume' Q hq hn =>
      obtain ⟨ha, hw₁⟩ := hw.answer huniform (fun hl => (hp hl).2) hq
      obtain ⟨σ, hle, h₁⟩ := hn _ _ ha
      have huniform₁ : (w.answer q).2.Uniform p := by
        rw [World.Uniform, World.answer_words]
        exact huniform
      obtain ⟨⟨τ, hle', h₂⟩, hw₂⟩ := ih h₁ (hasks _ _ _ rfl) (hle.2.2 _ _ hmain) hw₁ huniform₁
      exact ⟨⟨τ, Correspondence.le_trans hle hle', h₂⟩, hw₂⟩
    | idle h₁ => exact ⟨h₁.onward, hw⟩

end Machine

end Concatenative
