import Concatenative.Proofs.Sharing
import Concatenative.Proofs.Whereabouts
import Concatenative.Session

/-! How values settle in a machine. A machine lets a task read a cell in one go, as far as it gets
(`Cell.read`); that is some of the steps that readers of a cell can take, one after the other, and since
no task is at two places it is always a reader that may take them. Main statement: whatever order the
steps come in, a value settles once and all readers are given what it settled to, and the cells of
machines go no other ways than these (`deferred_settles_once`). -/
namespace Concatenative

namespace Stage

/-- A reader may be left here while others go on: it is out, or it waits for something. -/
def rests : Stage → Bool
  | entitled | found _ => false
  | _ => true

end Stage

namespace Sharing

/-- No reader was left in the middle of an attempt to read. -/
def AtRest (s : Sharing) : Prop := ∀ r, (s.stage r).rests = true

/-- A reader was given an outcome, or waits if there is none. -/
def Tells (s : Sharing) (r : TaskId) : Option Outcome → Prop
  | some o => s.stage r = .returned o
  | none => s.stage r = .inLine ∨ s.stage r = .joined

/-- Steps from here on make up this attempt to read. -/
def Attempts (s : Sharing) (r : TaskId) (x : Cell.Read) : Prop :=
  ∃ log s', s.Runs log s' ∧ s'.cell = x.cell ∧ s'.AtRest ∧ s'.Tells r x.outcome

variable {s s' : Sharing} {e : Event} {r : TaskId} {o : Outcome} {x : Cell.Read}

theorem Attempts.head (h : s'.Attempts r x) (hm : s.Moves e s') : s.Attempts r x := by
  obtain ⟨log, s₂, hr, hrest⟩ := h
  exact ⟨_, s₂, Runs.trans (.snoc .refl hm) hr, hrest⟩

theorem AtRest.put {f : Cell → Cell} {stage : Stage} (h : ∀ q, q ≠ r → (s.stage q).rests = true)
    (hs : stage.rests = true) : ((s.onCell f).put r stage).AtRest := by
  intro q
  rw [stage_put, stage_onCell]
  split
  · exact hs
  · next hq => exact h q hq

/-- The lock goes to the reader that is first in line. -/
theorem Sound.attempts_handOn (h : s.Sound) (hrest : s.AtRest) (hh : s.cell.holder = none)
    (hr : s.stage r = .returned o) : s.Attempts r (s.cell.handOn o) := by
  cases hw : s.cell.waiting with
  | nil =>
    refine ⟨[], s, .refl, ?_, hrest, hr⟩
    simp only [Cell.handOn, hw, List.head?_nil, List.tail_nil]
    rw [← hh, ← hw]
  | cons q rest =>
    have hq : s.stage q = .inLine := (h.line q).1 (by simp [hw])
    have hne : r ≠ q := by
      rintro rfl
      simp [hr] at hq
    refine ⟨_, _, .snoc .refl (.locks hq hh), ?_, AtRest.put (fun p _ => hrest p) rfl, ?_⟩
    · simp [Cell.handOn, hw]
    · simp [Cell.handOn, Tells, hne, hr]

/-- A reader stores what it found. -/
theorem Sound.attempts_store (h : s.Sound) (hrest : ∀ q, q ≠ r → (s.stage q).rests = true)
    (hr : s.stage r = .found o) : s.Attempts r (s.cell.store o) := by
  have hm := Moves.stores hr
  have hnext := (h.moves hm).attempts_handOn (r := r) (o := o) (AtRest.put hrest rfl) rfl (by simp)
  exact hnext.head hm

/-- The reader that took the computation waits for its end. -/
theorem Sound.attempts_joined (h : s.Sound) (hrest : s.AtRest) (hr : s.stage r = .joined) :
    s.Attempts r (s.cell.join r) := by
  have hj : s.cell.joined = some r := ((h.owner r).1 (by simp [hr, Stage.tookIt])).2
  have hkeep : { s.cell with joined := some r } = s.cell := by rw [← hj]
  simp only [Cell.join, hj, Option.all_some, decide_true, if_true, hkeep]
  cases hres : s.cell.result with
  | none => exact ⟨[], s, .refl, rfl, hrest, .inr hr⟩
  | some o =>
    have hm := Moves.joins hr hres
    refine ((h.moves hm).attempts_store (r := r) (o := o) (fun q hq => ?_) (by simp)).head hm
    simpa [hq] using hrest q

/-- The reader that has the lock and found no outcome takes the computation. -/
theorem Sound.attempts_locked (h : s.Sound) (hrest : s.AtRest) (hr : s.stage r = .locked)
    (hn : s.cell.outcome = none) : s.Attempts r (s.cell.join r) := by
  have hm := Moves.missesAgain hr hn
  have h₁ := h.moves hm
  have he : (s.put r .entitled).stage r = .entitled := by simp
  have hc := h₁.hasComputation he
  have hm₁ := Moves.takes he hc
  have hj : s.cell.joined = none := by
    simp only [Sharing.hasComputation, Bool.and_eq_true, Option.isNone_iff_eq_none] at hc
    exact hc.2
  have hnext := (h₁.moves hm₁).attempts_joined (r := r) (AtRest.put (fun q hq => ?_) rfl) (by simp)
  · refine (Attempts.head ?_ hm₁).head hm
    simpa [Cell.join, hj] using hnext
  · simpa [hq] using hrest q

/-- A reader that is at rest, does not stand in line and has no lock is out. -/
theorem Sound.isOut (h : s.Sound) (hrest : s.AtRest) (hline : s.stage r ≠ .inLine)
    (hh : s.cell.holder ≠ some r) : (s.stage r).isOut = true := by
  have hl := mt (h.lock r).2 hh
  have hr := hrest r
  cases hs : s.stage r <;> simp_all [Stage.isOut, Stage.hasLock]

/-- The reader that has the lock goes on. -/
theorem Sound.attempts_holder (h : s.Sound) (hrest : s.AtRest) (hh : s.cell.holder = some r)
    (hn : s.cell.outcome = none) : s.Attempts r (s.cell.join r) := by
  have hl := (h.lock r).1 hh
  have hr := hrest r
  cases hs : s.stage r with
  | locked => exact h.attempts_locked hrest hs hn
  | joined => exact h.attempts_joined hrest hs
  | _ => simp_all [Stage.hasLock, Stage.rests]

/-- A reader gets in line while nobody has the lock, and is given it at once. -/
theorem Sound.attempts_unlocked (h : s.Sound) (hrest : s.AtRest) (hline : s.stage r ≠ .inLine)
    (hn : s.cell.outcome = none) (hh : s.cell.holder = none) :
    s.Attempts r ({ s.cell with holder := some r }.join r) := by
  have hm := Moves.misses (h.isOut hrest hline (by simp [hh])) hn
  have hr : ((s.onCell fun c => { c with waiting := c.waiting ++ [r] }).put r .inLine).stage r =
      .inLine := by simp
  have hm₁ := Moves.locks hr hh
  have hrest₁ : ((s.onCell fun c => { c with waiting := c.waiting ++ [r] }).put r .inLine).AtRest :=
    AtRest.put (fun q _ => hrest q) rfl
  have hline₁ : (s.cell.waiting ++ [r]).erase r = s.cell.waiting := by
    rw [List.erase_append_right _ (mt (h.line r).1 hline), List.erase_cons_head, List.append_nil]
  have hnext := ((h.moves hm).moves hm₁).attempts_locked (AtRest.put (fun q _ => hrest₁ q) rfl)
    (r := r) (by simp) hn
  simp only [cell_put, cell_onCell, hline₁] at hnext
  exact (hnext.head hm₁).head hm

/-- An attempt to read is made of steps, unless the reader already stands in line. -/
theorem Sound.attempts_read (h : s.Sound) (hrest : s.AtRest) (hline : s.stage r ≠ .inLine) :
    s.Attempts r (s.cell.read r) := by
  have hothers : ∀ q, q ≠ r → (s.stage q).rests = true := fun q _ => hrest q
  cases ho : s.cell.outcome with
  | some o =>
    simp only [Cell.read, ho]
    split
    · next hh =>
      have hl := (h.lock r).1 hh
      have ht := mt (h.owner r).1 (by simp [ho])
      have he := mt (h.entitled r) (by simp [ho])
      have hs : s.stage r = .locked := by
        cases hs : s.stage r <;> simp_all [Stage.hasLock, Stage.tookIt]
      have hm := Moves.seesAgain hs ho
      exact ((h.moves hm).attempts_handOn (r := r) (AtRest.put hothers rfl) rfl (by simp)).head hm
    · next hh =>
      refine ⟨_, _, .snoc .refl (.sees (h.isOut hrest hline hh) ho), rfl, ?_, by simp [Tells]⟩
      exact AtRest.put (f := id) hothers rfl
  | none =>
    cases hh : s.cell.holder with
    | none =>
      have hread : s.cell.read r = { s.cell with holder := some r }.join r := by
        simp only [Cell.read, ho, hh]
      rw [hread]
      exact h.attempts_unlocked hrest hline ho hh
    | some holder =>
      simp only [Cell.read, ho, hh]
      split
      · next he =>
        exact h.attempts_holder hrest (he ▸ hh) ho
      · next hne =>
        have hm := Moves.misses (h.isOut hrest hline (by simpa [hh] using hne)) ho
        refine ⟨_, _, .snoc .refl hm, ?_, AtRest.put hothers rfl, .inl (by simp)⟩
        simp [ho, hh]

end Sharing

/-! ## Machines -/

namespace Machine

/-- Machines that come about from a machine without tasks: jobs are started, the tasks move in any
order, and names, stamps and notes are seen to between programs. -/
inductive Arises : Machine → Prop
  | new {m : Machine} : m.tasks = #[] → m.ready.toList = [] → m.reading = [] → m.running = none →
      m.library.shelves = [] → Arises m
  | starts {m : Machine} (origin : Option Location) (job : Job) : Arises m →
      Arises (m.addTask origin job).2
  | moves {m m' : Machine} {asked : List Asked} : Arises m → m.Moves asked m' → Arises m'
  | between {m : Machine} (scope : Scope) (stamps : Nat) (notes : List Note) : Arises m →
      Arises { m with scope, stamps, notes }

/-- The cell of a task; it is a new one as long as the task was not started. -/
def cellOf (m : Machine) (u : TaskId) : Cell := (m.tasks[u]?.map Task.cell).getD {}

/-- The steps of readers that are told by `log` lead to the cell of task `u`. -/
structure Follows (m : Machine) (u : TaskId) (log : List Event) (s : Sharing) : Prop where
  runs : Sharing.Runs (.ofDeferred (.pending u)) log s
  cell : s.cell = m.cellOf u
  rest : s.AtRest

variable {m m' : Machine} {t u : TaskId} {asked : List Asked} {log : List Event} {s : Sharing}

theorem Orderly.starts (h : m.Orderly) (origin : Option Location) (job : Job) :
    (m.addTask origin job).2.Orderly := by
  cases hr : m.running with
  | none => exact h.addTask hr origin job
  | some running =>
    obtain ⟨t, thread⟩ := running
    have h₀ : Orderly { m with running := none } := ⟨h.sound, h.aside, h.reading, h.nodup, nofun⟩
    have hf : Free { m with running := none } t := (h.running t thread hr).congr rfl rfl
    have hnext : (({ m with running := none }.addTask origin job).2.run t thread).Orderly :=
      (h₀.addTask rfl origin job).run (hf.addTask origin job)
    rwa [addTask_eq, Machine.run, ← hr] at hnext

theorem Arises.orderly (h : m.Arises) : m.Orderly ∧ m.Placed := by
  induction h with
  | new ht hready hr hrun hl => exact ⟨orderly_new ht hr hrun, placed_new ht hready hr hrun hl⟩
  | starts origin job _ ih => exact ⟨ih.1.starts origin job, ih.2.addTask origin job⟩
  | moves _ hm ih => exact ⟨ih.1.change hm.change, ih.2.change ih.1 hm.change⟩
  | between scope stamps notes _ ih =>
    exact ⟨ih.1.congr rfl rfl rfl, ih.2.distinct, ih.2.once⟩

/-! ## Cells -/

theorem cellOf_eq {task : Task} (ht : m.tasks[t]? = some task) : m.cellOf t = task.cell := by
  rw [cellOf, ht]
  rfl

theorem cellOf_wake (m : Machine) (woken : Option TaskId) (u : TaskId) :
    (m.wake woken).cellOf u = m.cellOf u := by
  rw [cellOf, cellOf, wake_tasks]

theorem cellOf_onTask {f : Task → Task} (hf : t = u → ∀ task, (f task).cell = task.cell) :
    (m.onTask t f).cellOf u = m.cellOf u := by
  rw [cellOf, cellOf, tasks_onTask]
  split
  · next he =>
    rw [Option.map_map]
    exact congrArg (fun g => (m.tasks[u]?.map g).getD {}) (funext (hf he))
  · rfl

theorem cellOf_onTask_self {task : Task} (ht : m.tasks[t]? = some task) (f : Task → Task) :
    (m.onTask t f).cellOf t = (f task).cell := by
  rw [cellOf, tasks_onTask, if_pos rfl, ht]
  rfl

theorem cellOf_suspend (m : Machine) (t u : TaskId) (thread : Thread) :
    (m.suspend t thread).cellOf u = m.cellOf u :=
  cellOf_onTask (f := ({ · with thread := some thread })) fun _ _ => rfl

theorem cellOf_resume (m : Machine) (t u : TaskId) : (m.resume t).cellOf u = m.cellOf u := by
  obtain he | ⟨_, thread, m₁, _, _, he, rfl⟩ := m.resume_cases t
  · rw [he]
  · rw [he]
    exact cellOf_onTask (f := ({ · with thread := none })) fun _ _ => rfl

theorem cellOf_addTask (m : Machine) (origin : Option Location) (job : Job) (u : TaskId) :
    (m.addTask origin job).2.cellOf u = m.cellOf u := by
  rw [addTask_eq, cellOf, cellOf, Array.getElem?_push]
  split
  · next he => simp [he]
  · rfl

theorem cellOf_readCell {target : TaskId} {r : Option Outcome} (hr : m.readCell t target = (r, m'))
    (hne : target ≠ u) : m'.cellOf u = m.cellOf u := by
  unfold readCell at hr
  split at hr
  · cases hr
    rfl
  · cases hr
    rw [cellOf_wake, setCell, cellOf_onTask fun he => absurd he hne]

/-! ## Steps of a machine -/

/-- Readers took steps, and the machine followed. -/
def Advances (m : Machine) (u : TaskId) (log : List Event) (s : Sharing) : Prop :=
  ∃ log' s', s.Runs log' s' ∧ m.Follows u (log ++ log') s'

theorem Follows.advances (h : m.Follows u log s) (hc : m'.cellOf u = m.cellOf u) :
    m'.Advances u log s := by
  refine ⟨[], s, .refl, ?_, h.cell.trans hc.symm, h.rest⟩
  rw [List.append_nil]
  exact h.runs

theorem Advances.congr (h : m.Advances u log s) (hc : m'.cellOf u = m.cellOf u) :
    m'.Advances u log s := by
  obtain ⟨log', s', hr, hf⟩ := h
  exact ⟨log', s', hr, hf.runs, hf.cell.trans hc.symm, hf.rest⟩

theorem Follows.sound (h : m.Follows u log s) : s.Sound := (Sharing.sound_ofDeferred _).runs h.runs

/-- A task that stands in no line reads what another came to. -/
theorem Follows.readCell {task : Task} {r : Option Outcome} (h : m.Follows u log s)
    (hw : t ∉ s.cell.waiting) (hu : m.tasks[u]? = some task) (hr : m.readCell t u = (r, m')) :
    ∃ log' s', s.Runs log' s' ∧ m'.Follows u (log ++ log') s' ∧ s'.Tells t r := by
  have hcell : s.cell = task.cell := h.cell.trans (cellOf_eq hu)
  have hline : s.stage t ≠ .inLine := mt (h.sound.line t).2 hw
  obtain ⟨log', s', hruns, hc, hrest, htells⟩ := h.sound.attempts_read h.rest hline
  simp only [Machine.readCell, hu, ← hcell, Prod.mk.injEq] at hr
  obtain ⟨rfl, rfl⟩ := hr
  refine ⟨log', s', hruns, ⟨h.runs.trans hruns, ?_, hrest⟩, htells⟩
  rw [cellOf_wake, setCell, cellOf_onTask_self hu, hc]

theorem Follows.advances_readCell {target : TaskId} {r : Option Outcome} (h : m.Follows u log s)
    (hw : t ∉ s.cell.waiting) (hr : m.readCell t target = (r, m')) : m'.Advances u log s := by
  by_cases he : target = u
  · subst he
    cases hu : m.tasks[target]? with
    | none =>
      simp only [Machine.readCell, hu, Prod.mk.injEq] at hr
      exact h.advances (hr.2 ▸ rfl)
    | some task =>
      obtain ⟨log', s', hruns, hf, _⟩ := h.readCell hw hu hr
      exact ⟨log', s', hruns, hf⟩
  · exact h.advances (cellOf_readCell hr he)

/-- The computation of a task ends. -/
theorem Follows.finish (h : m.Follows u log s) (hf : m.Free t) (o : Outcome) :
    (m.finish t o).Advances u log s := by
  obtain ⟨_, task, ht, _, hn⟩ := hf
  rw [finish_of_task ht]
  by_cases he : t = u
  · subst he
    have hcell : s.cell = task.cell := h.cell.trans (cellOf_eq ht)
    have hm := Sharing.Moves.ends (s := s) (o := task.stand.close o) (hcell ▸ hn)
    refine ⟨_, _, .snoc .refl hm, h.runs.snoc hm, ?_, h.rest⟩
    rw [cellOf_wake, cellOf_onTask_self ht, ← hcell]
    rfl
  · refine h.advances ?_
    rw [cellOf_wake, cellOf_onTask fun he' => absurd he' he]

theorem Follows.serves {q : Request} {a : q.Answer} (h : m.Follows u log s)
    (hs : m.Serves t q asked a m') (hw : t ∉ s.cell.waiting) : m'.Advances u log s := by
  cases hs with
  | spawn l job => exact h.advances (cellOf_addTask m _ _ u)
  | await hr => exact h.advances_readCell hw hr
  | giveUp path => exact h.advances (cellOf_wake _ _ u)
  | _ => exact h.advances rfl

/-- The running task goes on; `m` is the machine without it. -/
theorem Follows.goes {thread : Thread} (h : m.Follows u log s) (hg : m.Goes t thread asked m')
    (hf : m.Free t) (hw : t ∉ s.cell.waiting) : m'.Advances u log s := by
  cases hg with
  | turns _ => exact h.advances rfl
  | served hs => exact (h.serves hs hw).congr rfl
  | awaits hr => exact (h.advances_readCell hw hr).congr (cellOf_suspend ..)
  | claims hl => exact h.advances (cellOf_suspend ..)
  | givesWay => exact h.advances ((cellOf_wake ..).trans (cellOf_suspend ..))
  | reads => exact h.advances rfl
  | ends _ => exact h.finish hf _

/-- The running task stands in no line. -/
theorem Follows.not_mem_waiting {thread : Thread} (h : m.Follows u log s) (hp : m.Placed)
    (hr : m.running = some (t, thread)) : t ∉ s.cell.waiting := by
  rw [h.cell, cellOf]
  cases hu : m.tasks[u]? with
  | none => simp
  | some task => exact hp.not_mem_waiting hr hu

/-- Whatever move a machine makes, its cells take steps that readers can take. -/
theorem Follows.change (h : m.Follows u log s) (ho : m.Orderly) (hp : m.Placed)
    (hc : m.Change asked m') : m'.Advances u log s := by
  cases hc with
  | @goes t thread _ _ hr hg =>
    have h₀ : Follows { m with running := none } u log s := ⟨h.runs, h.cell, h.rest⟩
    exact h₀.goes hg ((ho.running t thread hr).congr rfl rfl) (h.not_mem_waiting hp hr)
  | take _ _ _ => exact h.advances (cellOf_resume _ _ u)
  | read _ _ _ => exact h.advances rfl

/-- Steps of readers lead to every cell. -/
theorem Arises.follows (h : m.Arises) (u : TaskId) : ∃ log s, m.Follows u log s := by
  induction h with
  | new ht _ _ _ _ =>
    refine ⟨[], .ofDeferred (.pending u), .refl, ?_, fun _ => rfl⟩
    simp [cellOf, ht, Sharing.ofDeferred, Deferred.known?]
  | @starts m origin job _ ih =>
    obtain ⟨log, s, hf⟩ := ih
    exact ⟨log, s, hf.runs, hf.cell.trans (cellOf_addTask m origin job u).symm, hf.rest⟩
  | moves ha hm ih =>
    obtain ⟨log, s, hf⟩ := ih
    obtain ⟨log', s', _, hf'⟩ := hf.change ha.orderly.1 ha.orderly.2 hm.change
    exact ⟨_, s', hf'⟩
  | between scope stamps notes _ ih =>
    obtain ⟨log, s, hf⟩ := ih
    exact ⟨log, s, hf.runs, hf.cell, hf.rest⟩

theorem Arises.runs (h : m.Arises) (hr : Runs m asked m') : m'.Arises := by
  induction hr with
  | refl => exact h
  | head hm _ ih => exact ih (h.moves hm)

/-- What a machine does to the cell of a task is what readers can do to it. -/
structure Simulates (m : Machine) (u : TaskId) : Prop where
  /-- Readers can have brought the cell to where it is. -/
  follows : ∃ log s, m.Follows u log s
  settled : ∀ log s, m.Follows u log s → m.isSettled (.pending u) = s.cell.isSettled
  /-- Every move is made of steps that readers can take next. -/
  moves : ∀ log s asked m', m.Follows u log s → m.Moves asked m' → m'.Advances u log s
  /-- What the running task is told when it reads is what those steps come to. -/
  reads : ∀ log s t thread r m', m.Follows u log s → m.running = some (t, thread) →
    { m with running := none }.readCell t u = (r, m') →
    ∃ log' s', s.Runs log' s' ∧ m'.Follows u (log ++ log') s' ∧ s'.Tells t r

theorem Arises.simulates (h : m.Arises) (hu : u < m.tasks.size) : m.Simulates u := by
  obtain ⟨ho, hp⟩ := h.orderly
  have htask : m.tasks[u]? = some m.tasks[u] := Array.getElem?_eq_getElem hu
  refine ⟨h.follows u, ?_, ?_, ?_⟩
  · intro log s hf
    rw [hf.cell, cellOf_eq htask, isSettled, htask]
    rfl
  · intro log s asked m' hf hm
    exact hf.change ho hp hm.change
  · intro log s t thread r m' hf hrun hr
    have hf₀ : Follows { m with running := none } u log s := ⟨hf.runs, hf.cell, hf.rest⟩
    exact hf₀.readCell (hf.not_mem_waiting hp hrun) htask hr

end Machine

theorem Session.arises_start (settings : LibrarySettings) (world : World) :
    (Session.start settings world).machine.Arises := .new rfl rfl rfl rfl rfl

theorem Session.arises_runJob {s : Session} (h : s.machine.Arises) (job : Job) :
    (s.runJob job).2.machine.Arises := by
  obtain ⟨log, hr, _⟩ := (s.machine.addTask none job).2.runs_runAll stepLimit s.world
  exact (h.starts none job).runs hr

/-- A deferred value settles once, and every reader is given what it settled to. This holds of any number
of readers, whatever order their steps and the end of the computation come in; and it is what the machine
of a session does, since the cell of each of its tasks takes no other steps. -/
theorem deferred_settles_once :
    (∀ (d : Deferred) (log : List Event) (s : Sharing), Sharing.Runs (.ofDeferred d) log s →
      Sharing.SettlesOnce d log s) ∧
    (∀ m : Machine, m.Arises → ∀ u < m.tasks.size, m.Simulates u) ∧
    (∀ (settings : LibrarySettings) (world : World), (Session.start settings world).machine.Arises) ∧
    ∀ (s : Session) (job : Job), s.machine.Arises → (s.runJob job).2.machine.Arises := by
  refine ⟨?_, ?_, Session.arises_start, ?_⟩
  · intro d log s hr
    exact Sharing.settlesOnce_of_runs hr
  · intro m hm u hu
    exact hm.simulates hu
  · intro s job hs
    exact Session.arises_runJob hs job

/-- Two readers begin to read. The first takes the computation and stores its outcome, the second was in
line and finds it stored. -/
def twoReaders (o : Outcome) : List Event :=
  [.misses 1, .misses 2, .locks 1, .missesAgain 1, .takes 1, .ends o, .joins 1 o, .stores 1 o,
    .locks 2, .seesAgain 2 o]

theorem runs_twoReaders (o : Outcome) :
    ∃ s, Sharing.Runs (.ofDeferred (.pending 0)) (twoReaders o) s ∧
      s.stage 1 = .returned o ∧ s.stage 2 = .returned o := by
  have h₀ := Sharing.Runs.refl (s := .ofDeferred (.pending 0))
  have h₁ := (h₀.snoc (.misses (r := 1) rfl rfl)).snoc (.misses (r := 2) rfl rfl)
  have h₂ := (h₁.snoc (.locks (r := 1) rfl rfl)).snoc (.missesAgain (r := 1) rfl rfl)
  have h₃ := (h₂.snoc (.takes (r := 1) rfl rfl)).snoc (.ends (o := o) rfl)
  have h₄ := (h₃.snoc (.joins (r := 1) rfl rfl)).snoc (.stores (r := 1) rfl)
  have h₅ := (h₄.snoc (.locks (r := 2) rfl rfl)).snoc (.seesAgain (r := 2) rfl rfl)
  exact ⟨_, h₅, rfl, rfl⟩

theorem deferred_settles_once_twoReaders :
    (∃ s, Sharing.Runs (.ofDeferred (.pending 0)) (twoReaders (.ok .none)) s ∧
      s.stage 1 = .returned (.ok .none) ∧ s.stage 2 = .returned (.ok .none) ∧
      Sharing.SettlesOnce (.pending 0) (twoReaders (.ok .none)) s) ∧
    ((Session.start {} {}).machine.addTask none (.lingering 2 (.ok .none))).2.Simulates 0 := by
  obtain ⟨hruns, hmachine, hstart, _⟩ := deferred_settles_once
  obtain ⟨s, hr, h₁, h₂⟩ := runs_twoReaders (.ok .none)
  refine ⟨⟨s, hr, h₁, h₂, hruns _ _ s hr⟩, ?_⟩
  exact hmachine _ (.starts none _ (hstart {} {})) 0 (Nat.zero_lt_succ _)

end Concatenative
