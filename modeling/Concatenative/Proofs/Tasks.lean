import Concatenative.Proofs.Schedule

/-! The tasks of a machine. A task that has not ended is in one place only: it runs, it was put
aside or it reads a file. What it came to is kept for good, and whoever waits for it is given just
that: no reader finds a cell whose computation another reader has taken. Main statements: any order
of the moves keeps machines orderly (`Orderly.runs`), and whoever reads what a task came to changes
nothing of where the tasks stand (`Orderly.reads_readCell`). -/
namespace Concatenative

/-! ## Cells -/

namespace Cell

/-- Readers see what the computation came to, and the reader that took the computation has the lock
until it has stored what it found. -/
structure Sound (c : Cell) : Prop where
  outcome : ∀ o, c.outcome = some o → c.result = some o
  joined : c.outcome = none → ∀ r, c.joined = some r → c.holder = some r

theorem sound_new : Sound {} := by
  constructor
  · intro o h
    cases h
  · intro _ r h
    cases h

variable {c : Cell} {reader : TaskId}

theorem Sound.handOn {o : Outcome} (h : c.Sound) (ho : c.outcome = some o) :
    (c.handOn o).cell.Sound := by
  have hn : (c.handOn o).cell.outcome ≠ none := by
    rw [Cell.handOn, ho]
    exact Option.some_ne_none o
  exact ⟨h.outcome, fun h' => absurd h' hn⟩

theorem Sound.store {o : Outcome} (hr : c.result = some o) : (c.store o).cell.Sound := by
  refine ⟨fun o' h => ?_, nofun⟩
  cases h
  exact hr

/-- What an attempt to read comes to: it leaves the result, and finds nothing else. -/
structure Read.Fair (r : Read) (c : Cell) : Prop where
  sound : r.cell.Sound
  result : r.cell.result = c.result
  outcome : ∀ o, r.outcome = some o → c.result = some o

/-- Nobody but the reader that has the lock has taken the computation. -/
theorem Sound.joined_all (h : c.Sound) (hn : c.outcome = none) (hh : c.holder = some reader) :
    c.joined.all (· = reader) = true := by
  cases hc : c.joined with
  | none => rfl
  | some r =>
    have hr := h.joined hn r hc
    rw [hh] at hr
    cases hr
    simp

/-- The reader that has the lock finds the computation. -/
theorem Sound.join (h : c.Sound) (hn : c.outcome = none) (hh : c.holder = some reader) :
    (c.join reader).Fair c := by
  rw [Cell.join, if_pos (h.joined_all hn hh)]
  obtain ⟨outcome, result, holder, joined, waiting⟩ := c
  cases result with
  | none =>
    refine ⟨⟨h.outcome, fun _ r h' => ?_⟩, rfl, fun o h' => ?_⟩
    · cases h'
      exact hh
    · cases h'
  | some o =>
    refine ⟨Sound.store rfl, rfl, fun o' h' => ?_⟩
    cases h'
    rfl

theorem Sound.read (h : c.Sound) (reader : TaskId) : (c.read reader).Fair c := by
  obtain ⟨outcome, result, holder, joined, waiting⟩ := c
  cases outcome with
  | some o =>
    have hr := h.outcome o rfl
    simp only [Cell.read]
    split
    · exact ⟨h.handOn rfl, rfl, fun o' h' => Option.some.inj h' ▸ hr⟩
    · exact ⟨h, rfl, fun o' h' => Option.some.inj h' ▸ hr⟩
  | none =>
    simp only [Cell.read]
    cases holder with
    | none =>
      have hlock : Sound ⟨none, result, some reader, joined, waiting⟩ :=
        ⟨h.outcome, fun _ r hr => nomatch h.joined rfl r hr⟩
      have hf := hlock.join rfl rfl
      exact ⟨hf.sound, hf.result, hf.outcome⟩
    | some holder =>
      dsimp only
      split
      · next he => exact h.join rfl (congrArg some he)
      · exact ⟨⟨h.outcome, h.joined⟩, rfl, fun o h' => by cases h'⟩

theorem Sound.finish (h : c.Sound) (hr : c.result = none) (o : Outcome) :
    (c.finish o).1.Sound := by
  refine ⟨fun o' h' => ?_, h.joined⟩
  have hn := h.outcome o' h'
  rw [hr] at hn
  cases hn

end Cell

/-! ## Machines -/

/-- Where a task stands: what readers can not change of it. -/
structure Stand where
  origin : Option Location
  /-- Where it goes on, if it was put aside. -/
  thread : Option Thread
  result : Option Outcome

/-- What a task came to, with the place that is blamed. -/
def Stand.close (s : Stand) (o : Outcome) : Outcome :=
  match s.origin with
  | some l => o.orAt l
  | none => o

def Task.stand (task : Task) : Stand := ⟨task.origin, task.thread, task.cell.result⟩

namespace Machine

def stand (m : Machine) (u : TaskId) : Option Stand := m.tasks[u]?.map Task.stand

/-- The tasks that read a file. -/
def readers (m : Machine) : List TaskId := m.reading.map Reading.task

/-- The task was not put aside, reads no file and has not ended. -/
def Free (m : Machine) (t : TaskId) : Prop :=
  t ∉ m.readers ∧ ∃ task : Task, m.tasks[t]? = some task ∧ task.thread = none ∧ task.cell.result = none

structure Orderly (m : Machine) : Prop where
  sound : ∀ (u : TaskId) (task : Task), m.tasks[u]? = some task → task.cell.Sound
  aside : ∀ (u : TaskId) (task : Task), m.tasks[u]? = some task → task.thread ≠ none →
    task.cell.result = none ∧ u ∉ m.readers
  reading : ∀ u ∈ m.readers, ∃ task : Task, m.tasks[u]? = some task ∧ task.thread = none ∧
    task.cell.result = none
  nodup : m.readers.Nodup
  running : ∀ t thread, m.running = some (t, thread) → m.Free t

variable {m m' : Machine} {t u : TaskId} {log : List Asked}

theorem stand_eq {task : Task} (ht : m.tasks[t]? = some task) : m.stand t = some task.stand := by
  rw [stand, ht]
  rfl

/-- The running task is put down. -/
theorem Orderly.idle (h : m.Orderly) : Orderly { m with running := none } :=
  ⟨h.sound, h.aside, h.reading, h.nodup, nofun⟩

/-- Being orderly is a matter of the tasks, of those that read and of the one that runs. -/
theorem Orderly.congr (h : m.Orderly) (ht : m'.tasks = m.tasks) (hr : m'.reading = m.reading)
    (hrun : m'.running = m.running) : m'.Orderly := by
  have hread : m'.readers = m.readers := by rw [readers, readers, hr]
  refine ⟨?_, ?_, ?_, ?_, ?_⟩
  · rw [ht]; exact h.sound
  · rw [ht, hread]; exact h.aside
  · rw [ht, hread]; exact h.reading
  · rw [hread]; exact h.nodup
  · rw [hrun]
    intro t thread hm
    rw [Free, ht, hread]
    exact h.running t thread hm

theorem Orderly.run {thread : Thread} (h : m.Orderly) (hf : m.Free t) : (m.run t thread).Orderly := by
  refine ⟨h.sound, h.aside, h.reading, h.nodup, fun u thread' hu => ?_⟩
  cases hu
  exact hf

theorem tasks_onTask (m : Machine) (t u : TaskId) (f : Task → Task) :
    (m.onTask t f).tasks[u]? = if t = u then m.tasks[u]?.map f else m.tasks[u]? :=
  Array.getElem?_modify

/-- A change of one task has to be checked for that task only. -/
theorem Orderly.onTask {f : Task → Task} (h : m.Orderly) (hm : m.running = none)
    (hs : ∀ task, m.tasks[t]? = some task → (f task).cell.Sound)
    (ha : ∀ task, m.tasks[t]? = some task → (f task).thread ≠ none →
      (f task).cell.result = none ∧ t ∉ m.readers)
    (hr : ∀ task, m.tasks[t]? = some task → t ∈ m.readers →
      (f task).thread = none ∧ (f task).cell.result = none) : (m.onTask t f).Orderly := by
  refine ⟨fun u task hu => ?_, fun u task hu hne => ?_, fun u hu => ?_, h.nodup, fun u thread hu => ?_⟩
  · rw [tasks_onTask] at hu
    split at hu
    · next he =>
      subst he
      obtain ⟨old, ho, rfl⟩ := Option.map_eq_some_iff.1 hu
      exact hs old ho
    · exact h.sound u task hu
  · rw [tasks_onTask] at hu
    split at hu
    · next he =>
      subst he
      obtain ⟨old, ho, rfl⟩ := Option.map_eq_some_iff.1 hu
      exact ha old ho hne
    · exact h.aside u task hu hne
  · obtain ⟨task, ht, hn⟩ := h.reading u hu
    rw [tasks_onTask]
    split
    · next he =>
      subst he
      exact ⟨f task, by rw [ht]; rfl, hr task ht hu⟩
    · exact ⟨task, ht, hn⟩
  · rw [show (m.onTask t f).running = m.running from rfl, hm] at hu
    cases hu

theorem Free.onTask {f : Task → Task} (h : m.Free u)
    (hf : ∀ task, m.tasks[t]? = some task → t = u → task.thread = none → task.cell.result = none →
      (f task).thread = none ∧ (f task).cell.result = none) : (m.onTask t f).Free u := by
  obtain ⟨hr, task, ht, hn, hc⟩ := h
  refine ⟨hr, ?_⟩
  rw [tasks_onTask]
  split
  · next he =>
    subst he
    exact ⟨f task, by rw [ht]; rfl, hf task ht rfl hn hc⟩
  · exact ⟨task, ht, hn, hc⟩

theorem Orderly.suspend {thread : Thread} (h : m.Orderly) (hm : m.running = none) (hf : m.Free t) :
    (m.suspend t thread).Orderly := by
  obtain ⟨hr, task, ht, hn, hc⟩ := hf
  refine h.onTask hm (fun old ho => h.sound t old ho) (fun old ho _ => ⟨?_, hr⟩)
    (fun _ _ h' => absurd h' hr)
  rw [ht] at ho
  cases ho
  exact hc

theorem Orderly.wake (h : m.Orderly) (woken : Option TaskId) : (m.wake woken).Orderly := by
  cases woken with
  | none => exact h
  | some u => exact h.congr rfl rfl rfl

theorem Orderly.resume (h : m.Orderly) (hm : m.running = none) : (m.resume t).Orderly := by
  unfold Machine.resume
  cases hb : m.tasks[t]?.bind (·.thread) with
  | none => exact h
  | some thread =>
    obtain ⟨task, ht, hth⟩ := Option.bind_eq_some_iff.1 hb
    obtain ⟨hc, hr⟩ := h.aside t task ht (by rw [hth]; exact Option.some_ne_none thread)
    refine Orderly.run ?_ ⟨hr, { task with thread := none }, ?_, rfl, hc⟩
    · exact h.onTask hm (fun old ho => h.sound t old ho) (fun _ _ h' => absurd rfl h')
        (fun _ _ h' => absurd h' hr)
    · rw [tasks_onTask, if_pos rfl, ht]
      rfl

/-- The end of a task. -/
theorem Orderly.finish {o : Outcome} (h : m.Orderly) (hm : m.running = none) (hf : m.Free t) :
    (m.finish t o).Orderly := by
  obtain ⟨hr, task, ht, hn, hc⟩ := hf
  simp only [Machine.finish, ht]
  refine Orderly.wake (h.onTask hm (fun old ho => ?_) (fun _ _ h' => absurd rfl h')
    (fun _ _ h' => absurd h' hr)) _
  exact (h.sound t task ht).finish hc _

theorem Orderly.readCell {target : TaskId} {r : Option Outcome} (h : m.Orderly)
    (hm : m.running = none) (hr : m.readCell t target = (r, m')) : m'.Orderly := by
  unfold Machine.readCell at hr
  cases ht : m.tasks[target]? with
  | none =>
    rw [ht] at hr
    cases hr
    exact h
  | some task =>
    rw [ht] at hr
    cases hr
    have hread := (h.sound target task ht).read t
    refine Orderly.wake (h.onTask hm (fun _ _ => hread.sound) (fun old ho hne => ?_)
      (fun old ho hin => ?_)) _
    · rw [ht] at ho
      cases ho
      obtain ⟨hc, hnot⟩ := h.aside target task ht hne
      exact ⟨hread.result.trans hc, hnot⟩
    · rw [ht] at ho
      cases ho
      obtain ⟨task', ht', hn, hc⟩ := h.reading target hin
      rw [ht] at ht'
      cases ht'
      exact ⟨hn, hread.result.trans hc⟩

theorem addTask_eq (m : Machine) (origin : Option Location) (job : Job) :
    m.addTask origin job = (m.tasks.size,
      { m with
        tasks := m.tasks.push { origin, thread := some job.thread }
        ready := m.ready.push m.tasks.size }) := rfl

theorem Orderly.addTask (h : m.Orderly) (hm : m.running = none) (origin : Option Location)
    (job : Job) : (m.addTask origin job).2.Orderly := by
  rw [addTask_eq]
  have hnew : m.tasks.size ∉ m.readers := by
    intro hin
    obtain ⟨task, ht, _⟩ := h.reading _ hin
    exact absurd (Array.getElem?_eq_some_iff.1 ht).1 (Nat.lt_irrefl _)
  refine ⟨fun u task hu => ?_, fun u task hu hne => ?_, fun u hu => ?_, h.nodup, fun u thread hu => ?_⟩
  · rw [Array.getElem?_push] at hu
    split at hu
    · cases hu
      exact Cell.sound_new
    · exact h.sound u task hu
  · rw [Array.getElem?_push] at hu
    split at hu
    · next he =>
      cases hu
      exact ⟨rfl, he ▸ hnew⟩
    · exact h.aside u task hu hne
  · obtain ⟨task, ht, hn⟩ := h.reading u hu
    refine ⟨task, ?_, hn⟩
    rw [Array.getElem?_push, if_neg]
    · exact ht
    · rintro rfl
      exact hnew hu
  · rw [show m.running = none from hm] at hu
    cases hu

theorem Free.addTask (hf : m.Free t) (origin : Option Location) (job : Job) :
    (m.addTask origin job).2.Free t := by
  obtain ⟨hr, task, ht, hn⟩ := hf
  refine ⟨hr, task, ?_, hn⟩
  rw [addTask_eq, Array.getElem?_push, if_neg]
  · exact ht
  · exact Nat.ne_of_lt (Array.getElem?_eq_some_iff.1 ht).1

theorem Free.congr (hf : m.Free t) (ht : m'.tasks = m.tasks) (hr : m'.reading = m.reading) :
    m'.Free t := by
  rw [Free, readers, ht, hr]
  exact hf

/-- Waking a task only makes it ready. -/
theorem wake_eq (m : Machine) (woken : Option TaskId) :
    ∃ ready, m.wake woken = { m with ready } := by
  cases woken with
  | none => exact ⟨m.ready, rfl⟩
  | some t => exact ⟨m.ready.push t, rfl⟩

theorem wake_tasks (m : Machine) (woken : Option TaskId) : (m.wake woken).tasks = m.tasks := by
  cases woken <;> rfl

theorem wake_reading (m : Machine) (woken : Option TaskId) :
    (m.wake woken).reading = m.reading := by
  cases woken <;> rfl

theorem wake_library (m : Machine) (woken : Option TaskId) :
    (m.wake woken).library = m.library := by
  cases woken <;> rfl

theorem wake_running (m : Machine) (woken : Option TaskId) :
    (m.wake woken).running = m.running := by
  cases woken <;> rfl

theorem Free.readCell {target : TaskId} {r : Option Outcome} (h : m.Orderly) (hf : m.Free u)
    (hr : m.readCell t target = (r, m')) : m'.Free u := by
  unfold Machine.readCell at hr
  cases ht : m.tasks[target]? with
  | none =>
    rw [ht] at hr
    cases hr
    exact hf
  | some task =>
    rw [ht] at hr
    cases hr
    have hread := (h.sound target task ht).read t
    refine (hf.onTask fun old ho _ hn hc => ?_).congr (wake_tasks _ _) (wake_reading _ _)
    rw [ht] at ho
    cases ho
    exact ⟨hn, hread.result.trans hc⟩

theorem readCell_eq {target : TaskId} {r : Option Outcome} (hr : m.readCell t target = (r, m')) :
    ∃ tasks ready, m' = { m with tasks, ready } := by
  unfold Machine.readCell at hr
  split at hr
  · cases hr
    exact ⟨m.tasks, m.ready, rfl⟩
  · cases hr
    exact ⟨_, (wake_eq _ _).choose, (wake_eq _ _).choose_spec⟩

theorem finish_eq (m : Machine) (t : TaskId) (o : Outcome) :
    ∃ tasks ready, m.finish t o = { m with tasks, ready } := by
  unfold Machine.finish
  split
  · exact ⟨m.tasks, m.ready, rfl⟩
  · exact ⟨_, (wake_eq _ _).choose, (wake_eq _ _).choose_spec⟩

theorem Serves.orderly {q : Request} {a : q.Answer} (hs : m.Serves t q log a m') (h : m.Orderly)
    (hm : m.running = none) (hf : m.Free t) : m'.Orderly ∧ m'.Free t := by
  cases hs with
  | spawn l job => exact ⟨h.addTask hm _ _, hf.addTask _ _⟩
  | await hr => exact ⟨h.readCell hm hr, hf.readCell h hr⟩
  | giveUp path =>
    exact ⟨h.congr (wake_tasks _ _) (wake_reading _ _) (wake_running _ _),
      hf.congr (wake_tasks _ _) (wake_reading _ _)⟩
  | _ => exact ⟨h.congr rfl rfl rfl, hf.congr rfl rfl⟩

theorem Orderly.reads {r : Reading} (h : m.Orderly) (hm : m.running = none) (hf : m.Free r.task) :
    Orderly { m with reading := m.reading ++ [r] } := by
  have hread : readers { m with reading := m.reading ++ [r] } = m.readers ++ [r.task] := by
    simp [readers]
  obtain ⟨hnot, task, ht, hn, hc⟩ := hf
  refine ⟨h.sound, fun u task' hu hne => ?_, fun u hu => ?_, ?_, fun u thread hu => ?_⟩
  · obtain ⟨hres, hnot'⟩ := h.aside u task' hu hne
    refine ⟨hres, ?_⟩
    rw [hread, List.mem_append, List.mem_singleton]
    rintro (hin | rfl)
    · exact hnot' hin
    · rw [ht] at hu
      cases hu
      exact hne hn
  · rw [hread, List.mem_append, List.mem_singleton] at hu
    rcases hu with hin | rfl
    · exact h.reading u hin
    · exact ⟨task, ht, hn, hc⟩
  · rw [hread]
    refine List.nodup_append.2 ⟨h.nodup, by simp, ?_⟩
    rintro u hu _ hr rfl
    exact hnot (List.mem_singleton.1 hr ▸ hu)
  · rw [show m.running = none from hm] at hu
    cases hu

theorem Serves.running {q : Request} {a : q.Answer} (hs : m.Serves t q log a m') :
    m'.running = m.running := by
  cases hs with
  | await hr =>
    obtain ⟨tasks, ready, rfl⟩ := readCell_eq hr
    rfl
  | giveUp path => exact wake_running _ _
  | _ => rfl

theorem Serves.reading {q : Request} {a : q.Answer} (hs : m.Serves t q log a m') :
    m'.reading = m.reading := by
  cases hs with
  | await hr =>
    obtain ⟨tasks, ready, rfl⟩ := readCell_eq hr
    rfl
  | giveUp path => exact wake_reading _ _
  | _ => rfl

/-- The running task goes on; `m` is the machine without it. -/
theorem Goes.orderly {thread : Thread} (hg : m.Goes t thread log m') (h : m.Orderly)
    (hm : m.running = none) (hf : m.Free t) : m'.Orderly := by
  cases hg with
  | turns _ => exact h.run hf
  | served hs =>
    obtain ⟨h', hf'⟩ := hs.orderly h hm hf
    exact h'.run hf'
  | @awaits _ _ _ m₁ hr =>
    have hrun : m₁.running = none := by
      obtain ⟨tasks, ready, he⟩ := readCell_eq hr
      rw [he]
      exact hm
    exact (h.readCell hm hr).suspend hrun (hf.readCell h hr)
  | claims hl =>
    exact Orderly.suspend (h.congr rfl rfl rfl) hm (hf.congr rfl rfl)
  | givesWay => exact (h.suspend hm hf).wake _
  | reads => exact h.reads hm hf
  | ends _ => exact h.finish hm hf

theorem Orderly.unread {r : Reading} {front back : List Reading} (h : m.Orderly)
    (hm : m.running = none) (hr : m.reading = front ++ r :: back) :
    Orderly { m with reading := front ++ back } ∧ Free { m with reading := front ++ back } r.task := by
  have hread : m.readers = front.map Reading.task ++ r.task :: back.map Reading.task := by
    simp [readers, hr]
  have hless : readers { m with reading := front ++ back } =
      front.map Reading.task ++ back.map Reading.task := by simp [readers]
  have hsub : ∀ u, u ∈ readers { m with reading := front ++ back } → u ∈ m.readers := by
    intro u hu
    rw [hless, List.mem_append] at hu
    rw [hread, List.mem_append, List.mem_cons]
    exact hu.imp_right .inr
  have hnd := h.nodup
  rw [hread, List.nodup_append] at hnd
  obtain ⟨hfront, hback, hne⟩ := hnd
  obtain ⟨hnot, hback⟩ := List.nodup_cons.1 hback
  refine ⟨⟨h.sound, fun u task hu hth => ?_, fun u hu => h.reading u (hsub u hu), ?_, ?_⟩, ?_, ?_⟩
  · obtain ⟨hres, hnotin⟩ := h.aside u task hu hth
    exact ⟨hres, fun hin => hnotin (hsub u hin)⟩
  · rw [hless, List.nodup_append]
    exact ⟨hfront, hback, fun a ha b hb => hne a ha b (List.mem_cons_of_mem _ hb)⟩
  · intro u thread hu
    rw [show m.running = none from hm] at hu
    cases hu
  · rw [hless, List.mem_append]
    rintro (hin | hin)
    · exact hne _ hin _ (List.mem_cons_self ..) rfl
    · exact hnot hin
  · refine h.reading r.task ?_
    rw [hread]
    simp

/-- A machine stays orderly, whatever move is made. -/
theorem Orderly.change (h : m.Orderly) (hc : m.Change log m') : m'.Orderly := by
  cases hc with
  | @goes t thread _ _ hr hg =>
    have h₀ : Orderly { m with running := none } :=
      ⟨h.sound, h.aside, h.reading, h.nodup, nofun⟩
    exact hg.orderly h₀ rfl ((h.running t thread hr).congr rfl rfl)
  | take hr _ _ => exact Orderly.resume (h.congr rfl rfl rfl) hr
  | read a hr hm =>
    obtain ⟨h', hf⟩ := h.unread hr hm
    exact h'.run hf

/-! ## Where tasks stand -/

theorem stand_lt {s : Stand} (h : m.stand u = some s) : u < m.tasks.size := by
  obtain ⟨task, ht, _⟩ := Option.map_eq_some_iff.1 h
  exact (Array.getElem?_eq_some_iff.1 ht).1

theorem stand_onTask {f : Task → Task} {g : Stand → Stand}
    (hf : ∀ task, m.tasks[t]? = some task → (f task).stand = g task.stand) (u : TaskId) :
    (m.onTask t f).stand u = if t = u then (m.stand u).map g else m.stand u := by
  rw [stand, stand, tasks_onTask]
  split
  · next he =>
    subst he
    cases ht : m.tasks[t]? with
    | none => rfl
    | some task => exact congrArg some (hf task ht)
  · rfl

/-- Where only one task changes its stand, a stand is that task's new one or the one there was. -/
theorem stand_of_change {g : Stand → Stand} {s : Stand}
    (hst : ∀ u, m'.stand u = if t = u then (m.stand u).map g else m.stand u)
    (h : m'.stand u = some s) : (∃ s₀, u = t ∧ m.stand t = some s₀ ∧ s = g s₀) ∨ m.stand u = some s := by
  rw [hst] at h
  split at h
  · next he =>
    subst he
    obtain ⟨s₀, hs₀, rfl⟩ := Option.map_eq_some_iff.1 h
    exact .inl ⟨s₀, rfl, hs₀, rfl⟩
  · exact .inr h

theorem stand_wake (m : Machine) (woken : Option TaskId) (u : TaskId) :
    (m.wake woken).stand u = m.stand u := by
  rw [stand, stand, wake_tasks]

theorem stand_suspend (m : Machine) (t u : TaskId) (thread : Thread) :
    (m.suspend t thread).stand u =
      if t = u then (m.stand u).map ({ · with thread := some thread }) else m.stand u :=
  stand_onTask (fun _ _ => rfl) u

theorem stand_finish (m : Machine) (t u : TaskId) (o : Outcome) :
    (m.finish t o).stand u =
      if t = u then (m.stand u).map fun s => ⟨s.origin, none, some (s.close o)⟩
      else m.stand u := by
  unfold Machine.finish
  cases ht : m.tasks[t]? with
  | none =>
    dsimp only
    split
    · next he =>
      subst he
      simp only [stand, ht, Option.map_none]
    · rfl
  | some task =>
    refine (stand_wake _ _ u).trans (stand_onTask (fun task' ht' => ?_) u)
    rw [ht] at ht'
    cases ht'
    rfl

theorem size_finish (m : Machine) (t : TaskId) (o : Outcome) :
    (m.finish t o).tasks.size = m.tasks.size := by
  unfold Machine.finish
  split
  · rfl
  · rw [wake_tasks]
    exact Array.size_modify

theorem stand_addTask (m : Machine) (origin : Option Location) (job : Job) (u : TaskId) :
    (m.addTask origin job).2.stand u =
      if u = m.tasks.size then some ⟨origin, some job.thread, none⟩ else m.stand u := by
  rw [addTask_eq, stand, stand, Array.getElem?_push]
  split
  · rfl
  · rfl

/-- A task that is added is to begin with its job. -/
theorem stand_addTask_self (m : Machine) (origin : Option Location) (job : Job) :
    (m.addTask origin job).2.stand m.tasks.size = some ⟨origin, some job.thread, none⟩ :=
  (stand_addTask m origin job _).trans (if_pos rfl)

/-- Taking up a task that was put aside, if it was. -/
theorem resume_cases (m : Machine) (t : TaskId) :
    m.resume t = m ∨ ∃ s thread m₁, m.stand t = some s ∧ s.thread = some thread ∧
      m.resume t = m₁.run t thread ∧ m₁ = m.onTask t ({ · with thread := none }) := by
  unfold Machine.resume
  cases hb : m.tasks[t]?.bind (·.thread) with
  | none => exact .inl rfl
  | some thread =>
    obtain ⟨task, ht, hth⟩ := Option.bind_eq_some_iff.1 hb
    exact .inr ⟨task.stand, thread, _, stand_eq ht, hth, rfl, rfl⟩

theorem resume_eq (m : Machine) (t : TaskId) :
    ∃ tasks running, m.resume t = { m with tasks, running } ∧ tasks.size = m.tasks.size := by
  obtain he | ⟨s, θ, m₁, hs, hθ, he, rfl⟩ := m.resume_cases t
  · exact ⟨m.tasks, m.running, he, rfl⟩
  · exact ⟨_, _, he, Array.size_modify⟩

/-- Reading a cell changes nothing but the cell, and finds what the task came to. -/
structure Reads (m : Machine) (target : TaskId) (r : Option Outcome) (m' : Machine) : Prop where
  stand : ∀ u, m'.stand u = m.stand u
  scope : m'.scope = m.scope
  library : m'.library = m.library
  size : m'.tasks.size = m.tasks.size
  running : m'.running = m.running
  reading : m'.reading = m.reading
  stamps : m'.stamps = m.stamps
  found : ∀ s o, m.stand target = some s → r = some o → s.result = some o

theorem Orderly.reads_readCell {target : TaskId} {r : Option Outcome} (h : m.Orderly)
    (hr : m.readCell t target = (r, m')) : m.Reads target r m' := by
  unfold Machine.readCell at hr
  cases ht : m.tasks[target]? with
  | none =>
    rw [ht] at hr
    cases hr
    refine ⟨fun _ => rfl, rfl, rfl, rfl, rfl, rfl, rfl, fun s o hs => ?_⟩
    rw [stand, ht] at hs
    cases hs
  | some task =>
    rw [ht] at hr
    cases hr
    have hread := (h.sound target task ht).read t
    have hstand : ∀ u, (m.setCell target (task.cell.read t).cell).stand u = m.stand u := by
      intro u
      refine (stand_onTask (g := id) (fun task' ht' => ?_) u).trans ?_
      · rw [ht] at ht'
        cases ht'
        simp only [Task.stand, hread.result, id]
      · rw [Option.map_id, id, ite_self]
    obtain ⟨ready, hw⟩ :=
      wake_eq (m.setCell target (task.cell.read t).cell) (task.cell.read t).woken
    rw [hw]
    refine ⟨hstand, rfl, rfl, Array.size_modify, rfl, rfl, rfl, fun s o hs ho => ?_⟩
    · cases (stand_eq ht).symm.trans hs
      exact hread.outcome o ho

/-! ## Runs that are over -/

/-- A machine without tasks. -/
theorem orderly_new (ht : m.tasks = #[]) (hr : m.reading = []) (hrun : m.running = none) :
    m.Orderly := by
  refine ⟨fun u task hu => ?_, fun u task hu => ?_, fun u hu => ?_, ?_, fun t thread hm => ?_⟩
  · simp [ht] at hu
  · simp [ht] at hu
  · simp [readers, hr] at hu
  · simp [readers, hr]
  · rw [hrun] at hm
    cases hm

theorem Orderly.runs (hr : Runs m log m') (h : m.Orderly) : m'.Orderly := by
  induction hr with
  | refl => exact h
  | head hm _ ih => exact ih (h.change hm.change)

theorem result?_eq (m : Machine) (u : TaskId) : m.result? u = (m.stand u).bind (·.result) := by
  rw [result?, stand, Option.bind_map]
  rfl

/-- All tasks have come to something. -/
def Ended (m : Machine) : Prop := ∀ u < m.tasks.size, (m.result? u).isSome = true

theorem Ended.result {task : Task} (h : m.Ended) (hu : m.tasks[u]? = some task) :
    task.cell.result ≠ none := by
  have hsome := h u (Array.getElem?_eq_some_iff.1 hu).1
  rw [result?, hu] at hsome
  exact Option.isSome_iff_ne_none.1 hsome

theorem Ended.aside {task : Task} (h : m.Ended) (ho : m.Orderly) (hu : m.tasks[u]? = some task) :
    task.thread = none := by
  cases ht : task.thread with
  | none => rfl
  | some thread =>
    have hne : task.thread ≠ none := by
      rw [ht]
      exact Option.some_ne_none thread
    exact absurd (ho.aside u task hu hne).1 (h.result hu)

theorem Ended.running (h : m.Ended) (ho : m.Orderly) : m.running = none := by
  cases hr : m.running with
  | none => rfl
  | some r =>
    obtain ⟨_, task, hu, _, hn⟩ := ho.running r.1 r.2 hr
    exact absurd hn (h.result hu)

theorem Ended.reading (h : m.Ended) (ho : m.Orderly) : m.reading = [] := by
  cases hr : m.reading with
  | nil => rfl
  | cons r rest =>
    obtain ⟨task, hu, _, hn⟩ := ho.reading r.task (by simp [readers, hr])
    exact absurd hn (h.result hu)

end Machine

end Concatenative
