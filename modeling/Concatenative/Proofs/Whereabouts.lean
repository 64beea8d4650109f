import Concatenative.Proofs.Tasks

/-! Where the tasks of a machine are. A task runs, is ready, reads a file, waits at the cell of a task or
waits for a module, and is never at two of these places. Main statement: any order of the moves keeps
each task at one place (`Placed.change`), so that a task that runs stands in no line. -/
namespace Concatenative

/-! ## Lines -/

/-- A change of one part of a list changes what the parts hold together by what that part holds. -/
theorem count_flatMap_modify {α : Type} {as : List α} {i : Nat} {a : α} (h : as[i]? = some a)
    (f : α → α) (g : α → List TaskId) (q : TaskId) :
    ((as.modify i f).flatMap g).count q + (g a).count q =
      (as.flatMap g).count q + (g (f a)).count q := by
  induction as generalizing i with
  | nil => simp at h
  | cons b as ih =>
    cases i with
    | zero =>
      simp only [List.getElem?_cons_zero, Option.some.injEq] at h
      subst h
      simp only [List.modify_zero_cons, List.flatMap_cons, List.count_append]
      omega
    | succ i =>
      have hrest := ih (i := i) (by simpa using h)
      simp only [List.modify_succ_cons, List.flatMap_cons, List.count_append]
      omega

/-- The first of a list and the others. -/
theorem count_head?_tail (qs : List TaskId) (q : TaskId) :
    qs.head?.toList.count q + qs.tail.count q = qs.count q := by
  cases qs with
  | nil => rfl
  | cons a qs => simp [List.count_cons, Nat.add_comm]

namespace Cell

/-- The reader that waits for the end of the computation. -/
def joiner (c : Cell) : List TaskId :=
  match c.result with
  | some _ => []
  | none => c.joined.toList

/-- The readers that wait at a cell. -/
def attending (c : Cell) : List TaskId := c.waiting ++ c.joiner

variable {c : Cell} {reader q : TaskId} {o : Outcome}

/-- Whoever is given the lock no longer waits at the cell. -/
theorem count_handOn (c : Cell) (o : Outcome) (q : TaskId) :
    (c.handOn o).cell.attending.count q + (c.handOn o).woken.toList.count q =
      c.attending.count q := by
  have hline := count_head?_tail c.waiting q
  have hjoiner : (c.handOn o).cell.joiner = c.joiner := rfl
  simp only [attending, hjoiner, List.count_append]
  simp only [handOn]
  omega

theorem count_join (c : Cell) (reader q : TaskId) :
    let r := c.join reader
    r.cell.attending.count q + r.woken.toList.count q = c.attending.count q ∨
      r.outcome = none ∧ r.cell.attending.count q + r.woken.toList.count q =
        c.attending.count q + [reader].count q := by
  unfold join
  split
  · next hj =>
    obtain ⟨outcome, result, holder, joined, waiting⟩ := c
    cases result with
    | some o => exact .inl (count_handOn _ o q)
    | none =>
      cases joined with
      | none => exact .inr ⟨rfl, by simp [attending, joiner]⟩
      | some r => exact .inl (by simp_all [attending, joiner])
  · exact .inl (count_handOn _ _ q)

/-- A reader that tries to read leaves those that wait as they are, or gets no outcome and waits with
them. -/
theorem count_read (c : Cell) (reader q : TaskId) :
    let r := c.read reader
    r.cell.attending.count q + r.woken.toList.count q = c.attending.count q ∨
      r.outcome = none ∧ r.cell.attending.count q + r.woken.toList.count q =
        c.attending.count q + [reader].count q := by
  obtain ⟨outcome, result, holder, joined, waiting⟩ := c
  cases outcome with
  | some o =>
    simp only [read]
    split
    · exact .inl (count_handOn _ o q)
    · exact .inl rfl
  | none =>
    cases holder with
    | none => exact count_join ⟨none, result, some reader, joined, waiting⟩ reader q
    | some holder =>
      simp only [read]
      split
      · exact count_join _ reader q
      · refine .inr ⟨rfl, ?_⟩
        simp only [attending, joiner, List.count_append, Option.toList_none, List.count_nil]
        omega

/-- Whoever waits for the end of the computation is woken by it. -/
theorem count_finish (hr : c.result = none) (o : Outcome) (q : TaskId) :
    (c.finish o).1.attending.count q + (c.finish o).2.toList.count q = c.attending.count q := by
  simp [finish, attending, joiner, hr]

end Cell

/-! ## Modules -/

namespace Library

/-- The tasks that wait for a module. -/
def waiting (l : Library) : List TaskId := l.shelves.flatMap Shelf.waiting

/-- No path has two shelves. -/
def Distinct (l : Library) : Prop := (l.shelves.map fun s => s.path.components).Nodup

variable {l l' : Library} {p : Path} {s : Shelf} {f : Shelf → Shelf} {task q : TaskId}

theorem Distinct.update (h : l.Distinct) (hf : ∀ s, (f s).path = s.path) :
    (l.update p f).Distinct := by
  have hpaths : (l.update p f).shelves.map (fun s => s.path.components) =
      l.shelves.map fun s => s.path.components := by
    simp only [Library.update, List.map_map]
    apply List.map_congr_left
    intro s _
    simp only [Function.comp_apply]
    split
    · rw [hf]
    · rfl
  rw [Distinct, hpaths]
  exact h

theorem map_update_eq_self {shelves : List Shelf} (h : ∀ s ∈ shelves, ¬s.path.same p = true) :
    shelves.map (fun s => if s.path.same p then f s else s) = shelves := by
  refine (List.map_congr_left fun s hs => ?_).trans (List.map_id shelves)
  exact if_neg (h s hs)

theorem update_eq_self (hs : l.shelf? p = none) : l.update p f = l := by
  rw [Library.update, map_update_eq_self (List.find?_eq_none.1 hs)]

/-- A change of a shelf changes what waits by what waits for its module. -/
theorem count_update (h : l.Distinct) (hs : l.shelf? p = some s) (q : TaskId) :
    (l.update p f).waiting.count q + s.waiting.count q =
      l.waiting.count q + (f s).waiting.count q := by
  obtain ⟨settings, shelves, parseCount⟩ := l
  simp only [Distinct, shelf?] at h hs
  simp only [Library.update, waiting]
  induction shelves with
  | nil => simp at hs
  | cons a shelves ih =>
    obtain ⟨hnot, hrest⟩ := List.nodup_cons.1 h
    cases hsame : a.path.same p with
    | true =>
      have hothers : ∀ b ∈ shelves, ¬b.path.same p = true := by
        intro b hb hb'
        simp only [Path.same, decide_eq_true_eq] at hsame hb'
        exact hnot (List.mem_map.2 ⟨b, hb, hb'.trans hsame.symm⟩)
      rw [List.find?_cons, hsame] at hs
      cases hs
      simp only [List.map_cons, hsame, map_update_eq_self hothers, if_true, List.flatMap_cons,
        List.count_append]
      omega
    | false =>
      rw [List.find?_cons, hsame] at hs
      have hothers := ih hrest hs
      simp only [List.map_cons, hsame, Bool.false_eq_true, if_false, List.flatMap_cons,
        List.count_append]
      omega

/-- What becomes of a library when a task wants a module. -/
theorem claim_cases {c : Claim} (hc : l.claim p task = (l', c)) :
    (l' = l ∧ c ≠ .wait) ∨
    (l.shelf? p = none ∧ c ≠ .wait ∧
      l' = { l with shelves := { path := p, loader := some task } :: l.shelves }) ∨
    ∃ s f, l.shelf? p = some s ∧ l' = l.update p f ∧ (∀ s, (f s).path = s.path) ∧
      ((f s).waiting = s.waiting ∧ c ≠ .wait ∨ (f s).waiting = s.waiting ++ [task] ∧ c = .wait) := by
  unfold Library.claim at hc
  cases hs : l.shelf? p with
  | none =>
    simp only [hs] at hc
    cases hc
    exact .inr (.inl ⟨rfl, nofun, rfl⟩)
  | some s =>
    simp only [hs] at hc
    split at hc
    · cases hc
      exact .inl ⟨rfl, nofun⟩
    · cases hc
      exact .inr (.inr ⟨s, _, rfl, rfl, fun _ => rfl, .inl ⟨rfl, nofun⟩⟩)
    · split at hc
      · cases hc
        exact .inl ⟨rfl, nofun⟩
      · cases hc
        exact .inr (.inr ⟨s, _, rfl, rfl, fun _ => rfl, .inr ⟨rfl, rfl⟩⟩)

theorem Distinct.claim {c : Claim} (h : l.Distinct) (hc : l.claim p task = (l', c)) :
    l'.Distinct := by
  rcases claim_cases hc with ⟨rfl, _⟩ | ⟨hs, _, rfl⟩ | ⟨s, f, _, rfl, hf, _⟩
  · exact h
  · refine List.nodup_cons.2 ⟨?_, h⟩
    intro hin
    obtain ⟨s, hin, hp⟩ := List.mem_map.1 hin
    exact List.find?_eq_none.1 hs s hin (by simp [Path.same, hp])
  · exact h.update hf

/-- A task that wants a module leaves those that wait as they are, or is told to wait with them. -/
theorem count_claim {c : Claim} (h : l.Distinct) (hc : l.claim p task = (l', c)) (q : TaskId) :
    l'.waiting.count q = l.waiting.count q ∨
      c = .wait ∧ l'.waiting.count q = l.waiting.count q + [task].count q := by
  rcases claim_cases hc with ⟨rfl, _⟩ | ⟨_, _, rfl⟩ | ⟨s, f, hs, rfl, _, hf⟩
  · exact .inl rfl
  · exact .inl rfl
  · have hcount := count_update (f := f) h hs q
    rcases hf with ⟨hw, _⟩ | ⟨hw, hc⟩
    · rw [hw] at hcount
      exact .inl (by omega)
    · rw [hw, List.count_append] at hcount
      exact .inr ⟨hc, by omega⟩

/-- Whoever is woken no longer waits for the module. -/
theorem count_publish (h : l.Distinct) (p : Path) (body : Body) (q : TaskId) :
    (l.publish p body).1.waiting.count q + (l.publish p body).2.count q = l.waiting.count q := by
  unfold Library.publish
  cases hs : l.shelf? p with
  | none => simp [update_eq_self hs]
  | some s => exact count_update h hs q

theorem count_giveUp (h : l.Distinct) (p : Path) (q : TaskId) :
    (l.giveUp p).1.waiting.count q + (l.giveUp p).2.toList.count q = l.waiting.count q := by
  unfold Library.giveUp
  cases hs : l.shelf? p with
  | none => simp [update_eq_self hs]
  | some s =>
    have hcount := count_update
      (f := fun s => { s with loader := s.waiting.head?, waiting := s.waiting.tail }) h hs q
    have hline := count_head?_tail s.waiting q
    simp only [Option.bind_some] at hcount ⊢
    omega

end Library

/-! ## Machines -/

namespace Machine

/-- The tasks that wait at a cell. -/
def attending (m : Machine) : List TaskId := m.tasks.toList.flatMap fun task => task.cell.attending

/-- Where tasks are, a task once for each place. -/
def whereabouts (m : Machine) : List TaskId :=
  (m.running.map Prod.fst).toList ++ m.ready.toList ++ m.readers ++ m.attending ++ m.library.waiting

/-- How many places a task may be at. -/
def room (m : Machine) (q : TaskId) : Nat := if q < m.tasks.size then 1 else 0

/-- No task is at two places. -/
structure Placed (m : Machine) : Prop where
  distinct : m.library.Distinct
  once : ∀ q, m.whereabouts.count q ≤ m.room q

variable {m m' : Machine} {t u : TaskId} {log : List Asked}

theorem count_whereabouts (m : Machine) (q : TaskId) :
    m.whereabouts.count q = (m.running.map Prod.fst).toList.count q + m.ready.toList.count q +
      m.readers.count q + m.attending.count q + m.library.waiting.count q := by
  simp only [whereabouts, List.count_append]

theorem count_run (hm : m.running = none) (thread : Thread) (q : TaskId) :
    (m.run t thread).whereabouts.count q = m.whereabouts.count q + [t].count q := by
  simp only [count_whereabouts, run, hm, readers, attending, Option.map_none, Option.map_some,
    Option.toList_none, Option.toList_some, List.count_nil]
  omega

theorem count_library (m : Machine) (library : Library) (q : TaskId) :
    (whereabouts { m with library }).count q + m.library.waiting.count q =
      m.whereabouts.count q + library.waiting.count q := by
  simp only [count_whereabouts, readers, attending]
  omega

theorem count_wake (m : Machine) (woken : Option TaskId) (q : TaskId) :
    (m.wake woken).whereabouts.count q = m.whereabouts.count q + woken.toList.count q := by
  cases woken with
  | none => rfl
  | some t =>
    simp only [count_whereabouts, wake, readers, attending, Queue.toList_push, List.count_append,
      Option.toList_some]
    omega

theorem count_onTask {task : Task} (ht : m.tasks[t]? = some task) (f : Task → Task) (q : TaskId) :
    (m.onTask t f).whereabouts.count q + task.cell.attending.count q =
      m.whereabouts.count q + (f task).cell.attending.count q := by
  have hlist : m.tasks.toList[t]? = some task := by simpa using ht
  have hcount := count_flatMap_modify hlist f (fun task => task.cell.attending) q
  rw [← Array.toList_modify] at hcount
  simp only [count_whereabouts, onTask, readers, attending]
  omega

theorem room_onTask (m : Machine) (t : TaskId) (f : Task → Task) (q : TaskId) :
    (m.onTask t f).room q = m.room q := by
  simp only [room, onTask, Array.size_modify]

theorem room_wake (m : Machine) (woken : Option TaskId) (q : TaskId) :
    (m.wake woken).room q = m.room q := by
  rw [room, room, wake_tasks]

theorem count_suspend (hf : m.Free t) (thread : Thread) (q : TaskId) :
    (m.suspend t thread).whereabouts.count q = m.whereabouts.count q := by
  obtain ⟨_, task, ht, _⟩ := hf
  have hcount := count_onTask ht (fun task => { task with thread := some thread }) q
  exact Nat.add_right_cancel hcount

/-- A task that is taken up runs, if it was put aside. -/
theorem count_resume (hm : m.running = none) (t q : TaskId) :
    (m.resume t).whereabouts.count q ≤ m.whereabouts.count q + [t].count q := by
  unfold resume
  cases hb : m.tasks[t]?.bind (·.thread) with
  | none => exact Nat.le_add_right _ _
  | some thread =>
    obtain ⟨task, ht, _⟩ := Option.bind_eq_some_iff.1 hb
    have hsame := Nat.add_right_cancel (count_onTask ht ({ · with thread := none }) q)
    have hrun : (m.onTask t ({ · with thread := none })).running = none := hm
    have hcount := count_run (t := t) hrun thread q
    rw [hsame] at hcount
    exact Nat.le_of_eq hcount

/-- A task that reads what another came to stays where it is, or has to wait. -/
theorem count_readCell {target : TaskId} {r : Option Outcome} (hr : m.readCell t target = (r, m'))
    (q : TaskId) :
    m'.whereabouts.count q = m.whereabouts.count q ∨
      r = none ∧ m'.whereabouts.count q = m.whereabouts.count q + [t].count q := by
  unfold readCell at hr
  cases ht : m.tasks[target]? with
  | none =>
    rw [ht] at hr
    cases hr
    exact .inl rfl
  | some task =>
    rw [ht] at hr
    cases hr
    have hcell := count_onTask ht ({ · with cell := (task.cell.read t).cell }) q
    rw [count_wake, setCell]
    dsimp only at hcell
    rcases task.cell.count_read t q with hsame | ⟨hn, hmore⟩
    · exact .inl (by omega)
    · exact .inr ⟨hn, by omega⟩

theorem room_readCell {target : TaskId} {r : Option Outcome} (hr : m.readCell t target = (r, m'))
    (q : TaskId) : m'.room q = m.room q := by
  unfold readCell at hr
  split at hr
  · cases hr
    rfl
  · cases hr
    rw [room_wake, setCell, room_onTask]

theorem finish_of_task {task : Task} (ht : m.tasks[t]? = some task) (o : Outcome) :
    m.finish t o = (m.onTask t
      ({ · with thread := none, cell := (task.cell.finish (task.stand.close o)).1 })).wake
        (task.cell.finish (task.stand.close o)).2 := by
  simp only [finish, ht]
  rfl

theorem count_finish (hf : m.Free t) (o : Outcome) (q : TaskId) :
    (m.finish t o).whereabouts.count q = m.whereabouts.count q := by
  obtain ⟨_, task, ht, _, hn⟩ := hf
  have hcell := count_onTask ht
    ({ · with thread := none, cell := (task.cell.finish (task.stand.close o)).1 }) q
  have hend := Cell.count_finish hn (task.stand.close o) q
  rw [finish_of_task ht, count_wake]
  dsimp only at hcell
  omega

theorem room_finish (m : Machine) (t : TaskId) (o : Outcome) (q : TaskId) :
    (m.finish t o).room q = m.room q := by
  unfold finish
  split
  · rfl
  · rw [room_wake, room_onTask]

theorem count_addTask (m : Machine) (origin : Option Location) (job : Job) (q : TaskId) :
    (m.addTask origin job).2.whereabouts.count q = m.whereabouts.count q + [m.tasks.size].count q := by
  have hcell : Cell.attending {} = [] := rfl
  simp only [addTask_eq, count_whereabouts, readers, attending, Queue.toList_push, List.count_append,
    Array.toList_push, List.flatMap_append, List.flatMap_cons, List.flatMap_nil, hcell, List.count_nil]
  omega

theorem room_addTask (m : Machine) (origin : Option Location) (job : Job) (q : TaskId) :
    (m.addTask origin job).2.room q = m.room q + [m.tasks.size].count q := by
  simp only [addTask_eq, room, Array.size_push]
  rcases Nat.lt_trichotomy q m.tasks.size with hlt | rfl | hgt
  · simp [hlt, Nat.lt_succ_of_lt hlt, Nat.ne_of_gt hlt]
  · simp
  · simp [Nat.not_lt_of_lt hgt, Nat.not_lt_of_le hgt, Nat.ne_of_lt hgt]

/-! ## Moves -/

theorem Serves.distinct {q : Request} {a : q.Answer} (hs : m.Serves t q log a m')
    (hd : m.library.Distinct) : m'.library.Distinct := by
  cases hs with
  | await hr =>
    obtain ⟨tasks, ready, rfl⟩ := readCell_eq hr
    exact hd
  | cached hc => exact hd.claim hc
  | granted hc => exact hd.claim hc
  | publish path body => exact hd.update fun _ => rfl
  | giveUp path =>
    obtain ⟨ready, hw⟩ :=
      wake_eq { m with library := (m.library.giveUp path).1 } (m.library.giveUp path).2
    rw [hw]
    exact hd.update fun _ => rfl
  | _ => exact hd

/-- A task that is answered at once leaves all tasks where they are, but for those that are woken and
the one that it started. -/
theorem Serves.count {q : Request} {a : q.Answer} (hs : m.Serves t q log a m')
    (hd : m.library.Distinct) (u : TaskId) :
    m'.whereabouts.count u + m.room u = m.whereabouts.count u + m'.room u := by
  cases hs with
  | spawn l job =>
    rw [count_addTask, room_addTask]
    omega
  | await hr =>
    rcases count_readCell hr u with hsame | ⟨hn, _⟩
    · rw [hsame, room_readCell hr]
    · cases hn
  | @cached _ library _ hc | @granted _ library hc =>
    have hlibrary := count_library m library u
    rcases Library.count_claim hd hc u with hsame | ⟨hn, _⟩
    · simp only [room]
      omega
    · cases hn
  | publish path body =>
    have hcount := Library.count_publish hd path body u
    simp only [count_whereabouts, readers, attending, Queue.toList_pushAll, List.count_append, room]
    omega
  | giveUp path =>
    have hcount := Library.count_giveUp hd path u
    have hlibrary := count_library m (m.library.giveUp path).1 u
    rw [count_wake, room_wake]
    simp only [room]
    omega
  | _ => rfl

theorem Goes.distinct {thread : Thread} (hg : m.Goes t thread log m') (hd : m.library.Distinct) :
    m'.library.Distinct := by
  cases hg with
  | served hs => exact hs.distinct hd
  | awaits hr =>
    obtain ⟨tasks, ready, rfl⟩ := readCell_eq hr
    exact hd
  | claims hc => exact hd.claim hc
  | @ends _ o _ =>
    obtain ⟨tasks, ready, he⟩ := finish_eq m t o
    rw [he]
    exact hd
  | _ => exact hd

/-- The running task goes to one place at most; `m` is the machine without it. -/
theorem Goes.count {thread : Thread} (hg : m.Goes t thread log m') (h : m.Orderly)
    (hm : m.running = none) (hf : m.Free t) (hd : m.library.Distinct) (u : TaskId) :
    m'.whereabouts.count u + m.room u ≤ m.whereabouts.count u + [t].count u + m'.room u := by
  cases hg with
  | turns _ =>
    rw [count_run hm]
    exact Nat.le_refl _
  | @served _ _ _ _ a m₁ hs =>
    have hcount := hs.count hd u
    have hroom : ∀ thread, (m₁.run t thread).room u = m₁.room u := fun _ => rfl
    rw [count_run (hs.running.trans hm), hroom]
    omega
  | @awaits _ _ _ m₁ hr =>
    rw [count_suspend (hf.readCell h hr), suspend, room_onTask, room_readCell hr]
    rcases count_readCell hr u with hsame | ⟨_, hmore⟩ <;> omega
  | @claims _ _ _ library hl =>
    have hlibrary := count_library m library u
    have hfree : Free { m with library } t := hf.congr rfl rfl
    have hroom : room { m with library } u = m.room u := rfl
    rw [count_suspend hfree, suspend, room_onTask, hroom]
    rcases Library.count_claim hd hl u with hsame | ⟨_, hmore⟩ <;> omega
  | givesWay =>
    rw [count_wake, room_wake, count_suspend hf, suspend, room_onTask]
    exact Nat.le_refl _
  | reads =>
    simp only [count_whereabouts, readers, attending, room, List.map_append, List.map_cons,
      List.map_nil, List.count_append]
    omega
  | @ends _ o _ =>
    rw [count_finish hf, room_finish]
    omega

theorem count_of_running {thread : Thread} (hr : m.running = some (t, thread)) (q : TaskId) :
    m.whereabouts.count q = (whereabouts { m with running := none }).count q + [t].count q := by
  have hrun : { m with running := none }.run t thread = m := by rw [run, ← hr]
  have hcount := count_run (m := { m with running := none }) (t := t) rfl thread q
  rwa [hrun] at hcount

/-- Whatever move is made, a task is at no more places than before, unless it is new. -/
theorem Change.count (hc : m.Change log m') (ho : m.Orderly) (hd : m.library.Distinct) (q : TaskId) :
    m'.whereabouts.count q + m.room q ≤ m.whereabouts.count q + m'.room q := by
  cases hc with
  | @goes t thread _ _ hr hg =>
    have h₀ : Orderly { m with running := none } := ho.idle
    have hf : Free { m with running := none } t := (ho.running t thread hr).congr rfl rfl
    have hcount := hg.count h₀ rfl hf hd q
    rw [count_of_running hr]
    exact hcount
  | @take t front back ready hr hf hb =>
    have hcount := count_resume (m := { m with ready }) hr t
    obtain ⟨tasks, running, he, hsize⟩ := resume_eq { m with ready } t
    rw [he] at hcount ⊢
    have hready : (whereabouts { m with ready }).count q + [t].count q = m.whereabouts.count q := by
      simp only [count_whereabouts, readers, attending, hf, hb, List.count_append, List.count_cons,
        List.count_nil]
      omega
    have hroom : m.room q = room { m with tasks, running, ready } q := by rw [room, room, hsize]
    rw [hroom]
    exact Nat.add_le_add_right (hready ▸ hcount q) _
  | @read r front back a hr hm =>
    refine Nat.add_le_add_right (Nat.le_of_eq ?_) _
    have hrun : running { m with reading := front ++ back } = none := hr
    rw [count_run hrun]
    simp only [count_whereabouts, readers, attending, hm, List.map_append, List.map_cons,
      List.count_append, List.count_cons, List.count_nil]
    omega

theorem Change.distinct (hc : m.Change log m') (hd : m.library.Distinct) : m'.library.Distinct := by
  cases hc with
  | goes _ hg => exact hg.distinct hd
  | @take t _ _ ready _ _ _ =>
    obtain ⟨tasks, running, he, _⟩ := resume_eq { m with ready } t
    rw [he]
    exact hd
  | read _ _ _ => exact hd

/-- Tasks stay at one place, whatever move is made. -/
theorem Placed.change (h : m.Placed) (ho : m.Orderly) (hc : m.Change log m') : m'.Placed := by
  refine ⟨hc.distinct h.distinct, fun q => ?_⟩
  have hcount := hc.count ho h.distinct q
  have honce := h.once q
  omega

/-- A machine without tasks. -/
theorem placed_new (ht : m.tasks = #[]) (hready : m.ready.toList = []) (hr : m.reading = [])
    (hrun : m.running = none) (hl : m.library.shelves = []) : m.Placed := by
  constructor
  · simp [Library.Distinct, hl]
  · intro q
    simp [count_whereabouts, readers, attending, Library.waiting, ht, hready, hr, hrun, hl]

theorem Placed.addTask (h : m.Placed) (origin : Option Location) (job : Job) :
    (m.addTask origin job).2.Placed := by
  refine ⟨h.distinct, fun q => ?_⟩
  have honce := h.once q
  rw [count_addTask, room_addTask]
  omega

/-- A task that runs stands in no line. -/
theorem Placed.not_mem_waiting (h : m.Placed) {thread : Thread} (hr : m.running = some (t, thread))
    {task : Task} (hu : m.tasks[u]? = some task) : t ∉ task.cell.waiting := by
  intro hin
  have honce := h.once t
  have hroom : m.room t ≤ 1 := by
    unfold room
    split <;> omega
  have hattends : t ∈ m.attending := by
    refine List.mem_flatMap.2 ⟨task, ?_, List.mem_append_left _ hin⟩
    exact Array.mem_toList_iff.2 (Array.mem_of_getElem? hu)
  have hpos := List.count_pos_iff.2 hattends
  rw [count_whereabouts, hr] at honce
  simp only [Option.map_some, Option.toList_some, List.count_singleton_self] at honce
  omega

end Machine

end Concatenative
