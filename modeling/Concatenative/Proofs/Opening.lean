import Concatenative.Proofs.Quiescence

/-! Modules that are opened from outside. When nothing else is left to be done, the task that opens a
module is alone: it asks the library, reads the file and makes a frame for the module, and touches
nothing that was there. Main statement: such a task comes to a failure and has made nothing, or to a
closure over a new frame under the root (`Opening.ended`). -/
namespace Concatenative

open Session (root)

/-! ## What is asked -/

/-- A request that concerns the library or nothing at all. -/
def Request.ofLibrary : Request → Bool
  | settings | claim _ | countParse | publish _ _ | giveUp _ | note _ | world (.content _) => true
  | _ => false

/-- Asks the library, and then fails or makes a frame and a closure over it. -/
inductive Act.Opens (path : Path) : Act (Except Failure Next) → Prop
  | asks {q : Request} {k : q.Answer → Act (Except Failure Next)} : q.ofLibrary = true →
      (∀ a, Opens path (k a)) → Opens path (.ask q k)
  | fails (e : Failure) : Opens path (.done (.error e))
  | enters (body : Body) : Opens path (.ask (.enterModule root path) fun f =>
      .ask .stamp fun n => .done (.ok (.value (.callable (.closure n body f)))))

theorem Act.opens_noteAll {path : Path} {g : Unit → Eval Body} {f : Body → Eval Next}
    (notes : List Note) (h : (g () >>= f).run.Opens path) :
    ((Evaluation.noteAll notes >>= g) >>= f).run.Opens path := by
  induction notes with
  | nil => exact h
  | cons n rest ih => exact .asks rfl fun _ => ih

theorem Job.opens_openModule (path : Path) : (Job.openModule root path).act.Opens path := by
  refine .asks (q := .claim path) rfl fun a => ?_
  cases a with
  | some body => exact .enters body
  | none =>
    refine .asks (q := .world (.content path)) rfl fun a => ?_
    cases a with
    | error fault => exact .asks (q := .giveUp path) rfl fun _ => .fails _
    | ok text =>
      refine .asks (q := .countParse) rfl fun _ => .asks (q := .note _) rfl fun _ =>
        .asks (q := .settings) rfl fun settings => Act.opens_noteAll _ ?_
      cases (build settings.strict path.text text).result with
      | ok body => exact .asks (q := .publish path body) rfl fun _ => .enters body
      | error e => exact .asks (q := .giveUp path) rfl fun _ => .fails e

/-! ## Machines -/

theorem Scope.rootOf_root (s : Scope) : s.rootOf root = root := by
  have hchain : ∀ x ∈ s.chain root, x.1 = root := by
    intro x hx
    unfold Scope.chain at hx
    split at hx
    · cases hx
    · split at hx
      · exact congrArg Prod.fst (List.mem_singleton.1 hx)
      · split at hx
        · next hlt => exact absurd hlt (Nat.not_lt_zero _)
        · exact congrArg Prod.fst (List.mem_singleton.1 hx)
  unfold Scope.rootOf
  cases hl : (s.chain root).getLast? with
  | none => rfl
  | some x => exact hchain x (List.mem_of_getLast? hl)

namespace Machine

/-- A machine at rest with one task more; the library, what is ready and the notes may be others. -/
def withLast (m : Machine) (library : Library) (ready : Queue TaskId) (notes : List Note)
    (task : Task) : Machine :=
  { m with library, tasks := m.tasks.push task, running := none, ready, reading := [], notes }

/-- The frame of a module that was opened from outside. -/
def moduleFrame (path : Path) : Frame := { parent := some root, modulePath := some path }

/-- That machine, with a frame of a module as well. -/
def withModule (m : Machine) (path : Path) (stamps : Nat) : Machine :=
  { m with scope := (m.scope.add (moduleFrame path)).2, stamps }

/-- How far the last task has come that opens a module; all others have ended in `m`. -/
inductive Opening (m : Machine) (path : Path) : Machine → Prop
  | aside {x : Act (Except Failure Next)} (library : Library) (ready : Queue TaskId)
      (notes : List Note) : x.Opens path →
      Opening m path (m.withLast library ready notes { origin := none, thread := some ⟨x, []⟩ })
  | runs {x : Act (Except Failure Next)} (library : Library) (ready : Queue TaskId)
      (notes : List Note) : x.Opens path →
      Opening m path ((m.withLast library ready notes { origin := none, thread := none }).run
        m.tasks.size ⟨x, []⟩)
  | reads {k : Except ReadFault String → Act (Except Failure Next)} (library : Library)
      (ready : Queue TaskId) (notes : List Note) (file : Path) : (∀ a, (k a).Opens path) →
      Opening m path { m.withLast library ready notes { origin := none, thread := none } with
        reading := [⟨m.tasks.size, file, fun a => ⟨k a, []⟩⟩] }
  | failed (library : Library) (ready : Queue TaskId) (notes : List Note) (e : Failure) :
      Opening m path (m.withLast library ready notes
        { origin := none, thread := none, cell := { result := some (.error e) } })
  | stamps (library : Library) (ready : Queue TaskId) (notes : List Note) (body : Body) :
      Opening m path (((m.withModule path m.stamps).withLast library ready notes
        { origin := none, thread := none }).run m.tasks.size ⟨.ask .stamp fun n =>
          .done (.ok (.value (.callable (.closure n body m.scope.frames.size)))), []⟩)
  | returns (library : Library) (ready : Queue TaskId) (notes : List Note) (body : Body) :
      Opening m path (((m.withModule path (m.stamps + 1)).withLast library ready notes
        { origin := none, thread := none }).run m.tasks.size
          ⟨.done (.ok (.value (.callable (.closure m.stamps body m.scope.frames.size)))), []⟩)
  | opened (library : Library) (ready : Queue TaskId) (notes : List Note) (body : Body) :
      Opening m path ((m.withModule path (m.stamps + 1)).withLast library ready notes
        { origin := none, thread := none, cell :=
          { result := some (.ok (.callable (.closure m.stamps body m.scope.frames.size))) } })

variable {m m' m'' : Machine} {path : Path} {t : TaskId} {log : List Asked}

theorem resume_of_none (h : (m.tasks[t]?.bind (·.thread)) = none) : m.resume t = m := by
  rw [resume, h]

theorem modify_push_size {α : Type} (as : Array α) (a : α) (f : α → α) :
    (as.push a).modify as.size f = as.push (f a) := by
  refine Array.ext_getElem? fun i => ?_
  rw [Array.getElem?_modify, Array.getElem?_push, Array.getElem?_push]
  by_cases hi : i = as.size
  · simp [hi]
  · simp [hi, Ne.symm hi]

theorem suspend_last (m : Machine) (library : Library) (ready : Queue TaskId) (notes : List Note)
    (task : Task) (θ : Thread) :
    (m.withLast library ready notes task).suspend m.tasks.size θ =
      m.withLast library ready notes { task with thread := some θ } := by
  simp only [suspend, onTask, withLast, modify_push_size]

theorem resume_last (m : Machine) (library : Library) (ready : Queue TaskId) (notes : List Note)
    (task : Task) {θ : Thread} (ht : task.thread = some θ) :
    (m.withLast library ready notes task).resume m.tasks.size =
      (m.withLast library ready notes { task with thread := none }).run m.tasks.size θ := by
  have hthread : ((m.withLast library ready notes task).tasks[m.tasks.size]?.bind (·.thread)) =
      some θ := by
    simp only [withLast, Array.getElem?_push_size, Option.bind_some, ht]
  rw [resume, hthread]
  simp only [onTask, withLast, modify_push_size]

theorem finish_last (m : Machine) (library : Library) (ready : Queue TaskId) (notes : List Note)
    (o : Outcome) :
    (m.withLast library ready notes { origin := none, thread := none }).finish m.tasks.size o =
      m.withLast library ready notes
        { origin := none, thread := none, cell := { result := some o } } := by
  simp only [finish, withLast, Array.getElem?_push_size, onTask, modify_push_size, Cell.finish, wake]

/-- Nobody but the last task was put aside. -/
theorem AtRest.thread_push (h : m.AtRest) {task : Task} (ht : task.thread = none ∨ t ≠ m.tasks.size) :
    ((m.tasks.push task)[t]?.bind (·.thread)) = none := by
  rw [Array.getElem?_push]
  split
  · next he => exact ht.resolve_right fun hne => hne he
  · cases hm : m.tasks[t]? with
    | none => rfl
    | some old => exact (h.tasks t old hm).1

/-- The last task goes on. -/
theorem Opening.served {q : Request} {k : q.Answer → Act (Except Failure Next)} {a : q.Answer}
    {library : Library} {ready : Queue TaskId} {notes : List Note} (h : (Act.ask q k).Opens path)
    (hs : Serves { m.withLast library ready notes { origin := none, thread := none } with
      running := none } m.tasks.size q log a m') :
    m.Opening path (m'.run m.tasks.size ⟨k a, []⟩) := by
  cases h with
  | asks hq hk =>
    cases hs with
    | settings => exact .runs library ready notes (hk _)
    | @cached _ library' body _ => exact .runs library' ready notes (hk _)
    | @granted _ library' _ => exact .runs library' ready notes (hk _)
    | countParse => exact .runs library.countParse ready notes (hk _)
    | publish p body =>
      exact .runs (library.publish p body).1 (ready.pushAll (library.publish p body).2) notes (hk _)
    | giveUp p =>
      unfold wake
      split
      · next u _ => exact .runs (library.giveUp p).1 (ready.push u) notes (hk _)
      · exact .runs (library.giveUp p).1 ready notes (hk _)
    | note n => exact .runs library ready (n :: notes) (hk _)
    | _ => cases hq
  | enters body =>
    cases hs with
    | enterModule =>
      have hroot : m.scope.rootOf root = root := m.scope.rootOf_root
      rw [show ({ m.withLast library ready notes { origin := none, thread := none } with
        running := none } : Machine).scope.rootOf root = root from hroot]
      exact .stamps library ready notes body

/-- The task that runs goes on to open the module. -/
theorem Opening.goes {x : Act (Except Failure Next)} {library : Library} {ready : Queue TaskId}
    {notes : List Note} (hx : x.Opens path)
    (hg : Goes { m.withLast library ready notes { origin := none, thread := none } with
      running := none } m.tasks.size ⟨x, []⟩ log m') : m.Opening path m' := by
  cases hg with
  | turns ht =>
    cases ht <;> cases hx
    · next hq _ => cases hq
  | served hs => exact Opening.served hx hs
  | awaits _ =>
    cases hx with
    | asks hq _ => cases hq
  | @claims p k _ library' _ =>
    have haside := m.suspend_last library' ready notes { origin := none, thread := none }
      ⟨.ask (.claim p) k, []⟩
    exact haside ▸ .aside library' ready notes hx
  | givesWay =>
    cases hx with
    | asks hq _ => cases hq
  | @reads file k _ =>
    cases hx with
    | asks _ hk => exact .reads library ready notes file hk
  | ends hover =>
    cases hover with
    | value v => cases hx
    | failure e =>
      have hend := m.finish_last library ready notes (.error e)
      exact hend ▸ .failed library ready notes e

/-- Where the last task has ended as well, nothing happens but that tasks are no longer ready. -/
theorem AtRest.over_change {library : Library} {ready : Queue TaskId} {notes : List Note} {task : Task}
    (hrest : m.AtRest) (ht : task.thread = none)
    (hc : (m.withLast library ready notes task).Change log m') :
    ∃ ready', m' = m.withLast library ready' notes task := by
  cases hc with
  | goes hr _ => cases hr
  | @take t _ _ ready' _ _ _ => exact ⟨ready', resume_of_none (hrest.thread_push (.inl ht))⟩
  | read a _ hm => simp [withLast] at hm

/-- However the machine goes on, the last task goes on to open the module. -/
theorem Opening.change (h : m.Opening path m') (hrest : m.AtRest)
    (hc : m'.Change log m'') : m.Opening path m'' := by
  cases h with
  | @aside x library ready notes hx =>
    cases hc with
    | goes hr _ => cases hr
    | @take t _ _ ready' _ _ _ =>
      -- Any task but the last one has ended, and is passed over when its turn comes.
      by_cases ht : t = m.tasks.size
      · have hnext := m.resume_last library ready' notes { origin := none, thread := some ⟨x, []⟩ } rfl
        rw [ht]
        exact hnext ▸ .runs library ready' notes hx
      · rw [resume_of_none (hrest.thread_push (.inr ht))]
        exact .aside library ready' notes hx
    | read a _ hm => simp [withLast] at hm
  | @runs x library ready notes hx =>
    cases hc with
    | goes hr hg =>
      cases hr
      exact Opening.goes hx hg
    | take hr _ _ => cases hr
    | read a hr _ => cases hr
  | @reads k library ready notes file hk =>
    cases hc with
    | goes hr _ => cases hr
    | @take t _ _ ready' _ _ _ =>
      rw [resume_of_none (hrest.thread_push (.inl rfl))]
      exact .reads library ready' notes file hk
    | @read r front back a hr hm =>
      have hone : [⟨m.tasks.size, file, fun a => ⟨k a, []⟩⟩] = front ++ r :: back := hm
      cases front with
      | nil =>
        obtain ⟨rfl, rfl⟩ := List.cons.inj hone
        exact .runs library ready notes (hk a)
      | cons _ front => simp at hone
  | failed library ready notes e =>
    obtain ⟨ready', rfl⟩ := hrest.over_change rfl hc
    exact .failed library ready' notes e
  | stamps library ready notes body =>
    cases hc with
    | goes hr hg =>
      cases hr
      cases hg with
      | turns ht => cases ht
      | served hs =>
        cases hs with
        | stamp => exact .returns library ready notes body
      | ends hover => cases hover
    | take hr _ _ => cases hr
    | read a hr _ => cases hr
  | returns library ready notes body =>
    cases hc with
    | goes hr hg =>
      cases hr
      cases hg with
      | turns ht => cases ht
      | ends hover =>
        cases hover with
        | value v =>
          have hend := (m.withModule path (m.stamps + 1)).finish_last library ready notes
            (.ok (.callable (.closure m.stamps body m.scope.frames.size)))
          exact hend ▸ .opened library ready notes body
    | take hr _ _ => cases hr
    | read a hr _ => cases hr
  | opened library ready notes body =>
    have hmodule : (m.withModule path (m.stamps + 1)).AtRest := { hrest with }
    obtain ⟨ready', rfl⟩ := hmodule.over_change rfl hc
    exact .opened library ready' notes body

theorem Opening.runs_change (hr : Runs m' log m'') (h : m.Opening path m') (hrest : m.AtRest) :
    m.Opening path m'' := by
  induction hr with
  | refl => exact h
  | head hm _ ih => exact ih (h.change hrest hm.change)

theorem opening_addTask (hrest : m.AtRest) (path : Path) :
    m.Opening path (m.addTask none (.openModule root path)).2 := by
  have hstart : (m.addTask none (.openModule root path)).2 = m.withLast m.library
      (m.ready.push m.tasks.size) m.notes
      { origin := none, thread := some (Job.openModule root path).thread } := by
    rw [addTask_eq, withLast, hrest.running, hrest.reading]
  rw [hstart]
  exact .aside _ _ _ (Job.opens_openModule path)

theorem Opening.size_tasks (h : m.Opening path m') : m'.tasks.size = m.tasks.size + 1 := by
  cases h <;> exact Array.size_push _

/-- What a task has done that opened a module, or could not. -/
theorem Opening.ended (h : m.Opening path m') (hend : m'.result? m.tasks.size ≠ none) :
    ∃ library ready notes, (∃ e, m' = m.withLast library ready notes
        { origin := none, thread := none, cell := { result := some (.error e) } }) ∨
      ∃ body, m' = (m.withModule path (m.stamps + 1)).withLast library ready notes
        { origin := none, thread := none, cell :=
          { result := some (.ok (.callable (.closure m.stamps body m.scope.frames.size))) } } := by
  cases h with
  | failed library ready notes e => exact ⟨library, ready, notes, .inl ⟨e, rfl⟩⟩
  | opened library ready notes body => exact ⟨library, ready, notes, .inr ⟨body, rfl⟩⟩
  | aside _ _ _ _ => simp [result?, withLast] at hend
  | runs _ _ _ _ => simp [result?, withLast, run] at hend
  | reads _ _ _ _ _ => simp [result?, withLast] at hend
  | stamps _ _ _ _ => simp [result?, withLast, withModule, run] at hend
  | returns _ _ _ _ => simp [result?, withLast, withModule, run] at hend

end Machine

end Concatenative
