import Concatenative.Proofs.Answers
import Concatenative.Proofs.Caching
import Concatenative.Proofs.Settling

/-! Nobody waits for what is already there. A reader in line at a cell is given the lock by the reader
before it, and the reader that took the computation is woken when it ends. Main statement: whatever order
the tasks move in, no task is lost (`Arises.wakeful`), so that in a machine in which no task can go on a
task that has not ended waits for a task that has not ended either, or for a module
(`Wakeful.waits_of_idle`). -/
namespace Concatenative

/-! ## Cells -/

/-- Two lists hold what a third one holds. -/
theorem mem_iff_of_count {as bs cs : List TaskId} {q : TaskId}
    (h : as.count q + bs.count q = cs.count q) : q ∈ cs ↔ q ∈ as ∨ q ∈ bs := by
  simp only [← List.count_pos_iff]
  omega

/-- Two lists hold what two others hold. -/
theorem mem_or_iff_of_count {as bs cs ds : List TaskId} {q : TaskId}
    (h : as.count q + bs.count q = cs.count q + ds.count q) :
    q ∈ as ∨ q ∈ bs ↔ q ∈ cs ∨ q ∈ ds := by
  simp only [← List.count_pos_iff]
  omega

namespace Cell

/-- The reader took the computation, which has not ended. -/
structure Joins (c : Cell) (r : TaskId) : Prop where
  joined : c.joined = some r
  outcome : c.outcome = none
  result : c.result = none

/-- Readers wait for a reader that has the lock. -/
def Led (c : Cell) : Prop := c.attending ≠ [] → c.holder ≠ none

variable {c : Cell} {reader : TaskId} {o : Outcome}

/-- What becomes of the lock in an attempt to read. -/
structure Read.Passes (r : Read) (c : Cell) (reader : TaskId) : Prop where
  led : r.cell.Led
  stays : r.outcome = none → reader ∈ r.cell.attending
  turn : ∀ q, r.cell.holder = some q →
    r.woken = some q ∧ q ∈ c.attending ∨ r.cell.Joins q ∨ c.holder = some q ∧ q ≠ reader ∧ (c.Joins q → r.cell.Joins q)

theorem Joins.mem_attending (h : c.Joins reader) : reader ∈ c.attending := by
  refine List.mem_append_right _ ?_
  rw [joiner, h.result, h.joined]
  exact List.mem_singleton.2 rfl

theorem joiner_of_result (hr : c.result = some o) : c.joiner = [] := by
  rw [joiner, hr]

theorem passes_handOn (hr : c.result = some o) (reader : TaskId) :
    (c.handOn o).Passes c reader := by
  have hj : (c.handOn o).cell.joiner = [] := joiner_of_result hr
  refine ⟨fun hne => ?_, nofun, fun q hq => .inl ⟨hq, ?_⟩⟩
  swap
  · exact List.mem_append_left _ (List.mem_of_mem_head? hq)
  rw [attending, hj, List.append_nil] at hne
  simp only [Cell.handOn] at hne ⊢
  cases hw : c.waiting with
  | nil => simp [hw] at hne
  | cons q rest => simp

theorem Sound.passes_join (h : c.Sound) (hn : c.outcome = none) (hh : c.holder = some reader) :
    (c.join reader).Passes c reader := by
  rw [Cell.join, if_pos (h.joined_all hn hh)]
  obtain ⟨outcome, result, holder, joined, waiting⟩ := c
  cases hn
  cases hh
  cases result with
  | some o =>
    have hp := passes_handOn (c := ⟨some o, some o, some reader, some reader, waiting⟩) rfl reader
    refine ⟨hp.led, fun ho => ?_, fun q hq => .inl ⟨hq, ?_⟩⟩
    · cases ho
    · exact List.mem_append_left _ (List.mem_of_mem_head? hq)
  | none =>
    refine ⟨fun _ => Option.some_ne_none reader, fun _ => ?_, fun q hq => .inr (.inl ?_)⟩
    · simp [attending, joiner]
    · exact ⟨hq, rfl, rfl⟩

/-- Whoever tries to read waits for a reader that has the lock, or hands the lock on. -/
theorem Sound.passes (h : c.Sound) (hl : c.Led) (reader : TaskId) :
    (c.read reader).Passes c reader := by
  obtain ⟨outcome, result, holder, joined, waiting⟩ := c
  cases outcome with
  | some o =>
    simp only [Cell.read]
    split
    · exact passes_handOn (h.outcome o rfl) reader
    · next hne =>
      refine ⟨hl, fun ho => ?_, fun q hq => .inr (.inr ⟨hq, ?_, id⟩)⟩
      · cases ho
      · rintro rfl
        exact hne hq
  | none =>
    cases holder with
    | none =>
      have hlock : Sound ⟨none, result, some reader, joined, waiting⟩ :=
        ⟨h.outcome, fun _ r hr => absurd (h.joined rfl r hr) (Option.some_ne_none r).symm⟩
      have hp := hlock.passes_join rfl rfl
      refine ⟨hp.led, hp.stays, fun q hq => ?_⟩
      rcases hp.turn q hq with hw | hj | ⟨hq', hne, _⟩
      · exact .inl hw
      · exact .inr (.inl hj)
      · cases hq'
        exact absurd rfl hne
    | some holder =>
      simp only [Cell.read]
      split
      · next he => exact h.passes_join rfl (congrArg some he)
      · next hne =>
        refine ⟨fun _ => Option.some_ne_none holder, fun _ => ?_, fun q hq => .inr (.inr ?_)⟩
        · simp [attending]
        · refine ⟨hq, ?_, fun hj => ⟨hj.joined, rfl, hj.result⟩⟩
          rintro rfl
          exact hne (Option.some.inj hq)

theorem mem_attending_of_read {q : TaskId} (h : q ∈ (c.read reader).cell.attending) :
    q ∈ c.attending ∨ q = reader ∧ (c.read reader).outcome = none := by
  rcases c.count_read reader q with hsame | ⟨hn, hmore⟩
  · exact .inl ((mem_iff_of_count hsame).2 (.inl h))
  · rcases (mem_or_iff_of_count hmore).1 (.inl h) with hold | hnew
    · exact .inl hold
    · exact .inr ⟨List.mem_singleton.1 hnew, hn⟩

theorem mem_attending_read {q : TaskId} (h : q ∈ c.attending) :
    q ∈ (c.read reader).cell.attending ∨ (c.read reader).woken = some q := by
  rw [← Option.mem_toList]
  rcases c.count_read reader q with hsame | ⟨_, hmore⟩
  · exact (mem_iff_of_count hsame).1 h
  · exact (mem_or_iff_of_count hmore).2 (.inl h)

/-- Who waits for the end of a computation is woken by it. -/
theorem mem_attending_finish {q : TaskId} (hr : c.result = none) (o : Outcome) :
    q ∈ c.attending ↔ q ∈ (c.finish o).1.attending ∨ c.joined = some q := by
  rw [mem_iff_of_count (c.count_finish hr o q), Option.mem_toList]
  rfl

end Cell

/-! ## Modules -/

namespace Library

variable {l l' : Library} {p : Path} {task q : TaskId}

theorem mem_waiting_of_claim {c : Claim} (h : l.Distinct) (hc : l.claim p task = (l', c))
    (hq : q ∈ l'.waiting) : q ∈ l.waiting ∨ q = task ∧ c = .wait := by
  rcases count_claim h hc q with hsame | ⟨hwait, hmore⟩
  · rw [← List.count_pos_iff, hsame, List.count_pos_iff] at hq
    exact .inl hq
  · rcases (mem_iff_of_count hmore.symm).1 hq with hold | hnew
    · exact .inl hold
    · exact .inr ⟨List.mem_singleton.1 hnew, hwait⟩

theorem mem_waiting_claim {c : Claim} (h : l.Distinct) (hc : l.claim p task = (l', c))
    (hq : q ∈ l.waiting) : q ∈ l'.waiting := by
  rw [← List.count_pos_iff] at hq ⊢
  rcases count_claim h hc q with hsame | ⟨_, hmore⟩ <;> omega

/-- Who is told to wait stands in line. -/
theorem mem_waiting_claim_self (h : l.Distinct) (hc : l.claim p task = (l', .wait)) :
    task ∈ l'.waiting := by
  rcases claim_cases hc with ⟨_, hne⟩ | ⟨_, hne, _⟩ | ⟨s, f, hs, rfl, _, hf⟩
  · exact absurd rfl hne
  · exact absurd rfl hne
  · have hcount := count_update (f := f) h hs task
    rcases hf with ⟨_, hne⟩ | ⟨hw, _⟩
    · exact absurd rfl hne
    · rw [hw, List.count_append, List.count_singleton_self] at hcount
      exact List.count_pos_iff.1 (by omega)

theorem mem_waiting_publish (h : l.Distinct) (p : Path) (b : Body) :
    q ∈ l.waiting ↔ q ∈ (l.publish p b).1.waiting ∨ q ∈ (l.publish p b).2 :=
  mem_iff_of_count (count_publish h p b q)

theorem mem_waiting_giveUp (h : l.Distinct) (p : Path) :
    q ∈ l.waiting ↔ q ∈ (l.giveUp p).1.waiting ∨ (l.giveUp p).2 = some q := by
  rw [mem_iff_of_count (count_giveUp h p q), Option.mem_toList]

end Library

/-! ## Machines -/

namespace Machine

variable {m m' last : Machine} {t u r : TaskId} {θ θ' : Thread} {log : List Asked}

/-- A task asks what another came to. -/
def Asks (m : Machine) (r u : TaskId) : Prop := ∃ k ks, m.At r ⟨.ask (.await u) k, ks⟩

/-- A task asks for a module. -/
def Wants (m : Machine) (u : TaskId) : Prop := ∃ p k ks, m.At u ⟨.ask (.claim p) k, ks⟩

/-- A task runs, is ready, reads a file, or waits at a cell or for a module. -/
inductive Located (m : Machine) (u : TaskId) : Prop
  | running : m.IsRunning u → Located m u
  | ready : u ∈ m.ready.toList → Located m u
  | reads : u ∈ m.readers → Located m u
  | attends {v : TaskId} : u ∈ (m.cellOf v).attending → Located m u
  | lines : u ∈ m.library.waiting → Located m u

/-- The reader that has the lock of a cell is up, or it waits for the end of the computation. -/
inductive HasTurn (m : Machine) (u r : TaskId) : Prop
  | up : m.Asks r u → m.IsRunning r ∨ r ∈ m.ready.toList → HasTurn m u r
  | joins : (m.cellOf u).Joins r → HasTurn m u r

/-- No task is lost. -/
structure Wakeful (m : Machine) : Prop where
  located : ∀ u < m.tasks.size, m.result? u = none → (∃ θ, m.At u θ) ∧ m.Located u
  asks : ∀ u r, r ∈ (m.cellOf u).attending → m.Asks r u
  led : ∀ u, (m.cellOf u).Led
  turn : ∀ u r, (m.cellOf u).holder = some r → m.HasTurn u r
  lines : ∀ u ∈ m.library.waiting, m.Wants u

/-! ### The running task -/

/-- What becomes of a cell when the running task `t` goes on. -/
inductive Touches (m : Machine) (t : TaskId) (θ : Thread) (m' : Machine) (u : TaskId) : Prop
  | unchanged : m'.cellOf u = m.cellOf u →
      (∀ k ks, θ = ⟨.ask (.await u) k, ks⟩ → m.cellOf u = {}) → Touches m t θ m' u
  | read {k : Outcome → Act (Except Failure Next)}
      {ks : List (Outcome → Act (Except Failure Next))} : θ = ⟨.ask (.await u) k, ks⟩ →
      m'.cellOf u = ((m.cellOf u).read t).cell →
      (∀ q, ((m.cellOf u).read t).woken = some q → q ∈ m'.ready.toList) →
      (((m.cellOf u).read t).outcome = none → m'.At t θ) → Touches m t θ m' u
  | ended {o o' : Outcome} : u = t → θ.Over o → (m.cellOf t).result = none →
      m'.cellOf t = ((m.cellOf t).finish o').1 →
      (∀ q, (m.cellOf t).joined = some q → q ∈ m'.ready.toList) → Touches m t θ m' u

theorem readCell_cellOf {target : TaskId} {x : Option Outcome} (hr : m.readCell t target = (x, m')) :
    m' = m ∧ m.cellOf target = {} ∧ x ≠ none ∨
      m'.cellOf target = ((m.cellOf target).read t).cell ∧
        x = ((m.cellOf target).read t).outcome ∧
        ∀ q, ((m.cellOf target).read t).woken = some q → q ∈ m'.ready.toList := by
  unfold readCell at hr
  cases ht : m.tasks[target]? with
  | none =>
    rw [ht] at hr
    cases hr
    exact .inl ⟨rfl, by rw [cellOf, ht]; rfl, nofun⟩
  | some task =>
    rw [ht] at hr
    cases hr
    rw [cellOf_eq ht, cellOf_wake, setCell, cellOf_onTask_self ht]
    exact .inr ⟨rfl, rfl, fun q hq => mem_ready_wake (.inr hq)⟩

theorem Goes.touches (hg : m.Goes t θ log m') (ho : m.Orderly) (hf : m.Free t) (u : TaskId) :
    Touches m t θ m' u := by
  -- Only who waits for `u`, and `u` itself when it ends, have to do with its cell.
  cases hg with
  | turns ht =>
    refine .unchanged rfl ?_
    rintro k ks rfl
    cases ht
  | @served q k ks log a m₁ hs =>
    cases hs with
    | @await target _ _ hr =>
      by_cases hu : target = u
      · subst hu
        rcases readCell_cellOf hr with ⟨rfl, hnew, _⟩ | ⟨hc, ho', hw⟩
        · exact .unchanged rfl fun _ _ _ => hnew
        · exact .read rfl hc hw fun hn => nomatch ho'.trans hn
      · have hcell : m₁.cellOf u = m.cellOf u := cellOf_readCell hr hu
        refine .unchanged hcell fun k' ks' he => ?_
        cases he
        exact absurd rfl hu
    | spawn l job => exact .unchanged (cellOf_addTask m _ _ u) nofun
    | giveUp path => exact .unchanged (cellOf_wake _ _ u) nofun
    | _ => exact .unchanged rfl nofun
  | @awaits target k ks m₁ hr =>
    have hcell := cellOf_suspend m₁ t u ⟨.ask (.await target) k, ks⟩
    by_cases hu : target = u
    · subst hu
      rcases readCell_cellOf hr with ⟨rfl, _, hne⟩ | ⟨hc, ho', hw⟩
      · exact absurd rfl hne
      · refine .read rfl (hcell.trans hc) hw fun _ => ?_
        obtain ⟨_, task, ht, _⟩ := hf
        exact at_suspend (((ho.reads_readCell hr).stand t).trans (stand_eq ht)) _
    · refine .unchanged (hcell.trans (cellOf_readCell hr hu)) fun k' ks' he => ?_
      cases he
      exact absurd rfl hu
  | claims _ => exact .unchanged (cellOf_suspend ..) nofun
  | givesWay => exact .unchanged ((cellOf_wake ..).trans (cellOf_suspend ..)) nofun
  | reads => exact .unchanged rfl nofun
  | @ends _ o hover =>
    obtain ⟨_, task, ht, _, hn⟩ := hf
    by_cases hu : u = t
    · subst hu
      have hn' : (m.cellOf u).result = none := (cellOf_eq ht).symm ▸ hn
      have hcell : (m.finish u o).cellOf u = ((m.cellOf u).finish (task.stand.close o)).1 := by
        rw [finish_of_task ht, cellOf_wake, cellOf_onTask_self ht, cellOf_eq ht]
      refine .ended rfl hover hn' hcell fun q hq => ?_
      rw [finish_of_task ht]
      rw [cellOf_eq ht] at hq
      exact mem_ready_wake (.inr hq)
    · refine .unchanged ?_ ?_
      · rw [finish_of_task ht, cellOf_wake, cellOf_onTask fun he => absurd he.symm hu]
      · rintro k ks rfl
        cases hover

theorem Touches.mem_attending (h : Touches m t θ m' u) (hr : r ∈ (m.cellOf u).attending) :
    r ∈ (m'.cellOf u).attending ∨ r ∈ m'.ready.toList := by
  cases h with
  | unchanged hc _ => exact .inl (hc ▸ hr)
  | read _ hc hw _ =>
    rw [hc]
    exact (Cell.mem_attending_read hr).imp_right (hw r)
  | ended hu _ hn hc hw =>
    subst hu
    rw [hc]
    exact ((Cell.mem_attending_finish hn _).1 hr).imp_right (hw r)

theorem Touches.of_mem_attending (h : Touches m t θ m' u) (hr : r ∈ (m'.cellOf u).attending) :
    r ∈ (m.cellOf u).attending ∨ r = t ∧ m'.Asks t u := by
  cases h with
  | unchanged hc _ => exact .inl (hc ▸ hr)
  | read he hc _ hat =>
    rw [hc] at hr
    refine (Cell.mem_attending_of_read hr).imp_right fun ⟨hrt, hn⟩ => ⟨hrt, _, _, he ▸ hat hn⟩
  | ended hu _ hn hc _ =>
    subst hu
    rw [hc] at hr
    exact .inl ((Cell.mem_attending_finish hn _).2 (.inl hr))

theorem Touches.led (h : Touches m t θ m' u) (hs : (m.cellOf u).Sound) (hl : (m.cellOf u).Led) :
    (m'.cellOf u).Led := by
  cases h with
  | unchanged hc _ => exact hc ▸ hl
  | read _ hc _ _ => exact hc ▸ (hs.passes hl t).led
  | ended hu _ hn hc _ =>
    subst hu
    rw [hc]
    intro hne
    refine hl ?_
    obtain ⟨q, hq⟩ := List.exists_mem_of_ne_nil _ hne
    exact List.ne_nil_of_mem ((Cell.mem_attending_finish hn _).2 (.inl hq))

/-! ### Places -/

theorem mem_attending_of_cellOf (h : r ∈ (m.cellOf u).attending) : r ∈ m.attending := by
  cases hu : m.tasks[u]? with
  | none =>
    rw [cellOf, hu] at h
    cases h
  | some task =>
    rw [cellOf_eq hu] at h
    exact List.mem_flatMap.2 ⟨task, Array.mem_toList_iff.2 (Array.mem_of_getElem? hu), h⟩

theorem Placed.le_one (h : m.Placed) (t : TaskId) : m.whereabouts.count t ≤ 1 := by
  refine Nat.le_trans (h.once t) ?_
  unfold room
  split <;> omega

/-- The running task waits nowhere. -/
theorem Placed.running_alone (h : m.Placed) (hr : m.running = some (t, θ)) :
    t ∉ m.attending ∧ t ∉ m.library.waiting := by
  have hone := h.le_one t
  rw [count_whereabouts, hr] at hone
  simp only [Option.map_some, Option.toList_some, List.count_singleton_self] at hone
  simp only [← List.count_eq_zero]
  omega

theorem Placed.not_reads_of_ready (h : m.Placed) (hr : t ∈ m.ready.toList) : t ∉ m.readers := by
  have hone := h.le_one t
  have hpos := List.count_pos_iff.2 hr
  rw [count_whereabouts] at hone
  rw [← List.count_eq_zero]
  omega

/-! ### Moves -/

/-- Who waits for a module when the running task goes on. -/
theorem Goes.of_mem_waiting (hg : m.Goes t θ log m') (hd : m.library.Distinct) {s : Stand}
    (hs : m.stand t = some s) (hu : u ∈ m'.library.waiting) :
    u ∈ m.library.waiting ∨ u = t ∧ m'.Wants t := by
  cases hg with
  | turns _ => exact .inl hu
  | served hserve =>
    cases hserve with
    | await hr =>
      obtain ⟨tasks, ready, rfl⟩ := readCell_eq hr
      exact .inl hu
    | cached hc =>
      rcases Library.mem_waiting_of_claim hd hc hu with hold | ⟨_, hc'⟩
      · exact .inl hold
      · cases hc'
    | granted hc =>
      rcases Library.mem_waiting_of_claim hd hc hu with hold | ⟨_, hc'⟩
      · exact .inl hold
      · cases hc'
    | publish path b => exact .inl ((Library.mem_waiting_publish hd path b).2 (.inl hu))
    | giveUp path =>
      rw [run, wake_library] at hu
      exact .inl ((Library.mem_waiting_giveUp hd path).2 (.inl hu))
    | _ => exact .inl hu
  | awaits hr =>
    obtain ⟨tasks, ready, rfl⟩ := readCell_eq hr
    exact .inl hu
  | @claims path k ks library hc =>
    refine (Library.mem_waiting_of_claim hd hc hu).imp_right fun hut => ⟨hut.1, path, k, ks, ?_⟩
    exact at_suspend (m := { m with library }) hs _
  | givesWay => exact .inl hu
  | reads => exact .inl hu
  | @ends _ o _ =>
    obtain ⟨tasks, ready, he⟩ := finish_eq m t o
    rw [he] at hu
    exact .inl hu

/-- Whoever waits for a module goes on waiting, or is woken. -/
theorem Goes.mem_waiting (hg : m.Goes t θ log m') (hd : m.library.Distinct)
    (hu : u ∈ m.library.waiting) : u ∈ m'.library.waiting ∨ u ∈ m'.ready.toList := by
  cases hg with
  | turns _ => exact .inl hu
  | served hserve =>
    cases hserve with
    | await hr =>
      obtain ⟨tasks, ready, rfl⟩ := readCell_eq hr
      exact .inl hu
    | cached hc => exact .inl (Library.mem_waiting_claim hd hc hu)
    | granted hc => exact .inl (Library.mem_waiting_claim hd hc hu)
    | publish path b =>
      refine ((Library.mem_waiting_publish hd path b).1 hu).imp_right fun hw => ?_
      simp only [run, Queue.toList_pushAll]
      exact List.mem_append_right _ hw
    | giveUp path =>
      refine ((Library.mem_waiting_giveUp hd path).1 hu).imp (fun hl => ?_) fun hw => ?_
      · rw [run, wake_library]
        exact hl
      · exact mem_ready_wake (.inr hw)
    | _ => exact .inl hu
  | awaits hr =>
    obtain ⟨tasks, ready, rfl⟩ := readCell_eq hr
    exact .inl hu
  | claims hc => exact .inl (Library.mem_waiting_claim hd hc hu)
  | givesWay => exact .inl hu
  | reads => exact .inl hu
  | @ends _ o _ =>
    obtain ⟨tasks, ready, he⟩ := finish_eq m t o
    rw [he]
    exact .inl hu

/-- A task is there already, or it is what was asked to be started. -/
theorem Goes.lt_or_spawns (hg : m.Goes t θ log m') (ho : m.Orderly) (hu : u < m'.tasks.size) :
    u < m.tasks.size ∨ ∃ l job k ks, θ = ⟨.ask (.spawn l job) k, ks⟩ ∧ u = m.tasks.size ∧
      m' = (m.addTask (some l) job).2.run t ⟨k u, ks⟩ := by
  cases hg with
  | turns _ => exact .inl hu
  | @served q k ks log a m' hserve =>
    cases hserve with
    | await hr => exact .inl ((ho.reads_readCell hr).size ▸ hu)
    | spawn l job =>
      have hsize : m.tasks.size + 1 = (m.addTask (some l) job).2.tasks.size :=
        (Array.size_push _).symm
      rcases Nat.lt_succ_iff_lt_or_eq.1 (hsize ▸ hu) with hlt | rfl
      · exact .inl hlt
      · exact .inr ⟨l, job, k, ks, rfl, rfl, rfl⟩
    | giveUp path =>
      rw [run, wake_tasks] at hu
      exact .inl hu
    | _ => exact .inl hu
  | awaits hr =>
    have hsize := (ho.reads_readCell hr).size
    simp only [suspend, onTask, Array.size_modify, hsize] at hu
    exact .inl hu
  | claims _ =>
    simp only [suspend, onTask, Array.size_modify] at hu
    exact .inl hu
  | givesWay =>
    simp only [wake_tasks, suspend, onTask, Array.size_modify] at hu
    exact .inl hu
  | reads => exact .inl hu
  | ends _ => exact .inl (size_finish m t _ ▸ hu)

/-- A task that is started is ready. -/
theorem Goes.lt_or_ready (hg : m.Goes t θ log m') (ho : m.Orderly) (hu : u < m'.tasks.size) :
    u < m.tasks.size ∨ (∃ θ', m'.At u θ') ∧ u ∈ m'.ready.toList := by
  refine (hg.lt_or_spawns ho hu).imp_right ?_
  rintro ⟨l, job, k, ks, rfl, rfl, rfl⟩
  refine ⟨⟨_, .aside (stand_addTask_self m (some l) job) rfl⟩, ?_⟩
  simp only [run, addTask_eq, Queue.toList_push]
  exact List.mem_append_right _ (List.mem_singleton.2 rfl)

theorem Orderly.sound_cellOf (ho : m.Orderly) (u : TaskId) : (m.cellOf u).Sound := by
  cases hu : m.tasks[u]? with
  | none =>
    rw [cellOf, hu]
    exact Cell.sound_new
  | some task => exact cellOf_eq hu ▸ ho.sound u task hu

theorem result?_cellOf (m : Machine) (u : TaskId) : m.result? u = (m.cellOf u).result := by
  rw [result?, cellOf]
  cases m.tasks[u]? <;> rfl

namespace Wakeful

section Goes

variable (h : m.Wakeful) (ho : m.Orderly) (hpl : m.Placed) (hr : m.running = some (t, θ))
  (hg : Goes { m with running := none } t θ log m')

include h ho hpl hr hg

/-- The running task goes somewhere, or it ends. -/
theorem located_self (hn : m'.result? t = none) : m'.Located t := by
  obtain ⟨_, task, ht, _⟩ := ho.running t θ hr
  cases hg with
  | turns _ => exact .running ⟨_, rfl⟩
  | served _ => exact .running ⟨_, rfl⟩
  | @awaits target k ks m₁ hc =>
    rcases readCell_cellOf hc with ⟨_, _, hne⟩ | ⟨hcell, hout, _⟩
    · exact absurd rfl hne
    · have hp := (ho.sound_cellOf target).passes (h.led target) t
      have hstays := hp.stays hout.symm
      refine .attends (v := target) ?_
      rw [cellOf_suspend, hcell]
      exact hstays
  | claims hc => exact .lines (Library.mem_waiting_claim_self hpl.distinct hc)
  | givesWay => exact .ready (mem_ready_wake (.inr rfl))
  | reads => exact .reads (by simp [readers])
  | ends _ =>
    have hs : Machine.stand { m with running := none } t = some task.stand := stand_eq ht
    rw [result?_eq, stand_finish, if_pos rfl, hs] at hn
    cases hn

omit h in
theorem located_other (hu : u ≠ t) (hl : m.Located u) : m'.Located u := by
  have hf : Free { m with running := none } t := (ho.running t θ hr).congr rfl rfl
  cases hl with
  | running hrun =>
    obtain ⟨θ', hrun⟩ := hrun
    cases hr.symm.trans hrun
    exact absurd rfl hu
  | ready hm => exact .ready (hg.mem_ready hm)
  | reads hm => exact .reads (hg.mem_readers hm)
  | @attends v hm =>
    rcases (hg.touches ho.idle hf v).mem_attending hm with hstay | hup
    · exact .attends hstay
    · exact .ready hup
  | lines hm =>
    rcases hg.mem_waiting hpl.distinct hm with hstay | hup
    · exact .lines hstay
    · exact .ready hup

theorem goes_located (hu : u < m'.tasks.size) (hn : m'.result? u = none) :
    (∃ θ, m'.At u θ) ∧ m'.Located u := by
  by_cases hut : u = t
  · subst hut
    refine ⟨?_, h.located_self ho hpl hr hg hn⟩
    obtain ⟨_, θ', _, hat⟩ | ⟨_, _, _, _, hend⟩ := hg.at_self ho hr
    · exact ⟨θ', hat⟩
    · rw [result?_eq, hend] at hn
      cases hn
  · rcases hg.lt_or_ready ho.idle hu with hlt | ⟨hat, hup⟩
    · have hs : m.stand u = some m.tasks[u].stand := stand_eq (Array.getElem?_eq_getElem hlt)
      have hs' := hg.stand_of_ne ho.idle (Ne.symm hut) hs
      have hn' : m.result? u = none := by
        rw [result?_eq, hs, ← hs', ← result?_eq]
        exact hn
      obtain ⟨⟨θ', hat⟩, hl⟩ := h.located u hlt hn'
      exact ⟨⟨θ', hg.at_other ho hr (Ne.symm hut) hat⟩, located_other ho hpl hr hg hut hl⟩
    · exact ⟨hat, .ready hup⟩

omit h hpl in
theorem asks_other (hu : u ≠ t) {v : TaskId} (ha : m.Asks u v) : m'.Asks u v := by
  obtain ⟨k, ks, hat⟩ := ha
  exact ⟨k, ks, hg.at_other ho hr (Ne.symm hu) hat⟩

/-- Whoever waits at a cell keeps on asking. -/
theorem asks_attending (hu : r ∈ (m.cellOf u).attending) : m'.Asks r u := by
  refine asks_other ho hr hg ?_ (h.asks u r hu)
  rintro rfl
  exact (hpl.running_alone hr).1 (mem_attending_of_cellOf hu)

omit h hpl in
/-- The reader that was up has the lock still, unless it goes on itself. -/
theorem up_other (ha : m.Asks r u) (hup : m.IsRunning r ∨ r ∈ m.ready.toList) :
    (∃ k ks, r = t ∧ θ = ⟨.ask (.await u) k, ks⟩) ∨ r ≠ t ∧ m'.HasTurn u r := by
  by_cases hrt : r = t
  · subst hrt
    obtain ⟨k, ks, hat⟩ := ha
    exact .inl ⟨k, ks, rfl, (hat.eq_of_running ho hr).symm⟩
  · refine .inr ⟨hrt, .up (asks_other ho hr hg hrt ha) (.inr (hg.mem_ready ?_))⟩
    refine hup.resolve_left ?_
    rintro ⟨θ', hrun⟩
    cases hr.symm.trans hrun
    exact hrt rfl

theorem goes_turn (hh : (m'.cellOf u).holder = some r) : m'.HasTurn u r := by
  have hf : Free { m with running := none } t := (ho.running t θ hr).congr rfl rfl
  cases hg.touches ho.idle hf u with
  | unchanged hc hnew =>
    have hh' : (m.cellOf u).holder = some r := hc ▸ hh
    cases h.turn u r hh' with
    | up ha hup =>
      rcases up_other ho hr hg ha hup with ⟨k, ks, _, he⟩ | ⟨_, hturn⟩
      · have hcell : m.cellOf u = {} := hnew k ks he
        rw [hcell] at hh'
        cases hh'
      · exact hturn
    | joins hj => exact .joins (hc ▸ hj)
  | read _ hc hw _ =>
    have hp := (ho.sound_cellOf u).passes (h.led u) t
    rw [hc] at hh
    rcases hp.turn r hh with ⟨hwoken, hin⟩ | hj | ⟨hh', hrt, hkeep⟩
    · exact .up (h.asks_attending ho hpl hr hg hin) (.inr (hw r hwoken))
    · exact .joins (hc ▸ hj)
    · cases h.turn u r hh' with
      | up ha hup =>
        rcases up_other ho hr hg ha hup with ⟨_, _, he, _⟩ | ⟨_, hturn⟩
        · exact absurd he hrt
        · exact hturn
      | joins hj => exact .joins (hc ▸ hkeep hj)
  | ended hu hover _ hc hw =>
    subst hu
    rw [hc] at hh
    cases h.turn u r hh with
    | up ha hup =>
      rcases up_other ho hr hg ha hup with ⟨k, ks, _, he⟩ | ⟨_, hturn⟩
      · subst he
        cases hover
      · exact hturn
    | joins hj =>
      exact .up (h.asks_attending ho hpl hr hg hj.mem_attending) (.inr (hw r hj.joined))

theorem goes : m'.Wakeful := by
  have hf : Free { m with running := none } t := (ho.running t θ hr).congr rfl rfl
  have htouch := fun u => hg.touches ho.idle hf u
  refine ⟨fun u => h.goes_located ho hpl hr hg, fun u r hin => ?_, fun u => ?_,
    fun u r => h.goes_turn ho hpl hr hg, fun u hin => ?_⟩
  · rcases (htouch u).of_mem_attending hin with hold | ⟨rfl, hnew⟩
    · exact h.asks_attending ho hpl hr hg hold
    · exact hnew
  · exact (htouch u).led (ho.sound_cellOf u) (h.led u)
  · obtain ⟨_, task, ht, _⟩ := ho.running t θ hr
    rcases hg.of_mem_waiting hpl.distinct (stand_eq ht) hin with hold | ⟨rfl, hnew⟩
    · obtain ⟨p, k, ks, hat⟩ := h.lines u hold
      refine ⟨p, k, ks, hg.at_other ho hr ?_ hat⟩
      rintro rfl
      exact (hpl.running_alone hr).2 hold
    · exact hnew

end Goes

end Wakeful

/-- Cells and modules stay as they are, and tasks stay where they are or are taken up. -/
structure Still (m m' : Machine) : Prop where
  cells : ∀ u, m'.cellOf u = m.cellOf u
  library : m'.library = m.library
  started : ∀ u < m'.tasks.size, u < m.tasks.size ∨ (∃ θ, m'.At u θ) ∧ u ∈ m'.ready.toList
  goesOn : ∀ u θ, m.At u θ → ∃ θ', m'.At u θ'
  asks : ∀ u q k ks, (∀ path, q ≠ .world (.content path)) → m.At u ⟨.ask q k, ks⟩ →
    m'.At u ⟨.ask q k, ks⟩
  up : ∀ u θ, m.At u θ → m.IsRunning u ∨ u ∈ m.ready.toList →
    m'.IsRunning u ∨ u ∈ m'.ready.toList
  reads : ∀ u ∈ m.readers, m'.IsRunning u ∨ u ∈ m'.readers

theorem Still.located (h : m.Still m') (hat : m.At u θ) (hl : m.Located u) : m'.Located u := by
  have hup : m.IsRunning u ∨ u ∈ m.ready.toList → m'.Located u := fun hu =>
    (h.up u θ hat hu).elim .running .ready
  cases hl with
  | running hr => exact hup (.inl hr)
  | ready hm => exact hup (.inr hm)
  | reads hm => exact (h.reads u hm).elim .running .reads
  | @attends v hm => exact .attends (v := v) (h.cells v ▸ hm)
  | lines hm => exact .lines (h.library ▸ hm)

theorem Wakeful.still (hm : m.Wakeful) (h : m.Still m') : m'.Wakeful := by
  have hasks : ∀ u r, m.Asks r u → m'.Asks r u := fun u r ⟨k, ks, hat⟩ =>
    ⟨k, ks, h.asks r _ k ks nofun hat⟩
  refine ⟨fun u hu hn => ?_, fun u r hin => ?_, fun u => ?_, fun u r hh => ?_, fun u hin => ?_⟩
  · rcases h.started u hu with hlt | ⟨hat, hup⟩
    · rw [result?_cellOf, h.cells, ← result?_cellOf] at hn
      obtain ⟨⟨θ, hat⟩, hl⟩ := hm.located u hlt hn
      exact ⟨h.goesOn u θ hat, h.located hat hl⟩
    · exact ⟨hat, .ready hup⟩
  · exact hasks u r (hm.asks u r (h.cells u ▸ hin))
  · exact h.cells u ▸ hm.led u
  · rw [h.cells] at hh
    cases hm.turn u r hh with
    | up ha hup =>
      obtain ⟨k, ks, hat⟩ := ha
      exact .up ⟨k, ks, h.asks r _ k ks nofun hat⟩ (h.up r _ hat hup)
    | joins hj => exact .joins (h.cells u ▸ hj)
  · rw [h.library] at hin
    obtain ⟨p, k, ks, hat⟩ := hm.lines u hin
    exact ⟨p, k, ks, h.asks u _ k ks nofun hat⟩

/-- A ready task is taken up. -/
theorem still_take {ready : Queue TaskId} {front back : List TaskId} (hpl : m.Placed)
    (hrun : m.running = none) (hf : m.ready.toList = front ++ t :: back)
    (hb : ready.toList = front ++ back) : m.Still (resume { m with ready } t) := by
  obtain ⟨tasks, running, he, hsize⟩ := resume_eq { m with ready } t
  refine ⟨cellOf_resume { m with ready } t, by rw [he], fun u hu => .inl ?_,
    fun u θ hu => ⟨θ, hu.take hrun⟩, fun u q k ks _ hu => hu.take hrun, fun u θ hu hup => ?_,
    fun u hu => .inr ?_⟩
  · rw [he] at hu
    exact Nat.lt_of_lt_of_eq hu hsize
  · have hm : u ∈ m.ready.toList := hup.resolve_left (not_isRunning hrun u)
    by_cases hut : u = t
    · subst hut
      cases hu with
      | running hr => cases hrun.symm.trans hr
      | aside hs hθ => exact .inl ⟨θ, running_take hs hθ⟩
      | reading hm' => exact absurd (List.mem_map.2 ⟨_, hm', rfl⟩) (hpl.not_reads_of_ready hm)
    · refine .inr ?_
      rw [he, hb]
      exact mem_of_taken hf hm hut
  · rw [he]
    exact hu

/-- A file is read. -/
theorem still_read {x : Reading} {front back : List Reading} (a : Except ReadFault String)
    (hrun : m.running = none) (hm : m.reading = front ++ x :: back) :
    m.Still (run { m with reading := front ++ back } x.task (x.resume a)) := by
  refine ⟨fun _ => rfl, rfl, fun u hu => .inl hu, fun u θ hat => ?_, fun u q k ks hq hat => ?_,
    fun u θ _ hup => .inr (hup.resolve_left (not_isRunning hrun u)), fun u hu => ?_⟩
  · obtain ⟨_, θ', _, hat'⟩ := hat.read a hrun hm
    exact ⟨θ', hat'⟩
  · generalize hθ : (⟨.ask q k, ks⟩ : Thread) = θ at hat
    cases hat with
    | running hr => exact absurd ⟨_, hr⟩ (not_isRunning hrun u)
    | aside hs hs' => exact .aside hs hs'
    | reading _ =>
      cases hθ
      exact absurd rfl (hq _)
  · simp only [readers, hm, List.map_append, List.map_cons, List.mem_append, List.mem_cons] at hu
    by_cases hx : u = x.task
    · exact .inl ⟨_, by rw [hx]; rfl⟩
    · refine .inr ?_
      simp only [readers, run, List.map_append, List.mem_append]
      exact hu.imp_right fun h' => h'.resolve_left hx

/-- A job is started. -/
theorem still_addTask (m : Machine) (origin : Option Location) (job : Job) :
    m.Still (m.addTask origin job).2 := by
  have hat : ∀ u θ, m.At u θ → (m.addTask origin job).2.At u θ := by
    intro u θ hat
    cases hat with
    | running hr => exact .running hr
    | aside hs hθ =>
      refine .aside ?_ hθ
      rw [stand_addTask, if_neg (Nat.ne_of_lt (stand_lt hs))]
      exact hs
    | reading hm => exact .reading hm
  refine ⟨cellOf_addTask m origin job, rfl, fun u hu => ?_, fun u θ hu => ⟨θ, hat u θ hu⟩,
    fun u q k ks _ => hat u _, fun u θ _ hup => hup.imp_right fun hm => ?_, fun u hu => .inr hu⟩
  · rcases Nat.lt_succ_iff_lt_or_eq.1 (Nat.lt_of_lt_of_eq hu (Array.size_push _)) with hlt | rfl
    · exact .inl hlt
    · refine .inr ⟨⟨job.thread, .aside (stand_addTask_self m origin job) rfl⟩, ?_⟩
      rw [addTask_eq, Queue.toList_push]
      exact List.mem_append_right _ (List.mem_singleton.2 rfl)
  · rw [addTask_eq, Queue.toList_push]
    exact List.mem_append_left _ hm

/-- What is seen to between programs concerns no task. -/
theorem still_between (m : Machine) (scope : Scope) (stamps : Nat) (notes : List Note) :
    m.Still { m with scope, stamps, notes } := by
  have hat : ∀ u θ, m.At u θ → At { m with scope, stamps, notes } u θ := by
    intro u θ hat
    cases hat with
    | running hr => exact .running hr
    | aside hs hθ => exact .aside hs hθ
    | reading hm => exact .reading hm
  exact ⟨fun _ => rfl, rfl, fun u hu => .inl hu, fun u θ hu => ⟨θ, hat u θ hu⟩,
    fun u q k ks _ => hat u _, fun _ _ _ => id, fun u hu => .inr hu⟩

/-- A machine without tasks. -/
theorem wakeful_new (ht : m.tasks = #[]) (hl : m.library.shelves = []) : m.Wakeful := by
  have hcell : ∀ u, m.cellOf u = {} := fun u => by simp [cellOf, ht]
  refine ⟨fun u hu => ?_, fun u r hin => ?_, fun u hne => ?_, fun u r hh => ?_, fun u hin => ?_⟩
  · simp [ht] at hu
  · rw [hcell] at hin
    cases hin
  · rw [hcell] at hne
    exact absurd rfl hne
  · rw [hcell] at hh
    cases hh
  · simp [Library.waiting, hl] at hin

/-- No task is lost, whatever move is made. -/
theorem Wakeful.change (h : m.Wakeful) (ho : m.Orderly) (hpl : m.Placed) (hc : m.Change log m') :
    m'.Wakeful := by
  cases hc with
  | goes hr hg => exact h.goes ho hpl hr hg
  | take hr hf hb => exact h.still (still_take hpl hr hf hb)
  | read a hr hm => exact h.still (still_read a hr hm)

theorem Arises.wakeful (h : m.Arises) : m.Wakeful := by
  induction h with
  | new ht _ _ _ hl => exact wakeful_new ht hl
  | starts origin job _ ih => exact ih.still (still_addTask _ origin job)
  | moves ha hm ih => exact ih.change ha.orderly.1 ha.orderly.2 hm.change
  | between scope stamps notes _ ih => exact ih.still (still_between _ scope stamps notes)

/-! ## Idle machines -/

/-- Where no task can go on, a task that has not ended waits for one that has not ended either, or for
a module. -/
theorem Wakeful.waits_of_idle (h : m.Wakeful) (hidle : m.step = .idle last) (hu : u < m.tasks.size)
    (hn : m.result? u = none) : (∃ v, m.Asks u v ∧ m.result? v = none) ∨ m.Wants u := by
  obtain ⟨hrun, hready, hreading, _⟩ := idle_of_step hidle
  obtain ⟨_, hl⟩ := h.located u hu hn
  cases hl with
  | running hr => exact absurd hr (not_isRunning hrun u)
  | ready hm =>
    rw [hready] at hm
    cases hm
  | reads hm =>
    rw [readers, hreading] at hm
    cases hm
  | @attends v hm =>
    refine .inl ⟨v, h.asks v u hm, ?_⟩
    cases hh : (m.cellOf v).holder with
    | none => exact absurd hh (h.led v (List.ne_nil_of_mem hm))
    | some r =>
      cases h.turn v r hh with
      | up _ hup =>
        rcases hup with hr | hr
        · exact absurd hr (not_isRunning hrun r)
        · rw [hready] at hr
          cases hr
      | joins hj => exact (result?_cellOf m v).trans hj.result
  | lines hm => exact .inr (h.lines u hm)

end Machine

end Concatenative
