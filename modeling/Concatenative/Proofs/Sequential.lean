import Concatenative.Proofs.Surroundings
import Concatenative.Scope

/-! Jobs run with nothing beside them. The sequential evaluator runs whatever is started to its end
at the moment it is started and keeps what it came to, so whoever waits for it later finds it there.
It needs no tasks, no cells and no queue, which makes it the meaning that runs with many tasks are
measured against. Main statements: the evaluator computes exactly what computations come to in the
surroundings it makes (`ends_iff_run`), and in these every job is run as soon as it is started
(`surroundings_atOnce`). -/
namespace Concatenative

/-- What is kept while jobs run one inside the other. -/
structure Sequential where
  scope : Scope := {}
  library : Library := {}
  /-- What the jobs came to that were started, by the number they were given. -/
  outcomes : Array Outcome := #[]
  stamps : Nat := 0
  world : World := {}

namespace Sequential

/-- Keeps what a job came to that was started. -/
def record (s : Sequential) (o : Outcome) : TaskId × Sequential :=
  (s.outcomes.size, { s with outcomes := s.outcomes.push o })

/-- Answers every request that neither performs nor starts a job. There is no answer if a job waits
for what has not ended. -/
def answer (s : Sequential) : (q : Request) → Option (q.Answer × Sequential)
  | .enter parent input =>
    let (f, scope) := s.scope.addChild parent (input.map .settled)
    some (f, { s with scope })
  | .enterModule frame path =>
    let (f, scope) := s.scope.addModule (s.scope.rootOf frame) path
    some (f, { s with scope })
  | .declare frame name d =>
    let (r, scope) := s.scope.declare frame name d
    some (r, { s with scope })
  | .rebind frame name d =>
    let (r, scope) := s.scope.rebind frame name d
    some (r, { s with scope })
  | .lookup frame name => some (s.scope.lookup frame name, s)
  | .input frame => some (s.scope.input frame, s)
  | .moduleDirectory frame =>
    some ((s.scope.requireLibrary frame).map fun _ => s.scope.moduleDirectory? frame, s)
  | .stamp => some (s.stamps, { s with stamps := s.stamps + 1 })
  | .await task => s.outcomes[task]?.map fun o => (o, s)
  | .giveWay => some ((), s)
  | .settings => some (s.library.settings, s)
  | .claim path =>
    match s.library.claim path 0 with
    | (library, .cached body) => some (some body, { s with library })
    | (library, .granted) => some (none, { s with library })
    | (_, .wait) => none
  | .countParse => some ((), { s with library := s.library.countParse })
  | .publish path body => some ((), { s with library := (s.library.publish path body).1 })
  | .giveUp path => some ((), { s with library := (s.library.giveUp path).1 })
  | .world q =>
    let (a, world) := s.world.answer q
    some (a, { s with world })
  | .note _ => some ((), s)
  | .spawn _ _ | .perform _ => none

/-- Runs a computation; `fuel` bounds how many requests stand inside and behind one another. -/
def run (fuel : Nat) {α : Type} (x : Act α) (s : Sequential) : Option (α × Sequential) :=
  match fuel, x with
  | _, .done a => some (a, s)
  | 0, .ask _ _ => none
  | n + 1, .ask (.perform job) k =>
    match run n job.act.run s with
    | some (.ok (.value v), s) => run n (k (.ok v)) s
    | some (.error e, s) => run n (k (.error e)) s
    | some (.ok (.become next), s) => run n (.ask (.perform next) k) s
    | none => none
  | n + 1, .ask (.spawn l job) k =>
    match run n (.ask (.perform job) .done) s with
    | some (o, s) =>
      let (task, s) := s.record (o.orAt l)
      run n (k task) s
    | none => none
  | n + 1, .ask q k =>
    match s.answer q with
    | some (a, s) => run n (k a) s
    | none => none

variable {α : Type} {n m : Nat} {s s' : Sequential}

/-- How `run` goes on behind a request that neither performs nor starts a job. -/
theorem run_ask {q : Request} {k : q.Answer → Act α} (hp : q.isPerform = false)
    (hs : q.isSpawn = false) :
    run (n + 1) (.ask q k) s = (s.answer q).bind fun (a, s) => run n (k a) s := by
  have h : run (n + 1) (.ask q k) s =
      match s.answer q with
      | some (a, s) => run n (k a) s
      | none => none := by
    cases q with
    | perform job => cases hp
    | spawn l job => cases hs
    | _ => rfl
  rw [h]
  cases s.answer q <;> rfl

/-- More fuel changes no answer. -/
theorem run_succ {x : Act α} {r : α × Sequential} (h : run n x s = some r) :
    run (n + 1) x s = some r := by
  induction n generalizing α s with
  | zero =>
    cases x with
    | done a => exact h
    | ask q k => cases h
  | succ n ih =>
    cases x with
    | done a => exact h
    | ask q k =>
      obtain ⟨job, rfl⟩ | ⟨l, job, rfl⟩ | ⟨hp, hs⟩ := q.perform_or_spawn
      · rw [run] at h ⊢
        cases hj : run n job.act.run s with
        | none => rw [hj] at h; cases h
        | some p =>
          rw [hj] at h
          rw [ih hj]
          obtain ⟨⟨e⟩ | ⟨v⟩ | ⟨next⟩, s₁⟩ := p
          · exact ih h
          · exact ih h
          · exact ih h
      · rw [run] at h ⊢
        cases hj : run n (.ask (.perform job) .done) s with
        | none => rw [hj] at h; cases h
        | some p =>
          rw [hj] at h
          rw [ih hj]
          exact ih h
      · rw [run_ask hp hs] at h ⊢
        cases ha : s.answer q with
        | none => rw [ha] at h; cases h
        | some p => rw [ha] at h; exact ih h

theorem run_mono {x : Act α} {r : α × Sequential} (hnm : n ≤ m) (h : run n x s = some r) :
    run m x s = some r := by
  induction hnm with
  | refl => exact h
  | step _ ih => exact run_succ ih

/-! ## The surroundings that the evaluator makes -/

/-- What is started is run there and then; all other requests are answered from the state. -/
def surroundings : Surroundings Sequential := fun s q a s' =>
  match q, a with
  | .spawn l job, task =>
    ∃ n o s₁, run n (.ask (.perform job) .done) s = some (o, s₁) ∧
      s₁.record (o.orAt l) = (task, s')
  | q, a => s.answer q = some (a, s')

theorem surroundings_iff {q : Request} {a : q.Answer} (hs : q.isSpawn = false) :
    surroundings s q a s' ↔ s.answer q = some (a, s') := by
  cases q with
  | spawn l job => cases hs
  | _ => exact Iff.rfl

theorem ends_of_run {x : Act α} {a : α} (h : run n x s = some (a, s')) :
    x.Ends surroundings s a s' := by
  induction n generalizing α s s' with
  | zero =>
    cases x with
    | done b => cases h; exact .done _ _
    | ask q k => cases h
  | succ n ih =>
    cases x with
    | done b => cases h; exact .done _ _
    | ask q k =>
      obtain ⟨job, rfl⟩ | ⟨l, job, rfl⟩ | ⟨hp, hs⟩ := q.perform_or_spawn
      · rw [run] at h
        cases hj : run n job.act.run s with
        | none => rw [hj] at h; cases h
        | some p =>
          rw [hj] at h
          obtain ⟨⟨e⟩ | ⟨v⟩ | ⟨next⟩, s₁⟩ := p
          · exact .failed (ih hj) (ih h)
          · exact .value (ih hj) (ih h)
          · exact .becomes (ih hj) (ih h)
      · rw [run] at h
        cases hj : run n (.ask (.perform job) .done) s with
        | none => rw [hj] at h; cases h
        | some p =>
          rw [hj] at h
          exact .answered rfl ⟨n, p.1, p.2, hj, rfl⟩ (ih h)
      · rw [run_ask hp hs] at h
        obtain ⟨⟨b, s₁⟩, hb, hk⟩ := Option.bind_eq_some_iff.1 h
        exact .answered hp ((surroundings_iff hs).2 hb) (ih hk)

theorem run_of_ends {x : Act α} {a : α} (h : x.Ends surroundings s a s') :
    ∃ n, run n x s = some (a, s') := by
  induction h with
  | done a s => exact ⟨0, rfl⟩
  | @answered _ q k s s₁ s₂ a b hq ha _ ih =>
    obtain ⟨n, hn⟩ := ih
    obtain ⟨job, rfl⟩ | ⟨l, job, rfl⟩ | ⟨hp, hs⟩ := q.perform_or_spawn
    · cases hq
    · obtain ⟨m, o, s₃, hm, hr⟩ := ha
      refine ⟨max n m + 1, ?_⟩
      rw [run, run_mono (Nat.le_max_right n m) hm]
      dsimp only
      rw [hr]
      exact run_mono (Nat.le_max_left n m) hn
    · refine ⟨n + 1, ?_⟩
      rw [run_ask hp hs, (surroundings_iff hs).1 ha]
      exact hn
  | value _ _ ihj ih =>
    obtain ⟨m, hm⟩ := ihj
    obtain ⟨n, hn⟩ := ih
    refine ⟨max n m + 1, ?_⟩
    rw [run, run_mono (Nat.le_max_right n m) hm]
    exact run_mono (Nat.le_max_left n m) hn
  | failed _ _ ihj ih =>
    obtain ⟨m, hm⟩ := ihj
    obtain ⟨n, hn⟩ := ih
    refine ⟨max n m + 1, ?_⟩
    rw [run, run_mono (Nat.le_max_right n m) hm]
    exact run_mono (Nat.le_max_left n m) hn
  | becomes _ _ ihj ih =>
    obtain ⟨m, hm⟩ := ihj
    obtain ⟨n, hn⟩ := ih
    refine ⟨max n m + 1, ?_⟩
    rw [run, run_mono (Nat.le_max_right n m) hm]
    exact run_mono (Nat.le_max_left n m) hn

/-- The evaluator computes what computations come to in its surroundings. -/
theorem ends_iff_run {x : Act α} {a : α} :
    x.Ends surroundings s a s' ↔ ∃ n, run n x s = some (a, s') :=
  ⟨run_of_ends, fun ⟨_, h⟩ => ends_of_run h⟩

/-- What was kept last is there for those who wait for it. -/
theorem answer_record (s : Sequential) (o : Outcome) :
    (s.record o).2.answer (.await (s.record o).1) = some (o, (s.record o).2) := by
  simp only [answer, record, Array.getElem?_push_size, Option.map_some]

theorem surroundings_atOnce (l : Location) : surroundings.AtOnce l := by
  intro job s o
  constructor
  · rintro ⟨task, s₁, s₂, ⟨n, o₀, s₃, hn, hr⟩, ha⟩
    have hw := (surroundings_iff rfl).1 ha
    cases hr
    have he := hw.symm.trans (answer_record s₃ (Outcome.orAt o₀ l))
    cases he
    exact ⟨o₀, s₃, ends_of_run hn, rfl⟩
  · rintro ⟨o₀, s₂, hj, rfl⟩
    obtain ⟨n, hn⟩ := run_of_ends hj
    exact ⟨_, _, (s₂.record (o₀.orAt l)).2, ⟨n, o₀, s₂, hn, rfl⟩,
      (surroundings_iff rfl).2 (answer_record s₂ (o₀.orAt l))⟩

end Sequential

end Concatenative
