import Concatenative.Cell
import Mathlib.Algebra.GroupWithZero.Nat
import Mathlib.Algebra.Order.BigOperators.Group.List
import Mathlib.Algebra.Order.Group.Nat
import Mathlib.Logic.Function.Basic

/-! Readers of one outcome. Any number of readers ask for what a computation comes to, each in steps of
its own: it looks, waits for the lock, looks again, takes the computation, waits for its end and stores
what it found. `Sharing.Moves` lets the steps of all readers and the end of the computation come in any
order; that the lock has one holder at a time is all that is known of it. Main statement: in every order
the outcome is stored once and is the one that all readers are given (`settlesOnce_of_runs`). -/
namespace Concatenative

/-- How far a reader has come. -/
inductive Stage where
  /-- It does not read. -/
  | away
  /-- It looked, found no outcome and waits for the lock. -/
  | inLine
  /-- It has the lock and is about to look again. -/
  | locked
  /-- It looked again and found no outcome. -/
  | entitled
  /-- It took the computation and waits for its end. -/
  | joined
  /-- It is about to store what it found. -/
  | found (o : Outcome)
  /-- It was given an outcome. -/
  | returned (o : Outcome)

namespace Stage

def isOut : Stage → Bool
  | away | returned _ => true
  | _ => false

def hasLock : Stage → Bool
  | locked | entitled | joined | found _ => true
  | _ => false

/-- The reader has the computation. -/
def tookIt : Stage → Bool
  | joined | found _ => true
  | _ => false

/-- The outcome that a reader knows of. -/
def known : Stage → Option Outcome
  | found o | returned o => some o
  | _ => none

theorem not_hasLock_of_isOut {st : Stage} (h : st.isOut = true) : st.hasLock = false := by
  cases st <;> simp_all [isOut, hasLock]

theorem not_tookIt_of_isOut {st : Stage} (h : st.isOut = true) : st.tookIt = false := by
  cases st <;> simp_all [isOut, tookIt]

theorem hasLock_of_tookIt {st : Stage} (h : st.tookIt = true) : st.hasLock = true := by
  cases st <;> simp_all [tookIt, hasLock]

/-- How many steps a reader has before it, at most. -/
def left : Stage → Nat
  | inLine => 5
  | locked => 4
  | entitled => 3
  | joined => 2
  | found _ => 1
  | _ => 0

end Stage

/-- What can happen, one step at a time. -/
inductive Event where
  /-- A reader looks and is given the outcome. -/
  | sees (reader : TaskId) (o : Outcome)
  /-- A reader looks, finds no outcome and gets in line for the lock. -/
  | misses (reader : TaskId)
  | locks (reader : TaskId)
  /-- The reader that has the lock looks again, is given the outcome and lets go of the lock. -/
  | seesAgain (reader : TaskId) (o : Outcome)
  | missesAgain (reader : TaskId)
  /-- The reader takes the computation to wait for it. -/
  | takes (reader : TaskId)
  /-- The reader finds no computation to take. -/
  | lacks (reader : TaskId)
  /-- The computation that the reader waits for has ended. -/
  | joins (reader : TaskId) (o : Outcome)
  /-- The reader stores what it found, is given it and lets go of the lock. -/
  | stores (reader : TaskId) (o : Outcome)
  /-- The computation ends. -/
  | ends (o : Outcome)

namespace Event

def isTake : Event → Bool
  | takes _ => true
  | _ => false

def isStore : Event → Bool
  | stores _ _ => true
  | _ => false

/-- A reader begins to read. -/
def isFirst : Event → Bool
  | sees _ _ | misses _ => true
  | _ => false

/-- What a reader is given that comes to its end. -/
def given : Event → Option Outcome
  | sees _ o | seesAgain _ o | stores _ o => some o
  | _ => none

end Event

/-- A cell with its readers. -/
structure Sharing where
  cell : Cell
  /-- A computation was started; it is there until a reader takes it. -/
  started : Bool
  stage : TaskId → Stage

/-- The outcome of a value that was made with it. -/
def Deferred.known? : Deferred → Option Outcome
  | .settled v => some (.ok v)
  | .rejected e => some (.error e)
  | .pending _ => none

namespace Sharing

/-- A value that nobody has read yet. -/
def ofDeferred (d : Deferred) : Sharing :=
  ⟨{ outcome := d.known?, result := d.known? }, d.known?.isNone, fun _ => .away⟩

/-- The computation is there to be taken. -/
def hasComputation (s : Sharing) : Bool := s.started && s.cell.joined.isNone

/-- A reader comes to a stage. -/
def put (s : Sharing) (r : TaskId) (stage : Stage) : Sharing :=
  { s with stage := Function.update s.stage r stage }

def onCell (s : Sharing) (f : Cell → Cell) : Sharing := { s with cell := f s.cell }

inductive Moves (s : Sharing) : Event → Sharing → Prop
  | sees {r : TaskId} {o : Outcome} : (s.stage r).isOut = true → s.cell.outcome = some o →
      Moves s (.sees r o) (s.put r (.returned o))
  | misses {r : TaskId} : (s.stage r).isOut = true → s.cell.outcome = none →
      Moves s (.misses r) ((s.onCell fun c => { c with waiting := c.waiting ++ [r] }).put r .inLine)
  | locks {r : TaskId} : s.stage r = .inLine → s.cell.holder = none →
      Moves s (.locks r)
        ((s.onCell fun c => { c with holder := some r, waiting := c.waiting.erase r }).put r .locked)
  | seesAgain {r : TaskId} {o : Outcome} : s.stage r = .locked → s.cell.outcome = some o →
      Moves s (.seesAgain r o) ((s.onCell ({ · with holder := none })).put r (.returned o))
  | missesAgain {r : TaskId} : s.stage r = .locked → s.cell.outcome = none →
      Moves s (.missesAgain r) (s.put r .entitled)
  | takes {r : TaskId} : s.stage r = .entitled → s.hasComputation = true →
      Moves s (.takes r) ((s.onCell ({ · with joined := some r })).put r .joined)
  | lacks {r : TaskId} : s.stage r = .entitled → s.hasComputation = false →
      Moves s (.lacks r) (s.put r (.found (.error (Cause.noComputation : Failure))))
  | joins {r : TaskId} {o : Outcome} : s.stage r = .joined → s.cell.result = some o →
      Moves s (.joins r o) (s.put r (.found o))
  | stores {r : TaskId} {o : Outcome} : s.stage r = .found o →
      Moves s (.stores r o)
        ((s.onCell ({ · with outcome := some o, holder := none })).put r (.returned o))
  | ends {o : Outcome} : s.cell.result = none → Moves s (.ends o) (s.onCell fun c => (c.finish o).1)

/-- Moves one after the other. -/
inductive Runs (s : Sharing) : List Event → Sharing → Prop
  | refl : Runs s [] s
  | snoc {log : List Event} {e : Event} {s₁ s₂ : Sharing} :
      Runs s log s₁ → Moves s₁ e s₂ → Runs s (log ++ [e]) s₂

theorem Runs.trans {s s₁ s₂ : Sharing} {log log' : List Event} (h : Runs s log s₁)
    (h' : Runs s₁ log' s₂) : Runs s (log ++ log') s₂ := by
  induction h' with
  | refl => simpa using h
  | snoc _ hm ih =>
    rw [← List.append_assoc]
    exact .snoc ih hm

/-! ## What holds in between -/

/-- The lock has one holder, the computation one owner, and whatever is known of the outcome is what the
computation came to. -/
structure Sound (s : Sharing) : Prop where
  line : ∀ r, r ∈ s.cell.waiting ↔ s.stage r = .inLine
  nodup : s.cell.waiting.Nodup
  lock : ∀ r, s.cell.holder = some r ↔ (s.stage r).hasLock = true
  entitled : ∀ r, s.stage r = .entitled → s.cell.outcome = none
  owner : ∀ r, (s.stage r).tookIt = true ↔ s.cell.outcome = none ∧ s.cell.joined = some r
  started : s.cell.outcome = none → s.started = true
  outcome : ∀ o, s.cell.outcome = some o → s.cell.result = some o
  known : ∀ r o, (s.stage r).known = some o → s.cell.result = some o

theorem sound_ofDeferred (d : Deferred) : (ofDeferred d).Sound := by
  constructor <;> simp [ofDeferred, Stage.hasLock, Stage.tookIt, Stage.known]

section

variable (s : Sharing) (r q : TaskId) (stage : Stage) (f : Cell → Cell)

@[simp]
theorem stage_put : (s.put r stage).stage q = if q = r then stage else s.stage q := by
  simp [put, Function.update_apply]

@[simp]
theorem cell_put : (s.put r stage).cell = s.cell := rfl

@[simp]
theorem stage_onCell : (s.onCell f).stage = s.stage := rfl

@[simp]
theorem cell_onCell : (s.onCell f).cell = f s.cell := rfl

end

variable {s s' : Sharing} {e : Event} {r r' : TaskId}

/-- A reader that is entitled to the computation finds it. -/
theorem Sound.hasComputation (h : s.Sound) (hr : s.stage r = .entitled) :
    s.hasComputation = true := by
  have hn : s.cell.outcome = none := h.entitled r hr
  cases hj : s.cell.joined with
  | none => simp [Sharing.hasComputation, h.started hn, hj]
  | some r' =>
    have ht : (s.stage r').tookIt = true := (h.owner r').2 ⟨hn, hj⟩
    have hl : s.cell.holder = some r' := (h.lock r').2 (Stage.hasLock_of_tookIt ht)
    rw [(h.lock r).2 (by simp [hr, Stage.hasLock])] at hl
    cases hl
    simp [hr, Stage.tookIt] at ht

/-- Only readers that wait for the lock are in line. -/
theorem Sound.line_moves (h : s.Sound) (hm : s.Moves e s') :
    (∀ q, q ∈ s'.cell.waiting ↔ s'.stage q = .inLine) ∧ s'.cell.waiting.Nodup := by
  have hline := h.line
  have hnodup := h.nodup
  cases hm with
  | ends hr => exact ⟨hline, hnodup⟩
  | _ =>
    simp only [cell_put, cell_onCell, stage_put, stage_onCell]
    grind [Stage.isOut]

/-- The lock has one holder. -/
theorem Sound.lock_moves (h : s.Sound) (hm : s.Moves e s') (q : TaskId) :
    s'.cell.holder = some q ↔ (s'.stage q).hasLock = true := by
  have hlock := h.lock
  cases hm with
  | ends hr => exact hlock q
  | _ =>
    simp only [cell_put, cell_onCell, stage_put, stage_onCell]
    grind [Stage.hasLock, Stage.not_hasLock_of_isOut]

/-- The computation has one owner, until the outcome is stored. -/
theorem Sound.owner_moves (h : s.Sound) (hm : s.Moves e s') (q : TaskId) :
    ((s'.stage q).tookIt = true ↔ s'.cell.outcome = none ∧ s'.cell.joined = some q) := by
  have howner := h.owner
  cases hm with
  | ends hr => exact howner q
  | lacks hr hn => simp [h.hasComputation hr] at hn
  | takes hr hj =>
    have hn := h.entitled _ hr
    simp only [Sharing.hasComputation, Bool.and_eq_true, Option.isNone_iff_eq_none] at hj
    simp only [cell_put, cell_onCell, stage_put, stage_onCell]
    grind [Stage.tookIt]
  | _ =>
    simp only [cell_put, cell_onCell, stage_put, stage_onCell]
    grind [Stage.tookIt, Stage.not_tookIt_of_isOut]

/-- What a reader knows is what the computation came to. -/
theorem Sound.known_moves (h : s.Sound) (hm : s.Moves e s') :
    (∀ o, s'.cell.outcome = some o → s'.cell.result = some o) ∧
      ∀ q o, (s'.stage q).known = some o → s'.cell.result = some o := by
  have hout := h.outcome
  have hknown := h.known
  cases hm with
  | ends hr =>
    simp only [cell_onCell, stage_onCell, Cell.finish]
    grind
  | lacks hr hn => simp [h.hasComputation hr] at hn
  | _ =>
    simp only [cell_put, cell_onCell, stage_put, stage_onCell]
    grind [Stage.known]

theorem Sound.moves (h : s.Sound) (hm : s.Moves e s') : s'.Sound := by
  have hline := h.line_moves hm
  have hknown := h.known_moves hm
  refine ⟨hline.1, hline.2, h.lock_moves hm, ?_, h.owner_moves hm, ?_, hknown.1, hknown.2⟩
  · -- while a reader is entitled it has the lock, so nobody stores an outcome
    have hlock := h.lock
    have hent := h.entitled
    cases hm with
    | ends hr => exact hent
    | _ =>
      simp only [cell_put, cell_onCell, stage_put, stage_onCell]
      grind [Stage.hasLock]
  · have hstarted := h.started
    cases hm with
    | stores hr => simp
    | _ => exact hstarted

theorem Sound.runs {log : List Event} (h : s.Sound) (hr : s.Runs log s') : s'.Sound := by
  induction hr with
  | refl => exact h
  | snoc _ hm ih => exact ih.moves hm

/-! ## What a step changes -/

theorem Moves.outcome (hm : s.Moves e s') (h : s.Sound) :
    e.isStore.toNat + s.cell.outcome.isSome.toNat = s'.cell.outcome.isSome.toNat ∧
      ∀ o, s.cell.outcome = some o → s'.cell.outcome = some o := by
  cases hm with
  | @stores r o hr =>
    have hn : s.cell.outcome = none := ((h.owner r).1 (by simp [hr, Stage.tookIt])).1
    simp [hn, Event.isStore]
  | _ => simp [Event.isStore, Cell.finish]

theorem Moves.joined (hm : s.Moves e s') :
    e.isTake.toNat + s.cell.joined.isSome.toNat = s'.cell.joined.isSome.toNat := by
  cases hm with
  | takes hr hj =>
    simp only [Sharing.hasComputation, Bool.and_eq_true, Option.isNone_iff_eq_none] at hj
    simp [hj.2, Event.isTake]
  | _ => simp [Event.isTake, Cell.finish]

theorem Moves.result (hm : s.Moves e s') (o : Outcome) :
    s'.cell.result = some o ↔ s.cell.result = some o ∨ e = .ends o := by
  cases hm with
  | ends hr => simp [hr, Cell.finish]
  | _ => simp

theorem Moves.given (hm : s.Moves e s') (h : s.Sound) :
    ∀ o, e.given = some o → s'.cell.result = some o := by
  intro o he
  cases hm with
  | sees _ ho => cases he; exact h.outcome _ ho
  | seesAgain _ ho => cases he; exact h.outcome _ ho
  | @stores r _ hr => cases he; exact h.known r _ (by simp [hr, Stage.known])
  | _ => cases he

/-! ## What a log tells -/

variable {d : Deferred} {log : List Event}

/-- The computation came to this outcome, or the value was made with it. -/
def Produced (d : Deferred) (log : List Event) (o : Outcome) : Prop :=
  d.known? = some o ∨ .ends o ∈ log

/-- How the log of a run accounts for the state that it led to. -/
structure Accounts (d : Deferred) (log : List Event) (s : Sharing) : Prop where
  stores : log.countP Event.isStore + d.known?.isSome.toNat = s.cell.outcome.isSome.toNat
  takes : log.countP Event.isTake = s.cell.joined.isSome.toNat
  produced : ∀ o, Produced d log o ↔ s.cell.result = some o
  given : ∀ e ∈ log, ∀ o, e.given = some o → s.cell.result = some o
  lacks : ∀ r, .lacks r ∉ log
  joined : ∀ r, s.stage r = .joined → .takes r ∈ log

theorem countP_snoc (p : Event → Bool) (log : List Event) (e : Event) :
    (log ++ [e]).countP p = log.countP p + (p e).toNat := by
  rw [List.countP_append, List.countP_singleton]
  cases p e <;> rfl

theorem Accounts.moves (h : Accounts d log s) (hs : s.Sound) (hm : s.Moves e s') :
    Accounts d (log ++ [e]) s' := by
  have hresult := hm.result
  refine ⟨?_, ?_, ?_, ?_, ?_, ?_⟩
  · have hold := h.stores
    have hstep := (hm.outcome hs).1
    rw [countP_snoc]
    omega
  · have hold := h.takes
    have hstep := hm.joined
    rw [countP_snoc]
    omega
  · intro o
    rw [hresult, ← h.produced]
    simp [Produced, or_assoc, eq_comm]
  · intro e' he' o ho
    rcases List.mem_append.1 he' with hin | hlast
    · exact (hresult o).2 (.inl (h.given e' hin o ho))
    · rw [List.mem_singleton.1 hlast] at ho
      exact hm.given hs o ho
  · intro r hr
    rcases List.mem_append.1 hr with hin | hlast
    · exact h.lacks r hin
    · rw [← List.mem_singleton.1 hlast] at hm
      cases hm with
      | lacks hr hn => simp [hs.hasComputation hr] at hn
  · intro r hr
    have hjoined := h.joined r
    cases hm with
    | ends _ => simp_all
    | _ =>
      simp only [stage_put, stage_onCell] at hr
      grind

theorem accounts_of_runs (h : Runs (.ofDeferred d) log s) : s.Sound ∧ Accounts d log s := by
  induction h with
  | refl =>
    refine ⟨sound_ofDeferred d, ?_⟩
    constructor <;> simp [ofDeferred, Produced]
  | snoc _ hm ih => exact ⟨ih.1.moves hm, ih.2.moves ih.1 hm⟩

/-! ## Readers come to an end -/

/-- One reader that has begun to read comes nearer to its end; the others stay where they are. -/
def Further (s s' : Sharing) : Prop :=
  ∃ r, (s.stage r).isOut = false ∧ (s'.stage r).left < (s.stage r).left ∧ s'.stage r ≠ .away ∧
    ∀ q, q ≠ r → s'.stage q = s.stage q

theorem further_put {stage next : Stage} {f : Cell → Cell} (hr : s.stage r = stage)
    (hout : stage.isOut = false) (hleft : next.left < stage.left) (hnext : next ≠ .away) :
    s.Further ((s.onCell f).put r next) := by
  refine ⟨r, by rw [hr, hout], ?_, ?_, ?_⟩
  · simpa [hr] using hleft
  · simpa using hnext
  · intro q hq
    simp [hq]

theorem Moves.further (hm : s.Moves e s') (hf : e.isFirst = false)
    (hr : s.cell.result.isSome = true) : s.Further s' := by
  cases hm with
  | sees _ _ => cases hf
  | misses _ _ => cases hf
  | locks hs _ => exact further_put hs rfl (by simp [Stage.left]) nofun
  | seesAgain hs _ => exact further_put hs rfl (by simp [Stage.left]) nofun
  | missesAgain hs _ => exact further_put (f := id) hs rfl (by simp [Stage.left]) nofun
  | takes hs _ => exact further_put hs rfl (by simp [Stage.left]) nofun
  | lacks hs _ => exact further_put (f := id) hs rfl (by simp [Stage.left]) nofun
  | joins hs _ => exact further_put (f := id) hs rfl (by simp [Stage.left]) nofun
  | stores hs => exact further_put hs rfl (by simp [Stage.left]) nofun
  | ends hn => simp [hn] at hr

/-- The reader that has the lock can go on. -/
theorem Sound.progress_holder (h : s.Sound) (hr : s.cell.result.isSome = true)
    (hl : (s.stage r).hasLock = true) : ∃ e s', s.Moves e s' ∧ e.isFirst = false := by
  cases hs : s.stage r with
  | away | inLine | returned o => simp [hs, Stage.hasLock] at hl
  | locked =>
    cases ho : s.cell.outcome with
    | none => exact ⟨_, _, .missesAgain hs ho, rfl⟩
    | some o => exact ⟨_, _, .seesAgain hs ho, rfl⟩
  | entitled => exact ⟨_, _, .takes hs (h.hasComputation hs), rfl⟩
  | joined =>
    obtain ⟨o, ho⟩ := Option.isSome_iff_exists.1 hr
    exact ⟨_, _, .joins hs ho, rfl⟩
  | found o => exact ⟨_, _, .stores hs, rfl⟩

/-- As long as readers wait that have begun to read, one of them can go on. -/
theorem Sound.progress (h : s.Sound) (hr : s.cell.result.isSome = true)
    (hout : (s.stage r).isOut = false) : ∃ e s', s.Moves e s' ∧ e.isFirst = false := by
  cases hh : s.cell.holder with
  | some holder => exact h.progress_holder hr ((h.lock holder).1 hh)
  | none =>
    cases hl : (s.stage r).hasLock with
    | true => exact h.progress_holder hr hl
    | false =>
      have hs : s.stage r = .inLine := by
        cases hs : s.stage r <;> simp_all [Stage.isOut, Stage.hasLock]
      exact ⟨_, _, .locks hs hh, rfl⟩

/-- Once the computation has ended its outcome stays, and no reader forgets that it has read. -/
theorem Runs.stays (hr : s.Runs log s') (hres : s.cell.result.isSome = true)
    (hf : ∀ e ∈ log, e.isFirst = false) :
    s'.cell.result = s.cell.result ∧ ∀ r, s.stage r ≠ .away → s'.stage r ≠ .away := by
  induction hr with
  | refl => exact ⟨rfl, fun r h => h⟩
  | @snoc log e s₁ s₂ _ hm ih =>
    obtain ⟨heq, haway⟩ := ih fun e' he' => hf e' (by simp [he'])
    obtain ⟨r, _, _, hne, hother⟩ := hm.further (hf e (by simp)) (heq ▸ hres)
    constructor
    · obtain ⟨o, ho⟩ := Option.isSome_iff_exists.1 hres
      rw [ho] at heq ⊢
      exact (hm.result o).2 (.inl heq)
    · intro q hq
      by_cases he : q = r
      · exact he ▸ hne
      · exact hother q he ▸ haway q hq

/-- Once the computation has ended, readers take a bounded number of steps. -/
theorem Runs.left_le (hr : s.Runs log s') (hres : s.cell.result.isSome = true)
    (hf : ∀ e ∈ log, e.isFirst = false) {rs : List TaskId}
    (hrs : ∀ r, (s.stage r).isOut = false → r ∈ rs) :
    log.length + (rs.map fun r => (s'.stage r).left).sum ≤ (rs.map fun r => (s.stage r).left).sum ∧
      ∀ r, (s'.stage r).isOut = false → r ∈ rs := by
  induction hr with
  | refl => exact ⟨by simp, hrs⟩
  | @snoc log e s₁ s₂ hr hm ih =>
    have hf₁ : ∀ e' ∈ log, e'.isFirst = false := fun e' he' => hf e' (by simp [he'])
    obtain ⟨hle, hrs₁⟩ := ih hf₁
    have heq := (hr.stays hres hf₁).1
    obtain ⟨r, hout, hlt, _, hother⟩ := hm.further (hf e (by simp)) (heq ▸ hres)
    have hsum : (rs.map fun q => (s₂.stage q).left).sum < (rs.map fun q => (s₁.stage q).left).sum := by
      apply List.sum_lt_sum
      · intro q _
        by_cases hq : q = r
        · subst hq; omega
        · rw [hother q hq]
      · exact ⟨r, hrs₁ r hout, hlt⟩
    constructor
    · rw [List.length_append, List.length_singleton]
      omega
    · intro q hq
      by_cases he : q = r
      · exact he ▸ hrs₁ r hout
      · exact hrs₁ q (hother q he ▸ hq)

/-! ## Settling -/

/-- How a value settles that many readers share, told by the log of their steps. -/
structure SettlesOnce (d : Deferred) (log : List Event) (s : Sharing) : Prop where
  /-- The outcome is written at most once, and never if the value was made with it. -/
  written : log.countP Event.isStore + d.known?.isSome.toNat ≤ 1
  /-- The outcome never changes afterwards. -/
  kept : ∀ o log' s', s.cell.outcome = some o → s.Runs log' s' → s'.cell.outcome = some o
  /-- At most one reader takes the computation, and only that one waits for it. -/
  taken : log.countP Event.isTake ≤ 1 ∧ ∀ r, s.stage r = .joined → .takes r ∈ log
  /-- The computation comes to one outcome. -/
  produced : ∀ o o', Produced d log o → Produced d log o' → o = o'
  /-- Every reader that was given an outcome was given that one. -/
  given : ∀ e ∈ log, ∀ o, e.given = some o → Produced d log o
  /-- No reader finds that there is no computation. -/
  lacks : ∀ r, .lacks r ∉ log
  /-- The value is settled when the reader that waited for the computation is done, not before and ever
  after. -/
  settled : s.cell.isSettled = true ↔ d.known?.isSome = true ∨ ∃ e ∈ log, e.isStore = true
  /-- Once the computation has ended, all that have begun to read are given the outcome after a bounded
  number of steps, unless new readers come. -/
  finishes : ∀ o log' s', Produced d log o → s.Runs log' s' → (∀ e ∈ log', e.isFirst = false) →
    (∀ rs : List TaskId, (∀ r, (s.stage r).isOut = false → r ∈ rs) →
      log'.length ≤ (rs.map fun r => (s.stage r).left).sum) ∧
    ((∀ e s'', s'.Moves e s'' → e.isFirst = true) →
      ∀ r, s.stage r ≠ .away → s'.stage r = .returned o)

theorem Sound.kept (h : s.Sound) (hr : s.Runs log s') {o : Outcome} (ho : s.cell.outcome = some o) :
    s'.cell.outcome = some o := by
  induction hr with
  | refl => exact ho
  | snoc hr hm ih => exact (hm.outcome (h.runs hr)).2 o ih

/-- Where no reader can go on that has begun to read, all of them have been given the outcome. -/
theorem Sound.returned (h : s.Sound) {o : Outcome} (hr : s.cell.result = some o)
    (hstuck : ∀ e s', s.Moves e s' → e.isFirst = true) (hne : s.stage r ≠ .away) :
    s.stage r = .returned o := by
  cases hout : (s.stage r).isOut with
  | false =>
    obtain ⟨e, s', hm, hf⟩ := h.progress (by simp [hr]) hout
    simp [hstuck e s' hm] at hf
  | true =>
    cases hs : s.stage r with
    | returned o' =>
      have ho' := h.known r o' (by simp [hs, Stage.known])
      rw [hr] at ho'
      cases ho'
      rfl
    | _ => simp_all [Stage.isOut]

/-- Whatever order the steps come in, a value settles once. -/
theorem settlesOnce_of_runs (hr : Runs (.ofDeferred d) log s) : SettlesOnce d log s := by
  obtain ⟨hs, ha⟩ := accounts_of_runs hr
  refine ⟨?_, ?_, ⟨?_, ha.joined⟩, ?_, ?_, ha.lacks, ?_, ?_⟩
  · rw [ha.stores]
    exact Bool.toNat_le _
  · intro o log' s' ho hr'
    exact hs.kept hr' ho
  · rw [ha.takes]
    exact Bool.toNat_le _
  · intro o o' ho ho'
    rw [ha.produced] at ho ho'
    rw [ho] at ho'
    cases ho'
    rfl
  · intro e he o ho
    exact (ha.produced o).2 (ha.given e he o ho)
  · have hstores := ha.stores
    rw [Cell.isSettled, ← List.countP_pos_iff]
    cases hk : d.known?.isSome <;> cases ho : s.cell.outcome.isSome <;> simp_all
  · intro o log' s' ho hr' hf
    have hres : s.cell.result = some o := (ha.produced o).1 ho
    have hsome : s.cell.result.isSome = true := by simp [hres]
    constructor
    · intro rs hrs
      have hle := (hr'.left_le hsome hf hrs).1
      omega
    · intro hstuck r hne
      obtain ⟨heq, haway⟩ := hr'.stays hsome hf
      exact (hs.runs hr').returned (heq.trans hres) hstuck (haway r hne)

end Sharing

end Concatenative
