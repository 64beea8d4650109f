import Concatenative.Proofs.Correspondence.Job
import Concatenative.Proofs.StackDepth

/-! What computations ask for, and what they do with a failure that an answer brings. `Act.Passes`
says both of a computation, whatever it is answered: it asks only for what is admitted, and with a
failure that counts it ends there and then. The module has one rule for each way of building
computations and then one for each function of the evaluator. Main statements: a job that neither puts
operands together nor catches failures ends with the first failure it is answered (`Job.forwards_act`),
and none but the call of a closure asks for a frame or for names (`Job.asks_act`). -/
namespace Concatenative

open Eval Evaluation

/-- The failure that an answer brings. -/
def Request.failure? : (q : Request) → q.Answer → Option Failure
  | .declare _ _ _, .error e | .rebind _ _ _, .error e | .lookup _ _, .error e | .input _, .error e
  | .moduleDirectory _, .error e | .await _, .error e | .perform _, .error e
  | .world (.word _ _), .error e => some e
  | _, _ => none

/-- The computation asks only for what is in `P`, and if an answer brings a failure that is in `C` it
ends with just this failure. -/
inductive Act.Passes {α : Type} (P : Request → Prop) (C : Failure → Prop) :
    Act (Except Failure α) → Prop
  | done (r : Except Failure α) : Passes P C (.done r)
  | ask {q : Request} {k : q.Answer → Act (Except Failure α)} : P q →
      (∀ a e, q.failure? a = some e → C e → k a = .done (.error e)) → (∀ a, Passes P C (k a)) →
      Passes P C (.ask q k)

/-- The computation asks only for what is in `P`. -/
abbrev Act.Asks {α : Type} (P : Request → Prop) (x : Act (Except Failure α)) : Prop :=
  x.Passes P fun _ => False

variable {P Q : Request → Prop} {C D : Failure → Prop} {α β : Type}

/-! ## Ways to build computations -/

namespace Act.Passes

variable {x : Act (Except Failure α)}

theorem mono (hP : ∀ q, P q → Q q) (hC : ∀ e, D e → C e) (h : x.Passes P C) : x.Passes Q D := by
  induction h with
  | done r => exact .done r
  | ask hq he _ ih => exact .ask (hP _ hq) (fun a e ha hd => he a e ha (hC e hd)) ih

theorem asks (h : x.Passes P C) : x.Asks P := h.mono (fun _ => id) fun _ h => h.elim

theorem bind {f : α → Eval β} (hx : x.Passes P C) (hf : ∀ a, (f a).run.Passes P C) :
    (x.bind (ExceptT.bindCont f)).Passes P C := by
  induction hx with
  | done r =>
    cases r with
    | ok a => exact hf a
    | error e => exact .done _
  | @ask q k hq he _ ih =>
    refine .ask hq (fun a e ha hc => ?_) ih
    rw [he a e ha hc]
    rfl

/-- A failure that blames a place already passes a place that would be blamed. -/
theorem orAt {l : Location} (hC : ∀ e, C e → ∃ l, e.location = some l) (hx : x.Passes P C) :
    (x.bind fun r => .done (r.mapError fun e => e.orAt l)).Passes P C := by
  induction hx with
  | done r => exact .done _
  | @ask q k hq he _ ih =>
    refine .ask hq (fun a e ha hc => ?_) ih
    obtain ⟨l', hl'⟩ := hC e hc
    have hkeep : e.orAt l = e := by rw [Failure.orAt, hl']
    rw [he a e ha hc]
    exact congrArg (fun e => Act.done (Except.error e)) hkeep

theorem attempt (hx : x.Asks P) :
    (x.bind fun r => Act.done (Except.ok (ε := Failure) r)).Asks P := by
  induction hx with
  | done r => exact .done _
  | ask hq _ _ ih => exact .ask hq (fun _ _ _ h => h.elim) ih

end Act.Passes

namespace Eval

theorem passes_pure (a : α) : (pure a : Eval α).run.Passes P C := .done _

theorem passes_throw (e : Failure) : (throw e : Eval α).run.Passes P C := .done _

theorem passes_fail (c : Cause) : (fail c : Eval α).run.Passes P C := .done _

theorem passes_orFail (x : Except Failure α) : (orFail x).run.Passes P C := by
  cases x <;> exact .done _

theorem passes_bind {x : Eval α} {f : α → Eval β} (hx : x.run.Passes P C)
    (hf : ∀ a, (f a).run.Passes P C) : (x >>= f).run.Passes P C := Act.Passes.bind hx hf

/-- A request whose answers bring no failure. -/
theorem passes_ask {q : Request} (hq : P q) (hn : ∀ a, q.failure? a = none) :
    (ask q).run.Passes P C :=
  .ask hq (fun a e ha => by rw [hn a] at ha; cases ha) fun _ => .done _

/-- A request whose answer is failed with if it brings a failure. -/
theorem passes_ask_orFail {q : Request} {g : q.Answer → Except Failure α} (hq : P q)
    (hg : ∀ a e, q.failure? a = some e → g a = .error e) :
    (ask q >>= fun a => orFail (g a)).run.Passes P C := by
  refine .ask hq (fun a e ha _ => ?_) fun a => passes_orFail (g a)
  show (orFail (g a)).run = _
  rw [hg a e ha]
  rfl

theorem passes_perform {job : Job} (hq : P (.perform job)) : (perform job).run.Passes P C :=
  passes_ask_orFail (q := .perform job) (g := fun o => o) hq fun a e ha => by
    cases a <;> cases ha
    rfl

theorem passes_await {d : Deferred} (hq : ∀ t, P (.await t)) : (await d).run.Passes P C := by
  cases d with
  | settled v => exact .done _
  | rejected e => exact .done _
  | pending t =>
    refine passes_ask_orFail (q := .await t) (g := fun o => o) (hq t) fun a e ha => ?_
    cases a <;> cases ha
    rfl

theorem passes_start {l : Location} {job : Job} (hq : P (.spawn l job)) :
    (start l job).run.Passes P C :=
  passes_bind (passes_ask hq fun _ => rfl) fun _ => passes_pure _

theorem passes_note {level : Level} {text : String} (hq : P (.note ⟨level, text⟩)) :
    (note level text).run.Passes P C := passes_ask hq fun _ => rfl

theorem passes_orAt {l : Location} {x : Eval α} (hC : ∀ e, C e → ∃ l, e.location = some l)
    (hx : x.run.Passes P C) : (orAt l x).run.Passes P C := Act.Passes.orAt hC hx

/-- What looks at a failure does not hand it on, but it asks for nothing else. -/
theorem asks_attempt {x : Eval α} (hx : x.run.Asks P) : (attempt x).run.Asks P :=
  Act.Passes.attempt hx

end Eval

/-! ## Lists -/

theorem passes_startEach (hq : ∀ l job, P (.spawn l job)) {l : Location} {f : Value}
    (started : List Deferred) (index : Nat) (xs : List Value) :
    (startEach l f started index xs).run.Passes P C := by
  induction xs generalizing started index with
  | nil => exact passes_pure _
  | cons v rest ih =>
    exact passes_bind (passes_start (hq _ _)) fun d => ih (d :: started) (index + 1)

theorem asks_awaitAll (hq : ∀ t, P (.await t)) (found : List Outcome) (ds : List Deferred) :
    (awaitAll found ds).run.Asks P := by
  induction ds generalizing found with
  | nil => exact passes_pure _
  | cons d rest ih => exact passes_bind (asks_attempt (passes_await hq)) fun o => ih (o :: found)

theorem asks_settleAll (hq : ∀ t, P (.await t)) (ds : List Deferred) : (settleAll ds).run.Asks P :=
  passes_bind (asks_awaitAll hq [] ds) fun _ => passes_orFail _

/-! ## Code -/

/-- What a primitive may ask for in a frame. -/
def Primitive.MayAsk (p : Primitive) (f : FrameId) : Request → Prop
  | .spawn _ _ | .stamp | .await _ => True
  | .declare g _ _ => p = .bind ∧ g = f
  | .rebind g _ _ => p = .rebind ∧ g = f
  | .lookup g _ => p = .lookup ∧ g = f
  | .input g => p = .input ∧ g = f
  | _ => False

/-- What code may ask for in a frame. -/
def Request.OfCode (f : FrameId) (q : Request) : Prop := ∃ p : Primitive, p.MayAsk f q

variable {f : FrameId} {l : Location} {stack : Stack}

theorem passes_pop : (pop stack).run.Passes P C := by
  cases stack <;> exact .done _

theorem passes_popName (hq : ∀ t, P (.await t)) : (popName stack).run.Passes P C := by
  refine passes_bind passes_pop fun p => passes_bind (passes_await hq) fun v => ?_
  cases v with
  | text name => exact passes_pure _
  | _ => exact passes_fail _

/-- A name and a value are popped, and what is asked about them may be refused. -/
theorem passes_popBoth {x : String → Deferred → Eval (Except Failure Unit)}
    (hawait : ∀ t, P (.await t))
    (hx : ∀ name d, (x name d >>= fun a => orFail a).run.Passes P C) :
    (popBoth x stack).run.Passes P C := by
  refine passes_bind (passes_popName hawait) fun (name, _) => passes_bind passes_pop fun (d, rest) => ?_
  have h := passes_bind (hx name d) fun _ => passes_pure rest
  rw [bind_assoc] at h
  exact h

theorem passes_primitive (p : Primitive) : (primitive f l p stack).run.Passes (p.MayAsk f) C := by
  have hawait : ∀ t, p.MayAsk f (.await t) := fun _ => trivial
  have hstart : ∀ {p : Primitive} {job : Job} {k : Deferred → Eval Stack},
      (∀ d, (k d).run.Passes (p.MayAsk f) C) → (start l job >>= k).run.Passes (p.MayAsk f) C :=
    fun hk => passes_bind (passes_start trivial) hk
  cases p with
  | bind =>
    rw [primitive_bind]
    refine passes_popBoth hawait fun name d => ?_
    refine passes_ask_orFail (q := .declare f name d) (g := fun a => a) ⟨rfl, rfl⟩ fun a e ha => ?_
    cases a <;> cases ha
    rfl
  | rebind =>
    rw [primitive_rebind]
    refine passes_popBoth hawait fun name d => ?_
    refine passes_ask_orFail (q := .rebind f name d) (g := fun a => a) ⟨rfl, rfl⟩ fun a e ha => ?_
    cases a <;> cases ha
    rfl
  | lookup =>
    refine passes_bind (passes_popName hawait) fun p => ?_
    simp only [orFail_bind_pure]
    refine passes_ask_orFail (q := .lookup f p.1) ⟨rfl, rfl⟩ fun a e ha => ?_
    cases a <;> cases ha
    rfl
  | input =>
    simp only [primitive, orFail_bind_pure]
    refine passes_ask_orFail (q := .input f) ⟨rfl, rfl⟩ fun a e ha => ?_
    cases a <;> cases ha
    rfl
  | compose | concat | push | map | reduce =>
    exact passes_bind passes_pop fun _ => passes_bind passes_pop fun _ =>
      hstart fun _ => passes_pure _
  | force | newList | load | access =>
    exact passes_bind passes_pop fun _ => hstart fun _ => passes_pure _
  | guard =>
    exact passes_bind passes_pop fun _ => passes_bind passes_pop fun _ =>
      passes_bind (passes_ask (q := .stamp) trivial fun _ => rfl) fun _ => passes_pure _
  | pop =>
    exact passes_bind passes_pop fun _ => hstart fun _ => hstart fun _ => hstart fun _ =>
      passes_pure _
  | clear => exact passes_bind passes_pop fun _ => passes_pure _

section Located

variable (hC : ∀ e, C e → ∃ l, e.location = some l)

include hC

theorem passes_instruction (i : Instruction) :
    (instruction f i stack).run.Passes (Request.OfCode f) C := by
  refine passes_orAt hC ?_
  cases i.op with
  | literal v => exact passes_pure _
  | group body =>
    exact passes_bind (passes_ask (q := .stamp) ⟨.clear, trivial⟩ fun _ => rfl) fun _ => passes_pure _
  | primitive p => exact (passes_primitive p).mono (fun q hq => ⟨p, hq⟩) fun _ => id

theorem passes_code (is : List Instruction) :
    (code f is stack).run.Passes (Request.OfCode f) C := by
  induction is generalizing stack with
  | nil =>
    cases stack with
    | nil => exact passes_pure _
    | cons d rest => exact passes_await fun _ => ⟨.clear, trivial⟩
  | cons i rest ih =>
    rw [code_cons]
    exact passes_bind (passes_instruction hC i) fun _ => ih

end Located

/-! ## Jobs that put operands together -/

/-- What follows when the operands of a map are there. -/
def mapAll (l : Location) (p : List Value × Value) : Eval Next := do
  let results ← startEach l p.2 [] 0 p.1
  return .become (.gather results)

/-- What a job waits for before it does anything else. -/
def Job.operands : Job → List Deferred
  | .compose g f => [g, f]
  | .concat a b => [a, b]
  | .append items value => [items, value]
  | .map _ items f => [items, f]
  | .reducer source step => [source, step]
  | .gather ds => ds
  | _ => []

/-- What an operator makes of the values of its two operands. -/
def Job.combineBoth (job : Job) (a b : Value) : Eval Next :=
  match job with
  | .compose _ _ => do return .value (.callable (.composed (← ask .stamp) b a))
  | .concat _ _ => do return .value (← orFail (a.concat b))
  | .append _ _ => do return .value (← orFail (a.append b))
  | .map l _ _ => do mapAll l (← orFail a.asList, b)
  | .reducer _ _ =>
    match a with
    | .list _ | .callable _ => do return .value (.callable (.reducer (← ask .stamp) a b))
    | v => fail (.notReducible v.kind)
  | _ => return .value .none

/-- What a job makes of the values of its operands. -/
def Job.combine (job : Job) (vs : List Value) : Eval Next :=
  match job, vs with
  | .gather _, vs => return .value (.list vs)
  | job, [a, b] => job.combineBoth a b
  | _, _ => return .value .none

/-- The job waits for operands and then goes on with their values. -/
def Job.Combines : Job → Prop
  | .compose _ _ | .concat _ _ | .append _ _ | .map _ _ _ | .reducer _ _ | .gather _ => True
  | _ => False

theorem settleBoth_eq (a b : Deferred) (f : List Value → Eval Next) :
    settleAll [a, b] >>= f = settleBoth a b >>= fun p => f [p.1, p.2] := by
  simp only [settleAll, settleBoth, awaitAll, bind_assoc, pure_bind]
  congr 1
  funext x
  congr 1
  funext y
  cases x with
  | error e => rfl
  | ok v => cases y <;> rfl

theorem Job.act_combines {job : Job} (h : job.Combines) :
    job.act = settleAll job.operands >>= job.combine := by
  cases job with
  | gather ds => rfl
  | compose g f => exact (settleBoth_eq g f (Job.compose g f).combine).symm
  | concat a b => exact (settleBoth_eq a b (Job.concat a b).combine).symm
  | append items value => exact (settleBoth_eq items value (Job.append items value).combine).symm
  | map l items f => exact (settleBoth_eq items f (Job.map l items f).combine).symm
  | reducer source step => exact (settleBoth_eq source step (Job.reducer source step).combine).symm
  | _ => cases h

/-! ## Jobs -/

/-- Requests about the frame of an invocation: to make it, and for its names and its input. -/
def Request.isLocal : Request → Bool
  | enter _ _ | declare _ _ _ | rebind _ _ _ | lookup _ _ | input _ => true
  | _ => false

/-- The job looks at no failure that it is answered: it neither waits for all its operands nor catches
failures. -/
def Job.FailsFast (job : Job) : Prop :=
  ¬ job.Combines ∧ ∀ n d handler x, job ≠ .call (.guarded n d handler) x

variable (hP : ∀ q : Request, q.isLocal = false → P q)

include hP

theorem passes_foldList {step total : Value} {index : Nat} (xs : List Value) :
    (foldList step total index xs).run.Passes P C := by
  induction xs generalizing total index with
  | nil => exact passes_pure _
  | cons v rest ih => exact passes_bind (passes_perform (hP _ rfl)) fun _ => ih

theorem passes_noteAll (ns : List Note) : (noteAll ns).run.Passes P C := by
  induction ns with
  | nil => exact passes_pure _
  | cons n rest ih => exact passes_bind (passes_ask (q := .note n) (hP _ rfl) fun _ => rfl) fun _ => ih

theorem passes_linger (o : Outcome) (turns : Nat) : (linger o turns).run.Passes P C := by
  induction turns with
  | zero => exact passes_bind (passes_orFail o) fun _ => passes_pure _
  | succ n ih => exact passes_bind (passes_ask (q := .giveWay) (hP _ rfl) fun _ => rfl) fun _ => ih

theorem passes_word (w : Word) (x : Option Value) : (word w x).run.Passes P C := by
  cases w with
  | print =>
    refine passes_bind (passes_ask (q := .world (.write _)) (hP _ rfl) fun _ => rfl) fun r => ?_
    cases r with
    | ok _ => exact passes_pure _
    | error fault => exact passes_fail _
  | foreign name =>
    refine passes_ask_orFail (q := .world (.word name x)) (g := fun a => a) (hP _ rfl) fun a e ha => ?_
    cases a <;> cases ha
    rfl
  | _ => exact passes_orFail _

theorem passes_search (reference : String) (first : Path) :
    (resolve reference (some first)).run.Passes P C := by
  refine passes_bind (passes_pure first) fun first => ?_
  refine passes_bind (passes_ask (q := .settings) (hP _ rfl) fun _ => rfl) fun settings => ?_
  refine passes_bind (passes_ask (q := .world (.firstFile _)) (hP _ rfl) fun _ => rfl) fun found => ?_
  refine passes_bind (passes_noteAll hP _) fun _ => ?_
  cases found with
  | some found => exact passes_pure _
  | none => exact passes_fail _

theorem passes_resolve (reference : String) (directory : Option Path) :
    (resolve reference directory).run.Passes P C := by
  cases directory with
  | some d => exact passes_search hP reference d
  | none =>
    exact passes_bind (passes_ask (q := .world .workingDirectory) (hP _ rfl) fun _ => rfl)
      (passes_search hP reference)

theorem passes_locate (frame : FrameId) (reference : Deferred) :
    (locate frame reference).run.Passes P C := by
  refine passes_bind (passes_await fun _ => hP _ rfl) fun v => ?_
  cases v with
  | text reference =>
    have hdirectory : (ask (.moduleDirectory frame) >>= fun a => orFail a).run.Passes P C := by
      refine passes_ask_orFail (q := .moduleDirectory frame) (g := fun a => a) (hP _ rfl) fun a e ha => ?_
      cases a <;> cases ha
      rfl
    refine passes_bind (x := ask (.moduleDirectory frame) >>= fun a => orFail a) hdirectory
      fun directory => ?_
    refine passes_bind (passes_resolve hP reference directory) fun path => ?_
    exact passes_bind (passes_note (hP _ rfl)) fun _ => passes_pure _
  | _ => exact passes_fail _

theorem passes_moduleBody (path : Path) : (moduleBody path).run.Passes P C := by
  refine passes_bind (passes_ask (q := .claim path) (hP _ rfl) fun _ => rfl) fun claimed => ?_
  cases claimed with
  | some body => exact passes_pure _
  | none =>
    refine passes_bind (passes_ask (q := .world (.content path)) (hP _ rfl) fun _ => rfl) fun r => ?_
    cases r with
    | error fault =>
      exact passes_bind (passes_ask (q := .giveUp path) (hP _ rfl) fun _ => rfl) fun _ =>
        passes_fail _
    | ok text =>
      refine passes_bind (passes_ask (q := .countParse) (hP _ rfl) fun _ => rfl) fun _ => ?_
      refine passes_bind (passes_note (hP _ rfl)) fun _ => ?_
      refine passes_bind (passes_ask (q := .settings) (hP _ rfl) fun _ => rfl) fun settings => ?_
      refine passes_bind (passes_noteAll hP _) fun _ => ?_
      cases (build settings.strict path.text text).result with
      | ok body =>
        exact passes_bind (passes_ask (q := .publish path body) (hP _ rfl) fun _ => rfl) fun _ =>
          passes_pure _
      | error e =>
        exact passes_bind (passes_ask (q := .giveUp path) (hP _ rfl) fun _ => rfl) fun _ =>
          passes_throw _

theorem passes_composed (f g : Value) (x : Option Value) : (composed f g x).run.Passes P C := by
  rw [composed_eq]
  refine passes_bind ?_ fun inner => passes_pure _
  split
  · exact passes_perform (hP _ rfl)
  · exact passes_pure _

theorem passes_reduce (source step : Value) (initial : Option Value) :
    (reduce source step initial).run.Passes P C := by
  cases initial with
  | some total =>
    cases source with
    | list items => exact passes_bind (passes_foldList hP items) fun _ => passes_pure _
    | _ => exact passes_pure _
  | none =>
    cases source with
    | list items =>
      cases items with
      | nil => exact passes_fail _
      | cons first rest => exact passes_bind (passes_foldList hP rest) fun _ => passes_pure _
    | _ =>
      refine passes_bind (passes_perform (hP _ rfl)) fun first => ?_
      cases first with
      | none => exact passes_fail _
      | _ => exact passes_pure _

theorem passes_generate (generator step total : Value) (index : Nat) :
    (generate generator step total index).run.Passes P C := by
  refine passes_bind (passes_perform (hP _ rfl)) fun v => ?_
  cases v with
  | none => exact passes_pure _
  | _ => exact passes_bind (passes_perform (hP _ rfl)) fun _ => passes_pure _

theorem passes_force (hC : ∀ e, C e → ∃ l, e.location = some l) (v : Value) (x : Option Value) :
    (force v x).run.Passes P C := by
  cases v with
  | callable c =>
    unfold force
    dsimp only
    cases c.tailForce? with
    | none => exact passes_pure _
    | some l =>
      exact passes_bind (passes_orAt hC (passes_perform (hP _ rfl))) fun _ => passes_pure _
  | _ => exact passes_bind (passes_orFail _) fun _ => passes_pure _

theorem passes_bounce (c : Callable) (x : Option Value) : (bounce c x).run.Passes P C := by
  rw [bounce_eq]
  exact passes_bind (passes_perform (hP _ rfl)) fun _ => passes_pure _

/-- A job that fails fast and is not the call of a closure. -/
theorem Job.passes_act {job : Job} (hC : ∀ e, C e → ∃ l, e.location = some l) (hfast : job.FailsFast)
    (hclosure : ∀ n b parent x, job ≠ .call (.closure n b parent) x) : job.act.run.Passes P C := by
  cases job with
  | force v x => exact passes_force hP hC v x
  | call c x =>
    cases c with
    | closure n b parent => exact absurd rfl (hclosure n b parent x)
    | composed n f g => exact passes_composed hP f g x
    | guarded n d handler => exact absurd rfl (hfast.2 n d handler x)
    | reducer n source step => exact passes_reduce hP source step x
    | host w => exact passes_bind (passes_word hP w x) fun _ => passes_pure _
  | bounce c x => exact passes_bounce hP c x
  | generate generator step total index => exact passes_generate hP generator step total index
  | forceLater d => exact passes_bind (passes_await fun _ => hP _ rfl) fun _ => passes_pure _
  | transform d f =>
    exact passes_bind (passes_await fun _ => hP _ rfl) fun _ =>
      passes_bind (passes_orFail _) fun _ => passes_pure _
  | load frame reference =>
    exact passes_bind (passes_locate hP frame reference) fun _ =>
      passes_bind (passes_perform (hP _ rfl)) fun _ => passes_pure _
  | access frame reference =>
    exact passes_bind (passes_locate hP frame reference) fun _ => passes_pure _
  | openModule frame path =>
    exact passes_bind (passes_moduleBody hP path) fun _ =>
      passes_bind (passes_ask (q := .enterModule frame path) (hP _ rfl) fun _ => rfl) fun _ =>
        passes_bind (passes_ask (q := .stamp) (hP _ rfl) fun _ => rfl) fun _ => passes_pure _
  | lingering turns o => exact passes_linger hP o turns
  | _ => exact absurd trivial hfast.1

/-! ## Jobs that look at failures -/

theorem passes_combineBoth (job : Job) (a b : Value) : (job.combineBoth a b).run.Passes P C := by
  have hstamp : ∀ f : Nat → Value,
      (ask .stamp >>= fun n => (pure (.value (f n)) : Eval Next)).run.Passes P C := fun _ =>
    passes_bind (passes_ask (q := .stamp) (hP _ rfl) fun _ => rfl) fun _ => passes_pure _
  cases job with
  | compose g f => exact hstamp _
  | concat x y => exact passes_bind (passes_orFail _) fun _ => passes_pure _
  | append x y => exact passes_bind (passes_orFail _) fun _ => passes_pure _
  | map l x y =>
    exact passes_bind (passes_orFail _) fun xs =>
      passes_bind (passes_startEach (fun _ _ => hP _ rfl) [] 0 xs) fun _ => passes_pure _
  | reducer x y =>
    cases a with
    | list items => exact hstamp _
    | callable c => exact hstamp _
    | _ => exact passes_fail _
  | _ => exact passes_pure _

theorem passes_combine (job : Job) (vs : List Value) : (job.combine vs).run.Passes P C := by
  unfold Job.combine
  split
  · exact passes_pure _
  · exact passes_combineBoth hP ..
  · exact passes_pure _

theorem asks_guarded (d handler : Deferred) (x : Option Value) : (guarded d handler x).run.Asks P := by
  have hcall : (do perform (.force (← await d) x) : Eval Value).run.Asks P :=
    passes_bind (passes_await fun _ => hP _ rfl) fun _ => passes_perform (hP _ rfl)
  refine passes_bind (asks_attempt hcall) fun o => ?_
  cases o with
  | ok v => exact passes_pure _
  | error e =>
    refine passes_bind (passes_note (hP _ rfl)) fun _ => ?_
    exact passes_bind (passes_await fun _ => hP _ rfl) fun _ => passes_pure _

omit hP

/-- Only the call of a closure asks for a frame, for names or for an input. -/
theorem Job.asks_act {job : Job} (hclosure : ∀ n b parent x, job ≠ .call (.closure n b parent) x) :
    job.act.run.Asks (·.isLocal = false) := by
  have hall : ∀ q : Request, q.isLocal = false → q.isLocal = false := fun _ => id
  by_cases hcombines : job.Combines
  · rw [Job.act_combines hcombines]
    exact passes_bind (asks_settleAll (fun _ => rfl) _) fun vs => passes_combine hall job vs
  · by_cases hguarded : ∃ n d handler x, job = .call (.guarded n d handler) x
    · obtain ⟨n, d, handler, x, rfl⟩ := hguarded
      exact asks_guarded hall d handler x
    · refine Job.passes_act hall (fun _ h => h.elim) ⟨hcombines, fun n d handler x he => ?_⟩ hclosure
      exact hguarded ⟨n, d, handler, x, he⟩

end Concatenative
