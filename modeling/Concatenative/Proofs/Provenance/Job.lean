import Concatenative.Proofs.Provenance.Computation

/-! Jobs ask in due order. Main statement: a job that does to closures what is known of them unfolds to
a computation that asks only for what is due and hands on only what is known (`proper_act`). Each lemma
is the specification of one function of the evaluation. -/
namespace Concatenative

open Eval Evaluation

variable {w : Provenance} {φ : Phase} {α : Type}

/-- How a job may end. -/
def Next.Allowed (w : Provenance) : Next → Prop
  | .value v => w.Knows v.closures
  | .become job => w.Allows job

namespace Provenance

theorem allows_force {v : Value} {x : Option Value} (hv : w.Knows v.closures)
    (hx : w.Knows (inputClosures x)) : w.Allows (.force v x) :=
  ⟨knows_append.2 ⟨hv, hx⟩, trivial⟩

theorem allows_call {c : Callable} {x : Option Value} (hc : w.Knows c.closures)
    (hx : w.Knows (inputClosures x)) : w.Allows (.call c x) :=
  ⟨knows_append.2 ⟨hc, hx⟩, trivial⟩

theorem allows_bounce {c : Callable} {x : Option Value} (hc : w.Knows c.closures)
    (hx : w.Knows (inputClosures x)) : w.Allows (.bounce c x) :=
  ⟨knows_append.2 ⟨hc, hx⟩, trivial⟩

theorem allows_transform {d : Deferred} {f : Value → Outcome} (hd : w.Knows d.closures)
    (hf : ∀ v : Value, (f v).closures ⊆ v.closures) : w.Allows (.transform d f) :=
  ⟨hd, fun _ _ v hv => hv.of_subset (hf v)⟩

theorem knows_pair {a b : Value} (ha : w.Knows a.closures) (hb : w.Knows b.closures) :
    w.Knows (Value.closures (.list [a, b])) := by
  rw [Value.closures_list]
  simpa using ⟨ha, hb⟩

theorem allows_step {step total v : Value} (hs : w.Knows step.closures)
    (ht : w.Knows total.closures) (hv : w.Knows v.closures) (index : Nat) :
    w.Allows (.force step (some (stepInput total v index))) := by
  have hindex : w.Knows (indexValue index).closures := w.knows_nil
  have hinput : w.Knows (stepInput total v index).closures := by
    rw [stepInput, Value.closures_list]
    simpa using ⟨ht, hv, hindex⟩
  exact allows_force hs hinput

end Provenance

open Provenance

namespace Evaluation

/-! ## Instructions -/

abbrev KnowsStack (w : Provenance) (stack : Stack) : Prop := w.Knows (stackClosures stack)

theorem knowsStack_cons {d : Deferred} {stack : Stack} :
    KnowsStack w (d :: stack) ↔ w.Knows d.closures ∧ KnowsStack w stack := knows_append

theorem steady_pop {χ : Provenance → α → Prop} {stack : Stack} {f : Deferred × Stack → Eval α}
    (hs : KnowsStack w stack)
    (hf : ∀ {d rest}, w.Knows d.closures → KnowsStack w rest → Eval.Steady χ w φ (f (d, rest))) :
    Eval.Steady χ w φ (pop stack >>= f) := by
  cases stack with
  | nil => exact steady_fail _
  | cons d rest =>
    obtain ⟨hd, hrest⟩ := knowsStack_cons.1 hs
    exact hf hd hrest

theorem steady_withName {χ : Provenance → α → Prop} {stack : Stack} {f : String × Stack → Eval α}
    (hφ : φ.loads? = none) (hs : KnowsStack w stack)
    (hf : ∀ {w' name rest}, w ≤ w' → KnowsStack w' rest →
      Eval.Steady χ w' φ (f (name, rest))) :
    Eval.Steady χ w φ (popName stack >>= f) := by
  have hname : Eval.Steady (fun w r => KnowsStack w r.2) w φ (popName stack) := by
    refine steady_pop hs fun hd hrest => ?_
    refine (steady_await hφ hd).bind fun w' hle v _ => ?_
    cases v with
    | text name => exact steady_pure (hrest.mono hle)
    | _ => exact steady_fail _
  exact hname.bind fun w' hle _ hr => hf hle hr

/-- Starts a job and pushes its result. -/
theorem steady_push {l : Location} {job : Job} {stack : Stack} (hφ : φ.loads? = none)
    (hj : w.Allows job) (hl : w.Locates φ l job) (hs : KnowsStack w stack) :
    Eval.Steady KnowsStack w φ (do return (← start l job) :: stack) :=
  (steady_start hφ hj hl).bind fun _ hle _ hd =>
    steady_pure (knowsStack_cons.2 ⟨hd, hs.mono hle⟩)

/-- Pushes what was found. -/
theorem steady_found {r : Except Failure Deferred} {stack : Stack}
    (hr : ∀ d, r = .ok d → w.Knows d.closures) (hs : KnowsStack w stack) :
    Eval.Steady KnowsStack w φ (do return (← orFail r) :: stack) :=
  (steady_orFail (χ := fun w d => w.Knows (Deferred.closures d)) hr).bind fun _ hle _ hd =>
    steady_pure (knowsStack_cons.2 ⟨hd, hs.mono hle⟩)

theorem steady_kept {r : Except Failure Unit} {stack : Stack} (hs : KnowsStack w stack) :
    Eval.Steady KnowsStack w φ (do orFail r; return stack) :=
  (steady_orFail (χ := fun _ _ => True) fun _ _ => trivial).bind fun _ hle _ _ =>
    steady_pure (hs.mono hle)

/-- The code of an invocation asks for names in its own frame, and refers to modules from there. -/
theorem steady_primitive {f : FrameId} {l : Location} {p : Primitive} {stack : Stack}
    (hp : w.Writes f l p) (hs : KnowsStack w stack) :
    Eval.Steady KnowsStack w (.inside f) (primitive f l p stack) := by
  cases p with
  | bind =>
    refine steady_withName rfl hs fun hle hs => steady_pop hs fun hd hs => ?_
    refine (steady_ask (χ := fun _ _ => True) (q := .declare f _ _) ⟨⟨rfl, l, hp.mono hle⟩, hd⟩
      (fun _ => rfl) fun _ _ _ _ => trivial).bind fun _ hle _ _ => ?_
    exact steady_kept (hs.mono hle)
  | rebind =>
    refine steady_withName rfl hs fun hle hs => steady_pop hs fun hd hs => ?_
    refine (steady_ask (χ := fun _ _ => True) (q := .rebind f _ _) ⟨⟨rfl, l, hp.mono hle⟩, hd⟩
      (fun _ => rfl) fun _ _ _ _ => trivial).bind fun _ hle _ _ => ?_
    exact steady_kept (hs.mono hle)
  | lookup =>
    refine steady_withName rfl hs fun hle hs => ?_
    refine (steady_ask (q := .lookup f _) ⟨rfl, l, hp.mono hle⟩ (fun _ => rfl)
      fun _ _ _ h => h).bind fun _ hle _ hr => ?_
    exact steady_found hr (hs.mono hle)
  | input =>
    refine (steady_ask (q := .input f) ⟨rfl, l, hp⟩ (fun _ => rfl) fun _ _ _ h => h).bind
      fun _ hle _ hr => ?_
    exact steady_found hr (hs.mono hle)
  | compose =>
    refine steady_pop hs fun hd hs => steady_pop hs fun he hs => ?_
    exact steady_push rfl ⟨knows_append.2 ⟨he, hd⟩, trivial⟩ trivial hs
  | force => exact steady_pop hs fun hd hs => steady_push rfl ⟨hd, trivial⟩ trivial hs
  | guard =>
    refine steady_pop hs fun hd hs => steady_pop hs fun he hs => ?_
    refine (steady_stamp rfl).bind fun _ hle _ _ => steady_pure (knowsStack_cons.2 ⟨?_, hs.mono hle⟩)
    exact knows_append.2 ⟨he.mono hle, hd.mono hle⟩
  | concat =>
    refine steady_pop hs fun hd hs => steady_pop hs fun he hs => ?_
    exact steady_push rfl ⟨knows_append.2 ⟨he, hd⟩, trivial⟩ trivial hs
  | push =>
    refine steady_pop hs fun hd hs => steady_pop hs fun he hs => ?_
    exact steady_push rfl ⟨knows_append.2 ⟨he, hd⟩, trivial⟩ trivial hs
  | pop =>
    refine steady_pop hs fun hd hs => ?_
    refine (steady_start rfl (allows_transform hd Value.closures_split) trivial).bind
      fun _ h₁ _ hpair => ?_
    refine (steady_start rfl (allows_transform hpair (Value.closures_component 0)) trivial).bind
      fun _ h₂ _ hrest => ?_
    refine (steady_start rfl (allows_transform (hpair.mono h₂) (Value.closures_component 1))
      trivial).bind fun _ h₃ _ hlast => steady_pure ?_
    have hle := Provenance.le_trans h₁ (Provenance.le_trans h₂ h₃)
    exact knowsStack_cons.2 ⟨hlast, knowsStack_cons.2 ⟨hrest.mono h₃, hs.mono hle⟩⟩
  | newList =>
    exact steady_pop hs fun hd hs =>
      steady_push rfl (allows_transform hd Value.closures_singleton) trivial hs
  | map =>
    refine steady_pop hs fun hd hs => steady_pop hs fun he hs => ?_
    exact steady_push rfl ⟨knows_append.2 ⟨he, hd⟩, trivial⟩ trivial hs
  | reduce =>
    refine steady_pop hs fun hd hs => steady_pop hs fun he hs => ?_
    exact steady_push rfl ⟨knows_append.2 ⟨he, hd⟩, trivial⟩ trivial hs
  | load => exact steady_pop hs fun hd hs => steady_push rfl ⟨hd, l, .inl hp⟩ ⟨rfl, hp⟩ hs
  | access => exact steady_pop hs fun hd hs => steady_push rfl ⟨hd, l, .inr hp⟩ ⟨rfl, hp⟩ hs
  | clear => exact steady_pop hs fun _ hs => steady_pure hs

/-- A group becomes a closure over the frame of the invocation that it is run in. -/
theorem steady_instruction {f : FrameId} {body : Body} {i : Instruction} {stack : Stack}
    (hb : w.Runs (body, f)) (hi : i ∈ body.code) (hs : KnowsStack w stack) :
    Eval.Steady KnowsStack w (.inside f) (instruction f i stack) := by
  obtain ⟨l, op⟩ := i
  refine Eval.Steady.orAt ?_
  cases op with
  | literal v =>
    have hv : w.Knows (Deferred.settled v.value).closures := by
      rw [Deferred.closures, v.closures_value]
      exact w.knows_nil
    exact steady_pure (knowsStack_cons.2 ⟨hv, hs⟩)
  | group inner =>
    refine (steady_stamp rfl).bind fun w' hle _ _ => steady_pure (knowsStack_cons.2 ⟨?_, hs.mono hle⟩)
    have hinner : w.Runs (inner, f) := ⟨hb.1, fun b hpart => hb.2 b (.nested hi hpart)⟩
    exact knows_singleton.2 (hinner.mono hle)
  | primitive p => exact steady_primitive ⟨hb.1, body, hb.2 body .self, hi⟩ hs

theorem steady_code {f : FrameId} {body : Body} {is : List Instruction} {stack : Stack}
    (hb : w.Runs (body, f)) (his : is ⊆ body.code) (hs : KnowsStack w stack) :
    Eval.Steady (fun w v => w.Knows v.closures) w (.inside f) (code f is stack) := by
  induction is generalizing w stack with
  | nil =>
    cases stack with
    | nil => exact steady_pure w.knows_nil
    | cons top rest => exact steady_await rfl (knowsStack_cons.1 hs).1
  | cons i rest ih =>
    obtain ⟨hi, hrest⟩ := List.cons_subset.1 his
    exact (steady_instruction hb hi hs).bind fun w' hle _ hs => ih (hb.mono hle) hrest hs

/-! ## Words -/

theorem steady_print {x : Option Value} (hφ : φ.loads? = none) :
    Eval.Steady (fun w v => w.Knows v.closures) w φ (print x) := by
  refine (steady_ask (χ := fun _ _ => True) (q := .world (.write _)) hφ (fun _ => rfl)
    fun _ _ _ _ => trivial).bind fun w' _ r _ => ?_
  cases r with
  | ok _ => exact steady_pure w'.knows_nil
  | error fault => exact steady_fail _

/-- What a word makes of its input holds no closures but those of the input. -/
theorem steady_made {x : Option Value} {o : Outcome} (hx : w.Knows (inputClosures x))
    (ho : o.closures ⊆ inputClosures x) :
    Eval.Steady (fun w v => w.Knows v.closures) w φ (orFail o) := by
  refine steady_orFail fun v hv => ?_
  subst hv
  exact hx.of_subset ho

theorem steady_word {word : Word} {x : Option Value} (hφ : φ.loads? = none)
    (hx : w.Knows (inputClosures x)) :
    Eval.Steady (fun w v => w.Knows v.closures) w φ (Evaluation.word word x) := by
  cases word with
  | sum => exact steady_made hx (Word.closures_total _ _ _ (Word.closures_arithmetic _ _) x)
  | prod => exact steady_made hx (Word.closures_total _ _ _ (Word.closures_arithmetic _ _) x)
  | diff => exact steady_made hx (Word.closures_diffOf x ▸ List.nil_subset _)
  | pow => exact steady_made hx (Word.closures_powOf x)
  | eq => exact steady_made hx (Word.closures_eqOf x ▸ List.nil_subset _)
  | not => exact steady_made hx (Word.closures_notOf x ▸ List.nil_subset _)
  | and => exact steady_made hx (Word.closures_truthOf _ _ _ x ▸ List.nil_subset _)
  | or => exact steady_made hx (Word.closures_truthOf _ _ _ x ▸ List.nil_subset _)
  | xor => exact steady_made hx (Word.closures_truthOf _ _ _ x ▸ List.nil_subset _)
  | print => exact steady_print hφ
  | foreign name =>
    refine (steady_ask (χ := fun w o => w.Knows (Outcome.closures o)) (q := .world (.word name x))
      ⟨hφ, hx⟩ (fun _ => rfl) fun _ _ _ h => h).bind fun w' _ o ho => ?_
    refine steady_orFail fun v hv => ?_
    subst hv
    exact ho

/-! ## Modules -/

/-- Notes never fail. -/
theorem proper_noteAll {notes : List Note} (hφ : ∀ p, φ ≠ .granted p) :
    Act.Proper (fun _ φ' r => φ' = φ ∧ r = .ok ()) w φ (noteAll notes).run := by
  induction notes generalizing w with
  | nil => exact .done ⟨rfl, rfl⟩
  | cons n rest ih => exact .ask hφ fun _ _ _ _ => ih

theorem steady_search {reference : String} {first : Path} :
    Eval.Steady (fun _ _ => True) w .outside (resolve reference (some first)) := by
  refine (steady_ask (χ := fun _ _ => True) (q := .settings) (by rintro p ⟨⟩) (fun _ => rfl)
    fun _ _ _ _ => trivial).bind fun _ _ settings _ => ?_
  refine (steady_ask (χ := fun _ _ => True) (q := .world (.firstFile _)) (φ := .outside) rfl
    (fun _ => rfl) fun _ _ _ _ => trivial).bind fun w' _ found _ => ?_
  have hnotes : ∀ notes, Eval.Steady (fun _ _ => True) w' .outside (noteAll notes) := fun _ =>
    Act.Proper.imp (fun _ _ _ h => ⟨h.1, fun _ _ => trivial⟩) (proper_noteAll (by rintro p ⟨⟩))
  refine (hnotes _).bind fun _ _ _ _ => ?_
  cases found with
  | some found => exact steady_pure trivial
  | none => exact steady_fail _

theorem steady_resolve {reference : String} {directory : Option Path} :
    Eval.Steady (fun _ _ => True) w .outside (resolve reference directory) := by
  -- Wherever the search starts, it goes on in the same way.
  cases directory with
  | some d => exact steady_search
  | none =>
    exact (steady_ask (χ := fun _ _ => True) (q := .world .workingDirectory) (φ := .outside) rfl
      (fun _ => rfl) fun _ _ _ _ => trivial).bind fun _ _ _ _ => steady_search

theorem steady_locate {f : FrameId} {reference : Deferred} (hf : w.Refers f)
    (hr : w.Knows reference.closures) :
    Eval.Steady (fun _ _ => True) w .outside (locate f reference) := by
  refine (steady_await rfl hr).bind fun _ hle v _ => ?_
  cases v with
  | text reference =>
    refine (steady_ask (χ := fun _ _ => True) (q := .moduleDirectory f) ⟨rfl, hf.mono hle⟩
      (fun _ => rfl) fun _ _ _ _ => trivial).bind fun _ _ r _ => ?_
    refine (steady_orFail (χ := fun _ _ => True) fun _ _ => trivial).bind fun _ _ _ _ => ?_
    refine steady_resolve.bind fun _ _ path _ => ?_
    exact (steady_note rfl _ _).bind fun _ _ _ _ => steady_pure trivial
  | _ => exact steady_fail _

/-- Once its text was read, a module is built and kept, or given up. -/
theorem proper_buildModule {path : Path} {text : String} :
    Eval.Proper (fun w φ body => φ = .outside ∧ w.Keeps path body) w (.holding path text)
      (buildModule path text) := by
  refine (proper_ask (q := .countParse) (ψ := fun _ φ _ => φ = .building path text none)
    ⟨path, text, rfl⟩ fun _ _ _ _ => rfl).bind fun _ _ φ₁ _ hφ₁ => ?_
  subst hφ₁
  refine (proper_ask (q := .note _) (ψ := fun _ φ _ => φ = .building path text none)
    (by rintro p ⟨⟩) fun _ _ _ _ => rfl).bind fun _ _ φ₂ _ hφ₂ => ?_
  subst hφ₂
  refine (proper_ask (q := .settings)
    (ψ := fun _ φ s => φ = .building path text (some s.strict)) (by rintro p ⟨⟩)
    fun _ _ _ _ => rfl).bind fun w' _ φ₃ settings hφ₃ => ?_
  subst hφ₃
  have hnotes : ∀ notes, Eval.Proper (fun _ φ _ => φ = .building path text (some settings.strict))
      w' (.building path text (some settings.strict)) (noteAll notes) := by
    intro notes
    refine Act.Proper.imp ?_ (proper_noteAll (by rintro p ⟨⟩))
    rintro _ _ _ ⟨rfl, rfl⟩
    rfl
  refine (hnotes _).bind fun _ _ φ₄ _ hφ₄ => ?_
  subst hφ₄
  cases hb : (build settings.strict path.text text).result with
  | ok body =>
    refine (proper_ask (q := .publish path body)
      (ψ := fun w φ _ => φ = .outside ∧ w.Keeps path body) ⟨text, settings.strict, rfl, hb⟩ ?_).bind
      fun _ _ _ _ h => proper_pure h
    intro _ w₂ hle _
    exact ⟨rfl, fun b hpart => hle.2.2 path b (.inr ⟨by simp [Path.same], hpart⟩)⟩
  | error e =>
    refine (proper_ask (q := .giveUp path) (ψ := fun _ φ _ => φ = .outside)
      (.inr ⟨text, settings.strict, e, rfl, hb⟩) fun _ _ _ _ => rfl).bind fun _ _ φ₅ _ hφ₅ => ?_
    subst hφ₅
    exact .done rfl

/-- A module is loaded by whoever is ordered to, and known to whoever asks for it. -/
theorem proper_moduleBody {path : Path} :
    Eval.Proper (fun w φ body => φ = .outside ∧ w.Keeps path body) w .outside (moduleBody path) := by
  refine (proper_ask (q := .claim path)
    (ψ := fun w φ a => φ = Phase.next .outside (.claim path) a ∧ w.Grants (.claim path) a) rfl
    fun _ _ _ h => ⟨rfl, h⟩).bind ?_
  rintro w' _ _ claimed ⟨rfl, hkeeps⟩
  cases claimed with
  | some body => exact proper_pure ⟨rfl, hkeeps body rfl⟩
  | none =>
    refine (proper_ask (q := .world (.content path))
      (ψ := fun _ φ a => φ = Phase.next (.granted path) (.world (.content path)) a) rfl
      fun _ _ _ _ => rfl).bind ?_
    rintro w'' _ _ answer rfl
    cases answer with
    | ok text => exact proper_buildModule
    | error fault =>
      refine (proper_ask (q := .giveUp path) (ψ := fun _ φ _ => φ = .outside) (.inl rfl)
        fun _ _ _ _ => rfl).bind fun _ _ φ₁ _ hφ₁ => ?_
      subst hφ₁
      exact .done rfl

/-! ## Calls -/

theorem steady_foldList {step total : Value} {index : Nat} {items : List Value}
    (hφ : φ.loads? = none) (hstep : w.Knows step.closures) (ht : w.Knows total.closures)
    (hs : w.Knows (Value.closures (.list items))) :
    Eval.Steady (fun w v => w.Knows v.closures) w φ (foldList step total index items) := by
  rw [Value.closures_list] at hs
  induction items generalizing w total index with
  | nil => exact steady_pure ht
  | cons v rest ih =>
    obtain ⟨hv, hrest⟩ := knows_append.1 hs
    refine (steady_perform hφ (allows_step hstep ht hv index)).bind
      fun w' hle total' ht' => ?_
    exact ih (hstep.mono hle) ht' (hrest.mono hle)

theorem steady_value {x : Eval Value} (hx : Eval.Steady (fun w v => w.Knows v.closures) w φ x) :
    Eval.Steady (fun w n => Next.Allowed w n) w φ (do return .value (← x)) :=
  hx.bind fun _ _ _ hv => steady_pure hv

/-- A generator is asked for its first value, and the fold starts from it. -/
theorem steady_reduceGenerator {generator step : Value} (hφ : φ.loads? = none)
    (hg : w.Knows generator.closures) (hstep : w.Knows step.closures) :
    Eval.Steady (fun w n => Next.Allowed w n) w φ (do
      match ← perform (.force generator (some (indexValue 0))) with
      | .none => fail .emptyGenerator
      | first => return .become (.generate generator step first 1)) := by
  refine (steady_perform hφ (allows_force (x := some (indexValue _)) hg w.knows_nil)).bind
    fun w' hle first hfirst => ?_
  have hnext : w'.Allows (.generate generator step first 1) :=
    ⟨knows_append.2 ⟨hg.mono hle, knows_append.2 ⟨hstep.mono hle, hfirst⟩⟩, trivial⟩
  cases first with
  | none => exact steady_fail _
  | _ => exact steady_pure hnext

theorem steady_reduce {source step : Value} {x : Option Value} (hφ : φ.loads? = none)
    (hs : w.Knows source.closures) (hstep : w.Knows step.closures)
    (hx : w.Knows (inputClosures x)) :
    Eval.Steady (fun w n => Next.Allowed w n) w φ (reduce source step x) := by
  have hbecome : ∀ generator total : Value, w.Knows generator.closures → w.Knows total.closures →
      Eval.Steady (fun w n => Next.Allowed w n) w φ
        (return .become (.generate generator step total 0)) := fun _ _ hg ht =>
    steady_pure ⟨knows_append.2 ⟨hg, knows_append.2 ⟨hstep, ht⟩⟩, trivial⟩
  cases source with
  | list items =>
    cases x with
    | some total => exact steady_value (steady_foldList hφ hstep hx hs)
    | none =>
      cases items with
      | nil => exact steady_fail _
      | cons first rest =>
        rw [Value.closures_list] at hs
        obtain ⟨hf, hrest⟩ := knows_append.1 hs
        exact steady_value (steady_foldList hφ hstep hf (by rwa [Value.closures_list]))
  | _ =>
    cases x with
    | some total => exact hbecome _ total hs hx
    | none => exact steady_reduceGenerator hφ hs hstep

theorem steady_composed {f g : Value} {x : Option Value} (hφ : φ.loads? = none)
    (hf : w.Knows f.closures) (hg : w.Knows g.closures) (hx : w.Knows (inputClosures x)) :
    Eval.Steady (fun w n => Next.Allowed w n) w φ (composed f g x) := by
  have hinner : Eval.Steady (fun w v => w.Knows v.closures) w φ
      (if g.isCallable then perform (.force g x) else pure g) := by
    split
    · exact steady_perform hφ (allows_force hg hx)
    · exact steady_pure hg
  rw [composed_eq]
  refine hinner.bind fun w' hle v hv => steady_pure ?_
  have hforce : w'.Allows (.force f (some v)) := allows_force (hf.mono hle) hv
  unfold passOn
  split
  · split
    · exact allows_call (hf.mono hle) hv
    · exact hforce
  · exact hforce

theorem steady_guarded {d handler : Deferred} {x : Option Value} (hφ : φ.loads? = none)
    (hd : w.Knows d.closures) (hh : w.Knows handler.closures) (hx : w.Knows (inputClosures x)) :
    Eval.Steady (fun w n => Next.Allowed w n) w φ (guarded d handler x) := by
  have hcall : Eval.Steady (fun w v => w.Knows v.closures) w φ
      (do perform (.force (← await d) x)) :=
    (steady_await hφ hd).bind fun w' hle v hv => steady_perform hφ (allows_force hv (hx.mono hle))
  refine hcall.attempt.bind fun w' hle o ho => ?_
  cases o with
  | ok v => exact steady_pure (ho v rfl)
  | error e =>
    refine (steady_note hφ _ _).bind fun w₁ h₁ _ _ => ?_
    refine (steady_await hφ (hh.mono (Provenance.le_trans hle h₁))).bind fun w₂ _ v hv => ?_
    exact steady_pure (allows_force hv w₂.knows_nil)

/-- How a job ends that is neither in the middle of a loading nor hands on what is not known. -/
abbrev Ends (w : Provenance) (φ : Phase) (n : Next) : Prop := φ.loads? = none ∧ n.Allowed w

theorem proper_of_steady {x : Eval Next} (hφ : φ.loads? = none)
    (hx : Eval.Steady (fun w n => Next.Allowed w n) w φ x) : Eval.Proper Ends w φ x :=
  hx.proper hφ fun _ _ hn => ⟨hφ, hn⟩

/-- A closure is called in a frame of its own, under the one that it was made in. -/
theorem proper_call {c : Callable} {x : Option Value} (hc : w.Knows c.closures)
    (hx : w.Knows (inputClosures x)) : Eval.Proper Ends w .outside (call c x) := by
  cases c with
  | closure stamp body frame =>
    have hb := knows_singleton.1 hc
    refine (proper_ask (q := .enter frame x)
      (ψ := fun w' φ f => φ = .inside f ∧ w'.Runs (body, f))
      ⟨rfl, hb.1, ⟨body, hb.2 body .self⟩, hx⟩ ?_).bind ?_
    · intro f w' hle _
      exact ⟨rfl, hle.1 f (.inr rfl), fun b hpart => hle.2.1 f b (.inr ⟨rfl, hb.2 b hpart⟩)⟩
    · rintro w' _ _ f ⟨rfl, hrun⟩
      exact proper_of_steady rfl
        (steady_value (steady_code hrun (List.Subset.refl _) w'.knows_nil))
  | composed stamp f g =>
    obtain ⟨hf, hg⟩ := knows_append.1 hc
    exact proper_of_steady rfl (steady_composed rfl hf hg hx)
  | guarded stamp d handler =>
    obtain ⟨hd, hh⟩ := knows_append.1 hc
    exact proper_of_steady rfl (steady_guarded rfl hd hh hx)
  | reducer stamp source step =>
    obtain ⟨hs, hstep⟩ := knows_append.1 hc
    exact proper_of_steady rfl (steady_reduce rfl hs hstep hx)
  | host word => exact proper_of_steady rfl (steady_value (steady_word rfl hx))

theorem steady_force {v : Value} {x : Option Value} (hφ : φ.loads? = none)
    (hv : w.Knows v.closures) (hx : w.Knows (inputClosures x)) :
    Eval.Steady (fun w n => Next.Allowed w n) w φ (force v x) := by
  have happly : Eval.Steady (fun w n => Next.Allowed w n) w φ
      (do return .value (← orFail (v.apply x))) := by
    refine steady_value (steady_orFail fun v' hv' => ?_)
    have hsub := Value.closures_apply v x
    rw [hv'] at hsub
    exact hv.of_subset hsub
  cases v with
  | callable c =>
    unfold force
    dsimp only
    cases c.tailForce? with
    | none => exact steady_pure (allows_call hv hx)
    | some l => exact steady_value (Eval.Steady.orAt (steady_perform hφ (allows_bounce hv hx)))
  | _ => exact happly

theorem steady_bounce {c : Callable} {x : Option Value} (hφ : φ.loads? = none)
    (hc : w.Knows c.closures) (hx : w.Knows (inputClosures x)) :
    Eval.Steady (fun w n => Next.Allowed w n) w φ (bounce c x) := by
  refine (steady_perform hφ (allows_call hc hx)).bind fun w' _ v hv => ?_
  cases v with
  | callable next =>
    dsimp only
    split
    · exact steady_pure (allows_bounce hv w'.knows_nil)
    · exact steady_pure (allows_call hv w'.knows_nil)
  | _ => exact steady_pure hv

theorem steady_startEach {l : Location} {f : Value} {started : List Deferred} {index : Nat}
    {items : List Value} (hφ : φ.loads? = none) (hf : w.Knows f.closures)
    (hstarted : w.Knows (stackClosures started)) (hs : w.Knows (items.flatMap Value.closures)) :
    Eval.Steady (fun w ds => w.Knows (stackClosures ds)) w φ (startEach l f started index items) := by
  induction items generalizing w started index with
  | nil =>
    refine steady_pure (hstarted.of_subset fun x hx => ?_)
    obtain ⟨d, hd, hx⟩ := List.mem_flatMap.1 hx
    exact List.mem_flatMap.2 ⟨d, List.mem_reverse.1 hd, hx⟩
  | cons v rest ih =>
    obtain ⟨hv, hrest⟩ := knows_append.1 hs
    have hinput : w.Knows (inputClosures (some (.list [v, indexValue index]))) :=
      knows_pair hv w.knows_nil
    refine (steady_start hφ (allows_force hf hinput) trivial).bind fun w' hle d hd => ?_
    exact ih (hf.mono hle) (knows_append.2 ⟨hd, hstarted.mono hle⟩) (hrest.mono hle)

theorem steady_generate {generator step total : Value} {index : Nat} (hφ : φ.loads? = none)
    (hg : w.Knows generator.closures) (hstep : w.Knows step.closures)
    (ht : w.Knows total.closures) :
    Eval.Steady (fun w n => Next.Allowed w n) w φ (generate generator step total index) := by
  refine (steady_perform hφ (allows_force (x := some (indexValue _)) hg w.knows_nil)).bind
    fun w₁ h₁ v hv => ?_
  have hgo : Eval.Steady (fun w n => Next.Allowed w n) w₁ φ (do
      let total ← perform (.force step (some (stepInput total v index)))
      return .become (.generate generator step total (index + 1))) := by
    refine (steady_perform hφ (allows_step (hstep.mono h₁) (ht.mono h₁) hv index)).bind
      fun w₂ h₂ total' ht' => steady_pure ?_
    have hle := Provenance.le_trans h₁ h₂
    exact ⟨knows_append.2 ⟨hg.mono hle, knows_append.2 ⟨hstep.mono hle, ht'⟩⟩, trivial⟩
  cases v with
  | none => exact steady_pure (ht.mono h₁)
  | _ => exact hgo

theorem steady_linger {o : Outcome} (hφ : φ.loads? = none) (ho : w.Knows o.closures) (n : Nat) :
    Eval.Steady (fun w n => Next.Allowed w n) w φ (linger o n) := by
  induction n generalizing w with
  | zero =>
    refine steady_value (steady_orFail fun v hv => ?_)
    subst hv
    exact ho
  | succ n ih =>
    exact (steady_ask (χ := fun _ _ => True) (q := .giveWay) hφ (fun _ => rfl)
      fun _ _ _ _ => trivial).bind fun w' hle _ _ => ih (ho.mono hle)

theorem proper_openModule {f : FrameId} {path : Path} (hf : w.frames f) :
    Eval.Proper Ends w .outside (Job.openModule f path).act := by
  refine proper_moduleBody.bind ?_
  rintro w₁ h₁ _ body ⟨rfl, hkeeps⟩
  refine (proper_ask (q := .enterModule f path)
    (ψ := fun w φ inner => φ = .outside ∧ w.Runs (body, inner)) ⟨rfl, h₁.1 f hf⟩ ?_).bind ?_
  · intro inner w₂ hle _
    exact ⟨rfl, hle.1 inner (.inr rfl),
      fun b hpart => hle.2.1 inner b (.inr ⟨rfl, hkeeps b hpart⟩)⟩
  · rintro w₂ _ _ inner ⟨rfl, hrun⟩
    refine proper_of_steady rfl ?_
    exact (steady_stamp rfl).bind fun _ hle _ _ => steady_pure (knows_singleton.2 (hrun.mono hle))

end Evaluation

/-- Jobs ask for what is due and hand on what is known. -/
theorem Job.proper_act {job : Job} (hj : w.Allows job) : Eval.Proper Ends w .outside job.act := by
  obtain ⟨hc, hspecific⟩ := hj
  have hnone : Phase.outside.loads? = none := rfl
  cases job with
  | force v x =>
    obtain ⟨hv, hx⟩ := knows_append.1 hc
    exact proper_of_steady hnone (steady_force hnone hv hx)
  | call c x =>
    obtain ⟨hc, hx⟩ := knows_append.1 hc
    exact proper_call hc hx
  | bounce c x =>
    obtain ⟨hc, hx⟩ := knows_append.1 hc
    exact proper_of_steady hnone (steady_bounce hnone hc hx)
  | generate generator step total index =>
    obtain ⟨hg, hrest⟩ := knows_append.1 hc
    obtain ⟨hs, ht⟩ := knows_append.1 hrest
    exact proper_of_steady hnone (steady_generate hnone hg hs ht)
  | forceLater d =>
    refine proper_of_steady hnone ((steady_await hnone hc).bind fun w' _ v hv => steady_pure ?_)
    exact allows_force hv w'.knows_nil
  | compose g f =>
    obtain ⟨hg, hf⟩ := knows_append.1 hc
    refine proper_of_steady hnone ((steady_settleBoth hnone hg hf).bind fun _ _ r hr => ?_)
    refine (steady_stamp hnone).bind fun _ hle _ _ => steady_pure ?_
    exact knows_append.2 ⟨hr.2.mono hle, hr.1.mono hle⟩
  | concat a b =>
    obtain ⟨ha, hb⟩ := knows_append.1 hc
    refine proper_of_steady hnone ((steady_settleBoth hnone ha hb).bind fun _ _ r hr => ?_)
    refine steady_value (steady_orFail fun v hv => ?_)
    have hsub := Value.closures_concat r.1 r.2
    rw [hv] at hsub
    exact (knows_append.2 hr).of_subset hsub
  | append items value =>
    obtain ⟨hi, hv⟩ := knows_append.1 hc
    refine proper_of_steady hnone ((steady_settleBoth hnone hi hv).bind fun _ _ r hr => ?_)
    refine steady_value (steady_orFail fun v hv => ?_)
    have hsub := Value.closures_append r.1 r.2
    rw [hv] at hsub
    exact (knows_append.2 hr).of_subset hsub
  | transform d f =>
    refine proper_of_steady hnone ((steady_await hnone hc).bind fun w' hle v hv => ?_)
    refine steady_value (steady_orFail fun v' hv' => ?_)
    have hmade := hspecific w' hle v hv
    rw [hv'] at hmade
    exact hmade
  | map l items f =>
    obtain ⟨hi, hf⟩ := knows_append.1 hc
    refine proper_of_steady hnone ((steady_settleBoth hnone hi hf).bind fun _ _ r hr => ?_)
    refine (steady_orFail (χ := fun w vs => w.Knows (vs.flatMap Value.closures))
      fun vs hvs => ?_).bind fun w' hle vs hvs => ?_
    -- Only a list has elements to map, and their closures are its own.
    · have hlist : r.1 = .list vs := by
        cases hr₁ : r.1 with
        | list items =>
          rw [hr₁] at hvs
          cases hvs
          rfl
        | _ =>
          rw [hr₁] at hvs
          cases hvs
      rw [← Value.closures_list, ← hlist]
      exact hr.1
    · have hnothing : w'.Knows (stackClosures []) := w'.knows_nil
      exact (steady_startEach hnone (hr.2.mono hle) hnothing hvs).bind
        fun _ _ ds hds => steady_pure ⟨hds, trivial⟩
  | gather ds =>
    exact proper_of_steady hnone ((steady_settleAll hnone hc).bind fun _ _ vs hvs => steady_pure hvs)
  | reducer source step =>
    obtain ⟨hs, hstep⟩ := knows_append.1 hc
    refine proper_of_steady hnone ((steady_settleBoth hnone hs hstep).bind fun _ _ r hr => ?_)
    obtain ⟨source, step⟩ := r
    have hmake : Eval.Steady (fun w n => Next.Allowed w n) _ .outside
        (do return .value (.callable (.reducer (← ask .stamp) source step))) :=
      (steady_stamp hnone).bind fun _ hle _ _ =>
        steady_pure (knows_append.2 ⟨hr.1.mono hle, hr.2.mono hle⟩)
    cases source with
    | list _ => exact hmake
    | callable _ => exact hmake
    | _ => exact steady_fail _
  | load f reference =>
    refine proper_of_steady hnone ((steady_locate hspecific hc).bind fun w' hle path _ => ?_)
    obtain ⟨l, hl⟩ := hspecific
    have hframe : w'.frames f := hle.1 f (hl.elim (·.1) (·.1))
    refine (steady_perform hnone ⟨w'.knows_nil, hframe⟩).bind fun _ _ v hv => steady_pure ?_
    exact allows_force hv (Provenance.knows_nil _)
  | access f reference =>
    refine proper_of_steady hnone ((steady_locate hspecific hc).bind fun w' hle path _ => ?_)
    obtain ⟨l, hl⟩ := hspecific
    exact steady_pure ⟨w'.knows_nil, hle.1 f (hl.elim (·.1) (·.1))⟩
  | openModule f path => exact proper_openModule hspecific
  | lingering turns o => exact proper_of_steady hnone (steady_linger hnone hc turns)

end Concatenative
