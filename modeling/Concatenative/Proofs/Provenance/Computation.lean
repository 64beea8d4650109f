import Concatenative.Proofs.Journal
import Concatenative.Proofs.Provenance.Value

/-! Computations that ask in due order. What a computation may ask for depends on how far it has come:
the code of an invocation declares and looks up names in its own frame only, and whoever is to load a
module reads, builds and then publishes or gives up, and does nothing else meanwhile. `Act.Proper` says
that a computation keeps to this and hands on only closures whose provenance is known, whatever it is
answered. The module has one rule for each way of building computations. -/
namespace Concatenative

/-! ## Jobs -/

namespace Job

def closures : Job → List Anchored
  | force v x => v.closures ++ inputClosures x
  | call c x | bounce c x => c.closures ++ inputClosures x
  | generate generator step total _ => generator.closures ++ (step.closures ++ total.closures)
  | forceLater d | transform d _ => d.closures
  | compose a b | concat a b | append a b | reducer a b | map _ a b => a.closures ++ b.closures
  | gather ds => stackClosures ds
  | load _ d | access _ d => d.closures
  | openModule _ _ => []
  | lingering _ o => Outcome.closures o

end Job

namespace Provenance

/-- Code in a frame has an instruction at `l`. -/
def Writes (w : Provenance) (f : FrameId) (l : Location) (p : Primitive) : Prop :=
  w.frames f ∧ ∃ b, w.code f b ∧ ⟨l, .primitive p⟩ ∈ b.code

/-- A job is inside of a frame whose code has such an instruction. -/
def Acts (w : Provenance) (φ : Phase) (f : FrameId) (p : Primitive) : Prop :=
  φ = .inside f ∧ ∃ l, w.Writes f l p

/-- Code in a frame refers to modules. -/
def Refers (w : Provenance) (f : FrameId) : Prop := ∃ l, w.Writes f l .load ∨ w.Writes f l .access

/-- A job does to closures what is known of them. -/
def Allows (w : Provenance) (job : Job) : Prop :=
  w.Knows job.closures ∧
    match job with
    | .transform _ f =>
      ∀ w', w ≤ w' → ∀ v : Value, w'.Knows v.closures → w'.Knows (Outcome.closures (f v))
    | .load f _ | .access f _ => w.Refers f
    | .openModule f _ => w.frames f
    | _ => True

/-- A module is loaded for the instruction that says so, in the frame that the code runs in. -/
def Locates (w : Provenance) (φ : Phase) (l : Location) : Job → Prop
  | .load f _ => φ = .inside f ∧ w.Writes f l .load
  | .access f _ => φ = .inside f ∧ w.Writes f l .access
  | _ => True

/-- What an answer adds: a new frame takes over what its parent or its module may run. -/
def grow (w : Provenance) : (q : Request) → q.Answer → Provenance
  | .enter parent _, f =>
    { w with
      frames := fun g => w.frames g ∨ g = f
      code := fun g b => w.code g b ∨ g = f ∧ w.code parent b }
  | .enterModule _ path, f =>
    { w with
      frames := fun g => w.frames g ∨ g = f
      code := fun g b => w.code g b ∨ g = f ∧ w.modules path b }
  | .publish path body, _ =>
    { w with modules := fun p b => w.modules p b ∨ path.same p ∧ b.Part body }
  | _, _ => w

/-- What an answer brings is known. -/
def Grants (w : Provenance) : (q : Request) → q.Answer → Prop
  | .lookup _ _, r | .input _, r => ∀ d, r = .ok d → w.Knows d.closures
  | .await _, o | .perform _, o | .world (.word _ _), o => w.Knows (Outcome.closures o)
  | .claim path, a => ∀ body, a = some body → w.Keeps path body
  | _, _ => True

end Provenance

/-- What may be asked for by a job that has come so far. -/
def Request.Due (w : Provenance) (φ : Phase) : Request → Prop
  | enter parent x =>
    φ = .outside ∧ w.frames parent ∧ (∃ b, w.code parent b) ∧ w.Knows (inputClosures x)
  | enterModule f _ => φ = .outside ∧ w.frames f
  | declare f _ d => w.Acts φ f .bind ∧ w.Knows d.closures
  | rebind f _ d => w.Acts φ f .rebind ∧ w.Knows d.closures
  | lookup f _ => w.Acts φ f .lookup
  | input f => w.Acts φ f .input
  | moduleDirectory f => φ = .outside ∧ w.Refers f
  | stamp | await _ | giveWay | world .workingDirectory | world (.firstFile _) | world (.write _) =>
    φ.loads? = none
  | world (.word _ x) => φ.loads? = none ∧ w.Knows (inputClosures x)
  | spawn l job => φ.loads? = none ∧ w.Allows job ∧ w.Locates φ l job
  | perform job => φ.loads? = none ∧ w.Allows job
  | settings | note _ => ∀ p, φ ≠ .granted p
  | claim _ => φ = .outside
  | world (.content p) => φ = .granted p
  | countParse => ∃ p text, φ = .holding p text
  | publish p body => ∃ text strict, φ = .building p text (some strict) ∧
      (build strict p.text text).result = .ok body
  | giveUp p => φ = .unread p ∨ ∃ text strict e, φ = .building p text (some strict) ∧
      (build strict p.text text).result = .error e

variable {w w' w'' : Provenance} {φ : Phase} {α β : Type}

/-- Only who loads a module gives it up. -/
theorem Request.loads_of_giveUp {p : Path} (h : (Request.giveUp p).Due w φ) : φ.loads? = some p := by
  rcases h with hφ | ⟨text, strict, e, hφ, _⟩
  · rw [hφ]
    rfl
  · rw [hφ]
    rfl

namespace Provenance

theorem le_grow (w : Provenance) (q : Request) (a : q.Answer) : w ≤ w.grow q a := by
  cases q with
  | enter parent x => exact ⟨fun _ => .inl, fun _ _ => .inl, fun _ _ => id⟩
  | enterModule f path => exact ⟨fun _ => .inl, fun _ _ => .inl, fun _ _ => id⟩
  | publish path body => exact ⟨fun _ => id, fun _ _ => id, fun _ _ => .inl⟩
  | _ => exact le_refl w

theorem grow_mono (h : w ≤ w') (q : Request) (a : q.Answer) : w.grow q a ≤ w'.grow q a := by
  cases q with
  | enter parent x =>
    exact ⟨fun g => .imp_left (h.1 g), fun g b => .imp (h.2.1 g b) (.imp_right (h.2.1 parent b)),
      h.2.2⟩
  | enterModule f path =>
    exact ⟨fun g => .imp_left (h.1 g), fun g b => .imp (h.2.1 g b) (.imp_right (h.2.2 path b)),
      h.2.2⟩
  | publish path body => exact ⟨h.1, h.2.1, fun p b => .imp_left (h.2.2 p b)⟩
  | _ => exact h

theorem Writes.mono {f : FrameId} {l : Location} {p : Primitive} (h : w ≤ w')
    (hw : w.Writes f l p) : w'.Writes f l p := by
  obtain ⟨hf, b, hb, hi⟩ := hw
  exact ⟨h.1 f hf, b, h.2.1 f b hb, hi⟩

theorem Acts.mono {f : FrameId} {p : Primitive} (h : w ≤ w') (ha : w.Acts φ f p) : w'.Acts φ f p :=
  ⟨ha.1, ha.2.imp fun _ => .mono h⟩

theorem Refers.mono {f : FrameId} (h : w ≤ w') (hr : w.Refers f) : w'.Refers f := by
  obtain ⟨l, hl⟩ := hr
  exact ⟨l, hl.imp (.mono h) (.mono h)⟩

theorem Allows.mono {job : Job} (h : w ≤ w') (ha : w.Allows job) : w'.Allows job := by
  refine ⟨ha.1.mono h, ?_⟩
  cases job with
  | transform d f => exact fun v hv => ha.2 v (le_trans h hv)
  | load f d => exact Refers.mono h ha.2
  | access f d => exact Refers.mono h ha.2
  | openModule f path => exact h.1 f ha.2
  | _ => trivial

theorem Locates.mono {l : Location} {job : Job} (h : w ≤ w') (hl : w.Locates φ l job) :
    w'.Locates φ l job := by
  cases job with
  | load f d => exact ⟨hl.1, hl.2.mono h⟩
  | access f d => exact ⟨hl.1, hl.2.mono h⟩
  | _ => trivial

end Provenance

theorem Request.Due.mono {q : Request} (h : w ≤ w') (hq : q.Due w φ) : q.Due w' φ := by
  cases q with
  | enter parent x =>
    exact ⟨hq.1, h.1 _ hq.2.1, hq.2.2.1.imp (h.2.1 parent), hq.2.2.2.mono h⟩
  | enterModule f path => exact ⟨hq.1, h.1 _ hq.2⟩
  | declare f name d => exact ⟨hq.1.mono h, hq.2.mono h⟩
  | rebind f name d => exact ⟨hq.1.mono h, hq.2.mono h⟩
  | lookup f name => exact Provenance.Acts.mono h hq
  | input f => exact Provenance.Acts.mono h hq
  | moduleDirectory f => exact ⟨hq.1, hq.2.mono h⟩
  | spawn l job => exact ⟨hq.1, hq.2.1.mono h, hq.2.2.mono h⟩
  | perform job => exact ⟨hq.1, hq.2.mono h⟩
  | world q =>
    cases q with
    | word name x => exact ⟨hq.1, hq.2.mono h⟩
    | _ => exact hq
  | _ => exact hq

/-! ## Computations -/

/-- A computation that asks for what is due and ends with what `R` says of it. -/
inductive Act.Proper (R : Provenance → Phase → α → Prop) : Provenance → Phase → Act α → Prop
  | done {w : Provenance} {φ : Phase} {a : α} : R w φ a → Proper R w φ (.done a)
  | ask {w : Provenance} {φ : Phase} {q : Request} {k : q.Answer → Act α} : q.Due w φ →
      (∀ a w', w.grow q a ≤ w' → w'.Grants q a → Proper R w' (φ.next q a) (k a)) →
      Proper R w φ (.ask q k)

namespace Act.Proper

variable {R : Provenance → Phase → α → Prop} {S : Provenance → Phase → β → Prop} {x : Act α}

theorem mono (hR : ∀ {w w' φ a}, w ≤ w' → R w φ a → R w' φ a) (h : w ≤ w') (hx : Proper R w φ x) :
    Proper R w' φ x := by
  cases hx with
  | done ha => exact .done (hR h ha)
  | ask hq hk =>
    refine .ask (hq.mono h) fun a w'' hle => hk a w'' ?_
    exact Provenance.le_trans (Provenance.grow_mono h _ a) hle

theorem imp {S : Provenance → Phase → α → Prop} (hR : ∀ w φ a, R w φ a → S w φ a)
    (hx : Proper R w φ x) : Proper S w φ x := by
  induction hx with
  | done ha => exact .done (hR _ _ _ ha)
  | ask hq _ ih => exact .ask hq ih

theorem bind {f : α → Act β} (hx : Proper R w φ x)
    (hf : ∀ w', w ≤ w' → ∀ φ' a, R w' φ' a → Proper S w' φ' (f a)) : Proper S w φ (x.bind f) := by
  induction hx with
  | @done w φ a ha => exact hf w (Provenance.le_refl w) φ a ha
  | @ask w φ q k hq _ ih =>
    refine .ask hq fun a w' hle ha => ih a w' hle ha fun w'' hle' => hf w'' ?_
    exact Provenance.le_trans (Provenance.le_trans (w.le_grow q a) hle) hle'

end Act.Proper

/-! ## Computations that may fail -/

/-- A computation that ends with what `ψ` says of its result; if it fails it loads nothing. -/
abbrev Eval.Proper (ψ : Provenance → Phase → α → Prop) (w : Provenance) (φ : Phase) (x : Eval α) :
    Prop :=
  Act.Proper (fun w φ r => match r with
    | .ok a => ψ w φ a
    | .error _ => φ.loads? = none) w φ x.run

/-- A computation that ends where it began, neither in another invocation nor loading a module. -/
abbrev Eval.Steady (χ : Provenance → α → Prop) (w : Provenance) (φ : Phase) (x : Eval α) : Prop :=
  Act.Proper (fun w φ' (r : Except Failure α) => φ' = φ ∧ ∀ a, r = .ok a → χ w a) w φ x.run

namespace Eval

variable {ψ : Provenance → Phase → α → Prop} {ξ : Provenance → Phase → β → Prop}
  {χ : Provenance → α → Prop} {ζ : Provenance → β → Prop}

theorem proper_pure {a : α} (h : ψ w φ a) : Eval.Proper ψ w φ (pure a : Eval α) := .done h

theorem Proper.bind {x : Eval α} {f : α → Eval β} (hx : Eval.Proper ψ w φ x)
    (hf : ∀ w', w ≤ w' → ∀ φ' a, ψ w' φ' a → Eval.Proper ξ w' φ' (f a)) :
    Eval.Proper ξ w φ (x >>= f) := by
  refine Act.Proper.bind hx fun w' hle φ' r hr => ?_
  cases r with
  | ok a => exact hf w' hle φ' a hr
  | error e => exact .done hr

theorem proper_ask {q : Request} {ψ : Provenance → Phase → q.Answer → Prop} (hq : q.Due w φ)
    (h : ∀ a w', w.grow q a ≤ w' → w'.Grants q a → ψ w' (φ.next q a) a) :
    Eval.Proper ψ w φ (ask q) :=
  .ask hq fun a w' hle ha => .done (h a w' hle ha)

/-- What stays where it began is proper where nothing is loaded. -/
theorem Steady.proper {x : Eval α} (hφ : φ.loads? = none) (hx : Eval.Steady χ w φ x)
    (h : ∀ w' a, χ w' a → ψ w' φ a) : Eval.Proper ψ w φ x := by
  refine Act.Proper.imp ?_ hx
  rintro w' φ' r ⟨rfl, hr⟩
  cases r with
  | ok a => exact h w' a (hr a rfl)
  | error e => exact hφ

theorem steady_pure {a : α} (h : χ w a) : Eval.Steady χ w φ (pure a : Eval α) :=
  .done ⟨rfl, fun _ he => Except.ok.inj he ▸ h⟩

theorem steady_throw (e : Failure) : Eval.Steady χ w φ (throw e : Eval α) :=
  .done ⟨rfl, fun _ he => nomatch he⟩

theorem steady_fail (c : Cause) : Eval.Steady χ w φ (fail c : Eval α) := steady_throw _

theorem steady_orFail {r : Except Failure α} (h : ∀ a, r = .ok a → χ w a) :
    Eval.Steady χ w φ (orFail r) := by
  cases r with
  | ok a => exact steady_pure (h a rfl)
  | error e => exact steady_throw e

theorem Steady.bind {x : Eval α} {f : α → Eval β} (hx : Eval.Steady χ w φ x)
    (hf : ∀ w', w ≤ w' → ∀ a, χ w' a → Eval.Steady ζ w' φ (f a)) :
    Eval.Steady ζ w φ (x >>= f) := by
  refine Act.Proper.bind hx ?_
  rintro w' hle φ' r ⟨rfl, hr⟩
  cases r with
  | ok a => exact hf w' hle a (hr a rfl)
  | error e => exact .done ⟨rfl, fun _ he => nomatch he⟩

/-- A request that leads nowhere else. -/
theorem steady_ask {q : Request} {χ : Provenance → q.Answer → Prop} (hq : q.Due w φ)
    (hn : ∀ a, φ.next q a = φ)
    (h : ∀ a w', w.grow q a ≤ w' → w'.Grants q a → χ w' a) : Eval.Steady χ w φ (ask q) :=
  .ask hq fun a w' hle ha => .done ⟨hn a, fun _ he => Except.ok.inj he ▸ h a w' hle ha⟩

theorem Steady.attempt {x : Eval α} (hx : Eval.Steady χ w φ x) :
    Eval.Steady (fun w r => ∀ a, r = .ok a → χ w a) w φ (attempt x) := by
  refine Act.Proper.bind hx ?_
  rintro w' _ φ' r ⟨rfl, hr⟩
  exact .done ⟨rfl, fun _ he => Except.ok.inj he ▸ hr⟩

theorem Steady.orAt {l : Location} {x : Eval α} (hx : Eval.Steady χ w φ x) :
    Eval.Steady χ w φ (orAt l x) := by
  refine Act.Proper.bind hx ?_
  rintro w' _ φ' r ⟨rfl, hr⟩
  cases r with
  | ok a => exact .done ⟨rfl, fun _ he => Except.ok.inj he ▸ hr a rfl⟩
  | error e => exact .done ⟨rfl, fun _ he => nomatch he⟩

/-! ## What computations are made of -/

variable (hφ : φ.loads? = none)

include hφ

theorem steady_perform {job : Job} (hj : w.Allows job) :
    Eval.Steady (fun w v => w.Knows v.closures) w φ (perform job) := by
  refine (steady_ask (χ := fun w o => w.Knows (Outcome.closures o)) (q := .perform job) ⟨hφ, hj⟩
    (fun _ => rfl) fun _ _ _ h => h).bind fun w' _ o ho => ?_
  refine steady_orFail fun v hv => ?_
  subst hv
  exact ho

theorem steady_start {l : Location} {job : Job} (hj : w.Allows job) (hl : w.Locates φ l job) :
    Eval.Steady (fun w d => w.Knows d.closures) w φ (start l job) :=
  (steady_ask (χ := fun _ _ => True) (q := .spawn l job) ⟨hφ, hj, hl⟩ (fun _ => rfl)
    fun _ _ _ _ => trivial).bind fun w' _ _ _ => steady_pure w'.knows_nil

theorem steady_note (level : Level) (text : String) :
    Eval.Steady (fun _ _ => True) w φ (note level text) := by
  refine steady_ask (q := .note _) (fun p hp => ?_) (fun _ => rfl) fun _ _ _ _ => trivial
  rw [hp] at hφ
  cases hφ

theorem steady_stamp : Eval.Steady (fun _ _ => True) w φ (ask .stamp) :=
  steady_ask (q := .stamp) hφ (fun _ => rfl) fun _ _ _ _ => trivial

theorem steady_await {d : Deferred} (hd : w.Knows d.closures) :
    Eval.Steady (fun w v => w.Knows v.closures) w φ (await d) := by
  cases d with
  | settled v => exact steady_pure hd
  | rejected e => exact steady_throw e
  | pending t =>
    refine (steady_ask (χ := fun w o => w.Knows (Outcome.closures o)) (q := .await t) hφ
      (fun _ => rfl) fun _ _ _ h => h).bind fun w' _ o ho => ?_
    refine steady_orFail fun v hv => ?_
    subst hv
    exact ho

theorem steady_awaitAll {ds : List Deferred} (hs : w.Knows (stackClosures ds))
    {found : List Outcome} (hf : ∀ o ∈ found, w.Knows (Outcome.closures o)) :
    Eval.Steady (fun w os => ∀ o ∈ os, w.Knows (Outcome.closures o)) w φ (awaitAll found ds) := by
  induction ds generalizing found w with
  | nil => exact steady_pure fun o ho => hf o (List.mem_reverse.1 ho)
  | cons d rest ih =>
    obtain ⟨hd, hrest⟩ := Provenance.knows_append.1 hs
    refine (steady_await hφ hd).attempt.bind fun w' hle o ho => ih (hrest.mono hle) ?_
    refine List.forall_mem_cons.2 ⟨?_, fun o' ho' => (hf o' ho').mono hle⟩
    cases o with
    | ok v => exact ho v rfl
    | error e => exact w'.knows_nil

theorem steady_settleAll {ds : List Deferred} (hs : w.Knows (stackClosures ds)) :
    Eval.Steady (fun w vs => w.Knows (Value.closures (.list vs))) w φ (settleAll ds) := by
  have hnone : ∀ o ∈ ([] : List Outcome), w.Knows (Outcome.closures o) := fun _ ho =>
    absurd ho List.not_mem_nil
  refine (steady_awaitAll hφ hs hnone).bind fun w' _ os hos => ?_
  refine steady_orFail fun vs hvs => ?_
  rw [Value.closures_list]
  clear hs
  induction os generalizing vs with
  | nil =>
    cases hvs
    exact w'.knows_nil
  | cons o os ih =>
    obtain ⟨ho, hrest⟩ := List.forall_mem_cons.1 hos
    rw [List.mapM_cons] at hvs
    cases o with
    | error e => cases hvs
    | ok v =>
      cases hmap : os.mapM id with
      | error e =>
        rw [hmap] at hvs
        cases hvs
      | ok vs' =>
        rw [hmap] at hvs
        cases hvs
        exact Provenance.knows_append.2 ⟨ho, ih hrest vs' hmap⟩

theorem steady_settleBoth {a b : Deferred} (ha : w.Knows a.closures) (hb : w.Knows b.closures) :
    Eval.Steady (fun w r => w.Knows r.1.closures ∧ w.Knows r.2.closures) w φ (settleBoth a b) := by
  refine (steady_await hφ ha).attempt.bind fun w₁ h₁ x hx => ?_
  refine (steady_await hφ (hb.mono h₁)).attempt.bind fun w₂ h₂ y hy => ?_
  refine (steady_orFail (χ := fun w v => w.Knows (Value.closures v))
    fun v hv => (hx v hv).mono h₂).bind fun w₃ h₃ v hv => ?_
  refine (steady_orFail (χ := fun w v => w.Knows (Value.closures v))
    fun u hu => (hy u hu).mono h₃).bind fun w₄ h₄ u hu => ?_
  exact steady_pure ⟨hv.mono h₄, hu⟩

end Eval

end Concatenative
