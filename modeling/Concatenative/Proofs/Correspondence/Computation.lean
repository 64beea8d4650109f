import Concatenative.Evaluation.Job
import Concatenative.Proofs.Correspondence.Value

/-! Computations that differ in names only. Two computations are alike if they ask alike requests
and go on alike with whatever answers correspond, so one may be run in a machine and the other
somewhere else. The names that correspond only become more, and all that is alike stays alike. The
module has one rule for each way of building computations. -/
namespace Concatenative

/-- The body of a text keeps to the terms; if there is none, the failure blames a place of the
terms or nothing. -/
def Terms.Admits (p : Terms) (path text : String) : Prop :=
  ∀ strict, (∀ body, (build strict path text).result = .ok body → body.Fits p) ∧
    ∀ e, (build strict path text).result = .error e → e.Placed p

/-- Jobs that do the same to what is alike. -/
inductive Job.Alike (p : Terms) (ρ : Correspondence) : Job → Job → Prop
  | force {v v' : Value} {x x' : Option Value} : v.Alike p ρ v' → InputAlike p ρ x x' →
      Alike p ρ (.force v x) (.force v' x')
  | call {c c' : Callable} {x x' : Option Value} : c.Alike p ρ c' → InputAlike p ρ x x' →
      Alike p ρ (.call c x) (.call c' x')
  | bounce {c c' : Callable} {x x' : Option Value} : c.Alike p ρ c' → InputAlike p ρ x x' →
      Alike p ρ (.bounce c x) (.bounce c' x')
  | generate {g g' s s' t t' : Value} (index : Nat) : g.Alike p ρ g' → s.Alike p ρ s' →
      t.Alike p ρ t' → Alike p ρ (.generate g s t index) (.generate g' s' t' index)
  | forceLater {d d' : Deferred} : d.Alike p ρ d' → Alike p ρ (.forceLater d) (.forceLater d')
  | compose {g g' f f' : Deferred} : g.Alike p ρ g' → f.Alike p ρ f' →
      Alike p ρ (.compose g f) (.compose g' f')
  | concat {a a' b b' : Deferred} : a.Alike p ρ a' → b.Alike p ρ b' →
      Alike p ρ (.concat a b) (.concat a' b')
  | append {i i' v v' : Deferred} : i.Alike p ρ i' → v.Alike p ρ v' →
      Alike p ρ (.append i v) (.append i' v')
  | transform {d d' : Deferred} {f : Value → Outcome} : d.Alike p ρ d' →
      (∀ σ v v', Value.Alike p σ v v' → Outcome.Alike p σ (f v) (f v')) →
      Alike p ρ (.transform d f) (.transform d' f)
  | map {l : Location} {i i' f f' : Deferred} : p.places l → i.Alike p ρ i' → f.Alike p ρ f' →
      Alike p ρ (.map l i f) (.map l i' f')
  | gather {ds ds' : List Deferred} : List.Forall₂ (Deferred.Alike p ρ) ds ds' →
      Alike p ρ (.gather ds) (.gather ds')
  | reducer {s s' f f' : Deferred} : s.Alike p ρ s' → f.Alike p ρ f' →
      Alike p ρ (.reducer s f) (.reducer s' f')
  | load {f f' : FrameId} {r r' : Deferred} : p.loads → ρ.frames f f' → r.Alike p ρ r' →
      Alike p ρ (.load f r) (.load f' r')
  | access {f f' : FrameId} {r r' : Deferred} : p.loads → ρ.frames f f' → r.Alike p ρ r' →
      Alike p ρ (.access f r) (.access f' r')
  | openModule {f f' : FrameId} {path : Path} : p.loads → ρ.frames f f' →
      Alike p ρ (.openModule f path) (.openModule f' path)

/-- Requests for the same, with what is to hold of their answers. -/
inductive Request.Alike (p : Terms) (ρ : Correspondence) :
    (q q' : Request) → (Correspondence → q.Answer → q'.Answer → Prop) → Prop
  | enter {f f' : FrameId} {x x' : Option Value} : ρ.frames f f' → InputAlike p ρ x x' →
      Alike p ρ (.enter f x) (.enter f' x') Correspondence.frames
  | enterModule {f f' : FrameId} {path : Path} : p.loads → ρ.frames f f' →
      Alike p ρ (.enterModule f path) (.enterModule f' path) Correspondence.frames
  | declare {f f' : FrameId} {name : String} {d d' : Deferred} : p.binds → ρ.frames f f' →
      d.Alike p ρ d' → Alike p ρ (.declare f name d) (.declare f' name d')
        fun _ => Matches (Failure.Placed p) Eq
  | rebind {f f' : FrameId} {name : String} {d d' : Deferred} : p.binds → ρ.frames f f' →
      d.Alike p ρ d' → Alike p ρ (.rebind f name d) (.rebind f' name d')
        fun _ => Matches (Failure.Placed p) Eq
  | lookup {f f' : FrameId} {name : String} : ρ.frames f f' →
      Alike p ρ (.lookup f name) (.lookup f' name)
        fun σ => Matches (Failure.Placed p) (Deferred.Alike p σ)
  | input {f f' : FrameId} : ρ.frames f f' →
      Alike p ρ (.input f) (.input f') fun σ => Matches (Failure.Placed p) (Deferred.Alike p σ)
  | moduleDirectory {f f' : FrameId} : p.loads → ρ.frames f f' →
      Alike p ρ (.moduleDirectory f) (.moduleDirectory f') fun _ => Matches (Failure.Placed p) Eq
  | stamp : Alike p ρ .stamp .stamp Correspondence.stamps
  | spawn {l : Location} {job job' : Job} : p.places l → job.Alike p ρ job' →
      Alike p ρ (.spawn l job) (.spawn l job') Correspondence.tasks
  | await {t t' : TaskId} : ρ.tasks t t' → Alike p ρ (.await t) (.await t') (Outcome.Settles p)
  | perform {job job' : Job} : job.Alike p ρ job' →
      Alike p ρ (.perform job) (.perform job') (Outcome.Alike p)
  | settings : p.loads → Alike p ρ .settings .settings fun _ => Eq
  | claim {path : Path} : p.loads →
      Alike p ρ (.claim path) (.claim path) fun _ a b => a = b ∧ ∀ body ∈ a, body.Fits p
  | countParse : p.loads → Alike p ρ .countParse .countParse fun _ => Eq
  | publish {path : Path} {body : Body} : p.loads → body.Fits p →
      Alike p ρ (.publish path body) (.publish path body) fun _ => Eq
  | giveUp {path : Path} : p.loads → Alike p ρ (.giveUp path) (.giveUp path) fun _ => Eq
  | note {n : Note} : Alike p ρ (.note n) (.note n) fun _ => Eq
  | workingDirectory : p.loads →
      Alike p ρ (.world .workingDirectory) (.world .workingDirectory) fun _ => Eq
  | firstFile {candidates : List Path} : p.loads →
      Alike p ρ (.world (.firstFile candidates)) (.world (.firstFile candidates)) fun _ => Eq
  | content {path : Path} : p.loads →
      Alike p ρ (.world (.content path)) (.world (.content path))
        fun _ a b => a = b ∧ ∀ text, a = .ok text → p.Admits path.text text
  | write {text : String} :
      Alike p ρ (.world (.write text)) (.world (.write text)) fun _ => Eq
  | word {name : String} {x x' : Option Value} : p.foreign → InputAlike p ρ x x' →
      Alike p ρ (.world (.word name x)) (.world (.word name x')) (Outcome.Alike p)

/-- Computations that ask alike and go on alike, and end with results that `R` relates. -/
inductive Act.Alike (p : Terms) {α β : Type} (R : Correspondence → α → β → Prop) :
    Correspondence → Act α → Act β → Prop
  | done {ρ : Correspondence} {a : α} {b : β} : R ρ a b → Alike p R ρ (.done a) (.done b)
  | ask {ρ : Correspondence} {q q' : Request} {k : q.Answer → Act α} {k' : q'.Answer → Act β}
      {Q : Correspondence → q.Answer → q'.Answer → Prop} : Request.Alike p ρ q q' Q →
      (∀ σ, ρ ≤ σ → ∀ a a', Q σ a a' → Alike p R σ (k a) (k' a')) →
      Alike p R ρ (.ask q k) (.ask q' k')

variable {p : Terms} {ρ σ : Correspondence} {α β γ δ : Type}

/-! ## More names -/

theorem forall₂_mono {ds ds' : List Deferred} (h : ρ ≤ σ)
    (hs : List.Forall₂ (Deferred.Alike p ρ) ds ds') : List.Forall₂ (Deferred.Alike p σ) ds ds' :=
  hs.imp fun _ _ => Deferred.Alike.mono h

theorem Job.Alike.mono (h : ρ ≤ σ) {job job' : Job} (hj : job.Alike p ρ job') :
    job.Alike p σ job' := by
  cases hj with
  | force hv hx => exact .force (hv.mono h) (hx.mono h)
  | call hc hx => exact .call (hc.mono h) (hx.mono h)
  | bounce hc hx => exact .bounce (hc.mono h) (hx.mono h)
  | generate index hg hs ht => exact .generate index (hg.mono h) (hs.mono h) (ht.mono h)
  | forceLater hd => exact .forceLater (hd.mono h)
  | compose hg hf => exact .compose (hg.mono h) (hf.mono h)
  | concat ha hb => exact .concat (ha.mono h) (hb.mono h)
  | append hi hv => exact .append (hi.mono h) (hv.mono h)
  | transform hd hf => exact .transform (hd.mono h) hf
  | map hl hi hf => exact .map hl (hi.mono h) (hf.mono h)
  | gather hs => exact .gather (forall₂_mono h hs)
  | reducer hs hf => exact .reducer (hs.mono h) (hf.mono h)
  | load hp hf hr => exact .load hp (h.2.1 _ _ hf) (hr.mono h)
  | access hp hf hr => exact .access hp (h.2.1 _ _ hf) (hr.mono h)
  | openModule hp hf => exact .openModule hp (h.2.1 _ _ hf)

theorem Request.Alike.mono (h : ρ ≤ σ) {q q' : Request}
    {Q : Correspondence → q.Answer → q'.Answer → Prop} (hq : Request.Alike p ρ q q' Q) :
    Request.Alike p σ q q' Q := by
  cases hq with
  | enter hf hx => exact .enter (h.2.1 _ _ hf) (hx.mono h)
  | enterModule hp hf => exact .enterModule hp (h.2.1 _ _ hf)
  | declare hp hf hd => exact .declare hp (h.2.1 _ _ hf) (hd.mono h)
  | rebind hp hf hd => exact .rebind hp (h.2.1 _ _ hf) (hd.mono h)
  | lookup hf => exact .lookup (h.2.1 _ _ hf)
  | input hf => exact .input (h.2.1 _ _ hf)
  | moduleDirectory hp hf => exact .moduleDirectory hp (h.2.1 _ _ hf)
  | stamp => exact .stamp
  | spawn hl hj => exact .spawn hl (hj.mono h)
  | await ht => exact .await (h.2.2 _ _ ht)
  | perform hj => exact .perform (hj.mono h)
  | settings hp => exact .settings hp
  | claim hp => exact .claim hp
  | countParse hp => exact .countParse hp
  | publish hp hb => exact .publish hp hb
  | giveUp hp => exact .giveUp hp
  | note => exact .note
  | workingDirectory hp => exact .workingDirectory hp
  | firstFile hp => exact .firstFile hp
  | content hp => exact .content hp
  | write => exact .write
  | word hp hx => exact .word hp (hx.mono h)

theorem Act.Alike.mono {R : Correspondence → α → β → Prop}
    (hR : ∀ {ρ σ a b}, ρ ≤ σ → R ρ a b → R σ a b) (h : ρ ≤ σ) {x : Act α} {x' : Act β}
    (hx : Act.Alike p R ρ x x') : Act.Alike p R σ x x' := by
  cases hx with
  | done ha => exact .done (hR h ha)
  | ask hq hk => exact .ask (hq.mono h) fun τ hτ => hk τ (Correspondence.le_trans h hτ)

theorem Act.Alike.imp {R S : Correspondence → α → β → Prop} (hR : ∀ ρ a b, R ρ a b → S ρ a b)
    {x : Act α} {x' : Act β} (hx : Act.Alike p R ρ x x') : Act.Alike p S ρ x x' := by
  induction hx with
  | done ha => exact .done (hR _ _ _ ha)
  | ask hq _ ih => exact .ask hq fun σ hσ a a' ha => ih σ hσ a a' ha

theorem Act.Alike.bind {R : Correspondence → α → β → Prop} {S : Correspondence → γ → δ → Prop}
    {x : Act α} {x' : Act β} {f : α → Act γ} {f' : β → Act δ} (hx : Act.Alike p R ρ x x')
    (hf : ∀ σ, ρ ≤ σ → ∀ a b, R σ a b → Act.Alike p S σ (f a) (f' b)) :
    Act.Alike p S ρ (x.bind f) (x'.bind f') := by
  induction hx with
  | @done ρ a b ha => exact hf ρ (Correspondence.le_refl ρ) a b ha
  | ask hq _ ih =>
    exact .ask hq fun σ hσ a a' ha =>
      ih σ hσ a a' ha fun τ hτ => hf τ (Correspondence.le_trans hσ hτ)

/-! ## Computations that may fail -/

/-- Computations that end alike if they do not fail, and else with one failure that `ε` admits. -/
abbrev Eval.Alike (p : Terms) (ε : Failure → Prop) (φ : Correspondence → α → β → Prop)
    (ρ : Correspondence) (x : Eval α) (x' : Eval β) : Prop :=
  Act.Alike p (fun σ => Matches ε (φ σ)) ρ x.run x'.run

namespace Eval

variable {ε ε' : Failure → Prop} {φ : Correspondence → α → β → Prop}
  {ψ : Correspondence → γ → δ → Prop}

theorem alike_pure {a : α} {b : β} (h : φ ρ a b) :
    Eval.Alike p ε φ ρ (pure a : Eval α) (pure b : Eval β) := .done (.ok h)

theorem alike_throw {e : Failure} (h : ε e) :
    Eval.Alike p ε φ ρ (throw e : Eval α) (throw e : Eval β) := .done (.error h)

theorem alike_fail (c : Cause) :
    Eval.Alike p (Failure.Placed p) φ ρ (fail c : Eval α) (fail c : Eval β) :=
  alike_throw (Failure.placed_of_cause p c)

theorem alike_orFail {r : Except Failure α} {r' : Except Failure β} (h : Matches ε (φ ρ) r r') :
    Eval.Alike p ε φ ρ (orFail r) (orFail r') := by
  cases h with
  | ok h => exact alike_pure h
  | error h => exact alike_throw h

theorem Alike.imp (hε : ∀ e, ε e → ε' e) {x : Eval α} {x' : Eval β}
    (h : Eval.Alike p ε φ ρ x x') : Eval.Alike p ε' φ ρ x x' :=
  Act.Alike.imp (fun _ _ _ => Matches.imp hε fun _ _ => id) h

theorem Alike.bind {x : Eval α} {x' : Eval β} {f : α → Eval γ} {f' : β → Eval δ}
    (hx : Eval.Alike p ε φ ρ x x')
    (hf : ∀ σ, ρ ≤ σ → ∀ a b, φ σ a b → Eval.Alike p ε ψ σ (f a) (f' b)) :
    Eval.Alike p ε ψ ρ (x >>= f) (x' >>= f') := by
  refine Act.Alike.bind hx fun σ hσ r r' hr => ?_
  cases hr with
  | ok h => exact hf σ hσ _ _ h
  | error h => exact .done (.error h)

theorem alike_ask {q q' : Request} {Q : Correspondence → q.Answer → q'.Answer → Prop}
    (h : Request.Alike p ρ q q' Q) : Eval.Alike p ε Q ρ (ask q) (ask q') :=
  .ask h fun _ _ _ _ ha => .done (.ok ha)

/-- A request whose answer may be a failure. -/
theorem alike_askOrFail {q q' : Request} {f : q.Answer → Except Failure α}
    {g : q'.Answer → Except Failure β} {Q : Correspondence → q.Answer → q'.Answer → Prop}
    (h : Request.Alike p ρ q q' Q) (hQ : ∀ σ a a', Q σ a a' → Matches ε (φ σ) (f a) (g a')) :
    Eval.Alike p ε φ ρ (ask q >>= fun a => orFail (f a)) (ask q' >>= fun a => orFail (g a)) :=
  (alike_ask h).bind fun σ _ a a' ha => alike_orFail (hQ σ a a' ha)

theorem Alike.attempt {x : Eval α} {x' : Eval β} (h : Eval.Alike p ε φ ρ x x') :
    Eval.Alike p ε' (fun σ => Matches ε (φ σ)) ρ (attempt x) (attempt x') :=
  Act.Alike.bind h fun _ _ _ _ hr => .done (.ok hr)

theorem Alike.orAt {l : Location} (hl : p.places l) {x : Eval α} {x' : Eval β}
    (h : Eval.Alike p (Failure.Placed p) φ ρ x x') :
    Eval.Alike p (Failure.Blamed p) φ ρ (orAt l x) (orAt l x') := by
  refine Act.Alike.bind h fun σ _ r r' hr => .done ?_
  cases hr with
  | ok h => exact .ok h
  | error h => exact .error (h.orAt hl)

theorem alike_perform {job job' : Job} (h : job.Alike p ρ job') :
    Eval.Alike p (Failure.Placed p) (Value.Alike p) ρ (perform job) (perform job') :=
  alike_askOrFail (f := id) (g := id) (.perform h) fun _ _ _ ho => ho

theorem alike_start {l : Location} (hl : p.places l) {job job' : Job} (h : job.Alike p ρ job') :
    Eval.Alike p ε (Deferred.Alike p) ρ (start l job) (start l job') :=
  (alike_ask (.spawn hl h)).bind fun _ _ _ _ ht => alike_pure (.pending ht)

theorem alike_note (level : Level) (text : String) :
    Eval.Alike p ε (fun _ => Eq) ρ (note level text) (note level text) := alike_ask .note

/-- Whatever is waited for blames a place if it fails. -/
theorem alike_await {d d' : Deferred} (h : d.Alike p ρ d') :
    Eval.Alike p (Failure.Blamed p) (Value.Alike p) ρ (await d) (await d') := by
  cases h with
  | settled hv => exact alike_pure hv
  | rejected he => exact alike_throw he
  | pending ht => exact alike_askOrFail (f := id) (g := id) (.await ht) fun _ _ _ ho => ho

theorem alike_await_placed {d d' : Deferred} (h : d.Alike p ρ d') :
    Eval.Alike p (Failure.Placed p) (Value.Alike p) ρ (await d) (await d') :=
  (alike_await h).imp fun _ => Failure.Blamed.placed

theorem alike_awaitAll {ds ds' : List Deferred} (hs : List.Forall₂ (Deferred.Alike p ρ) ds ds')
    {found found' : List Outcome} (hf : List.Forall₂ (Outcome.Alike p ρ) found found') :
    Eval.Alike p ε (fun σ => List.Forall₂ (Outcome.Alike p σ)) ρ (awaitAll found ds)
      (awaitAll found' ds') := by
  induction ds generalizing ds' found found' ρ with
  | nil =>
    cases hs
    exact alike_pure (List.rel_reverse hf)
  | cons d rest ih =>
    cases hs with
    | cons hd hs =>
      refine (alike_await_placed hd).attempt.bind fun σ hσ o o' ho => ?_
      exact ih (forall₂_mono hσ hs) (.cons ho (hf.imp fun _ _ => Outcome.Alike.mono hσ))

theorem matches_mapM {os os' : List Outcome} (hs : List.Forall₂ (Outcome.Alike p ρ) os os') :
    Matches (Failure.Placed p) (List.Forall₂ (Value.Alike p ρ)) (os.mapM id) (os'.mapM id) := by
  induction hs with
  | nil => exact .ok .nil
  | cons ho _ ih =>
    rw [List.mapM_cons, List.mapM_cons]
    exact ho.bind fun _ _ hv => ih.bind fun _ _ hvs => .ok (.cons hv hvs)

theorem alike_settleAll {ds ds' : List Deferred} (hs : List.Forall₂ (Deferred.Alike p ρ) ds ds') :
    Eval.Alike p (Failure.Placed p) (fun σ => List.Forall₂ (Value.Alike p σ)) ρ (settleAll ds)
      (settleAll ds') :=
  (alike_awaitAll hs .nil).bind fun _ _ _ _ hos => alike_orFail (matches_mapM hos)

theorem alike_settleBoth {a a' b b' : Deferred} (ha : a.Alike p ρ a') (hb : b.Alike p ρ b') :
    Eval.Alike p (Failure.Placed p)
      (fun σ r r' => r.1.Alike p σ r'.1 ∧ r.2.Alike p σ r'.2) ρ (settleBoth a b)
      (settleBoth a' b') := by
  refine (alike_await_placed ha).attempt.bind fun σ hσ x x' hx => ?_
  refine (alike_await_placed (hb.mono hσ)).attempt.bind fun τ hτ y y' hy => ?_
  refine (alike_orFail (φ := Value.Alike p) (Outcome.Alike.mono hτ hx)).bind fun υ hυ v v' hv => ?_
  refine (alike_orFail (φ := Value.Alike p) (Outcome.Alike.mono hυ hy)).bind fun ω hω w w' hw => ?_
  exact alike_pure ⟨hv.mono hω, hw⟩

end Eval

end Concatenative
