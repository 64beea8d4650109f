import Concatenative.Proofs.Retracing

/-! Where a name is bound. Code that runs comes to a `bind` when the instructions in front of it have
left a slot for the name and one for the value, and the name has come to a text; just then it asks to
declare this name with this value in its frame, and it asks so nowhere else (`poses_code_declare`). If
it is refused it fails with just this failure (`AtBind.refused`), and else it goes on
(`AtBind.accepted`). Main statement: a task asks to declare a name if and only if it runs the code of an
invocation that has come to a `bind` for it (`Unfolds.asks_declare`). -/
namespace Concatenative

open Eval Evaluation

/-- The code has come to the `bind` at `l`: whatever is in front of it has run and left a name, which is
`k`, and the value `d`. -/
inductive Evaluation.AtBind (f : FrameId) (l : Location) (k : String) (d : Deferred) :
    List Instruction → Stack → List Answered → Prop
  | here {is : List Instruction} {name : Deferred} {stack : Stack} {τ : List Answered} :
      (await name).run.After τ (.done (.ok (.text k))) →
      AtBind f l k d (⟨l, .primitive .bind⟩ :: is) (name :: d :: stack) τ
  | next {i : Instruction} {is : List Instruction} {stack stack' : Stack} {τ τ' : List Answered} :
      (instruction f i stack).run.After τ (.done (.ok stack')) → AtBind f l k d is stack' τ' →
      AtBind f l k d (i :: is) stack (τ ++ τ')

variable {f g : FrameId} {l : Location} {k : String} {d name : Deferred} {i : Instruction}
  {is : List Instruction} {stack : Stack} {τ : List Answered}

/-! ## One instruction -/

theorem not_poses_popName : ¬ (popName stack).run.Poses τ (.declare g k d) := fun h =>
  nomatch (passes_popName (P := (·.isLocal = false)) (C := fun _ => False) fun _ => rfl).poses h

theorem after_popName (h : (await name).run.After τ (.done (.ok (.text k)))) :
    (popName (name :: stack)).run.After τ (.done (.ok (k, stack))) := h.bind _

theorem after_popName_inv {rest : Stack} (h : (popName stack).run.After τ (.done (.ok (k, rest)))) :
    ∃ name, stack = name :: rest ∧ (await name).run.After τ (.done (.ok (.text k))) := by
  cases stack with
  | nil => cases (Act.after_done.1 h).2
  | cons name stack =>
    obtain ⟨v, τ₁, τ₂, rfl, hv, hname⟩ := after_bind_eq_ok (x := await name) h
    cases v with
    | text k' =>
      obtain ⟨rfl, he⟩ := Act.after_done.1 hname
      cases he
      rw [List.append_nil]
      exact ⟨name, rfl, hv⟩
    | _ => cases (Act.after_done.1 hname).2

/-- When the name has come to a text, what is asked about both is next. -/
theorem after_popBoth {x : String → Deferred → Eval (Except Failure Unit)}
    (h : (await name).run.After τ (.done (.ok (.text k)))) :
    (popBoth x (name :: d :: stack)).run.After τ
      (x k d >>= fun a => orFail a >>= fun _ => pure stack).run :=
  after_bind_ok (after_popName h)

/-- A `bind` asks to declare the name and the value that it finds, and it fails if it is refused. -/
theorem after_primitive_bind (h : (await name).run.After τ (.done (.ok (.text k))))
    (a : Except Failure Unit) :
    (primitive f l .bind (name :: d :: stack)).run.After (τ ++ [⟨.declare f k d, a⟩])
      (.done (a.map fun _ => stack)) := by
  rw [primitive_bind]
  refine (after_popBoth (x := fun name d => ask (.declare f name d)) h).append (.ask ?_)
  cases a with
  | ok u => exact .refl _
  | error e => exact .refl _

/-- No other primitive asks to declare a name, and a `bind` asks for no other name. -/
theorem poses_primitive_declare {p : Primitive} :
    (primitive f l p stack).run.Poses τ (.declare g k d) ↔ g = f ∧ p = .bind ∧
      ∃ name rest, stack = name :: d :: rest ∧ (await name).run.After τ (.done (.ok (.text k))) := by
  constructor
  · intro h
    obtain ⟨rfl, rfl⟩ : p = .bind ∧ g = f := (passes_primitive (C := fun _ => False) p).poses h
    refine ⟨rfl, rfl, ?_⟩
    rw [primitive_bind] at h
    rcases poses_bind.1 h with hname | ⟨⟨k', rest⟩, τ₁, τ₂, rfl, hpopped, hasks⟩
    · exact absurd hname not_poses_popName
    · obtain ⟨name, rfl, hname⟩ := after_popName_inv hpopped
      cases rest with
      | nil => exact absurd hasks Act.not_poses_done
      | cons d' rest =>
        obtain ⟨_, hdeclare⟩ := hasks
        cases hdeclare with
        | refl =>
          rw [List.append_nil]
          exact ⟨name, rest, rfl, hname⟩
        | @ask _ _ a _ _ hdone =>
          cases a <;> cases (Act.after_done.1 hdone).2
  · rintro ⟨rfl, rfl, name, rest, rfl, h⟩
    rw [primitive_bind]
    exact ⟨_, after_popBoth h⟩

theorem poses_instruction_declare :
    (instruction f i stack).run.Poses τ (.declare g k d) ↔ g = f ∧ i.op = .primitive .bind ∧
      ∃ name rest, stack = name :: d :: rest ∧ (await name).run.After τ (.done (.ok (.text k))) := by
  unfold instruction
  rw [poses_orAt]
  cases i.op with
  | literal v => exact ⟨fun h => absurd h Act.not_poses_done, nofun⟩
  | group body =>
    refine ⟨fun h => ?_, nofun⟩
    have hstamp : ∀ k : Nat → Stack, (ask .stamp >>= fun n => pure (k n)).run.Asks
        (·.isLocal = false) := fun _ =>
      passes_bind (passes_ask (q := .stamp) rfl fun _ => rfl) fun _ => passes_pure _
    cases (hstamp _).poses h
  | primitive p => simp only [poses_primitive_declare, Op.primitive.injEq]

/-! ## Code -/

/-- Code asks to declare a name just where it has come to a `bind` for it. -/
theorem poses_code_declare :
    (code f is stack).run.Poses τ (.declare g k d) ↔ g = f ∧ ∃ l, AtBind f l k d is stack τ := by
  induction is generalizing stack τ with
  | nil =>
    refine ⟨fun h => ?_, nofun⟩
    have htop : (code f [] stack).run.Asks (·.isLocal = false) := by
      cases stack with
      | nil => exact passes_pure _
      | cons d rest => exact passes_await fun _ => rfl
    cases htop.poses h
  | cons i is ih =>
    rw [code_cons, poses_bind, poses_instruction_declare]
    simp only [ih]
    constructor
    · rintro (⟨rfl, hop, name, rest, rfl, hname⟩ | ⟨stack', τ₁, τ₂, rfl, hi, rfl, l, his⟩)
      · obtain ⟨l, op⟩ := i
        cases hop
        exact ⟨rfl, l, .here hname⟩
      · exact ⟨rfl, l, .next hi his⟩
    · rintro ⟨rfl, l, hat⟩
      cases hat with
      | here hname => exact .inl ⟨rfl, rfl, _, _, rfl, hname⟩
      | next hi his => exact .inr ⟨_, _, _, rfl, hi, rfl, l, his⟩

/-- A `bind` that is refused is what the code fails with. -/
theorem Evaluation.AtBind.refused (h : AtBind f l k d is stack τ) (e : Failure) :
    (code f is stack).run.After (τ ++ [⟨.declare f k d, .error e⟩]) (.done (.error (e.orAt l))) := by
  induction h with
  | here hname =>
    rw [code_cons]
    exact after_bind_error (after_orAt (after_primitive_bind hname (.error e)))
  | next hi _ ih =>
    rw [code_cons, List.append_assoc]
    exact (after_bind_ok hi).append ih

/-- After a `bind` that is not refused the code behind it is run. -/
theorem Evaluation.AtBind.accepted (h : AtBind f l k d is stack τ) :
    ∃ front behind below, is = front ++ ⟨l, .primitive .bind⟩ :: behind ∧
      (code f is stack).run.After (τ ++ [⟨.declare f k d, .ok ()⟩]) (code f behind below).run := by
  induction h with
  | @here is name stack τ hname =>
    refine ⟨[], is, stack, rfl, ?_⟩
    rw [code_cons]
    exact after_bind_ok (after_orAt (after_primitive_bind hname (.ok ())))
  | @next i is stack stack' τ τ' hi _ ih =>
    obtain ⟨front, behind, below, rfl, hafter⟩ := ih
    refine ⟨i :: front, behind, below, rfl, ?_⟩
    rw [code_cons, List.append_assoc]
    exact (after_bind_ok hi).append hafter

/-! ## Jobs -/

/-- Only an invocation asks to declare a name, in its own frame and where its code has come to a
`bind`. -/
theorem Job.poses_declare {job : Job} : job.act.run.Poses τ (.declare g k d) ↔
    ∃ n b parent x τ' l, job = .call (.closure n b parent) x ∧ τ = ⟨.enter parent x, g⟩ :: τ' ∧
      AtBind g l k d b.code [] τ' := by
  have hcode : ∀ {f b τ}, (code f b [] >>= fun v => (pure (.value v) : Eval Next)).run.Poses τ
      (.declare g k d) ↔ g = f ∧ ∃ l, AtBind f l k d b [] τ := by
    intro f b τ
    rw [poses_bind, poses_code_declare]
    refine or_iff_left ?_
    rintro ⟨v, τ₁, τ₂, _, _, h⟩
    exact Act.not_poses_done h
  constructor
  · intro h
    by_cases hclosure : ∃ n b parent x, job = .call (.closure n b parent) x
    · obtain ⟨n, b, parent, x, rfl⟩ := hclosure
      obtain ⟨k', h⟩ := h
      cases h with
      | @ask _ _ f _ _ h =>
        obtain ⟨rfl, l, hat⟩ := hcode.1 ⟨k', h⟩
        exact ⟨n, b, parent, x, _, l, rfl, rfl, hat⟩
    · have hnot : ∀ n b parent x, job ≠ .call (.closure n b parent) x := fun n b parent x he =>
        hclosure ⟨n, b, parent, x, he⟩
      cases (Job.asks_act hnot).poses h
  · rintro ⟨n, b, parent, x, τ', l, rfl, rfl, hat⟩
    obtain ⟨k', h⟩ := hcode.2 ⟨rfl, l, hat⟩
    exact ⟨k', .ask h⟩

/-- An invocation never gives way. -/
theorem not_isGiveWay_of_call {n : Nat} {b : Body} {parent : FrameId} {x : Option Value}
    {y : Act (Except Failure Next)} (h : (Job.call (.closure n b parent) x).act.run.After τ y) :
    ∀ a ∈ τ, a.1.isGiveWay = false := by
  have hcode : ∀ f q, Request.OfCode f q → q.isGiveWay = false := by
    rintro f q ⟨p, hp⟩
    cases q with
    | giveWay => cases p <;> exact hp.elim
    | _ => rfl
  have hact : (Job.call (.closure n b parent) x).act.run.Asks (·.isGiveWay = false) := by
    refine passes_bind (passes_ask (q := .enter parent x) rfl fun _ => rfl) fun f => ?_
    refine passes_bind ?_ fun _ => passes_pure _
    exact (passes_code (C := fun _ => False) (fun _ h => h.elim) b.code).mono (hcode f) fun _ => id
  exact (hact.after h).1

/-- All that an invocation was answered is told, and it leads to where the invocation is. -/
theorem Errand.LeadsTo.call {n : Nat} {b : Body} {parent : FrameId} {x : Option Value}
    {given : List Answered} {performs : Option Job} {y : Act (Except Failure Next)}
    (h : Errand.LeadsTo ⟨.call (.closure n b parent) x, given, performs⟩ y) :
    (Job.call (.closure n b parent) x).act.run.After given y := by
  obtain ⟨τ, hτ, hafter⟩ := h
  rw [told_eq_self (not_isGiveWay_of_call hafter)] at hτ
  cases hτ
  exact hafter

/-! ## Tasks -/

/-- A task runs the code of a body in the frame `f`, which the invocation was given, and `τ` is what the
code was answered. -/
def Journal.Runs (J : Journal) (t : TaskId) (f : FrameId) (b : Body) (τ : List Answered) : Prop :=
  ∃ n parent x rest, J.errands t =
    ⟨.call (.closure n b parent) x, ⟨.enter parent x, f⟩ :: τ, none⟩ :: rest

/-- The code that a task runs in the frame `f` has come to the `bind` at `l` of the name `k` and the
value `d`. -/
def Journal.AtBind (J : Journal) (t : TaskId) (f : FrameId) (l : Location) (k : String) (d : Deferred) :
    Prop :=
  ∃ b τ, J.Runs t f b τ ∧ Evaluation.AtBind f l k d b.code [] τ

namespace Machine

variable {m m' : Machine} {t : TaskId} {θ : Thread} {e : Entry} {J J' : Journal}

/-- A task asks to declare a name just where the code that it runs has come to a `bind` for it. -/
theorem Unfolds.asks_declare (h : Unfolds J m) (hat : m.At t θ) :
    (∃ k' ks, θ = ⟨.ask (.declare f k d) k', ks⟩) ↔ ∃ l, J.AtBind t f l k d := by
  have hretraced := h.retraced t θ hat
  constructor
  · rintro ⟨k', ks, rfl⟩
    generalize hes : J.errands t = es at hretraced
    cases hretraced with
    | @mk s ss _ hperforms hleads hks =>
      obtain ⟨job, given, performs⟩ := s
      obtain ⟨τ, hτ, hafter⟩ := hleads
      obtain ⟨n, b, parent, x, τ', l, rfl, rfl, hbind⟩ := Job.poses_declare.1 ⟨k', hafter⟩
      -- It is an invocation that asks, so nothing that it was answered is left out.
      rw [Concatenative.told_eq_self (not_isGiveWay_of_call hafter)] at hτ
      cases hτ
      cases hperforms
      exact ⟨l, b, τ', ⟨n, parent, x, ss, hes⟩, hbind⟩
  · rintro ⟨l, b, τ, ⟨n, parent, x, rest, hes⟩, hbind⟩
    rw [hes] at hretraced
    cases hretraced with
    | mk _ hleads hks =>
      obtain ⟨k', hposes⟩ := Job.poses_declare.2 ⟨n, b, parent, x, τ, l, rfl, rfl, hbind⟩
      obtain ⟨act, ks⟩ := θ
      cases hleads.call.unique hposes
      exact ⟨k', ks, rfl⟩

/-- A task of which something is told is there. -/
theorem Tells.at_of_task? (h : m.Tells [e] m') (hu : Unfolds J m) (he : e.task? = some t) :
    ∃ θ, m.At t θ := by
  cases h with
  | turns hr _ | serves hr _ =>
    cases he
    exact ⟨_, .running hr⟩
  | @reads r front back a hr hm =>
    cases he
    obtain ⟨task, ht, _, hn⟩ := hu.orderly.1.reading r.task (by simp [readers, hm])
    have hlt := (Array.getElem?_eq_some_iff.1 ht).1
    have hres : m.result? r.task = none := by
      rw [result?, ht]
      exact hn
    exact (hu.wakeful.1.located _ hlt hres).1

/-- Every declaration that is answered is the one of a `bind`. -/
theorem Unfolds.atBind_of_answered {a : Except Failure Unit} (J' : Journal)
    (h : Unfolds (J' ++ .answered t (.declare f k d) a :: J) m) : ∃ l, J.AtBind t f l k d := by
  obtain ⟨m₁, m₂, hprev, ht⟩ := h.answered
  cases ht with
  | serves hr _ => exact (hprev.asks_declare (.running hr)).1 ⟨_, _, rfl⟩

/-- What is told next of a task that has come to a `bind` is how its declaration is answered. -/
theorem Unfolds.declares_next {l : Location} (h : Unfolds (J' ++ e :: J) m)
    (hbind : J.AtBind t f l k d) (he : e.task? = some t) :
    ∃ a, e = .answered t (.declare f k d) a := by
  obtain ⟨m₁, m₂, hprev, ht⟩ := h.told (by simp [he])
  obtain ⟨θ, hat⟩ := ht.at_of_task? hprev he
  obtain ⟨k', ks, rfl⟩ := (hprev.asks_declare hat).2 ⟨l, hbind⟩
  rcases ht.goesOn hprev.orderly.1 hat with ⟨θ', hgoes, _⟩ | ⟨_, hnil⟩
  · cases hgoes with
    | waits hne => exact absurd he (hne e (List.mem_singleton.2 rfl))
    | turns hturn => cases hturn
    | answered a _ _ => exact ⟨a, rfl⟩
  · cases hnil

/-- The task is where the last answer has led the code of its invocation. -/
theorem Unfolds.act_of_after {b : Body} {q : Request} {a : q.Answer} {y : Act (Except Failure Value)}
    (h : Unfolds (.answered t q a :: J) m) (hruns : J.Runs t f b τ)
    (hb : Entry.begins? t (.answered t q a) = none) (hy : (code f b.code []).run.After (τ ++ [⟨q, a⟩]) y)
    (hat : m.At t θ) : θ.act = y.bind (ExceptT.bindCont fun v => (pure (.value v) : Eval Next)) := by
  obtain ⟨n, parent, x, rest, hes⟩ := hruns
  have hretraced := h.retraced t θ hat
  rw [Journal.errands_answered hb, hes] at hretraced
  cases hretraced with
  | mk _ hleads _ =>
    have hcall : (Job.call (.closure n b parent) x).act.run.After
        (⟨.enter parent x, f⟩ :: (τ ++ [⟨q, a⟩])) (y.bind _) := .ask (hy.bind _)
    exact hleads.call.unique hcall

/-- A declaration that is refused is what the invocation fails with, at the place of its `bind`. -/
theorem Unfolds.act_of_refused {fault : Failure}
    (h : Unfolds (.answered t (.declare f k d) (.error fault) :: J) m) :
    ∃ l, J.AtBind t f l k d ∧ ∀ θ, m.At t θ → θ.act = .done (.error (fault.orAt l)) := by
  obtain ⟨l, b, τ, hruns, hbind⟩ := Unfolds.atBind_of_answered [] h
  exact ⟨l, ⟨b, τ, hruns, hbind⟩, fun θ hat => h.act_of_after hruns rfl (hbind.refused fault) hat⟩

/-- When a declaration is not refused the code behind its `bind` is run. -/
theorem Unfolds.act_of_accepted (h : Unfolds (.answered t (.declare f k d) (.ok ()) :: J) m) :
    ∃ b τ l front behind below, J.Runs t f b τ ∧ Evaluation.AtBind f l k d b.code [] τ ∧
      b.code = front ++ ⟨l, .primitive .bind⟩ :: behind ∧ ∀ θ, m.At t θ →
        θ.act = (code f behind below >>= fun v => (pure (.value v) : Eval Next)).run := by
  obtain ⟨l, b, τ, hruns, hbind⟩ := Unfolds.atBind_of_answered [] h
  obtain ⟨front, behind, below, he, hafter⟩ := hbind.accepted
  exact ⟨b, τ, l, front, behind, below, hruns, hbind, he, fun θ hat =>
    h.act_of_after hruns rfl hafter hat⟩

end Machine

/-- The frame in which a name is bound was given to the task that binds it. -/
theorem Journal.AtBind.entered {J : Journal} {t : TaskId} (h : J.AtBind t f l k d) :
    ∃ parent x, Entry.answered t (.enter parent x) f ∈ J := by
  obtain ⟨b, τ, ⟨n, parent, x, rest, hes⟩, _⟩ := h
  refine ⟨parent, x, ?_⟩
  have htold := J.told_of_mem_errands _ (hes ▸ List.mem_cons_self)
  exact htold (.enter parent x) f List.mem_cons_self rfl

end Concatenative
