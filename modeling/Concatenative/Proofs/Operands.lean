import Concatenative.Proofs.Mapping

/-! Operands that are waited for. The jobs of the operators that take two operands, and the job that
gathers a list, wait for all their operands before they do anything with the values. Main statement: in
whatever order the operands come to something, such a job fails with the first failure in the order of
the operands and does nothing else, or goes on with all their values (`Machine.combined_of_result`); of
two operands the first is the one deeper in the stack (`operands_fail_by_position`). -/
namespace Concatenative

open Eval Evaluation
open Act (Ends)

variable {τ τ' : List Answered}

/-! ## Waiting for a list -/

/-- Values that may not be known yet are waited for, one after the other. -/
def waitsAll (ds : List Deferred) (os : List Outcome) : List Answered :=
  (List.zipWith Deferred.wait ds os).flatten

/-- Nothing that is known says otherwise. -/
def Deferred.MayBe (d : Deferred) (o : Outcome) : Prop := ∀ o', d.known? = some o' → o = o'

theorem mem_waitsAll {ds : List Deferred} {os : List Outcome} {a : Answered} (ha : a ∈ waitsAll ds os) :
    ∃ d o, d ∈ ds ∧ a ∈ d.wait o := by
  induction ds generalizing os with
  | nil => cases ha
  | cons d ds ih =>
    cases os with
    | nil => cases ha
    | cons o os =>
      rcases List.mem_append.1 ha with ha | ha
      · exact ⟨d, o, List.mem_cons_self, ha⟩
      · obtain ⟨d', o', hd, ha⟩ := ih ha
        exact ⟨d', o', List.mem_cons_of_mem _ hd, ha⟩

theorem ends_awaitEach {found : List Outcome} {ds : List Deferred} {r : Except Failure (List Outcome)} :
    Ends recorded (awaitAll found ds).run τ r τ' ↔
      ∃ os : List Outcome, List.Forall₂ Deferred.MayBe ds os ∧ τ = waitsAll ds os ++ τ' ∧
        r = .ok (found.reverse ++ os) := by
  induction ds generalizing found τ with
  | nil =>
    simp only [awaitAll, Eval.ends_pure, List.forall₂_nil_left_iff]
    constructor
    · rintro ⟨rfl, rfl⟩
      exact ⟨[], rfl, rfl, by simp⟩
    · rintro ⟨os, rfl, rfl, rfl⟩
      simp
  | cons d ds ih =>
    simp only [awaitAll, Eval.ends_bind, Eval.ends_attempt, ends_await, ih]
    constructor
    · rintro (⟨o, τ₁, ⟨_, ⟨rfl, hd⟩, ⟨⟩⟩, os, hds, rfl, rfl⟩ | ⟨e, ⟨_, _, h⟩, _⟩)
      · exact ⟨_ :: os, .cons hd hds, by simp [waitsAll], by simp⟩
      · cases h
    · rintro ⟨os, hds, rfl, rfl⟩
      cases hds with
      | @cons _ o _ os hd hds =>
        exact .inl ⟨o, _, ⟨o, ⟨by simp [waitsAll], hd⟩, rfl⟩, os, hds, rfl, by simp⟩

theorem ends_settleAll {ds : List Deferred} {r : Except Failure (List Value)} :
    Ends recorded (settleAll ds).run τ r τ' ↔
      ∃ os : List Outcome, List.Forall₂ Deferred.MayBe ds os ∧ τ = waitsAll ds os ++ τ' ∧
        r = os.mapM id := by
  simp only [settleAll, Eval.ends_bind, ends_awaitEach, Eval.ends_orFail]
  constructor
  · rintro (⟨_, _, ⟨os, hds, rfl, ⟨⟩⟩, rfl, rfl⟩ | ⟨e, ⟨_, _, _, h⟩, _⟩)
    · exact ⟨os, hds, rfl, rfl⟩
    · cases h
  · rintro ⟨os, hds, rfl, rfl⟩
    exact .inl ⟨_, _, ⟨os, hds, rfl, rfl⟩, rfl, rfl⟩

theorem mapM_values (vs : List Value) : (vs.map .ok).mapM id = (.ok vs : Except Failure (List Value)) := by
  induction vs with
  | nil => rfl
  | cons v vs ih =>
    rw [List.map_cons, List.mapM_cons, ih]
    rfl

/-- Outcomes are all values, or there is a first failure. -/
theorem outcomes_cases (os : List Outcome) : (∃ vs : List Value, os = vs.map .ok) ∨
    ∃ (vs : List Value) (e : Failure) (rest : List Outcome), os = vs.map .ok ++ .error e :: rest := by
  induction os with
  | nil => exact .inl ⟨[], rfl⟩
  | cons o os ih =>
    cases o with
    | error e => exact .inr ⟨[], e, os, rfl⟩
    | ok v =>
      rcases ih with ⟨vs, rfl⟩ | ⟨vs, e, rest, rfl⟩
      · exact .inl ⟨v :: vs, rfl⟩
      · exact .inr ⟨v :: vs, e, rest, rfl⟩

/-! ## Jobs that put operands together -/

/-- What a job is answered that puts operands together: it waits for all of them; then it fails with the
first failure in their order, or it goes on with their values. -/
theorem comes_combines {job : Job} {o : Outcome} (hjob : job.Combines)
    (h : job.Comes recorded τ o []) :
    ∃ os, List.Forall₂ Deferred.MayBe job.operands os ∧
      ((∃ (vs : List Value) (e : Failure) (rest : List Outcome), os = vs.map .ok ++ .error e :: rest ∧
          τ = waitsAll job.operands os ∧ o = .error e) ∨
        ∃ (vs : List Value) (τ' : List Answered), os = vs.map .ok ∧
          τ = waitsAll job.operands os ++ τ' ∧ (job.combine vs).Comes recorded τ' o []) := by
  rw [Job.comes_iff, Job.act_combines hjob] at h
  obtain ⟨r, τ₁, h, hr⟩ := h
  simp only [Eval.ends_bind, ends_settleAll] at h
  obtain ⟨vs, τ₂, ⟨os, hds, rfl, hvs⟩, hk⟩ | ⟨e, ⟨os, hds, rfl, he⟩, rfl⟩ := h
  · refine ⟨os, hds, .inr ⟨vs, τ₂, ?_, rfl, r, τ₁, hk, hr⟩⟩
    rcases outcomes_cases os with ⟨vs', rfl⟩ | ⟨vs', e, rest, rfl⟩
    · rw [mapM_values] at hvs
      cases hvs
      rfl
    · rw [mapM_failure] at hvs
      cases hvs
  · obtain ⟨rfl, rfl⟩ := hr
    refine ⟨os, hds, .inl ?_⟩
    rcases outcomes_cases os with ⟨vs', rfl⟩ | ⟨vs', e', rest, rfl⟩
    · rw [mapM_values] at he
      cases he
    · rw [mapM_failure] at he
      cases he
      exact ⟨vs', e, rest, rfl, List.append_nil _, rfl⟩

theorem comes_stamp {f : Nat → Value} {o : Outcome}
    (h : (ask .stamp >>= fun n => (pure (.value (f n)) : Eval Next)).Comes recorded τ o []) :
    ∃ n : Nat, τ = [⟨.stamp, n⟩] ∧ o = .ok (f n) := by
  obtain ⟨r, τ₁, h, hr⟩ := h
  simp only [Eval.ends_ask_bind (q := .stamp) rfl, Eval.ends_pure] at h
  obtain ⟨n, τ₂, hn, rfl, rfl⟩ := h
  obtain ⟨rfl, rfl⟩ := hr
  exact ⟨n, hn, rfl⟩

theorem comes_orFail {x o : Outcome}
    (h : (orFail x >>= fun v => (pure (.value v) : Eval Next)).Comes recorded τ o []) :
    τ = [] ∧ o = x := by
  obtain ⟨rfl, rfl⟩ := Eval.ends_orFail.1 (comes_value.1 h)
  exact ⟨rfl, rfl⟩

theorem comes_pure {n : Next} {o : Outcome} (h : (pure n : Eval Next).Comes recorded τ o []) :
    Next.Comes recorded (.ok n) τ o [] := by
  obtain ⟨r, τ₁, hp, hr⟩ := h
  obtain ⟨rfl, rfl⟩ := Eval.ends_pure.1 hp
  exact hr

/-- Operators other than a map ask for nothing but a stamp when they have the values. -/
theorem stamps_of_combineBoth {job : Job} {a b : Value} {o : Outcome}
    (hmap : ∀ l x y, job ≠ .map l x y) (h : (job.combineBoth a b).Comes recorded τ o []) :
    ∀ x ∈ τ, x.1 = .stamp := by
  have hstamp : (∃ n : Nat, τ = [⟨.stamp, n⟩]) → ∀ x ∈ τ, x.1 = .stamp := by
    rintro ⟨n, rfl⟩ x hx
    cases List.mem_singleton.1 hx
    rfl
  have hnone : τ = [] → ∀ x ∈ τ, x.1 = .stamp := fun hτ x hx =>
    absurd (hτ ▸ hx) List.not_mem_nil
  cases job with
  | compose g f =>
    obtain ⟨n, hτ, _⟩ := comes_stamp (f := fun n => .callable (.composed n b a)) h
    exact hstamp ⟨n, hτ⟩
  | concat x y => exact hnone (comes_orFail (x := a.concat b) h).1
  | append x y => exact hnone (comes_orFail (x := a.append b) h).1
  | map l x y => exact absurd rfl (hmap l x y)
  | reducer x y =>
    cases a with
    | list items =>
      obtain ⟨n, hτ, _⟩ := comes_stamp (f := fun n => .callable (.reducer n (.list items) b)) h
      exact hstamp ⟨n, hτ⟩
    | callable c =>
      obtain ⟨n, hτ, _⟩ := comes_stamp (f := fun n => .callable (.reducer n (.callable c) b)) h
      exact hstamp ⟨n, hτ⟩
    | _ =>
      obtain ⟨r, τ₁, hfail, hr⟩ := h
      cases hfail
      exact hnone hr.2.symm
  | _ => exact hnone (comes_pure h).2.symm

theorem stamps_of_combine {job : Job} {vs : List Value} {o : Outcome}
    (hmap : ∀ l x y, job ≠ .map l x y) (h : (job.combine vs).Comes recorded τ o []) :
    ∀ x ∈ τ, x.1 = .stamp := by
  unfold Job.combine at h
  split at h
  · exact fun x hx => absurd ((comes_pure h).2 ▸ hx) List.not_mem_nil
  · exact stamps_of_combineBoth hmap h
  · exact fun x hx => absurd ((comes_pure h).2 ▸ hx) List.not_mem_nil

/-! ## Jobs that put operands together come to an end -/

theorem completes_stamp (f : Nat → Value) :
    Completes (ask .stamp >>= fun n => pure (.value (f n)) : Eval Next).run :=
  .ask rfl fun _ => .value _

theorem completes_orFail (o : Outcome) :
    Completes (orFail o >>= fun v => pure (.value v) : Eval Next).run := by
  cases o with
  | ok v => exact .value v
  | error e => exact .failure e

theorem completes_combineBoth (job : Job) (a b : Value) : Completes (job.combineBoth a b).run := by
  cases job with
  | compose g f => exact completes_stamp _
  | concat x y => exact completes_orFail _
  | append x y => exact completes_orFail _
  | map l x y =>
    refine completes_bind (passes_orFail _) fun xs => ?_
    exact completes_bind (passes_startEach (fun _ _ => rfl) [] 0 xs) fun ds => .become (completes_gather ds)
  | reducer x y =>
    cases a with
    | list items => exact completes_stamp _
    | callable c => exact completes_stamp _
    | _ => exact .failure _
  | _ => exact .value _

theorem completes_combine (job : Job) (vs : List Value) : Completes (job.combine vs).run := by
  unfold Job.combine
  split
  · exact .value _
  · exact completes_combineBoth ..
  · exact .value _

theorem completes_combines {job : Job} (hjob : job.Combines) : Completes job.act.run := by
  rw [Job.act_combines hjob]
  exact completes_bind (asks_settleAll (fun _ => rfl) _) fun vs => completes_combine job vs

namespace Machine

variable {m last : Machine} {J : Journal} {t : TaskId} {job : Job} {origin : Option Location}
  {r : Outcome}

/-- How task `t` that puts operands together came to `r`. -/
inductive Combined (m last : Machine) (J : Journal) (t : TaskId) (job : Job)
    (origin : Option Location) (r : Outcome) : Prop
  /-- An operand failed, and nothing was done but to wait for all of them. -/
  | failed {os : List Outcome} {vs : List Value} {e : Failure} {rest : List Outcome} :
      List.Forall₂ (m.Operand last) job.operands os → os = vs.map .ok ++ .error e :: rest →
      J.answersTo t = waitsAll job.operands os → r = Stand.close ⟨origin, none, none⟩ (.error e) →
      Combined m last J t job origin r
  | combined {os : List Outcome} {vs : List Value} {τ : List Answered} {o : Outcome} :
      List.Forall₂ (m.Operand last) job.operands os → os = vs.map .ok →
      J.answersTo t = waitsAll job.operands os ++ told τ → (job.combine vs).Comes recorded τ o [] →
      r = Stand.close ⟨origin, none, none⟩ o → Combined m last J t job origin r

theorem isGiveWay_of_mem_waitsAll {ds : List Deferred} {os : List Outcome} {a : Answered}
    (ha : a ∈ waitsAll ds os) : a.1.isGiveWay = false := by
  obtain ⟨d, o, _, hd⟩ := mem_waitsAll ha
  obtain ⟨u, _, rfl⟩ := eq_of_mem_wait hd
  rfl

theorem operands_of_answers {ds : List Deferred} {os : List Outcome} (h : m.Recounts J last)
    (ho : m.Orderly) (hds : List.Forall₂ Deferred.MayBe ds os) (hmem : waitsAll ds os ⊆ J.answersTo t) :
    List.Forall₂ (m.Operand last) ds os := by
  induction hds with
  | nil => exact .nil
  | @cons d o ds os hd hds ih =>
    rw [waitsAll, List.zipWith_cons_cons, List.flatten_cons] at hmem
    refine .cons (operand_of_mem h ho hd fun a ha => hmem (List.mem_append_left _ ha)) (ih ?_)
    exact fun a ha => hmem (List.mem_append_right _ ha)

section Runs

variable (h : m.Recounts J last) (ho : m.Orderly) (hjob : job.Combines)
  (hs : m.stand t = some ⟨origin, some job.thread, none⟩)

include h ho hjob hs

/-- What a job has done that puts operands together, if it has come to something. -/
theorem combined_of_result (hres : last.result? t = some r) :
    m.Combined last J t job origin r := by
  obtain ⟨τ, o, hc, hJ, hr⟩ := comes_told h ho (.aside hs rfl) hs hres
  obtain ⟨os, hds, hcases⟩ := comes_combines hjob (Thread.comes_job.1 hc)
  have hwaits : told (waitsAll job.operands os) = waitsAll job.operands os :=
    told_eq_self fun a ha => isGiveWay_of_mem_waitsAll ha
  rcases hcases with ⟨vs, e, rest, hos, rfl, rfl⟩ | ⟨vs, τ', hos, rfl, hcombine⟩
  · rw [hwaits] at hJ
    exact .failed (operands_of_answers h ho hds fun a ha => hJ ▸ ha) hos hJ hr
  · rw [told_append, hwaits] at hJ
    exact .combined (operands_of_answers h ho hds (hJ ▸ List.subset_append_left _ _)) hos hJ
      hcombine hr

/-- What such a job waits for: an operand, or, if it is a map, the task of an element. -/
theorem asks_of_combines {q : Request} {k : q.Answer → Act (Except Failure Next)}
    {ks : List (Outcome → Act (Except Failure Next))} (hat : last.At t ⟨.ask q k, ks⟩) :
    q = .stamp ∨ (∃ l job', q = .spawn l job') ∨ ∃ u, q = .await u ∧ (.pending u ∈ job.operands ∨
      ∃ l items d f element i, job = .map l items d ∧
        ⟨.spawn l (elementJob f element i), u⟩ ∈ J.answersTo t) := by
  by_cases hmap : ∃ l x y, job = .map l x y
  · obtain ⟨l, x, y, rfl⟩ := hmap
    rcases asks_of_map h ho hs hat with hspawn | ⟨u, hq, hx | hy | ⟨f, element, i, hstart⟩⟩
    · exact .inr (.inl hspawn)
    · exact .inr (.inr ⟨u, hq, .inl (hx ▸ List.mem_cons_self)⟩)
    · exact .inr (.inr ⟨u, hq, .inl (hy ▸ List.mem_cons_of_mem _ List.mem_cons_self)⟩)
    · exact .inr (.inr ⟨u, hq, .inr ⟨l, x, y, f, element, i, rfl, hstart⟩⟩)
  · have hother : ∀ l x y, job ≠ .map l x y := fun l x y he => hmap ⟨l, x, y, he⟩
    obtain ⟨τ, a, τ', o, hc, _⟩ := h.comes_ask ho hs (completes_combines hjob) hat
    obtain ⟨os, _, hcases⟩ := comes_combines hjob (Job.comes_iff.2 hc)
    have hmem : ⟨q, a⟩ ∈ τ ++ ⟨q, a⟩ :: τ' := List.mem_append_right _ List.mem_cons_self
    have hwait : ⟨q, a⟩ ∈ waitsAll job.operands os → ∃ u, q = .await u ∧ .pending u ∈ job.operands := by
      intro ha
      obtain ⟨d, o, hd, hd'⟩ := mem_waitsAll ha
      obtain ⟨u, rfl, he⟩ := eq_of_mem_wait hd'
      cases he
      exact ⟨u, rfl, hd⟩
    rcases hcases with ⟨_, _, _, _, hτ, _⟩ | ⟨vs, τ₂, _, hτ, hcombine⟩
    · obtain ⟨u, hq, hu⟩ := hwait (hτ ▸ hmem)
      exact .inr (.inr ⟨u, hq, .inl hu⟩)
    · rcases List.mem_append.1 (hτ ▸ hmem) with ha | ha
      · obtain ⟨u, hq, hu⟩ := hwait ha
        exact .inr (.inr ⟨u, hq, .inl hu⟩)
      · exact .inl (stamps_of_combine hother hcombine _ ha)

end Runs

end Machine

/-! ## Operators of two operands -/

/-- The job that an operator starts for the two operands on top of the stack. -/
def Primitive.pairs? (l : Location) (deeper top : Deferred) : Primitive → Option Job
  | .compose => some (.compose deeper top)
  | .concat => some (.concat deeper top)
  | .push => some (.append deeper top)
  | .map => some (.map l deeper top)
  | .reduce => some (.reducer deeper top)
  | _ => none

variable {l : Location} {deeper top : Deferred} {p : Primitive} {job : Job}

theorem Primitive.pairs_combines (h : p.pairs? l deeper top = some job) :
    job.Combines ∧ job.operands = [deeper, top] ∧ ∀ a b, job.combine [a, b] = job.combineBoth a b := by
  cases p <;> cases h <;> exact ⟨trivial, rfl, fun _ _ => rfl⟩

/-- An operator of two operands starts its job and pushes what that comes to. -/
theorem Primitive.instruction_pairs (h : p.pairs? l deeper top = some job) (frame : FrameId)
    (rest : Stack) : (instruction frame ⟨l, .primitive p⟩ (top :: deeper :: rest)).run =
      .ask (.spawn l job) fun u => .done (.ok (.pending u :: rest)) := by
  cases p <;> cases h <;> rfl

namespace Machine

variable {m last : Machine} {t : TaskId} {log : List Asked} {origin : Option Location}

/-- Where no task can go on, a job that puts operands together has come to something, unless an operand
has not or, if it is a map, the task of an element has not. -/
theorem ends_unless_waits {J : Journal} (hm : m.Arises) (h : m.Recounts J last) (hr : Runs m log last)
    (hjob : job.Combines) (hs : m.stand t = some ⟨origin, some job.thread, none⟩)
    (hidle : last.step = .idle last) (hn : last.result? t = none) : ∃ u, last.result? u = none ∧
      (.pending u ∈ job.operands ∨ ∃ l items d f element i, job = .map l items d ∧
        ⟨.spawn l (elementJob f element i), u⟩ ∈ J.answersTo t) := by
  obtain ⟨ho, _⟩ := hm.orderly
  have hlt : t < last.tasks.size := Nat.lt_of_lt_of_le (stand_lt hs) (h.size_le ho)
  rcases (hm.runs hr).wakeful.waits_of_idle hidle hlt hn with ⟨u, ⟨k, ks, hat⟩, hu⟩ | ⟨_, k, ks, hat⟩
  · rcases asks_of_combines h ho hjob hs hat with he | ⟨_, _, he⟩ | ⟨u', he, hu'⟩
    · cases he
    · cases he
    · cases he
      exact ⟨u, hu, hu'⟩
  · rcases asks_of_combines h ho hjob hs hat with he | ⟨_, _, he⟩ | ⟨_, he, _⟩ <;> cases he

/-- What a task came to that gathers values: all of them have come to something, and it is the list of
their values, or the failure of the first in their order that failed. -/
theorem gathered_of_result {ds : List Deferred} {r : Outcome} (hm : m.Arises)
    (hs : m.stand t = some ⟨origin, some (Job.gather ds).thread, none⟩) (hr : Runs m log last)
    (hres : last.result? t = some r) : ∃ os : List Outcome, List.Forall₂ (m.Operand last) ds os ∧
      (∀ vs : List Value, os = vs.map .ok → r = .ok (.list vs)) ∧
      ∀ (vs : List Value) (e : Failure) (rest : List Outcome), os = vs.map .ok ++ .error e :: rest →
        r = Stand.close ⟨origin, none, none⟩ (.error e) := by
  obtain ⟨J, h, _⟩ := recounts_runs hr
  have hjob : (Job.gather ds).Combines := trivial
  cases combined_of_result h hm.orderly.1 hjob hs hres with
  | @failed os vs e rest hops hos _ hr' =>
    refine ⟨os, hops, fun vs' hvs' => ?_, fun vs' e' rest' hos' => ?_⟩
    · have hvalues := mapM_values vs'
      rw [← hvs', hos, mapM_failure] at hvalues
      cases hvalues
    · have hfirst := mapM_failure vs' e' rest'
      rw [← hos', hos, mapM_failure] at hfirst
      cases hfirst
      exact hr'
  | @combined os vs τ o hops hos _ hcombine hr' =>
    refine ⟨os, hops, fun vs' hvs' => ?_, fun vs' e' rest' hos' => ?_⟩
    · have hvalues := mapM_values vs'
      rw [← hvs', hos, mapM_values] at hvalues
      cases hvalues
      rw [hr', (comes_pure hcombine).1, Stand.close_ok]
    · have hfirst := mapM_failure vs' e' rest'
      rw [← hos', hos, mapM_values] at hfirst
      cases hfirst

/-- What a task came to that an operator has started for two operands. -/
theorem paired_of_result {r : Outcome} (hp : p.pairs? l deeper top = some job) (hm : m.Arises)
    (hs : m.stand t = some ⟨some l, some job.thread, none⟩) (hr : Runs m log last)
    (hres : last.result? t = some r) : ∃ x y, m.Operand last deeper x ∧ m.Operand last top y ∧
      (∀ e, x = .error e → r = .error (e.orAt l)) ∧
      (∀ v e, x = .ok v → y = .error e → r = .error (e.orAt l)) ∧
      ∀ v w, x = .ok v → y = .ok w →
        ∃ τ o, (job.combineBoth v w).Comes recorded τ o [] ∧ r = o.orAt l := by
  obtain ⟨J, h, _⟩ := recounts_runs hr
  obtain ⟨hjob, hoperands, hboth⟩ := Primitive.pairs_combines hp
  cases combined_of_result h hm.orderly.1 hjob hs hres with
  | @failed os vs e rest hops hos _ hr' =>
    have hfirst : os.mapM id = (.error e : Except Failure _) := hos ▸ mapM_failure vs e rest
    rw [hoperands] at hops
    obtain _ | ⟨hx, _ | ⟨hy, _ | _⟩⟩ := hops
    refine ⟨_, _, hx, hy, ?_, ?_, ?_⟩
    · rintro e' rfl
      cases hfirst.symm.trans (mapM_failure [] e' _)
      exact hr'
    · rintro v e' rfl rfl
      cases hfirst.symm.trans (mapM_failure [v] e' [])
      exact hr'
    · rintro v w rfl rfl
      cases hfirst.symm.trans (mapM_values [v, w])
  | @combined os vs τ o hops hos _ hcombine hr' =>
    have hvalues : os.mapM id = (.ok vs : Except Failure _) := hos ▸ mapM_values vs
    rw [hoperands] at hops
    obtain _ | ⟨hx, _ | ⟨hy, _ | _⟩⟩ := hops
    refine ⟨_, _, hx, hy, ?_, ?_, ?_⟩
    · rintro e' rfl
      cases hvalues.symm.trans (mapM_failure [] e' _)
    · rintro v e' rfl rfl
      cases hvalues.symm.trans (mapM_failure [v] e' [])
    · rintro v w rfl rfl
      cases hvalues.symm.trans (mapM_values [v, w])
      exact ⟨τ, o, hboth v w ▸ hcombine, hr'⟩

end Machine

open Machine in
/-- Operands are waited for together and blamed by position, in whatever order tasks run and end.
A task that gathers values comes to something only when all of them have; it comes to the list of their
values, or to the failure of the first in their order that has failed, whichever failed first; and it
does come to something unless one of them never does. Each operator of two operands starts one job for
them, which comes to something when both have and, for a map, all elements. If the operand deeper in the
stack fails, it comes to that failure; if only the other one fails, to that one; and what the operator
makes of values is made only when both have come to values. -/
theorem operands_fail_by_position :
    (∀ {m last : Machine} {t : TaskId} {origin : Option Location} {ds : List Deferred}
      {log : List Asked}, m.Arises →
      m.stand t = some ⟨origin, some (Job.gather ds).thread, none⟩ → Runs m log last →
      (∀ r, last.result? t = some r → ∃ os : List Outcome, List.Forall₂ (m.Operand last) ds os ∧
        (∀ vs : List Value, os = vs.map .ok → r = .ok (.list vs)) ∧
        ∀ (vs : List Value) (e : Failure) (rest : List Outcome),
          os = vs.map .ok ++ .error e :: rest → r = Stand.close ⟨origin, none, none⟩ (.error e)) ∧
      (last.step = .idle last → last.result? t = none →
        ∃ u, last.result? u = none ∧ .pending u ∈ ds)) ∧
    ∀ {p : Primitive} {l : Location} {deeper top : Deferred} {job : Job},
      p.pairs? l deeper top = some job →
      (∀ (frame : FrameId) (rest : Stack),
        (instruction frame ⟨l, .primitive p⟩ (top :: deeper :: rest)).run =
          .ask (.spawn l job) fun u => .done (.ok (.pending u :: rest))) ∧
      ∀ {m last : Machine} {t : TaskId} {log : List Asked}, m.Arises →
        m.stand t = some ⟨some l, some job.thread, none⟩ → Runs m log last →
        (∀ r, last.result? t = some r → ∃ x y, m.Operand last deeper x ∧ m.Operand last top y ∧
          (∀ e, x = .error e → r = .error (e.orAt l)) ∧
          (∀ v e, x = .ok v → y = .error e → r = .error (e.orAt l)) ∧
          ∀ v w, x = .ok v → y = .ok w →
            ∃ τ o, (job.combineBoth v w).Comes recorded τ o [] ∧ r = o.orAt l) ∧
        ∃ J, m.Recounts J last ∧ (last.step = .idle last → last.result? t = none →
          ∃ u, last.result? u = none ∧ (deeper = .pending u ∨ top = .pending u ∨
            p = .map ∧ ∃ f element i, ⟨.spawn l (elementJob f element i), u⟩ ∈ J.answersTo t)) := by
  refine ⟨fun hm hs hr => ⟨fun r hres => gathered_of_result hm hs hr hres, fun hidle hn => ?_⟩,
    fun hp => ⟨Primitive.instruction_pairs hp, fun hm hs hr =>
      ⟨fun r hres => paired_of_result hp hm hs hr hres, ?_⟩⟩⟩
  · obtain ⟨J, h, _⟩ := recounts_runs hr
    have hjob : ∀ ds, (Job.gather ds).Combines := fun _ => trivial
    obtain ⟨u, hu, hmem | ⟨_, _, _, _, _, _, he, _⟩⟩ := ends_unless_waits hm h hr (hjob _) hs hidle hn
    · exact ⟨u, hu, hmem⟩
    · cases he
  · obtain ⟨J, h, _⟩ := recounts_runs hr
    obtain ⟨hjob, hoperands, _⟩ := Primitive.pairs_combines hp
    refine ⟨J, h, fun hidle hn => ?_⟩
    obtain ⟨u, hu, hmem | ⟨l', items, d, f, element, i, rfl, hstart⟩⟩ :=
      ends_unless_waits hm h hr hjob hs hidle hn
    · rw [hoperands] at hmem
      rcases List.mem_cons.1 hmem with he | hmem
      · exact ⟨u, hu, .inl he.symm⟩
      · exact ⟨u, hu, .inr (.inl (List.mem_singleton.1 hmem).symm)⟩
    · rename_i p l _ _ _ _ _ _ _ _
      cases p <;> cases hp
      exact ⟨u, hu, .inr (.inr ⟨rfl, f, element, i, hstart⟩)⟩

/-- A task that fails after a turn of the others, one that fails at once, and two tasks that wait for
both: an operator that puts lists together and one that gathers values. -/
def lateFirst : Machine :=
  let m := (Machine.addTask {} none (.lingering 1 (.error ⟨.emptyList, none⟩))).2
  let m := (m.addTask none (.lingering 0 (.error ⟨.emptyPop, none⟩))).2
  let m := (m.addTask (some (.start "concat")) (.concat (.pending 0) (.pending 1))).2
  (m.addTask none (.gather [.pending 0, .pending 1])).2

/-- The second operand fails first in time, and the first one is blamed. -/
theorem operands_fail_by_position_lateFirst :
    ((lateFirst.runAll 18 {}).1.result? 2 = some (.error ⟨.emptyList, some (.start "concat")⟩) ∧
      ∃ x y, lateFirst.Operand (lateFirst.runAll 18 {}).1 (.pending 0) x ∧
        lateFirst.Operand (lateFirst.runAll 18 {}).1 (.pending 1) y) ∧
    (lateFirst.runAll 18 {}).1.result? 3 = some (.error ⟨.emptyList, none⟩) ∧
      ∃ os, List.Forall₂ (lateFirst.Operand (lateFirst.runAll 18 {}).1) [.pending 0, .pending 1] os := by
  obtain ⟨log, hr, _⟩ := lateFirst.runs_runAll 18 {}
  have hm : lateFirst.Arises := .starts _ _ (.starts _ _ (.starts _ _ (.starts _ _
    (.new (m := {}) rfl rfl rfl rfl rfl))))
  have hpair : (lateFirst.runAll 18 {}).1.result? 2 =
      some (.error ⟨.emptyList, some (.start "concat")⟩) := by cbv
  have hlist : (lateFirst.runAll 18 {}).1.result? 3 = some (.error ⟨.emptyList, none⟩) := by cbv
  have hs : lateFirst.stand 2 = some ⟨some (.start "concat"),
      some (Job.concat (.pending 0) (.pending 1)).thread, none⟩ := rfl
  have hs' : lateFirst.stand 3 =
      some ⟨none, some (Job.gather [.pending 0, .pending 1]).thread, none⟩ := rfl
  have hp : Primitive.concat.pairs? (.start "concat") (.pending 0) (.pending 1) =
    some (.concat (.pending 0) (.pending 1)) := rfl
  obtain ⟨x, y, hx, hy, _⟩ := ((operands_fail_by_position.2 hp).2 hm hs hr).1 _ hpair
  obtain ⟨os, hos, _⟩ := (operands_fail_by_position.1 hm hs' hr).1 _ hlist
  exact ⟨⟨hpair, x, y, hx, hy⟩, hlist, os, hos⟩

end Concatenative
