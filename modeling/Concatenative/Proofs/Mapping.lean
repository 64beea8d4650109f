import Mathlib
import Concatenative.Proofs.Blame
import Concatenative.Proofs.Passage
import Concatenative.Proofs.Trampoline
import Concatenative.Proofs.Wakeups

/-! Mapping over a list. The task that maps starts a task for every element and then waits for all of
them. Main statement: in whatever order the tasks run and end, it starts one task for each element, all
of them before it waits for any, it ends when every one of them has come to something, and it comes to
the list of their values in the order of the elements, or else to the failure of the first element in
this order that has failed. -/
namespace Concatenative

open Eval Evaluation
open Act (Ends)

/-- The job for an element. -/
def elementJob (f element : Value) (index : Nat) : Job :=
  .force f (some (.list [element, indexValue index]))

/-- One task is started for each element, the elements being counted from an index. -/
def starts (l : Location) (f : Value) (index : Nat) (xs : List Value) (us : List TaskId) :
    List Answered :=
  List.zipWith (fun p u => ⟨.spawn l (elementJob f p.1 p.2), u⟩) (xs.zipIdx index) us

/-- Tasks are waited for, one after the other. -/
def waits (us : List TaskId) (os : List Outcome) : List Answered :=
  List.zipWith (fun u o => ⟨.await u, o⟩) us os

variable {l : Location} {f : Value} {τ τ' : List Answered}

theorem ends_startEach {started : List Deferred} {index : Nat} {xs : List Value}
    {r : Except Failure (List Deferred)} :
    Ends recorded (startEach l f started index xs).run τ r τ' ↔
      ∃ us : List TaskId, us.length = xs.length ∧ τ = starts l f index xs us ++ τ' ∧
        r = .ok (started.reverse ++ us.map .pending) := by
  induction xs generalizing started index τ with
  | nil =>
    simp only [startEach, Eval.ends_pure]
    constructor
    · rintro ⟨rfl, rfl⟩
      exact ⟨[], rfl, rfl, by simp⟩
    · rintro ⟨us, hlen, rfl, rfl⟩
      cases List.length_eq_zero_iff.1 hlen
      simp
  | cons v rest ih =>
    simp only [startEach, Eval.ends_bind, Eval.ends_start, ih]
    constructor
    · rintro (⟨_, τ₁, ⟨u, rfl, ⟨⟩⟩, us, hlen, rfl, rfl⟩ | ⟨e, ⟨_, _, h⟩, _⟩)
      · exact ⟨u :: us, by simp [hlen], rfl, by simp⟩
      · cases h
    · rintro ⟨us, hlen, rfl, rfl⟩
      cases us with
      | nil => cases hlen
      | cons u us =>
        exact .inl ⟨_, _, ⟨u, rfl, rfl⟩, us, Nat.succ.inj hlen, rfl, by simp⟩

theorem ends_awaitAll {found : List Outcome} {us : List TaskId} {r : Except Failure (List Outcome)} :
    Ends recorded (awaitAll found (us.map .pending)).run τ r τ' ↔
      ∃ os : List Outcome, os.length = us.length ∧ τ = waits us os ++ τ' ∧
        r = .ok (found.reverse ++ os) := by
  induction us generalizing found τ with
  | nil =>
    simp only [List.map_nil, awaitAll, Eval.ends_pure]
    constructor
    · rintro ⟨rfl, rfl⟩
      exact ⟨[], rfl, rfl, by simp⟩
    · rintro ⟨os, hlen, rfl, rfl⟩
      cases List.length_eq_zero_iff.1 hlen
      simp
  | cons u us ih =>
    simp only [List.map_cons, awaitAll, Eval.ends_bind, Eval.ends_attempt, Eval.ends_await_pending, ih]
    constructor
    · rintro (⟨o, τ₁, ⟨_, rfl, ⟨⟩⟩, os, hlen, rfl, rfl⟩ | ⟨e, ⟨_, _, h⟩, _⟩)
      · exact ⟨_ :: os, by simp [hlen], rfl, by simp⟩
      · cases h
    · rintro ⟨os, hlen, rfl, rfl⟩
      cases os with
      | nil => cases hlen
      | cons o os =>
        exact .inl ⟨o, _, ⟨o, rfl, rfl⟩, os, Nat.succ.inj hlen, rfl, by simp⟩

/-! ## Operands -/

/-- How a value that comes to an outcome is waited for. -/
def Deferred.wait (d : Deferred) (o : Outcome) : List Answered :=
  match d with
  | .pending u => [⟨.await u, o⟩]
  | _ => []

theorem ends_await {d : Deferred} {o : Outcome} :
    Ends recorded (await d).run τ o τ' ↔
      τ = d.wait o ++ τ' ∧ ∀ o', d.known? = some o' → o = o' := by
  cases d with
  | settled v =>
    simp only [await, Eval.ends_pure, Deferred.wait, Deferred.known?, List.nil_append,
      Option.some.injEq, forall_eq']
    constructor
    · rintro ⟨rfl, rfl⟩
      exact ⟨rfl, rfl⟩
    · rintro ⟨rfl, rfl⟩
      exact ⟨rfl, rfl⟩
  | rejected e =>
    simp only [Deferred.wait, Deferred.known?, List.nil_append, Option.some.injEq, forall_eq']
    refine Act.ends_done.trans ?_
    constructor
    · rintro ⟨rfl, rfl⟩
      exact ⟨rfl, rfl⟩
    · rintro ⟨rfl, rfl⟩
      exact ⟨rfl, rfl⟩
  | pending u =>
    rw [Eval.ends_await_pending]
    simp [recorded, Deferred.wait, Deferred.known?]

/-- What the operands of a map make, by what they come to: the elements and what is mapped. -/
def mapOperands (items f : Outcome) : Except Failure (List Value × Value) := do
  let items ← items
  let f ← f
  return (← items.asList, f)

theorem mapOperands_ok (v f : Value) : mapOperands (.ok v) (.ok f) = v.asList.map (·, f) := by
  show (v.asList >>= fun items => pure (items, f)) = _
  cases v.asList <;> rfl

theorem map_act (items d : Deferred) : (Job.map l items d).act =
    attempt (await items) >>= fun x => attempt (await d) >>= fun y =>
      orFail (mapOperands x y) >>= mapAll l := by
  simp only [Job.act, settleBoth, bind_assoc, pure_bind]
  congr 1
  funext x
  congr 1
  funext y
  cases x with
  | error e => rfl
  | ok v =>
    cases y with
    | error e => rfl
    | ok g =>
      rw [mapOperands_ok]
      show (orFail v.asList >>= fun xs => startEach l g [] 0 xs >>= fun ds => _) = _
      cases v.asList <;> rfl

/-! ## The answers of a map -/

/-- What is made of what all elements came to. -/
def gathered (os : List Outcome) : Outcome := (os.mapM id).map .list

theorem comes_gather {us : List TaskId} {o : Outcome} :
    (Job.gather (us.map .pending)).Comes recorded τ o τ' ↔
      ∃ os : List Outcome, os.length = us.length ∧ τ = waits us os ++ τ' ∧ o = gathered os := by
  have h : (Job.gather (us.map .pending)).act =
      (awaitAll [] (us.map .pending) >>= fun os => orFail (gathered os)) >>= fun v =>
        pure (.value v) := by
    simp only [Job.act, settleAll, bind_assoc]
    congr 1
    funext os
    rw [gathered]
    cases os.mapM (m := Except Failure) id <;> rfl
  rw [Job.comes_iff, h]
  refine comes_value.trans ?_
  simp only [Eval.ends_bind, ends_awaitAll, Eval.ends_orFail]
  constructor
  · rintro (⟨_, _, ⟨os, hlen, rfl, ⟨⟩⟩, rfl, rfl⟩ | ⟨e, ⟨_, _, _, h⟩, _⟩)
    · exact ⟨os, hlen, rfl, rfl⟩
    · cases h
  · rintro ⟨os, hlen, rfl, rfl⟩
    exact .inl ⟨_, _, ⟨os, hlen, rfl, rfl⟩, rfl, rfl⟩

theorem comes_mapAll {xs : List Value} {o : Outcome} :
    (mapAll l (xs, f)).Comes recorded τ o τ' ↔
      ∃ (us : List TaskId) (os : List Outcome), us.length = xs.length ∧ os.length = us.length ∧
        τ = starts l f 0 xs us ++ (waits us os ++ τ') ∧ o = gathered os := by
  simp only [mapAll, Eval.Comes, Eval.ends_bind, ends_startEach, Eval.ends_pure]
  constructor
  · rintro ⟨r, τ₁, ⟨_, _, ⟨us, hlen, rfl, ⟨⟩⟩, rfl, rfl⟩ | ⟨e, ⟨_, _, _, h⟩, _⟩, hr⟩
    · obtain ⟨os, hlen', rfl, rfl⟩ := comes_gather.1 hr
      exact ⟨us, os, hlen, hlen', rfl, rfl⟩
    · cases h
  · rintro ⟨us, os, hlen, hlen', rfl, rfl⟩
    exact ⟨_, _, .inl ⟨_, _, ⟨us, hlen, rfl, rfl⟩, rfl, rfl⟩,
      comes_gather.2 ⟨os, hlen', rfl, rfl⟩⟩

/-- What a map is answered: its operands are waited for, then it fails, or it starts and then waits for
a task for every element. -/
theorem comes_map {items d : Deferred} {o : Outcome}
    (h : (Job.map l items d).Comes recorded τ o []) :
    ∃ x y, (∀ o', items.known? = some o' → x = o') ∧ (∀ o', d.known? = some o' → y = o') ∧
      ((∃ e, mapOperands x y = .error e ∧ τ = items.wait x ++ d.wait y ∧ o = .error e) ∨
        ∃ (xs : List Value) (f : Value) (us : List TaskId) (os : List Outcome),
          mapOperands x y = .ok (xs, f) ∧ us.length = xs.length ∧ os.length = us.length ∧
          τ = items.wait x ++ d.wait y ++ (starts l f 0 xs us ++ waits us os) ∧ o = gathered os) := by
  rw [Job.comes_iff, map_act] at h
  obtain ⟨r, τ₁, h, hr⟩ := h
  simp only [Eval.ends_bind, Eval.ends_attempt, ends_await, Eval.ends_orFail] at h
  obtain ⟨x, τ₂, ⟨_, ⟨rfl, hx⟩, ⟨⟩⟩, h⟩ | ⟨e, ⟨_, _, h⟩, _⟩ := h
  · obtain ⟨y, τ₃, ⟨_, ⟨rfl, hy⟩, ⟨⟩⟩, h⟩ | ⟨e, ⟨_, _, h⟩, _⟩ := h
    · refine ⟨x, y, hx, hy, ?_⟩
      obtain ⟨⟨xs, f⟩, _, ⟨hop, rfl⟩, h⟩ | ⟨e, ⟨hop, rfl⟩, rfl⟩ := h
      · obtain ⟨us, os, hlen, hlen', rfl, rfl⟩ := comes_mapAll.1 ⟨r, τ₁, h, hr⟩
        exact .inr ⟨xs, f, us, os, hop.symm, hlen, hlen', by simp, rfl⟩
      · obtain ⟨rfl, rfl⟩ := hr
        exact .inl ⟨e, hop.symm, by simp, rfl⟩
    · cases h
  · cases h

/-! ## What is gathered -/

theorem gathered_values (vs : List Value) : gathered (vs.map .ok) = .ok (.list vs) := by
  have h : (vs.map .ok).mapM id = (.ok vs : Except Failure (List Value)) := by
    induction vs with
    | nil => rfl
    | cons v vs ih => rw [List.map_cons, List.mapM_cons, ih]; rfl
  rw [gathered, h]
  rfl

/-- The first failure in the order of the elements is what all come to. -/
theorem gathered_failure {os : List Outcome} {i : Nat} {e : Failure} (hi : os[i]? = some (.error e))
    (hbefore : ∀ j < i, ∃ v, os[j]? = some (.ok v)) : gathered os = .error e := by
  have h : os.mapM id = (.error e : Except Failure (List Value)) := by
    induction os generalizing i with
    | nil => cases hi
    | cons o os ih =>
      rw [List.mapM_cons]
      cases i with
      | zero =>
        cases hi
        rfl
      | succ i =>
        obtain ⟨v, hv⟩ := hbefore 0 (Nat.succ_pos i)
        cases hv
        rw [ih hi fun j hj => hbefore (j + 1) (Nat.succ_lt_succ hj)]
        rfl
  rw [gathered, h]
  rfl

/-! ## Computations that always end -/

/-- The computation comes to something without a job performed, whatever it is answered. -/
inductive Completes : Act (Except Failure Next) → Prop
  | value (v : Value) : Completes (.done (.ok (.value v)))
  | failure (e : Failure) : Completes (.done (.error e))
  | become {job : Job} : Completes job.act → Completes (.done (.ok (.become job)))
  | ask {q : Request} {k : q.Answer → Act (Except Failure Next)} : q.isPerform = false →
      (∀ a, Completes (k a)) → Completes (.ask q k)

theorem Act.Passes.completes {α : Type} {x : Act (Except Failure α)} {g : α → Eval Next}
    (hx : x.Asks (·.isPerform = false)) (hg : ∀ a, Completes (g a).run) :
    Completes (x.bind (ExceptT.bindCont g)) := by
  induction hx with
  | done r =>
    cases r with
    | ok a => exact hg a
    | error e => exact .failure e
  | ask hq _ _ ih => exact .ask hq ih

theorem completes_bind {α : Type} {x : Eval α} {g : α → Eval Next}
    (hx : x.run.Asks (·.isPerform = false)) (hg : ∀ a, Completes (g a).run) :
    Completes (x >>= g).run := Act.Passes.completes hx hg

theorem completes_gather (ds : List Deferred) : Completes (Job.gather ds).act.run := by
  exact completes_bind (asks_settleAll (fun _ => rfl) ds) fun vs => .value (.list vs)

/-- A map performs no job. -/
theorem completes_map (items d : Deferred) : Completes (Job.map l items d).act.run := by
  rw [map_act]
  refine completes_bind (asks_attempt (passes_await fun _ => rfl)) fun x => ?_
  refine completes_bind (asks_attempt (passes_await fun _ => rfl)) fun y => ?_
  refine completes_bind (passes_orFail _) fun p => ?_
  exact completes_bind (passes_startEach (fun _ _ => rfl) [] 0 p.1) fun ds =>
    .become (completes_gather ds)

theorem Request.nonempty_answer (q : Request) : Nonempty q.Answer := by
  have hfailed : ∀ {α : Type}, Nonempty (Except Failure α) := ⟨.error (Cause.underflow : Failure)⟩
  cases q with
  | world q =>
    cases q with
    | workingDirectory => exact ⟨(⟨""⟩ : Path)⟩
    | word => exact hfailed
    | _ => infer_instance
  | settings => exact ⟨({} : LibrarySettings)⟩
  | declare | rebind | lookup | input | moduleDirectory | await | perform => exact hfailed
  | _ => infer_instance

theorem Completes.comes {x : Act (Except Failure Next)} (h : Completes x) :
    ∃ τ o, Eval.Comes recorded x τ o [] := by
  induction h with
  | value v => exact ⟨[], _, _, _, .done _ _, rfl, rfl⟩
  | failure e => exact ⟨[], _, _, _, .done _ _, rfl, rfl⟩
  | become _ ih =>
    obtain ⟨τ, o, hc⟩ := ih
    exact ⟨τ, o, _, _, .done _ _, Job.comes_iff.2 hc⟩
  | @ask q k hq _ ih =>
    obtain ⟨a⟩ := q.nonempty_answer
    obtain ⟨τ, o, r, τ₁, hk, hr⟩ := ih a
    exact ⟨_, o, r, τ₁, .answered hq rfl hk, hr⟩

namespace Machine

theorem Proceeds.completes {x : Act (Except Failure Next)} {θ : Thread} (h : Proceeds ⟨x, []⟩ τ θ)
    (hx : Completes x) : ∃ y, θ = ⟨y, []⟩ ∧ Completes y := by
  cases h with
  | waits => exact ⟨x, rfl, hx⟩
  | turns ht =>
    cases ht with
    | becomes =>
      cases hx with
      | become hj => exact ⟨_, rfl, hj⟩
    | performs =>
      cases hx with
      | ask hq _ => cases hq
  | answered _ =>
    cases hx with
    | ask _ hk => exact ⟨_, rfl, hk _⟩

theorem Leads.completes {x : Act (Except Failure Next)} {θ : Thread} (h : Leads ⟨x, []⟩ τ θ)
    (hx : Completes x) : ∃ y, θ = ⟨y, []⟩ ∧ Completes y := by
  induction h with
  | refl => exact ⟨x, rfl, hx⟩
  | snoc _ hp ih =>
    obtain ⟨y, rfl, hy⟩ := ih
    exact hp.completes hy

/-- Where a task stands that asks for something, it can go on to an end with any answer. -/
theorem Leads.comes_ask {x : Act (Except Failure Next)} {q : Request}
    {k : q.Answer → Act (Except Failure Next)} {ks : List (Outcome → Act (Except Failure Next))}
    (h : Leads ⟨x, []⟩ τ ⟨.ask q k, ks⟩) (hx : Completes x) :
    ∃ (a : q.Answer) (τ' : List Answered) (o : Outcome),
      Eval.Comes recorded x (τ ++ ⟨q, a⟩ :: τ') o [] := by
  obtain ⟨y, hy, hc⟩ := h.completes hx
  cases hy
  cases hc with
  | ask hq hk =>
    obtain ⟨a⟩ := q.nonempty_answer
    obtain ⟨τ', o, r, τ₁, hr, hend⟩ := (hk a).comes
    exact ⟨a, τ', o, h.comes ⟨r, τ₁, .answered hq rfl hr, hend⟩⟩

/-- What a task asks for stands among the answers it can come to an end with, behind those it has been
given. -/
theorem Recounts.comes_ask {m last : Machine} {J : Journal} {t : TaskId} {origin : Option Location}
    {x : Act (Except Failure Next)} {q : Request} {k : q.Answer → Act (Except Failure Next)}
    {ks : List (Outcome → Act (Except Failure Next))} (h : m.Recounts J last) (ho : m.Orderly)
    (hs : m.stand t = some ⟨origin, some ⟨x, []⟩, none⟩) (hx : Completes x)
    (hat : last.At t ⟨.ask q k, ks⟩) :
    ∃ (τ : List Answered) (a : q.Answer) (τ' : List Answered) (o : Outcome),
      Eval.Comes recorded x (τ ++ ⟨q, a⟩ :: τ') o [] ∧
        J.answersTo t = Concatenative.told τ := by
  obtain ⟨τ, hcourse, hJ⟩ := h.course ho (.aside hs rfl) hs
  cases hcourse with
  | ended _ hres =>
    -- Who asks has not come to anything.
    obtain ⟨s', hs', hn⟩ := hat.result (h.orderly ho)
    rw [result?_eq, hs'] at hres
    cases hn.symm.trans hres
  | underway hat' hleads =>
    cases hat'.unique hat (h.orderly ho)
    obtain ⟨a, τ', o, hc⟩ := hleads.comes_ask hx
    exact ⟨τ, a, τ', o, hc, hJ⟩

end Machine

/-! ## What is told of a map -/

theorem getElem?_starts {index i : Nat} {xs : List Value} {us : List TaskId} {a : Answered} :
    (starts l f index xs us)[i]? = some a ↔ ∃ element u, xs[i]? = some element ∧ us[i]? = some u ∧
      a = ⟨.spawn l (elementJob f element (index + i)), u⟩ := by
  simp only [starts, List.getElem?_zipWith_eq_some, List.getElem?_zipIdx]
  constructor
  · rintro ⟨p, u, hp, hu, rfl⟩
    obtain ⟨element, he, rfl⟩ := Option.map_eq_some_iff.1 hp
    exact ⟨element, u, he, hu, rfl⟩
  · rintro ⟨element, u, he, hu, rfl⟩
    exact ⟨_, u, Option.map_eq_some_iff.2 ⟨element, he, rfl⟩, hu, rfl⟩

theorem getElem?_waits {i : Nat} {us : List TaskId} {os : List Outcome} {a : Answered} :
    (waits us os)[i]? = some a ↔ ∃ u o, us[i]? = some u ∧ os[i]? = some o ∧
      a = ⟨.await u, o⟩ := by
  rw [waits, List.getElem?_zipWith_eq_some]
  constructor
  · rintro ⟨u, o, hu, ho, rfl⟩
    exact ⟨u, o, hu, ho, rfl⟩
  · rintro ⟨u, o, hu, ho, rfl⟩
    exact ⟨u, o, hu, ho, rfl⟩

theorem isGiveWay_of_mem_starts {index : Nat} {xs : List Value} {us : List TaskId} {a : Answered}
    (ha : a ∈ starts l f index xs us) : a.1.isGiveWay = false := by
  obtain ⟨i, hi⟩ := List.mem_iff_getElem?.1 ha
  obtain ⟨_, _, _, _, rfl⟩ := getElem?_starts.1 hi
  rfl

theorem isGiveWay_of_mem_waits {us : List TaskId} {os : List Outcome} {a : Answered}
    (ha : a ∈ waits us os) : a.1.isGiveWay = false := by
  obtain ⟨i, hi⟩ := List.mem_iff_getElem?.1 ha
  obtain ⟨_, _, _, _, rfl⟩ := getElem?_waits.1 hi
  rfl

theorem eq_of_mem_wait {d : Deferred} {o : Outcome} {a : Answered} (ha : a ∈ d.wait o) :
    ∃ u, d = .pending u ∧ a = ⟨.await u, o⟩ := by
  cases d with
  | pending u => exact ⟨u, rfl, List.mem_singleton.1 ha⟩
  | settled v => cases ha
  | rejected e => cases ha

/-! ## Maps in machines -/

theorem Failure.location_orAt (e : Failure) (l : Location) :
    ∃ l', (e.orAt l).location = some l' := by
  unfold Failure.orAt
  split
  · next l' he => exact ⟨l', he⟩
  · exact ⟨l, rfl⟩

/-- A failure that a place was blamed for is passed on as it is. -/
theorem Stand.close_orAt {o : Outcome} {e : Failure} (s : Stand) (h : o.orAt l = .error e) :
    s.close (.error e) = .error e := by
  cases o with
  | ok v => cases h
  | error e₀ =>
    cases h
    obtain ⟨l', hl'⟩ := e₀.location_orAt l
    unfold Stand.close
    split
    · exact congrArg Except.error (Failure.orAt_located hl' _)
    · rfl

theorem Stand.close_ok (s : Stand) (v : Value) : s.close (.ok v) = .ok v := by
  unfold Stand.close
  split <;> rfl

namespace Machine

/-- What an operand came to that was given to a task of machine `m`. -/
structure Operand (m last : Machine) (d : Deferred) (o : Outcome) : Prop where
  known : ∀ o', d.known? = some o' → o = o'
  found : ∀ u < m.tasks.size, d = .pending u → last.result? u = some o

/-- Task `t` came to `r` by way of the elements of a list: `us` are the tasks that it started for them
and `os` what these came to. -/
structure MapsEach (m last : Machine) (J : Journal) (t : TaskId) (l : Location) (f : Value)
    (xs : List Value) (before : List Answered) (us : List TaskId) (os : List Outcome)
    (r : Outcome) : Prop where
  started : us.length = xs.length
  waited : os.length = us.length
  /-- It started one task for every element, in order, and then waited for all of them. -/
  answers : J.answersTo t = before ++ (starts l f 0 xs us ++ waits us os)
  /-- The tasks are new and different from one another. -/
  fresh : us.Pairwise (· < ·) ∧ ∀ u ∈ us, m.tasks.size ≤ u
  /-- Every one of them has ended. -/
  settled : ∀ (i : Nat) (u : TaskId) (o : Outcome), us[i]? = some u → os[i]? = some o →
    last.result? u = some o
  /-- What it came to, the call for the element comes to by what the task was answered. -/
  forced : ∀ (i : Nat) (element : Value) (u : TaskId) (o : Outcome), xs[i]? = some element →
    us[i]? = some u → os[i]? = some o → ∃ τ o', J.answersTo u = told τ ∧
      (elementJob f element i).Comes recorded τ o' [] ∧ o = o'.orAt l
  /-- If all have a value, the list of the values is what the map comes to. -/
  values : ∀ vs : List Value, os = vs.map .ok → r = .ok (.list vs)
  /-- Otherwise it is the failure of the first element in order that has failed. -/
  failure : ∀ (i : Nat) (e : Failure), os[i]? = some (.error e) →
    (∀ j < i, ∃ v, os[j]? = some (.ok v)) → r = .error e

/-- How task `t` that maps came to `r`. -/
inductive Mapped (m last : Machine) (J : Journal) (t : TaskId) (l : Location) (items d : Deferred)
    (origin : Option Location) (r : Outcome) : Prop
  /-- An operand failed, or there was no list, and nothing was started. -/
  | failed {x y : Outcome} {e : Failure} : m.Operand last items x → m.Operand last d y →
      mapOperands x y = .error e → J.answersTo t = items.wait x ++ d.wait y →
      r = Stand.close ⟨origin, none, none⟩ (.error e) → Mapped m last J t l items d origin r
  | mapped {x y : Outcome} {xs : List Value} {f : Value} {us : List TaskId} {os : List Outcome} :
      m.Operand last items x → m.Operand last d y → mapOperands x y = .ok (xs, f) →
      m.MapsEach last J t l f xs (items.wait x ++ d.wait y) us os r →
      Mapped m last J t l items d origin r

variable {m last : Machine} {J : Journal} {t : TaskId} {items d : Deferred}
  {origin : Option Location} {r : Outcome}

theorem operand_of_mem {o : Outcome} (h : m.Recounts J last) (ho : m.Orderly)
    (hknown : ∀ o', d.known? = some o' → o = o') (hmem : d.wait o ⊆ J.answersTo t) :
    m.Operand last d o := by
  refine ⟨hknown, ?_⟩
  rintro u hu rfl
  exact h.awaited ho (hmem (List.mem_singleton.2 rfl)) hu

/-- What the answers of a task that maps say of the elements. -/
theorem mapsEach_of_answers {xs : List Value} {before : List Answered} {us : List TaskId}
    {os : List Outcome} {s : Stand} (h : m.Recounts J last) (ho : m.Orderly)
    (hlen : us.length = xs.length) (hlen' : os.length = us.length)
    (hJ : J.answersTo t = before ++ (starts l f 0 xs us ++ waits us os))
    (hr : r = s.close (gathered os)) : m.MapsEach last J t l f xs before us os r := by
  -- The answer that started the task of an element, with the answers behind it.
  have hsplit : ∀ i (element : Value) u, xs[i]? = some element → us[i]? = some u →
      ∃ τ, J.answersTo t = τ ++ ⟨.spawn l (elementJob f element i), u⟩ ::
        ((starts l f 0 xs us).drop (i + 1) ++ waits us os) := by
    intro i element u hx hu
    have hi : (starts l f 0 xs us)[i]? = some ⟨.spawn l (elementJob f element i), u⟩ :=
      getElem?_starts.2 ⟨element, u, hx, hu, by rw [Nat.zero_add]⟩
    obtain ⟨hlt, he⟩ := List.getElem?_eq_some_iff.1 hi
    refine ⟨before ++ (starts l f 0 xs us).take i, ?_⟩
    conv_lhs => rw [hJ, ← List.take_append_drop i (starts l f 0 xs us), List.drop_eq_getElem_cons hlt, he]
    simp
  have helement : ∀ {i : Nat} {u : TaskId}, us[i]? = some u → ∃ element, xs[i]? = some element := by
    intro i u hu
    have hlt := (List.getElem?_eq_some_iff.1 hu).1
    exact ⟨_, List.getElem?_eq_getElem (hlen ▸ hlt)⟩
  have hend : ∀ i (element : Value) u o, xs[i]? = some element → us[i]? = some u →
      os[i]? = some o → last.result? u = some o ∧ ∃ τ o', J.answersTo u = told τ ∧
        (elementJob f element i).Comes recorded τ o' [] ∧ o = o'.orAt l := by
    intro i element u o hx hu ho'
    obtain ⟨τ, hτ⟩ := hsplit i element u hx hu
    refine h.spawned_awaited ho hτ (List.mem_append_right _ ?_)
    exact List.mem_iff_getElem?.2 ⟨i, getElem?_waits.2 ⟨u, o, hu, ho', rfl⟩⟩
  refine ⟨hlen, hlen', hJ, ⟨?_, fun u hu => ?_⟩, fun i u o hu ho' => ?_,
    fun i element u o hx hu ho' => (hend i element u o hx hu ho').2, fun vs hvs => ?_,
    fun i e he hbefore => ?_⟩
  · refine List.pairwise_iff_getElem.2 fun i j hi hj hij => ?_
    obtain ⟨element, hx⟩ := helement (List.getElem?_eq_getElem hi)
    obtain ⟨element', hx'⟩ := helement (List.getElem?_eq_getElem hj)
    obtain ⟨τ, hτ⟩ := hsplit i element _ hx (List.getElem?_eq_getElem hi)
    have hmem : ⟨.spawn l (elementJob f element' j), us[j]⟩ ∈ (starts l f 0 xs us).drop (i + 1) := by
      refine List.mem_iff_getElem?.2 ⟨j - (i + 1), ?_⟩
      rw [List.getElem?_drop, Nat.add_sub_cancel' hij]
      exact getElem?_starts.2 ⟨element', _, hx', List.getElem?_eq_getElem hj, by rw [Nat.zero_add]⟩
    exact h.spawned_lt ho hτ (List.mem_append_left _ hmem)
  · obtain ⟨i, hi⟩ := List.mem_iff_getElem?.1 hu
    obtain ⟨element, hx⟩ := helement hi
    obtain ⟨τ, hτ⟩ := hsplit i element u hx hi
    obtain ⟨_, _, _, _, _, _, hle, _⟩ := h.spawned ho hτ
    exact hle
  · obtain ⟨element, hx⟩ := helement hu
    exact (hend i element u o hx hu ho').1
  · rw [hr, hvs, gathered_values, Stand.close_ok]
  · have hlt := (List.getElem?_eq_some_iff.1 he).1
    have hu : us[i]? = some us[i] := List.getElem?_eq_getElem (hlen' ▸ hlt)
    obtain ⟨element, hx⟩ := helement hu
    obtain ⟨_, _, o', _, _, ho'⟩ := hend i element _ _ hx hu he
    rw [hr, gathered_failure he hbefore]
    exact s.close_orAt ho'.symm

/-- An element of what is put together of two lists is one of the first, or comes after all of it. -/
theorem mem_or_mem_of_append_eq {α : Type} {as bs cs ds : List α} {a : α}
    (h : as ++ a :: bs = cs ++ ds) : a ∈ cs ∨ cs ⊆ as ∧ a ∈ ds := by
  rcases List.append_eq_append_iff.1 h with ⟨es, rfl, he⟩ | ⟨es, rfl, he⟩
  · cases es with
    | nil =>
      cases he
      exact .inr ⟨by simp, List.mem_cons_self⟩
    | cons e es =>
      cases he
      exact .inl (List.mem_append_right _ List.mem_cons_self)
  · exact .inr ⟨List.subset_append_left _ _, he ▸ List.mem_append_right _ List.mem_cons_self⟩

section Runs

variable (h : m.Recounts J last) (ho : m.Orderly)
  (hs : m.stand t = some ⟨origin, some (Job.map l items d).thread, none⟩)

include h ho hs

theorem mapped_of_result (hres : last.result? t = some r) :
    m.Mapped last J t l items d origin r := by
  obtain ⟨τ, o, hc, hJ, hr⟩ := comes_told h ho (.aside hs rfl) hs hres
  obtain ⟨x, y, hx, hy, hcases⟩ := comes_map (Thread.comes_job.1 hc)
  have hwaits : ∀ a ∈ items.wait x ++ d.wait y, a.1.isGiveWay = false := by
    intro a ha
    rcases List.mem_append.1 ha with ha | ha
    · obtain ⟨u, _, rfl⟩ := eq_of_mem_wait ha
      rfl
    · obtain ⟨u, _, rfl⟩ := eq_of_mem_wait ha
      rfl
  rcases hcases with ⟨e, hop, rfl, rfl⟩ | ⟨xs, f, us, os, hop, hlen, hlen', rfl, rfl⟩
  · rw [told_eq_self hwaits] at hJ
    have hleft : items.wait x ⊆ J.answersTo t := hJ ▸ List.subset_append_left _ _
    have hright : d.wait y ⊆ J.answersTo t := hJ ▸ List.subset_append_right _ _
    exact .failed (operand_of_mem h ho hx hleft) (operand_of_mem h ho hy hright) hop hJ hr
  · have hall : ∀ a ∈ items.wait x ++ d.wait y ++ (starts l f 0 xs us ++ waits us os),
        a.1.isGiveWay = false := by
      intro a ha
      rcases List.mem_append.1 ha with ha | ha
      · exact hwaits a ha
      · exact (List.mem_append.1 ha).elim isGiveWay_of_mem_starts isGiveWay_of_mem_waits
    rw [told_eq_self hall] at hJ
    have hbefore : items.wait x ++ d.wait y ⊆ J.answersTo t := hJ ▸ List.subset_append_left _ _
    have hleft : items.wait x ⊆ J.answersTo t := fun a ha => hbefore (List.mem_append_left _ ha)
    have hright : d.wait y ⊆ J.answersTo t := fun a ha => hbefore (List.mem_append_right _ ha)
    exact .mapped (operand_of_mem h ho hx hleft) (operand_of_mem h ho hy hright) hop
      (mapsEach_of_answers h ho hlen hlen' hJ hr)

/-- What a task that maps asks for: what an operand comes to, or what a task comes to that it has
started, and never a module. -/
theorem asks_of_map {q : Request} {k : q.Answer → Act (Except Failure Next)}
    {ks : List (Outcome → Act (Except Failure Next))} (hat : last.At t ⟨.ask q k, ks⟩) :
    (∃ l job, q = .spawn l job) ∨ ∃ u, q = .await u ∧ (items = .pending u ∨ d = .pending u ∨
      ∃ f element i, ⟨.spawn l (elementJob f element i), u⟩ ∈ J.answersTo t) := by
  obtain ⟨τ, a, τ', o, hc, hJ⟩ := h.comes_ask ho hs (completes_map items d) hat
  obtain ⟨x, y, _, _, hcases⟩ := comes_map (Job.comes_iff.2 hc)
  have hoperand : ∀ a, ⟨q, a⟩ ∈ items.wait x ++ d.wait y →
      ∃ u, q = .await u ∧ (items = .pending u ∨ d = .pending u) := by
    intro a ha
    rcases List.mem_append.1 ha with ha | ha
    · obtain ⟨u, hu, he⟩ := eq_of_mem_wait ha
      cases he
      exact ⟨u, rfl, .inl hu⟩
    · obtain ⟨u, hu, he⟩ := eq_of_mem_wait ha
      cases he
      exact ⟨u, rfl, .inr hu⟩
  -- A task that is waited for stands behind all the starts, so its own start has been answered.
  rcases hcases with ⟨e, _, hτ, _⟩ | ⟨xs, f, us, os, _, hlen, _, hτ, _⟩
  · obtain ⟨u, rfl, hu⟩ := hoperand a (hτ ▸ List.mem_append_right _ List.mem_cons_self)
    exact .inr ⟨u, rfl, hu.imp_right .inl⟩
  · rw [← List.append_assoc] at hτ
    rcases mem_or_mem_of_append_eq hτ with hfront | ⟨hsub, hmem⟩
    · rcases List.mem_append.1 hfront with hmem | hmem
      · obtain ⟨u, rfl, hu⟩ := hoperand a hmem
        exact .inr ⟨u, rfl, hu.imp_right .inl⟩
      · obtain ⟨i, hi⟩ := List.mem_iff_getElem?.1 hmem
        obtain ⟨element, u, _, _, he⟩ := getElem?_starts.1 hi
        cases he
        exact .inl ⟨_, _, rfl⟩
    · obtain ⟨i, hi⟩ := List.mem_iff_getElem?.1 hmem
      obtain ⟨u, o, hu, _, he⟩ := getElem?_waits.1 hi
      cases he
      have hlt := (List.getElem?_eq_some_iff.1 hu).1
      have hx : xs[i]? = some xs[i] := List.getElem?_eq_getElem (hlen ▸ hlt)
      have hstart : ⟨.spawn l (elementJob f xs[i] (0 + i)), u⟩ ∈ starts l f 0 xs us :=
        List.mem_iff_getElem?.2 ⟨i, getElem?_starts.2 ⟨_, u, hx, hu, rfl⟩⟩
      refine .inr ⟨u, rfl, .inr (.inr ⟨f, xs[i], 0 + i, ?_⟩)⟩
      rw [hJ]
      exact List.mem_filter.2 ⟨hsub (List.mem_append_right _ hstart), rfl⟩

end Runs

end Machine

open Machine in
/-- A task maps a list, in whatever order the tasks run. If it has come to something, it has done so by
its operands and then by one task for each element, all of which were started before it waited for any
and all of which have ended; it has come to the list of their values in the order of the elements, or to
the failure of the first one in this order that has failed. It ends unless an operand or one of these
tasks does not. -/
theorem map_keeps_order {m last : Machine} {t : TaskId} {origin : Option Location} {l : Location}
    {items d : Deferred} {log : List Asked} (hm : m.Arises)
    (hs : m.stand t = some ⟨origin, some (Job.map l items d).thread, none⟩)
    (hr : Runs m log last) :
    ∃ J, m.Recounts J last ∧
      (∀ r, last.result? t = some r → m.Mapped last J t l items d origin r) ∧
      (last.step = .idle last → last.result? t = none → ∃ u, last.result? u = none ∧
        (items = .pending u ∨ d = .pending u ∨
          ∃ f element i, ⟨.spawn l (elementJob f element i), u⟩ ∈ J.answersTo t)) := by
  obtain ⟨ho, _⟩ := hm.orderly
  obtain ⟨J, h, _⟩ := recounts_runs hr
  refine ⟨J, h, fun r hres => mapped_of_result h ho hs hres, fun hidle hn => ?_⟩
  have hlt : t < last.tasks.size := Nat.lt_of_lt_of_le (stand_lt hs) (h.size_le ho)
  rcases (hm.runs hr).wakeful.waits_of_idle hidle hlt hn with ⟨u, ⟨k, ks, hat⟩, hu⟩ | ⟨p, k, ks, hat⟩
  · rcases asks_of_map h ho hs hat with ⟨_, _, he⟩ | ⟨u', he, hu'⟩
    · cases he
    · cases he
      exact ⟨u, hu, hu'⟩
  · rcases asks_of_map h ho hs hat with ⟨_, _, he⟩ | ⟨u', he, hu'⟩
    · cases he
    · cases he

/-- Two numbers are mapped to their sums with their places in the list. -/
def sums : Machine :=
  (Machine.addTask {} none (.map (.start "map") (.settled (.list [.int 10, .int 20]))
    (.settled (.callable (.host .sum))))).2

theorem map_keeps_order_sum :
    (sums.runAll 20 {}).1.result? 0 = some (.ok (.list [.int 10, .int 21])) ∧
      ∃ J, sums.Recounts J (sums.runAll 20 {}).1 ∧
        sums.Mapped (sums.runAll 20 {}).1 J 0 (.start "map") (.settled (.list [.int 10, .int 20]))
          (.settled (.callable (.host .sum))) none (.ok (.list [.int 10, .int 21])) := by
  obtain ⟨log, hr, _⟩ := sums.runs_runAll 20 {}
  have hres : (sums.runAll 20 {}).1.result? 0 = some (.ok (.list [.int 10, .int 21])) := by cbv
  have hm : sums.Arises := .starts none _ (.new rfl rfl rfl rfl rfl)
  have hs : sums.stand 0 = some ⟨none, some (Job.map (.start "map")
      (.settled (.list [.int 10, .int 20])) (.settled (.callable (.host .sum)))).thread, none⟩ := rfl
  obtain ⟨J, h, hmapped, _⟩ := map_keeps_order hm hs hr
  exact ⟨hres, J, h, hmapped _ hres⟩

end Concatenative
