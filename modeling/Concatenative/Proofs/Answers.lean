import Concatenative.Proofs.Journal
import Mathlib.Data.List.Nodup

/-! What a task was answered in the course of a run. The journal of a run holds the answers of all
tasks; those of one task, first first, are what its job makes of them. Main statements: a task that came
to something did so by just the answers that the journal tells of it (`comes_told`), and each of them was
given in a machine that the entries before it led to (`Recounts.told`). -/
namespace Concatenative

/-- The answer that an entry tells of a task. -/
def Entry.answerTo? (t : TaskId) : Entry → Option Answered
  | .answered u q a => if u = t then some ⟨q, a⟩ else none
  | _ => none

/-- The answers that a task was given, first first. -/
def Journal.answersTo (J : Journal) (t : TaskId) : List Answered :=
  J.reverse.filterMap (Entry.answerTo? t)

def Request.isGiveWay : Request → Bool
  | giveWay => true
  | _ => false

/-- To give way is answered, but it is not told. -/
def told (τ : List Answered) : List Answered := τ.filter fun a => !a.1.isGiveWay

theorem told_append (τ τ' : List Answered) : told (τ ++ τ') = told τ ++ told τ' := List.filter_append ..

theorem told_eq_self {τ : List Answered} (h : ∀ a ∈ τ, a.1.isGiveWay = false) : told τ = τ :=
  List.filter_eq_self.2 fun a ha => by rw [h a ha]; rfl

namespace Journal

variable {J J' : Journal} {t u : TaskId}

theorem answersTo_append : answersTo (J' ++ J) t = answersTo J t ++ answersTo J' t := by
  simp [answersTo]

theorem answersTo_answered {q : Request} {a : q.Answer} :
    answersTo [.answered u q a] t = if u = t then [⟨q, a⟩] else [] := by
  simp only [answersTo, List.reverse_singleton, List.filterMap_cons, Entry.answerTo?]
  split <;> simp_all

/-- Each answer has its place in the journal. -/
theorem split_of_answersTo {q : Request} {a : q.Answer} {τ τ' : List Answered}
    (h : J.answersTo t = τ ++ ⟨q, a⟩ :: τ') :
    ∃ J₁ J₂, J = J₂ ++ .answered t q a :: J₁ ∧ answersTo J₁ t = τ ∧ answersTo J₂ t = τ' := by
  obtain ⟨front, back, hJ, hfront, hback⟩ := List.filterMap_eq_append_iff.1 h
  obtain ⟨idle, e, rest, rfl, hidle, he, hrest⟩ := List.filterMap_eq_cons_iff.1 hback
  have hnone : idle.filterMap (Entry.answerTo? t) = [] := List.filterMap_eq_nil_iff.2 hidle
  have he' : e = .answered t q a := by
    cases e with
    | answered u q' a' =>
      simp only [Entry.answerTo?] at he
      split at he
      · next hu =>
        subst hu
        cases he
        rfl
      · cases he
    | _ => cases he
  subst he'
  refine ⟨(front ++ idle).reverse, rest.reverse, ?_, ?_, ?_⟩
  · rw [← J.reverse_reverse, hJ]
    simp
  · rw [answersTo, List.reverse_reverse, List.filterMap_append, hfront, hnone, List.append_nil]
  · rw [answersTo, List.reverse_reverse, hrest]

end Journal

namespace Machine

variable {m m₁ m' last : Machine} {t u : TaskId} {θ θ' : Thread} {log : List Asked} {J J' : Journal}
  {es : List Entry} {e : Entry}

/-! ## Moves -/

theorem Recounts.orderly (h : m.Recounts J m') (ho : m.Orderly) : m'.Orderly := by
  induction h with
  | refl => exact ho
  | snoc _ ht ih =>
    obtain ⟨log, hc⟩ := ht.change
    exact ih.change hc

/-- What was told was told in a machine that the entries before it led to. -/
theorem Recounts.told (h : m.Recounts (J' ++ e :: J) last) :
    ∃ m₁ m₂, m.Recounts J m₁ ∧ m₁.Tells [e] m₂ ∧ m₂.Recounts J' last := by
  generalize hall : J' ++ e :: J = all at h
  induction h generalizing J' with
  | refl => simp at hall
  | @snoc J₁ es m₁ m₂ hprev ht ih =>
    rcases ht.one with rfl | ⟨e', rfl⟩
    · obtain ⟨m₃, m₄, h₁, h₂, h₃⟩ := ih hall
      exact ⟨m₃, m₄, h₁, h₂, .snoc h₃ ht⟩
    · cases J' with
      | nil =>
        obtain ⟨rfl, rfl⟩ := List.cons.inj hall
        exact ⟨m₁, m₂, hprev, ht, .refl⟩
      | cons e'' J' =>
        obtain ⟨rfl, hrest⟩ := List.cons.inj hall
        obtain ⟨m₃, m₄, h₁, h₂, h₃⟩ := ih hrest
        exact ⟨m₃, m₄, h₁, h₂, .snoc h₃ ht⟩

/-- The thread that reads a file is the one that its entry goes on with. -/
theorem At.eq_of_reading {r : Reading} (h : m.At r.task θ) (ho : m.Orderly) (hr : r ∈ m.reading) :
    ∃ k ks, θ = ⟨.ask (.world (.content r.path)) k, ks⟩ ∧ r.resume = fun a => ⟨k a, ks⟩ := by
  have hmem : r.task ∈ m.readers := List.mem_map.2 ⟨r, hr, rfl⟩
  cases h with
  | running hrun => exact absurd hmem (ho.running _ _ hrun).1
  | aside hs hθ =>
    obtain ⟨task, ht, rfl⟩ := Option.map_eq_some_iff.1 hs
    have hne : task.thread ≠ none := by
      rw [show task.thread = some θ from hθ]
      exact Option.some_ne_none θ
    exact absurd hmem (ho.aside _ task ht hne).2
  | reading hread =>
    have he := List.inj_on_of_nodup_map ho.nodup hr hread rfl
    rw [he]
    exact ⟨_, _, rfl, rfl⟩

theorem At.eq_of_mem_reading {path : Path} {k : Except ReadFault String → Act (Except Failure Next)}
    {ks : List (Outcome → Act (Except Failure Next))} (h : m.At t θ) (ho : m.Orderly)
    (hm : ⟨t, path, fun a => ⟨k a, ks⟩⟩ ∈ m.reading) :
    θ = ⟨.ask (.world (.content path)) k, ks⟩ := by
  obtain ⟨k', ks', rfl, hresume⟩ := h.eq_of_reading ho hm
  have hk : k = k' := funext fun a => congrArg Thread.act (congrFun hresume a)
  have hks : ks = ks' := congrArg Thread.pending (congrFun hresume (.ok ""))
  rw [hk, hks]

/-- A task that has not ended is at one place. -/
theorem At.unique (h : m.At t θ) (h' : m.At t θ') (ho : m.Orderly) : θ = θ' := by
  cases h' with
  | running hr => exact h.eq_of_running ho hr
  | reading hm => exact h.eq_of_mem_reading ho hm
  | aside hs hθ =>
    cases h with
    | running hr => exact ((At.aside hs hθ).eq_of_running ho hr).symm
    | reading hm => exact ((At.aside hs hθ).eq_of_mem_reading ho hm).symm
    | aside hs' hθ' =>
      cases hs.symm.trans hs'
      exact Option.some.inj (hθ'.symm.trans hθ)

theorem at_suspend {s : Stand} (hs : m.stand t = some s) (θ : Thread) : (m.suspend t θ).At t θ := by
  refine .aside (s := { s with thread := some θ }) ?_ rfl
  rw [stand_suspend, if_pos rfl, hs]
  rfl

theorem At.wake (h : m.At t θ) (woken : Option TaskId) : (m.wake woken).At t θ := by
  cases woken with
  | none => exact h
  | some u =>
    cases h with
    | running hr => exact .running hr
    | aside hs hθ => exact .aside hs hθ
    | reading hr => exact .reading hr

theorem Serves.isGiveWay {q : Request} {a : q.Answer} (hs : m.Serves t q log a m') :
    q.isGiveWay = false := by
  cases hs <;> rfl

/-- How a task goes on by what is told: by a turn or an answer of its own, by giving way, which is not
told, or not at all. -/
inductive GoesOn (t : TaskId) : Thread → List Entry → Thread → Prop
  | waits {θ : Thread} {es : List Entry} : (∀ e ∈ es, e.task? ≠ some t) → GoesOn t θ es θ
  | givesWay {k : Unit → Act (Except Failure Next)}
      {ks : List (Outcome → Act (Except Failure Next))} : GoesOn t ⟨.ask .giveWay k, ks⟩ [] ⟨k (), ks⟩
  | turns {θ θ' : Thread} {turn : Turn} : θ.Takes turn θ' → GoesOn t θ [.turned t turn] θ'
  | answered {q : Request} {k : q.Answer → Act (Except Failure Next)}
      {ks : List (Outcome → Act (Except Failure Next))} (a : q.Answer) : q.isPerform = false →
      q.isGiveWay = false → GoesOn t ⟨.ask q k, ks⟩ [.answered t q a] ⟨k a, ks⟩

theorem goesOn_nil (t : TaskId) (θ : Thread) : GoesOn t θ [] θ :=
  .waits fun _ he => absurd he List.not_mem_nil

/-- Whatever is told of another task leaves this one where it is. -/
theorem goesOn_of_ne {e : Entry} (he : e.task? = some u) (hu : u ≠ t) (θ : Thread) :
    GoesOn t θ [e] θ := by
  refine .waits fun e' he' ht => hu ?_
  rw [List.mem_singleton.1 he', he] at ht
  exact Option.some.inj ht

/-- What is told of a task is answers that it goes on with. -/
theorem GoesOn.proceeds (h : GoesOn t θ es θ') (hes : es = [] ∨ ∃ e, es = [e]) :
    ∃ τ, Proceeds θ τ θ' ∧ Journal.answersTo es t = Concatenative.told τ := by
  cases h with
  | waits hne =>
    refine ⟨[], .waits, ?_⟩
    rcases hes with rfl | ⟨e, rfl⟩
    · rfl
    · cases e with
      | answered u q a =>
        rw [Journal.answersTo_answered, if_neg]
        · rfl
        · rintro rfl
          exact hne _ (List.mem_singleton.2 rfl) rfl
      | _ => rfl
  | givesWay => exact ⟨_, .answered (q := .giveWay) (a := ()) rfl, rfl⟩
  | turns ht => exact ⟨[], .turns ht.turns, rfl⟩
  | @answered q _ _ a hperform hway =>
    refine ⟨_, .answered (a := a) hperform, ?_⟩
    rw [Journal.answersTo_answered, if_pos rfl, Concatenative.told, List.filter_cons, hway]
    rfl

/-- The running task has to wait, gives way or ends, and nothing is told of it. -/
theorem Goes.at_rests (hg : Goes { m with running := none } t θ log m') (ho : m.Orderly)
    (hr : m.running = some (t, θ)) (hrest : m'.running = none) :
    (∃ θ', GoesOn t θ [] θ' ∧ m'.At t θ') ∨ m.Closes t θ m' := by
  obtain ⟨_, task, ht, _⟩ := ho.running t θ hr
  have hs : stand { m with running := none } t = some task.stand := stand_eq ht
  have hg₀ := hg
  cases hg with
  | turns _ => cases hrest
  | served _ => cases hrest
  | awaits hc =>
    have hs' := ((ho.idle.reads_readCell hc).stand t).trans hs
    exact .inl ⟨_, goesOn_nil t _, at_suspend hs' _⟩
  | @claims _ _ _ library _ =>
    have hs' : stand { m with running := none, library } t = some task.stand := hs
    exact .inl ⟨_, goesOn_nil t _, at_suspend hs' _⟩
  | givesWay => exact .inl ⟨_, .givesWay, (at_suspend hs _).wake _⟩
  | reads =>
    exact .inl ⟨_, goesOn_nil t _, .reading (List.mem_append_right _ (List.mem_singleton.2 rfl))⟩
  | ends hover =>
    refine .inr ⟨_, task.stand, hover, hs, ?_⟩
    rw [stand_finish, if_pos rfl, hs]
    rfl

/-- A task goes on by what is told, or it ends and nothing is told. -/
theorem Tells.goesOn (h : m.Tells es m') (ho : m.Orderly) (hat : m.At t θ) :
    (∃ θ', GoesOn t θ es θ' ∧ m'.At t θ') ∨ m.Closes t θ m' ∧ es = [] := by
  cases h with
  | @turns u θ' θ'' turn hr ht =>
    by_cases hu : u = t
    · subst hu
      cases hat.eq_of_running ho hr
      exact .inl ⟨_, .turns ht, .running rfl⟩
    · exact .inl ⟨θ, goesOn_of_ne rfl hu θ, Goes.at_other (.turns ht.turns) ho hr hu hat⟩
  | @serves u q k ks log a m₁ hr hs =>
    by_cases hu : u = t
    · subst hu
      cases hat.eq_of_running ho hr
      exact .inl ⟨_, .answered a hs.isPerform hs.isGiveWay, .running rfl⟩
    · exact .inl ⟨θ, goesOn_of_ne rfl hu θ, Goes.at_other (.served hs) ho hr hu hat⟩
  | @rests u θ' _ _ hr hg hrest =>
    by_cases hu : u = t
    · subst hu
      cases hat.eq_of_running ho hr
      exact (hg.at_rests ho hr hrest).imp_right fun hclose => ⟨hclose, rfl⟩
    · exact .inl ⟨θ, goesOn_nil t θ, hg.at_other ho hr hu hat⟩
  | takes hr _ _ => exact .inl ⟨θ, goesOn_nil t θ, hat.take hr⟩
  | @reads r front back a hr hm =>
    have hmem : r ∈ m.reading := hm ▸ List.mem_append_right _ List.mem_cons_self
    by_cases hu : r.task = t
    · subst hu
      obtain ⟨k, ks, rfl, hresume⟩ := hat.eq_of_reading ho hmem
      rw [hresume]
      exact .inl ⟨_, .answered (q := .world (.content r.path)) a rfl rfl, .running rfl⟩
    · refine .inl ⟨θ, goesOn_of_ne rfl hu θ, ?_⟩
      cases hat with
      | running hr' => cases hr.symm.trans hr'
      | aside hs hθ => exact .aside hs hθ
      | reading hread =>
        exact .reading (mem_of_taken hm hread fun he => hu (congrArg Reading.task he).symm)

/-- A task that has ended is answered nothing. -/
theorem Tells.answersTo_of_result {r : Outcome} (h : m.Tells es m') (ho : m.Orderly)
    (hres : m.result? t = some r) : Journal.answersTo es t = [] := by
  have hne : ∀ task : Task, m.tasks[t]? = some task → task.cell.result ≠ none := by
    intro task ht hn
    rw [result?, ht] at hres
    cases hn.symm.trans hres
  cases h with
  | turns _ _ => rfl
  | serves hr hs =>
    rw [Journal.answersTo_answered, if_neg]
    rintro rfl
    obtain ⟨_, task, ht, _, hn⟩ := ho.running _ _ hr
    exact hne task ht hn
  | rests _ _ _ => rfl
  | takes _ _ _ => rfl
  | @reads r front back a hr hm =>
    rw [Journal.answersTo_answered, if_neg]
    rintro rfl
    obtain ⟨task, ht, _, hn⟩ := ho.reading r.task (by simp [readers, hm])
    exact hne task ht hn

theorem Recounts.keeps_stand {s : Stand} (h : m.Recounts J m') (ho : m.Orderly)
    (hs : m.stand u = some s) :
    ∃ s', m'.stand u = some s' ∧ s'.origin = s.origin ∧ ∀ r, s.result = some r → s'.result = some r := by
  induction h with
  | refl => exact ⟨s, hs, rfl, fun _ => id⟩
  | snoc hprev ht ih =>
    obtain ⟨s₁, hs₁, horigin, hkeep⟩ := ih
    obtain ⟨log, hc⟩ := ht.change
    obtain ⟨s₂, hs₂, horigin', hkeep'⟩ := hc.keeps_stand (hprev.orderly ho) hs₁
    exact ⟨s₂, hs₂, horigin'.trans horigin, fun r hr => hkeep' r (hkeep r hr)⟩

theorem Recounts.result? {r : Outcome} (h : m.Recounts J m') (ho : m.Orderly)
    (hres : m.result? u = some r) : m'.result? u = some r := by
  rw [result?_eq] at hres ⊢
  obtain ⟨s, hs, hr⟩ := Option.bind_eq_some_iff.1 hres
  obtain ⟨s', hs', _, hkeep⟩ := h.keeps_stand ho hs
  rw [hs']
  exact hkeep r hr

/-! ## Runs -/

/-- A task goes on, answer by answer. -/
inductive Leads (θ : Thread) : List Answered → Thread → Prop
  | refl : Leads θ [] θ
  | snoc {τ τ' : List Answered} {θ' θ'' : Thread} : Leads θ τ θ' → Proceeds θ' τ' θ'' →
      Leads θ (τ ++ τ') θ''

theorem Leads.comes {τ τ' : List Answered} {o : Outcome} (h : Leads θ τ θ')
    (hc : θ'.Comes recorded τ' o []) : θ.Comes recorded (τ ++ τ') o [] := by
  induction h generalizing τ' with
  | refl => exact hc
  | snoc _ hp ih =>
    rw [List.append_assoc]
    exact ih (hp.comes hc)

/-- How far a task has come by its answers: it goes on somewhere, or it has come to something. -/
inductive Course (m : Machine) (t : TaskId) (s : Stand) (θ : Thread) (τ : List Answered) : Prop
  | underway {θ' : Thread} : m.At t θ' → Leads θ τ θ' → Course m t s θ τ
  | ended {o : Outcome} : θ.Comes recorded τ o [] → m.result? t = some (s.close o) → Course m t s θ τ

theorem Recounts.course {s : Stand} (h : m.Recounts J m') (ho : m.Orderly) (hat : m.At t θ)
    (hs : m.stand t = some s) :
    ∃ τ, m'.Course t s θ τ ∧ J.answersTo t = Concatenative.told τ := by
  induction h with
  | refl => exact ⟨[], .underway hat .refl, rfl⟩
  | @snoc J es m₁ m₂ hprev ht ih =>
    obtain ⟨τ, hcourse, hτ⟩ := ih
    have ho₁ := hprev.orderly ho
    rw [Journal.answersTo_append, hτ]
    cases hcourse with
    | @underway θ' hat' hleads =>
      obtain ⟨θ'', hgoes, hat''⟩ | ⟨⟨o, s', hover, hs', hend⟩, rfl⟩ := ht.goesOn ho₁ hat'
      · obtain ⟨τ', hp, hτ'⟩ := hgoes.proceeds ht.one
        refine ⟨τ ++ τ', .underway hat'' (.snoc hleads hp), ?_⟩
        rw [hτ', told_append]
      · obtain ⟨s₁, hs₁, horigin, _⟩ := hprev.keeps_stand ho hs
        rw [hs₁] at hs'
        cases hs'
        refine ⟨τ, .ended (o := o) ?_ ?_, List.append_nil _⟩
        · have hc := hleads.comes (Thread.comes_over hover [])
          rwa [List.append_nil] at hc
        · rw [result?_eq, hend, Stand.close, Stand.close, horigin]
          rfl
    | ended hc hres =>
      refine ⟨τ, .ended hc (Recounts.result? (.snoc .refl ht) ho₁ hres), ?_⟩
      rw [ht.answersTo_of_result ho₁ hres, List.append_nil]

/-- What a task came to, its thread comes to with the answers that are told of it. -/
theorem comes_told {s : Stand} {r : Outcome} (h : m.Recounts J last) (ho : m.Orderly)
    (hat : m.At t θ) (hs : m.stand t = some s) (hres : last.result? t = some r) :
    ∃ τ o, θ.Comes recorded τ o [] ∧ J.answersTo t = Concatenative.told τ ∧ r = s.close o := by
  obtain ⟨τ, hcourse, hτ⟩ := h.course ho hat hs
  cases hcourse with
  | underway hat' _ =>
    obtain ⟨s', hs', hn⟩ := hat'.result (h.orderly ho)
    rw [result?_eq, hs'] at hres
    cases hn.symm.trans hres
  | ended hc hres' =>
    rw [hres'] at hres
    cases hres
    exact ⟨τ, _, hc, hτ, rfl⟩

/-! ## Jobs that are started and waited for -/

/-- A task that is started is a new one. -/
theorem Tells.spawned {l : Location} {job : Job} (h : m.Tells [.answered t (.spawn l job) u] m') :
    u = m.tasks.size ∧ m'.tasks.size = m.tasks.size + 1 ∧
      m'.stand u = some ⟨some l, some job.thread, none⟩ := by
  cases h with
  | serves hr hs =>
    cases hs
    refine ⟨rfl, Array.size_push _, ?_⟩
    exact stand_addTask_self { m with running := none } (some l) job

/-- Whoever waits for a task is given what it came to. -/
theorem Tells.awaited {o : Outcome} (h : m.Tells [.answered t (.await u) o] m') (ho : m.Orderly)
    (hu : u < m.tasks.size) : m.result? u = some o := by
  cases h with
  | serves hr hs =>
    cases hs with
    | await hread =>
      have hs : stand { m with running := none } u = some m.tasks[u].stand :=
        stand_eq (Array.getElem?_eq_getElem hu)
      rw [result?_eq, show m.stand u = _ from hs]
      exact (ho.idle.reads_readCell hread).found _ o hs rfl

theorem Recounts.size_le (h : m.Recounts J m') (ho : m.Orderly) : m.tasks.size ≤ m'.tasks.size := by
  cases hn : m.tasks.size with
  | zero => exact Nat.zero_le _
  | succ n =>
    have hlt : n < m.tasks.size := hn ▸ Nat.lt_succ_self n
    obtain ⟨s', hs', _⟩ := h.keeps_stand ho (stand_eq (Array.getElem?_eq_getElem hlt))
    exact stand_lt hs'

/-- A task that is not there yet is answered nothing. -/
theorem Tells.answersTo_of_size_le (h : m.Tells es m') (ho : m.Orderly) (hu : m.tasks.size ≤ u) :
    Journal.answersTo es u = [] := by
  have hne : ∀ {t} {task : Task}, m.tasks[t]? = some task → ¬ t = u := by
    rintro t task ht rfl
    exact Nat.not_lt_of_le hu (Array.getElem?_eq_some_iff.1 ht).1
  cases h with
  | turns _ _ => rfl
  | serves hr hs =>
    obtain ⟨_, task, ht, _⟩ := ho.running _ _ hr
    rw [Journal.answersTo_answered, if_neg (hne ht)]
  | rests _ _ _ => rfl
  | takes _ _ _ => rfl
  | @reads r front back a hr hm =>
    obtain ⟨task, ht, _⟩ := ho.reading r.task (by simp [readers, hm])
    rw [Journal.answersTo_answered, if_neg (hne ht)]

theorem Recounts.answersTo_of_size_le (h : m.Recounts J m') (ho : m.Orderly)
    (hu : m'.tasks.size ≤ u) : J.answersTo u = [] := by
  induction h with
  | refl => rfl
  | @snoc J es m₁ m₂ hprev ht ih =>
    have ho₁ := hprev.orderly ho
    have hle : m₁.tasks.size ≤ u := Nat.le_trans (Recounts.size_le (.snoc .refl ht) ho₁) hu
    rw [Journal.answersTo_append, ih hle, ht.answersTo_of_size_le ho₁ hle]
    rfl

variable {l l' : Location} {job job' : Job} {o : Outcome} {τ τ' : List Answered}

/-- A task that was started in the course of a run, with what is left of the run. -/
theorem Recounts.spawned (h : m.Recounts J last) (ho : m.Orderly)
    (hJ : J.answersTo t = τ ++ ⟨.spawn l job, u⟩ :: τ') :
    ∃ (m₁ : Machine) (J₁ : Journal), m₁.Recounts J₁ last ∧ m₁.Orderly ∧ J₁.answersTo t = τ' ∧
      J.answersTo u = J₁.answersTo u ∧ m.tasks.size ≤ u ∧ u < m₁.tasks.size ∧
      m₁.stand u = some ⟨some l, some job.thread, none⟩ := by
  obtain ⟨J₀, J₁, rfl, _, hJ₁⟩ := Journal.split_of_answersTo hJ
  obtain ⟨m₀, m₁, h₀, ht, h₁⟩ := h.told
  obtain ⟨hu, hsize, hs⟩ := ht.spawned
  obtain ⟨log, hc⟩ := ht.change
  have ho₀ := h₀.orderly ho
  subst hu
  refine ⟨m₁, J₁, h₁, ho₀.change hc, hJ₁, ?_, h₀.size_le ho, hsize ▸ Nat.lt_succ_self _, hs⟩
  rw [← List.singleton_append, Journal.answersTo_append, Journal.answersTo_append,
    h₀.answersTo_of_size_le ho (Nat.le_refl _), ht.answersTo_of_size_le ho₀ (Nat.le_refl _)]
  rfl

/-- Tasks are numbered in the order in which they are started. -/
theorem Recounts.spawned_lt {u' : TaskId} (h : m.Recounts J last) (ho : m.Orderly)
    (hJ : J.answersTo t = τ ++ ⟨.spawn l job, u⟩ :: τ') (hu' : ⟨.spawn l' job', u'⟩ ∈ τ') : u < u' := by
  obtain ⟨m₁, J₁, h₁, ho₁, hJ₁, _, _, hlt, _⟩ := h.spawned ho hJ
  obtain ⟨τ₁, τ₂, rfl⟩ := List.append_of_mem hu'
  obtain ⟨_, _, _, _, _, _, hle, _⟩ := h₁.spawned ho₁ hJ₁
  exact Nat.lt_of_lt_of_le hlt hle

/-- What is found by waiting for a task is what it comes to. -/
theorem Recounts.awaited (h : m.Recounts J last) (ho : m.Orderly) (ha : ⟨.await u, o⟩ ∈ J.answersTo t)
    (hu : u < m.tasks.size) : last.result? u = some o := by
  obtain ⟨τ₁, τ₂, hJ⟩ := List.append_of_mem ha
  obtain ⟨J₁, J₂, rfl, _, _⟩ := Journal.split_of_answersTo hJ
  obtain ⟨m₁, m₂, h₁, ht, h₂⟩ := h.told
  have ho₁ := h₁.orderly ho
  have hfound := ht.awaited ho₁ (Nat.lt_of_lt_of_le hu (h₁.size_le ho))
  refine h₂.result? ((Recounts.snoc .refl ht).orderly ho₁) ?_
  exact Recounts.result? (.snoc .refl ht) ho₁ hfound

/-- A task is started and then waited for: what is found is what it came to, and this is what its job
comes to by the task's answers, with a place that is blamed. -/
theorem Recounts.spawned_awaited (h : m.Recounts J last) (ho : m.Orderly)
    (hJ : J.answersTo t = τ ++ ⟨.spawn l job, u⟩ :: τ') (ha : ⟨.await u, o⟩ ∈ τ') :
    last.result? u = some o ∧ ∃ τ o', J.answersTo u = Concatenative.told τ ∧
      job.Comes recorded τ o' [] ∧ o = o'.orAt l := by
  obtain ⟨m₁, J₁, h₁, ho₁, hJ₁, hJu, _, hlt, hs⟩ := h.spawned ho hJ
  have hres := h₁.awaited ho₁ (hJ₁ ▸ ha) hlt
  obtain ⟨τ₀, o', hc, hτ₀, he⟩ := comes_told h₁ ho₁ (.aside hs rfl) hs hres
  exact ⟨hres, τ₀, o', hJu.trans hτ₀, Thread.comes_job.1 hc, he⟩

end Machine

end Concatenative
