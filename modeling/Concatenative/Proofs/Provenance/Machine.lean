import Concatenative.Proofs.Provenance.Job
import Concatenative.Proofs.Scoping
import Concatenative.Proofs.Shelves

/-! Machines whose tasks ask in due order. Each thread is proper at the phases that the journal tells
of its task, and whatever frames, shelves and results hold is known. Every move keeps this, and what
is known grows by what the move tells (`Proper.tells`); so at any time the running task asks for what
is due where it is (`Proper.due`). -/
namespace Concatenative

open Evaluation

variable {w w' : Provenance} {φs : List Phase} {θ θ' : Thread}

/-! ## Threads -/

/-- What goes on with the outcome of a job. -/
def Provenance.Resumes (w : Provenance) (φ : Phase) (k : Outcome → Act (Except Failure Next)) : Prop :=
  φ.loads? = none ∧
    ∀ w', w ≤ w' → ∀ o : Outcome, w'.Knows o.closures → Eval.Proper Ends w' φ (k o)

/-- What a thread does now is proper, and so is what goes on with each outcome. -/
def Thread.Proper (w : Provenance) : List Phase → Thread → Prop
  | φ :: φs, θ => Eval.Proper Ends w φ θ.act ∧ List.Forall₂ w.Resumes φs θ.pending
  | [], _ => False

theorem Next.Allowed.mono {n : Next} (h : w ≤ w') (hn : n.Allowed w) : n.Allowed w' := by
  cases n with
  | value v => exact Provenance.Knows.mono h hn
  | become job => exact Provenance.Allows.mono h hn

theorem Eval.Proper.mono {φ : Phase} {x : Eval Next} (h : w ≤ w') (hx : Eval.Proper Ends w φ x) :
    Eval.Proper Ends w' φ x := by
  refine Act.Proper.mono ?_ h hx
  intro w w' φ r hle hr
  cases r with
  | ok n => exact ⟨hr.1, hr.2.mono hle⟩
  | error e => exact hr

namespace Thread.Proper

theorem mono (h : w ≤ w') (hθ : θ.Proper w φs) : θ.Proper w' φs := by
  cases φs with
  | nil => exact hθ
  | cons φ φs =>
    refine ⟨hθ.1.mono h, hθ.2.imp fun φ k hk => ⟨hk.1, fun w'' hle => hk.2 w'' ?_⟩⟩
    exact Provenance.le_trans h hle

theorem takes {turn : Turn} (hθ : θ.Proper w φs) (h : θ.Takes turn θ') :
    θ'.Proper w (turn.phases φs) := by
  cases φs with
  | nil => exact hθ.elim
  | cons φ φs =>
    obtain ⟨hx, hks⟩ := hθ
    cases h with
    | becomes =>
      cases hx with
      | done hn => exact ⟨Job.proper_act hn.2, hks⟩
    | performs =>
      cases hx with
      | ask hq hk =>
        exact ⟨Job.proper_act hq.2, .cons ⟨hq.1, fun w' hle o ho => hk o w' hle ho⟩ hks⟩
    | returns =>
      cases hx with
      | done hn =>
        cases hks with
        | cons hk hks => exact ⟨hk.2 w (Provenance.le_refl w) _ hn.2, hks⟩
    | fails =>
      cases hx with
      | done hn =>
        cases hks with
        | cons hk hks => exact ⟨hk.2 w (Provenance.le_refl w) _ w.knows_nil, hks⟩

theorem asks {q : Request} {k : q.Answer → Act (Except Failure Next)}
    {ks : List (Outcome → Act (Except Failure Next))}
    (hθ : Thread.Proper w φs ⟨.ask q k, ks⟩) :
    q.Due w (φs.headD .outside) ∧ ∀ a w', w.grow q a ≤ w' → w'.Grants q a →
      Thread.Proper w' (φs.modifyHead (·.next q a)) ⟨k a, ks⟩ := by
  cases φs with
  | nil => exact hθ.elim
  | cons φ φs =>
    have hθ₀ := hθ
    obtain ⟨hx, hks⟩ := hθ
    cases hx with
    | ask hq hk =>
      refine ⟨hq, fun a w' hle ha => ⟨hk a w' hle ha, ?_⟩⟩
      exact (hθ₀.mono (Provenance.le_trans (w.le_grow q a) hle)).2

/-- A turn is neither taken while a module is loaded, nor does it lead there. -/
theorem idle_of_takes {turn : Turn} (hθ : θ.Proper w φs) (h : θ.Takes turn θ') :
    (φs.headD .outside).loads? = none ∧ ((turn.phases φs).headD .outside).loads? = none := by
  cases φs with
  | nil => exact hθ.elim
  | cons φ φs =>
    obtain ⟨hx, hks⟩ := hθ
    cases h with
    | becomes =>
      cases hx with
      | done hn => exact ⟨hn.1, rfl⟩
    | performs =>
      cases hx with
      | ask hq hk => exact ⟨hq.1, rfl⟩
    | returns =>
      cases hx with
      | done hn =>
        cases hks with
        | cons hk hks => exact ⟨hn.1, hk.1⟩
    | fails =>
      cases hx with
      | done hn =>
        cases hks with
        | cons hk hks => exact ⟨hn, hk.1⟩

theorem idle_of_over {o : Outcome} (hθ : θ.Proper w φs) (h : θ.Over o) :
    (φs.headD .outside).loads? = none := by
  cases φs with
  | nil => exact hθ.elim
  | cons φ φs =>
    obtain ⟨hx, _⟩ := hθ
    cases h with
    | value v =>
      cases hx with
      | done hn => exact hn.1
    | failure e =>
      cases hx with
      | done hn => exact hn

theorem phase_answered {J : Journal} {t : TaskId} {q : Request} (hθ : θ.Proper w (J.phases t))
    (a : q.Answer) : Journal.phase (.answered t q a :: J) t = (J.phase t).next q a := by
  rw [Journal.phase, Journal.phases_answered, Journal.phase]
  cases hφ : J.phases t with
  | nil =>
    rw [hφ] at hθ
    exact hθ.elim
  | cons φ φs => rfl

theorem knows_of_over {o : Outcome} (hθ : θ.Proper w φs) (h : θ.Over o) : w.Knows o.closures := by
  cases φs with
  | nil => exact hθ.elim
  | cons φ φs =>
    obtain ⟨hx, _⟩ := hθ
    cases h with
    | value v =>
      cases hx with
      | done hn => exact hn.2
    | failure e => exact w.knows_nil

end Thread.Proper

theorem Job.proper_thread {job : Job} (hj : w.Allows job) : job.thread.Proper w [.outside] :=
  ⟨Job.proper_act hj, .nil⟩

/-! ## Frames -/

def Frame.closures (frame : Frame) : List Anchored :=
  frame.bindings.flatMap (·.2.closures) ++ (frame.input.map Deferred.closures).getD []

namespace Scope

/-- What frames hold is known. -/
def Known (s : Scope) (w : Provenance) : Prop :=
  ∀ (f : FrameId) (frame : Frame), s.frames[f]? = some frame → w.Knows frame.closures

variable {s : Scope} {f : FrameId} {name : String} {d : Deferred}

theorem Known.mono (h : w ≤ w') (hs : s.Known w) : s.Known w' :=
  fun f frame hf => (hs f frame hf).mono h

theorem Known.add {frame : Frame} (hs : s.Known w) (hb : frame.bindings = [])
    (hi : ∀ d, frame.input = some d → w.Knows d.closures) : (s.add frame).2.Known w := by
  intro g frame' hg
  simp only [Scope.add, Array.getElem?_push] at hg
  split at hg
  · cases hg
    rw [Frame.closures, hb, List.flatMap_nil, List.nil_append]
    cases hin : frame.input with
    | none => exact w.knows_nil
    | some d => exact hi d hin
  · exact hs g frame' hg

theorem Known.modify {u : Frame → Frame} (hs : s.Known w) (hd : w.Knows d.closures)
    (hu : ∀ frame, (u frame).closures ⊆ d.closures ++ frame.closures) :
    Known ⟨s.frames.modify f u⟩ w := by
  intro g frame' hg
  rw [Array.getElem?_modify] at hg
  split at hg
  · obtain ⟨frame, hframe, rfl⟩ := Option.map_eq_some_iff.1 hg
    exact (Provenance.knows_append.2 ⟨hd, hs g frame hframe⟩).of_subset (hu frame)
  · exact hs g frame' hg

theorem Known.declare (hs : s.Known w) (hd : w.Knows d.closures) :
    (s.declare f name d).2.Known w := by
  unfold Scope.declare
  split
  · exact hs
  · refine hs.modify hd fun frame => ?_
    rw [Frame.closures, Frame.closures, Frame.insert, List.flatMap_cons, List.append_assoc]
    exact List.Subset.refl _

theorem Known.rebind (hs : s.Known w) (hd : w.Knows d.closures) :
    (s.rebind f name d).2.Known w := by
  unfold Scope.rebind
  split
  · refine hs.modify hd fun frame x hx => ?_
    rcases List.mem_append.1 hx with hx | hx
    · obtain ⟨b, hb, hx⟩ := List.mem_flatMap.1 hx
      obtain ⟨b', hb', rfl⟩ := List.mem_map.1 hb
      split at hx
      · exact List.mem_append_left _ hx
      · exact List.mem_append_right _ (List.mem_append_left _ (List.mem_flatMap.2 ⟨b', hb', hx⟩))
    · exact List.mem_append_right _ (List.mem_append_right _ hx)
  · exact hs

theorem Known.lookup (hs : s.Known w) (h : s.lookup f name = .ok d) : w.Knows d.closures := by
  obtain ⟨⟨g, frame⟩, hmem, hget⟩ := List.exists_of_findSome?_eq_some (lookup_eq_ok_iff.1 h)
  obtain ⟨front, back, hb, _⟩ := List.lookup_eq_some_iff.1 hget
  have hmem' : (name, d) ∈ frame.bindings := by
    rw [show frame.bindings = front ++ (name, d) :: back from hb]
    simp
  refine (hs g frame (mem_chain hmem).1).of_subset fun x hx => List.mem_append_left _ ?_
  exact List.mem_flatMap.2 ⟨(name, d), hmem', hx⟩

theorem Known.input (hs : s.Known w) (h : s.input f = .ok d) : w.Knows d.closures := by
  obtain ⟨⟨g, frame⟩, hmem, hin⟩ := List.exists_of_findSome?_eq_some (input_eq_ok_iff.1 h)
  refine (hs g frame (mem_chain hmem).1).of_subset fun x hx => List.mem_append_right _ ?_
  rw [show frame.input = some d from hin]
  exact hx

end Scope

/-! ## Machines -/

namespace Provenance

/-- What an entry adds to what is known. -/
def entry (w : Provenance) : Entry → Provenance
  | .answered _ q a => w.grow q a
  | .opened f body =>
    { w with
      frames := fun g => w.frames g ∨ g = f
      code := fun g b => w.code g b ∨ g = f ∧ b.Part body }
  | .started _ _ | .declared _ _ | .turned _ _ => w

/-- What entries add to what is known, last first. -/
def along (w : Provenance) (es : List Entry) : Provenance := es.foldr (fun e w => w.entry e) w

/-- Whoever embeds the language hands on only what is known: with the jobs that are started, with the
names that are declared in the root, and with what added words make of their input. -/
def Admits (w : Provenance) : Entry → Prop
  | .started _ job => w.Allows job
  | .declared _ v => w.Knows v.closures
  | .answered _ (.world (.word _ x)) o => w.Knows (inputClosures x) → w.Knows (Outcome.closures o)
  | _ => True

/-- This holds of all that was told. -/
def AdmitsAll (w : Provenance) : Journal → Prop
  | [] => True
  | e :: J => (w.along J).Admits e ∧ w.AdmitsAll J

theorem le_entry (w : Provenance) (e : Entry) : w ≤ w.entry e := by
  cases e with
  | answered t q a => exact w.le_grow q a
  | opened f body => exact ⟨fun _ => .inl, fun _ _ => .inl, fun _ _ => id⟩
  | _ => exact le_refl w

theorem le_along (w : Provenance) (es : List Entry) : w ≤ w.along es := by
  induction es with
  | nil => exact le_refl w
  | cons e es ih => exact le_trans ih (le_entry _ e)

theorem along_append (w : Provenance) (es J : List Entry) :
    w.along (es ++ J) = (w.along J).along es := List.foldr_append ..

/-- Where nothing is said of any code, everything is known. -/
theorem admits_of_any (h : any ≤ w) (e : Entry) : w.Admits e := by
  have hwrites : ∀ f p, ∃ l, w.Writes f l p := fun f p =>
    ⟨⟨"", 0, 0⟩, h.1 _ trivial, ⟨[⟨⟨"", 0, 0⟩, .primitive p⟩], none, ⟨"", 0, 0⟩⟩, h.2.1 _ _ trivial,
      List.mem_singleton.2 rfl⟩
  cases e with
  | started t job =>
    refine ⟨knows_of_any h _, ?_⟩
    cases job with
    | transform d f => exact fun w' hle v _ => knows_of_any (le_trans h hle) _
    | load f d => exact (hwrites f .load).imp fun _ => .inl
    | access f d => exact (hwrites f .access).imp fun _ => .inr
    | openModule f path => exact h.1 _ trivial
    | _ => trivial
  | declared name v => exact knows_of_any h _
  | answered t q a =>
    cases q with
    | world q =>
      cases q with
      | word name x => exact fun _ => knows_of_any h _
      | _ => trivial
    | _ => trivial
  | _ => trivial

theorem admitsAll_any (J : Journal) : any.AdmitsAll J := by
  induction J with
  | nil => trivial
  | cons e J ih => exact ⟨admits_of_any (any.le_along J) e, ih⟩

theorem AdmitsAll.append {es J : List Entry} (hw : w.AdmitsAll (es ++ J))
    (hes : es = [] ∨ ∃ e, es = [e]) : (∀ e ∈ es, (w.along J).Admits e) ∧ w.AdmitsAll J := by
  rcases hes with rfl | ⟨e, rfl⟩
  · exact ⟨fun e he => absurd he List.not_mem_nil, hw⟩
  · refine ⟨fun e' he' => ?_, hw.2⟩
    cases List.mem_singleton.1 he'
    exact hw.1

theorem AdmitsAll.of_append {es J : List Entry} (hw : w.AdmitsAll (es ++ J)) : w.AdmitsAll J := by
  induction es with
  | nil => exact hw
  | cons e es ih => exact ih hw.2

end Provenance

namespace Machine

/-- All threads are proper where they are, and whatever is held is known. -/
structure Proper (J : Journal) (w : Provenance) (m : Machine) : Prop where
  scope : m.scope.Known w
  library : ∀ p b, m.library.body? p = some b → w.Keeps p b
  aside : ∀ u s θ, m.stand u = some s → s.thread = some θ → θ.Proper w (J.phases u)
  results : ∀ u s o, m.stand u = some s → s.result = some o → w.Knows (Outcome.closures o)
  running : ∀ u θ, m.running = some (u, θ) → θ.Proper w (J.phases u)
  reading : ∀ r ∈ m.reading, ∃ k ks, r.resume = (fun a => ⟨k a, ks⟩) ∧
    Thread.Proper w (J.phases r.task) ⟨.ask (.world (.content r.path)) k, ks⟩
  fresh : ∀ u, m.tasks.size ≤ u → J.phases u = [.outside]

variable {m m' : Machine} {t u : TaskId} {log : List Asked} {es : List Entry} {J J' : Journal}

namespace Proper

/-- More is known, and there may be tasks that were not there before. -/
theorem grow (h : m.Proper J w) (hle : w ≤ w') (hs : m'.scope.Known w')
    (hl : ∀ p b, m'.library.body? p = some b → w'.Keeps p b) (hr : m'.running = m.running)
    (hread : m'.reading = m.reading) (hsize : m.tasks.size ≤ m'.tasks.size)
    (hst : ∀ u s, m'.stand u = some s → m.stand u = some s ∨
      s.result = none ∧ ∀ θ, s.thread = some θ → θ.Proper w' (J.phases u)) : m'.Proper J w' := by
  refine ⟨hs, hl, fun u s θ hu hθ => ?_, fun u s o hu ho => ?_, fun u θ hu => ?_, fun r hr' => ?_,
    fun u hu => h.fresh u (Nat.le_trans hsize hu)⟩
  · rcases hst u s hu with hu | ⟨_, hnew⟩
    · exact (h.aside u s θ hu hθ).mono hle
    · exact hnew θ hθ
  · rcases hst u s hu with hu | ⟨hn, _⟩
    · exact (h.results u s o hu ho).mono hle
    · cases hn.symm.trans ho
  · exact (h.running u θ (hr ▸ hu)).mono hle
  · obtain ⟨k, ks, he, hθ⟩ := h.reading r (hread ▸ hr')
    exact ⟨k, ks, he, hθ.mono hle⟩

/-- A machine in which tasks stand as before. -/
theorem congr (h : m.Proper J w) (hle : w ≤ w') (hs : m'.scope.Known w')
    (hl : ∀ p b, m'.library.body? p = some b → w'.Keeps p b) (hr : m'.running = m.running)
    (hread : m'.reading = m.reading) (ht : m'.tasks = m.tasks) : m'.Proper J w' :=
  h.grow hle hs hl hr hread (ht ▸ Nat.le_refl _) fun u s hu => .inl (by rwa [stand, ← ht])

theorem library_mono (h : m.Proper J w) (hle : w ≤ w') (p : Path) (b : Body)
    (hb : m.library.body? p = some b) : w'.Keeps p b :=
  fun part hpart => hle.2.2 p part (h.library p b hb part hpart)

/-- The running task is put down. -/
theorem idle (h : m.Proper J w) : Proper J w { m with running := none } :=
  ⟨h.scope, h.library, h.aside, h.results, nofun, h.reading, h.fresh⟩

theorem run (h : m.Proper J w) (hθ : θ.Proper w (J.phases t)) : (m.run t θ).Proper J w := by
  refine ⟨h.scope, h.library, h.aside, h.results, fun u θ' hu => ?_, h.reading, h.fresh⟩
  cases hu
  exact hθ

/-- What is told of a task that is nowhere concerns no other. -/
theorem told {e : Entry} (h : m.Proper J w) (hm : m.running = none) (hf : m.Free t)
    (he : ∀ u, e.task? = some u → u = t) : m.Proper (e :: J) w := by
  obtain ⟨hnot, task, ht, hn, _⟩ := hf
  have hother : ∀ u, u ≠ t → Journal.phases (e :: J) u = J.phases u := fun u hu =>
    Journal.phases_cons_of_ne fun heq => hu (he u heq)
  refine ⟨h.scope, h.library, fun u s θ hu hθ => ?_, h.results, fun u θ hu => ?_, fun r hr => ?_,
    fun u hu => ?_⟩
  · have hne : u ≠ t := by
      rintro rfl
      cases (stand_eq ht).symm.trans hu
      cases hn.symm.trans hθ
    rw [hother u hne]
    exact h.aside u s θ hu hθ
  · cases hm.symm.trans hu
  · have hne : r.task ≠ t := by
      rintro rfl
      exact hnot (List.mem_map.2 ⟨r, hr, rfl⟩)
    rw [hother _ hne]
    exact h.reading r hr
  · have hne : u ≠ t := by
      rintro rfl
      exact absurd (Array.getElem?_eq_some_iff.1 ht).1 (Nat.not_lt.2 hu)
    rw [hother u hne]
    exact h.fresh u hu

/-- A change of where one task stands. -/
theorem stand {g : Stand → Stand} (h : m.Proper J w) (hs : m'.scope = m.scope)
    (hl : m'.library = m.library) (hr : m'.running = none) (hread : m'.reading = m.reading)
    (hsize : m'.tasks.size = m.tasks.size)
    (hst : ∀ u, m'.stand u = if t = u then (m.stand u).map g else m.stand u)
    (hθ : ∀ s θ, m.stand t = some s → (g s).thread = some θ → θ.Proper w (J.phases t))
    (hres : ∀ s o, m.stand t = some s → (g s).result = some o → w.Knows (Outcome.closures o)) :
    m'.Proper J w := by
  refine ⟨hs ▸ h.scope, hl ▸ h.library, fun u s θ hu hth => ?_, fun u s o hu hso => ?_,
    fun u θ hu => ?_, hread ▸ h.reading, hsize ▸ h.fresh⟩
  · rcases stand_of_change hst hu with ⟨s₀, rfl, hs₀, rfl⟩ | hold
    · exact hθ s₀ θ hs₀ hth
    · exact h.aside u s θ hold hth
  · rcases stand_of_change hst hu with ⟨s₀, rfl, hs₀, rfl⟩ | hold
    · exact hres s₀ o hs₀ hso
    · exact h.results u s o hold hso
  · cases hr.symm.trans hu

theorem suspend (h : m.Proper J w) (hm : m.running = none) (hθ : θ.Proper w (J.phases t)) :
    (m.suspend t θ).Proper J w := by
  refine h.stand (t := t) (g := ({ · with thread := some θ })) rfl rfl hm rfl Array.size_modify
    (fun u => stand_suspend m t u θ) (fun s θ' _ hθ' => ?_) fun s o hs ho => h.results t s o hs ho
  cases hθ'
  exact hθ

theorem wake (h : m.Proper J w) (woken : Option TaskId) : (m.wake woken).Proper J w := by
  obtain ⟨ready, hw⟩ := wake_eq m woken
  rw [hw]
  exact h.congr (Provenance.le_refl w) h.scope h.library rfl rfl rfl

theorem finish {o : Outcome} (h : m.Proper J w) (hm : m.running = none)
    (ho : w.Knows o.closures) : (m.finish t o).Proper J w := by
  obtain ⟨tasks, ready, he⟩ := finish_eq m t o
  refine h.stand (t := t) (g := fun s => ⟨s.origin, none, some (s.close o)⟩) (he ▸ rfl) (he ▸ rfl)
    (he ▸ hm) (he ▸ rfl) (size_finish m t o) (fun u => stand_finish m t u o)
    (fun s θ _ hθ => nomatch hθ) fun s o' _ ho' => ?_
  cases ho'
  have hclose : (s.close o).closures = o.closures := by
    unfold Stand.close
    split
    · cases o <;> rfl
    · rfl
  rwa [hclose]

theorem addTask {job : Job} (h : m.Proper J w) (origin : Option Location) (hj : w.Allows job) :
    (m.addTask origin job).2.Proper J w := by
  refine h.grow (Provenance.le_refl w) h.scope h.library rfl rfl ?_ fun u s hu => ?_
  · rw [addTask_eq]
    simp
  · rw [stand_addTask] at hu
    split at hu
    · next he =>
      cases hu
      refine .inr ⟨rfl, fun θ hθ => ?_⟩
      cases hθ
      rw [h.fresh u (Nat.le_of_eq he.symm)]
      exact Job.proper_thread hj
    · exact .inl hu

theorem reads {target : TaskId} {r : Option Outcome} (h : m.Proper J w)
    (hr : m.Reads target r m') : m'.Proper J w :=
  h.grow (Provenance.le_refl w) (hr.scope ▸ h.scope) (hr.library ▸ h.library) hr.running hr.reading
    (Nat.le_of_eq hr.size.symm) fun u _ hu => .inl ((hr.stand u).symm.trans hu)

end Proper

/-! ## Moves -/

/-- Whatever is answered to what is due is known, or becomes known. -/
theorem Serves.proper {q : Request} {a : q.Answer} {φ : Phase} (hs : m.Serves t q log a m')
    (h : m.Proper J w) (ho : m.Orderly) (hq : q.Due w φ) (ha : w.Admits (.answered t q a)) :
    m'.Proper J (w.grow q a) ∧ (w.grow q a).Grants q a := by
  have hle := w.le_grow q a
  cases hs with
  | enter parent x =>
    refine ⟨h.congr hle ?_ (h.library_mono hle) rfl rfl rfl, trivial⟩
    refine (h.scope.mono hle).add rfl fun d hd => ?_
    obtain ⟨v, rfl, rfl⟩ := Option.map_eq_some_iff.1 hd
    exact hq.2.2.2.mono hle
  | enterModule f path =>
    refine ⟨h.congr hle ?_ (h.library_mono hle) rfl rfl rfl, trivial⟩
    exact (h.scope.mono hle).add rfl fun d hd => by cases hd
  | declare f name d =>
    exact ⟨h.congr hle (h.scope.declare hq.2) h.library rfl rfl rfl, trivial⟩
  | rebind f name d =>
    exact ⟨h.congr hle (h.scope.rebind hq.2) h.library rfl rfl rfl, trivial⟩
  | lookup f name => exact ⟨h, fun _ hd => h.scope.lookup hd⟩
  | input f => exact ⟨h, fun _ hd => h.scope.input hd⟩
  | moduleDirectory f => exact ⟨h, trivial⟩
  | stamp => exact ⟨h.congr hle h.scope h.library rfl rfl rfl, trivial⟩
  | spawn l job => exact ⟨h.addTask (some l) hq.2.1, trivial⟩
  | @await target o _ hr =>
    have hread := ho.reads_readCell hr
    refine ⟨h.reads hread, ?_⟩
    cases hst : m.stand target with
    | none =>
      -- a task that is not there comes to a failure
      have hnone : m.tasks[target]? = none := Option.map_eq_none_iff.1 hst
      simp only [readCell, hnone] at hr
      cases hr
      exact w.knows_nil
    | some s => exact h.results target s o hst (hread.found s o hst rfl)
  | settings => exact ⟨h, trivial⟩
  | @cached path library body hc =>
    obtain ⟨rfl, hb⟩ := Library.claim_cached hc
    refine ⟨h.congr hle h.scope h.library rfl rfl rfl, fun b he => ?_⟩
    cases he
    exact h.library path body hb
  | @granted path library hc =>
    have hg := Library.claim_granted hc
    refine ⟨h.congr hle h.scope (fun p b hb => ?_) rfl rfl rfl, fun b he => by cases he⟩
    exact h.library p b ((hg.bodies p).symm.trans hb)
  | countParse => exact ⟨h.congr hle h.scope h.library rfl rfl rfl, trivial⟩
  | publish path body =>
    refine ⟨h.congr hle (h.scope.mono hle) (fun p b hb => ?_) rfl rfl rfl, trivial⟩
    rcases Library.body?_publish_eq_some hb with ⟨hsame, rfl⟩ | hb
    · exact fun part hpart => .inr ⟨hsame, hpart⟩
    · exact h.library_mono hle p b hb
  | giveUp path =>
    refine ⟨Proper.wake ?_ _, trivial⟩
    refine h.congr hle h.scope (fun p b hb => ?_) rfl rfl rfl
    exact h.library p b ((Library.body?_giveUp path p).symm.trans hb)
  | note n => exact ⟨h.congr hle h.scope h.library rfl rfl rfl, trivial⟩
  | workingDirectory a => exact ⟨h, trivial⟩
  | firstFile candidates a => exact ⟨h, trivial⟩
  | write text a => exact ⟨h, trivial⟩
  | word name x o => exact ⟨h, ha hq.2⟩

namespace Proper

/-- The running task asks for what is due where it is. -/
theorem due {q : Request} {k : q.Answer → Act (Except Failure Next)}
    {ks : List (Outcome → Act (Except Failure Next))} (h : m.Proper J w)
    (hr : m.running = some (t, ⟨.ask q k, ks⟩)) : q.Due w (J.phase t) :=
  (h.running t _ hr).asks.1

/-- A task that reads a file is to load it. -/
theorem granted_of_reading {r : Reading} (h : m.Proper J w) (hr : r ∈ m.reading) :
    J.phase r.task = .granted r.path := by
  obtain ⟨k, ks, _, hθ⟩ := h.reading r hr
  exact hθ.asks.1

/-- Whatever is answered was due. -/
theorem due_of_tells {q : Request} {a : q.Answer} (h : m.Proper J w)
    (ht : m.Tells [.answered t q a] m') : q.Due w (J.phase t) := by
  cases ht with
  | serves hr _ => exact h.due hr
  | reads a _ hm => exact h.granted_of_reading (by simp [hm])

theorem resume (h : m.Proper J w) (hm : m.running = none) : (m.resume t).Proper J w := by
  obtain he | ⟨s, θ, m₁, hs, hθ, he, rfl⟩ := m.resume_cases t
  · rw [he]
    exact h
  · rw [he]
    refine Proper.run ?_ (h.aside t s θ hs hθ)
    exact h.stand (t := t) (g := ({ · with thread := none })) rfl rfl hm rfl Array.size_modify
      (fun u => stand_onTask (fun _ _ => rfl) u) (fun _ _ _ h' => nomatch h') (h.results t)

/-- The running task waits, gives way or ends; `m` is the machine without it. -/
theorem rests (h : m.Proper J w) (ho : m.Orderly) (hm : m.running = none)
    (hθ : θ.Proper w (J.phases t)) (hg : m.Goes t θ log m') (hm' : m'.running = none) :
    m'.Proper J w := by
  cases hg with
  | turns _ => cases hm'
  | served _ => cases hm'
  | awaits hr =>
    have hread := ho.reads_readCell hr
    exact (h.reads hread).suspend (hread.running.trans hm) hθ
  | claims hc =>
    have hlib := (Library.claim_wait hc).bodies
    refine Proper.suspend ?_ hm hθ
    refine h.congr (Provenance.le_refl w) h.scope (fun p b hb => ?_) rfl rfl rfl
    exact h.library p b ((hlib p).symm.trans hb)
  | givesWay =>
    have hnext := hθ.asks.2 () w (Provenance.le_refl w) trivial
    refine (h.suspend hm ?_).wake _
    cases hφ : J.phases t with
    | nil =>
      rw [hφ] at hθ
      exact hθ.elim
    | cons φ φs =>
      rw [hφ] at hnext
      exact hnext
  | reads =>
    refine ⟨h.scope, h.library, h.aside, h.results, h.running, fun r hr => ?_, h.fresh⟩
    rcases List.mem_append.1 hr with hr | hr
    · exact h.reading r hr
    · cases List.mem_singleton.1 hr
      exact ⟨_, _, rfl, hθ⟩
  | ends hover => exact h.finish hm (hθ.knows_of_over hover)

/-- What a move keeps. -/
theorem tells (h : m.Proper J w) (ho : m.Orderly) (ht : m.Tells es m')
    (hes : ∀ e ∈ es, w.Admits e) : m'.Proper (es ++ J) (w.along es) := by
  have ho₀ : Orderly { m with running := none } := ho.idle
  have hfree : ∀ t θ, m.running = some (t, θ) → Free { m with running := none } t := fun t θ hr =>
    (ho.running t θ hr).congr rfl rfl
  cases ht with
  | @turns t θ θ' turn hr hturn =>
    have hθ := h.running t θ hr
    refine (h.idle.told rfl (hfree t θ hr) ?_).run ?_
    · rintro u ⟨⟩
      rfl
    · rw [Journal.phases_turned]
      exact hθ.takes hturn
  | @serves t q k ks log a m₁ hr hs =>
    obtain ⟨hq, hk⟩ := (h.running t _ hr).asks
    have htold : Proper (.answered t q a :: J) w { m with running := none } := by
      refine h.idle.told rfl (hfree t _ hr) ?_
      rintro u ⟨⟩
      rfl
    obtain ⟨h', hgrants⟩ := hs.proper htold ho₀ hq (hes _ (List.mem_singleton.2 rfl))
    refine h'.run ?_
    rw [Journal.phases_answered]
    exact hk a _ (Provenance.le_refl _) hgrants
  | @rests t θ log _ hr hg hm' =>
    exact Proper.rests h.idle ho₀ rfl (h.running t θ hr) hg hm'
  | takes hr _ _ =>
    exact Proper.resume (h.congr (Provenance.le_refl w) h.scope h.library rfl rfl rfl) hr
  | @reads r front back a hr hm =>
    obtain ⟨_, hf⟩ := ho.unread hr hm
    obtain ⟨k, ks, he, hθ⟩ := h.reading r (by simp [hm])
    have hless : Proper J w { m with reading := front ++ back } := by
      refine ⟨h.scope, h.library, h.aside, h.results, h.running, fun r' hr' => h.reading r' ?_,
        h.fresh⟩
      rw [hm, List.mem_append, List.mem_cons]
      exact (List.mem_append.1 hr').imp_right .inr
    refine (hless.told hr hf ?_).run ?_
    · rintro u ⟨⟩
      rfl
    · rw [Journal.phases_answered, he]
      exact hθ.asks.2 a w (Provenance.le_refl w) trivial

/-- What is told of no task concerns no task. -/
theorem told_outside {e : Entry} (h : m.Proper J w) (he : e.task? = none) : m.Proper (e :: J) w := by
  have hsame : ∀ u, Journal.phases (e :: J) u = J.phases u := fun u =>
    Journal.phases_cons_of_ne (by simp [he])
  refine ⟨h.scope, h.library, fun u s θ hu hθ => ?_, h.results, fun u θ hu => ?_, fun r hr => ?_,
    fun u hu => ?_⟩
  · rw [hsame]
    exact h.aside u s θ hu hθ
  · rw [hsame]
    exact h.running u θ hu
  · rw [hsame]
    exact h.reading r hr
  · rw [hsame]
    exact h.fresh u hu

/-- What is done from outside keeps. -/
theorem hosts (h : m.Proper J w) (hh : m.Hosts es m') (hes : ∀ e ∈ es, w.Admits e) :
    m'.Proper (es ++ J) (w.along es) := by
  cases hh with
  | starts job =>
    exact (h.addTask none (hes _ (List.mem_singleton.2 rfl))).told_outside rfl
  | opens body =>
    have hle := w.le_entry (.opened m.scope.frames.size body)
    refine (h.told_outside rfl).congr hle ?_ (h.library_mono hle) rfl rfl rfl
    exact (h.scope.mono hle).add rfl nofun
  | declares name v =>
    refine (h.told_outside rfl).congr (Provenance.le_refl w) ?_ h.library rfl rfl rfl
    exact h.scope.declare (hes _ (List.mem_singleton.2 rfl))
  | notes notes => exact h.congr (Provenance.le_refl w) h.scope h.library rfl rfl rfl

end Proper

/-- A session begins with words and no closures. -/
theorem proper_start (settings : LibrarySettings) (world : World) (w : Provenance) :
    (Session.start settings world).machine.Proper [] w := by
  have hwords : ∀ (words : List Word) (s : Scope), s.Known w → Scope.Known
      (words.foldl (fun s word =>
        (s.declare Session.root word.name (.settled (.callable (.host word)))).2) s) w := by
    intro words
    induction words with
    | nil => exact fun _ hs => hs
    | cons word words ih => exact fun s hs => ih _ (hs.declare w.knows_nil)
  have hroot : Scope.Known (Scope.addRoot {}).2 w := by
    refine Scope.Known.add (s := {}) ?_ rfl nofun
    intro f frame hf
    simp at hf
  refine ⟨hwords _ _ hroot, nofun, fun u s θ hu => ?_, fun u s o hu => ?_, nofun, nofun,
    fun _ _ => rfl⟩
  · simp [Machine.stand, Session.start] at hu
  · simp [Machine.stand, Session.start] at hu

/-- All that has happened since a session began was in due order. -/
theorem Unfolds.proper (h : Unfolds J m) (hw : w.AdmitsAll J) : m.Proper J (w.along J) := by
  induction h with
  | start settings world => exact proper_start settings world w
  | hosts _ hh ih =>
    obtain ⟨hes, hJ⟩ := hw.append hh.one
    rw [Provenance.along_append]
    exact (ih hJ).hosts hh hes
  | tells hprev ht ih =>
    obtain ⟨hes, hJ⟩ := hw.append ht.one
    rw [Provenance.along_append]
    exact (ih hJ).tells hprev.orderly.1 ht hes

/-- Whatever was answered was due, and what was known by then still is. -/
theorem Unfolds.due_of_answered {q : Request} {a : q.Answer}
    (h : Unfolds (J' ++ .answered t q a :: J) m) (hw : w.AdmitsAll (J' ++ .answered t q a :: J)) :
    q.Due (w.along (J' ++ .answered t q a :: J)) (J.phase t) := by
  obtain ⟨m₁, m₂, hprev, ht⟩ := h.answered
  refine ((hprev.proper hw.of_append.2).due_of_tells ht).mono ?_
  rw [List.append_cons, Provenance.along_append]
  exact Provenance.le_along _ _

/-- Whatever code a machine has come to hold, it asks in due order. -/
theorem Unfolds.proper_any (h : Unfolds J m) : m.Proper J (Provenance.any.along J) :=
  h.proper (Provenance.admitsAll_any J)

end Machine

end Concatenative
