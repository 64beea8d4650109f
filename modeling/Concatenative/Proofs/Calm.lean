import Concatenative.Proofs.Invocations
import Concatenative.Proofs.Isolation
import Concatenative.Proofs.Rested

/-! Code that neither rebinds names nor refers to modules. When such code runs and all closures that it
can get hold of are of this kind as well, names are declared in frames that were made meanwhile, and
nothing else is changed. Main statements: the library stays as it is (`Secluded.library`), and so do all
frames that were there (`Spares.secluded`). -/
namespace Concatenative

/-! ## Code -/

/-- No name is rebound and no module is referred to, at any depth. -/
def Body.Calm (b : Body) : Prop := ∀ q ∈ b.primitives, q ≠ .rebind ∧ q ≠ .load ∧ q ≠ .access

instance (b : Body) : Decidable b.Calm :=
  inferInstanceAs (Decidable (∀ q ∈ b.primitives, q ≠ .rebind ∧ q ≠ .load ∧ q ≠ .access))

/-- Code that does not refer to modules, at any place. -/
def Terms.unloading : Terms := { Terms.anything with loads := False }

theorem Body.Calm.part {b c : Body} (h : c.Calm) (hp : b.Part c) : b.Calm :=
  fun q hq => h q (hp.primitives_subset hq)

theorem Body.Calm.fits {b : Body} (h : b.Calm) : b.Fits .unloading := by
  refine b.fits_of_primitives (fun _ => trivial) fun q hq => ?_
  obtain ⟨_, hload, haccess⟩ := h q hq
  cases q with
  | load => exact hload rfl
  | access => exact haccess rfl
  | _ => trivial

theorem Body.Calm.not_mem {b : Body} {l : Location} (h : b.Calm) :
    ⟨l, .primitive .rebind⟩ ∉ b.code := by
  intro hmem
  have hq : Primitive.rebind ∈ b.primitives := by
    refine mem_codePrimitives.2 ⟨_, hmem, ?_⟩
    rw [Op.primitives]
    exact List.mem_cons_self
  exact (h _ hq).1 rfl

theorem Terms.unloading_open : Terms.unloading.Open := fun h => h.elim

/-! ## Away from modules -/

/-- A request that has to do with modules. -/
def Request.ofModules : Request → Bool
  | enterModule _ _ | moduleDirectory _ | settings | claim _ | countParse | publish _ _ | giveUp _
  | world .workingDirectory | world (.firstFile _) | world (.content _) => true
  | _ => false

theorem Request.Alike.not_ofModules {p : Terms} {ρ : Correspondence} {q q' : Request}
    {Q : Correspondence → q.Answer → q'.Answer → Prop} (h : Request.Alike p ρ q q' Q)
    (hp : ¬ p.loads) : q.ofModules = false ∧ q'.ofModules = false := by
  cases h <;> first | exact ⟨rfl, rfl⟩ | contradiction

namespace Machine

variable {m m' : Machine} {t : TaskId} {log : List Asked} {es : List Entry}

/-- Nobody has to do with modules now. -/
structure Apart (m : Machine) : Prop where
  running : ∀ t q k ks, m.running = some (t, ⟨.ask q k, ks⟩) → q.ofModules = false
  reading : m.reading = []

/-- Moves one after the other, none of which has to do with modules. -/
inductive Secluded : Machine → List Asked → Machine → Prop
  | refl (m : Machine) : Secluded m [] m
  | head {m m₁ m₂ : Machine} {log log' : List Asked} :
      m.Apart → Moves m log m₁ → Secluded m₁ log' m₂ → Secluded m (log ++ log') m₂

theorem Secluded.runs (h : Secluded m log m') : Runs m log m' := by
  induction h with
  | refl m => exact .refl m
  | head _ hm _ ih => exact .head hm ih

theorem Serves.library {q : Request} {a : q.Answer} (hs : m.Serves t q log a m')
    (hq : q.ofModules = false) : m'.library = m.library := by
  cases hs with
  | await hr =>
    obtain ⟨tasks, ready, rfl⟩ := readCell_eq hr
    rfl
  | spawn l job => rw [addTask_eq]
  | _ => first | rfl | cases hq

/-- A move that has nothing to do with modules leaves the library as it is. -/
theorem Apart.library (h : m.Apart) (hc : m.Change log m') : m'.library = m.library := by
  cases hc with
  | @goes t θ _ _ hr hg =>
    cases hg with
    | turns _ => rfl
    | served hs => exact hs.library (h.running _ _ _ _ hr)
    | awaits hread =>
      obtain ⟨tasks, ready, rfl⟩ := readCell_eq hread
      rfl
    | claims _ => cases h.running _ _ _ _ hr
    | givesWay => rfl
    | reads => rfl
    | @ends _ o _ =>
      obtain ⟨tasks, ready, he⟩ := finish_eq { m with running := none } t o
      rw [he]
  | @take t _ _ ready _ _ _ =>
    obtain ⟨tasks, running, he, _⟩ := resume_eq { m with ready } t
    rw [he]
  | read a _ _ => rfl

/-- Away from modules the library stays as it is. -/
theorem Secluded.library (h : Secluded m log m') : m'.library = m.library := by
  induction h with
  | refl m => rfl
  | head hm hmove _ ih => rw [ih, hm.library hmove.change]

theorem Apart.answered {q : Request} {a : q.Answer} (h : m.Apart)
    (ht : m.Tells [.answered t q a] m') : q.ofModules = false := by
  cases ht with
  | serves hr _ => exact h.running _ _ _ _ hr
  | reads a _ hm =>
    rw [h.reading] at hm
    simp at hm

namespace Abreast

variable {p : Terms} {φ ρ : Correspondence} {main main' : TaskId} {base base' : List String}
  {w w' : World}

/-- Where the terms do not allow modules to be loaded, nobody has to do with any. -/
theorem apart (h : m.Abreast p φ main ρ m') (hp : ¬ p.loads) : m.Apart ∧ m'.Apart := by
  have hreading : m.reading = [] ∧ m'.reading = [] := by
    rcases forall₂_cases h.reading with hnil | ⟨r, _, _, _, _, _, hr, _⟩
    · exact hnil
    · exact absurd hr.loads hp
  have hrunning := h.running
  constructor
  · refine ⟨fun t q k ks hr => ?_, hreading.1⟩
    rw [hr] at hrunning
    generalize m'.running = running' at hrunning
    cases hrunning with
    | some hx =>
      obtain ⟨_, _, _, _, _, hq, _⟩ := hx.2.asks
      exact (hq.not_ofModules hp).1
  · refine ⟨fun t q k ks hr => ?_, hreading.2⟩
    rw [hr] at hrunning
    generalize m.running = running at hrunning
    cases hrunning with
    | @some x _ hx =>
      obtain ⟨u, act, pending⟩ := x
      obtain ⟨_, hact, _⟩ := hx.2.inside
      cases hact with
      | ask hq _ => exact (hq.not_ofModules hp).2

/-- Machines that go on abreast then keep away from modules all along. -/
theorem secluded_runAll (limit : Nat) (h : m.Abreast p φ main ρ m') (ho : m.Orderly)
    (hp : ¬ p.loads) (hmain : ρ.tasks main main') (hw : World.Alike base base' w w')
    (hu : w.Uniform p) :
    ∃ log log', Secluded m log (m.runAll limit w).1 ∧ w.Answers log (m.runAll limit w).2 ∧
      Secluded m' log' (m'.runAll limit w').1 ∧ w'.Answers log' (m'.runAll limit w').2 := by
  induction limit generalizing m m' w w' ρ with
  | zero => exact ⟨[], [], .refl m, .nil w, .refl m', .nil w'⟩
  | succ limit ih =>
    obtain ⟨ha, ha'⟩ := h.apart hp
    have hstep := h.step ho (fun hl => absurd hl hp) hmain
    unfold Machine.runAll
    generalize hs : m.step = s at hstep
    generalize hs' : m'.step = s' at hstep
    cases hstep with
    | next hn =>
      obtain ⟨σ, hle, h₁⟩ := hn
      have hm := moves_of_step_next hs
      obtain ⟨log, log', hr, hlog, hr', hlog'⟩ := ih h₁ (ho.change hm.change) (hle.2.2 _ _ hmain) hw hu
      exact ⟨log, log', .head ha hm hr, hlog, .head ha' (moves_of_step_next hs') hr', hlog'⟩
    | @asks q q' resume resume' Q hq hn =>
      obtain ⟨hanswer, hw₁⟩ := hw.answer hu (fun hl => absurd hl hp) hq
      obtain ⟨σ, hle, h₁⟩ := hn _ _ hanswer
      have hm := moves_of_step_asks hs (w.answer q).1
      have hu₁ : (w.answer q).2.Uniform p := by
        rw [World.Uniform, World.answer_words]
        exact hu
      obtain ⟨log, log', hr, hlog, hr', hlog'⟩ := ih h₁ (ho.change hm.change) (hle.2.2 _ _ hmain) hw₁ hu₁
      exact ⟨_, _, .head ha hm hr, .cons hlog, .head ha' (moves_of_step_asks hs' _) hr', .cons hlog'⟩
    | idle _ =>
      obtain ⟨_, _, _, rfl⟩ := idle_of_step hs
      obtain ⟨_, _, _, rfl⟩ := idle_of_step hs'
      exact ⟨[], [], .refl _, .nil w, .refl _, .nil w'⟩

end Abreast

/-! ## Frames that are left alone -/

/-- All code that runs is calm, and all invocations are over frames from `n` on. -/
structure Spares (n : Nat) (J : Journal) (w : Provenance) (m : Machine) : Prop where
  orderly : m.Orderly
  proper : m.Proper J w
  calm : ∀ f b, w.code f b → b.Calm
  since : ∀ t, ∀ f ∈ J.invocations t, n ≤ f
  size : n ≤ m.scope.frames.size

end Machine

theorem Scope.frames_declare_of_ne {s : Scope} {f g : FrameId} {name : String} {d : Deferred}
    (h : g ≠ f) : (s.declare f name d).2.frames[g]? = s.frames[g]? := by
  unfold Scope.declare
  split
  · rfl
  · rw [Array.getElem?_modify, if_neg (Ne.symm h)]

theorem Scope.frames_add_of_lt {s : Scope} {frame : Frame} {f : FrameId} (h : f < s.frames.size) :
    (s.add frame).2.frames[f]? = s.frames[f]? := by
  rw [Scope.add, Array.getElem?_push_lt h, Array.getElem?_eq_getElem h]

namespace Machine

variable {m m' : Machine} {n : Nat} {J : Journal} {w : Provenance} {es : List Entry} {log : List Asked}

theorem calm_along (hw : ∀ f b, w.code f b → b.Calm) (ha : m.Apart) (ht : m.Tells es m') :
    ∀ f b, (w.along es).code f b → b.Calm := by
  intro f b hb
  rcases ht.one with rfl | ⟨e, rfl⟩
  · exact hw f b hb
  · cases e with
    | answered t q a =>
      cases q with
      | enter parent x =>
        rcases hb with hb | ⟨rfl, hb⟩
        · exact hw f b hb
        · exact hw parent b hb
      | enterModule g path => cases ha.answered ht
      | _ => exact hw f b hb
    | opened g body => cases ht
    | _ => exact hw f b hb

/-- What a move leaves alone. -/
theorem Spares.tells (h : m.Spares n J w) (ha : m.Apart) (ht : m.Tells es m')
    (hes : ∀ e ∈ es, w.Admits e) :
    m'.Spares n (es ++ J) (w.along es) ∧ ∀ f < n, m'.scope.frames[f]? = m.scope.frames[f]? := by
  obtain ⟨_, hc⟩ := ht.change
  have horderly := h.orderly.change hc
  have hproper := h.proper.tells h.orderly ht hes
  have hcalm := calm_along h.calm ha ht
  -- Entries other than that a frame was made add no invocation.
  have hkept : ∀ e, (∀ t parent x f, e ≠ .answered t (.enter parent x) f) →
      ∀ t, ∀ f ∈ Journal.invocations (e :: J) t, n ≤ f := fun e he t f hf =>
    h.since t f ((Journal.invocations_cons he t).subset hf)
  have htold := ht.scope
  have hone := ht.one
  generalize hs : m'.scope = scope' at htold
  cases htold with
  | same hsame =>
    refine ⟨⟨horderly, hproper, hcalm, ?_, by rw [hs]; exact h.size⟩, fun f _ => rfl⟩
    rcases hone with rfl | ⟨e, rfl⟩
    · exact h.since
    · refine hkept e ?_
      rintro t parent x f rfl
      cases hsame _ (List.mem_singleton.2 rfl)
  | enter t parent x =>
    have hdue := h.proper.due_of_tells ht
    refine ⟨⟨horderly, hproper, hcalm, fun u f hf => ?_, ?_⟩, fun f hf => ?_⟩
    · by_cases hu : u = t
      · subst hu
        rcases List.mem_cons.1 ((Journal.invocations_enter hdue.1).subset hf) with rfl | hf
        · exact h.size
        · exact h.since u f hf
      · have hother : (Entry.answered t (.enter parent x) m.scope.frames.size).task? ≠ some u :=
          fun he => hu (Option.some.inj he).symm
        rw [List.singleton_append, Journal.invocations, Journal.phases_cons_of_ne hother] at hf
        exact h.since u f hf
    · rw [hs]
      exact Nat.le_trans h.size (Nat.le_of_lt (by simp [Scope.addChild, Scope.add]))
    · exact Scope.frames_add_of_lt (Nat.lt_of_lt_of_le hf h.size)
  | enterModule t f path => cases ha.answered ht
  | declare t f name d =>
    obtain ⟨⟨hφ, _⟩, _⟩ := h.proper.due_of_tells ht
    have hf : n ≤ f := h.since t f (Journal.mem_invocations_of_phase hφ)
    refine ⟨⟨horderly, hproper, hcalm, hkept _ ?_, ?_⟩, fun g hg => ?_⟩
    · rintro _ _ _ _ ⟨⟩
    · rw [hs, Scope.sameShape_declare.size]
      exact h.size
    · exact Scope.frames_declare_of_ne (Nat.ne_of_lt (Nat.lt_of_lt_of_le hg hf))
  | rebind t f name d =>
    obtain ⟨⟨_, l, _, b, hb, hmem⟩, _⟩ := h.proper.due_of_tells ht
    exact absurd hmem (h.calm f b hb).not_mem
  | opened body => cases ht
  | declared name v => cases ht

/-- Calm code leaves all frames alone that were there before. -/
theorem Spares.secluded (hr : Secluded m log m') (h : m.Spares n J w)
    (hwords : ∀ name x a, ⟨.word name x, a⟩ ∈ log → Outcome.closures a ⊆ inputClosures x) :
    ∀ f < n, m'.scope.frames[f]? = m.scope.frames[f]? := by
  induction hr generalizing J w with
  | refl m => exact fun _ _ => rfl
  | @head m m₁ m₂ log log' ha hm _ ih =>
    obtain ⟨es, ht, hes⟩ := hm.change.tells
    have hadmits : ∀ e ∈ es, w.Admits e := by
      intro e he
      cases e with
      | answered t q a =>
        cases q with
        | world q =>
          cases q with
          | word name x =>
            intro hx
            refine hx.of_subset (hwords name x a (List.mem_append_left _ (hes ?_)))
            exact List.mem_filterMap.2 ⟨_, he, rfl⟩
          | _ => trivial
        | _ => trivial
      | started t job =>
        rcases ht.one with rfl | ⟨e, rfl⟩
        · cases he
        · cases List.mem_singleton.1 he
          cases ht
      | declared name v => exact absurd he (ht.isRun name v)
      | _ => trivial
    obtain ⟨h₁, hframes⟩ := h.tells ha ht hadmits
    intro f hf
    rw [ih h₁ (fun name x a hmem => hwords name x a (List.mem_append_right _ hmem)) f hf, hframes f hf]

end Machine

end Concatenative
