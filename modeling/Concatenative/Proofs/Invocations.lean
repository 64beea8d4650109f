import Concatenative.Proofs.Binding
import Concatenative.Proofs.Provenance.Machine

/-! Names belong to the invocation that bound them. Every frame but the root is made once: for an
invocation, for a module or for a text. An invocation is the one job that runs inside of its frame, and
what it has bound is read off the journal (`Bound`): these are the names of the `bind`s that its code has
come to and that were not refused (`Unfolds.bound_iff`). Main statement: in whatever state a machine may
be, frames own exactly the names that their invocations have bound, so a name is refused if and only if
the same invocation has bound it before (`names_belong_to_invocations`). -/
namespace Concatenative

/-! ## Invocations in a journal -/

/-- The frame that an entry tells the making of. -/
def Entry.frame? : Entry → Option FrameId
  | .answered _ (.enter _ _) f | .answered _ (.enterModule _ _) f | .opened f _ => some f
  | _ => none

/-- The frame of the invocation that a job is at. -/
def Phase.invocation? : Phase → Option FrameId
  | inside f => some f
  | outside | granted _ | unread _ | holding _ _ | building _ _ _ => none

namespace Journal

/-- The frames that were made, last first. -/
def frames (J : Journal) : List FrameId := J.filterMap Entry.frame?

/-- The frames of the invocations that a task is at, the innermost first. -/
def invocations (J : Journal) (t : TaskId) : List FrameId :=
  (J.phases t).filterMap Phase.invocation?

/-- A frame was made for an invocation. -/
def Entered (J : Journal) (f : FrameId) : Prop :=
  ∃ t parent x, Entry.answered t (.enter parent x) f ∈ J

/-- The invocation of a frame has bound a name. -/
inductive Bound (f : FrameId) (k : String) : Journal → Prop
  | now {J : Journal} {t : TaskId} {d : Deferred} : J.phase t = .inside f →
      Bound f k (.answered t (.declare f k d) (.ok ()) :: J)
  | before {J : Journal} (e : Entry) : Bound f k J → Bound f k (e :: J)

variable {J : Journal} {e : Entry} {t u : TaskId} {f : FrameId} {k : String}

theorem Entered.cons (h : J.Entered f) (e : Entry) : Entered (e :: J) f := by
  obtain ⟨t, parent, x, hmem⟩ := h
  exact ⟨t, parent, x, List.mem_cons_of_mem _ hmem⟩

theorem Entered.mem_frames (h : J.Entered f) : f ∈ J.frames := by
  obtain ⟨t, parent, x, hmem⟩ := h
  exact List.mem_filterMap.2 ⟨_, hmem, rfl⟩

/-- Entries that make the same frame are the same. -/
theorem eq_of_frame? {e' : Entry} (hnodup : J.frames.Nodup) (he : e ∈ J) (he' : e' ∈ J)
    (hf : e.frame? = some f) (hf' : e'.frame? = some f) : e = e' := by
  induction J with
  | nil => cases he
  | cons first J ih =>
    have hrest : (frames J).Nodup := hnodup.sublist ((List.sublist_cons_self ..).filterMap _)
    -- What makes the frame first is not told of again.
    have honce : ∀ e'' ∈ J, first.frame? = some f → e''.frame? ≠ some f := by
      intro e'' hmem hfirst hf''
      rw [frames, List.filterMap_cons_some hfirst] at hnodup
      exact (List.nodup_cons.1 hnodup).1 (List.mem_filterMap.2 ⟨e'', hmem, hf''⟩)
    rcases List.mem_cons.1 he with rfl | hmem
    · rcases List.mem_cons.1 he' with rfl | hmem'
      · rfl
      · exact absurd hf' (honce e' hmem' hf)
    · rcases List.mem_cons.1 he' with rfl | hmem'
      · exact absurd hf (honce e hmem hf')
      · exact ih hrest hmem hmem'

theorem Bound.split (h : J.Bound f k) :
    ∃ J₂ t d J₁, J = J₂ ++ .answered t (.declare f k d) (.ok ()) :: J₁ := by
  induction h with
  | @now J t d _ => exact ⟨[], t, d, J, rfl⟩
  | before e _ ih =>
    obtain ⟨J₂, t, d, J₁, rfl⟩ := ih
    exact ⟨e :: J₂, t, d, J₁, rfl⟩

theorem Bound.append (h : J.Bound f k) (J' : Journal) : Bound f k (J' ++ J) := by
  induction J' with
  | nil => exact h
  | cons e J' ih => exact .before e ih

theorem bound_cons_of_ne (h : ∀ t d, e ≠ .answered t (.declare f k d) (.ok ())) :
    Bound f k (e :: J) ↔ J.Bound f k := by
  constructor
  · intro hb
    cases hb with
    | now hφ => exact absurd rfl (h _ _)
    | before _ hb => exact hb
  · exact .before e

end Journal

namespace Phase

variable {φ : Phase} {f : FrameId}

/-- Only a frame that is given leads into an invocation. -/
theorem invocation?_next {q : Request} {a : q.Answer} (hq : ∀ parent x, q ≠ .enter parent x)
    (h : (φ.next q a).invocation? = some f) : φ.invocation? = some f := by
  cases q with
  | enter parent x => exact absurd rfl (hq parent x)
  | claim p =>
    cases a with
    | none => cases h
    | some body => exact h
  | world q =>
    cases q with
    | content p => cases a <;> cases h
    | _ => exact h
  | countParse =>
    cases φ with
    | holding p text => cases h
    | _ => exact h
  | settings =>
    cases φ with
    | building p text strict => cases h
    | _ => exact h
  | publish p body => cases h
  | giveUp p => cases h
  | _ => exact h

end Phase

namespace Journal

variable {J : Journal} {e : Entry} {t u : TaskId} {f : FrameId} {k : String}

/-- A task comes to no other invocation unless it is given a frame. -/
theorem invocations_cons (he : ∀ t parent x f, e ≠ .answered t (.enter parent x) f) (u : TaskId) :
    (invocations (e :: J) u).Sublist (J.invocations u) := by
  by_cases hu : e.task? = some u
  · cases e with
    | turned t turn =>
      cases hu
      rw [invocations, phases_turned]
      cases turn with
      | performs job => exact .refl _
      | becomes job => exact (List.tail_sublist _).filterMap _
      | returns o => exact (List.tail_sublist _).filterMap _
    | answered t q a =>
      cases hu
      rw [invocations, phases_answered, invocations]
      cases J.phases u with
      | nil => exact .refl _
      | cons φ φs =>
        rw [List.modifyHead_cons]
        cases hnext : (φ.next q a).invocation? with
        | none =>
          rw [List.filterMap_cons_none hnext]
          exact (List.sublist_cons_self ..).filterMap _
        | some f =>
          have hq : ∀ parent x, q ≠ .enter parent x := by
            rintro parent x rfl
            exact he _ _ _ _ rfl
          rw [List.filterMap_cons_some hnext,
            List.filterMap_cons_some (Phase.invocation?_next hq hnext)]
    | started t job => cases hu
    | opened f body => cases hu
    | declared name v => cases hu
  · rw [invocations, phases_cons_of_ne hu]
    exact .refl _

/-- A task that was at nothing and is given a frame runs an invocation more. -/
theorem invocations_enter {parent : FrameId} {x : Option Value} (h : J.phase t = .outside) :
    (invocations (.answered t (.enter parent x) f :: J) t).Sublist (f :: J.invocations t) := by
  rw [invocations, phases_answered, invocations]
  rw [phase] at h
  cases hφ : J.phases t with
  | nil => exact List.nil_sublist _
  | cons φ φs =>
    rw [hφ] at h
    cases h
    exact .refl _

theorem mem_invocations_of_phase (h : J.phase t = .inside f) : f ∈ J.invocations t := by
  rw [phase] at h
  cases hφ : J.phases t with
  | nil =>
    rw [hφ] at h
    cases h
  | cons φ φs =>
    rw [hφ] at h
    cases h
    rw [invocations, hφ]
    exact List.mem_cons_self

end Journal

/-! ## Names of frames -/

namespace Scope

variable {s : Scope} {f g : FrameId} {k k' : String} {d : Deferred}

theorem isDeclared_add {frame : Frame} (hb : frame.bindings = []) :
    (s.add frame).2.isDeclared g k' = s.isDeclared g k' := by
  unfold isDeclared add
  rw [Array.getElem?_push]
  split
  · next he =>
    rw [he, Array.getElem?_eq_none (Nat.le_refl _)]
    simp [Frame.owns, Frame.get?, hb]
  · rfl

theorem declare_of_isDeclared (h : s.isDeclared f k) :
    s.declare f k d = (.error (Cause.alreadyDefined k), s) := if_pos h

theorem declare_of_not_isDeclared (h : ¬ s.isDeclared f k) :
    s.declare f k d = (.ok (), ⟨s.frames.modify f (·.insert k d)⟩) := if_neg h

/-- A name that is declared is declared in its frame, and nothing else is. -/
theorem isDeclared_declare (hf : f < s.frames.size) :
    (s.declare f k d).2.isDeclared g k' ↔ s.isDeclared g k' ∨ g = f ∧ k' = k := by
  by_cases h : s.isDeclared f k
  · rw [declare_of_isDeclared h]
    constructor
    · exact .inl
    · rintro (h' | ⟨rfl, rfl⟩)
      · exact h'
      · exact h
  · rw [declare_of_not_isDeclared h, isDeclared_eq_isSome, isDeclared_eq_isSome, binding?_modify]
    by_cases hg : g = f
    · subst hg
      by_cases hk : k' = k
      · simp [hk, Frame.get?_insert, Array.getElem?_eq_getElem hf]
      · simp [hk, Frame.get?_insert, binding?]
    · simp [hg]

theorem isDeclared_rebind : (s.rebind f k d).2.isDeclared g k' = s.isDeclared g k' := by
  unfold Scope.rebind
  split
  · rw [isDeclared_eq_isSome, isDeclared_eq_isSome, binding?_modify]
    split
    · next he =>
      unfold binding?
      cases s.frames[g]? with
      | none => rfl
      | some frame =>
        by_cases hk : k' = k
        · simp [Frame.get?_replace, hk]
        · simp [Frame.get?_replace, hk]
    · rfl
  · rfl

end Scope

/-! ## What every step keeps -/

namespace Scope

open Session (root)

/-- Frames and names are as a journal says. -/
structure Invoked (s : Scope) (J : Journal) : Prop where
  frames : ∀ f, f < s.frames.size ↔ f = root ∨ f ∈ J.frames
  nodup : J.frames.Nodup
  notRoot : root ∉ J.frames
  entered : ∀ t f, f ∈ J.invocations t → J.Entered f
  single : ∀ t u f, f ∈ J.invocations t → f ∈ J.invocations u → t = u
  once : ∀ t, (J.invocations t).Nodup
  bound : ∀ f k, J.Bound f k → J.Entered f
  declared : ∀ f k, f ≠ root → (s.isDeclared f k ↔ J.Bound f k)
  root : ∀ k, s.isDeclared root k ↔
    Session.rootScope.isDeclared root k ∨ ∃ v, Entry.declared k v ∈ J

variable {s s' : Scope} {J : Journal} {e : Entry}

namespace Invoked

theorem lt_size {f : FrameId} (h : s.Invoked J) (hf : J.Entered f) : f < s.frames.size :=
  (h.frames f).2 (.inr hf.mem_frames)

theorem ne_root {f : FrameId} (h : s.Invoked J) (hf : J.Entered f) : f ≠ Session.root := by
  rintro rfl
  exact h.notRoot hf.mem_frames

theorem size_not_mem (h : s.Invoked J) : s.frames.size ∉ J.frames := fun hmem =>
  Nat.lt_irrefl _ ((h.frames _).2 (.inr hmem))

/-- Where a task is when it binds a name. -/
theorem entered_of_phase {t : TaskId} {f : FrameId} (h : s.Invoked J) (hφ : J.phase t = .inside f) :
    J.Entered f := h.entered t f (Journal.mem_invocations_of_phase hφ)

/-- What makes no frame and gives no name from outside. -/
theorem kept (h : s.Invoked J) (he : e.frame? = none)
    (hsize : s'.frames.size = s.frames.size)
    (hbound : ∀ f k, Journal.Bound f k (e :: J) → Journal.Entered J f)
    (hnames : ∀ f k, f ≠ Session.root → (s'.isDeclared f k ↔ Journal.Bound f k (e :: J)))
    (hroot : ∀ k, s'.isDeclared Session.root k ↔
      Session.rootScope.isDeclared Session.root k ∨ ∃ v, Entry.declared k v ∈ e :: J) :
    s'.Invoked (e :: J) := by
  have hframes : Journal.frames (e :: J) = J.frames := List.filterMap_cons_none he
  have hsub := Journal.invocations_cons (J := J) (e := e) (by
    rintro t parent x f rfl
    cases he)
  refine ⟨fun f => ?_, hframes ▸ h.nodup, hframes ▸ h.notRoot, fun t f hf => ?_, fun t u f hf hf' => ?_,
    fun t => (h.once t).sublist (hsub t), fun f k hb => (hbound f k hb).cons e, hnames, hroot⟩
  · rw [hsize, hframes]
    exact h.frames f
  · exact (h.entered t f ((hsub t).subset hf)).cons e
  · exact h.single t u f ((hsub t).subset hf) ((hsub u).subset hf')

/-- What leaves the frames as they are. -/
theorem same (h : s.Invoked J) (he : e.changesScope = false) : s.Invoked (e :: J) := by
  have hframe : e.frame? = none := by
    unfold Entry.changesScope at he
    unfold Entry.frame?
    split at he <;> simp_all
  have hne : ∀ f k t d, e ≠ .answered t (.declare f k d) (.ok ()) := by
    rintro f k t d rfl
    cases he
  have hdeclared : ∀ k v, e ≠ .declared k v := by
    rintro k v rfl
    cases he
  refine h.kept hframe rfl (fun f k hb => ?_) (fun f k hf => ?_) fun k => ?_
  · exact h.bound f k ((Journal.bound_cons_of_ne (hne f k)).1 hb)
  · rw [Journal.bound_cons_of_ne (hne f k)]
    exact h.declared f k hf
  · simpa [List.mem_cons, Ne.symm (hdeclared k _)] using h.root k

/-- A frame is made that has no names yet. -/
theorem made {frame : Frame} (h : s.Invoked J) (hb : frame.bindings = [])
    (he : e.frame? = some s.frames.size)
    (hentered : ∀ t f, f ∈ Journal.invocations (e :: J) t →
      f ∈ J.invocations t ∨ f = s.frames.size ∧ e.task? = some t ∧ Journal.Entered (e :: J) f)
    (honce : ∀ t, (Journal.invocations (e :: J) t).Nodup) : (s.add frame).2.Invoked (e :: J) := by
  have hframes : Journal.frames (e :: J) = s.frames.size :: J.frames :=
    List.filterMap_cons_some he
  have hne : ∀ f k t d, e ≠ .answered t (.declare f k d) (.ok ()) := by
    rintro f k t d rfl
    cases he
  have hdeclared : ∀ k v, e ≠ .declared k v := by
    rintro k v rfl
    cases he
  have hpos : Session.root < s.frames.size := (h.frames Session.root).2 (.inl rfl)
  refine ⟨fun f => ?_, ?_, ?_, fun t f hf => ?_, fun t u f hf hf' => ?_, honce, fun f k hb => ?_,
    fun f k hf => ?_, fun k => ?_⟩
  · have hsize : (s.add frame).2.frames.size = s.frames.size + 1 := Array.size_push ..
    have hold := h.frames f
    rw [hsize, hframes, List.mem_cons]
    grind
  · rw [hframes]
    exact List.nodup_cons.2 ⟨h.size_not_mem, h.nodup⟩
  · rw [hframes, List.mem_cons]
    rintro (hroot | hmem)
    · exact absurd hpos (hroot ▸ Nat.lt_irrefl _)
    · exact h.notRoot hmem
  · rcases hentered t f hf with hf | ⟨_, _, hf⟩
    · exact (h.entered t f hf).cons e
    · exact hf
  · -- A frame that is new is at one task only, and others are not new.
    rcases hentered t f hf with hf | ⟨rfl, ht, _⟩
    · rcases hentered u f hf' with hf' | ⟨rfl, _, _⟩
      · exact h.single t u f hf hf'
      · exact absurd (h.lt_size (h.entered t _ hf)) (Nat.lt_irrefl _)
    · rcases hentered u _ hf' with hf' | ⟨_, hu, _⟩
      · exact absurd (h.lt_size (h.entered u _ hf')) (Nat.lt_irrefl _)
      · exact Option.some.inj (ht.symm.trans hu)
  · exact (h.bound f k ((Journal.bound_cons_of_ne (hne f k)).1 hb)).cons e
  · rw [Scope.isDeclared_add hb, Journal.bound_cons_of_ne (hne f k)]
    exact h.declared f k hf
  · rw [Scope.isDeclared_add hb]
    simpa [List.mem_cons, Ne.symm (hdeclared k _)] using h.root k

/-- A frame is made that is no invocation's. -/
theorem made_outside {frame : Frame} (h : s.Invoked J) (hb : frame.bindings = [])
    (he : e.frame? = some s.frames.size) (hne : ∀ t parent x f, e ≠ .answered t (.enter parent x) f) :
    (s.add frame).2.Invoked (e :: J) := by
  refine h.made hb he (fun t f hf => .inl ?_) fun t => ?_
  · exact (Journal.invocations_cons hne t).subset hf
  · exact (h.once t).sublist (Journal.invocations_cons hne t)

theorem enter {t : TaskId} (h : s.Invoked J) (hφ : J.phase t = .outside) (parent : FrameId)
    (x : Option Value) : (s.addChild parent (x.map .settled)).2.Invoked
      (.answered t (.enter parent x) s.frames.size :: J) := by
  have hsub : (Journal.invocations (.answered t (.enter parent x) s.frames.size :: J) t).Sublist
      (s.frames.size :: J.invocations t) := Journal.invocations_enter hφ
  have hother : ∀ u, t ≠ u → Journal.invocations (.answered t (.enter parent x) s.frames.size :: J) u =
      J.invocations u := by
    intro u hu
    rw [Journal.invocations, Journal.phases_cons_of_ne (by simpa [Entry.task?] using hu)]
    rfl
  have hentered : Journal.Entered (.answered t (.enter parent x) s.frames.size :: J) s.frames.size :=
    ⟨t, parent, x, List.mem_cons_self⟩
  refine h.made rfl rfl (fun u f hf => ?_) fun u => ?_
  · by_cases hu : t = u
    · subst hu
      rcases List.mem_cons.1 (hsub.subset hf) with rfl | hf
      · exact .inr ⟨rfl, rfl, hentered⟩
      · exact .inl hf
    · exact .inl (hother u hu ▸ hf)
  · by_cases hu : t = u
    · subst hu
      refine List.Nodup.sublist hsub (List.nodup_cons.2 ⟨fun hf => ?_, h.once t⟩)
      exact absurd (h.lt_size (h.entered t _ hf)) (Nat.lt_irrefl _)
    · rw [hother u hu]
      exact h.once u

theorem declare {t : TaskId} {f : FrameId} (h : s.Invoked J) (hφ : J.phase t = .inside f) (k : String)
    (d : Deferred) :
    (s.declare f k d).2.Invoked (.answered t (.declare f k d) (s.declare f k d).1 :: J) := by
  have hentered := h.entered_of_phase hφ
  have hlt := h.lt_size hentered
  have hne := h.ne_root hentered
  have hbound : ∀ g k', Journal.Bound g k' (.answered t (.declare f k d) (s.declare f k d).1 :: J) ↔
      J.Bound g k' ∨ g = f ∧ k' = k := by
    intro g k'
    constructor
    · intro hb
      -- The entry is opened only after the answer is known to be a success.
      generalize (s.declare f k d).1 = r at hb
      cases hb with
      | now _ => exact .inr ⟨rfl, rfl⟩
      | before _ hb => exact .inl hb
    · rintro (hb | ⟨rfl, rfl⟩)
      · exact .before _ hb
      · by_cases hd : s.isDeclared g k'
        · exact .before _ ((h.declared g k' hne).1 hd)
        · rw [Scope.declare_of_not_isDeclared hd]
          exact .now hφ
  refine h.kept rfl sameShape_declare.size (fun g k' hb => ?_) (fun g k' hg => ?_) fun k' => ?_
  · rcases (hbound g k').1 hb with hb | ⟨rfl, _⟩
    · exact h.bound g k' hb
    · exact hentered
  · rw [Scope.isDeclared_declare hlt, hbound, h.declared g k' hg]
  · rw [Scope.isDeclared_declare hlt, h.root k']
    simp [Ne.symm hne]

theorem rebind {t : TaskId} (h : s.Invoked J) (f : FrameId) (k : String) (d : Deferred) :
    (s.rebind f k d).2.Invoked (.answered t (.rebind f k d) (s.rebind f k d).1 :: J) := by
  refine h.kept rfl sameShape_rebind.size (fun g k' hb => ?_) (fun g k' hg => ?_) fun k' => ?_
  · exact h.bound g k' ((Journal.bound_cons_of_ne (by simp)).1 hb)
  · rw [Scope.isDeclared_rebind, Journal.bound_cons_of_ne (by simp)]
    exact h.declared g k' hg
  · rw [Scope.isDeclared_rebind]
    simpa using h.root k'

/-- A name that is declared from outside is declared in the root. -/
theorem declaredInRoot (h : s.Invoked J) (k : String) (v : Value) :
    (s.declare Session.root k (.settled v)).2.Invoked (.declared k v :: J) := by
  have hlt : Session.root < s.frames.size := (h.frames Session.root).2 (.inl rfl)
  refine h.kept rfl sameShape_declare.size (fun g k' hb => ?_) (fun g k' hg => ?_) fun k' => ?_
  · exact h.bound g k' ((Journal.bound_cons_of_ne (by simp)).1 hb)
  · rw [Scope.isDeclared_declare hlt, Journal.bound_cons_of_ne (by simp), h.declared g k' hg]
    simp [hg]
  · rw [Scope.isDeclared_declare hlt, h.root k']
    grind

/-- What entries say of the frames is kept if invocations ask where they are. -/
theorem told {es : List Entry} {w : Provenance} (h : s.Invoked J) (ht : s.Told es s')
    (hes : es = [] ∨ ∃ e, es = [e])
    (hdue : ∀ t q a, es = [.answered t q a] → Request.Due w (J.phase t) q) :
    s'.Invoked (es ++ J) := by
  cases ht with
  | same hsame =>
    rcases hes with rfl | ⟨e, rfl⟩
    · exact h
    · exact h.same (hsame e (List.mem_singleton.2 rfl))
  | enter t parent x => exact h.enter (hdue _ _ _ rfl).1 parent x
  | enterModule t f path => exact h.made_outside rfl rfl (by simp)
  | declare t f k d => exact h.declare (hdue _ _ _ rfl).1.1 k d
  | rebind t f k d => exact h.rebind f k d
  | opened body => exact h.made_outside rfl rfl (by simp)
  | declared k v => exact h.declaredInRoot k v

end Invoked

theorem invoked_start : Session.rootScope.Invoked [] := by
  have hsize : Session.rootScope.frames.size = 1 := rfl
  refine ⟨fun f => ?_, List.nodup_nil, List.not_mem_nil, fun _ _ hf => (List.not_mem_nil hf).elim,
    fun _ _ _ hf => (List.not_mem_nil hf).elim, fun _ => List.nodup_nil, nofun, fun f k hf => ?_, ?_⟩
  · rw [hsize, Nat.lt_one_iff]
    simp [Journal.frames, Session.root]
  · have hnone : Session.rootScope.frames[f]? = none :=
      Array.getElem?_eq_none (hsize ▸ Nat.one_le_iff_ne_zero.2 hf)
    simp only [Scope.isDeclared, hnone]
    exact ⟨nofun, nofun⟩
  · simp

end Scope

namespace Machine

open Session (root)

variable {m m' : Machine} {J J' : Journal}

theorem Unfolds.invoked (h : Unfolds J m) : m.scope.Invoked J := by
  induction h with
  | start settings world => exact Scope.invoked_start
  | hosts hprev hh ih =>
    refine ih.told (w := .any) hh.scope hh.one fun t q a he => ?_
    subst he
    cases hh
  | @tells J es _ _ hprev ht ih =>
    refine ih.told (w := .along .any J) ht.scope ht.one fun t q a he => ?_
    subst he
    exact hprev.proper_any.due_of_tells ht

end Machine

/-! ## Names of invocations -/

/-- The invocation that a task runs in the frame `f` has executed a `bind` for `k` that was not
refused. -/
def Journal.Executes (J : Journal) (t : TaskId) (f : FrameId) (k : String) : Prop :=
  ∃ J₂ l d J₁, J = J₂ ++ .answered t (.declare f k d) (.ok ()) :: J₁ ∧ Journal.AtBind J₁ t f l k d

/-- How an invocation is answered that binds a name: it is inside of its frame, where its code has come
to a `bind` of just this name and value, and the name is refused as a duplicate if and only if it has
bound the name before. -/
structure Journal.AnswersBind (J : Journal) (t : TaskId) (f : FrameId) (k : String) (d : Deferred)
    (a : Except Failure Unit) : Prop where
  own : J.phase t = .inside f
  executed : ∃ l, J.AtBind t f l k d
  ok : a = .ok () ↔ ¬ J.Bound f k
  refused : (∃ e, a = .error e ∧ e.kind = .duplicateBinding) ↔ J.Bound f k

namespace Machine

open Session (root)

/-- Names belong to the invocations that bound them. -/
structure NamesBelong (m : Machine) (J : Journal) : Prop where
  /-- Every frame but the root was made once. -/
  frames : J.frames.Nodup ∧ ∀ f, f < m.scope.frames.size ↔ f = root ∨ f ∈ J.frames
  /-- No two jobs are inside of one frame. -/
  alone : (∀ t u f, f ∈ J.invocations t → f ∈ J.invocations u → t = u) ∧
    ∀ t, (J.invocations t).Nodup
  invocation : ∀ t parent x f, Entry.answered t (.enter parent x) f ∈ J →
    ∀ k, m.scope.isDeclared f k ↔ J.Bound f k
  module : ∀ t g path f, Entry.answered t (.enterModule g path) f ∈ J →
    ∀ k, ¬ m.scope.isDeclared f k
  text : ∀ f body, Entry.opened f body ∈ J → ∀ k, ¬ m.scope.isDeclared f k
  root : ∀ k, m.scope.isDeclared root k ↔
    Session.rootScope.isDeclared root k ∨ ∃ v, Entry.declared k v ∈ J
  binds : ∀ J₂ t f k d a J₁, J = J₂ ++ .answered t (.declare f k d) a :: J₁ →
    Journal.AnswersBind J₁ t f k d a
  /-- A task asks to declare a name just where the code that it runs has come to a `bind` for it. -/
  asks : ∀ t θ f k d, m.At t θ →
    ((∃ k' ks, θ = ⟨.ask (.declare f k d) k', ks⟩) ↔ ∃ l, J.AtBind t f l k d)
  /-- What is told next of a task that has come to a `bind` is how its declaration was answered. -/
  next : ∀ J₂ e J₁ t f l k d, J = J₂ ++ e :: J₁ → Journal.AtBind J₁ t f l k d → e.task? = some t →
    ∃ a, e = .answered t (.declare f k d) a
  /-- A `bind` that is refused is what its invocation fails with. -/
  fails : ∀ t f k d e J₁, J = .answered t (.declare f k d) (.error e) :: J₁ →
    ∃ l, Journal.AtBind J₁ t f l k d ∧ ∀ θ, m.At t θ → θ.act = .done (.error (e.orAt l))
  /-- After a `bind` that is not refused its invocation goes on with the code behind it. -/
  goesOn : ∀ t f k d J₁, J = .answered t (.declare f k d) (.ok ()) :: J₁ →
    ∃ b τ l front behind below, Journal.Runs J₁ t f b τ ∧ Evaluation.AtBind f l k d b.code [] τ ∧
      b.code = front ++ ⟨l, .primitive .bind⟩ :: behind ∧ ∀ θ, m.At t θ →
        θ.act = (Evaluation.code f behind below >>= fun v => (pure (.value v) : Eval Next)).run
  /-- The names of an invocation are those of the `bind`s that it has executed and that were not
  refused. -/
  keys : ∀ t parent x f, Entry.answered t (.enter parent x) f ∈ J →
    ∀ k, m.scope.isDeclared f k ↔ J.Executes t f k
  /-- Whatever is known of the code in a frame, it is a `bind` of it that binds a name. -/
  written : ∀ w : Provenance, w.AdmitsAll J → ∀ f k, J.Bound f k → ∃ l, (w.along J).Writes f l .bind

variable {m m' : Machine} {J J' : Journal}

/-- Each binding was answered as the frames were by then. -/
theorem Unfolds.answersBind {t : TaskId} {f : FrameId} {k : String} {d : Deferred}
    {a : Except Failure Unit} (h : Unfolds (J' ++ .answered t (.declare f k d) a :: J) m) :
    J.AnswersBind t f k d a := by
  have hexecuted := Unfolds.atBind_of_answered _ h
  obtain ⟨m₁, m₂, hprev, ht⟩ := h.answered
  have hφ : J.phase t = .inside f := (hprev.proper_any.due_of_tells ht).1.1
  have hne := hprev.invoked.ne_root (hprev.invoked.entered_of_phase hφ)
  have hnames := hprev.invoked.declared f k hne
  have ha := ht.scope.answer_declare
  by_cases hd : m₁.scope.isDeclared f k
  · rw [Scope.declare_of_isDeclared hd] at ha
    subst ha
    refine ⟨hφ, hexecuted, ⟨nofun, fun hb => absurd (hnames.1 hd) hb⟩, fun _ => hnames.1 hd, fun _ => ?_⟩
    exact ⟨_, rfl, rfl⟩
  · rw [Scope.declare_of_not_isDeclared hd] at ha
    subst ha
    have hb : ¬ J.Bound f k := fun hb => hd (hnames.2 hb)
    refine ⟨hφ, hexecuted, ⟨fun _ => hb, fun _ => rfl⟩, ?_, fun hb' => absurd hb' hb⟩
    rintro ⟨_, he, _⟩
    cases he

/-- The code of an invocation that has bound a name has a `bind`. -/
theorem Unfolds.writes_bind {w : Provenance} {f : FrameId} {k : String} (h : Unfolds J m)
    (hw : w.AdmitsAll J) (hb : J.Bound f k) : ∃ l, (w.along J).Writes f l .bind := by
  obtain ⟨J₂, t, d, J₁, rfl⟩ := hb.split
  exact (h.due_of_answered hw).1.2

/-- An invocation has bound a name if and only if it has executed a `bind` for it that was not
refused. -/
theorem Unfolds.bound_iff {t : TaskId} {parent : FrameId} {x : Option Value} {f : FrameId} {k : String}
    (h : Unfolds J m) (hf : Entry.answered t (.enter parent x) f ∈ J) :
    J.Bound f k ↔ J.Executes t f k := by
  constructor
  · intro hb
    obtain ⟨J₂, u, d, J₁, rfl⟩ := hb.split
    obtain ⟨l, hbind⟩ := Unfolds.atBind_of_answered _ h
    -- The task that has bound the name was given the frame, and the frame was given once.
    obtain ⟨parent', x', hf'⟩ := hbind.entered
    have hmem := List.mem_cons_of_mem (.answered u (.declare f k d) (.ok ())) hf'
    cases Journal.eq_of_frame? h.invoked.nodup hf (List.mem_append_right J₂ hmem) rfl rfl
    exact ⟨J₂, l, d, J₁, rfl, hbind⟩
  · rintro ⟨J₂, l, d, J₁, rfl, _⟩
    exact Journal.Bound.append (.now h.answersBind.own) J₂

theorem Unfolds.namesBelong (h : Unfolds J m) : m.NamesBelong J := by
  have hI := h.invoked
  -- A frame that was made otherwise is no invocation's.
  have hnameless : ∀ e f, e ∈ J → e.frame? = some f →
      (∀ t parent x, e ≠ .answered t (.enter parent x) f) → ∀ k, ¬ m.scope.isDeclared f k := by
    intro e f he hf hne k hd
    have hroot : f ≠ Session.root := by
      rintro rfl
      exact hI.notRoot (List.mem_filterMap.2 ⟨e, he, hf⟩)
    obtain ⟨t, parent, x, hmem⟩ := hI.bound f k ((hI.declared f k hroot).1 hd)
    exact hne t parent x (Journal.eq_of_frame? hI.nodup he hmem hf rfl)
  refine ⟨⟨hI.nodup, hI.frames⟩, ⟨hI.single, hI.once⟩, fun t parent x f hmem k => ?_,
    fun t g path f hmem => ?_, fun f body hmem => ?_, hI.root, ?_, fun t θ f k d => h.asks_declare, ?_,
    ?_, ?_, fun t parent x f hmem k => ?_, fun w hw f k hb => ?_⟩
  · exact hI.declared f k (hI.ne_root ⟨t, parent, x, hmem⟩)
  · exact hnameless _ f hmem rfl (by simp)
  · exact hnameless _ f hmem rfl (by simp)
  · rintro J₂ t f k d a J₁ rfl
    exact h.answersBind
  · rintro J₂ e J₁ t f l k d rfl hbind he
    exact h.declares_next hbind he
  · rintro t f k d e J₁ rfl
    exact h.act_of_refused
  · rintro t f k d J₁ rfl
    exact h.act_of_accepted
  · exact (hI.declared f k (hI.ne_root ⟨t, parent, x, hmem⟩)).trans (h.bound_iff hmem)
  · exact h.writes_bind hw hb

/-- What is not declared from outside is not declared in the root. -/
theorem Unfolds.root_kept (h : Unfolds J m) (h' : Unfolds (J' ++ J) m') (hrun : J'.IsRun)
    (k : String) : m'.scope.isDeclared root k = m.scope.isDeclared root k := by
  rw [Bool.eq_iff_iff, h.invoked.root k, h'.invoked.root k]
  have hdeclared : ∀ v, Entry.declared k v ∈ J' ++ J ↔ Entry.declared k v ∈ J := fun v =>
    List.mem_append.trans (or_iff_right (hrun k v))
  simp only [hdeclared]

end Machine

open Machine

/-- Names belong to the invocation that bound them, in every state that a session comes to: at any time
while jobs run in any order, and with whatever is run next. No run adds a name to the root. -/
theorem names_belong_to_invocations {J : Journal} {s : Session} (h : Unfolds J s.machine) :
    s.machine.NamesBelong J ∧
    (∀ J' m', s.machine.Recounts J' m' → m'.NamesBelong (J' ++ J) ∧
      ∀ k, m'.scope.isDeclared Session.root k = s.isDeclared k) ∧
    (∀ path text, ∃ J', (s.runText path text).2.machine.NamesBelong (J' ++ J) ∧
      ∀ k, (s.runText path text).2.isDeclared k = s.isDeclared k) ∧
    ∀ file, ∃ J', (s.runFile file).2.machine.NamesBelong (J' ++ J) ∧
      ∀ k, (s.runFile file).2.isDeclared k = s.isDeclared k := by
  refine ⟨h.namesBelong, fun J' m' hr => ?_, fun path text => ?_, fun file => ?_⟩
  · have h' := h.recounts hr
    exact ⟨h'.namesBelong, h.root_kept h' hr.isRun⟩
  · obtain ⟨J', hrun, h'⟩ := Session.unfolds_runText h path text
    exact ⟨J', h'.namesBelong, h.root_kept h' hrun⟩
  · obtain ⟨J', hrun, h'⟩ := Session.unfolds_runFile h file
    exact ⟨J', h'.namesBelong, h.root_kept h' hrun⟩

/-- A text that binds the name of a word anew. -/
def rebinding : Session := ((Session.start {} {}).runText "a" "1 sum : 2 x :").2

theorem names_belong_to_invocations_rebinding :
    ∃ J, Unfolds J rebinding.machine ∧ rebinding.machine.NamesBelong J ∧
      rebinding.isDeclared "x" = false := by
  have hstart : Unfolds [] (Session.start {} {}).machine := .start {} {}
  obtain ⟨J, _, h⟩ := Session.unfolds_runText hstart "a" "1 sum : 2 x :"
  refine ⟨_, h, (names_belong_to_invocations (s := rebinding) h).1, ?_⟩
  obtain ⟨_, _, hkept⟩ := (names_belong_to_invocations hstart).2.2.1 "a" "1 sum : 2 x :"
  rw [rebinding, hkept]
  decide

end Concatenative
