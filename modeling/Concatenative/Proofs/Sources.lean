import Concatenative.Proofs.Lineage
import Concatenative.Proofs.Provenance.Machine

/-! Where code is from. The code that runs over the frames of a unit is that of the text that the unit
was opened for, or that of the file that it is a load of (`Journal.Source`). Main statement: whatever
is known to run over a frame is from where its unit says, and the file that the frame says its code is
from is that file (`Grounded.told`). -/
namespace Concatenative

theorem Body.Part.trans {a b c : Body} (h : a.Part b) (h' : b.Part c) : a.Part c := by
  induction h' with
  | self => exact h
  | nested hmem _ ih => exact .nested hmem ih

/-! ## Texts that were read -/

/-- The text that was read of a file, with its path. -/
def Phase.text? : Phase → Option (Path × String)
  | holding p text | building p text _ => some (p, text)
  | outside | inside _ | granted _ | unread _ => none

theorem Phase.text?_next {φ : Phase} {q : Request} {a : q.Answer} {p : Path} {text : String}
    (h : (φ.next q a).text? = some (p, text)) :
    φ.text? = some (p, text) ∨
      ∀ t, Entry.answered t q a = .answered t (.world (.content p)) (.ok text) := by
  cases q with
  | enter parent x => cases h
  | claim p' =>
    cases a with
    | none => cases h
    | some body => exact .inl h
  | publish p' body => cases h
  | giveUp p' => cases h
  | countParse => cases φ <;> exact .inl h
  | settings => cases φ <;> exact .inl h
  | world q =>
    cases q with
    | content p' =>
      cases a with
      | error fault => cases h
      | ok text' =>
        cases h
        exact .inr fun _ => rfl
    | _ => exact .inl h
  | _ => exact .inl h

namespace Journal

variable {J J' : Journal} {e : Entry} {t : TaskId} {φ : Phase} {p : Path} {text : String}

theorem mem_phases_cons (h : φ ∈ phases (e :: J) t) :
    φ ∈ J.phases t ∨ φ = .outside ∨ ∃ q a, e = .answered t q a ∧ ∃ ψ ∈ J.phases t, φ = ψ.next q a := by
  by_cases he : e.task? = some t
  · cases e with
    | turned u turn =>
      cases he
      rw [phases_turned] at h
      cases turn with
      | performs job => exact (List.mem_cons.1 h).elim (.inr ∘ .inl) .inl
      | becomes job => exact (List.mem_cons.1 h).elim (.inr ∘ .inl) (.inl ∘ List.mem_of_mem_tail)
      | returns o => exact .inl (List.mem_of_mem_tail h)
    | answered u q a =>
      cases he
      rw [phases_answered] at h
      cases hJ : J.phases t with
      | nil =>
        rw [hJ] at h
        cases h
      | cons ψ ψs =>
        rw [hJ] at h
        rcases List.mem_cons.1 h with rfl | h
        · exact .inr (.inr ⟨q, a, rfl, ψ, List.mem_cons_self, rfl⟩)
        · exact .inl (List.mem_cons_of_mem _ h)
    | _ => cases he
  · rw [phases_cons_of_ne he] at h
    exact .inl h

/-- What a task holds or builds was read. -/
theorem read_of_mem_phases (h : φ ∈ J.phases t) (hφ : φ.text? = some (p, text)) :
    Entry.answered t (.world (.content p)) (.ok text) ∈ J := by
  induction J generalizing φ with
  | nil =>
    cases List.mem_singleton.1 h
    cases hφ
  | cons e J ih =>
    rcases mem_phases_cons h with h | rfl | ⟨q, a, rfl, ψ, hψ, rfl⟩
    · exact List.mem_cons_of_mem _ (ih h hφ)
    · cases hφ
    · rcases Phase.text?_next hφ with hφ | he
      · exact List.mem_cons_of_mem _ (ih hψ hφ)
      · rw [he]
        exact List.mem_cons_self

/-- What was read of a file builds to a body. -/
def Builds (J : Journal) (p : Path) (body : Body) : Prop :=
  ∃ t q text strict, Entry.answered t (.world (.content q)) (.ok text) ∈ J ∧ q.same p ∧
    (build strict q.text text).result = .ok body

/-- What the code of a unit was built from: a text, or the file of a module. -/
inductive Source (J : Journal) (u : FrameId) : Option Path → Body → Prop
  | text {strict : Bool} {path text : String} {body : Body} : Entry.opened u body ∈ J →
      (build strict path text).result = .ok body → Source J u none body
  | module {t : TaskId} {g : FrameId} {p : Path} {body : Body} :
      Entry.answered t (.enterModule g p) u ∈ J → J.Builds p body → Source J u (some p) body

theorem Builds.mono {body : Body} (hJ : J ⊆ J') (h : J.Builds p body) : J'.Builds p body := by
  obtain ⟨t, q, text, strict, hread, hsame, hb⟩ := h
  exact ⟨t, q, text, strict, hJ hread, hsame, hb⟩

theorem Source.mono {u : FrameId} {p? : Option Path} {body : Body} (hJ : J ⊆ J')
    (h : J.Source u p? body) : J'.Source u p? body := by
  cases h with
  | text hopen hb => exact .text (hJ hopen) hb
  | module henter hb => exact .module (hJ henter) (hb.mono hJ)

end Journal

/-! ## Code over frames -/

open Session (root)

/-- A body is of what the unit of a frame was built from, and the file that the frame says its code is
from is that of the unit. -/
def Scope.Traced (s : Scope) (J : Journal) (x : Anchored) : Prop :=
  x.2 ≠ root ∧ x.2 < s.frames.size ∧
    ∃ body, J.Source (s.unit x.2) (s.modulePath? x.2) body ∧ x.1.Part body

/-- What an entry says of a frame is so: frames for texts and for loads of modules are units of their
own, those of invocations belong to the unit of their parent, and references start from the directory
of the file that the code in the frame is from. -/
def Entry.Placed (s : Scope) : Entry → Prop
  | .opened f _ => f ≠ root ∧ f < s.frames.size ∧ s.unit f = f ∧ s.modulePath? f = none
  | .answered _ (.enterModule g p) f =>
    f ≠ root ∧ g < f ∧ f < s.frames.size ∧ s.unit f = f ∧ s.unit g ≠ f ∧ s.modulePath? f = some p
  | .answered _ (.enter g _) f =>
    f ≠ root ∧ g < f ∧ f < s.frames.size ∧ s.unit f = s.unit g ∧ s.modulePath? f = s.modulePath? g
  | .answered _ (.moduleDirectory f) a =>
    f < s.frames.size ∧ a = .ok ((s.modulePath? f).bind Path.parent?)
  | _ => True

variable {s s' : Scope} {J J' : Journal} {w : Provenance} {e : Entry} {x : Anchored}

theorem Scope.Traced.mono (hs : s.Within s') (hJ : J ⊆ J') (h : s.Traced J x) : s'.Traced J' x := by
  obtain ⟨hne, hlt, body, hsource, hpart⟩ := h
  refine ⟨hne, Nat.lt_of_lt_of_le hlt hs.size, body, ?_, hpart⟩
  rw [hs.unit _ hlt, hs.modulePath _ hlt]
  exact hsource.mono hJ

theorem Entry.Placed.mono (hs : s.Within s') (h : e.Placed s) : e.Placed s' := by
  cases e with
  | opened f body =>
    obtain ⟨hne, hlt, hunit, hpath⟩ := h
    exact ⟨hne, Nat.lt_of_lt_of_le hlt hs.size, (hs.unit f hlt).trans hunit,
      (hs.modulePath f hlt).trans hpath⟩
  | answered t q a =>
    cases q with
    | enterModule g p =>
      obtain ⟨hne, hg, hlt, hunit, hother, hpath⟩ := h
      refine ⟨hne, hg, Nat.lt_of_lt_of_le hlt hs.size, (hs.unit a hlt).trans hunit, ?_,
        (hs.modulePath a hlt).trans hpath⟩
      rwa [hs.unit g (Nat.lt_trans hg hlt)]
    | enter g input =>
      obtain ⟨hne, hg, hlt, hunit, hpath⟩ := h
      have hg' := Nat.lt_trans hg hlt
      refine ⟨hne, hg, Nat.lt_of_lt_of_le hlt hs.size, ?_, ?_⟩
      · rw [hs.unit a hlt, hs.unit g hg', hunit]
      · rw [hs.modulePath a hlt, hs.modulePath g hg', hpath]
    | moduleDirectory f =>
      obtain ⟨hlt, ha⟩ := h
      exact ⟨Nat.lt_of_lt_of_le hlt hs.size, by rw [hs.modulePath f hlt, ha]⟩
    | _ => trivial
  | _ => trivial

namespace Scope

/-- What is known of code is so. -/
structure Grounded (s : Scope) (J : Journal) (w : Provenance) : Prop where
  rooted : s.Rooted
  frames : ∀ f, w.frames f → f < s.frames.size
  code : ∀ f b, w.code f b → s.Traced J (b, f)
  modules : ∀ p b, w.modules p b → ∃ body, J.Builds p body ∧ b.Part body
  placed : ∀ e ∈ J, e.Placed s

namespace Grounded

theorem traced (h : s.Grounded J w) (hx : w.Runs x) : s.Traced J x := h.code _ _ (hx.2 _ .self)

/-- One entry more. -/
theorem cons (h : s.Grounded J w) (hs : s.Within s') (hr : s'.Rooted)
    (hf : ∀ f, (w.entry e).frames f → w.frames f ∨ f < s'.frames.size)
    (hc : ∀ f b, (w.entry e).code f b → w.code f b ∨ s'.Traced (e :: J) (b, f))
    (hm : ∀ p b, (w.entry e).modules p b → w.modules p b ∨
      ∃ body, Journal.Builds (e :: J) p body ∧ b.Part body)
    (he : e.Placed s') : s'.Grounded (e :: J) (w.entry e) := by
  have hJ : J ⊆ e :: J := List.subset_cons_self e J
  refine ⟨hr, fun f hf' => ?_, fun f b hc' => ?_, fun p b hm' => ?_, fun e' he' => ?_⟩
  · exact (hf f hf').elim (fun hold => Nat.lt_of_lt_of_le (h.frames f hold) hs.size) id
  · exact (hc f b hc').elim (fun hold => (h.code f b hold).mono hs hJ) id
  · rcases hm p b hm' with hold | hnew
    · obtain ⟨body, hbuilds, hpart⟩ := h.modules p b hold
      exact ⟨body, hbuilds.mono hJ, hpart⟩
    · exact hnew
  · rcases List.mem_cons.1 he' with rfl | he'
    · exact he
    · exact (h.placed e' he').mono hs

/-- Names are no code. -/
theorem named (h : s.Grounded J w) (hs : s.SameShape s') (hw : w.entry e = w) (he : e.Placed s') :
    s'.Grounded (e :: J) (w.entry e) := by
  refine h.cons hs.within (h.rooted.sameShape hs) (fun f hf => ?_) (fun f b hc => ?_)
    (fun p b hm => ?_) he
  · exact .inl (hw ▸ hf)
  · exact .inl (hw ▸ hc)
  · exact .inl (hw ▸ hm)

/-- An answer that makes no frame; what is kept for a module was built from what was read. -/
theorem answered {t : TaskId} {q : Request} {a : q.Answer} (h : s.Grounded J w)
    (hq : (Entry.answered t q a).changesScope = false) (hdue : q.Due w (J.phase t))
    (hdir : ∀ f, q = .moduleDirectory f → (Entry.answered t q a).Placed s) :
    s.Grounded (.answered t q a :: J) (w.entry (.answered t q a)) := by
  have hsame : s.SameShape s := rfl
  cases q with
  | enter parent input => cases hq
  | enterModule g p => cases hq
  | moduleDirectory f => exact h.named hsame rfl (hdir f rfl)
  | publish p body =>
    obtain ⟨text, strict, hφ, hb⟩ := hdue
    refine h.cons hsame.within h.rooted (fun _ => .inl) (fun _ _ => .inl) (fun p' b hm => ?_) trivial
    refine hm.imp_right fun ⟨hp, hpart⟩ => ⟨body, ⟨t, p, text, strict, ?_, hp, hb⟩, hpart⟩
    -- The text that is being built is that of the file.
    refine List.mem_cons_of_mem _ (Journal.read_of_mem_phases (t := t) (φ := J.phase t) ?_ ?_)
    · cases hphases : J.phases t with
      | nil =>
        rw [Journal.phase, hphases] at hφ
        cases hφ
      | cons φ φs =>
        rw [Journal.phase, hphases]
        exact List.mem_cons_self
    · rw [hφ]
      rfl
  | world q =>
    cases q <;> exact h.named hsame rfl trivial
  | _ => exact h.named hsame rfl trivial

/-- A frame for code of its own comes right under the root. -/
theorem added (h : s.Grounded J w) (frame : Frame) (hp : frame.parent = some root) :
    (s.add frame).2.Rooted ∧ s.frames.size ≠ root ∧ s.frames.size < (s.add frame).2.frames.size ∧
      (s.add frame).2.unit s.frames.size = s.frames.size ∧
      (s.add frame).2.modulePath? s.frames.size = frame.modulePath := by
  have hlt := h.rooted.root_lt
  have hr := h.rooted.add hp hlt fun _ _ => rfl
  have hne : s.frames.size ≠ root := Nat.ne_of_gt hlt
  have hnew : (s.add frame).2.frames[s.frames.size]? = some frame := by simp [Scope.add]
  refine ⟨hr, hne, (Array.getElem?_eq_some_iff.1 hnew).1, hr.unit_of_parent_root hnew hp hne, ?_⟩
  rw [modulePath?_new hp hlt, h.rooted.modulePath?_root, Option.or_none]

theorem opened {body : Body} {strict : Bool} {path text : String} (h : s.Grounded J w)
    (hb : (build strict path text).result = .ok body) :
    (s.addChild root none).2.Grounded (.opened s.frames.size body :: J)
      (w.entry (.opened s.frames.size body)) := by
  obtain ⟨hr, hne, hlt, hunit, hpath⟩ := h.added { parent := some root } rfl
  refine h.cons within_add hr (fun f hf => hf.imp_right ?_) (fun f b hc => hc.imp_right ?_)
    (fun _ _ => .inl) ⟨hne, hlt, hunit, hpath⟩
  · rintro rfl
    exact hlt
  · rintro ⟨rfl, hpart⟩
    refine ⟨hne, hlt, body, ?_, hpart⟩
    rw [show (s.addChild root none).2.unit s.frames.size = _ from hunit,
      show (s.addChild root none).2.modulePath? s.frames.size = _ from hpath]
    exact .text List.mem_cons_self hb

theorem enterModule {t : TaskId} {g : FrameId} {p : Path} (h : s.Grounded J w) (hg : w.frames g) :
    (s.addModule (s.rootOf g) p).2.Grounded (.answered t (.enterModule g p) s.frames.size :: J)
      (w.entry (.answered t (.enterModule g p) s.frames.size)) := by
  have hg' := h.frames g hg
  rw [h.rooted.rootOf hg']
  obtain ⟨hr, hne, hlt, hunit, hpath⟩ :=
    h.added { parent := some root, modulePath := some p } rfl
  have hwithin : s.Within (s.addModule root p).2 := within_add
  refine h.cons hwithin hr (fun f hf => hf.imp_right ?_) (fun f b hc => hc.imp_right ?_)
    (fun _ _ => .inl) ⟨hne, hg', hlt, hunit, ?_, hpath⟩
  · rintro rfl
    exact hlt
  · rintro ⟨rfl, hm⟩
    obtain ⟨body, hbuilds, hpart⟩ := h.modules p b hm
    refine ⟨hne, hlt, body, ?_, hpart⟩
    rw [show (s.addModule root p).2.unit s.frames.size = _ from hunit,
      show (s.addModule root p).2.modulePath? s.frames.size = _ from hpath]
    exact .module List.mem_cons_self (hbuilds.mono (List.subset_cons_self _ _))
  · rw [show (s.addModule root p).2.unit g = _ from hwithin.unit g hg']
    exact Nat.ne_of_lt (unit_lt hg')

/-- An invocation runs what may run over the frame above it. -/
theorem enter {t : TaskId} {g : FrameId} {input : Option Value} (h : s.Grounded J w)
    (hg : w.frames g) (hc : ∃ b, w.code g b) :
    (s.addChild g (input.map .settled)).2.Grounded (.answered t (.enter g input) s.frames.size :: J)
      (w.entry (.answered t (.enter g input) s.frames.size)) := by
  have hg' := h.frames g hg
  obtain ⟨b₀, hb₀⟩ := hc
  have hgroot : g ≠ root := (h.code g b₀ hb₀).1
  have hr : (s.addChild g (input.map .settled)).2.Rooted := h.rooted.add rfl hg' nofun
  have hwithin : s.Within (s.addChild g (input.map .settled)).2 := within_add
  have hne : s.frames.size ≠ root := Nat.ne_of_gt h.rooted.root_lt
  have hnew : (s.addChild g (input.map .settled)).2.frames[s.frames.size]? =
      some { parent := some g, input := input.map .settled } := by
    simp [Scope.addChild, Scope.add]
  have hlt := (Array.getElem?_eq_some_iff.1 hnew).1
  have hunit : (s.addChild g (input.map .settled)).2.unit s.frames.size = s.unit g := by
    rw [hr.unit_of_parent hnew rfl hne hgroot, hwithin.unit g hg']
  have hpath : (s.addChild g (input.map .settled)).2.modulePath? s.frames.size = s.modulePath? g :=
    modulePath?_new rfl hg'
  refine h.cons hwithin hr (fun f hf => hf.imp_right ?_) (fun f b hc => hc.imp_right ?_)
    (fun _ _ => .inl) ⟨hne, hg', hlt, ?_, ?_⟩
  · rintro rfl
    exact hlt
  · rintro ⟨rfl, hb⟩
    obtain ⟨_, _, body, hsource, hpart⟩ := h.code g b hb
    refine ⟨hne, hlt, body, ?_, hpart⟩
    rw [hunit, hpath]
    exact hsource.mono (List.subset_cons_self _ _)
  · rw [hunit, hwithin.unit g hg']
  · rw [hpath, hwithin.modulePath g hg']

/-- What entries say of the frames keeps this, if answers were due and bodies of texts were built. -/
theorem told {es : List Entry} (h : s.Grounded J w) (ht : s.Told es s')
    (hes : es = [] ∨ ∃ e, es = [e])
    (hdue : ∀ t q a, es = [.answered t q a] → Request.Due w (J.phase t) q)
    (hdir : ∀ t f a, es = [.answered t (.moduleDirectory f) a] →
      a = (s.requireLibrary f).map fun _ => s.moduleDirectory? f)
    (hopened : ∀ f body, es = [.opened f body] →
      ∃ strict path text, (build strict path text).result = .ok body) :
    s'.Grounded (es ++ J) (w.along es) := by
  cases ht with
  | same hsame =>
    rcases hes with rfl | ⟨e, rfl⟩
    · exact h
    · have he := hsame e (List.mem_singleton.2 rfl)
      cases e with
      | answered t q a =>
        refine h.answered he (hdue t q a rfl) ?_
        rintro f rfl
        have hf : f < s.frames.size := by
          obtain ⟨l, hl⟩ := (hdue t _ a rfl).2
          exact h.frames f (hl.elim (·.1) (·.1))
        refine ⟨hf, ?_⟩
        rw [hdir t f a rfl, h.rooted.requireLibrary hf]
        rfl
      | opened f body => cases he
      | declared name v => cases he
      | started t job => exact h.named rfl rfl trivial
      | turned t turn => exact h.named rfl rfl trivial
  | enter t g input =>
    obtain ⟨_, hg, hc, _⟩ := hdue _ _ _ rfl
    exact h.enter hg hc
  | enterModule t g p => exact h.enterModule (hdue _ _ _ rfl).2
  | declare t f name d => exact h.named sameShape_declare rfl trivial
  | rebind t f name d => exact h.named sameShape_rebind rfl trivial
  | opened body =>
    obtain ⟨strict, path, text, hb⟩ := hopened _ _ rfl
    exact h.opened hb
  | declared name v => exact h.named sameShape_declare rfl trivial

end Grounded

end Scope

end Concatenative
