import Concatenative.Proofs.Scoping
import Concatenative.Session

/-! Frames and what they hang under. In frames that are `Rooted` every way up ends at the root, and a
frame that says which file its code is from hangs right under it. So each frame but the root belongs to
one text or one load of a module, its `unit`, and no way up leads from one unit into another
(`Rooted.apart`). -/
namespace Concatenative

namespace Scope

open Session (root)

/-- The frame next to the root that a frame hangs under. -/
def unit (s : Scope) (f : FrameId) : FrameId := ((s.chain f).map Prod.fst).dropLast.getLast?.getD f

/-- Every frame hangs under the root, and modules right under it. -/
structure Rooted (s : Scope) : Prop where
  top : ∃ frame : Frame, s.frames[root]? = some frame ∧ frame.parent = none ∧ frame.library = true ∧
    frame.modulePath = none
  parent : ∀ (f : FrameId) (frame : Frame), s.frames[f]? = some frame → f ≠ root →
    ∃ g, frame.parent = some g ∧ g < f
  module : ∀ (f : FrameId) (frame : Frame) p, s.frames[f]? = some frame →
    frame.modulePath = some p → frame.parent = some root

variable {s s' : Scope} {f g : FrameId} {frame : Frame}

namespace Rooted

theorem root_lt (h : s.Rooted) : Session.root < s.frames.size := by
  obtain ⟨frame, hs, _⟩ := h.top
  exact (Array.getElem?_eq_some_iff.1 hs).1

theorem chain_root (h : s.Rooted) :
    ∃ frame, s.chain root = [(Session.root, frame)] ∧ frame.library = true ∧
      frame.modulePath = none := by
  obtain ⟨frame, hs, hp, hl, hm⟩ := h.top
  exact ⟨frame, Scope.chain_root hs hp, hl, hm⟩

/-- What holds of the root and of a frame whenever it holds of its parent holds of all frames. -/
theorem induction {P : (f : FrameId) → f < s.frames.size → Prop} (h : s.Rooted)
    (hroot : ∀ hf, P root hf)
    (hchild : ∀ (f g : FrameId) (frame : Frame) hf hg, s.frames[f]? = some frame →
      frame.parent = some g → f ≠ root → s.chain f = (f, frame) :: s.chain g → P g hg → P f hf)
    (f : FrameId) (hf : f < s.frames.size) : P f hf := by
  induction f using Nat.strongRecOn with
  | ind f ih =>
    by_cases hne : f = Session.root
    · subst hne
      exact hroot hf
    · have hs : s.frames[f]? = some s.frames[f] := Array.getElem?_eq_getElem hf
      obtain ⟨g, hp, hlt⟩ := h.parent f _ hs hne
      have hg := Nat.lt_trans hlt hf
      exact hchild f g _ hf hg hs hp hne (chain_child hs hp hlt) (ih g hlt hg)

theorem rootOf (h : s.Rooted) (hf : f < s.frames.size) : s.rootOf f = root := by
  have hlast : (s.chain f).getLast?.map Prod.fst = some root := by
    induction f, hf using h.induction with
    | hroot _ =>
      obtain ⟨frame, hc, _⟩ := h.chain_root
      rw [hc]
      rfl
    | hchild f g frame _ _ _ _ _ hc ih =>
      cases hg : s.chain g with
      | nil => simp [hg] at ih
      | cons x xs =>
        rw [hg] at ih
        rw [hc, hg]
        exact ih
  rw [Scope.rootOf, hlast]
  rfl

theorem requireLibrary (h : s.Rooted) (hf : f < s.frames.size) : s.requireLibrary f = .ok () := by
  have hany : (s.chain f).any (fun x => x.2.library) = true := by
    induction f, hf using h.induction with
    | hroot _ =>
      obtain ⟨frame, hc, hl, _⟩ := h.chain_root
      simp [hc, hl]
    | hchild f g frame _ _ _ _ _ hc ih => simp [hc, ih]
  exact if_pos hany

theorem modulePath?_root (h : s.Rooted) : s.modulePath? root = none := by
  obtain ⟨frame, hc, _, hm⟩ := h.chain_root
  simp [Scope.modulePath?, hc, hm]

/-- No way up leads through two modules. -/
theorem single (h : s.Rooted) (hf : f < s.frames.size) :
    ((s.chain f).filterMap fun x => x.2.modulePath).length ≤ 1 := by
  have hroot : (s.chain root).filterMap (fun x => x.2.modulePath) = [] := by
    obtain ⟨frame, hc, _, hm⟩ := h.chain_root
    simp [hc, hm]
  induction f, hf using h.induction with
  | hroot _ => simp [hroot]
  | hchild f g frame _ _ hs hp _ hc ih =>
    cases hm : frame.modulePath with
    | none => simpa [hc, hm] using ih
    | some p =>
      cases hp.symm.trans (h.module f frame p hs hm)
      simp [hc, hm, hroot]

/-! ## Units -/

/-- A frame right under the root is a unit of its own. -/
theorem unit_of_parent_root (h : s.Rooted) (hs : s.frames[f]? = some frame)
    (hp : frame.parent = some root) (hne : f ≠ root) : s.unit f = f := by
  obtain ⟨g, hg, hlt⟩ := h.parent f frame hs hne
  cases hp.symm.trans hg
  obtain ⟨top, hc, _⟩ := h.chain_root
  simp [unit, chain_child hs hp hlt, hc]

/-- Other frames belong to the unit of their parent. -/
theorem unit_of_parent (h : s.Rooted) (hs : s.frames[f]? = some frame)
    (hp : frame.parent = some g) (hne : f ≠ root) (hg : g ≠ root) : s.unit f = s.unit g := by
  obtain ⟨g', hg', hlt⟩ := h.parent f frame hs hne
  cases hp.symm.trans hg'
  have hsize := Nat.lt_trans hlt (Array.getElem?_eq_some_iff.1 hs).1
  obtain ⟨k, hgk, hlt'⟩ := h.parent g _ (Array.getElem?_eq_getElem hsize) hg
  have hgc := chain_child (Array.getElem?_eq_getElem hsize) hgk hlt'
  -- The parent is not the root, so its chain goes on and the last but one is the same.
  obtain ⟨top, hmem⟩ := s.exists_mem_chain (Nat.lt_trans hlt' hsize)
  cases hk : s.chain k with
  | nil =>
    rw [hk] at hmem
    cases hmem
  | cons x xs =>
    rw [unit, unit, chain_child hs hp hlt, hgc, hk]
    simp [List.getLast?_cons]

/-- The way up from a frame stays in its unit until it comes to the root. -/
theorem apart (h : s.Rooted) (hf : f < s.frames.size) (hmem : (g, frame) ∈ s.chain f) :
    g = root ∨ s.unit g = s.unit f := by
  induction f, hf using h.induction with
  | hroot _ =>
    obtain ⟨top, hc, _⟩ := h.chain_root
    rw [hc] at hmem
    cases List.mem_singleton.1 hmem
    exact .inl rfl
  | hchild f k frame' _ _ hs hp hne hc ih =>
    rw [hc] at hmem
    rcases List.mem_cons.1 hmem with he | hmem
    · cases he
      exact .inr rfl
    · by_cases hk : k = Session.root
      · subst hk
        obtain ⟨top, hctop, _⟩ := h.chain_root
        rw [hctop] at hmem
        cases List.mem_singleton.1 hmem
        exact .inl rfl
      · rw [h.unit_of_parent hs hp hne hk]
        exact ih hmem

end Rooted

/-! ## Names -/

/-- Names and input are looked for in the unit of a frame and in the root, and nowhere else. -/
structure Confined (s : Scope) (f : FrameId) : Prop where
  reached : ∀ g frame, (g, frame) ∈ s.chain f → g = root ∨ s.unit g = s.unit f
  found : ∀ k d, s.lookup f k = .ok d → ∃ (g : FrameId) (frame : Frame), s.frames[g]? = some frame ∧
    frame.get? k = some d ∧ (g = root ∨ s.unit g = s.unit f)
  given : ∀ d, s.input f = .ok d → ∃ (g : FrameId) (frame : Frame), s.frames[g]? = some frame ∧
    frame.input = some d ∧ (g = root ∨ s.unit g = s.unit f)
  kept : ∀ (g : FrameId), g ≠ root → s.unit g ≠ s.unit f → ∀ k d,
    (s.rebind f k d).2.frames[g]? = s.frames[g]?

theorem Rooted.confined (h : s.Rooted) (hf : f < s.frames.size) : s.Confined f := by
  refine ⟨fun g frame hmem => h.apart hf hmem, fun k d hd => ?_, fun d hd => ?_,
    fun g hg hunit k d => ?_⟩
  · obtain ⟨⟨g, frame⟩, hmem, hget⟩ := List.exists_of_findSome?_eq_some (lookup_eq_ok_iff.1 hd)
    exact ⟨g, frame, (mem_chain hmem).1, hget, h.apart hf hmem⟩
  · obtain ⟨⟨g, frame⟩, hmem, hin⟩ := List.exists_of_findSome?_eq_some (input_eq_ok_iff.1 hd)
    exact ⟨g, frame, (mem_chain hmem).1, hin, h.apart hf hmem⟩
  · unfold Scope.rebind
    split
    · next owner ho =>
      obtain ⟨⟨o, frame⟩, hfind, rfl⟩ := Option.map_eq_some_iff.1 ho
      -- The owner is on the way up, and `g` is not.
      have hne : o ≠ g := by
        rintro rfl
        exact (h.apart hf (List.mem_of_find?_eq_some hfind)).elim hg hunit
      rw [Array.getElem?_modify, if_neg hne]
    · rfl

/-- A unit is a frame that is there. -/
theorem unit_lt (hf : f < s.frames.size) : s.unit f < s.frames.size := by
  unfold unit
  cases hu : ((s.chain f).map Prod.fst).dropLast.getLast? with
  | none => exact hf
  | some u =>
    obtain ⟨⟨g, frame⟩, hmem, rfl⟩ :=
      List.mem_map.1 (List.dropLast_subset _ (List.mem_of_getLast? hu))
    exact (Array.getElem?_eq_some_iff.1 (mem_chain hmem).1).1

/-! ## What is kept -/

theorem chain_add (hf : f < s.frames.size) : (s.add frame).2.chain f = s.chain f := by
  induction f using Nat.strongRecOn with
  | ind f ih =>
    have hs : s.frames[f]? = some s.frames[f] := Array.getElem?_eq_getElem hf
    have hs' : (s.add frame).2.frames[f]? = some s.frames[f] := by
      simp [Scope.add, Array.getElem?_push, Nat.ne_of_lt hf, hs]
    cases hp : s.frames[f].parent with
    | none => rw [chain_root hs hp, chain_root hs' hp]
    | some g =>
      by_cases hlt : g < f
      · rw [chain_child hs hp hlt, chain_child hs' hp hlt, ih g hlt (Nat.lt_trans hlt hf)]
      · rw [chain_cut hs hp hlt, chain_cut hs' hp hlt]

theorem modulePath?_add (hf : f < s.frames.size) :
    (s.add frame).2.modulePath? f = s.modulePath? f := by
  rw [modulePath?, modulePath?, chain_add hf]

/-- The file of a new frame is its own, or that of its parent. -/
theorem modulePath?_new (hp : frame.parent = some g) (hg : g < s.frames.size) :
    (s.add frame).2.modulePath? s.frames.size = frame.modulePath.or (s.modulePath? g) := by
  have hs : (s.add frame).2.frames[s.frames.size]? = some frame := by
    simp [Scope.add]
  rw [modulePath?, chain_child hs hp hg, chain_add hg, List.findSome?_cons, modulePath?]
  cases hm : frame.modulePath with
  | none => simp [hm]
  | some p => simp [hm]

/-- Frames stay where they are, and others may come behind them. -/
structure Within (s s' : Scope) : Prop where
  size : s.frames.size ≤ s'.frames.size
  unit : ∀ f, f < s.frames.size → s'.unit f = s.unit f
  modulePath : ∀ f, f < s.frames.size → s'.modulePath? f = s.modulePath? f

theorem within_add : s.Within (s.add frame).2 := by
  refine ⟨?_, fun f hf => ?_, fun f hf => modulePath?_add hf⟩
  · simp [Scope.add]
  · rw [unit, unit, chain_add hf]

/-- Names do not matter. -/
theorem SameShape.within (h : s.SameShape s') : s.Within s' := by
  refine ⟨Nat.le_of_eq h.size.symm, fun f _ => ?_, fun f _ => h.modulePath? f⟩
  have hfst := congrArg (List.map Prod.fst) (h.chain f)
  simp only [List.map_map] at hfst
  exact congrArg (fun ids => ids.dropLast.getLast?.getD f) hfst

namespace Rooted

theorem add (h : s.Rooted) (hp : frame.parent = some g) (hg : g < s.frames.size)
    (hm : ∀ p, frame.modulePath = some p → g = Session.root) : (s.add frame).2.Rooted := by
  have hold : ∀ (f : FrameId) (frame' : Frame), (s.add frame).2.frames[f]? = some frame' →
      f = s.frames.size ∧ frame' = frame ∨ s.frames[f]? = some frame' := by
    intro f frame' hf
    simp only [Scope.add, Array.getElem?_push] at hf
    split at hf
    · next he => exact .inl ⟨he, (Option.some.inj hf).symm⟩
    · exact .inr hf
  obtain ⟨top, hs, htop⟩ := h.top
  refine ⟨⟨top, ?_, htop⟩, fun f frame' hf hne => ?_, fun f frame' p hf hp' => ?_⟩
  · simp [Scope.add, Array.getElem?_push, Nat.ne_of_lt h.root_lt, hs]
  · rcases hold f frame' hf with ⟨rfl, rfl⟩ | hf
    · exact ⟨g, hp, hg⟩
    · exact h.parent f frame' hf hne
  · rcases hold f frame' hf with ⟨rfl, rfl⟩ | hf
    · exact hm p hp' ▸ hp
    · exact h.module f frame' p hf hp'

theorem sameShape (h : s.Rooted) (hs : s.SameShape s') : s'.Rooted := by
  have hold : ∀ {f : FrameId} {frame' : Frame}, s'.frames[f]? = some frame' →
      ∃ frame : Frame, s.frames[f]? = some frame ∧ frame'.shape = frame.shape := by
    intro f frame' hf
    have hshape := hs.getElem? f
    rw [hf] at hshape
    obtain ⟨frame, hframe, he⟩ := Option.map_eq_some_iff.1 hshape.symm
    exact ⟨frame, hframe, he.symm⟩
  obtain ⟨top, htop, hparent, hlibrary, hmodule⟩ := h.top
  refine ⟨?_, fun f frame' hf hne => ?_, fun f frame' p hf hp => ?_⟩
  · have hsize : Session.root < s'.frames.size := hs.size ▸ h.root_lt
    obtain ⟨frame, hframe, he⟩ := hold (Array.getElem?_eq_getElem hsize)
    cases htop.symm.trans hframe
    refine ⟨_, Array.getElem?_eq_getElem hsize, ?_⟩
    exact ⟨(congrArg Frame.parent he).trans hparent, (congrArg Frame.library he).trans hlibrary,
      (congrArg Frame.modulePath he).trans hmodule⟩
  · obtain ⟨frame, hframe, he⟩ := hold hf
    obtain ⟨g, hg, hlt⟩ := h.parent f frame hframe hne
    exact ⟨g, (congrArg Frame.parent he).trans hg, hlt⟩
  · obtain ⟨frame, hframe, he⟩ := hold hf
    have hp' := (congrArg Frame.modulePath he).symm.trans hp
    exact (congrArg Frame.parent he).trans (h.module f frame p hframe hp')

end Rooted

theorem rooted_start : Session.rootScope.Rooted := by
  have hshape : (Scope.addRoot {}).2.SameShape Session.rootScope := by
    unfold Session.rootScope
    generalize (Scope.addRoot {}).2 = s
    induction Word.all generalizing s with
    | nil => rfl
    | cons word words ih => exact (ih _).trans sameShape_declare
  have hone : ∀ {f : FrameId} {frame : Frame}, (Scope.addRoot {}).2.frames[f]? = some frame →
      f = Session.root := by
    intro f frame hf
    exact Nat.lt_one_iff.1 (Array.getElem?_eq_some_iff.1 hf).1
  refine Rooted.sameShape ⟨⟨_, rfl, rfl, rfl, rfl⟩, fun f frame hf hne => ?_, fun f frame p hf hp => ?_⟩
    hshape
  · exact absurd (hone hf) hne
  · cases hone hf
    cases hf
    cases hp

end Scope

end Concatenative
