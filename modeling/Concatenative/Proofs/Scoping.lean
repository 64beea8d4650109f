import Concatenative.Scope

/-! What names mean after any history of frames. All that is ever done to frames is an `Edit`: a
frame is made, a name is declared in it, a name is bound anew. Which frames have declared a name,
which of them is the nearest and what was written to it last is said of the edits alone. Main
statement: the frames answer as the history says, and an edit has no other effects
(`scope_stores_by_nearest_owner`). -/
namespace Concatenative

inductive Edit where
  | root
  | child (parent : FrameId) (input : Option Deferred)
  | module (parent : FrameId) (path : Path)
  | declare (frame : FrameId) (name : String) (d : Deferred)
  | rebind (frame : FrameId) (name : String) (d : Deferred)

namespace Edit

def makes : Edit → Bool
  | root | child _ _ | module _ _ => true
  | declare _ _ _ | rebind _ _ _ => false

/-- The frame that an edit speaks of. -/
def subject? : Edit → Option FrameId
  | root => none
  | child f _ | module f _ | declare f _ _ | rebind f _ _ => some f

/-- What the frame hangs under that an edit makes. -/
def parent? : Edit → Option FrameId
  | child p _ | module p _ => some p
  | root | declare _ _ _ | rebind _ _ _ => none

/-- What the frame is given that an edit makes. -/
def input? : Edit → Option Deferred
  | child _ input => input
  | root | module _ _ | declare _ _ _ | rebind _ _ _ => none

end Edit

namespace Scope

def edit (s : Scope) : Edit → Scope
  | .root => s.addRoot.2
  | .child parent input => (s.addChild parent input).2
  | .module parent path => (s.addModule parent path).2
  | .declare f name d => (s.declare f name d).2
  | .rebind f name d => (s.rebind f name d).2

/-- The frames after a history. -/
def after : List Edit → Scope
  | [] => {}
  | e :: past => (after past).edit e

end Scope

/-- Edits, last first. -/
abbrev History := List Edit

namespace History

/-- How many frames were made. -/
def made (past : History) : Nat := past.countP Edit.makes

/-- The edit that made a frame. Frames are numbered in the order in which they are made. -/
def maker? : History → FrameId → Option Edit
  | [], _ => none
  | e :: past, f => if e.makes ∧ f = made past then some e else maker? past f

def parent? (past : History) (f : FrameId) : Option FrameId := (maker? past f).bind Edit.parent?

def given? (past : History) (f : FrameId) : Option Deferred := (maker? past f).bind Edit.input?

/-- Every edit speaks of a frame that was there. -/
def Possible : History → Prop
  | [] => True
  | e :: past => (∀ f, e.subject? = some f → f < made past) ∧ Possible past

/-- A frame has declared a name: only the first declaration succeeds, but there is one if any was
tried. -/
def Declared (past : History) (f : FrameId) (k : String) : Prop := ∃ d, Edit.declare f k d ∈ past

/-- A frame and those above it. -/
inductive OnChain (past : History) : FrameId → FrameId → Prop where
  | self {f : FrameId} : OnChain past f f
  | above {f p g : FrameId} (hp : parent? past f = some p) (h : OnChain past p g) :
      OnChain past f g

/-- The nearest frame with a property, itself included. -/
inductive Nearest (past : History) (P : FrameId → Prop) : FrameId → FrameId → Prop where
  | here {f : FrameId} (h : P f) : Nearest past P f f
  | above {f p g : FrameId} (h : ¬ P f) (hp : parent? past f = some p) (hn : Nearest past P p g) :
      Nearest past P f g

/-- The nearest frame that has declared a name. -/
def Owner (past : History) (k : String) : FrameId → FrameId → Prop :=
  Nearest past fun g => Declared past g k

/-- An edit that comes after `past` writes to a name in a frame. -/
inductive Writes (past : History) : Edit → FrameId → String → Deferred → Prop where
  | declare {f : FrameId} {k : String} {d : Deferred} (h : ¬ Declared past f k) :
      Writes past (.declare f k d) f k d
  | rebind {f g : FrameId} {k : String} {d : Deferred} (h : Owner past k f g) :
      Writes past (.rebind f k d) g k d

inductive LastWritten : History → FrameId → String → Deferred → Prop where
  | now {past : History} {e : Edit} {g : FrameId} {k : String} {d : Deferred}
      (h : Writes past e g k d) : LastWritten (e :: past) g k d
  | before {past : History} {e : Edit} {g : FrameId} {k : String} {d : Deferred}
      (h : ∀ d', ¬ Writes past e g k d') (hl : LastWritten past g k d) :
      LastWritten (e :: past) g k d

variable {past : History} {e : Edit} {f g o p : FrameId} {k k' : String} {d d' : Deferred}

/-! ## What one more edit changes -/

theorem made_cons : made (e :: past) = made past + if e.makes then 1 else 0 := by
  simp [made, List.countP_cons]

theorem maker?_cons_of_not_makes (h : e.makes = false) : maker? (e :: past) = maker? past := by
  funext f
  simp [maker?, h]

theorem maker?_cons_new (h : e.makes) : maker? (e :: past) (made past) = some e := by
  simp [maker?, h]

theorem maker?_cons_old (h : f ≠ made past) : maker? (e :: past) f = maker? past f := by
  simp [maker?, h]

theorem lt_of_maker? (h : maker? past f = some e) : f < made past := by
  induction past with
  | nil => cases h
  | cons e' past ih =>
    rw [made_cons]
    by_cases hnew : e'.makes ∧ f = made past
    · simp [hnew.1, hnew.2]
    · rw [maker?, if_neg hnew] at h
      exact Nat.lt_add_right _ (ih h)

theorem declared_cons_of_ne (h : ∀ d, e ≠ .declare f k d) :
    Declared (e :: past) f k ↔ Declared past f k := by
  simp only [Declared, List.mem_cons]
  constructor
  · rintro ⟨d, rfl | hd⟩
    · exact absurd rfl (h d)
    · exact ⟨d, hd⟩
  · exact fun ⟨d, hd⟩ => ⟨d, .inr hd⟩

theorem declared_declare :
    Declared (.declare f k d :: past) g k' ↔ (g = f ∧ k' = k) ∨ Declared past g k' := by
  by_cases h : g = f ∧ k' = k
  · obtain ⟨rfl, rfl⟩ := h
    exact iff_of_true ⟨d, List.mem_cons_self ..⟩ (.inl ⟨rfl, rfl⟩)
  · rw [declared_cons_of_ne (by rintro d' ⟨⟩; exact h ⟨rfl, rfl⟩)]
    simp [h]

theorem declared_rebind :
    Declared (.rebind f k d :: past) g k' ↔ Declared past g k' :=
  declared_cons_of_ne (by rintro d' ⟨⟩)

theorem lastWritten_cons_of_not_writes (h : ∀ d', ¬ Writes past e g k d') :
    LastWritten (e :: past) g k d ↔ LastWritten past g k d := by
  constructor
  · rintro (hw | ⟨_, hl⟩)
    · exact absurd hw (h d)
    · exact hl
  · exact .before h

theorem lastWritten_cons_of_writes (h : Writes past e g k d) :
    LastWritten (e :: past) g k d' ↔ d' = d := by
  constructor
  · rintro (hw | ⟨hn, _⟩)
    · cases h <;> cases hw <;> rfl
    · exact absurd h (hn d)
  · rintro rfl
    exact .now h

/-! ## Nearest frames -/

variable {P Q : FrameId → Prop}

theorem Nearest.holds (h : Nearest past P f g) : P g := by
  induction h with
  | here h => exact h
  | above _ _ _ ih => exact ih

theorem Nearest.unique (h : Nearest past P f g) (h' : Nearest past P f o) : g = o := by
  induction h with
  | here h =>
    cases h' with
    | here _ => rfl
    | above hn _ _ => exact absurd h hn
  | above hn hp _ ih =>
    cases h' with
    | here h => exact absurd h hn
    | above _ hp' h' =>
      cases hp.symm.trans hp'
      exact ih h'

/-- A search along the chain finds nothing only where there is nothing. -/
theorem exists_nearest : (∃ g, Nearest past P f g) ↔ ∃ g, OnChain past f g ∧ P g := by
  constructor
  · rintro ⟨g, hn⟩
    refine ⟨g, ?_, hn.holds⟩
    induction hn with
    | here _ => exact .self
    | above _ hp _ ih => exact .above hp ih
  · rintro ⟨g, hc, hP⟩
    induction hc with
    | self => exact ⟨_, .here hP⟩
    | @above f p g hp _ ih =>
      by_cases hf : P f
      · exact ⟨f, .here hf⟩
      · obtain ⟨o, ho⟩ := ih hP
        exact ⟨o, .above hf hp ho⟩

theorem Nearest.congr {past' : History} (hp : ∀ f, parent? past' f = parent? past f)
    (hP : ∀ f, P f ↔ Q f) (h : Nearest past P f g) : Nearest past' Q f g := by
  induction h with
  | here h => exact .here ((hP _).1 h)
  | above hn hpar _ ih => exact .above (mt (hP _).2 hn) ((hp _).trans hpar) ih

/-- An edit that makes no frame and declares no such name leaves its owners. -/
theorem owner_cons_iff (he : e.makes = false) (hd : ∀ f d, e ≠ .declare f k d) :
    Owner (e :: past) k f g ↔ Owner past k f g := by
  have hpar : ∀ f, parent? (e :: past) f = parent? past f := fun f => by
    rw [parent?, parent?, maker?_cons_of_not_makes he]
  have hdec : ∀ f, Declared (e :: past) f k ↔ Declared past f k := fun f =>
    declared_cons_of_ne (hd f)
  exact ⟨.congr (fun f => (hpar f).symm) hdec, .congr hpar fun f => (hdec f).symm⟩

/-- A declaration only takes over owners. -/
theorem owner_declare_iff (h : ¬ Owner (.declare f k d :: past) k g f) :
    Owner (.declare f k d :: past) k g o ↔ Owner past k g o := by
  have hpar : ∀ g, parent? (.declare f k d :: past) g = parent? past g := fun g => by
    rw [parent?, parent?, maker?_cons_of_not_makes rfl]
  have hself : ∀ g, ¬ Owner (.declare f k d :: past) k g f → g ≠ f := by
    rintro g hg rfl
    exact hg (.here (declared_declare.2 (.inl ⟨rfl, rfl⟩)))
  constructor
  · intro ho
    induction ho with
    | @here g hg =>
      rcases declared_declare.1 hg with ⟨rfl, _⟩ | hg
      · exact absurd rfl (hself _ h)
      · exact .here hg
    | above hn hp _ ih =>
      exact .above (fun hg => hn (declared_declare.2 (.inr hg))) ((hpar _).symm.trans hp)
        (ih fun ho => h (.above hn hp ho))
  · intro ho
    induction ho with
    | here hg => exact .here (declared_declare.2 (.inr hg))
    | @above g p o hn hp _ ih =>
      have hn' : ¬ Declared (.declare f k d :: past) g k := fun hg => by
        rcases declared_declare.1 hg with ⟨he, _⟩ | hg
        · exact hself _ h he
        · exact hn hg
      have hp' := (hpar g).trans hp
      exact .above hn' hp' (ih fun ho => h (.above hn' hp' ho))

end History

open History

/-! ## Frames that follow a history -/

/-- A frame without its names. -/
def Frame.shape (frame : Frame) : Frame := { frame with bindings := [] }

namespace Frame

variable {frame : Frame} {k k' : String} {d : Deferred}

theorem get?_insert :
    (frame.insert k d).get? k' = if k' = k then some d else frame.get? k' := by
  unfold get? insert
  rw [List.lookup_cons]
  by_cases h : k' = k
  · simp [h]
  · simp [h, beq_false_of_ne h]

theorem get?_replace :
    (frame.replace k d).get? k' =
      if k' = k then (frame.get? k).map fun _ => d else frame.get? k' := by
  unfold get? replace
  induction frame.bindings with
  | nil => simp
  | cons b rest ih =>
    obtain ⟨name, d'⟩ := b
    by_cases hname : name = k
    · by_cases hk : k' = k
      · simp [hname, hk]
      · simpa [hname, hk, List.lookup_cons, beq_false_of_ne hk] using ih
    · by_cases hk' : k' = name
      · simp [hname, hk']
      · simpa [hname, List.lookup_cons, beq_false_of_ne hk', beq_false_of_ne (Ne.symm hname)]
          using ih

end Frame

namespace Scope

/-- Frames may differ in their names only. -/
def SameShape (s s' : Scope) : Prop := s'.frames.map Frame.shape = s.frames.map Frame.shape

def binding? (s : Scope) (f : FrameId) (k : String) : Option Deferred :=
  s.frames[f]?.bind (·.get? k)

/-- The frames are those of a history and hold what was written last. -/
structure Follows (s : Scope) (past : History) : Prop where
  size : s.frames.size = made past
  parent : ∀ f frame, s.frames[f]? = some frame → frame.parent = parent? past f
  input : ∀ f frame, s.frames[f]? = some frame → frame.input = given? past f
  earlier : ∀ f p, parent? past f = some p → p < f
  binding : ∀ f k d, s.binding? f k = some d ↔ LastWritten past f k d
  declared : ∀ f k, (s.binding? f k).isSome ↔ Declared past f k

variable {s : Scope} {past : History} {e : Edit} {f g o : FrameId} {k k' : String} {d d' : Deferred}

theorem lookup_eq_ok_iff :
    s.lookup f k = .ok d ↔ (s.chain f).findSome? (fun x => x.2.get? k) = some d := by
  unfold Scope.lookup
  split
  · next hd => simp [show (s.chain f).findSome? (fun x => x.2.get? k) = _ from hd]
  · next hd => simp [show (s.chain f).findSome? (fun x => x.2.get? k) = _ from hd]

theorem input_eq : s.input f = match (s.chain f).findSome? fun x => x.2.input with
    | some d => .ok d
    | none => .error (Cause.notDefined "$") := rfl

theorem input_eq_ok_iff :
    s.input f = .ok d ↔ (s.chain f).findSome? (fun x => x.2.input) = some d := by
  rw [input_eq]
  cases (s.chain f).findSome? fun x => x.2.input with
  | none => simp
  | some d => simp

theorem owner?_eq_findSome? :
    s.owner? f k = (s.chain f).findSome? fun x => if x.2.owns k then some x.1 else none := by
  unfold owner?
  induction s.chain f with
  | nil => rfl
  | cons x rest ih =>
    by_cases hx : x.2.owns k
    · simp [hx]
    · simpa [hx] using ih

theorem isDeclared_eq_isSome : s.isDeclared f k = (s.binding? f k).isSome := by
  unfold isDeclared binding? Frame.owns
  cases s.frames[f]? with
  | none => rfl
  | some frame => simp

theorem follows_nil : Follows {} [] := by
  constructor <;> simp [made, parent?, maker?, binding?, Declared]
  rintro f k d ⟨⟩

namespace Follows

variable (h : s.Follows past)

include h

theorem exists_frame (hf : f < made past) : ∃ frame, s.frames[f]? = some frame := by
  rw [← h.size] at hf
  exact ⟨_, Array.getElem?_eq_getElem hf⟩

theorem chain_eq {frame : Frame} (hs : s.frames[f]? = some frame) :
    s.chain f = (f, frame) :: ((parent? past f).map s.chain).getD [] := by
  have hpar := h.parent f frame hs
  cases hp : parent? past f with
  | none => exact chain_root hs (hpar.trans hp)
  | some p => exact chain_child hs (hpar.trans hp) (h.earlier f p hp)

theorem parent_lt_made (hf : f < made past) (hp : parent? past f = some g) : g < made past :=
  Nat.lt_trans (h.earlier f g hp) hf

/-- The search along the chain finds the nearest frame that has something. -/
theorem findSome?_chain {α : Type} (find : FrameId × Frame → Option α) (P : FrameId → Prop)
    (hP : ∀ g frame, s.frames[g]? = some frame → ((find (g, frame)).isSome ↔ P g))
    (hf : f < made past) (a : α) :
    (s.chain f).findSome? find = some a ↔
      ∃ g frame, Nearest past P f g ∧ s.frames[g]? = some frame ∧ find (g, frame) = some a := by
  induction f using Nat.strongRecOn with
  | ind f ih =>
    obtain ⟨frame, hs⟩ := h.exists_frame hf
    have hPf := hP f frame hs
    rw [h.chain_eq hs, List.findSome?_cons]
    cases hfound : find (f, frame) with
    | some b =>
      have hhere : P f := hPf.1 (by simp [hfound])
      constructor
      · rintro ⟨⟩
        exact ⟨f, frame, .here hhere, hs, hfound⟩
      · rintro ⟨g, frame', hn, hs', ha⟩
        cases hn.unique (.here hhere)
        cases hs.symm.trans hs'
        exact hfound.symm.trans ha
    | none =>
      have hnot : ¬ P f := by simpa [hfound] using hPf
      cases hp : parent? past f with
      | none =>
        constructor
        · rintro ⟨⟩
        · rintro ⟨g, frame', hn | ⟨_, hp', _⟩, _⟩
          · exact absurd ‹P f› hnot
          · cases hp.symm.trans hp'
      | some p =>
        have ih := ih p (h.earlier f p hp) (h.parent_lt_made hf hp)
        refine Iff.trans ih (exists_congr fun g => exists_congr fun frame => and_congr_left' ?_)
        constructor
        · exact .above hnot hp
        · rintro (hn | ⟨_, hp', hn⟩)
          · exact absurd ‹P f› hnot
          · cases hp.symm.trans hp'
            exact hn

theorem owns_iff {frame : Frame} (hs : s.frames[g]? = some frame) :
    frame.owns k ↔ Declared past g k := by
  rw [← h.declared, binding?, hs]
  rfl

theorem lookup_eq_ok (hf : f < made past) :
    s.lookup f k = .ok d ↔ ∃ g, Owner past k f g ∧ LastWritten past g k d := by
  have hfind := h.findSome?_chain (fun x => x.2.get? k) (fun g => Declared past g k)
    (fun _ _ hs => h.owns_iff hs) hf d
  rw [lookup_eq_ok_iff, hfind]
  refine exists_congr fun g => ?_
  rw [← h.binding, binding?]
  cases s.frames[g]? with
  | none => simp
  | some frame => simp [Owner]

theorem owner?_eq_some (hf : f < made past) : s.owner? f k = some g ↔ Owner past k f g := by
  have hfind := h.findSome?_chain (fun x => if x.2.owns k then some x.1 else none)
    (fun g => Declared past g k)
    (fun g frame hs => by simp [← h.owns_iff hs]) hf g
  rw [owner?_eq_findSome?, hfind]
  constructor
  · rintro ⟨g', frame, hn, _, hg⟩
    split at hg
    · cases hg
      exact hn
    · cases hg
  · intro hn
    have hdec := hn.holds
    rw [← h.declared, binding?] at hdec
    cases hs : s.frames[g]? with
    | none => simp [hs] at hdec
    | some frame => exact ⟨g, frame, hn, hs, if_pos ((h.owns_iff hs).2 hn.holds)⟩

theorem input_eq_ok (hf : f < made past) :
    s.input f = .ok d ↔
      ∃ g, Nearest past (fun g => (given? past g).isSome) f g ∧ given? past g = some d := by
  have hfind := h.findSome?_chain (fun x => x.2.input) (fun g => (given? past g).isSome)
    (fun g frame hs => by simp [h.input g frame hs]) hf d
  rw [input_eq_ok_iff, hfind]
  constructor
  · rintro ⟨g, frame, hn, hs, hd⟩
    exact ⟨g, hn, (h.input g frame hs).symm.trans hd⟩
  · rintro ⟨g, hn, hd⟩
    obtain ⟨e, hm, _⟩ := Option.bind_eq_some_iff.1 hd
    obtain ⟨frame, hs⟩ := h.exists_frame (lt_of_maker? hm)
    exact ⟨g, frame, hn, hs, (h.input g frame hs).trans hd⟩

end Follows

theorem binding?_modify (u : Frame → Frame) :
    (Scope.mk (s.frames.modify f u)).binding? g k =
      if g = f then s.frames[g]?.bind fun x => (u x).get? k else s.binding? g k := by
  unfold binding?
  rw [Array.getElem?_modify]
  by_cases h : g = f
  · subst h
    cases s.frames[g]? <;> simp
  · simp [h, Ne.symm h]

theorem sameShape_modify {u : Frame → Frame} (hu : ∀ x, (u x).shape = x.shape) :
    s.SameShape ⟨s.frames.modify f u⟩ := by
  refine Array.ext_getElem? fun i => ?_
  rw [Array.getElem?_map, Array.getElem?_map, Array.getElem?_modify]
  by_cases h : f = i
  · cases s.frames[i]? <;> simp [h, hu]
  · simp [h]

theorem sameShape_declare : s.SameShape (s.declare f k d).2 := by
  unfold Scope.declare
  split
  · exact rfl
  · exact sameShape_modify fun _ => rfl

theorem sameShape_rebind : s.SameShape (s.rebind f k d).2 := by
  unfold Scope.rebind
  split
  · exact sameShape_modify fun _ => rfl
  · exact rfl

namespace SameShape

variable {s' : Scope} (h : s.SameShape s')

include h

theorem getElem? (f : FrameId) : s'.frames[f]?.map Frame.shape = s.frames[f]?.map Frame.shape := by
  rw [← Array.getElem?_map, h, Array.getElem?_map]

theorem size : s'.frames.size = s.frames.size := by
  simpa using congrArg Array.size h

/-- The way to the root does not depend on names. -/
theorem chain (f : FrameId) :
    (s'.chain f).map (Prod.map id Frame.shape) = (s.chain f).map (Prod.map id Frame.shape) := by
  induction f using Nat.strongRecOn with
  | ind f ih =>
    have hf := h.getElem? f
    cases hs : s.frames[f]? with
    | none =>
      cases hs' : s'.frames[f]? with
      | none => rw [Scope.chain, Scope.chain, hs, hs']
      | some frame' => simp [hs, hs'] at hf
    | some frame =>
      cases hs' : s'.frames[f]? with
      | none => simp [hs, hs'] at hf
      | some frame' =>
        have hshape : frame'.shape = frame.shape := by simpa [hs, hs'] using hf
        have hpar : frame'.shape.parent = frame.shape.parent := by rw [hshape]
        cases hp : frame.parent with
        | none => simp [chain_root hs hp, chain_root hs' (Eq.trans hpar hp), hshape]
        | some p =>
          by_cases hlt : p < f
          · simp [chain_child hs hp hlt, chain_child hs' (Eq.trans hpar hp) hlt, hshape, ih p hlt]
          · simp [chain_cut hs hp hlt, chain_cut hs' (Eq.trans hpar hp) hlt, hshape]

theorem findSome?_chain {α : Type} (p : Frame → Option α) (hp : ∀ frame, p frame.shape = p frame)
    (f : FrameId) :
    (s'.chain f).findSome? (fun x => p x.2) = (s.chain f).findSome? fun x => p x.2 := by
  have hmap : ∀ xs : List (FrameId × Frame),
      xs.findSome? (fun x => p x.2) =
        (xs.map (Prod.map id Frame.shape)).findSome? fun x => p x.2 := by
    intro xs
    simp [List.findSome?_map, Function.comp_def, hp]
  rw [hmap, h.chain f, ← hmap]

theorem input (f : FrameId) : s'.input f = s.input f := by
  rw [Scope.input_eq, Scope.input_eq]
  rw [h.findSome?_chain Frame.input (fun _ => rfl) f]

theorem modulePath? (f : FrameId) : s'.modulePath? f = s.modulePath? f :=
  h.findSome?_chain Frame.modulePath (fun _ => rfl) f

theorem rootOf (f : FrameId) : s'.rootOf f = s.rootOf f := by
  have hlast := congrArg (fun xs => xs.getLast?.map Prod.fst) (h.chain f)
  simp only [List.getLast?_map, Option.map_map] at hlast
  exact congrArg (·.getD f) hlast

theorem requireLibrary (f : FrameId) : s'.requireLibrary f = s.requireLibrary f := by
  have hany := congrArg (List.any · fun x => x.2.library) (h.chain f)
  simp only [List.any_map] at hany
  exact congrArg (fun b : Bool => if b then Except.ok () else Except.error _) hany

end SameShape

/-! ## Steps -/

namespace Follows

theorem make (h : s.Follows past) {frame : Frame} (he : e.makes) (hp : frame.parent = e.parent?)
    (hi : frame.input = e.input?) (hb : frame.bindings = [])
    (hlt : ∀ p, e.parent? = some p → p < made past) : (s.add frame).2.Follows (e :: past) := by
  have hold : ∀ f, f ≠ made past → (s.add frame).2.frames[f]? = s.frames[f]? := fun f hf => by
    rw [← h.size] at hf
    simp [Scope.add, Array.getElem?_push, hf]
  have hnew : (s.add frame).2.frames[made past]? = some frame := by simp [Scope.add, ← h.size]
  have hdec : ∀ d f k, e ≠ .declare f k d := by
    rintro d f k rfl
    cases he
  have hwrites : ∀ g k d, ¬ Writes past e g k d := by
    rintro g k d ⟨⟩ <;> cases he
  -- The new frame has no names, and there was none in its place before.
  have hbinding : ∀ f k, (s.add frame).2.binding? f k = s.binding? f k := by
    intro f k
    by_cases hf : f = made past
    · have hnone : s.frames[f]? = none := by simp [hf, h.size]
      rw [binding?, binding?, hf, hnew, ← hf, hnone]
      simp [Frame.get?, hb]
    · rw [binding?, binding?, hold f hf]
  refine ⟨?_, ?_, ?_, ?_, ?_, ?_⟩
  · rw [made_cons, if_pos he, ← h.size]
    simp [Scope.add]
  · intro f frame' hs
    by_cases hf : f = made past
    · cases hnew.symm.trans (hf ▸ hs)
      rw [parent?, hf, maker?_cons_new he, hp]
      rfl
    · rw [parent?, maker?_cons_old hf]
      exact h.parent f frame' ((hold f hf).symm.trans hs)
  · intro f frame' hs
    by_cases hf : f = made past
    · cases hnew.symm.trans (hf ▸ hs)
      rw [given?, hf, maker?_cons_new he, hi]
      rfl
    · rw [given?, maker?_cons_old hf]
      exact h.input f frame' ((hold f hf).symm.trans hs)
  · intro f p hpar
    by_cases hf : f = made past
    · rw [parent?, hf, maker?_cons_new he] at hpar
      exact hf ▸ hlt p hpar
    · rw [parent?, maker?_cons_old hf] at hpar
      exact h.earlier f p hpar
  · intro f k d
    rw [hbinding, h.binding, lastWritten_cons_of_not_writes (hwrites f k)]
  · intro f k
    rw [hbinding, h.declared, declared_cons_of_ne fun d => hdec d f k]

/-- Writing to names is told by the names alone. -/
theorem write (h : s.Follows past) {s' : Scope} (he : e.makes = false) (hshape : s.SameShape s')
    (hb : ∀ f k d, s'.binding? f k = some d ↔ LastWritten (e :: past) f k d)
    (hd : ∀ f k, (s'.binding? f k).isSome ↔ Declared (e :: past) f k) : s'.Follows (e :: past) := by
  have hframe : ∀ (f : FrameId) (frame' : Frame), s'.frames[f]? = some frame' →
      ∃ frame : Frame, s.frames[f]? = some frame ∧ frame'.shape = frame.shape := by
    intro f frame' hs'
    have hf := hshape.getElem? f
    rw [hs'] at hf
    obtain ⟨frame, hs, hf⟩ := Option.map_eq_some_iff.1 hf.symm
    exact ⟨frame, hs, hf.symm⟩
  have hmaker : maker? (e :: past) = maker? past := maker?_cons_of_not_makes he
  refine ⟨?_, ?_, ?_, ?_, hb, hd⟩
  · have hsize := congrArg Array.size hshape
    simp only [Array.size_map] at hsize
    rw [hsize, h.size, made_cons, he]
    rfl
  · intro f frame' hs'
    obtain ⟨frame, hs, hf⟩ := hframe f frame' hs'
    rw [parent?, hmaker]
    have hpar : frame'.shape.parent = frame.shape.parent := by rw [hf]
    exact Eq.trans hpar (h.parent f frame hs)
  · intro f frame' hs'
    obtain ⟨frame, hs, hf⟩ := hframe f frame' hs'
    rw [given?, hmaker]
    have hinput : frame'.shape.input = frame.shape.input := by rw [hf]
    exact Eq.trans hinput (h.input f frame hs)
  · intro f p hpar
    rw [parent?, hmaker] at hpar
    exact h.earlier f p hpar

/-- An edit that writes nothing. -/
theorem kept (h : s.Follows past) (he : e.makes = false)
    (hw : ∀ g k d, ¬ Writes past e g k d)
    (hd : ∀ g k, Declared (e :: past) g k ↔ Declared past g k) : s.Follows (e :: past) := by
  refine h.write he rfl ?_ ?_
  · intro g k d
    rw [h.binding, lastWritten_cons_of_not_writes (hw g k)]
  · intro g k
    rw [h.declared, hd]

/-- An edit that writes to one name of one frame. -/
theorem stored (h : s.Follows past) {s' : Scope} (he : e.makes = false)
    (hshape : s.SameShape s') (hw : Writes past e o k d)
    (honly : ∀ g k' d', Writes past e g k' d' → g = o ∧ k' = k)
    (hb : ∀ g k', s'.binding? g k' = if g = o ∧ k' = k then some d else s.binding? g k')
    (hd : ∀ g k', Declared (e :: past) g k' ↔ (g = o ∧ k' = k) ∨ Declared past g k') :
    s'.Follows (e :: past) := by
  refine h.write he hshape ?_ ?_
  · intro g k' d'
    rw [hb]
    by_cases hg : g = o ∧ k' = k
    · obtain ⟨rfl, rfl⟩ := hg
      rw [lastWritten_cons_of_writes hw]
      simp [eq_comm]
    · rw [if_neg hg, h.binding, lastWritten_cons_of_not_writes]
      exact fun d' hw' => hg (honly _ _ _ hw')
  · intro g k'
    rw [hb, hd, ← h.declared]
    by_cases hg : g = o ∧ k' = k <;> simp [hg]

theorem isDeclared_iff (h : s.Follows past) : s.isDeclared f k ↔ Declared past f k := by
  rw [isDeclared_eq_isSome, h.declared]

theorem declare_of_declared (h : s.Follows past) (hd : Declared past f k) :
    s.declare f k d = (.error (Cause.alreadyDefined k), s) := by
  have hany : s.frames[f]?.any (·.owns k) := h.isDeclared_iff.2 hd
  rw [Scope.declare, if_pos hany]

theorem declare_of_not_declared (h : s.Follows past) (hd : ¬ Declared past f k) :
    s.declare f k d = (.ok (), ⟨s.frames.modify f (·.insert k d)⟩) := by
  have hany : ¬ s.frames[f]?.any (·.owns k) := mt h.isDeclared_iff.1 hd
  rw [Scope.declare, if_neg hany]

theorem rebind_of_owner (h : s.Follows past) (hf : f < made past) (ho : Owner past k f o) :
    s.rebind f k d = (.ok (), ⟨s.frames.modify o (·.replace k d)⟩) := by
  rw [Scope.rebind, (h.owner?_eq_some hf).2 ho]

theorem rebind_of_no_owner (h : s.Follows past) (hf : f < made past)
    (ho : ∀ g, ¬ Owner past k f g) : s.rebind f k d = (.error (Cause.notDefined k), s) := by
  cases hg : s.owner? f k with
  | none => rw [Scope.rebind, hg]
  | some g => exact absurd ((h.owner?_eq_some hf).1 hg) (ho g)

theorem declare (h : s.Follows past) (hf : f < made past) :
    (s.declare f k d).2.Follows (.declare f k d :: past) := by
  by_cases hdec : Declared past f k
  · rw [h.declare_of_declared hdec]
    refine h.kept rfl (fun g k' d' hw => ?_) fun g k' => ?_
    · cases hw with
      | declare hn => exact hn hdec
    · rw [declared_declare]
      refine or_iff_right_of_imp ?_
      rintro ⟨rfl, rfl⟩
      exact hdec
  · obtain ⟨frame, hs⟩ := h.exists_frame hf
    refine h.stored rfl sameShape_declare (.declare hdec) ?_ ?_ fun g k' => declared_declare
    · rintro g k' d' ⟨⟩
      exact ⟨rfl, rfl⟩
    · intro g k'
      rw [h.declare_of_not_declared hdec, binding?_modify]
      by_cases hg : g = f
      · simp [hg, hs, binding?, Frame.get?_insert]
      · simp [hg]

theorem rebind (h : s.Follows past) (hf : f < made past) :
    (s.rebind f k d).2.Follows (.rebind f k d :: past) := by
  by_cases hown : ∃ o, Owner past k f o
  · obtain ⟨o, ho⟩ := hown
    refine h.stored rfl sameShape_rebind (.rebind ho) ?_ ?_ fun g k' => ?_
    · rintro g k' d' (_ | hg)
      exact ⟨hg.unique ho, rfl⟩
    · intro g k'
      rw [h.rebind_of_owner hf ho, binding?_modify]
      by_cases hg : g = o
      · have hsome : (s.binding? o k).isSome := (h.declared o k).2 ho.holds
        unfold binding? at hsome ⊢
        cases hs : s.frames[o]? with
        | none => simp [hs] at hsome
        | some frame =>
          obtain ⟨d', hd'⟩ := Option.isSome_iff_exists.1 hsome
          simp only [hs, Option.bind_some] at hd'
          simp [hg, hs, Frame.get?_replace, hd']
      · simp [hg]
    · rw [declared_rebind]
      refine (or_iff_right_of_imp ?_).symm
      rintro ⟨rfl, rfl⟩
      exact ho.holds
  · have hnone : ∀ g, ¬ Owner past k f g := fun g hg => hown ⟨g, hg⟩
    rw [h.rebind_of_no_owner hf hnone]
    refine h.kept rfl (fun g k' d' hw => ?_) fun g k' => declared_rebind
    cases hw with
    | rebind hg => exact hnone g hg

/-- One more edit. -/
theorem edit (h : s.Follows past) (he : ∀ f, e.subject? = some f → f < made past) :
    (s.edit e).Follows (e :: past) := by
  cases e with
  | root => exact h.make rfl rfl rfl rfl (by rintro p ⟨⟩)
  | child parent input => exact h.make rfl rfl rfl rfl he
  | module parent path => exact h.make rfl rfl rfl rfl he
  | declare f name d => exact h.declare (he f rfl)
  | rebind f name d => exact h.rebind (he f rfl)

end Follows

theorem follows_after (hp : Possible past) : (after past).Follows past := by
  induction past with
  | nil => exact follows_nil
  | cons e past ih => exact (ih hp.2).edit hp.1

/-! ## What a write is seen by -/

theorem lookup_cases (s : Scope) (f : FrameId) (k : String) :
    (∃ d, s.lookup f k = .ok d) ∨ s.lookup f k = .error (Cause.notDefined k) := by
  unfold Scope.lookup
  split
  · exact .inl ⟨_, rfl⟩
  · exact .inr rfl

theorem lookup_congr {s' : Scope} (h : ∀ d, s'.lookup f k = .ok d ↔ s.lookup f k = .ok d) :
    s'.lookup f k = s.lookup f k := by
  rcases s.lookup_cases f k with ⟨d, hd⟩ | he
  · rw [hd, (h d).2 hd]
  · rcases s'.lookup_cases f k with ⟨d, hd⟩ | he'
    · cases he.symm.trans ((h d).1 hd)
    · rw [he, he']

namespace Follows

variable (h : s.Follows past) (hf : f < made past) (hg : g < made past)

include h hf hg

theorem lookup_declare_owned (hd : ¬ Declared past f k)
    (ho : Owner (.declare f k d :: past) k g f) : (s.declare f k d).2.lookup g k = .ok d := by
  have hg' : g < made (.declare f k d :: past) := by simpa [made_cons, Edit.makes] using hg
  exact ((h.declare hf).lookup_eq_ok hg').2 ⟨f, ho, .now (.declare hd)⟩

theorem lookup_declare_other (ho : ¬ (k' = k ∧ Owner (.declare f k d :: past) k g f)) :
    (s.declare f k d).2.lookup g k' = s.lookup g k' := by
  have hg' : g < made (.declare f k d :: past) := by simpa [made_cons, Edit.makes] using hg
  refine lookup_congr fun d' => ?_
  rw [(h.declare hf).lookup_eq_ok hg', h.lookup_eq_ok hg]
  have howner : ∀ o, Owner (.declare f k d :: past) k' g o ↔ Owner past k' g o := by
    intro o
    by_cases hk : k' = k
    · subst hk
      exact owner_declare_iff fun ho' => ho ⟨rfl, ho'⟩
    · refine owner_cons_iff rfl ?_
      rintro f' d'' ⟨⟩
      exact hk rfl
  refine exists_congr fun o => ?_
  rw [← howner o]
  refine and_congr_right fun ho' => lastWritten_cons_of_not_writes ?_
  rintro d'' ⟨⟩
  exact ho ⟨rfl, ho'⟩

theorem lookup_rebind_owned (hfo : Owner past k f o) (hgo : Owner past k g o) :
    (s.rebind f k d).2.lookup g k = .ok d := by
  have hg' : g < made (.rebind f k d :: past) := by simpa [made_cons, Edit.makes] using hg
  have hgo' : Owner (.rebind f k d :: past) k g o := (owner_cons_iff rfl (by rintro _ _ ⟨⟩)).2 hgo
  exact ((h.rebind hf).lookup_eq_ok hg').2 ⟨o, hgo', .now (.rebind hfo)⟩

theorem lookup_rebind_other (hfo : Owner past k f o) (ho : ¬ (k' = k ∧ Owner past k g o)) :
    (s.rebind f k d).2.lookup g k' = s.lookup g k' := by
  have hg' : g < made (.rebind f k d :: past) := by simpa [made_cons, Edit.makes] using hg
  refine lookup_congr fun d' => ?_
  rw [(h.rebind hf).lookup_eq_ok hg', h.lookup_eq_ok hg]
  refine exists_congr fun o' => ?_
  rw [owner_cons_iff rfl (by rintro _ _ ⟨⟩)]
  refine and_congr_right fun ho' => lastWritten_cons_of_not_writes ?_
  rintro d'' (_ | hfo')
  cases hfo'.unique hfo
  exact ho ⟨rfl, ho'⟩

end Follows

/-- What frames answer after a history, and what one more write does to their answers. -/
structure NearestOwnerStorage (s : Scope) (past : History) : Prop where
  /-- A name means what was last written to it in the nearest frame that has declared it. -/
  lookup_ok : ∀ f < made past, ∀ k d,
    s.lookup f k = .ok d ↔ ∃ g, Owner past k f g ∧ LastWritten past g k d
  lookup_unbound : ∀ f < made past, ∀ k,
    (∃ e : Failure, s.lookup f k = .error e ∧ e.kind = .unboundName) ↔
      ¬ ∃ g, OnChain past f g ∧ Declared past g k
  /-- A frame owns the names that it has declared. -/
  owns : ∀ f k, s.isDeclared f k ↔ Declared past f k
  declare_ok : ∀ f < made past, ∀ k d, (s.declare f k d).1 = .ok () ↔ ¬ s.isDeclared f k
  /-- A declaration is seen from the frames whose nearest owner of the name is now `f`. -/
  declare_seen : ∀ f < made past, ∀ k d, (s.declare f k d).1 = .ok () → ∀ g < made past,
    Owner (.declare f k d :: past) k g f → (s.declare f k d).2.lookup g k = .ok d
  declare_unseen : ∀ f < made past, ∀ k d, (s.declare f k d).1 = .ok () → ∀ g < made past, ∀ k',
    ¬ (k' = k ∧ Owner (.declare f k d :: past) k g f) →
      (s.declare f k d).2.lookup g k' = s.lookup g k'
  rebind_ok : ∀ f < made past, ∀ k d,
    (s.rebind f k d).1 = .ok () ↔ ∃ d', s.lookup f k = .ok d'
  rebind_owns : ∀ f < made past, ∀ k d g k',
    (s.rebind f k d).2.isDeclared g k' = s.isDeclared g k'
  /-- Binding anew is seen from the frames that share the nearest owner of the name with `f`. -/
  rebind_seen : ∀ f < made past, ∀ k d o, Owner past k f o → ∀ g < made past,
    Owner past k g o → (s.rebind f k d).2.lookup g k = .ok d
  rebind_unseen : ∀ f < made past, ∀ k d o, Owner past k f o → ∀ g < made past, ∀ k',
    ¬ (k' = k ∧ Owner past k g o) → (s.rebind f k d).2.lookup g k' = s.lookup g k'
  declare_failed : ∀ f < made past, ∀ k d e, (s.declare f k d).1 = .error e →
    (s.declare f k d).2 = s
  rebind_failed : ∀ f < made past, ∀ k d e, (s.rebind f k d).1 = .error e →
    (s.rebind f k d).2 = s
  /-- No write changes what a frame is besides its names. -/
  others : ∀ f k d, ∀ s' ∈ [(s.declare f k d).2, (s.rebind f k d).2], ∀ g,
    s'.input g = s.input g ∧ s'.modulePath? g = s.modulePath? g ∧ s'.rootOf g = s.rootOf g ∧
      s'.requireLibrary g = s.requireLibrary g
  /-- The input is that of the nearest frame that was given one. -/
  input_ok : ∀ f < made past, ∀ d, s.input f = .ok d ↔
    ∃ g, Nearest past (fun g => (given? past g).isSome) f g ∧ given? past g = some d

namespace Follows

variable (h : s.Follows past)

include h

theorem lookup_ok_iff_owner (hf : f < made past) :
    (∃ d, s.lookup f k = .ok d) ↔ ∃ o, Owner past k f o := by
  constructor
  · rintro ⟨d, hd⟩
    obtain ⟨o, ho, _⟩ := (h.lookup_eq_ok hf).1 hd
    exact ⟨o, ho⟩
  · rintro ⟨o, ho⟩
    obtain ⟨d, hd⟩ := Option.isSome_iff_exists.1 ((h.declared o k).2 ho.holds)
    exact ⟨d, (h.lookup_eq_ok hf).2 ⟨o, ho, (h.binding o k d).1 hd⟩⟩

theorem lookup_unbound (hf : f < made past) :
    (∃ e : Failure, s.lookup f k = .error e ∧ e.kind = .unboundName) ↔
      ¬ ∃ g, OnChain past f g ∧ Declared past g k := by
  rw [← exists_nearest (P := fun g => Declared past g k)]
  refine Iff.trans ?_ (not_congr (h.lookup_ok_iff_owner hf))
  rcases s.lookup_cases f k with ⟨d, hd⟩ | he
  · simp [hd]
  · exact iff_of_true ⟨_, he, rfl⟩ (by simp [he])

theorem declare_ok (k : String) (d : Deferred) :
    (s.declare f k d).1 = .ok () ↔ ¬ Declared past f k := by
  by_cases hd : Declared past f k
  · simp [h.declare_of_declared hd, hd]
  · simp [h.declare_of_not_declared hd, hd]

theorem rebind_ok (hf : f < made past) :
    (s.rebind f k d).1 = .ok () ↔ ∃ o, Owner past k f o := by
  by_cases ho : ∃ o, Owner past k f o
  · obtain ⟨o, ho⟩ := ho
    simpa [h.rebind_of_owner hf ho] using ⟨o, ho⟩
  · simpa [h.rebind_of_no_owner hf fun o ho' => ho ⟨o, ho'⟩] using ho

end Follows

end Scope

/-- After any history of frames, names are stored by their nearest owners, and a write has no
effects but those on the frames that see it. -/
theorem scope_stores_by_nearest_owner (past : History) (hp : Possible past) :
    (Scope.after past).NearestOwnerStorage past := by
  have h := Scope.follows_after hp
  exact {
    lookup_ok f hf k d := h.lookup_eq_ok hf
    lookup_unbound f hf k := h.lookup_unbound hf
    owns f k := h.isDeclared_iff
    declare_ok f _ k d := by rw [h.declare_ok, h.isDeclared_iff]
    declare_seen f hf k d hok g hg := h.lookup_declare_owned hf hg ((h.declare_ok k d).1 hok)
    declare_unseen f hf k d _ g hg k' := h.lookup_declare_other hf hg
    rebind_ok f hf k d := by rw [h.rebind_ok hf, h.lookup_ok_iff_owner hf]
    rebind_owns f hf k d g k' := by
      rw [Bool.eq_iff_iff, (h.rebind hf).isDeclared_iff, h.isDeclared_iff, declared_rebind]
    rebind_seen f hf k d o ho g hg := h.lookup_rebind_owned hf hg ho
    rebind_unseen f hf k d o ho g hg k' := h.lookup_rebind_other hf hg ho
    declare_failed f _ k d e he := by
      by_cases hd : Declared past f k
      · rw [h.declare_of_declared hd]
      · simp [h.declare_of_not_declared hd] at he
    rebind_failed f hf k d e he := by
      by_cases ho : ∃ o, Owner past k f o
      · obtain ⟨o, ho⟩ := ho
        simp [h.rebind_of_owner hf ho] at he
      · rw [h.rebind_of_no_owner hf fun o ho' => ho ⟨o, ho'⟩]
    others f k d s' hs' g := by
      have hshape : (Scope.after past).SameShape s' := by
        simp only [List.mem_cons, List.not_mem_nil, or_false] at hs'
        rcases hs' with rfl | rfl
        · exact Scope.sameShape_declare
        · exact Scope.sameShape_rebind
      exact ⟨hshape.input g, hshape.modulePath? g, hshape.rootOf g, hshape.requireLibrary g⟩
    input_ok f hf d := h.input_eq_ok hf }

/-- A name of the root, shadowed in a child after it was seen from there, and bound anew from a
grandchild. -/
def shadowing : History :=
  [.rebind 2 "x" (.settled (.int 3)), .declare 1 "x" (.settled (.int 2)), .child 1 none,
    .child 0 (some (.settled (.int 7))), .declare 0 "x" (.settled (.int 1)), .root]

theorem scope_stores_by_nearest_owner_shadowing :
    Possible shadowing ∧ (Scope.after shadowing).NearestOwnerStorage shadowing := by
  have hp : Possible shadowing := by
    simp [shadowing, Possible, made, Edit.subject?, Edit.makes, List.countP_cons]
  exact ⟨hp, scope_stores_by_nearest_owner shadowing hp⟩

end Concatenative
