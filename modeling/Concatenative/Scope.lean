import Concatenative.Path
import Concatenative.Value

/-! Frames of names. A frame hangs under a parent that was made before it, and a name means what the
nearest frame on the way to the root binds it to. The root has the library of modules; frames of
modules say which file their code is from. -/
namespace Concatenative

structure Frame where
  bindings : List (String × Deferred) := []
  parent : Option FrameId := none
  /-- What the invocation was given. -/
  input : Option Deferred := none
  /-- The file of a module whose top level runs in the frame. -/
  modulePath : Option Path := none
  library : Bool := false

namespace Frame

def get? (f : Frame) (name : String) : Option Deferred := f.bindings.lookup name

def owns (f : Frame) (name : String) : Bool := (f.get? name).isSome

def insert (f : Frame) (name : String) (d : Deferred) : Frame :=
  { f with bindings := (name, d) :: f.bindings }

/-- Binds a name anew in its place. -/
def replace (f : Frame) (name : String) (d : Deferred) : Frame :=
  { f with bindings := f.bindings.map fun b => if b.1 == name then (name, d) else b }

end Frame

/-- All frames, by number. -/
structure Scope where
  frames : Array Frame := #[]

namespace Scope

/-- Adds a frame; its number is how many there were. -/
def add (s : Scope) (f : Frame) : FrameId × Scope := (s.frames.size, ⟨s.frames.push f⟩)

def addRoot (s : Scope) : FrameId × Scope := s.add { library := true }

def addChild (s : Scope) (parent : FrameId) (input : Option Deferred) : FrameId × Scope :=
  s.add { parent := some parent, input }

def addModule (s : Scope) (parent : FrameId) (path : Path) : FrameId × Scope :=
  s.add { parent := some parent, modulePath := some path }

/-- A frame and those above it with their numbers, nearest first. -/
def chain (s : Scope) (f : FrameId) : List (FrameId × Frame) :=
  match s.frames[f]? with
  | none => []
  | some frame =>
    match frame.parent with
    | none => [(f, frame)]
    | some p => if _h : p < f then (f, frame) :: s.chain p else [(f, frame)]
termination_by f

/-- The nearest frame that binds a name. -/
def owner? (s : Scope) (f : FrameId) (name : String) : Option FrameId :=
  ((s.chain f).find? fun (_, frame) => frame.owns name).map (·.1)

def lookup (s : Scope) (f : FrameId) (name : String) : Except Failure Deferred :=
  match (s.chain f).findSome? fun (_, frame) => frame.get? name with
  | some d => .ok d
  | none => .error (Cause.notDefined name)

/-- Binds a name in the frame itself, once. -/
def declare (s : Scope) (f : FrameId) (name : String) (d : Deferred) :
    Except Failure Unit × Scope :=
  if s.frames[f]?.any (·.owns name) then (.error (Cause.alreadyDefined name), s)
  else (.ok (), ⟨s.frames.modify f (·.insert name d)⟩)

/-- Binds a name anew in the frame that owns it. -/
def rebind (s : Scope) (f : FrameId) (name : String) (d : Deferred) :
    Except Failure Unit × Scope :=
  match s.owner? f name with
  | some owner => (.ok (), ⟨s.frames.modify owner (·.replace name d)⟩)
  | none => (.error (Cause.notDefined name), s)

/-- The input of the nearest frame that was given one. -/
def input (s : Scope) (f : FrameId) : Except Failure Deferred :=
  match (s.chain f).findSome? fun (_, frame) => frame.input with
  | some d => .ok d
  | none => .error (Cause.notDefined "$")

def isDeclared (s : Scope) (f : FrameId) (name : String) : Bool :=
  s.frames[f]?.any (·.owns name)

def modulePath? (s : Scope) (f : FrameId) : Option Path :=
  (s.chain f).findSome? fun (_, frame) => frame.modulePath

/-- Where the module references of code in a frame start, if it is code of a file. -/
def moduleDirectory? (s : Scope) (f : FrameId) : Option Path := (s.modulePath? f).bind Path.parent?

def rootOf (s : Scope) (f : FrameId) : FrameId := ((s.chain f).getLast?.map (·.1)).getD f

def requireLibrary (s : Scope) (f : FrameId) : Except Failure Unit :=
  if (s.chain f).any fun (_, frame) => frame.library then .ok ()
  else .error (Cause.noLibrary : Failure)

/-! ## The way to the root -/

section Chain

variable {s : Scope} {f g : FrameId} {frame : Frame}

theorem chain_root (hs : s.frames[f]? = some frame) (hp : frame.parent = none) :
    s.chain f = [(f, frame)] := by
  rw [Scope.chain, hs]
  simp only [hp]

theorem chain_child (hs : s.frames[f]? = some frame)
    (hp : frame.parent = some g) (hg : g < f) : s.chain f = (f, frame) :: s.chain g := by
  rw [Scope.chain, hs]
  simp only [hp, dif_pos hg]

theorem chain_cut (hs : s.frames[f]? = some frame)
    (hp : frame.parent = some g) (hg : ¬ g < f) : s.chain f = [(f, frame)] := by
  rw [Scope.chain, hs]
  simp only [hp, dif_neg hg]

theorem exists_mem_chain (hf : f < s.frames.size) : ∃ frame, (f, frame) ∈ s.chain f := by
  have hs : s.frames[f]? = some s.frames[f] := Array.getElem?_eq_getElem hf
  refine ⟨s.frames[f], ?_⟩
  cases hp : s.frames[f].parent with
  | none =>
    rw [chain_root hs hp]
    exact List.mem_cons_self ..
  | some g =>
    by_cases hlt : g < f
    · rw [chain_child hs hp hlt]
      exact List.mem_cons_self ..
    · rw [chain_cut hs hp hlt]
      exact List.mem_cons_self ..

/-- The way to the root leads through frames that are there, and from each to its parent. -/
theorem mem_chain (h : (g, frame) ∈ s.chain f) :
    s.frames[g]? = some frame ∧
      ∀ g', frame.parent = some g' → g' < g → ∃ frame', (g', frame') ∈ s.chain f := by
  induction f using Nat.strongRecOn with
  | ind f ih =>
    cases hs : s.frames[f]? with
    | none =>
      rw [Scope.chain, hs] at h
      cases h
    | some first =>
      cases hp : first.parent with
      | none =>
        rw [chain_root hs hp] at h ⊢
        cases List.mem_singleton.1 h
        refine ⟨hs, fun g' hg' => ?_⟩
        rw [hp] at hg'
        cases hg'
      | some above =>
        by_cases hlt : above < f
        · rw [chain_child hs hp hlt] at h ⊢
          rcases List.mem_cons.1 h with he | h
          · cases he
            refine ⟨hs, fun g' hg' _ => ?_⟩
            rw [hp] at hg'
            cases hg'
            have hsize := (Array.getElem?_eq_some_iff.1 hs).1
            obtain ⟨frame', hmem⟩ := s.exists_mem_chain (Nat.lt_trans hlt hsize)
            exact ⟨frame', List.mem_cons_of_mem _ hmem⟩
          · obtain ⟨hs', hparent⟩ := ih above hlt h
            refine ⟨hs', fun g' hg' hlt' => ?_⟩
            obtain ⟨frame', hmem⟩ := hparent g' hg' hlt'
            exact ⟨frame', List.mem_cons_of_mem _ hmem⟩
        · rw [chain_cut hs hp hlt] at h ⊢
          cases List.mem_singleton.1 h
          refine ⟨hs, fun g' hg' hlt' => ?_⟩
          rw [hp] at hg'
          cases hg'
          exact absurd hlt' hlt

end Chain

end Scope

end Concatenative
