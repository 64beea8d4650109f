import Concatenative.Proofs.Loadings
import Concatenative.Proofs.Sources

/-! Modules are kept apart. Whoever embeds the language runs texts and files and hands closures that it
was given to where it likes (`Interprets`). Main statement: however modules refer to each other and
wherever their closures go, a closure runs over frames of the text or of the file that its body is
from; so names and input are looked for there and in the root only, and references start from the
directory of that file (`modules_are_isolated`). -/
namespace Concatenative

open Session (root)

/-! ## Which file a reference means -/

namespace Evaluation

open Eval

/-- What is asked when a reference is looked for from a directory on. -/
def searched (reference : String) (first : Path) (settings : LibrarySettings)
    (found : Option Query.Found) : List Answered :=
  [⟨.settings, settings⟩, ⟨.world (.firstFile (settings.candidates first reference)), found⟩] ++
  ((Query.tried (settings.candidates first reference) found).map Path.tryNote).map fun n =>
    ⟨.note n, ()⟩

/-- What is asked until it is known where a reference starts from. -/
def started (f : FrameId) (directory : Option Path) (working : Path) : List Answered :=
  ⟨.moduleDirectory f, (.ok directory : Except Failure (Option Path))⟩ ::
    if directory.isNone then [⟨.world .workingDirectory, working⟩] else []

/-- The note that is made of the file that was found. -/
def foundNote (reference : String) (path : Path) : Note :=
  ⟨.trace, "Module reference " ++ reference ++ " resolved to " ++ path.text ++ "."⟩

/-- What is asked for to find the file that a reference in the code of a frame means, with the answers,
and what it comes to. The search starts from the directory of the frame, and from the working directory
if there is none. -/
inductive Locating (f : FrameId) (reference : String) : List Answered → Except Failure Path → Prop
  | refused (e : Failure) :
      Locating f reference [⟨.moduleDirectory f, (.error e : Except Failure (Option Path))⟩] (.error e)
  | found (directory : Option Path) (working : Path) (settings : LibrarySettings)
      (found : Query.Found) :
      Locating f reference
        (started f directory working ++
          searched reference (directory.getD working) settings (some found) ++
          [⟨.note (foundNote reference found.path), ()⟩])
        (.ok found.path)
  | missing (directory : Option Path) (working : Path) (settings : LibrarySettings) :
      Locating f reference
        (started f directory working ++ searched reference (directory.getD working) settings none)
        (.error (Cause.moduleNotFound reference))

theorem ends_resolve {reference : String} {first : Path} {τ τ' : List Answered}
    {r : Except Failure Path} :
    Act.Ends recorded (resolve reference (some first)).run τ r τ' ↔
      ∃ settings found, τ = searched reference first settings found ++ τ' ∧
        r = (match found with
          | some found => .ok found.path
          | none => .error (Cause.moduleNotFound reference)) := by
  unfold resolve
  dsimp only
  rw [pure_bind, ends_ask_recorded rfl]
  constructor
  · rintro ⟨settings, τ₁, rfl, h₁⟩
    obtain ⟨found, τ₂, rfl, h₂⟩ := (ends_ask_recorded rfl).1 h₁
    obtain ⟨τ₃, rfl, h₃⟩ := ends_noteAll_recorded.1 h₂
    refine ⟨settings, found, ?_⟩
    simp only [searched, List.cons_append, List.nil_append]
    cases found with
    | some found =>
      obtain ⟨rfl, rfl⟩ := ends_pure.1 h₃
      exact ⟨rfl, rfl⟩
    | none =>
      obtain ⟨rfl, rfl⟩ := ends_throw.1 h₃
      exact ⟨rfl, rfl⟩
  · rintro ⟨settings, found, rfl, rfl⟩
    refine ⟨settings, _, rfl, (ends_ask_recorded rfl).2 ⟨found, _, rfl, ?_⟩⟩
    refine ends_noteAll_recorded.2 ⟨τ', rfl, ?_⟩
    cases found with
    | some found => exact ends_pure.2 ⟨rfl, rfl⟩
    | none => exact ends_throw.2 ⟨rfl, rfl⟩

/-- From wherever the search starts. -/
theorem ends_resolve_started {f : FrameId} {reference : String} {directory : Option Path}
    {τ τ' : List Answered} {r : Except Failure Path} :
    Act.Ends recorded (resolve reference directory).run τ r τ' ↔
      ∃ working τ₁, ⟨.moduleDirectory f, (.ok directory : Except Failure (Option Path))⟩ :: τ =
        started f directory working ++ τ₁ ∧
        Act.Ends recorded (resolve reference (some (directory.getD working))).run τ₁ r τ' := by
  cases directory with
  | some d =>
    constructor
    · exact fun h => ⟨d, τ, rfl, h⟩
    · rintro ⟨_, τ₁, he, h⟩
      cases he
      exact h
  | none =>
    have hnone : resolve reference none =
        (ask (.world .workingDirectory) >>= fun first => resolve reference (some first)) := rfl
    rw [hnone, ends_ask_recorded rfl]
    constructor
    · rintro ⟨working, τ₁, rfl, h⟩
      exact ⟨working, τ₁, rfl, h⟩
    · rintro ⟨working, τ₁, he, h⟩
      cases he
      exact ⟨working, τ₁, rfl, h⟩

/-- A reference is located in this way, and each of these ways may be taken. -/
theorem ends_locate {f : FrameId} {reference : String} {τ : List Answered}
    {r : Except Failure Path} :
    Act.Ends recorded (locate f (.settled (.text reference))).run τ r [] ↔
      Locating f reference τ r := by
  have hlocate : locate f (.settled (.text reference)) =
      (ask (.moduleDirectory f) >>= fun directory => orFail directory >>= fun directory =>
        resolve reference directory >>= fun path =>
        ask (.note (foundNote reference path)) >>= fun _ => pure path) := rfl
  rw [hlocate, ends_ask_recorded rfl]
  constructor
  · rintro ⟨directory, τ₁, rfl, h₁⟩
    cases directory with
    | error e =>
      obtain ⟨rfl, rfl⟩ := ends_throw.1 h₁
      exact .refused e
    | ok directory =>
      have h₂ : Act.Ends recorded (resolve reference directory >>= fun path =>
        ask (.note (foundNote reference path)) >>= fun _ => pure path).run τ₁ r [] := h₁
      rcases ends_bind.1 h₂ with ⟨path, τ₂, hr, hk⟩ | ⟨e, hr, rfl⟩
      · obtain ⟨working, τ₃, he, hr⟩ := (ends_resolve_started (f := f)).1 hr
        obtain ⟨settings, found, rfl, hfound⟩ := ends_resolve.1 hr
        obtain ⟨_, τ₄, rfl, hend⟩ := (ends_ask_recorded rfl).1 hk
        obtain ⟨rfl, rfl⟩ := ends_pure.1 hend
        cases found with
        | none => cases hfound
        | some found =>
          cases hfound
          rw [he, ← List.append_assoc]
          exact .found directory working settings found
      · obtain ⟨working, τ₃, he, hr⟩ := (ends_resolve_started (f := f)).1 hr
        obtain ⟨settings, found, rfl, hfound⟩ := ends_resolve.1 hr
        cases found with
        | some found => cases hfound
        | none =>
          cases hfound
          rw [he, List.append_nil]
          exact .missing directory working settings
  · intro h
    cases h with
    | refused e => exact ⟨.error e, _, rfl, ends_throw.2 ⟨rfl, rfl⟩⟩
    | found directory working settings found =>
      refine ⟨.ok directory, _, rfl, ?_⟩
      refine (ends_bind (x := resolve reference directory)
        (f := fun path => ask (.note (foundNote reference path)) >>= fun _ => pure path)).2 (.inl ?_)
      refine ⟨found.path, _, ?_, (ends_ask_recorded rfl).2 ⟨(), _, rfl, ends_pure.2 ⟨rfl, rfl⟩⟩⟩
      refine (ends_resolve_started (f := f)).2 ⟨working, _, List.append_assoc (started f _ _) _ _, ?_⟩
      exact ends_resolve.2 ⟨settings, some found, rfl, rfl⟩
    | missing directory working settings =>
      refine ⟨.ok directory, _, rfl, (ends_bind (x := resolve reference directory)).2 (.inr ?_)⟩
      refine ⟨_, (ends_resolve_started (f := f)).2 ⟨working, _, rfl, ?_⟩, rfl⟩
      exact ends_resolve.2 ⟨settings, none, (List.append_nil _).symm, rfl⟩

end Evaluation

/-! ## Closures in a journal -/

/-- The closures that a request hands on. -/
def Request.closures : Request → List Anchored
  | enter _ x | world (.word _ x) => inputClosures x
  | declare _ _ d | rebind _ _ d => d.closures
  | spawn _ job | perform job => job.closures
  | _ => []

/-- The closures that an answer brings. -/
def Request.brought : (q : Request) → q.Answer → List Anchored
  | lookup _ _, r | input _, r => (r.toOption.map Deferred.closures).getD []
  | await _, o | perform _, o | world (.word _ _), o => Outcome.closures o
  | _, _ => []

def Turn.closures : Turn → List Anchored
  | performs job | becomes job => job.closures
  | returns o => o.closures

/-- All closures that an entry tells of. -/
def Entry.closures : Entry → List Anchored
  | started _ job => job.closures
  | opened f body => [(body, f)]
  | declared _ v => v.closures
  | turned _ turn => turn.closures
  | answered _ q a => q.closures ++ q.brought a

variable {w : Provenance} {φ : Phase} {q : Request}

theorem Request.Due.knows (h : q.Due w φ) : w.Knows q.closures := by
  cases q with
  | enter parent x => exact h.2.2.2
  | declare f name d => exact h.2
  | rebind f name d => exact h.2
  | spawn l job => exact h.2.1.1
  | perform job => exact h.2.1
  | world q =>
    cases q with
    | word name x => exact h.2
    | _ => exact w.knows_nil
  | _ => exact w.knows_nil

theorem Provenance.Grants.knows {a : q.Answer} (h : w.Grants q a) : w.Knows (q.brought a) := by
  have hfound : ∀ r : Except Failure Deferred, (∀ d, r = .ok d → w.Knows d.closures) →
      w.Knows ((r.toOption.map Deferred.closures).getD []) := by
    intro r hr
    cases r with
    | error e => exact w.knows_nil
    | ok d => exact hr d rfl
  cases q with
  | lookup f name => exact hfound a h
  | input f => exact hfound a h
  | await u => exact h
  | perform job => exact h
  | world q =>
    cases q with
    | word name x => exact h
    | _ => exact w.knows_nil
  | _ => exact w.knows_nil

theorem Thread.Proper.knows_turn {φs : List Phase} {θ θ' : Thread} {turn : Turn}
    (hθ : θ.Proper w φs) (h : θ.Takes turn θ') : w.Knows turn.closures := by
  cases φs with
  | nil => exact hθ.elim
  | cons φ φs =>
    obtain ⟨hx, _⟩ := hθ
    cases h with
    | becomes =>
      cases hx with
      | done hn => exact hn.2.1
    | performs =>
      cases hx with
      | ask hq hk => exact hq.2.1
    | returns =>
      cases hx with
      | done hn => exact hn.2
    | fails => exact w.knows_nil

/-- What is done from outside hands on what is known. -/
theorem Provenance.Admits.knows {e : Entry} (h : w.Admits e) (he : e.task? = none) :
    (w.entry e).Knows e.closures := by
  cases e with
  | started t job => exact h.1
  | opened f body =>
    exact knows_singleton.2 ⟨.inr rfl, fun b hpart => .inr ⟨rfl, hpart⟩⟩
  | declared name v => exact h
  | turned t turn => cases he
  | answered t q a => cases he

namespace Machine

variable {m m' : Machine} {J J' : Journal} {e : Entry} {es : List Entry} {t : TaskId} {x : Anchored}

/-- And so does every move. -/
theorem Proper.knows_told (h : m.Proper J w) (ho : m.Orderly) (ht : m.Tells [e] m')
    (he : w.Admits e) : (w.entry e).Knows e.closures := by
  cases ht with
  | turns hr hturn => exact (h.running _ _ hr).knows_turn hturn
  | @serves t q k ks log a m₁ hr hs =>
    have ho₀ : Orderly { m with running := none } := ho.idle
    have hdue := h.due hr
    have hgrants := (hs.proper h.idle ho₀ hdue he).2
    exact Provenance.knows_append.2 ⟨hdue.knows.mono (w.le_grow q a), hgrants.knows⟩
  | reads a hr hm => exact w.knows_nil

/-- Of all closures that were ever told of it is known where their code is from. -/
theorem Unfolds.knows_told (h : Unfolds J m) (hw : w.AdmitsAll J) (he : e ∈ J) :
    (w.along J).Knows e.closures := by
  obtain ⟨J₂, J₁, rfl⟩ := List.append_of_mem he
  obtain ⟨hadmits, hw₁⟩ := hw.of_append
  have hknows : (w.along (e :: J₁)).Knows e.closures := by
    cases htask : e.task? with
    | none => exact hadmits.knows htask
    | some t =>
      obtain ⟨m₁, m₂, hprev, ht⟩ := h.told (by simp [htask])
      exact (hprev.proper hw₁).knows_told hprev.orderly.1 ht hadmits
  rw [Provenance.along_append]
  exact hknows.mono (Provenance.le_along _ _)

/-! ## What an interpreter does -/

/-- The closures that whoever embeds the language was given: those of its texts, and those in what jobs
came to. -/
inductive HandsOut (m : Machine) (J : Journal) : Anchored → Prop
  | text {f : FrameId} {body : Body} : Entry.opened f body ∈ J → HandsOut m J (body, f)
  | outcome {t : TaskId} {o : Outcome} {x : Anchored} : m.result? t = some o →
      x ∈ Outcome.closures o → HandsOut m J x

/-- The jobs that it may start. -/
inductive Offers (m : Machine) (J : Journal) : Job → Prop
  | force {v : Value} {x : Option Value} :
      (∀ c ∈ v.closures ++ inputClosures x, m.HandsOut J c) → Offers m J (.force v x)
  | call {callable : Callable} {x : Option Value} :
      (∀ c ∈ callable.closures ++ inputClosures x, m.HandsOut J c) → Offers m J (.call callable x)
  | openModule (path : Path) : Offers m J (.openModule root path)

/-- What an interpreter comes to and what has happened in it, if whoever embeds the language makes up no
closures: it runs texts that can be built, opens files, calls and declares what it was given, and the
words that it adds return what they or it were given. -/
inductive Interprets : Journal → Machine → Prop
  | start (settings : LibrarySettings) (world : World) :
      Interprets [] (Session.start settings world).machine
  | opens {J : Journal} {m : Machine} {path text : String} {body : Body} : Interprets J m →
      (build m.library.settings.strict path text).result = .ok body →
      Interprets (.opened m.scope.frames.size body :: J)
        { m with
          scope := (m.scope.addChild root none).2
          stamps := m.stamps + 1 }
  | starts {J : Journal} {m : Machine} {job : Job} : Interprets J m → m.Offers J job →
      Interprets (.started m.tasks.size job :: J) (m.addTask none job).2
  | declares {J : Journal} {m : Machine} {name : String} {v : Value} : Interprets J m →
      (∀ c ∈ v.closures, m.HandsOut J c) →
      Interprets (.declared name v :: J)
        { m with scope := (m.scope.declare root name (.settled v)).2 }
  | notes {J : Journal} {m : Machine} (notes : List Note) : Interprets J m →
      Interprets J { m with notes }
  /-- Any move, of whichever task. -/
  | tells {J : Journal} {es : List Entry} {m m' : Machine} : Interprets J m → m.Tells es m' →
      (∀ name x o, ⟨.word name x, o⟩ ∈ Journal.words es → ∀ c ∈ Outcome.closures o,
        c ∈ inputClosures x ∨ m.HandsOut J c) →
      Interprets (es ++ J) m'

theorem Interprets.unfolds (h : Interprets J m) : Unfolds J m := by
  induction h with
  | start settings world => exact .start settings world
  | opens _ _ ih => exact .hosts ih (.opens _)
  | starts _ _ ih => exact .hosts ih (.starts _)
  | declares _ _ ih => exact .hosts ih (.declares _ _)
  | notes notes _ ih => exact .hosts ih (.notes notes)
  | tells _ ht _ ih => exact .tells ih ht

/-- Of what was given it is known where its code is from. -/
theorem Unfolds.runs_handsOut (h : Unfolds J m) (hw : w.AdmitsAll J) (hx : m.HandsOut J x) :
    (w.along J).Runs x := by
  cases hx with
  | text hopened => exact Provenance.knows_singleton.1 (h.knows_told hw hopened)
  | outcome hres hmem =>
    rw [result?_eq] at hres
    obtain ⟨s, hs, hso⟩ := Option.bind_eq_some_iff.1 hres
    exact (h.proper hw).results _ s _ hs hso x hmem

end Machine

/-- At first there is the root, and no code. -/
def Provenance.origin : Provenance := ⟨(· = root), fun _ _ => False, fun _ _ => False⟩

namespace Machine

open Provenance (origin)

variable {m m' : Machine} {J J' : Journal} {e : Entry} {es : List Entry} {t : TaskId} {x : Anchored}

/-- Whoever makes up no closures hands on only what is known. -/
theorem Interprets.admitsAll (h : Interprets J m) : origin.AdmitsAll J := by
  induction h with
  | start settings world => trivial
  | opens _ _ ih => exact ⟨trivial, ih⟩
  | @starts J m job hm hjob ih =>
    have hruns : ∀ {x}, m.HandsOut J x → (origin.along J).Runs x := hm.unfolds.runs_handsOut ih
    refine ⟨?_, ih⟩
    cases hjob with
    | force hc => exact ⟨fun c hmem => hruns (hc c hmem), trivial⟩
    | call hc => exact ⟨fun c hmem => hruns (hc c hmem), trivial⟩
    | openModule path => exact ⟨Provenance.knows_nil _, (origin.le_along J).1 root rfl⟩
  | declares hm hv ih => exact ⟨fun c hmem => hm.unfolds.runs_handsOut ih (hv c hmem), ih⟩
  | notes _ _ ih => exact ih
  | @tells J es m m' hm ht hwords ih =>
    rcases ht.one with rfl | ⟨e, rfl⟩
    · exact ih
    · refine ⟨?_, ih⟩
      cases ht with
      | turns _ _ => trivial
      | reads a _ _ => trivial
      | serves _ hs =>
        cases hs with
        | word name x o =>
          intro hx c hmem
          rcases hwords name x o List.mem_cons_self c hmem with hc | hc
          · exact hx c hc
          · exact hm.unfolds.runs_handsOut ih hc
        | _ => trivial

theorem Tells.answer_directory {f : FrameId} {a : Except Failure (Option Path)}
    (h : m.Tells [.answered t (.moduleDirectory f) a] m') :
    a = (m.scope.requireLibrary f).map fun _ => m.scope.moduleDirectory? f := by
  cases h with
  | serves _ hs =>
    cases hs
    rfl

theorem Hosts.grounded (hh : m.Hosts es m') (h : m.scope.Grounded J w)
    (hopened : ∀ f body, es = [.opened f body] →
      ∃ strict path text, (build strict path text).result = .ok body) :
    m'.scope.Grounded (es ++ J) (w.along es) := by
  refine h.told hh.scope hh.one (fun t q a he => ?_) (fun t f a he => ?_) hopened
  · subst he
    cases hh
  · subst he
    cases hh

theorem Interprets.grounded (h : Interprets J m) : m.scope.Grounded J (origin.along J) := by
  induction h with
  | start settings world =>
    refine ⟨Scope.rooted_start, ?_, fun f b hc => hc.elim, fun p b hm => hm.elim,
      fun e he => absurd he List.not_mem_nil⟩
    rintro f rfl
    exact Scope.rooted_start.root_lt
  | opens _ hb ih =>
    refine (Hosts.opens _).grounded ih fun f body he => ?_
    cases he
    exact ⟨_, _, _, hb⟩
  | starts _ _ ih => exact (Hosts.starts _).grounded ih nofun
  | declares _ _ ih => exact (Hosts.declares _ _).grounded ih nofun
  | notes notes _ ih => exact ih
  | tells hm ht _ ih =>
    rw [Provenance.along_append]
    refine ih.told ht.scope ht.one (fun t q a he => ?_) (fun t f a he => ?_) fun f body he => ?_
    · subst he
      exact (hm.unfolds.proper hm.admitsAll).due_of_tells ht
    · subst he
      exact ht.answer_directory
    · subst he
      cases ht

end Machine

/-! ## Isolation -/

/-- The frame that an instruction uses for names, for the input or for references to modules. -/
def Request.uses? : Request → Option (FrameId × Primitive)
  | declare f _ _ => some (f, .bind)
  | rebind f _ _ => some (f, .rebind)
  | lookup f _ => some (f, .lookup)
  | input f => some (f, .input)
  | spawn _ (.load f _) => some (f, .load)
  | spawn _ (.access f _) => some (f, .access)
  | _ => none

theorem Request.Due.acts {f : FrameId} {p : Primitive} (h : q.Due w φ) (hq : q.uses? = some (f, p)) :
    w.Acts φ f p := by
  cases q with
  | declare f name d =>
    cases hq
    exact h.1
  | rebind f name d =>
    cases hq
    exact h.1
  | lookup f name =>
    cases hq
    exact h
  | input f =>
    cases hq
    exact h
  | spawn l job =>
    cases job with
    | load f d =>
      cases hq
      exact ⟨h.2.2.1, l, h.2.2.2⟩
    | access f d =>
      cases hq
      exact ⟨h.2.2.1, l, h.2.2.2⟩
    | _ => cases hq
  | _ => cases hq

namespace Scope

/-- An instruction of code that is from where the unit of the frame says. -/
def Wrote (s : Scope) (J : Journal) (f : FrameId) (p : Primitive) : Prop :=
  ∃ b l, ⟨l, .primitive p⟩ ∈ b.code ∧ s.Traced J (b, f)

theorem Grounded.wrote {s : Scope} {J : Journal} {f : FrameId} {l : Location} {p : Primitive}
    (h : s.Grounded J w) (hw : w.Writes f l p) : s.Wrote J f p := by
  obtain ⟨_, b, hb, hi⟩ := hw
  exact ⟨b, l, hi, h.code f b hb⟩

end Scope

namespace Machine

/-- A closure that a frame holds, that is in what a task came to, or that was ever asked for, answered,
passed on, called or returned. -/
inductive Contains (m : Machine) (J : Journal) (x : Anchored) : Prop
  | held {f : FrameId} {frame : Frame} : m.scope.frames[f]? = some frame → x ∈ frame.closures →
      Contains m J x
  | outcome {t : TaskId} {o : Outcome} : m.result? t = some o → x ∈ Outcome.closures o →
      Contains m J x
  | told {e : Entry} : e ∈ J → x ∈ e.closures → Contains m J x

/-- Modules are kept apart. -/
structure Isolated (m : Machine) (J : Journal) : Prop where
  /-- The root has the library, every other frame hangs under an earlier one, and a frame that says
  which file its code is from hangs under the root. -/
  rooted : m.scope.Rooted
  /-- So every way up ends at the root, where the library is; -/
  ends : ∀ f, f < m.scope.frames.size →
    m.scope.rootOf f = root ∧ m.scope.requireLibrary f = .ok ()
  /-- and it leads through one file at most. -/
  single : ∀ f, f < m.scope.frames.size →
    ((m.scope.chain f).filterMap fun x => x.2.modulePath).length ≤ 1
  /-- No way up leads from one unit into another. -/
  confined : ∀ f, f < m.scope.frames.size → m.scope.Confined f
  /-- Texts and loads of modules are units of their own, invocations belong to the unit of the closure
  that is called, and references start from the directory of the file of the unit. -/
  placed : ∀ e ∈ J, e.Placed m.scope
  /-- Closures run over frames of what their bodies are from; -/
  closures : ∀ x, m.Contains J x → m.scope.Traced J x
  /-- also those that invocations make of groups. -/
  groups : ∀ t g x f, Entry.answered t (.enter g x) f ∈ J → ∀ b inner : Body, m.scope.Traced J (b, g) →
    inner.Part b → m.scope.Traced J (inner, f)
  /-- Whoever uses a frame for names, input or references is inside of it and runs code of its unit. -/
  uses : ∀ J₂ t q a J₁ f p, J = J₂ ++ .answered t q a :: J₁ → q.uses? = some (f, p) →
    Journal.phase J₁ t = .inside f ∧ m.scope.Wrote J f p
  /-- References are in the code of the file whose directory they start from. -/
  references : ∀ t f a, Entry.answered t (.moduleDirectory f) a ∈ J →
    m.scope.Wrote J f .load ∨ m.scope.Wrote J f .access

open Provenance (origin)

variable {m m' : Machine} {J J' : Journal} {x : Anchored}

/-- Whatever a machine contains is known. -/
theorem Unfolds.runs_contains (h : Unfolds J m) (hw : w.AdmitsAll J) (hx : m.Contains J x) :
    (w.along J).Runs x := by
  cases hx with
  | held hf hmem => exact (h.proper hw).scope _ _ hf x hmem
  | outcome hres hmem => exact h.runs_handsOut hw (.outcome hres hmem)
  | told he hmem => exact h.knows_told hw he x hmem

theorem Interprets.isolated (h : Interprets J m) : m.Isolated J := by
  have hg := h.grounded
  refine ⟨hg.rooted, fun f hf => ⟨hg.rooted.rootOf hf, hg.rooted.requireLibrary hf⟩,
    fun f hf => hg.rooted.single hf, fun f hf => hg.rooted.confined hf, hg.placed,
    fun x hx => hg.traced (h.unfolds.runs_contains h.admitsAll hx), ?_, ?_, ?_⟩
  · intro t g x f hmem b inner hb hpart
    obtain ⟨hne, _, hlt, hunit, hpath⟩ := hg.placed _ hmem
    obtain ⟨_, _, body, hsource, hb⟩ := hb
    refine ⟨hne, hlt, body, ?_, hpart.trans hb⟩
    rw [hunit, hpath]
    exact hsource
  · rintro J₂ t q a J₁ f p rfl hq
    obtain ⟨hφ, l, hl⟩ := (h.unfolds.due_of_answered h.admitsAll).acts hq
    exact ⟨hφ, hg.wrote hl⟩
  · intro t f a hmem
    obtain ⟨J₂, J₁, rfl⟩ := List.append_of_mem hmem
    obtain ⟨l, hl⟩ := (h.unfolds.due_of_answered h.admitsAll).2
    exact hl.imp hg.wrote hg.wrote

/-! ## Runs -/

/-- Whatever moves are made while added words return closures of their input only. -/
theorem Interprets.recounts (h : Interprets J m) (hr : m.Recounts J' m')
    (hwords : ∀ name x o, ⟨.word name x, o⟩ ∈ J'.words → Outcome.closures o ⊆ inputClosures x) :
    Interprets (J' ++ J) m' := by
  induction hr with
  | refl => exact h
  | snoc _ ht ih =>
    simp only [Journal.words, List.filterMap_append, List.mem_append] at hwords
    rw [List.append_assoc]
    refine .tells (ih fun name x o hmem => hwords name x o (.inr hmem)) ht fun name x o hmem c hc => ?_
    exact .inl (hwords name x o (.inl hmem) hc)

theorem HandsOut.congr (h : m.HandsOut J x) (ht : m'.tasks = m.tasks) : m'.HandsOut J x := by
  cases h with
  | text hopened => exact .text hopened
  | outcome hres hmem => exact .outcome (by rwa [result?, ht]) hmem

end Machine

/-- Added words return closures of their input only. -/
def World.Honest (world : World) : Prop :=
  ∀ name x, (world.words name x).closures ⊆ inputClosures x

namespace Session

open Machine

variable {s : Session} {J : Journal}

theorem interprets_runJob {job : Job} (h : Interprets J s.machine) (hw : s.world.Honest)
    (hjob : s.machine.Offers J job) : ∃ J', Interprets (J' ++ J) (s.runJob job).2.machine := by
  obtain ⟨log, hr, hanswers, _⟩ := s.runs_runJob job
  obtain ⟨J', hJ, hwords⟩ := recounts_runs hr
  refine ⟨J' ++ [.started s.machine.tasks.size job], ?_⟩
  rw [List.append_assoc]
  refine (Interprets.starts h hjob).recounts hJ fun name x o hmem => ?_
  rw [hanswers.word (hwords hmem)]
  exact hw name x

theorem honest_runJob (hw : s.world.Honest) (job : Job) : (s.runJob job).2.world.Honest := by
  obtain ⟨_, _, hanswers, _⟩ := s.runs_runJob job
  rw [World.Honest, hanswers.words]
  exact hw

theorem interprets_note (h : Interprets J s.machine) (notes : List Note) :
    Interprets J (s.note notes).machine := .notes _ h

theorem interprets_runProgram {program : Value} (h : Interprets J s.machine) (hw : s.world.Honest)
    (name : String) (hp : ∀ c ∈ program.closures, s.machine.HandsOut J c) :
    ∃ J', Interprets (J' ++ J) (s.runProgram name program).2.machine := by
  have hjob : Offers (s.note [⟨.info, "Running " ++ name ++ "."⟩]).machine J (.force program none) :=
    .force fun c hc => (hp c (by simpa [inputClosures] using hc)).congr rfl
  obtain ⟨J', hJ⟩ := interprets_runJob (interprets_note h _) hw hjob
  refine ⟨J', ?_⟩
  unfold runProgram
  dsimp only
  split
  · next he =>
    rw [he] at hJ
    exact interprets_note hJ _
  · next he =>
    rw [he] at hJ
    exact hJ

/-- A text is given as a closure. -/
theorem interprets_closure {path text : String} {body : Body} (h : Interprets J s.machine)
    (hb : (build s.machine.library.settings.strict path text).result = .ok body) :
    Interprets (.opened s.machine.scope.frames.size body :: J) (s.closure body).2.machine ∧
      ∀ c ∈ (s.closure body).1.closures,
        (s.closure body).2.machine.HandsOut (.opened s.machine.scope.frames.size body :: J) c := by
  refine ⟨.opens h hb, fun c hc => ?_⟩
  cases List.mem_singleton.1 hc
  exact .text List.mem_cons_self

/-- An interpreter runs texts. -/
theorem interprets_runText (h : Interprets J s.machine) (hw : s.world.Honest) (path text : String) :
    ∃ J', Interprets (J' ++ J) (s.runText path text).2.machine := by
  have hn := interprets_note h (build s.machine.library.settings.strict path text).notes
  unfold runText
  dsimp only
  split
  · next body hb =>
    obtain ⟨hopened, hgiven⟩ := interprets_closure hn hb
    obtain ⟨J', hJ⟩ := interprets_runProgram hopened hw path hgiven
    exact ⟨J' ++ [_], by rwa [List.append_assoc]⟩
  · exact ⟨[], hn⟩

/-- An interpreter runs files. -/
theorem interprets_runFile (h : Interprets J s.machine) (hw : s.world.Honest) (file : String) :
    ∃ J', Interprets (J' ++ J) (s.runFile file).2.machine := by
  have hres : Interprets J (s.resolve file none).2.machine ∧
      (s.resolve file none).2.world = s.world := by
    obtain ⟨notes, he⟩ := s.resolve_eq file none
    rw [he]
    exact ⟨interprets_note h notes, rfl⟩
  unfold runFile
  split
  · next he =>
    rw [he] at hres
    exact ⟨[], hres.1⟩
  · next path s' he =>
    rw [he] at hres
    have hw' : s'.world.Honest := by
      rw [World.Honest, hres.2]
      exact hw
    obtain ⟨J', hJ⟩ := interprets_runJob hres.1 hw' (.openModule path)
    obtain ⟨_, _, _, hout⟩ := s'.runs_runJob (.openModule root path)
    have hw'' := honest_runJob hw' (.openModule root path)
    split
    · next program s'' hopen =>
      rw [show s'.runJob (.openModule root path) = _ from hopen] at hJ hout hw''
      obtain ⟨J'', hJ'⟩ := interprets_runProgram hJ hw'' path.text fun c hc =>
        .outcome hout.symm hc
      exact ⟨J'' ++ J', by simpa using hJ'⟩
    · exact ⟨J', hJ⟩

end Session

open Machine

/-- Modules are kept apart in every state that an interpreter comes to, at any time while tasks run in
any order, and whatever text or file is run next. References are located as `Locating` says. -/
theorem modules_are_isolated {J : Journal} {s : Session} (h : Interprets J s.machine) :
    s.machine.Isolated J ∧
    (s.world.Honest →
      (∀ path text, ∃ J', Interprets (J' ++ J) (s.runText path text).2.machine ∧
        (s.runText path text).2.machine.Isolated (J' ++ J)) ∧
      ∀ file, ∃ J', Interprets (J' ++ J) (s.runFile file).2.machine ∧
        (s.runFile file).2.machine.Isolated (J' ++ J)) ∧
    ∀ f reference τ r, Act.Ends recorded (Evaluation.locate f (.settled (.text reference))).run τ r [] ↔
      Evaluation.Locating f reference τ r := by
  refine ⟨h.isolated, fun hw => ⟨fun path text => ?_, fun file => ?_⟩, fun f reference τ r => ?_⟩
  · obtain ⟨J', hJ⟩ := Session.interprets_runText h hw path text
    exact ⟨J', hJ, hJ.isolated⟩
  · obtain ⟨J', hJ⟩ := Session.interprets_runFile h hw file
    exact ⟨J', hJ, hJ.isolated⟩
  · exact Evaluation.ends_locate

/-- A file calls a closure of a file in another directory, which refers to a third that is there and
would be another one seen from the first. -/
def borrowing : Files where
  files := [(["m"], "\"d/n\" # |".toUTF8), (["d", "n"], "( \"o\" # )".toUTF8),
    (["d", "o"], "7".toUTF8), (["o"], "8".toUTF8)]
  directories := [["d"]]

def borrower : Session := ((Session.start {} { files := borrowing }).runFile "/m").2

theorem modules_are_isolated_borrower :
    ∃ J, Interprets J borrower.machine ∧ borrower.machine.Isolated J ∧
      borrower.isCached ⟨"/d/o"⟩ = true ∧ borrower.isCached ⟨"/o"⟩ = false := by
  have hstart : Interprets [] (Session.start {} { files := borrowing }).machine := .start {} _
  have hhonest : World.Honest { files := borrowing } := fun _ _ => List.nil_subset _
  obtain ⟨J, hJ, _⟩ := ((modules_are_isolated hstart).2.1 hhonest).2 "/m"
  exact ⟨_, hJ, (modules_are_isolated (s := borrower) hJ).1, by decide +kernel, by decide +kernel⟩

end Concatenative
