import Concatenative.Proofs.Lockstep
import Concatenative.Proofs.Quiescence

/-! Sessions side by side. Machines at rest that hold the same as far as a correspondence leads can be
given the same text. Main statement: the two sessions go through it in step, come to the same and write
the same, and what they hold afterwards corresponds in turn (`abreast_runText`). -/
namespace Concatenative

variable {p : Terms} {ρ σ : Correspondence}

/-! ## Names that are made next -/

/-- Numbers that correspond and were given, and those that are given next. -/
def Further (R : Nat → Nat → Prop) (n n' a a' : Nat) : Prop :=
  R a a' ∧ a < n ∧ a' < n' ∨ ∃ k, a = n + k ∧ a' = n' + k

namespace Further

variable {R : Nat → Nat → Prop} {n n' a a' b b' : Nat}

/-- What depends on the order of two numbers only is kept if it is kept among those that were given. -/
theorem rel_iff {r : Nat → Nat → Prop}
    (horder : ∀ {a a' b b'}, (a < b ↔ a' < b') → (b < a ↔ b' < a') → (r a b ↔ r a' b'))
    (hR : ∀ {a a' b b'}, R a a' → R b b' → (r a b ↔ r a' b'))
    (ha : Further R n n' a a') (hb : Further R n n' b b') : r a b ↔ r a' b' := by
  rcases ha with ⟨ha, hlt, hlt'⟩ | ⟨k, rfl, rfl⟩
  · rcases hb with ⟨hb, _, _⟩ | ⟨j, rfl, rfl⟩
    · exact hR ha hb
    · exact horder (by omega) (by omega)
  · rcases hb with ⟨_, hlt, hlt'⟩ | ⟨j, rfl, rfl⟩
    · exact horder (by omega) (by omega)
    · exact horder (by omega) (by omega)

/-- Where numbers stand for themselves, those that are given next do so as well. -/
theorem eq (h : Further R n n' a a') (hR : ∀ a a', R a a' → a = a') (hn : n' = n) : a = a' := by
  rcases h with ⟨h, _⟩ | ⟨k, rfl, rfl⟩
  · exact hR a a' h
  · rw [hn]

end Further

namespace Correspondence

/-- What corresponds, and what two machines make next. -/
def ahead (ρ : Correspondence) (m m' : Machine) : Correspondence where
  stamps := Further ρ.stamps m.stamps m'.stamps
  frames := Further ρ.frames m.scope.frames.size m'.scope.frames.size
  tasks := Further ρ.tasks m.tasks.size m'.tasks.size
  unique ha hb := Further.rel_iff (r := (· = ·)) (by omega) ρ.unique ha hb

/-- All names stand for themselves. -/
structure IsIdentity (ρ : Correspondence) : Prop where
  stamps : ∀ a a', ρ.stamps a a' → a = a'
  frames : ∀ f f', ρ.frames f f' → f = f'
  tasks : ∀ t t', ρ.tasks t t' → t = t'

theorem IsIdentity.anti (h : σ.IsIdentity) (hle : ρ ≤ σ) : ρ.IsIdentity :=
  ⟨fun a a' ha => h.stamps a a' (hle.1 a a' ha), fun f f' hf => h.frames f f' (hle.2.1 f f' hf),
    fun t t' ht => h.tasks t t' (hle.2.2 t t' ht)⟩

theorem IsIdentity.ordered (h : ρ.IsIdentity) : ρ.Ordered := by
  constructor
  · intro f f' g g' hf hg
    rw [h.frames f f' hf, h.frames g g' hg]
  · intro t t' u u' ht hu
    rw [h.tasks t t' ht, h.tasks u u' hu]

theorem IsIdentity.ahead {m m' : Machine} (h : ρ.IsIdentity) (hs : m'.stamps = m.stamps)
    (hf : m'.scope.frames.size = m.scope.frames.size) (ht : m'.tasks.size = m.tasks.size) :
    (ρ.ahead m m').IsIdentity :=
  ⟨fun _ _ ha => Further.eq ha h.stamps hs, fun _ _ hff => Further.eq hff h.frames hf,
    fun _ _ htt => Further.eq htt h.tasks ht⟩

end Correspondence

/-! ## Machines at rest -/

namespace Machine

variable {m m' : Machine}

/-- Machines that hold the same as far as `ρ` leads, when all tasks that it leads to have ended. -/
structure Matched (p : Terms) (ρ : Correspondence) (m m' : Machine) : Prop where
  ordered : ρ.Ordered
  made : ∀ a a', ρ.stamps a a' → a < m.stamps ∧ a' < m'.stamps
  scope : Scope.Twins p ρ m.scope m'.scope
  library : Library.Alike ρ m.library m'.library
  tasks : ∀ t t', ρ.tasks t t' → ∃ task task', m.tasks[t]? = some task ∧ m'.tasks[t']? = some task' ∧
    (∃ l, p.places l ∧ task.origin = some l ∧ task'.origin = some l) ∧
    Option.Rel (Outcome.Settles p ρ) task.cell.result task'.cell.result

theorem Matched.le_ahead (h : m.Matched p ρ m') : ρ ≤ ρ.ahead m m' := by
  refine ⟨fun a a' ha => .inl ⟨ha, h.made a a' ha⟩, fun f f' hf => .inl ⟨hf, h.scope.lt hf⟩,
    fun t t' ht => .inl ⟨ht, ?_⟩⟩
  obtain ⟨task, task', hm, hm', _⟩ := h.tasks t t' ht
  exact ⟨(Array.getElem?_eq_some_iff.1 hm).1, (Array.getElem?_eq_some_iff.1 hm').1⟩

/-- Machines at rest that hold the same can go on abreast. -/
theorem Matched.abreast (h : m.Matched p ρ m') (hrest : m.AtRest) (hrest' : m'.AtRest)
    (main : TaskId) : m.Abreast p (ρ.ahead m m') main ρ m' := by
  refine ⟨⟨⟨?_, ?_⟩, h.le_ahead, h.made, ?_, ?_, ?_⟩, h.scope, h.library, ?_, ?_, ?_, ?_⟩
  · exact fun hf hg => Further.rel_iff (r := (· < ·)) (fun hlt _ => hlt) h.ordered.frames hf hg
  · exact fun ht hu => Further.rel_iff (r := (· = ·)) (by omega) h.ordered.tasks ht hu
  · exact fun n => .inr ⟨n, rfl, rfl⟩
  · exact fun n => .inr ⟨n, rfl, rfl⟩
  · exact fun n => .inr ⟨n, rfl, rfl⟩
  · intro t t' ht
    obtain ⟨task, task', hm, hm', ⟨l, hl, ho, ho'⟩, hres⟩ := h.tasks t t' ht
    obtain ⟨hthread, hquiet⟩ := hrest.tasks t task hm
    obtain ⟨hthread', hquiet'⟩ := hrest'.tasks t' task' hm'
    refine ⟨task, task', hm, hm', ho'.trans ho.symm, fun l' hl' => ?_, ?_, fun hn => ?_,
      .quiet hquiet hquiet' hres⟩
    · cases ho.symm.trans hl'
      exact hl
    · rw [hthread, hthread']
      exact .none
    · cases ho.symm.trans hn
  · rw [hrest.running, hrest'.running]
    exact .none
  · rw [hrest.ready, hrest'.ready]
    exact .nil
  · rw [hrest.reading, hrest'.reading]
    exact .nil

namespace Abreast

variable {φ : Correspondence} {main : TaskId}

theorem withNotes (h : m.Abreast p φ main ρ m') (notes notes' : List Note) :
    Abreast p φ main ρ { m with notes } { m' with notes := notes' } :=
  { h with paired := h.paired.congr rfl rfl rfl rfl rfl rfl }

/-- Tasks that correspond came to the same. -/
theorem result? {t t' : TaskId} (h : m.Abreast p φ main ρ m') (ht : ρ.tasks t t') :
    Option.Rel (Outcome.Settles p ρ) (m.result? t) (m'.result? t') := by
  obtain ⟨task, task', hm, hm', hv⟩ := h.tasks t t' ht
  rw [Machine.result?, Machine.result?, hm, hm']
  exact hv.cell.result

end Abreast

/-- A machine in which a program starts as a closure over a frame of its own. The frame may be that of
a module. -/
def launched (m : Machine) (modulePath : Option Path) (notes : List Note) (body : Body) : Machine :=
  (addTask { m with
    scope := (m.scope.add { parent := some Session.root, modulePath }).2
    stamps := m.stamps + 1
    notes } none (.force (.callable (.closure m.stamps body m.scope.frames.size)) none)).2

theorem orderly_launched (ho : m.Orderly) (hr : m.running = none) (modulePath : Option Path)
    (notes : List Note) (body : Body) : (m.launched modulePath notes body).Orderly :=
  Orderly.addTask (m := { m with
    scope := (m.scope.add { parent := some Session.root, modulePath }).2
    stamps := m.stamps + 1
    notes }) (ho.congr rfl rfl rfl) hr none _

/-- Machines at rest that hold the same begin a program in step. -/
theorem Matched.launched {body : Body} (h : m.Matched p ρ m') (hrest : m.AtRest) (hrest' : m'.AtRest)
    (hroot : ρ.frames Session.root Session.root) (modulePath : Option Path) (notes notes' : List Note)
    (hbody : body.Fits p) :
    ∃ σ, ρ ≤ σ ∧ σ.tasks m.tasks.size m'.tasks.size ∧
      (m.launched modulePath notes body).Abreast p (ρ.ahead m m') m.tasks.size σ
        (m'.launched modulePath notes' body) := by
  obtain ⟨hle₁, h₁⟩ := (h.abreast hrest hrest' m.tasks.size).addFrame
    { parent := some Session.root, modulePath } { parent := some Session.root, modulePath }
    hrest.running hrest'.running ⟨.nil, .none⟩ (.some hroot) rfl rfl
  obtain ⟨τ, hle₂, hstamp, h₂⟩ := h₁.addStamp hrest.running hrest'.running
  have hframe := hle₂.2.1 _ _ (.inr ⟨rfl, rfl⟩)
  have hjob : (Job.force (.callable (.closure m.stamps body m.scope.frames.size)) none).Alike p τ
      (.force (.callable (.closure m'.stamps body m'.scope.frames.size)) none) :=
    .force (.callable (.closure hstamp hbody hframe)) .none
  obtain ⟨hle₃, h₃⟩ := (h₂.withNotes notes notes').addTask none hrest.running hrest'.running hjob nofun
    (fun _ => rfl) fun _ => rfl
  exact ⟨_, Correspondence.le_trans hle₁ (Correspondence.le_trans hle₂ hle₃), .inr ⟨rfl, rfl⟩, h₃⟩

end Machine

/-! ## Sessions -/

namespace Session

open Machine

variable {s s' : Session} {φ : Correspondence} {base base' : List String} {path text : String}
  {body : Body}

/-- The session in which the program of a text starts. -/
def begun (s : Session) (path text : String) (body : Body) : Session :=
  ((s.note (build s.machine.library.settings.strict path text).notes).closure body).2.note
    [⟨.info, "Running " ++ path ++ "."⟩]

/-- The job that is started then: the text is forced as a closure over a frame of its own. -/
def entryJob (s : Session) (body : Body) : Job := .force (s.closure body).1 none

/-- The machine with that job. -/
def entered (s : Session) (path text : String) (body : Body) : Machine :=
  ((s.begun path text body).machine.addTask none (s.entryJob body)).2

/-- Notes aside, running a program leaves the machine that its job leaves. -/
theorem machine_runProgram (s : Session) (name : String) (program : Value) :
    ∃ notes, (s.runProgram name program).2.machine =
      { ((s.note [⟨.info, "Running " ++ name ++ "."⟩]).runJob (.force program none)).2.machine with
        notes } := by
  unfold runProgram
  dsimp only
  split
  · next h => rw [h]; exact ⟨_, rfl⟩
  · next h => rw [h]; exact ⟨_, rfl⟩

/-- Running a job is going on with it. -/
theorem runJob_eq (s : Session) (job : Job) :
    (s.runJob job).2.machine = ((s.machine.addTask none job).2.runAll stepLimit s.world).1 ∧
      (s.runJob job).2.world = ((s.machine.addTask none job).2.runAll stepLimit s.world).2 ∧
      (s.runJob job).1 = ((s.machine.addTask none job).2.runAll stepLimit s.world).1.result?
        s.machine.tasks.size := by
  unfold runJob
  generalize stepLimit = limit
  exact ⟨rfl, rfl, rfl⟩

/-- Notes aside, running a text that can be built is going on with its job. -/
theorem runText_of_built
    (hb : (build s.machine.library.settings.strict path text).result = .ok body) :
    ∃ notes, (s.runText path text).2.machine =
        { ((s.entered path text body).runAll stepLimit s.world).1 with notes } ∧
      (s.runText path text).2.world = ((s.entered path text body).runAll stepLimit s.world).2 ∧
      (s.runText path text).1 =
        ((s.entered path text body).runAll stepLimit s.world).1.result? s.machine.tasks.size := by
  have hrun : s.runText path text =
      ((s.note (build s.machine.library.settings.strict path text).notes).closure body).2.runProgram
        path (s.closure body).1 := by
    unfold runText
    simp only [hb]
    rfl
  obtain ⟨hm, hw, ho⟩ := runJob_eq (s.begun path text body) (s.entryJob body)
  obtain ⟨hres, hworld⟩ := runProgram_eq
    ((s.note (build s.machine.library.settings.strict path text).notes).closure body).2 path
    (s.closure body).1
  obtain ⟨notes, hmachine⟩ := machine_runProgram
    ((s.note (build s.machine.library.settings.strict path text).notes).closure body).2 path
    (s.closure body).1
  refine ⟨notes, ?_, ?_, ?_⟩
  · rw [hrun]
    exact hmachine.trans (congrArg (fun m : Machine => { m with notes }) hm)
  · rw [hrun, hworld]
    exact hw
  · rw [hrun, hres]
    exact ho

/-- Sessions at rest that hold the same begin a text in step. -/
theorem abreast_entered (path text : String) (h : s.machine.Matched p ρ s'.machine)
    (hrest : s.machine.AtRest) (hrest' : s'.machine.AtRest) (hroot : ρ.frames root root)
    (hbody : body.Fits p) :
    ∃ σ, ρ ≤ σ ∧ σ.tasks s.machine.tasks.size s'.machine.tasks.size ∧
      (s.entered path text body).Abreast p (ρ.ahead s.machine s'.machine) s.machine.tasks.size σ
        (s'.entered path text body) :=
  h.launched hrest hrest' hroot none _ _ hbody

/-- Sessions at rest that hold the same run a text in step. -/
theorem abreast_runText (path text : String) (h : s.machine.Matched p ρ s'.machine)
    (hrest : s.machine.AtRest) (hrest' : s'.machine.AtRest) (hroot : ρ.frames root root) (hp : p.Open)
    (hplaces : ∀ l, p.places l) (hw : World.Alike base base' s.world s'.world)
    (hu : s.world.Uniform p)
    (hbody : ∀ body, (build s.machine.library.settings.strict path text).result = .ok body →
      body.Fits p) :
    ∃ main σ, ρ ≤ σ ∧
      (s.runText path text).2.machine.Abreast p (ρ.ahead s.machine s'.machine) main σ
        (s'.runText path text).2.machine ∧
      Option.Rel (Outcome.Alike p σ) (s.runText path text).1 (s'.runText path text).1 ∧
      World.Alike base base' (s.runText path text).2.world (s'.runText path text).2.world := by
  have hstrict := congrArg LibrarySettings.strict h.library.settings
  cases hb : (build s.machine.library.settings.strict path text).result with
  | error e =>
    unfold runText
    rw [hstrict]
    simp only [hb]
    have h₀ := h.abreast hrest hrest' s.machine.tasks.size
    refine ⟨s.machine.tasks.size, ρ, Correspondence.le_refl ρ, h₀.withNotes _ _, .some (.error ?_), hw⟩
    exact fun l _ => hplaces l
  | ok body =>
    obtain ⟨τ, hle, hmain, h₁⟩ := abreast_entered path text h hrest hrest' hroot (hbody body hb)
    have ho : (s.entered path text body).Orderly :=
      orderly_launched hrest.orderly hrest.running none _ body
    obtain ⟨⟨σ, hle', h₂⟩, hw₂⟩ := h₁.runAll stepLimit ho hp hmain hw hu
    obtain ⟨notes, hm, hworld, hres⟩ := runText_of_built hb
    obtain ⟨notes', hm', hworld', hres'⟩ := runText_of_built (s := s') (hstrict ▸ hb)
    rw [hres, hres', hworld, hworld', hm, hm']
    refine ⟨s.machine.tasks.size, σ, Correspondence.le_trans hle hle', h₂.withNotes _ _, ?_, hw₂⟩
    exact optionRel_imp (fun _ _ ho => ho.imp (fun _ => Failure.Blamed.placed) fun _ _ => id)
      (h₂.result? (hle'.2.2 _ _ hmain))

end Session

end Concatenative
