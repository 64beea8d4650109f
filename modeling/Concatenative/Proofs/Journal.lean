import Concatenative.Proofs.Blame
import Concatenative.Proofs.Settling

/-! What happens in a machine, told in order. Every answer that a task is given and every turn that
it takes by itself is an `Entry` of a journal, and so is what is done to the machine from outside.
Which invocation or which loading of a module a task is at is not said by the machine; it is read off
the journal (`phases`). Main statements: whatever moves a machine makes has a journal (`recounts_runs`),
and so has whatever a session does (`Session.unfolds_runJob`). -/
namespace Concatenative

/-- A turn that a thread takes by itself. -/
inductive Turn where
  | performs (job : Job)
  | becomes (job : Job)
  | returns (o : Outcome)

inductive Thread.Takes : Thread → Turn → Thread → Prop
  | becomes {job : Job} {ks : List (Outcome → Act (Except Failure Next))} :
      Takes ⟨.done (.ok (.become job)), ks⟩ (.becomes job) ⟨job.act, ks⟩
  | performs {job : Job} {k : Outcome → Act (Except Failure Next)}
      {ks : List (Outcome → Act (Except Failure Next))} :
      Takes ⟨.ask (.perform job) k, ks⟩ (.performs job) ⟨job.act, k :: ks⟩
  | returns {v : Value} {k : Outcome → Act (Except Failure Next)}
      {ks : List (Outcome → Act (Except Failure Next))} :
      Takes ⟨.done (.ok (.value v)), k :: ks⟩ (.returns (.ok v)) ⟨k (.ok v), ks⟩
  | fails {e : Failure} {k : Outcome → Act (Except Failure Next)}
      {ks : List (Outcome → Act (Except Failure Next))} :
      Takes ⟨.done (.error e), k :: ks⟩ (.returns (.error e)) ⟨k (.error e), ks⟩

theorem Thread.Turns.takes {θ θ' : Thread} (h : θ.Turns θ') : ∃ turn, θ.Takes turn θ' := by
  cases h with
  | becomes => exact ⟨_, .becomes⟩
  | performs => exact ⟨_, .performs⟩
  | returns => exact ⟨_, .returns⟩
  | fails => exact ⟨_, .fails⟩

theorem Thread.Takes.turns {θ θ' : Thread} {turn : Turn} (h : θ.Takes turn θ') : θ.Turns θ' := by
  cases h with
  | becomes => exact .becomes
  | performs => exact .performs
  | returns => exact .returns
  | fails => exact .fails

inductive Entry where
  /-- A job was started from outside. -/
  | started (t : TaskId) (job : Job)
  /-- A frame was made from outside for the body of a text. -/
  | opened (frame : FrameId) (body : Body)
  /-- A name was declared in the root from outside. -/
  | declared (name : String) (v : Value)
  | turned (t : TaskId) (turn : Turn)
  | answered (t : TaskId) (q : Request) (a : q.Answer)

/-- The task that an entry is about, unless it is about what was done from outside. -/
def Entry.task? : Entry → Option TaskId
  | turned t _ | answered t _ _ => some t
  | started _ _ | opened _ _ | declared _ _ => none

/-- What an added word made of its input. -/
def Entry.word? : Entry → Option Asked
  | answered _ (.world (.word name x)) o => some ⟨.word name x, o⟩
  | _ => none

/-- Entries, last first. -/
abbrev Journal := List Entry

/-- What added words made of their input. -/
def Journal.words (J : Journal) : List Asked := J.filterMap Entry.word?

/-! ## What a task is at -/

/-- How far a job has come: it has asked for no frame and loads nothing, it runs the code of an
invocation, or it is to load a module and has got to the file, to its text and to its body. -/
inductive Phase where
  | outside
  | inside (frame : FrameId)
  | granted (path : Path)
  | unread (path : Path)
  | holding (path : Path) (text : String)
  | building (path : Path) (text : String) (strict : Option Bool)

namespace Phase

/-- The module that is being loaded. -/
def loads? : Phase → Option Path
  | outside | inside _ => none
  | granted p | unread p | holding p _ | building p _ _ => some p

/-- The text that was read is being built. -/
def builds : Phase → Bool
  | building _ _ _ => true
  | _ => false

/-- The module is being loaded, and its file was asked for. -/
def asked : Phase → Bool
  | unread _ | holding _ _ | building _ _ _ => true
  | _ => false

/-- Where an answer leads to. -/
def next (φ : Phase) : (q : Request) → q.Answer → Phase
  | .enter _ _, f => inside f
  | .claim p, none => granted p
  | .claim _, some _ => φ
  | .world (.content p), .ok text => holding p text
  | .world (.content p), .error _ => unread p
  | .countParse, _ =>
    match φ with
    | holding p text => building p text none
    | _ => φ
  | .settings, s =>
    match φ with
    | building p text _ => building p text (some s.strict)
    | _ => φ
  | .publish _ _, _ | .giveUp _, _ => outside
  | _, _ => φ

end Phase

/-- A job that is performed comes before the one that performs it. -/
def Turn.phases (turn : Turn) (φs : List Phase) : List Phase :=
  match turn with
  | performs _ => .outside :: φs
  | becomes _ => .outside :: φs.tail
  | returns _ => φs.tail

namespace Journal

/-- How far the jobs of a task have come, the innermost first. -/
def phases : Journal → TaskId → List Phase
  | [], _ => [.outside]
  | .turned u turn :: J, t => if u = t then turn.phases (phases J t) else phases J t
  | .answered u q a :: J, t =>
    if u = t then (phases J t).modifyHead (·.next q a) else phases J t
  | .started _ _ :: J, t | .opened _ _ :: J, t | .declared _ _ :: J, t => phases J t

/-- How far the innermost job of a task has come. -/
def phase (J : Journal) (t : TaskId) : Phase := (phases J t).headD .outside

variable {J : Journal} {t u : TaskId}

theorem phases_turned (turn : Turn) : phases (.turned t turn :: J) t = turn.phases (phases J t) := by
  simp [phases]

theorem phases_answered (q : Request) (a : q.Answer) :
    phases (.answered t q a :: J) t = (phases J t).modifyHead (·.next q a) := by
  simp [phases]

/-- What is told of one task says nothing of another. -/
theorem phases_cons_of_ne {e : Entry} (h : e.task? ≠ some u) : phases (e :: J) u = phases J u := by
  cases e with
  | turned t turn => exact if_neg fun he => h (congrArg some he)
  | answered t q a => exact if_neg fun he => h (congrArg some he)
  | started t job => rfl
  | opened f body => rfl
  | declared name v => rfl

end Journal

/-! ## What is told of frames -/

/-- The frames or their names may have changed. -/
def Entry.changesScope : Entry → Bool
  | .opened _ _ | .declared _ _ => true
  | .answered _ (.enter _ _) _ | .answered _ (.enterModule _ _) _ | .answered _ (.declare _ _ _) _
  | .answered _ (.rebind _ _ _) _ => true
  | _ => false

/-- What entries say of the frames. -/
inductive Scope.Told (s : Scope) : List Entry → Scope → Prop
  | same {es : List Entry} : (∀ e ∈ es, e.changesScope = false) → Told s es s
  | enter (t : TaskId) (parent : FrameId) (x : Option Value) :
      Told s [.answered t (.enter parent x) s.frames.size] (s.addChild parent (x.map .settled)).2
  | enterModule (t : TaskId) (f : FrameId) (path : Path) :
      Told s [.answered t (.enterModule f path) s.frames.size] (s.addModule (s.rootOf f) path).2
  | declare (t : TaskId) (f : FrameId) (name : String) (d : Deferred) :
      Told s [.answered t (.declare f name d) (s.declare f name d).1] (s.declare f name d).2
  | rebind (t : TaskId) (f : FrameId) (name : String) (d : Deferred) :
      Told s [.answered t (.rebind f name d) (s.rebind f name d).1] (s.rebind f name d).2
  | opened (body : Body) :
      Told s [.opened s.frames.size body] (s.addChild Session.root none).2
  | declared (name : String) (v : Value) :
      Told s [.declared name v] (s.declare Session.root name (.settled v)).2

theorem Scope.told_nil (s : Scope) : s.Told [] s := .same fun _ he => absurd he List.not_mem_nil

theorem Scope.told_of_not_changes {e : Entry} (s : Scope) (he : e.changesScope = false) :
    s.Told [e] s := .same fun _ he' => List.mem_singleton.1 he' ▸ he

theorem Scope.Told.answer_declare {s s' : Scope} {t : TaskId} {f : FrameId} {name : String}
    {d : Deferred} {a : Except Failure Unit} (h : s.Told [.answered t (.declare f name d) a] s') :
    a = (s.declare f name d).1 := by
  cases h with
  | same hsame => cases hsame _ (List.mem_singleton.2 rfl)
  | declare => rfl

/-! ## Moves -/

namespace Machine

/-- A move with what is told of it. -/
inductive Tells (m : Machine) : List Entry → Machine → Prop
  | turns {t : TaskId} {θ θ' : Thread} {turn : Turn} : m.running = some (t, θ) →
      θ.Takes turn θ' → Tells m [.turned t turn] ({ m with running := none }.run t θ')
  | serves {t : TaskId} {q : Request} {k : q.Answer → Act (Except Failure Next)}
      {ks : List (Outcome → Act (Except Failure Next))} {log : List Asked} {a : q.Answer}
      {m' : Machine} : m.running = some (t, ⟨.ask q k, ks⟩) →
      { m with running := none }.Serves t q log a m' →
      Tells m [.answered t q a] (m'.run t ⟨k a, ks⟩)
  /-- The running task waits, gives way or ends. -/
  | rests {t : TaskId} {θ : Thread} {log : List Asked} {m' : Machine} : m.running = some (t, θ) →
      { m with running := none }.Goes t θ log m' → m'.running = none → Tells m [] m'
  | takes {t : TaskId} {front back : List TaskId} {ready : Queue TaskId} : m.running = none →
      m.ready.toList = front ++ t :: back → ready.toList = front ++ back →
      Tells m [] ({ m with ready }.resume t)
  | reads {r : Reading} {front back : List Reading} (a : Except ReadFault String) :
      m.running = none → m.reading = front ++ r :: back →
      Tells m [.answered r.task (.world (.content r.path)) a]
        ({ m with reading := front ++ back }.run r.task (r.resume a))

variable {m m' m'' : Machine} {t : TaskId} {log : List Asked} {es : List Entry} {J J' : Journal}

theorem Serves.words {q : Request} {a : q.Answer} (hs : m.Serves t q log a m') :
    Journal.words [.answered t q a] ⊆ log := by
  cases hs with
  | word name input a => exact List.Subset.refl _
  | _ => exact List.nil_subset _

theorem Goes.tells {θ : Thread} (hr : m.running = some (t, θ))
    (hg : { m with running := none }.Goes t θ log m') :
    ∃ es, m.Tells es m' ∧ Journal.words es ⊆ log := by
  have hg₀ := hg
  have hnone : Journal.words [] ⊆ log := List.nil_subset _
  cases hg with
  | turns ht =>
    obtain ⟨turn, ht⟩ := ht.takes
    exact ⟨_, .turns hr ht, List.nil_subset _⟩
  | served hs => exact ⟨_, .serves hr hs, hs.words⟩
  | awaits hread =>
    obtain ⟨tasks, ready, rfl⟩ := readCell_eq hread
    exact ⟨[], .rests hr hg₀ rfl, hnone⟩
  | claims _ => exact ⟨[], .rests hr hg₀ rfl, hnone⟩
  | givesWay => exact ⟨[], .rests hr hg₀ rfl, hnone⟩
  | reads => exact ⟨[], .rests hr hg₀ rfl, hnone⟩
  | @ends _ o _ =>
    obtain ⟨tasks, ready, he⟩ := finish_eq { m with running := none } t o
    exact ⟨[], .rests hr hg₀ (he ▸ rfl), hnone⟩

theorem Change.tells (hc : m.Change log m') : ∃ es, m.Tells es m' ∧ Journal.words es ⊆ log := by
  cases hc with
  | goes hr hg => exact hg.tells hr
  | take hr hf hb => exact ⟨_, .takes hr hf hb, List.nil_subset _⟩
  | read a hr hm => exact ⟨_, .reads a hr hm, List.nil_subset _⟩

theorem Tells.change (h : m.Tells es m') : ∃ log, m.Change log m' := by
  cases h with
  | turns hr ht => exact ⟨_, .goes hr (.turns ht.turns)⟩
  | serves hr hs => exact ⟨_, .goes hr (.served hs)⟩
  | rests hr hg _ => exact ⟨_, .goes hr hg⟩
  | takes hr hf hb => exact ⟨_, .take hr hf hb⟩
  | reads a hr hm => exact ⟨_, .read a hr hm⟩

/-- Moves one after the other, with all that is told of them. -/
inductive Recounts (m : Machine) : Journal → Machine → Prop
  | refl : Recounts m [] m
  | snoc {J : Journal} {es : List Entry} {m₁ m₂ : Machine} : Recounts m J m₁ → m₁.Tells es m₂ →
      Recounts m (es ++ J) m₂

theorem Recounts.trans (h : m.Recounts J m') (h' : m'.Recounts J' m'') :
    m.Recounts (J' ++ J) m'' := by
  induction h' with
  | refl => exact h
  | snoc _ ht ih =>
    rw [List.append_assoc]
    exact .snoc ih ht

/-- Whatever moves a machine makes has a journal. -/
theorem recounts_runs (h : Runs m log m') : ∃ J : Journal, m.Recounts J m' ∧ J.words ⊆ log := by
  induction h with
  | refl m => exact ⟨[], .refl, List.nil_subset _⟩
  | head hm _ ih =>
    obtain ⟨es, ht, hwords⟩ := hm.change.tells
    obtain ⟨J, hJ, hwords'⟩ := ih
    refine ⟨_, Recounts.trans (.snoc .refl ht) hJ, ?_⟩
    rw [Journal.words, List.filterMap_append]
    refine List.append_subset.2 ⟨List.subset_append_of_subset_right _ hwords', ?_⟩
    rw [List.append_nil]
    exact List.subset_append_of_subset_left _ hwords

/-! ## Machines of sessions -/

/-- What is done to a machine from outside, with what is told of it: a job is started, a frame is made
for a text, a name is declared in the root, notes are made or forgotten. -/
inductive Hosts (m : Machine) : List Entry → Machine → Prop
  | starts (job : Job) : Hosts m [.started m.tasks.size job] (m.addTask none job).2
  | opens (body : Body) :
      Hosts m [.opened m.scope.frames.size body]
        { m with
          scope := (m.scope.addChild Session.root none).2
          stamps := m.stamps + 1 }
  | declares (name : String) (v : Value) :
      Hosts m [.declared name v]
        { m with scope := (m.scope.declare Session.root name (.settled v)).2 }
  | notes (notes : List Note) : Hosts m [] { m with notes }

/-- All that has happened in a machine since its session began. -/
inductive Unfolds : Journal → Machine → Prop
  | start (settings : LibrarySettings) (world : World) :
      Unfolds [] (Session.start settings world).machine
  | hosts {J : Journal} {es : List Entry} {m m' : Machine} : Unfolds J m → m.Hosts es m' →
      Unfolds (es ++ J) m'
  | tells {J : Journal} {es : List Entry} {m m' : Machine} : Unfolds J m → m.Tells es m' →
      Unfolds (es ++ J) m'

/-- A move tells one thing at most. -/
theorem Tells.one (h : m.Tells es m') : es = [] ∨ ∃ e, es = [e] := by
  cases h <;> simp

theorem Hosts.one (h : m.Hosts es m') : es = [] ∨ ∃ e, es = [e] := by
  cases h <;> simp

/-- An entry is what was told last or was told before. -/
theorem split_of_one {e : Entry} {J₁ : Journal} (hes : es = [] ∨ ∃ e, es = [e])
    (h : J' ++ e :: J = es ++ J₁) : (es = [e] ∧ J₁ = J) ∨ ∃ J'', J'' ++ e :: J = J₁ := by
  rcases hes with rfl | ⟨e', rfl⟩
  · exact .inr ⟨J', h⟩
  · cases J' with
    | nil =>
      obtain ⟨rfl, rfl⟩ := List.cons.inj h
      exact .inl ⟨rfl, rfl⟩
    | cons _ J' => exact .inr ⟨J', (List.cons.inj h).2⟩

/-- Whatever was told of a task was told in a machine of which what was told before is all. -/
theorem Unfolds.told {e : Entry} (h : Unfolds (J' ++ e :: J) m) (he : e.task? ≠ none) :
    ∃ m₁ m₂, Unfolds J m₁ ∧ m₁.Tells [e] m₂ := by
  generalize hall : J' ++ e :: J = all at h
  induction h generalizing J' with
  | start settings world => simp at hall
  | hosts _ hh ih =>
    rcases split_of_one hh.one hall with ⟨rfl, _⟩ | ⟨J'', hJ⟩
    · cases hh <;> exact absurd rfl he
    · exact ih hJ
  | tells hprev ht ih =>
    rcases split_of_one ht.one hall with ⟨rfl, rfl⟩ | ⟨J'', hJ⟩
    · exact ⟨_, _, hprev, ht⟩
    · exact ih hJ

theorem Unfolds.answered {q : Request} {a : q.Answer} (h : Unfolds (J' ++ .answered t q a :: J) m) :
    ∃ m₁ m₂, Unfolds J m₁ ∧ m₁.Tells [.answered t q a] m₂ := h.told nofun

/-! ## What becomes of the frames -/

theorem Serves.scope {q : Request} {a : q.Answer} (hs : m.Serves t q log a m') :
    m.scope.Told [.answered t q a] m'.scope := by
  cases hs with
  | enter parent x => exact .enter t parent x
  | enterModule f path => exact .enterModule t f path
  | declare f name d => exact .declare t f name d
  | rebind f name d => exact .rebind t f name d
  | await hr =>
    obtain ⟨tasks, ready, rfl⟩ := readCell_eq hr
    exact m.scope.told_of_not_changes rfl
  | giveUp path =>
    obtain ⟨ready, hw⟩ :=
      wake_eq { m with library := (m.library.giveUp path).1 } (m.library.giveUp path).2
    rw [hw]
    exact m.scope.told_of_not_changes rfl
  | _ => exact m.scope.told_of_not_changes rfl

theorem Goes.scope_of_rests {θ : Thread} (hg : m.Goes t θ log m') (hm' : m'.running = none) :
    m'.scope = m.scope := by
  cases hg with
  | turns _ => cases hm'
  | served _ => cases hm'
  | awaits hr =>
    obtain ⟨tasks, ready, rfl⟩ := readCell_eq hr
    rfl
  | claims _ => rfl
  | givesWay => rfl
  | reads => rfl
  | @ends _ o _ =>
    obtain ⟨tasks, ready, he⟩ := finish_eq m t o
    rw [he]

/-- What is told of a move says what became of the frames. -/
theorem Tells.scope (h : m.Tells es m') : m.scope.Told es m'.scope := by
  cases h with
  | turns _ _ => exact m.scope.told_of_not_changes rfl
  | serves _ hs => exact hs.scope
  | rests _ hg hm' =>
    rw [hg.scope_of_rests hm']
    exact m.scope.told_nil
  | @takes t _ _ ready _ _ _ =>
    obtain ⟨tasks, running, he, _⟩ := resume_eq { m with ready } t
    rw [he]
    exact m.scope.told_nil
  | reads a _ _ => exact m.scope.told_of_not_changes rfl

theorem Hosts.scope (h : m.Hosts es m') : m.scope.Told es m'.scope := by
  cases h with
  | starts job => exact m.scope.told_of_not_changes rfl
  | opens body => exact .opened body
  | declares name v => exact .declared name v
  | notes notes => exact m.scope.told_nil

/-! ## Order -/

theorem Hosts.orderly (h : m.Hosts es m') (ho : m.Orderly) (hp : m.Placed) :
    m'.Orderly ∧ m'.Placed := by
  cases h with
  | starts job => exact ⟨ho.starts none job, hp.addTask none job⟩
  | opens body => exact ⟨ho.congr rfl rfl rfl, hp.distinct, hp.once⟩
  | declares name v => exact ⟨ho.congr rfl rfl rfl, hp.distinct, hp.once⟩
  | notes notes => exact ⟨ho.congr rfl rfl rfl, hp.distinct, hp.once⟩

theorem Tells.orderly (h : m.Tells es m') (ho : m.Orderly) (hp : m.Placed) :
    m'.Orderly ∧ m'.Placed := by
  obtain ⟨log, hc⟩ := h.change
  exact ⟨ho.change hc, hp.change ho hc⟩

theorem Unfolds.orderly (h : Unfolds J m) : m.Orderly ∧ m.Placed := by
  induction h with
  | start settings world => exact ⟨orderly_new rfl rfl rfl, placed_new rfl rfl rfl rfl rfl⟩
  | hosts _ hh ih => exact hh.orderly ih.1 ih.2
  | tells _ ht ih => exact ht.orderly ih.1 ih.2

theorem Unfolds.recounts (h : Unfolds J m) (hr : m.Recounts J' m') : Unfolds (J' ++ J) m' := by
  induction hr with
  | refl => exact h
  | snoc _ ht ih =>
    rw [List.append_assoc]
    exact .tells ih ht

end Machine

/-- Nothing was declared in the root from outside. -/
def Journal.IsRun (J : Journal) : Prop := ∀ name v, Entry.declared name v ∉ J

namespace Journal

variable {J J' : Journal}

theorem isRun_nil : IsRun [] := fun _ _ => List.not_mem_nil

theorem IsRun.append (h : J.IsRun) (h' : J'.IsRun) : IsRun (J' ++ J) := by
  intro name v hmem
  exact (List.mem_append.1 hmem).elim (h' name v) (h name v)

end Journal

theorem Machine.Tells.isRun {m m' : Machine} {es : List Entry} (h : m.Tells es m') :
    Journal.IsRun es := by
  cases h <;> simp [Journal.IsRun]

theorem Machine.Recounts.isRun {m m' : Machine} {J : Journal} (h : m.Recounts J m') : J.IsRun := by
  induction h with
  | refl => exact Journal.isRun_nil
  | snoc _ ht ih => exact ih.append ht.isRun

namespace Session

open Machine

variable {s : Session} {J : Journal}

theorem unfolds_runJob (h : Unfolds J s.machine) (job : Job) :
    ∃ J' : Journal, J'.IsRun ∧ Unfolds (J' ++ J) (s.runJob job).2.machine := by
  obtain ⟨log, hr, _⟩ := s.runs_runJob job
  obtain ⟨J', hJ, _⟩ := recounts_runs hr
  have hstart := Unfolds.hosts h (.starts job)
  have hrun : Journal.IsRun [.started s.machine.tasks.size job] := by simp [Journal.IsRun]
  exact ⟨J' ++ _, hrun.append hJ.isRun, by simpa using hstart.recounts hJ⟩

theorem unfolds_note (h : Unfolds J s.machine) (notes : List Note) :
    Unfolds J (s.note notes).machine := .hosts h (.notes _)

theorem unfolds_runProgram (h : Unfolds J s.machine) (name : String) (program : Value) :
    ∃ J' : Journal, J'.IsRun ∧ Unfolds (J' ++ J) (s.runProgram name program).2.machine := by
  obtain ⟨J', hrun, hJ⟩ := unfolds_runJob (unfolds_note h [⟨.info, "Running " ++ name ++ "."⟩])
    (.force program none)
  refine ⟨J', hrun, ?_⟩
  unfold runProgram
  dsimp only
  split
  · next he =>
    rw [he] at hJ
    exact unfolds_note hJ _
  · next he =>
    rw [he] at hJ
    exact hJ

/-- Whatever a session makes of a text has a journal. -/
theorem unfolds_runText (h : Unfolds J s.machine) (path text : String) :
    ∃ J' : Journal, J'.IsRun ∧ Unfolds (J' ++ J) (s.runText path text).2.machine := by
  have hn := unfolds_note h (build s.machine.library.settings.strict path text).notes
  unfold runText
  dsimp only
  split
  · next body hb =>
    obtain ⟨J', hrun, hJ⟩ := unfolds_runProgram (s := (Session.closure _ body).2)
      (.hosts hn (.opens body)) path (Session.closure _ body).1
    have hopened : ∀ f, Journal.IsRun [.opened f body] := by simp [Journal.IsRun]
    exact ⟨J' ++ _, (hopened _).append hrun, by simpa using hJ⟩
  · exact ⟨[], Journal.isRun_nil, hn⟩

theorem unfolds_openModule (h : Unfolds J s.machine) (path : Path) :
    ∃ J' : Journal, J'.IsRun ∧ Unfolds (J' ++ J) (s.openModule path).2.machine := unfolds_runJob h _

theorem unfolds_load (h : Unfolds J s.machine) (path : Path) :
    ∃ J' : Journal, J'.IsRun ∧ Unfolds (J' ++ J) (s.load path).2.machine := by
  obtain ⟨J', hrun, hJ⟩ := unfolds_openModule h path
  refine ⟨J', hrun, ?_⟩
  unfold load
  split <;> next hload => rw [hload] at hJ; exact hJ

/-- Notes are made of the search for a file. -/
theorem resolve_eq (s : Session) (reference : String) (directory : Option Path) :
    ∃ notes, (s.resolve reference directory).2 = s.note notes := by
  unfold resolve
  dsimp only
  split
  · exact ⟨_, rfl⟩
  · exact ⟨_, rfl⟩

/-- Whatever a session makes of a file has a journal. -/
theorem unfolds_runFile (h : Unfolds J s.machine) (file : String) :
    ∃ J' : Journal, J'.IsRun ∧ Unfolds (J' ++ J) (s.runFile file).2.machine := by
  have hres : Unfolds J (s.resolve file none).2.machine := by
    obtain ⟨notes, he⟩ := s.resolve_eq file none
    rw [he]
    exact unfolds_note h notes
  unfold runFile
  split
  · next he =>
    rw [he] at hres
    exact ⟨[], Journal.isRun_nil, hres⟩
  · next path s' he =>
    rw [he] at hres
    obtain ⟨J', hrun, hJ⟩ := unfolds_openModule hres path
    split
    · next program s'' hopen =>
      rw [hopen] at hJ
      obtain ⟨J'', hrun', hJ'⟩ := unfolds_runProgram hJ path.text program
      exact ⟨J'' ++ J', hrun.append hrun', by simpa using hJ'⟩
    · exact ⟨J', hrun, hJ⟩

end Session

end Concatenative
