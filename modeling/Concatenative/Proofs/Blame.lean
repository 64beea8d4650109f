import Concatenative.Proofs.Conduct
import Concatenative.Proofs.Persistence
import Concatenative.Proofs.Places
import Concatenative.Session

/-! Where failures are blamed. A program fails with a place that is a spot of its own text, of a module
that it loads or of the text that some older code was built from that it gets hold of: what a session
holds between two programs are values, and these may be closures. Main statements: in any order of
the tasks, every failure of a text that is run blames such a place, and a place once blamed is blamed
for good, whatever it passes (`failure_located`). -/
namespace Concatenative

open Eval Evaluation

/-- Code that may do anything and stands at `places`. -/
def Terms.within (places : Location → Prop) : Terms where
  places
  binds := True
  loads := True
  foreign := True

theorem Terms.within_permits (places : Location → Prop) (q : Primitive) :
    (Terms.within places).permits q := by
  cases q <;> trivial

/-! ## Sessions -/

/-- What an added word may answer: a failure that blames nothing, or a value that is made of the input
and of what is known. -/
def Terms.AdmitsWord (p : Terms) (K : Known) (x : Option Value) : Outcome → Prop
  | .error e => e.location = none
  | .ok v => ∀ L : Known, (∀ f, K.frames f → L.frames f) → (∀ t, K.tasks t → L.tasks t) →
    InputAlike p L.itself x x → v.Alike p L.itself v

/-- Modules whose spots are places and added words may answer code that may do anything, at any time
after `K` was all that was known. -/
theorem Terms.admitsAnswer_within {places : Location → Prop} {K L : Known} {log : List Asked}
    (hload : ∀ (p : Path) content, ⟨.content p, .ok content⟩ ∈ log →
      ∀ l, Spot p.text content l → places l)
    (hwords : ∀ name x a, ⟨.word name x, a⟩ ∈ log → (Terms.within places).AdmitsWord K x a)
    (hframes : ∀ f, K.frames f → L.frames f) (htasks : ∀ t, K.tasks t → L.tasks t) :
    ∀ x ∈ log, (Terms.within places).AdmitsAnswer L x := by
  rintro ⟨q, a⟩ hx
  cases q with
  | content p =>
    rintro content rfl
    exact Terms.admits_of_spots (hload p content hx) (Terms.within_permits places)
  | word name x =>
    have hword := hwords name x a hx
    intro L' hle hinput
    cases a with
    | error e =>
      refine .error fun l hl => ?_
      cases (hword : e.location = none).symm.trans hl
    | ok v =>
      exact .ok (hword L' (fun f hf => hle.1 f (hframes f hf)) (fun t ht => hle.2.1 t (htasks t ht))
        hinput)
  | _ => trivial

namespace Session

/-- Between two programs: all code that can be reached from the root frame, from the modules that are
kept and from tasks that have ended stands at `places`. -/
structure Holds (places : Location → Prop) (K : Known) (s : Session) : Prop where
  machine : s.machine.Holds (.within places) K
  root : K.frames root

/-- A text is run in any order of its tasks: what is asked meanwhile, the machine it leads to and what
it comes to. -/
inductive Gives (s : Session) (path text : String) : List Asked → Machine → Outcome → Prop
  | refused {e : Failure} (notes : List Note) :
      (build s.machine.library.settings.strict path text).result = .error e →
      Gives s path text [] { s.machine with notes } (.error e)
  | runs {body : Body} {log : List Asked} {last : Machine} {o : Outcome} (notes : List Note) :
      (build s.machine.library.settings.strict path text).result = .ok body →
      Machine.Runs ({ (s.closure body).2.machine with notes }.addTask none
        (.force (s.closure body).1 none)).2 log last →
      last.result? s.machine.tasks.size = some o → Gives s path text log last o

variable {s : Session} {places : Location → Prop} {K : Known} {path text : String} {log : List Asked}
  {last : Machine} {o : Outcome}

/-- The order in which a session runs a job is one of the orders. -/
theorem runs_runJob (s : Session) (job : Job) :
    ∃ log, Machine.Runs (s.machine.addTask none job).2 log (s.runJob job).2.machine ∧
      s.world.Answers log (s.runJob job).2.world ∧
      (s.runJob job).1 = (s.runJob job).2.machine.result? s.machine.tasks.size := by
  unfold runJob
  generalize stepLimit = limit
  obtain ⟨log, hr, hw⟩ := Machine.runs_runAll limit (s.machine.addTask none job).2 s.world
  exact ⟨log, hr, hw, rfl⟩

/-- Notes aside, running a program is running its job. -/
theorem runProgram_eq (s : Session) (name : String) (program : Value) :
    (s.runProgram name program).1 =
        ((s.note [⟨.info, "Running " ++ name ++ "."⟩]).runJob (.force program none)).1 ∧
      (s.runProgram name program).2.world =
        ((s.note [⟨.info, "Running " ++ name ++ "."⟩]).runJob (.force program none)).2.world := by
  unfold runProgram
  dsimp only
  split
  · next h => rw [h]; exact ⟨rfl, rfl⟩
  · next h => rw [h]; exact ⟨rfl, rfl⟩

/-- A program of a session begins in a frame of its own. -/
theorem Holds.begins (h : s.Holds places K) (body : Body) (notes : List Note) :
    Machine.Holds (.within places) (K.withFrame s.machine.scope.frames.size)
      { (s.closure body).2.machine with notes } := by
  have hm := h.machine
  have hle := K.le_withFrame s.machine.scope.frames.size
  refine ⟨hm.orderly.congr rfl rfl rfl, hm.ended, ?_, hm.library, hm.tasks, fun u r o hu hr hk => ?_⟩
  · exact hm.scope.add h.root rfl rfl fun d hd => by cases hd
  · exact (hm.results u r o hu hr hk).mono (Known.itself_mono hle)

/-- What a text comes to blames a place if it is a failure, and the session goes on to hold only code
that stands at places. -/
theorem Holds.gives (h : s.Holds places K) (hg : s.Gives path text log last o)
    (htext : ∀ l, Spot path text l → places l)
    (hload : ∀ (p : Path) content, ⟨.content p, .ok content⟩ ∈ log →
      ∀ l, Spot p.text content l → places l)
    (hwords : ∀ name x a, ⟨.word name x, a⟩ ∈ log → (Terms.within places).AdmitsWord K x a) :
    (∀ e, o = .error e → e.Blamed (.within places)) ∧
      (last.Ended → ∃ L : Known, last.Holds (.within places) L ∧ L.frames Session.root) := by
  have hfits := build_fits (p := .within places) s.machine.library.settings.strict htext
    (Terms.within_permits places)
  cases hg with
  | refused notes hb =>
    refine ⟨fun e he => ?_, fun _ => ⟨K, ?_, h.root⟩⟩
    · cases he
      exact hfits.2 _ hb
    · have hm := h.machine
      exact ⟨hm.orderly.congr rfl rfl rfl, hm.ended, hm.scope, hm.library, hm.tasks, hm.results⟩
  | @runs body _ _ _ notes hb hr hres =>
    have hbegin := h.begins body notes
    have hjob : (Job.force (s.closure body).1 none).Alike (.within places)
        (K.withFrame s.machine.scope.frames.size).itself (.force (s.closure body).1 none) :=
      .force (.callable (.closure rfl (hfits.1 _ hb) ⟨rfl, .inr rfl⟩)) .none
    have horderly := hbegin.orderly.addTask (hbegin.ended.running hbegin.orderly) none
      (.force (s.closure body).1 none)
    obtain ⟨L, hle, hkeeps⟩ := (hbegin.addTask hjob rfl).runs hr horderly
      (Terms.admitsAnswer_within hload hwords (fun _ => .inl) fun _ => id)
    refine ⟨fun e he => ?_, fun hend => ⟨L, hkeeps.holds (horderly.runs hr) hend, ?_⟩⟩
    · rw [Machine.result?_eq] at hres
      obtain ⟨r, hr, hro⟩ := Option.bind_eq_some_iff.1 hres
      have hsettles := hkeeps.results _ r o hr hro (.inr hle.2.2.symm)
      rw [he] at hsettles
      cases hsettles with
      | error hblamed => exact hblamed
    · exact hle.1 _ (.inl h.root)

end Session

/-- What added words do does not change. -/
theorem World.answer_words (w : World) (q : Query) : (w.answer q).2.words = w.words := by
  cases q with
  | write text =>
    simp only [World.answer, World.write]
    split <;> rfl
  | _ => rfl

theorem World.Answers.words {w w' : World} {log : List Asked} (h : w.Answers log w') :
    w'.words = w.words := by
  induction h with
  | nil => rfl
  | cons _ ih => rw [ih, World.answer_words]

theorem World.Answers.word {w w' : World} {log : List Asked} (h : w.Answers log w') {name : String}
    {x : Option Value} {a : Outcome} (ha : ⟨.word name x, a⟩ ∈ log) : a = w.words name x := by
  induction h with
  | nil => cases ha
  | cons _ ih =>
    rcases List.mem_cons.1 ha with he | ha
    · cases he
      rfl
    · rw [ih ha, World.answer_words]

/-- The root frame, and no tasks. -/
def Known.root : Known where
  frames f := f = Session.root
  tasks _ := False
  main := 0

theorem Session.holds_start (settings : LibrarySettings) (world : World)
    (places : Location → Prop) : (Session.start settings world).Holds places .root := by
  have hwords : ∀ (ws : List Word) (scope : Scope), scope.Keeps (.within places) .root →
      (ws.foldl (fun s w => (s.declare root w.name (.settled (.callable (.host w)))).2)
        scope).Keeps (.within places) .root := by
    intro ws
    induction ws with
    | nil => exact fun _ h => h
    | cons w ws ih =>
      intro scope h
      refine ih _ (h.declare root w.name (.settled (.callable (.host ?_)))).2
      cases w <;> trivial
  refine ⟨⟨Machine.orderly_new rfl rfl rfl, fun u hu => absurd hu (Nat.not_lt_zero u),
    hwords _ _ ?_, fun _ shelf hs => absurd hs List.not_mem_nil, fun _ h => h.elim,
    fun _ _ _ _ _ h => h.elim⟩, rfl⟩
  rintro _ rfl
  refine ⟨{ library := true }, rfl, fun b hb => ?_, fun d hd => ?_, fun g hg => ?_⟩
  · cases hb
  · cases hd
  · cases hg

theorem Terms.AdmitsWord.of_root {p : Terms} {K : Known} {x : Option Value} {a : Outcome}
    (h : p.AdmitsWord .root x a) (hK : K.frames Session.root) : p.AdmitsWord K x a := by
  cases a with
  | error e => exact h
  | ok v =>
    intro L hframes _
    refine h L (fun f hf => ?_) fun _ ht => ht.elim
    cases hf
    exact hframes _ hK

namespace Session

/-- Texts are run one after the other in a new session, each until all its tasks have ended: the texts
and what was asked, last first, and the session that they lead to. -/
inductive Reached (settings : LibrarySettings) (world : World) :
    List (String × String) → List Asked → Session → Prop
  | start : Reached settings world [] [] (.start settings world)
  | run {texts : List (String × String)} {log log' : List Asked} {s : Session} {path text : String}
      {last : Machine} {o : Outcome} {w : World} : Reached settings world texts log s →
      s.Gives path text log' last o → s.world.Answers log' w → last.Ended →
      Reached settings world ((path, text) :: texts) (log' ++ log) ⟨last, w⟩

variable {settings : LibrarySettings} {world : World} {texts : List (String × String)}
  {log log' : List Asked} {s : Session} {places : Location → Prop}

theorem Reached.words (h : Reached settings world texts log s) : s.world.words = world.words := by
  induction h with
  | start => rfl
  | run _ _ hw _ ih => exact hw.words.trans ih

/-- A session holds the code of the texts that it ran and of the modules that it read. -/
theorem Reached.holds (h : Reached settings world texts log s)
    (hwords : ∀ name x, (Terms.within places).AdmitsWord .root x (world.words name x))
    (htexts : ∀ x ∈ texts, ∀ l, Spot x.1 x.2 l → places l)
    (hload : ∀ (p : Path) content, ⟨.content p, .ok content⟩ ∈ log →
      ∀ l, Spot p.text content l → places l) : ∃ K, s.Holds places K := by
  induction h with
  | start => exact ⟨_, holds_start settings world places⟩
  | run hr hg hw hend ih =>
    obtain ⟨htext, htexts⟩ := List.forall_mem_cons.1 htexts
    obtain ⟨K, hK⟩ := ih htexts fun p content hp => hload p content (List.mem_append_right _ hp)
    obtain ⟨L, hL, hroot⟩ := (hK.gives hg htext
      (fun p content hp => hload p content (List.mem_append_left _ hp)) fun name x a ha => by
        rw [hw.word ha, hr.words]
        exact (hwords name x).of_root hK.root).2 hend
    exact ⟨L, hL, hroot⟩

/-- When texts are run one after the other, each failure blames a spot of the text that fails, of a
text that was run before or of a module that was read. -/
theorem Reached.failure_blamed {path text : String} {last : Machine} {e : Failure} {w : World}
    (h : Reached settings world texts log s)
    (hwords : ∀ places name x, (Terms.within places).AdmitsWord .root x (world.words name x))
    (hg : s.Gives path text log' last (.error e)) (hw : s.world.Answers log' w) :
    ∃ l, e.location = some l ∧ ((∃ x ∈ (path, text) :: texts, Spot x.1 x.2 l) ∨
      ∃ (p : Path) (content : String), ⟨.content p, .ok content⟩ ∈ log' ++ log ∧
        Spot p.text content l) := by
  obtain ⟨K, hK⟩ := h.holds (hwords fun l => (∃ x ∈ (path, text) :: texts, Spot x.1 x.2 l) ∨
      ∃ (p : Path) (content : String), ⟨.content p, .ok content⟩ ∈ log' ++ log ∧
        Spot p.text content l)
    (fun x hx l hl => .inl ⟨x, List.mem_cons_of_mem _ hx, hl⟩)
    (fun p content hp l hl => .inr ⟨p, content, List.mem_append_right _ hp, hl⟩)
  refine (hK.gives hg (fun l hl => .inl ⟨_, List.mem_cons_self .., hl⟩)
    (fun p content hp l hl => .inr ⟨p, content, List.mem_append_left _ hp, hl⟩)
    fun name x a ha => ?_).1 e rfl
  rw [hw.word ha, h.words]
  exact (hwords _ name x).of_root hK.root

end Session

/-- The failure of a text that is run, if it fails. -/
def Session.failure? (s : Session) (path text : String) : Option Failure :=
  match (s.runText path text).1 with
  | some (.error e) => some e
  | _ => none

end Concatenative
