import Concatenative.Proofs.Isolation
import Concatenative.Proofs.Opening
import Concatenative.Proofs.Reach

/-! Sessions between two programs. A session that has run texts and files to their end holds frames and
results of tasks that later texts can come upon, and much that they can not. Main statement: all that can be come
upon is there, leads to nothing else and stands for itself (`Rested.matched`), so such a session can be
set side by side with others. -/
namespace Concatenative

open Session (root)

/-! ## Code of any kind -/

mutual

def Op.primitives : Op → List Primitive
  | .literal _ => []
  | .group ⟨code, _, _⟩ => codePrimitives code
  | .primitive q => [q]

/-- The primitives of code, at every depth. -/
def codePrimitives : List Instruction → List Primitive
  | [] => []
  | ⟨_, op⟩ :: rest => op.primitives ++ codePrimitives rest

end

/-- The instructions of a body and of all groups in it. A force that was taken off its end is none. -/
def Body.primitives (b : Body) : List Primitive := codePrimitives b.code

theorem Op.primitives_group (b : Body) : (Op.group b).primitives = b.primitives := by
  obtain ⟨code, tailForce, location⟩ := b
  rw [Op.primitives, Body.primitives]

theorem mem_codePrimitives {q : Primitive} {is : List Instruction} :
    q ∈ codePrimitives is ↔ ∃ i ∈ is, q ∈ i.op.primitives := by
  induction is with
  | nil => simp [codePrimitives]
  | cons i rest ih =>
    obtain ⟨l, op⟩ := i
    simp [codePrimitives, ih]

theorem Body.Part.primitives_subset {b c : Body} (h : b.Part c) : b.primitives ⊆ c.primitives := by
  induction h with
  | self => exact List.Subset.refl _
  | @nested l inner outer hmem _ ih =>
    intro q hq
    refine mem_codePrimitives.2 ⟨_, hmem, ?_⟩
    rw [Op.primitives_group]
    exact ih hq

section
variable {p : Terms} (hplaces : ∀ l, p.places l)
include hplaces

mutual

theorem Op.fits_of_primitives : ∀ op : Op, (∀ q ∈ op.primitives, p.permits q) → op.Fits p
  | .literal _, _ => trivial
  | .group ⟨code, _, _⟩, h => ⟨codeFits_of_primitives code h, fun l _ => hplaces l⟩
  | .primitive q, h => h q List.mem_cons_self

theorem codeFits_of_primitives : ∀ is : List Instruction, (∀ q ∈ codePrimitives is, p.permits q) →
    codeFits p is
  | [], _ => trivial
  | ⟨l, op⟩ :: rest, h =>
    ⟨hplaces l, Op.fits_of_primitives op (List.forall_mem_append.1 h).1,
      codeFits_of_primitives rest (List.forall_mem_append.1 h).2⟩

end

/-- Where all places are allowed, it depends on the primitives whether code fits. -/
theorem Body.fits_of_primitives {b : Body} (h : ∀ q ∈ b.primitives, p.permits q) : b.Fits p :=
  ⟨codeFits_of_primitives hplaces b.code h, fun l _ => hplaces l⟩

end

/-- Code of any kind, at any place. -/
def Terms.anything : Terms := .within fun _ => True

theorem Body.fits_anything (b : Body) : b.Fits .anything :=
  b.fits_of_primitives (fun _ => trivial) fun q _ => Terms.within_permits _ q

theorem Terms.anything_open : Terms.anything.Open := fun _ =>
  ⟨Body.fits_anything, fun _ _ _ => ⟨fun body _ => body.fits_anything, fun _ _ _ _ => trivial⟩⟩

/-- A value that names no frame, no task and no stamp. -/
def Value.Nameless (v : Value) : Prop := ∀ ρ, v.Alike .anything ρ v

/-! ## Sessions -/

/-- Sessions that have run texts and files, each to its end, and in whose root values were declared. The
notes and the files may be others each time, and what was written may be gone. -/
inductive Session.Rested (settings : LibrarySettings) (world : World) : Session → Prop
  | start : Rested settings world (.start settings world)
  | text {s : Session} (path text : String) : Rested settings world s →
      (s.runText path text).2.machine.Ended → Rested settings world (s.runText path text).2
  | file {s : Session} (file : String) : Rested settings world s →
      (s.runFile file).2.machine.Ended → Rested settings world (s.runFile file).2
  | value {s : Session} (name : String) {v : Value} : Rested settings world s → v.Nameless →
      Rested settings world (s.declare name v).2
  | meanwhile {s : Session} (notes : List Note) (w : World) : Rested settings world s →
      w.words = world.words → Rested settings world ⟨{ s.machine with notes }, w⟩

namespace World

variable {w w' : World} {p : Terms} {log : List Asked} {path text : String}

/-- What surroundings answer is admitted where what they do does not depend on names. -/
theorem Answers.admitted (h : w.Answers log w') (hu : w.Uniform p)
    (hp : ∀ path text, p.Admits path text) (K : Known) : ∀ x ∈ log, p.AdmitsAnswer K x := by
  rintro ⟨q, a⟩ hx
  cases q with
  | content path => exact fun text _ => hp path.text text
  | word name x =>
    intro L _ hin
    rw [h.word hx]
    exact hu L.itself name x x hin
  | _ => trivial

end World

namespace Machine

variable {m m' last : Machine} {K : Known} {σ : Correspondence} {w : World} {body : Body}

/-- A machine that has kept all that could be come upon leads to nothing else. -/
theorem Matched.carried (h : m.Matched .anything m.names m)
    (hframes : ∀ f, m.LeadsTo (.frame f) → m'.scope.frames[f]? = m.scope.frames[f]?)
    (htasks : ∀ t, m.LeadsTo (.task t) → m'.tasks[t]? = m.tasks[t]?) (hstamps : m.stamps ≤ m'.stamps)
    (hquiet : m'.library.Quiet) : m'.Matched .anything m'.names m' := by
  have hid := m.names_isIdentity
  have hscope : Scope.Twins .anything m.names m'.scope m'.scope := by
    rintro f _ ⟨rfl, hl⟩
    rw [hframes f hl]
    exact h.scope f f ⟨rfl, hl⟩
  have hres : ∀ t, m.names.tasks t t →
      Option.Rel (Outcome.Settles .anything m.names) (m'.result? t) (m'.result? t) := by
    rintro t ⟨_, hl⟩
    obtain ⟨task, task', ht, ht', _, hres⟩ := h.tasks t t ⟨rfl, hl⟩
    cases ht.symm.trans ht'
    rw [Machine.result?, htasks t hl, ht]
    exact hres
  have hc := closed_of_twins hid ⟨rfl, .root⟩ hscope hres
  have hn : Terms.anything.Narrows .anything m.names m'.names :=
    ⟨fun _ _ ha => ⟨ha.1, Nat.lt_of_lt_of_le ha.2 hstamps⟩, fun _ => id, id⟩
  refine hc.matched hid hn (fun _ _ _ _ c _ => c.1.fits_anything) (fun f hl => ?_) (fun t hl => ?_)
    (Nat.le_refl _) rfl hquiet
  · obtain ⟨frame, frame', hs, _, ht⟩ := hscope f f (hl.has hc hid)
    exact ⟨frame, hs, hs, ht.above⟩
  · have hold : m.LeadsTo (.task t) := (hl.has hc hid).2
    obtain ⟨task, _, ht, _, ⟨l, hl', ho, _⟩, _⟩ := h.tasks t t ⟨rfl, hold⟩
    exact ⟨task, task, (htasks t hold).trans ht, (htasks t hold).trans ht, ⟨l, hl', ho, ho⟩, rfl⟩

/-- A machine at rest whose names stand for themselves as far as some correspondence leads holds the
same as itself, as far as one can come upon it. -/
theorem matched_names (hK : m.Holds .anything K) (hroot : K.frames root) (hquiet : m.library.Quiet)
    (hid : σ.IsIdentity) (hmade : ∀ a a', σ.stamps a a' → a < m.stamps) (hσ : σ.frames root root)
    (hs : Scope.Twins .anything σ m.scope m.scope)
    (hres : ∀ t, σ.tasks t t →
      Option.Rel (Outcome.Settles .anything σ) (m.result? t) (m.result? t)) :
    m.Matched .anything m.names m := by
  have hc := closed_of_twins hid hσ hs hres
  have hn : Terms.anything.Narrows .anything σ m.names :=
    ⟨fun a a' ha => ⟨hid.stamps a a' ha, hmade a a' ha⟩, fun _ => id, id⟩
  refine hc.matched hid hn (fun _ _ _ _ c _ => c.1.fits_anything) (fun f hl => ?_) (fun t hl => ?_)
    (Nat.le_refl _) rfl hquiet
  · obtain ⟨frame, frame', hf, _, ht⟩ := hs f f (hl.has hc hid)
    exact ⟨frame, hf, hf, ht.above⟩
  · have hidK : K.itself.IsIdentity := ⟨fun _ _ h => h, fun _ _ h => h.1, fun _ _ h => h.1⟩
    obtain ⟨s, l, hs, ho, hp⟩ := hK.tasks t (hl.has (hK.closed hroot) hidK).2
    obtain ⟨task, htask, rfl⟩ := Option.map_eq_some_iff.1 hs
    exact ⟨task, task, htask, htask, ⟨l, hp, ho, ho⟩, rfl⟩

/-- A machine whose root is known and holds only what is known. All that can be come upon is there, leads
to nothing else and stands for itself. -/
structure Whole (m : Machine) : Prop where
  known : ∃ K, m.Holds .anything K ∧ K.frames root
  matched : m.Matched .anything m.names m

/-- A machine at rest that has come about from another one; the library and the notes may be others, and
tasks may have been added. -/
structure Continues (m m' : Machine) : Prop where
  rest : m'.AtRest
  ended : m'.Ended
  scope : m'.scope = m.scope
  tasks : ∀ t < m.tasks.size, m'.tasks[t]? = m.tasks[t]?
  stamps : m'.stamps = m.stamps

theorem Whole.continues (h : m.Whole) (hc : m.Continues m') : m'.Whole := by
  obtain ⟨K, hK, hroot⟩ := h.known
  refine ⟨⟨K, ⟨hc.rest.orderly, hc.ended, hc.scope ▸ hK.scope, fun _ _ _ b _ => b.fits_anything,
    fun u hu => ?_, fun u s o hu hso hk => ?_⟩, hroot⟩, h.matched.carried (fun f _ => by rw [hc.scope])
    (fun t hl => ?_) (Nat.le_of_eq hc.stamps.symm) hc.rest.library⟩
  · obtain ⟨s, l, hs, ho⟩ := hK.tasks u hu
    refine ⟨s, l, ?_, ho⟩
    rw [stand, hc.tasks u (stand_lt hs)]
    exact hs
  · obtain ⟨s', _, hs', _⟩ := hK.tasks u hk
    refine hK.results u s o ?_ hso hk
    rw [stand, hc.tasks u (stand_lt hs')] at hu
    exact hu
  · obtain ⟨task, _, ht, _⟩ := h.matched.tasks t t ⟨rfl, hl⟩
    exact hc.tasks t (Array.getElem?_eq_some_iff.1 ht).1

/-- A task was added that has ended; frames and stamps may have been made as well, and are left aside. -/
theorem Unfolds.continues_push {J : Journal} {o : Outcome} (hJ : Unfolds J m') (hend : m.Ended)
    (ht : m'.tasks = m.tasks.push ⟨none, none, { result := some o }⟩) :
    m.Continues { m' with scope := m.scope, stamps := m.stamps } := by
  have hended : m'.Ended := by
    intro u hu
    rw [ht, Array.size_push] at hu
    rw [result?, ht, Array.getElem?_push]
    split
    · rfl
    · exact hend u (by omega)
  have hrest := hJ.atRest hended
  refine ⟨⟨hrest.running, hrest.ready, hrest.reading, hrest.tasks, hrest.library⟩, hended, rfl,
    fun t hlt => ?_, rfl⟩
  exact (congrArg (·[t]?) ht).trans
    ((Array.getElem?_push_lt hlt).trans (Array.getElem?_eq_getElem hlt).symm)

/-- When a program has come to its end, what is known is held as before. -/
theorem Holds.ran {p : Terms} {modulePath : Option Path} {notes : List Note} {log : List Asked}
    (h : m.Holds p K) (hroot : K.frames root) (hbody : body.Fits p)
    (hr : Runs (m.launched modulePath notes body) log last)
    (hlog : ∀ L : Known, ∀ x ∈ log, p.AdmitsAnswer L x) (hend : last.Ended) :
    ∃ L, last.Holds p L ∧ L.frames root := by
  have hle := K.le_withFrame m.scope.frames.size
  have hbegin : Holds p (K.withFrame m.scope.frames.size) { m with
      scope := (m.scope.add { parent := some root, modulePath }).2
      stamps := m.stamps + 1
      notes } :=
    ⟨h.orderly.congr rfl rfl rfl, h.ended, h.scope.add hroot rfl rfl nofun, h.library, h.tasks,
      fun u s o hu hso hk => (h.results u s o hu hso hk).mono (Known.itself_mono hle)⟩
  have hjob : (Job.force (.callable (.closure m.stamps body m.scope.frames.size)) none).Alike p
      (K.withFrame m.scope.frames.size).itself
      (.force (.callable (.closure m.stamps body m.scope.frames.size)) none) :=
    .force (.callable (.closure rfl hbody ⟨rfl, .inr rfl⟩)) .none
  have horderly := orderly_launched h.orderly (h.ended.running h.orderly) modulePath notes body
  obtain ⟨L, hle', hkeeps⟩ := (hbegin.addTask hjob rfl).runs hr horderly (hlog _)
  exact ⟨L, hkeeps.holds (horderly.runs hr) hend, hle'.1 _ (.inl hroot)⟩

/-- When a program has come to its end, all that can be come upon stands for itself again. The machine
is set side by side with itself while the program runs. -/
theorem Whole.ran {modulePath : Option Path} {notes : List Note} (h : m.Whole) (hrest : m.AtRest)
    (hu : w.Uniform .anything) (limit : Nat)
    (hlast : ((m.launched modulePath notes body).runAll limit w).1 = last) (hend : last.Ended)
    (hquiet : last.library.Quiet) : last.Whole := by
  subst hlast
  obtain ⟨K, hK, hroot⟩ := h.known
  have hp : ∀ path text, Terms.anything.Admits path text := (Terms.anything_open trivial).2
  obtain ⟨log, hr, ha⟩ := runs_runAll limit (m.launched modulePath notes body) w
  obtain ⟨L, hL, hroot'⟩ := hK.ran hroot body.fits_anything hr (ha.admitted hu hp) hend
  obtain ⟨τ, hle, hmain, h₁⟩ := h.matched.launched hrest hrest ⟨rfl, .root⟩ modulePath notes notes
    body.fits_anything
  obtain ⟨⟨σ, hle', h₂⟩, _⟩ := h₁.runAll limit
    (orderly_launched hrest.orderly hrest.running modulePath notes body) Terms.anything_open hmain
    ⟨rfl, rfl, rfl, [], rfl, rfl⟩ hu
  have hid : σ.IsIdentity := (m.names_isIdentity.ahead rfl rfl rfl).anti h₂.paired.within
  refine ⟨⟨L, hL, hroot'⟩, matched_names hL hroot' hquiet hid (fun a a' ha' => ?_) ?_ h₂.scope
    fun t ht => h₂.result? ht⟩
  · exact (h₂.paired.made a a' ha').1
  · exact hle'.2.1 _ _ (hle.2.1 _ _ ⟨rfl, .root⟩)

end Machine

namespace Session

open Machine

variable {settings : LibrarySettings} {world : World} {s t : Session} {J : Journal}

/-! ## Programs of a session -/

/-- What a session comes to with a text or a file: there was nothing to be run, or a program was run in a
frame of its own. -/
inductive Ran (s : Session) : Session → Prop
  | stops {m : Machine} {w : World} : s.machine.Continues m → w.words = s.world.words → Ran s ⟨m, w⟩
  | runs {m : Machine} {w : World} (modulePath : Option Path) (notes notes' : List Note)
      (body : Body) : s.machine.Continues m → w.words = s.world.words →
      Ran s ⟨{ ((m.launched modulePath notes body).runAll stepLimit w).1 with notes := notes' },
        ((m.launched modulePath notes body).runAll stepLimit w).2⟩

theorem continues_notes (hrest : s.machine.AtRest) (hend : s.machine.Ended) (notes : List Note) :
    s.machine.Continues { s.machine with notes } :=
  ⟨⟨hrest.running, hrest.ready, hrest.reading, hrest.tasks, hrest.library⟩, hend, rfl,
    fun _ _ => rfl, rfl⟩

theorem ran_runText (hrest : s.machine.AtRest) (hend : s.machine.Ended) (path text : String) :
    s.Ran (s.runText path text).2 := by
  cases hb : (build s.machine.library.settings.strict path text).result with
  | error e =>
    unfold runText
    simp only [hb]
    exact .stops (continues_notes hrest hend _) rfl
  | ok body =>
    obtain ⟨notes, hm, hw, _⟩ := runText_of_built hb
    have hs : (s.runText path text).2 = ⟨(s.runText path text).2.machine, (s.runText path text).2.world⟩ :=
      rfl
    rw [hs, hm, hw]
    exact .runs none _ notes body (continues_notes hrest hend _) rfl

/-- A module is opened from outside when all has come to its end. -/
theorem opening_openModule (hrest : s.machine.AtRest) (path : Path) :
    s.machine.Opening path (s.openModule path).2.machine ∧
      (s.openModule path).1 = (s.openModule path).2.machine.result? s.machine.tasks.size ∧
      (s.openModule path).2.world.words = s.world.words := by
  obtain ⟨log, hr, ha, ho⟩ := s.runs_runJob (.openModule root path)
  exact ⟨Opening.runs_change hr (opening_addTask hrest path) hrest, ho, ha.words⟩

/-- A module that was opened from outside has a frame of its own; otherwise there is a failure. One task
has been added. -/
theorem openModule_cases (hJ : Unfolds J s.machine) (hend : s.machine.Ended) (path : Path)
    (hres : (s.openModule path).1 ≠ none) : ∃ m, s.machine.Continues m ∧
      ((∃ e, (s.openModule path).1 = some (.error e) ∧ (s.openModule path).2.machine = m) ∨
        ∃ body, (s.openModule path).1 =
            some (.ok (.callable (.closure m.stamps body m.scope.frames.size))) ∧
          (s.openModule path).2.machine =
            { m with scope := (m.scope.add (moduleFrame path)).2, stamps := m.stamps + 1 }) := by
  obtain ⟨J', _, hJ'⟩ := unfolds_openModule hJ path
  obtain ⟨hopening, ho, _⟩ := opening_openModule (hJ.atRest hend) path
  generalize (s.openModule path).1 = o at ho hres ⊢
  generalize (s.openModule path).2.machine = m' at hopening ho hJ' ⊢
  subst ho
  have hlast : ∀ task : Task, (s.machine.tasks.push task)[s.machine.tasks.size]? = some task :=
    fun _ => Array.getElem?_push_size
  obtain ⟨library, ready, notes, ⟨e, rfl⟩ | ⟨body, rfl⟩⟩ := hopening.ended hres
  · refine ⟨_, hJ'.continues_push hend rfl, .inl ⟨e, ?_, rfl⟩⟩
    rw [result?, withLast, hlast]
    rfl
  · refine ⟨_, hJ'.continues_push hend rfl, .inr ⟨body, ?_, rfl⟩⟩
    rw [result?, withLast, withModule, hlast]
    rfl

/-- A program is run as a closure over a new frame. -/
theorem ran_runProgram {m : Machine} {w : World} (name : String) (modulePath : Option Path)
    (body : Body) (hc : s.machine.Continues m) (hw : w.words = s.world.words) :
    s.Ran (runProgram ⟨{ m with
        scope := (m.scope.add { parent := some root, modulePath }).2
        stamps := m.stamps + 1 }, w⟩ name
      (.callable (.closure m.stamps body m.scope.frames.size))).2 := by
  obtain ⟨notes', hm⟩ := machine_runProgram ⟨{ m with
      scope := (m.scope.add { parent := some root, modulePath }).2
      stamps := m.stamps + 1 }, w⟩ name (.callable (.closure m.stamps body m.scope.frames.size))
  obtain ⟨_, hworld⟩ := runProgram_eq ⟨{ m with
      scope := (m.scope.add { parent := some root, modulePath }).2
      stamps := m.stamps + 1 }, w⟩ name (.callable (.closure m.stamps body m.scope.frames.size))
  generalize runProgram _ _ _ = ran at hm hworld ⊢
  obtain ⟨_, m', w'⟩ := ran
  dsimp only at hm hworld ⊢
  rw [hm, hworld, (runJob_eq _ _).1, (runJob_eq _ _).2.1]
  exact .runs modulePath _ notes' body hc hw

/-- A file that is opened and run, by a session in which all has come to its end before and after. -/
theorem ran_runFile (hJ : Unfolds J s.machine) (hend : s.machine.Ended) (file : String)
    (hended : (s.runFile file).2.machine.Ended) : s.Ran (s.runFile file).2 := by
  have hrest := hJ.atRest hend
  obtain ⟨notes, hnotes⟩ := s.resolve_eq file none
  revert hended
  unfold runFile
  split
  · next hfound =>
    rw [hfound] at hnotes
    rintro -
    exact hnotes ▸ .stops (continues_notes hrest hend _) rfl
  · next path s₁ hfound =>
    rw [hfound] at hnotes
    change s₁ = s.note notes at hnotes
    subst hnotes
    have hopened := openModule_cases (s := s.note notes) (unfolds_note hJ notes) hend path
    obtain ⟨hopening, hout, hwords⟩ := opening_openModule (s := s.note notes)
      (continues_notes hrest hend _).rest path
    split
    · next program s₂ ho =>
      rw [ho] at hopened hwords
      rintro -
      obtain ⟨m, hc, ⟨e, he, _⟩ | ⟨body, he, hm⟩⟩ := hopened nofun
      · cases he
      · cases he
        obtain ⟨m₂, w⟩ := s₂
        cases hm
        exact ran_runProgram path.text (some path) body
          ⟨hc.rest, hc.ended, hc.scope, hc.tasks, hc.stamps⟩ hwords
    · next hfailed =>
      intro hended
      have hres : ((s.note notes).openModule path).1 ≠ none := by
        rw [hout]
        exact Option.isSome_iff_ne_none.1 (hended _ (hopening.size_tasks ▸ Nat.lt_succ_self _))
      obtain ⟨m, hc, ⟨e, _, hm⟩ | ⟨body, he, _⟩⟩ := hopened hres
      · have hs : ((s.note notes).openModule path).2 =
            ⟨m, ((s.note notes).openModule path).2.world⟩ := hm ▸ rfl
        exact hs ▸ .stops ⟨hc.rest, hc.ended, hc.scope, hc.tasks, hc.stamps⟩ hwords
      · exact (hfailed _ _ (Prod.ext he rfl)).elim

theorem rootScope_twins (ρ : Correspondence) (ho : ρ.Ordered)
    (hρ : ∀ f f', ρ.frames f f' → f = root ∧ f' = root) (hroot : ρ.frames root root) :
    Scope.Twins .anything ρ rootScope rootScope := by
  have hwords : ∀ (ws : List Word) (scope : Scope), Scope.Twins .anything ρ scope scope →
      Scope.Twins .anything ρ
        (ws.foldl (fun s w => (s.declare root w.name (.settled (.callable (.host w)))).2) scope)
        (ws.foldl (fun s w => (s.declare root w.name (.settled (.callable (.host w)))).2) scope) := by
    intro ws
    induction ws with
    | nil => exact fun _ h => h
    | cons w ws ih =>
      intro scope h
      refine ih _ (h.declare ho hroot (.settled (.callable (.host ?_))) w.name).2
      cases w <;> trivial
  refine hwords _ _ fun f f' hf => ?_
  obtain ⟨rfl, rfl⟩ := hρ f f' hf
  exact ⟨{ library := true }, { library := true }, rfl, rfl, ⟨⟨⟨.nil, .none⟩, .none⟩, rfl, rfl, nofun⟩⟩

/-- The root stands for itself, and there is nothing else. -/
def rootOnly : Correspondence where
  stamps _ _ := False
  frames f f' := f = root ∧ f' = root
  tasks _ _ := False
  unique h := h.elim

namespace Ran

theorem words (h : s.Ran t) : t.world.words = s.world.words := by
  cases h with
  | stops _ hw => exact hw
  | @runs m w modulePath notes _ body _ hw =>
    obtain ⟨_, _, ha⟩ := runs_runAll stepLimit (m.launched modulePath notes body) w
    exact ha.words.trans hw

theorem whole (h : s.Ran t) (hs : s.machine.Whole) (hu : s.world.Uniform .anything)
    (hend : t.machine.Ended) (hrest : t.machine.AtRest) : t.machine.Whole := by
  cases h with
  | stops hc _ => exact hs.continues hc
  | @runs m w modulePath notes notes' body hc hw =>
    have hu' : w.Uniform .anything := by
      rw [World.Uniform, hw]
      exact hu
    have hlast : ((m.launched modulePath notes body).runAll stepLimit w).1.Whole :=
      (hs.continues hc).ran hc.rest hu' stepLimit rfl hend hrest.library
    exact hlast.continues ⟨hrest, hend, rfl, fun _ _ => rfl, rfl⟩

end Ran

namespace Rested

theorem unfolds (h : s.Rested settings world) : ∃ J, Unfolds J s.machine := by
  induction h with
  | start => exact ⟨[], .start settings world⟩
  | text path text _ _ ih =>
    obtain ⟨J, hJ⟩ := ih
    obtain ⟨J', _, hJ'⟩ := unfolds_runText hJ path text
    exact ⟨J' ++ J, hJ'⟩
  | file file _ _ ih =>
    obtain ⟨J, hJ⟩ := ih
    obtain ⟨J', _, hJ'⟩ := unfolds_runFile hJ file
    exact ⟨J' ++ J, hJ'⟩
  | value name _ _ ih =>
    obtain ⟨J, hJ⟩ := ih
    exact ⟨_, hJ.hosts (.declares name _)⟩
  | meanwhile notes _ _ _ ih =>
    obtain ⟨J, hJ⟩ := ih
    exact ⟨J, hJ.hosts (.notes notes)⟩

theorem ended (h : s.Rested settings world) : s.machine.Ended := by
  induction h with
  | start => exact fun u hu => absurd hu (Nat.not_lt_zero u)
  | text _ _ _ hend _ => exact hend
  | file _ _ hend _ => exact hend
  | value name _ _ ih => exact ih
  | meanwhile _ _ _ _ ih => exact ih

theorem atRest (h : s.Rested settings world) : s.machine.AtRest := by
  obtain ⟨J, hJ⟩ := h.unfolds
  exact hJ.atRest h.ended

theorem orderly (h : s.Rested settings world) : s.machine.Orderly := h.atRest.orderly

theorem ranText (h : s.Rested settings world) (path text : String) : s.Ran (s.runText path text).2 :=
  ran_runText h.atRest h.ended path text

theorem ranFile (h : s.Rested settings world) {file : String}
    (hend : (s.runFile file).2.machine.Ended) : s.Ran (s.runFile file).2 := by
  obtain ⟨J, hJ⟩ := h.unfolds
  exact ran_runFile hJ h.ended file hend

theorem words (h : s.Rested settings world) : s.world.words = world.words := by
  induction h with
  | start => rfl
  | text path text h _ ih => exact (h.ranText path text).words.trans ih
  | file _ h hend ih => exact (h.ranFile hend).words.trans ih
  | value _ _ _ ih => exact ih
  | meanwhile _ _ _ hw _ => exact hw

theorem uniform {p : Terms} (h : s.Rested settings world) (hu : world.Uniform p) :
    s.world.Uniform p := by
  rw [World.Uniform, h.words]
  exact hu

theorem whole_start : (Session.start settings world).machine.Whole := by
  have hid : rootOnly.IsIdentity :=
    ⟨fun _ _ h => h.elim, fun _ _ h => h.1.trans h.2.symm, fun _ _ h => h.elim⟩
  have hK := holds_start settings world fun _ => True
  have hrest := (Rested.start : Session.Rested settings world _).atRest
  exact ⟨⟨_, hK.machine, hK.root⟩, matched_names hK.machine hK.root hrest.library hid
    (fun _ _ ha => ha.elim) ⟨rfl, rfl⟩
    (rootScope_twins rootOnly hid.ordered (fun _ _ => id) ⟨rfl, rfl⟩) fun _ ht => ht.elim⟩

theorem whole_declare {v : Value} (hs : s.machine.Whole) (hquiet : s.machine.library.Quiet)
    (name : String) (hv : v.Nameless) : (s.declare name v).2.machine.Whole := by
  obtain ⟨K, hK, hroot⟩ := hs.known
  have hid := s.machine.names_isIdentity
  have hnext : (s.declare name v).2.machine.Holds .anything K :=
    ⟨hK.orderly.congr rfl rfl rfl, hK.ended,
      (hK.scope.declare root name (.settled (hv K.itself))).2, hK.library, hK.tasks, hK.results⟩
  refine ⟨⟨K, hnext, hroot⟩, matched_names hnext hroot hquiet hid (fun _ _ ha => ha.2) ⟨rfl, .root⟩
    (hs.matched.scope.declare hid.ordered ⟨rfl, .root⟩ (.settled (hv _)) name).2 fun t ht => ?_⟩
  obtain ⟨task, task', ht, ht', _, hres⟩ := hs.matched.tasks t t ht
  cases ht.symm.trans ht'
  have hresult : s.machine.result? t = task.cell.result := by rw [result?, ht]; rfl
  have hsame : (s.declare name v).2.machine.result? t = s.machine.result? t := rfl
  rw [hsame, hresult]
  exact hres

variable (h : s.Rested settings world) (hu : world.Uniform .anything)
include h hu

theorem whole : s.machine.Whole := by
  induction h with
  | start => exact whole_start
  | text path text h hend ih =>
    exact (h.ranText path text).whole ih (h.uniform hu) hend (Rested.text path text h hend).atRest
  | file file h hend ih =>
    exact (h.ranFile hend).whole ih (h.uniform hu) hend (Rested.file file h hend).atRest
  | value name h hv ih => exact whole_declare ih h.atRest.library name hv
  | meanwhile notes w h _ ih => exact ih.continues (continues_notes h.atRest h.ended notes)

/-- All that can be come upon between two programs is there and stands for itself. -/
theorem matched : s.machine.Matched .anything s.machine.names s.machine := (h.whole hu).matched

end Rested

end Session

end Concatenative
