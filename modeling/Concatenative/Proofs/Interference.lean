import Concatenative.Proofs.Sweep

/-! Texts that leave no trace. A text whose code neither rebinds names nor refers to modules is run in a
session, and so are other texts afterwards. Main statement: if no closure that can be come upon is of
other code either, the text leaves the names of the root, the library and all that can be come upon as
they were, and later texts do as if it had not been run (`calm_texts_do_not_interfere`). Calling a
closure that rebinds is enough to be noticed (`called_closure_rebinds`). -/
namespace Concatenative

open Session (root)

/-! ## Surroundings -/

namespace World

variable {w w' : World} {log : List Asked}

/-- Where words return closures of their input only, they keep away from modules if these do. -/
theorem Uniform.unloading (hu : w.Uniform .anything) (hw : w.Honest) : w.Uniform .unloading := by
  intro ρ name x x' hx
  have hwiden : Terms.unloading.Narrows .anything ρ ρ := ⟨fun _ _ => id, fun _ => id, id⟩
  have hnarrow : Terms.anything.Narrows .unloading ρ ρ := ⟨fun _ _ => id, fun _ => id, id⟩
  have hlends : ∀ h, ρ.Lends ρ h := fun h => by cases h <;> exact fun _ => id
  have hin : InputAlike .anything ρ x x' := optionRel_imp (fun _ _ hv =>
    hv.narrow hwiden (fun h _ => hlends h) fun c _ => c.1.fits_anything) hx
  have hfits : ∀ c ∈ inputClosures x, c.1.Fits .unloading := by
    cases hx with
    | none => exact nofun
    | some hv => exact hv.fits
  have hout := hu ρ name x x' hin
  have hsub := hw name x
  generalize w.words name x = o at hout hsub
  generalize w.words name x' = o' at hout
  cases hout with
  | error he => exact .error he
  | ok hv => exact .ok (hv.narrow hnarrow (fun h _ => hlends h) fun c hc => hfits c (hsub hc))

theorem answer_files (w : World) (q : Query) :
    (w.answer q).2.files = w.files ∧ (w.answer q).2.sink = w.sink := by
  cases q with
  | write text =>
    simp only [World.answer, World.write]
    split
    · next h => exact ⟨rfl, h.symm ▸ rfl⟩
    · next h => exact ⟨rfl, rfl⟩
    · next h => exact ⟨rfl, rfl⟩
  | _ => exact ⟨rfl, rfl⟩

theorem Answers.files (h : w.Answers log w') : w'.files = w.files ∧ w'.sink = w.sink := by
  induction h with
  | nil => exact ⟨rfl, rfl⟩
  | @cons w _ q _ _ ih =>
    obtain ⟨hf, hs⟩ := w.answer_files q
    exact ⟨ih.1.trans hf, ih.2.trans hs⟩

end World

/-! ## Machines -/

namespace Machine

variable {m m' : Machine} {t : TaskId} {log : List Asked}

theorem Serves.stamps_le {q : Request} {a : q.Answer} (hs : m.Serves t q log a m') :
    m.stamps ≤ m'.stamps := by
  cases hs with
  | stamp => exact Nat.le_succ _
  | await hr =>
    obtain ⟨tasks, ready, rfl⟩ := readCell_eq hr
    exact Nat.le_refl _
  | spawn l job => rw [addTask_eq]
  | giveUp path =>
    obtain ⟨ready, he⟩ := wake_eq { m with library := (m.library.giveUp path).1 }
      (m.library.giveUp path).2
    rw [he]
  | _ => exact Nat.le_refl _

theorem Change.stamps_le (hc : m.Change log m') : m.stamps ≤ m'.stamps := by
  cases hc with
  | @goes t θ _ _ hr hg =>
    cases hg with
    | served hs => exact hs.stamps_le
    | awaits hread =>
      obtain ⟨tasks, ready, rfl⟩ := readCell_eq hread
      exact Nat.le_refl _
    | @ends _ o _ =>
      obtain ⟨tasks, ready, he⟩ := finish_eq { m with running := none } t o
      rw [he]
    | _ => exact Nat.le_refl _
  | @take t _ _ ready _ _ _ =>
    obtain ⟨tasks, running, he, _⟩ := resume_eq { m with ready } t
    rw [he]
  | read a _ _ => exact Nat.le_refl _

theorem Runs.stamps_le (h : Runs m log m') : m.stamps ≤ m'.stamps := by
  induction h with
  | refl m => exact Nat.le_refl _
  | head hm _ ih => exact Nat.le_trans hm.change.stamps_le ih

/-- A task that was there stays there, with its origin and with what it came to. -/
theorem Runs.keeps_stand {s : Stand} (h : Runs m log m') (ho : m.Orderly) (hs : m.stand t = some s) :
    ∃ s', m'.stand t = some s' ∧ s'.origin = s.origin ∧
      ∀ r, s.result = some r → s'.result = some r := by
  induction h generalizing s with
  | refl m => exact ⟨s, hs, rfl, fun _ => id⟩
  | head hm _ ih =>
    obtain ⟨s₁, hs₁, horigin, hres⟩ := hm.change.keeps_stand ho hs
    obtain ⟨s₂, hs₂, horigin₂, hres₂⟩ := ih (ho.change hm.change) hs₁
    exact ⟨s₂, hs₂, horigin₂.trans horigin, fun r hr => hres₂ r (hres r hr)⟩

end Machine

theorem eq_of_optionRel {α : Type} {R : α → α → Prop} {x x' : Option α} (h : Option.Rel R x x')
    (hR : ∀ a a', x = some a → R a a' → a' = a) : x' = x := by
  cases h with
  | none => rfl
  | some ha => rw [hR _ _ rfl ha]

/-- Twins under names that stand for themselves are the same. -/
theorem Frame.Twins.eq {p : Terms} {σ : Correspondence} {f f' : FrameId} {frame frame' : Frame}
    (h : Frame.Twins p σ f f' frame frame') (hid : σ.IsIdentity) : frame' = frame := by
  have hbindings : frame'.bindings = frame.bindings := by
    have hall : List.Forall₂ Eq frame.bindings frame'.bindings :=
      h.bindings.imp fun b b' hb => Prod.ext hb.1 (hb.2.identity hid).1.symm
    rw [List.forall₂_eq_eq_eq] at hall
    exact hall.symm
  have hinput : frame'.input = frame.input :=
    eq_of_optionRel h.input fun _ _ _ hd => (hd.identity hid).1
  have hparent : frame'.parent = frame.parent :=
    eq_of_optionRel h.parent fun g g' hg hgg => (hid.frames g g' (hgg.2 (h.above g hg))).symm
  obtain ⟨bindings, parent, input, modulePath, library⟩ := frame
  obtain ⟨bindings', parent', input', modulePath', library'⟩ := frame'
  cases hbindings
  cases hinput
  cases hparent
  cases h.modulePath
  cases h.library
  rfl

/-! ## Sessions -/

namespace Session

open Machine

variable {settings : LibrarySettings} {world : World} {s : Session} {path text : String} {body : Body}

/-- The session without what can not be come upon. -/
noncomputable def swept (s : Session) : Session := { s with machine := s.machine.swept }

theorem spares_entered (hrest : s.machine.AtRest) (hcalm : s.machine.Calm) (hbody : body.Calm) :
    (s.swept.entered path text body).Spares s.machine.scope.frames.size [] .calm := by
  have hbegun : (s.swept.begun path text body).machine.Proper [] .calm := by
    have hp := proper_swept hrest hcalm
    exact hp.congr (Provenance.le_refl _) (hp.scope.add rfl nofun) hp.library rfl rfl rfl
  have hjob : Provenance.calm.Allows (s.swept.entryJob body) := by
    refine ⟨Provenance.knows_calm fun c hc => ?_, trivial⟩
    cases List.mem_singleton.1 hc
    exact hbody
  refine ⟨?_, hbegun.addTask none hjob, fun _ _ => id, fun t f hf => ?_, ?_⟩
  · exact orderly_launched hrest.swept.orderly hrest.running none _ body
  · cases hf
  · have hpush : (s.swept.entered path text body).scope.frames.size =
        s.machine.swept.scope.frames.size + 1 := Array.size_push _
    rw [hpush, size_frames_swept]
    exact Nat.le_succ _

/-- What can be come upon in a session is in another one as it was. -/
structure Preserved (s t : Session) : Prop where
  frames : ∀ f, s.machine.LeadsTo (.frame f) →
    t.machine.scope.frames[f]? = s.machine.scope.frames[f]?
  tasks : ∀ u x, s.machine.stand u = some x → ∃ y, t.machine.stand u = some y ∧
    y.origin = x.origin ∧ ∀ r, x.result = some r → y.result = some r
  library : t.machine.library = s.machine.library
  stamps : s.machine.stamps ≤ t.machine.stamps
  files : t.world.files = s.world.files
  sink : t.world.sink = s.world.sink
  words : t.world.words = s.world.words

/-- A calm text goes on in step with itself in the session without what can not be come upon. Both keep
away from modules, and what corresponds afterwards is the same. -/
theorem Rested.beside_swept (h : s.Rested settings world) (hw : world.Honest)
    (hu : world.Uniform .anything) (hcalm : s.machine.Calm) (hbody : body.Calm) (path text : String)
    (limit : Nat) :
    ∃ (σ : Correspondence) (log log' : List Asked), σ.IsIdentity ∧ s.machine.names ≤ σ ∧
      Scope.Twins .unloading σ ((s.entered path text body).runAll limit s.world).1.scope
        ((s.swept.entered path text body).runAll limit s.world).1.scope ∧
      (Secluded (s.entered path text body) log ((s.entered path text body).runAll limit s.world).1 ∧
        s.world.Answers log ((s.entered path text body).runAll limit s.world).2) ∧
      Secluded (s.swept.entered path text body) log'
          ((s.swept.entered path text body).runAll limit s.world).1 ∧
        s.world.Answers log' ((s.swept.entered path text body).runAll limit s.world).2 := by
  have hrest := h.atRest
  have hu' : s.world.Uniform .unloading := by
    rw [World.Uniform, h.words]
    exact hu.unloading hw
  have hsame : World.Alike s.world.written s.world.written s.world s.world :=
    ⟨rfl, rfl, rfl, [], rfl, rfl⟩
  have horderly := orderly_launched hrest.orderly hrest.running none
    (s.begun path text body).machine.notes body
  have hmatched : s.machine.Matched .unloading s.machine.names s.swept.machine :=
    matched_swept (h.matched hu) hrest.library hcalm
  obtain ⟨τ, hle, hmain, h₁⟩ := abreast_entered path text hmatched hrest hrest.swept ⟨rfl, .root⟩
    hbody.fits
  obtain ⟨⟨σ, hle', h₂⟩, _⟩ := h₁.runAll limit horderly Terms.unloading_open hmain hsame hu'
  obtain ⟨log, log', hr, hlog, hr', hlog'⟩ := h₁.secluded_runAll limit horderly id hmain hsame hu'
  have hahead : (s.machine.names.ahead s.machine s.swept.machine).IsIdentity :=
    s.machine.names_isIdentity.ahead rfl (size_frames_swept s.machine) (size_tasks_swept s.machine)
  exact ⟨σ, log, log', hahead.anti h₂.paired.within, Correspondence.le_trans hle hle', h₂.scope,
    ⟨hr, hlog⟩, hr', hlog'⟩

/-- A calm text leaves all that can be come upon as it was. -/
theorem Rested.preserved (h : s.Rested settings world) (hw : world.Honest)
    (hu : world.Uniform .anything) (hcalm : s.machine.Calm)
    (hbody : ∀ body, (build s.machine.library.settings.strict path text).result = .ok body →
      body.Calm) : s.Preserved (s.runText path text).2 := by
  cases hb : (build s.machine.library.settings.strict path text).result with
  | error e =>
    unfold runText
    simp only [hb]
    exact ⟨fun _ _ => rfl, fun u x hx => ⟨x, hx, rfl, fun _ => id⟩, rfl, Nat.le_refl _, rfl, rfl, rfl⟩
  | ok body =>
    have hrest := h.atRest
    obtain ⟨notes, hm, hworld, _⟩ := runText_of_built hb
    generalize stepLimit = limit at hm hworld
    obtain ⟨σ, log, log', hid, hle, htwins, ⟨hr, hlog⟩, hr', hlog'⟩ :=
      h.beside_swept hw hu hcalm (hbody body hb) path text limit
    constructor
    case library => rw [hm]; exact hr.library
    case stamps => rw [hm]; exact Nat.le_trans (Nat.le_succ _) hr.runs.stamps_le
    case files => rw [hworld]; exact hlog.files.1
    case sink => rw [hworld]; exact hlog.files.2
    case words => rw [hworld]; exact hlog.words
    case tasks =>
      intro u x hx
      rw [hm]
      refine hr.runs.keeps_stand (orderly_launched hrest.orderly hrest.running none _ body) ?_
      have hne : ¬ u = (s.begun path text body).machine.tasks.size := Nat.ne_of_lt (stand_lt hx)
      rw [entered, stand_addTask, if_neg hne]
      exact hx
    case frames =>
      -- Code that rebinds nothing leaves the frames of the swept session, and these are the same.
      intro f hl
      have hlt := ((h.matched hu).scope.lt ⟨rfl, hl⟩).1
      have hwords : ∀ name x a, ⟨.word name x, a⟩ ∈ log' → Outcome.closures a ⊆ inputClosures x := by
        intro name x a ha
        have hanswer : a = s.world.words name x := hlog'.word ha
        rw [hanswer, h.words]
        exact hw name x
      have hspared := (spares_entered hrest hcalm (hbody body hb)).secluded hr' hwords f hlt
      have hentered : (s.swept.entered path text body).scope.frames[f]? = s.machine.scope.frames[f]? :=
        (Scope.frames_add_of_lt (size_frames_swept s.machine ▸ hlt)).trans (swept_frame hl)
      obtain ⟨frame, frame', hs, hs', htwin⟩ := htwins f f (hle.2.1 f f ⟨rfl, hl⟩)
      rw [hm, ← hentered, ← hspared, hs', htwin.eq hid]
      exact hs

/-- A session holds the same as one in which all that can be come upon is as it was. -/
theorem Rested.matched_preserved {t : Session} (h : s.Rested settings world)
    (hu : world.Uniform .anything) (hp : s.Preserved t) :
    s.machine.Matched .anything s.machine.names t.machine := by
  have hmatched := h.matched hu
  have hn : Terms.anything.Narrows .anything s.machine.names s.machine.names :=
    ⟨fun _ _ => id, fun _ => id, id⟩
  refine hmatched.closed.matched s.machine.names_isIdentity hn (fun _ _ _ _ c _ => c.1.fits_anything)
    (fun f hl => ?_) (fun u hl => ?_) hp.stamps hp.library h.atRest.library
  · obtain ⟨frame, _, hs, _, htwins⟩ := hmatched.scope f f ⟨rfl, hl⟩
    exact ⟨frame, hs, (hp.frames f hl).trans hs, htwins.above⟩
  · obtain ⟨task, _, hs, _, ⟨l, hplace, horigin, _⟩, _⟩ := hmatched.tasks u u ⟨rfl, hl⟩
    obtain ⟨r, hres⟩ := Option.ne_none_iff_exists'.1 (h.ended.result hs)
    obtain ⟨y, hy, hyo, hyr⟩ := hp.tasks u _ (stand_eq hs)
    obtain ⟨task', hs', rfl⟩ := Option.map_eq_some_iff.1 hy
    exact ⟨task, task', hs, hs', ⟨l, hplace, horigin, hyo.trans horigin⟩,
      (hyr r hres).trans hres.symm⟩

/-- What can be come upon holds what it held. -/
theorem Rested.held_preserved {t : Session} {x : Holder} (h : s.Rested settings world)
    (hu : world.Uniform .anything) (hp : s.Preserved t) (hl : s.machine.LeadsTo x) :
    t.machine.held x = s.machine.held x := by
  cases x with
  | frame f =>
    rw [held, held, hp.frames f hl]
  | task u =>
    obtain ⟨task, _, hs, _, _, _⟩ := (h.matched hu).tasks u u ⟨rfl, hl⟩
    obtain ⟨r, hres⟩ := Option.ne_none_iff_exists'.1 (h.ended.result hs)
    obtain ⟨y, hy, _, hyr⟩ := hp.tasks u _ (stand_eq hs)
    have hr : s.machine.result? u = some r := by rw [result?, hs]; exact hres
    have hr' : t.machine.result? u = some r := by rw [result?_eq, hy]; exact hyr r hres
    rw [held_task hr, held_task hr']

/-- Sessions that hold the same but for names, as far as `ρ` leads from the root. -/
structure Alike (ρ : Correspondence) (s s' : Session) : Prop where
  root : ρ.frames root root
  frames : Scope.Twins .anything ρ s.machine.scope s'.machine.scope
  results : ∀ t t', ρ.tasks t t' → Option.Rel (Outcome.Settles .anything ρ) (s.machine.result? t)
    (s'.machine.result? t')
  library : Library.Alike ρ s.machine.library s'.machine.library

/-- What a text comes to as whoever runs it sees it: no outcome, a failure, or the text of a value. -/
def shown (o : Option Outcome) : Option (Except Failure String) := o.map (Except.map Value.inspect)

/-- Sessions make the same of a text: what it comes to is the same but for names, it writes the same, and
the sessions hold the same afterwards. -/
structure Agrees (s s' : Session) (path text : String) : Prop where
  outcome : shown (s'.runText path text).1 = shown (s.runText path text).1
  same : ∃ ρ, Alike ρ (s.runText path text).2 (s'.runText path text).2 ∧
    Option.Rel (Outcome.Alike .anything ρ) (s.runText path text).1 (s'.runText path text).1
  written : ∃ lines, (s.runText path text).2.world.written = lines ++ s.world.written ∧
    (s'.runText path text).2.world.written = lines ++ s'.world.written

theorem shown_eq {ρ : Correspondence} {o o' : Option Outcome}
    (h : Option.Rel (Outcome.Alike .anything ρ) o o') : shown o' = shown o := by
  cases h with
  | none => rfl
  | some ho =>
    cases ho with
    | ok hv => exact congrArg (fun text => some (Except.ok text)) hv.inspect_eq.symm
    | error he => rfl

/-- Where all that can be come upon is as it was, texts come to the same. -/
theorem Rested.agrees {t : Session} (h : s.Rested settings world) (hu : world.Uniform .anything)
    (hp : s.Preserved t) (hrest : t.machine.AtRest) (path text : String) : s.Agrees t path text := by
  have hw : World.Alike s.world.written t.world.written s.world t.world :=
    ⟨hp.files, hp.sink, hp.words, [], rfl, rfl⟩
  obtain ⟨main, σ, hle, habreast, hout, hworld⟩ := abreast_runText path text
    (h.matched_preserved hu hp) h.atRest hrest ⟨rfl, .root⟩ Terms.anything_open
    (fun _ => trivial) hw (h.uniform hu) fun body _ => body.fits_anything
  exact ⟨shown_eq hout, ⟨σ, ⟨hle.2.1 _ _ ⟨rfl, .root⟩, habreast.scope, fun _ _ => habreast.result?,
    habreast.library⟩, hout⟩, hworld.written⟩

end Session

open Session in
/-- Texts that are run in one session do not interfere unless names are rebound or modules are referred
to. The session has run any texts and files to their end; the words that were added to it make their
outcome of their input alone. If neither the code of a text nor that of a closure that can be come upon
from the root rebinds a name or refers to a module, at any depth, then running the text leaves the root,
all that can be come upon from there and the library as they were, whether the text can be built or
not, fails or never ends. And if it ends, any later text comes to what it comes to without it, and
writes what it writes without it. -/
theorem calm_texts_do_not_interfere (settings : LibrarySettings) (world : World) (s : Session)
    (hs : s.Rested settings world) (hhonest : world.Honest) (huniform : world.Uniform .anything)
    (hcalm : s.machine.Calm) (path text : String)
    (hbody : ∀ body, (build s.machine.library.settings.strict path text).result = .ok body →
      body.Calm) :
    (s.runText path text).2.machine.scope.frames[root]? = s.machine.scope.frames[root]? ∧
    (∀ x, s.machine.LeadsTo x → (s.runText path text).2.machine.held x = s.machine.held x) ∧
    (s.runText path text).2.machine.library = s.machine.library ∧
    ((s.runText path text).2.machine.Ended →
      ∀ path' text', s.Agrees (s.runText path text).2 path' text') := by
  have hp := hs.preserved hhonest huniform hcalm hbody
  refine ⟨hp.frames root .root, fun x hl => hs.held_preserved huniform hp hl, hp.library,
    fun hend path' text' => hs.agrees huniform hp ?_ path' text'⟩
  exact (Rested.text path text hs hend).atRest

/-! ## Sessions of one kind and the other -/

/-- Without added words nothing is made of names. -/
theorem World.plain_uniform (files : Files) (p : Terms) : World.Uniform p { files } :=
  fun _ _ _ _ _ => .ok .none

/-- Where all frames and all results hold calm code, so does what can be come upon. -/
theorem Machine.calm_of_all {m : Machine}
    (hframes : ∀ (f : FrameId) (frame : Frame), m.scope.frames[f]? = some frame →
      ∀ c ∈ frame.closures, c.1.Calm)
    (hresults : ∀ u o, m.result? u = some o → ∀ c ∈ o.closures, c.1.Calm) : m.Calm := by
  intro x _ d hd c hc
  cases x with
  | frame f =>
    cases hf : m.scope.frames[f]? with
    | none => simp [held, hf] at hd
    | some frame =>
      refine hframes f frame hf c ?_
      rcases (mem_held_frame hf).1 hd with ⟨b, hb, rfl⟩ | hin
      · exact List.mem_append_left _ (List.mem_flatMap.2 ⟨b, hb, hc⟩)
      · refine List.mem_append_right _ ?_
        rw [hin]
        exact hc
  | task u =>
    cases ho : m.result? u with
    | none => simp [held, ho] at hd
    | some o =>
      rw [held_task ho, List.mem_singleton] at hd
      subst hd
      cases o with
      | ok v => exact hresults u _ ho c hc
      | error e => cases hc

/-- A session that has bound a closure of calm code to a word of the language. -/
def replacing : Session := ((Session.start {} {}).runText "a" "( 5 ) sum !").2

/-- A session that has bound a closure to a word of the language, which binds another one anew. -/
def spreading : Session := ((Session.start {} {}).runText "a" "( 5 prod ! ) sum !").2

theorem Machine.ended_of_all {m : Machine}
    (h : ((List.range m.tasks.size).all fun u => (m.result? u).isSome) = true) : m.Ended :=
  fun u hu => List.all_eq_true.1 h u (List.mem_range.2 hu)

theorem replacing_rested : replacing.Rested {} {} :=
  .text "a" "( 5 ) sum !" .start (Machine.ended_of_all (by decide +kernel))

theorem spreading_rested : spreading.Rested {} {} :=
  .text "a" "( 5 prod ! ) sum !" .start (Machine.ended_of_all (by decide +kernel))

theorem replacing_calm : replacing.machine.Calm := by
  have hframes : (replacing.machine.scope.frames.toList.all fun frame =>
      frame.closures.all fun c => decide c.1.Calm) = true := by decide +kernel
  have hresults : ((List.range replacing.machine.tasks.size).all fun u =>
      (replacing.machine.result? u).all fun o =>
        o.closures.all fun c => decide c.1.Calm) = true := by decide +kernel
  refine Machine.calm_of_all (fun f frame hf c hc => ?_) fun u o ho c hc => ?_
  · have hmem : frame ∈ replacing.machine.scope.frames.toList :=
      Array.mem_toList_iff.2 (Array.mem_of_getElem? hf)
    exact of_decide_eq_true (List.all_eq_true.1 (List.all_eq_true.1 hframes frame hmem) c hc)
  · have hlt : u < replacing.machine.tasks.size := by
      by_contra hge
      simp [Machine.result?, Array.getElem?_eq_none (Nat.not_lt.1 hge)] at ho
    have hu := List.all_eq_true.1 hresults u (List.mem_range.2 hlt)
    rw [ho] at hu
    exact of_decide_eq_true (List.all_eq_true.1 hu c hc)

/-- A text is calm if it can not be built or the body is. -/
theorem calm_of_build {strict : Bool} {path text : String}
    (h : ((build strict path text).result.toOption.all fun body => decide body.Calm) = true) :
    ∀ body, (build strict path text).result = .ok body → body.Calm := by
  intro body hb
  rw [hb] at h
  exact of_decide_eq_true h

theorem calm_texts_do_not_interfere_five :
    (replacing.runText "b" "1 x : sum . |").2.machine.library = replacing.machine.library ∧
    Session.shown (replacing.runText "b" "1 x : sum . |").1 = some (.ok "5") ∧
    Session.shown ((replacing.runText "b" "1 x : sum . |").2.runText "c" "x .").1 =
      Session.shown (replacing.runText "c" "x .").1 := by
  obtain ⟨_, _, hlibrary, hlater⟩ := calm_texts_do_not_interfere {} {} replacing replacing_rested
    (fun _ _ => List.nil_subset _) (World.plain_uniform {} _) replacing_calm "b" "1 x : sum . |"
    (calm_of_build (by decide +kernel))
  refine ⟨hlibrary, by decide +kernel, (hlater ?_ "c" "x .").outcome⟩
  exact Machine.ended_of_all (by decide +kernel)

/-- Values of the root may be closures that rebind names, and a text that calls one needs no code of its
own that does: a later text sees another value of the name. -/
theorem called_closure_rebinds :
    ¬ ∀ (s : Session) (path text : String), s.Rested {} {} →
      (∀ body, (build s.machine.library.settings.strict path text).result = .ok body → body.Calm) →
      (s.runText path text).2.machine.Ended →
      (s.runText path text).2.machine.scope.frames[root]? = s.machine.scope.frames[root]? ∧
      ∀ path' text', Session.shown ((s.runText path text).2.runText path' text').1 =
        Session.shown (s.runText path' text').1 := by
  intro h
  obtain ⟨_, hlater⟩ := h spreading "b" "sum . |" spreading_rested (calm_of_build (by decide +kernel))
    (Machine.ended_of_all (by decide +kernel))
  have hwith : Session.shown ((spreading.runText "b" "sum . |").2.runText "c" "prod .").1 =
      some (.ok "5") := by decide +kernel
  have hwithout : Session.shown (spreading.runText "c" "prod .").1 = some (.ok "<host prod>") := by
    decide +kernel
  have heq := hlater "c" "prod ."
  rw [hwith, hwithout] at heq
  revert heq
  decide

end Concatenative
