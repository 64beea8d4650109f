import Concatenative.Proofs.Provenance.Machine

/-! Loadings of modules. What a loading asks for is said by `Loading`; what was loaded, and which
loadings came to nothing, is read off the journal (`Loaded`, `failedBuilds`). Main statement: at any
time the library holds what the journal says, and who loads a module is the only one to
(`Unfolds.shelved`). -/
namespace Concatenative

/-! ## What a loading asks for -/

namespace Evaluation

open Eval

/-- What is asked before it is known whether a text can be built. -/
def untilBuilt (p : Path) (text : String) (settings : LibrarySettings) : List Answered :=
  [⟨.claim p, (none : Option Body)⟩, ⟨.world (.content p), (.ok text : Except ReadFault String)⟩,
    ⟨.countParse, ()⟩, ⟨.note ⟨.debug, "Parsing module " ++ p.text ++ "."⟩, ()⟩,
    ⟨.settings, settings⟩] ++
  (build settings.strict p.text text).notes.map fun n => ⟨.note n, ()⟩

/-- What a loading asks for, with the answers, and what it comes to. -/
inductive Loading (p : Path) : List Answered → Except Failure Body → Prop
  /-- The body is given at once. -/
  | kept (body : Body) : Loading p [⟨.claim p, some body⟩] (.ok body)
  | unreadable (fault : ReadFault) :
      Loading p
        [⟨.claim p, (none : Option Body)⟩,
          ⟨.world (.content p), (.error fault : Except ReadFault String)⟩, ⟨.giveUp p, ()⟩]
        (.error (Cause.moduleUnreadable p.text fault))
  | built {text : String} {settings : LibrarySettings} {body : Body} :
      (build settings.strict p.text text).result = .ok body →
      Loading p (untilBuilt p text settings ++ [⟨.publish p body, ()⟩]) (.ok body)
  | refused {text : String} {settings : LibrarySettings} {e : Failure} :
      (build settings.strict p.text text).result = .error e →
      Loading p (untilBuilt p text settings ++ [⟨.giveUp p, ()⟩]) (.error e)

theorem ends_ask_recorded {α : Type} {q : Request} {f : q.Answer → Eval α} {τ τ' : List Answered}
    {r : Except Failure α} (hq : q.isPerform = false) :
    Act.Ends recorded (ask q >>= f).run τ r τ' ↔
      ∃ a τ₁, τ = ⟨q, a⟩ :: τ₁ ∧ Act.Ends recorded (f a).run τ₁ r τ' := by
  rw [ends_bind]
  simp only [ends_ask hq]
  constructor
  · rintro (⟨a, τ₁, ⟨_, ha, ⟨⟩⟩, hf⟩ | ⟨e, ⟨_, _, h⟩, _⟩)
    · exact ⟨a, τ₁, ha, hf⟩
    · cases h
  · rintro ⟨a, τ₁, ha, hf⟩
    exact .inl ⟨a, τ₁, ⟨a, ha, rfl⟩, hf⟩

theorem ends_noteAll_recorded {α : Type} {notes : List Note} {f : Unit → Eval α}
    {τ τ' : List Answered} {r : Except Failure α} :
    Act.Ends recorded (noteAll notes >>= f).run τ r τ' ↔
      ∃ τ₁, τ = notes.map (fun n => ⟨.note n, ()⟩) ++ τ₁ ∧ Act.Ends recorded (f ()).run τ₁ r τ' := by
  induction notes generalizing τ with
  | nil =>
    constructor
    · exact fun h => ⟨τ, rfl, h⟩
    · rintro ⟨τ₁, rfl, h⟩
      exact h
  | cons n rest ih =>
    have hcons : (noteAll (n :: rest) >>= f) = (ask (.note n) >>= fun _ => noteAll rest >>= f) :=
      bind_assoc ..
    rw [hcons, ends_ask_recorded rfl]
    simp only [ih]
    constructor
    · rintro ⟨_, _, rfl, τ₁, rfl, h⟩
      exact ⟨τ₁, rfl, h⟩
    · rintro ⟨τ₁, rfl, h⟩
      exact ⟨(), _, rfl, τ₁, rfl, h⟩

theorem ends_throw {α : Type} {e : Failure} {τ τ' : List Answered} {r : Except Failure α} :
    Act.Ends recorded (throw e : Eval α).run τ r τ' ↔ r = .error e ∧ τ' = τ := Act.ends_done

/-- Loading a module is one of these loadings, and each of them may be. -/
theorem ends_moduleBody {p : Path} {τ : List Answered} {r : Except Failure Body} :
    Act.Ends recorded (moduleBody p).run τ r [] ↔ Loading p τ r := by
  unfold moduleBody
  rw [ends_ask_recorded rfl]
  constructor
  · rintro ⟨claimed, τ₁, rfl, h₁⟩
    cases claimed with
    | some body =>
      obtain ⟨rfl, rfl⟩ := ends_pure.1 h₁
      exact .kept body
    | none =>
      obtain ⟨answer, τ₂, rfl, h₂⟩ := (ends_ask_recorded rfl).1 h₁
      clear h₁
      cases answer with
      | error fault =>
        obtain ⟨_, τ₃, rfl, h₃⟩ := (ends_ask_recorded rfl).1 h₂
        obtain ⟨rfl, rfl⟩ := ends_throw.1 h₃
        exact .unreadable fault
      | ok text =>
        obtain ⟨_, τ₃, rfl, h₃⟩ := (ends_ask_recorded rfl).1 h₂
        obtain ⟨_, τ₄, rfl, h₄⟩ := (ends_ask_recorded rfl).1 h₃
        obtain ⟨settings, τ₅, rfl, h₅⟩ := (ends_ask_recorded rfl).1 h₄
        obtain ⟨τ₆, rfl, h₆⟩ := ends_noteAll_recorded.1 h₅
        cases hb : (build settings.strict p.text text).result with
        | ok body =>
          simp only [hb] at h₆
          obtain ⟨_, τ₇, rfl, h₇⟩ := (ends_ask_recorded rfl).1 h₆
          obtain ⟨rfl, rfl⟩ := ends_pure.1 h₇
          exact .built hb
        | error e =>
          simp only [hb] at h₆
          obtain ⟨_, τ₇, rfl, h₇⟩ := (ends_ask_recorded rfl).1 h₆
          obtain ⟨rfl, rfl⟩ := ends_throw.1 h₇
          exact .refused hb
  · intro h
    cases h with
    | kept body => exact ⟨some body, _, rfl, ends_pure.2 ⟨rfl, rfl⟩⟩
    | unreadable fault =>
      refine ⟨none, _, rfl, (ends_ask_recorded rfl).2 ⟨.error fault, _, rfl, ?_⟩⟩
      exact (ends_ask_recorded rfl).2 ⟨(), _, rfl, ends_throw.2 ⟨rfl, rfl⟩⟩
    | @built text settings body hb =>
      refine ⟨none, _, rfl, (ends_ask_recorded rfl).2 ⟨.ok text, _, rfl, ?_⟩⟩
      refine (ends_ask_recorded rfl).2 ⟨(), _, rfl, (ends_ask_recorded rfl).2 ⟨(), _, rfl, ?_⟩⟩
      refine (ends_ask_recorded rfl).2 ⟨settings, _, rfl, ends_noteAll_recorded.2 ⟨_, rfl, ?_⟩⟩
      simp only [hb]
      exact (ends_ask_recorded rfl).2 ⟨(), _, rfl, ends_pure.2 ⟨rfl, rfl⟩⟩
    | @refused text settings e hb =>
      refine ⟨none, _, rfl, (ends_ask_recorded rfl).2 ⟨.ok text, _, rfl, ?_⟩⟩
      refine (ends_ask_recorded rfl).2 ⟨(), _, rfl, (ends_ask_recorded rfl).2 ⟨(), _, rfl, ?_⟩⟩
      refine (ends_ask_recorded rfl).2 ⟨settings, _, rfl, ends_noteAll_recorded.2 ⟨_, rfl, ?_⟩⟩
      simp only [hb]
      exact (ends_ask_recorded rfl).2 ⟨(), _, rfl, ends_throw.2 ⟨rfl, rfl⟩⟩

end Evaluation

/-! ## Loadings in a journal -/

/-- The body that a loading comes to, with the path it is of. -/
def Entry.brings? : Entry → Option (Path × Body)
  | .answered _ (.claim p) (some b) => some (p, b)
  | .answered _ (.publish p b) _ => some (p, b)
  | _ => none

namespace Journal

/-- A loading of a module has come to a body. -/
def Loaded (J : Journal) (p : Path) (b : Body) : Prop :=
  ∃ e ∈ J, ∃ q, e.brings? = some (q, b) ∧ q.same p

/-- How many files were read that could not be built. -/
def failedBuilds : Journal → Nat
  | [] => 0
  | .answered t (.giveUp _) _ :: J => failedBuilds J + if (phase J t).builds then 1 else 0
  | _ :: J => failedBuilds J

variable {J : Journal} {e : Entry} {t u : TaskId} {p : Path} {b : Body}

theorem loaded_cons : Loaded (e :: J) p b ↔
    (∃ q, e.brings? = some (q, b) ∧ q.same p) ∨ J.Loaded p b := by
  simp only [Loaded, List.mem_cons, or_and_right, exists_or, exists_eq_left]

theorem loaded_cons_of_none (h : e.brings? = none) : Loaded (e :: J) p b ↔ J.Loaded p b := by
  rw [loaded_cons, h]
  simp

theorem Loaded.congr {q : Path} (h : J.Loaded p b) (hs : p.same q) : J.Loaded q b := by
  obtain ⟨e, he, r, hr, hsame⟩ := h
  exact ⟨e, he, r, hr, Path.same_trans hsame hs⟩

end Journal

namespace Phase

variable {φ : Phase} {w : Provenance}

theorem asked_of_builds (h : φ.builds) : φ.asked := by
  cases φ <;> first | exact h | rfl

theorem not_asked_of_idle (h : φ.loads? = none) : φ.asked = false := by
  cases φ <;> first | rfl | cases h

theorem not_builds_of_idle (h : φ.loads? = none) : φ.builds = false := by
  cases φ <;> first | rfl | cases h

end Phase

/-- A request that is made in the course of loading a module. -/
def Request.loads : Request → Bool
  | claim _ | countParse | publish _ _ | giveUp _ | world (.content _) => true
  | _ => false

/-- Other requests lead neither into a loading nor out of it. -/
theorem Phase.next_of_not_loads {φ : Phase} {w : Provenance} {q : Request} (a : q.Answer)
    (hq : q.loads = false) (hdue : q.Due w φ) :
    (φ.next q a).loads? = φ.loads? ∧ (φ.next q a).builds = φ.builds := by
  cases q with
  | enter parent x =>
    cases hdue.1
    exact ⟨rfl, rfl⟩
  | settings => cases φ <;> exact ⟨rfl, rfl⟩
  | claim p => cases hq
  | countParse => cases hq
  | publish p b => cases hq
  | giveUp p => cases hq
  | world q =>
    cases q with
    | content p => cases hq
    | _ => exact ⟨rfl, rfl⟩
  | _ => exact ⟨rfl, rfl⟩

theorem Journal.phase_cons_of_ne {J : Journal} {e : Entry} {u : TaskId} (h : e.task? ≠ some u) :
    Journal.phase (e :: J) u = J.phase u := by
  rw [Journal.phase, phases_cons_of_ne h, Journal.phase]

theorem Entry.brings?_of_not_loads {t : TaskId} {q : Request} (a : q.Answer)
    (hq : q.loads = false) : (Entry.answered t q a).brings? = none := by
  cases q with
  | claim p => cases hq
  | publish p b => cases hq
  | _ => rfl

theorem Journal.failedBuilds_of_not_loads {J : Journal} {t : TaskId} {q : Request} (a : q.Answer)
    (hq : q.loads = false) : failedBuilds (.answered t q a :: J) = J.failedBuilds := by
  cases q with
  | giveUp p => cases hq
  | _ => rfl

namespace Machine

/-- How many texts are being built. -/
def building (m : Machine) (J : Journal) : Nat :=
  match m.running with
  | some (t, _) => if (J.phase t).builds then 1 else 0
  | none => 0

/-- The library holds what a journal says. -/
structure Shelved (m : Machine) (J : Journal) : Prop where
  kept : ∀ p b, m.library.body? p = some b ↔ J.Loaded p b
  loading : ∀ t p, (J.phase t).loads? = some p →
    m.library.body? p = none ∧ m.library.loader? p = some t
  alone : ∀ t, (J.phase t).asked → ∃ θ, m.running = some (t, θ)
  counted : m.library.parseCount = m.library.cached.length + J.failedBuilds + m.building J

variable {m m' : Machine} {J : Journal} {w : Provenance} {t u : TaskId} {p : Path} {b : Body}
  {θ θ' : Thread} {e : Entry} {es : List Entry} {log : List Asked}

namespace Shelved

theorem building_of_running (hr : m.running = some (t, θ)) :
    m.building J = if (J.phase t).builds then 1 else 0 := by
  rw [building, hr]

/-- A task moves that was running or was taken up. -/
theorem moves (h : m.Shelved J) (he : e.task? = some t)
    (hr : m.running = none ∨ ∃ θ, m.running = some (t, θ)) (hr' : m'.running = some (t, θ'))
    (hkept : ∀ p b, m'.library.body? p = some b ↔ Journal.Loaded (e :: J) p b)
    (hother : ∀ u p, u ≠ t → (J.phase u).loads? = some p →
      m'.library.body? p = none ∧ m'.library.loader? p = some u)
    (hself : ∀ p, (Journal.phase (e :: J) t).loads? = some p →
      m'.library.body? p = none ∧ m'.library.loader? p = some t)
    (hcounted : m'.library.parseCount = m'.library.cached.length + Journal.failedBuilds (e :: J) +
      if (Journal.phase (e :: J) t).builds then 1 else 0) : m'.Shelved (e :: J) := by
  have hphase : ∀ u, u ≠ t → Journal.phase (e :: J) u = J.phase u := fun u hu =>
    Journal.phase_cons_of_ne fun heq => hu (Option.some.inj (heq.symm.trans he))
  refine ⟨hkept, fun u p hu => ?_, fun u hu => ?_, ?_⟩
  · by_cases hut : u = t
    · subst hut
      exact hself p hu
    · rw [hphase u hut] at hu
      exact hother u p hut hu
  · by_cases hut : u = t
    · subst hut
      exact ⟨θ', hr'⟩
    · rw [hphase u hut] at hu
      obtain ⟨θ'', hu'⟩ := h.alone u hu
      rcases hr with hr | ⟨θ, hr⟩
      · cases hr.symm.trans hu'
      · cases hr.symm.trans hu'
        exact absurd rfl hut
  · rw [hcounted, building_of_running hr']

/-- A move that leaves the library as it is, at the same point of a loading or at none. -/
theorem unmoved (h : m.Shelved J) (he : e.task? = some t)
    (hr : m.running = none ∨ ∃ θ, m.running = some (t, θ)) (hr' : m'.running = some (t, θ'))
    (hl : m'.library = m.library) (hb : e.brings? = none)
    (hf : Journal.failedBuilds (e :: J) = J.failedBuilds)
    (hloads : (Journal.phase (e :: J) t).loads? = (J.phase t).loads?)
    (hbuilds : (Journal.phase (e :: J) t).builds = (J.phase t).builds) : m'.Shelved (e :: J) := by
  have hbuilding : m.building J = if (J.phase t).builds then 1 else 0 := by
    rcases hr with hr | ⟨θ, hr⟩
    · have hnot : (J.phase t).builds = false := by
        refine Bool.eq_false_iff.2 fun hbuild => ?_
        obtain ⟨θ, hu⟩ := h.alone t (Phase.asked_of_builds hbuild)
        cases hr.symm.trans hu
      rw [building, hr, hnot]
      rfl
    · exact building_of_running hr
  refine h.moves he hr hr' (fun p b => ?_) (fun u p _ hu => ?_) (fun p hp => ?_) ?_
  · rw [hl, Journal.loaded_cons_of_none hb]
    exact h.kept p b
  · rw [hl]
    exact h.loading u p hu
  · rw [hl]
    exact h.loading t p (hloads ▸ hp)
  · rw [hl, hf, hbuilds, ← hbuilding]
    exact h.counted

/-- A request that loads nothing is answered. -/
theorem quiet {q : Request} {k : q.Answer → Act (Except Failure Next)}
    {ks : List (Outcome → Act (Except Failure Next))} (h : m.Shelved J) (hp : m.Proper J w)
    (hr : m.running = some (t, ⟨.ask q k, ks⟩)) (hq : q.loads = false) (a : q.Answer)
    (hl : m'.library = m.library) : (m'.run t θ').Shelved (.answered t q a :: J) := by
  obtain ⟨hloads, hbuilds⟩ := Phase.next_of_not_loads a hq (hp.due hr)
  rw [← (hp.running t _ hr).phase_answered a] at hloads hbuilds
  exact h.unmoved rfl (.inr ⟨_, hr⟩) rfl hl (Entry.brings?_of_not_loads a hq)
    (Journal.failedBuilds_of_not_loads a hq) hloads hbuilds

theorem counted_of_idle (h : m.Shelved J) (hr : m.running = some (t, θ))
    (hφ : (J.phase t).builds = false) :
    m.library.parseCount = m.library.cached.length + J.failedBuilds := by
  have hcounted := h.counted
  rw [building_of_running hr, hφ] at hcounted
  exact hcounted

/-- A task is given what was kept. -/
theorem cached (h : m.Shelved J) (hr : m.running = some (t, θ)) (hl : m'.library = m.library)
    (hφ : J.phase t = .outside)
    (hφ' : Journal.phase (.answered t (.claim p) (some b) :: J) t = .outside) (hb : m.library.body? p = some b) :
    (m'.run t θ').Shelved (.answered t (.claim p) (some b) :: J) := by
  refine h.moves rfl (.inr ⟨_, hr⟩) rfl (fun p' b' => ?_) (fun u p' _ hu => ?_) (fun p' hp' => ?_) ?_
  · rw [run, hl, Journal.loaded_cons, h.kept]
    constructor
    · exact .inr
    · rintro (⟨q, hq, hsame⟩ | hloaded)
      · cases hq
        exact ((h.kept p b).1 hb).congr hsame
      · exact hloaded
  · rw [run, hl]
    exact h.loading u p' hu
  · rw [hφ'] at hp'
    cases hp'
  · rw [run, hl, hφ']
    exact h.counted_of_idle hr (by rw [hφ]; rfl)

/-- Two tasks do not load the same. -/
theorem not_same (h : m.Shelved J) {p' : Path} (hu : u ≠ t)
    (hl : ∀ v, m.library.loader? p = some v → v = t) (hp' : (J.phase u).loads? = some p') :
    ¬ p.same p' := by
  intro hsame
  have hloader := (h.loading u p' hp').2
  rw [← Library.loader?_congr hsame] at hloader
  exact hu (hl u hloader)

/-- A task is to load what was not kept. -/
theorem granted {library : Library} (h : m.Shelved J) (hr : m.running = some (t, θ))
    (hg : m.library.Grants p t library) (hl : m'.library = library) (hφ : J.phase t = .outside)
    (hφ' : Journal.phase (.answered t (.claim p) none :: J) t = .granted p) :
    (m'.run t θ').Shelved (.answered t (.claim p) none :: J) := by
  refine h.moves rfl (.inr ⟨_, hr⟩) rfl (fun p' b' => ?_) (fun u p' hu hu' => ?_) (fun p' hp' => ?_) ?_
  · rw [run, hl, hg.bodies, Journal.loaded_cons_of_none rfl]
    exact h.kept p' b'
  · rw [run, hl, hg.bodies, hg.others p' (h.not_same hu hg.loader hu')]
    exact h.loading u p' hu'
  · rw [hφ'] at hp'
    cases hp'
    rw [run, hl, hg.bodies]
    exact ⟨hg.body, hg.loads⟩
  · rw [run, hl, hφ', hg.cached, hg.parseCount]
    exact h.counted_of_idle hr (by rw [hφ]; rfl)

/-- A text that was read is given to the builder. -/
theorem countParse {text : String} (h : m.Shelved J) (hr : m.running = some (t, θ))
    (hl : m'.library = m.library.countParse) (hφ : J.phase t = .holding p text)
    (hφ' : Journal.phase (.answered t .countParse () :: J) t = .building p text none) :
    (m'.run t θ').Shelved (.answered t .countParse () :: J) := by
  refine h.moves rfl (.inr ⟨_, hr⟩) rfl (fun p' b' => ?_) (fun u p' _ hu => ?_) (fun p' hp' => ?_) ?_
  · rw [run, hl, Journal.loaded_cons_of_none rfl]
    exact h.kept p' b'
  · rw [run, hl]
    exact h.loading u p' hu
  · rw [hφ'] at hp'
    cases hp'
    rw [run, hl]
    exact h.loading t p (by rw [hφ]; rfl)
  · have hcounted := h.counted_of_idle hr (by rw [hφ]; rfl)
    rw [run, hl, hφ']
    exact congrArg (· + 1) hcounted

/-- The task that loads a module keeps its body. -/
theorem publish {text : String} {strict : Option Bool} (h : m.Shelved J) (hd : m.library.Distinct)
    (hr : m.running = some (t, θ)) (hl : m'.library = (m.library.publish p b).1)
    (hφ : J.phase t = .building p text strict)
    (hφ' : Journal.phase (.answered t (.publish p b) () :: J) t = .outside) :
    (m'.run t θ').Shelved (.answered t (.publish p b) () :: J) := by
  obtain ⟨hbody, hloader⟩ := h.loading t p (by rw [hφ]; rfl)
  have hmine : ∀ v, m.library.loader? p = some v → v = t := fun v hv =>
    Option.some.inj (hv.symm.trans hloader)
  refine h.moves rfl (.inr ⟨_, hr⟩) rfl (fun p' b' => ?_) (fun u p' hu hu' => ?_) (fun p' hp' => ?_) ?_
  · rw [run, hl, Journal.loaded_cons]
    by_cases hsame : p.same p'
    · have hnone : ¬ J.Loaded p' b' := by
        rw [← h.kept, ← Library.body?_congr hsame, hbody]
        exact (Option.some_ne_none b').symm
      rw [Library.body?_publish_same (by rw [hloader]; rfl) hsame]
      constructor
      · rintro ⟨⟩
        exact .inl ⟨p, rfl, hsame⟩
      · rintro (⟨q, hq, _⟩ | hloaded)
        · cases hq
          rfl
        · exact absurd hloaded hnone
    · rw [Library.body?_publish_other hsame, h.kept]
      constructor
      · exact .inr
      · rintro (⟨q, hq, hsame'⟩ | hloaded)
        · cases hq
          exact absurd hsame' hsame
        · exact hloaded
  · have hne := h.not_same hu hmine hu'
    rw [run, hl, Library.body?_publish_other hne, Library.loader?_publish_other hne]
    exact h.loading u p' hu'
  · rw [hφ'] at hp'
    cases hp'
  · obtain ⟨s, hs, hsl⟩ := Option.bind_eq_some_iff.1 hloader
    have hsb : s.body = none := by
      rw [Library.body?, hs] at hbody
      exact hbody
    have hcounted : m.library.parseCount = m.library.cached.length + J.failedBuilds + 1 := by
      have hall := h.counted
      rw [building_of_running hr, hφ] at hall
      exact hall
    rw [run, hl, hφ', Library.length_cached_publish hd hs hsb]
    exact hcounted.trans (Nat.add_right_comm ..)

/-- The task that loads a module gives up. -/
theorem giveUp (h : m.Shelved J) (hr : m.running = some (t, θ))
    (hl : m'.library = (m.library.giveUp p).1) (hφ : (J.phase t).loads? = some p)
    (hφ' : Journal.phase (.answered t (.giveUp p) () :: J) t = .outside) :
    (m'.run t θ').Shelved (.answered t (.giveUp p) () :: J) := by
  obtain ⟨hbody, hloader⟩ := h.loading t p hφ
  have hmine : ∀ v, m.library.loader? p = some v → v = t := fun v hv =>
    Option.some.inj (hv.symm.trans hloader)
  refine h.moves rfl (.inr ⟨_, hr⟩) rfl (fun p' b' => ?_) (fun u p' hu hu' => ?_) (fun p' hp' => ?_) ?_
  · rw [run, hl, Library.body?_giveUp, Journal.loaded_cons_of_none rfl]
    exact h.kept p' b'
  · rw [run, hl, Library.body?_giveUp, Library.loader?_giveUp_other (h.not_same hu hmine hu')]
    exact h.loading u p' hu'
  · rw [hφ'] at hp'
    cases hp'
  · have hcounted := h.counted
    rw [building_of_running hr] at hcounted
    rw [run, hl, hφ', Library.cached_giveUp]
    exact hcounted.trans (Nat.add_assoc ..)

/-- Whatever is answered, the library holds what is told. -/
theorem serves {q : Request} {a : q.Answer} {k : q.Answer → Act (Except Failure Next)}
    {ks : List (Outcome → Act (Except Failure Next))} (h : m.Shelved J) (hp : m.Proper J w)
    (hd : m.library.Distinct) (hr : m.running = some (t, ⟨.ask q k, ks⟩))
    (hs : Serves { m with running := none } t q log a m') :
    (m'.run t ⟨k a, ks⟩).Shelved (.answered t q a :: J) := by
  have hdue := hp.due hr
  have hphase := (hp.running t _ hr).phase_answered a
  cases hs with
  | await hread =>
    obtain ⟨tasks, ready, rfl⟩ := readCell_eq hread
    exact h.quiet hp hr rfl _ rfl
  | cached hc =>
    obtain ⟨rfl, hb⟩ := Library.claim_cached hc
    rw [show J.phase t = .outside from hdue] at hphase
    exact h.cached hr rfl hdue hphase hb
  | granted hc =>
    exact h.granted hr (Library.claim_granted hc) rfl hdue hphase
  | countParse =>
    obtain ⟨p, text, hφ⟩ := hdue
    rw [hφ] at hphase
    exact h.countParse hr rfl hφ hphase
  | publish path body =>
    obtain ⟨text, strict, hφ, _⟩ := hdue
    exact h.publish hd hr rfl hφ hphase
  | giveUp path =>
    exact h.giveUp hr (wake_library _ _) (Request.loads_of_giveUp hdue) hphase
  | _ => exact h.quiet hp hr rfl _ rfl

/-- The running task waits, gives way or ends. -/
theorem rests (h : m.Shelved J) (hp : m.Proper J w) (hr : m.running = some (t, θ))
    (hg : Goes { m with running := none } t θ log m') (hm' : m'.running = none) : m'.Shelved J := by
  have hθ := hp.running t θ hr
  have hkept : ∀ {l : Library}, (∀ q, l.body? q = m.library.body? q) →
      (∀ q, l.loader? q = m.library.loader? q) → l.cached = m.library.cached →
      l.parseCount = m.library.parseCount → m'.library = l → (J.phase t).asked = false →
      m'.Shelved J := by
    intro l hbodies hloaders hcached hcount hl hφ
    have hbuilds : (J.phase t).builds = false :=
      Bool.eq_false_iff.2 fun hbuild => by simp [Phase.asked_of_builds hbuild] at hφ
    refine ⟨fun p b => ?_, fun u p hu => ?_, fun u hu => ?_, ?_⟩
    · rw [hl, hbodies]
      exact h.kept p b
    · rw [hl, hbodies, hloaders]
      exact h.loading u p hu
    · obtain ⟨θ', hu'⟩ := h.alone u hu
      cases hr.symm.trans hu'
      simp [hφ] at hu
    · rw [hl, hcached, hcount, building, hm']
      exact h.counted_of_idle hr hbuilds
  have hsame : m'.library = m.library → (J.phase t).asked = false → m'.Shelved J :=
    hkept (fun _ => rfl) (fun _ => rfl) rfl rfl
  cases hg with
  | turns _ => cases hm'
  | served _ => cases hm'
  | awaits hread =>
    have hidle : (J.phase t).loads? = none := hp.due hr
    obtain ⟨tasks, ready, rfl⟩ := readCell_eq hread
    exact hsame rfl (Phase.not_asked_of_idle hidle)
  | claims hc =>
    have hw := Library.claim_wait hc
    have hφ : J.phase t = .outside := hp.due hr
    exact hkept hw.bodies hw.loaders hw.cached hw.parseCount rfl (by rw [hφ]; rfl)
  | givesWay =>
    have hidle : (J.phase t).loads? = none := hp.due hr
    exact hsame rfl (Phase.not_asked_of_idle hidle)
  | reads =>
    have hφ := hp.due hr
    exact hsame rfl (by rw [show J.phase t = .granted _ from hφ]; rfl)
  | @ends _ o hover =>
    obtain ⟨tasks, ready, he⟩ := finish_eq { m with running := none } t o
    exact hsame (he ▸ rfl) (Phase.not_asked_of_idle (hθ.idle_of_over hover))

theorem not_asked (h : m.Shelved J) (hr : m.running = none) (u : TaskId) :
    (J.phase u).asked = false := by
  refine Bool.eq_false_iff.2 fun hu => ?_
  obtain ⟨θ, hu⟩ := h.alone u hu
  cases hr.symm.trans hu

/-- A task is taken up, or nothing is. -/
theorem takes (h : m.Shelved J) (hr : m.running = none) (hl : m'.library = m.library) :
    m'.Shelved J := by
  have hbuilding : m'.building J = 0 := by
    unfold building
    split
    · next t _ _ =>
      refine if_neg fun hbuild => ?_
      cases (Phase.asked_of_builds hbuild).symm.trans (h.not_asked hr t)
    · rfl
  refine ⟨fun p b => ?_, fun u p hu => ?_, fun u hu => ?_, ?_⟩
  · rw [hl]
    exact h.kept p b
  · rw [hl]
    exact h.loading u p hu
  · cases hu.symm.trans (h.not_asked hr u)
  · have hcounted := h.counted
    rw [building, hr] at hcounted
    rw [hl, hbuilding]
    exact hcounted

theorem tells (h : m.Shelved J) (hp : m.Proper J w) (hd : m.library.Distinct)
    (ht : m.Tells es m') : m'.Shelved (es ++ J) := by
  cases ht with
  | @turns t θ θ' turn hr hturn =>
    obtain ⟨hidle, hidle'⟩ := (hp.running t θ hr).idle_of_takes hturn
    rw [← Journal.phases_turned] at hidle'
    refine h.unmoved rfl (.inr ⟨θ, hr⟩) rfl rfl rfl rfl (hidle'.trans hidle.symm) ?_
    exact (Phase.not_builds_of_idle hidle').trans (Phase.not_builds_of_idle hidle).symm
  | serves hr hs => exact h.serves hp hd hr hs
  | rests hr hg hm' => exact h.rests hp hr hg hm'
  | @takes t _ _ ready hr _ _ =>
    obtain ⟨tasks, running, he, _⟩ := resume_eq { m with ready } t
    exact h.takes hr (he ▸ rfl)
  | @reads r front back a hr hm =>
    have hr' : r ∈ m.reading := by simp [hm]
    have hφ := hp.granted_of_reading hr'
    obtain ⟨k, ks, _, hθ⟩ := hp.reading r hr'
    have hφ' := hθ.phase_answered (q := .world (.content r.path)) a
    refine h.unmoved rfl (.inl hr) rfl rfl rfl rfl ?_ ?_
    · rw [hφ', hφ]
      cases a <;> rfl
    · rw [hφ', hφ]
      cases a <;> rfl

/-- What is done from outside concerns no loading. -/
theorem hosts (h : m.Shelved J) (hh : m.Hosts es m') : m'.Shelved (es ++ J) := by
  have hsame : ∀ {e : Entry}, e.task? = none → e.brings? = none →
      Journal.failedBuilds (e :: J) = J.failedBuilds → m'.library = m.library →
      m'.running = m.running → m'.Shelved (e :: J) := by
    intro e he hb hf hl hr
    have hphase : ∀ u, Journal.phase (e :: J) u = J.phase u := fun u =>
      Journal.phase_cons_of_ne (by simp [he])
    refine ⟨fun p b => ?_, fun u p hu => ?_, fun u hu => ?_, ?_⟩
    · rw [hl, Journal.loaded_cons_of_none hb]
      exact h.kept p b
    · rw [hl]
      exact h.loading u p (hphase u ▸ hu)
    · rw [hr]
      exact h.alone u (hphase u ▸ hu)
    · rw [hl, hf, building, hr]
      simp only [hphase]
      exact h.counted
  cases hh with
  | starts job => exact hsame rfl rfl rfl rfl rfl
  | opens body => exact hsame rfl rfl rfl rfl rfl
  | declares name v => exact hsame rfl rfl rfl rfl rfl
  | notes notes => exact ⟨h.kept, h.loading, h.alone, h.counted⟩

end Shelved

theorem Unfolds.shelved (h : Unfolds J m) : m.Shelved J := by
  induction h with
  | start settings world =>
    refine ⟨fun p b => ⟨nofun, fun ⟨e, he, _⟩ => absurd he List.not_mem_nil⟩, nofun, nofun, rfl⟩
  | hosts _ hh ih => exact ih.hosts hh
  | tells hprev ht ih => exact ih.tells hprev.proper_any hprev.orderly.2.distinct ht

end Machine

end Concatenative
