import Concatenative.Proofs.Correspondence.Thread
import Concatenative.Proofs.Tasks

/-! Machines whose tasks keep to terms. `Known` are the frames and the tasks that the code of a run
can get hold of. As long as all of these hold only values that keep to the terms, and every thread
asks only for what the terms allow, no move makes it otherwise: whatever is answered is known, and
what is new becomes known. Main statement: machines keep to their terms in any order of the moves
(`Keeps.runs`). -/
namespace Concatenative

/-- What the code of a run can get hold of, and the task that runs the program. -/
structure Known where
  frames : FrameId → Prop
  tasks : TaskId → Prop
  main : TaskId

namespace Known

/-- Each name that is known stands for itself. -/
def itself (K : Known) : Correspondence where
  stamps := Eq
  frames f g := f = g ∧ K.frames f
  tasks t u := t = u ∧ K.tasks t
  unique := by
    rintro a _ b _ rfl rfl
    exact Iff.rfl

instance : LE Known :=
  ⟨fun K L => (∀ f, K.frames f → L.frames f) ∧ (∀ t, K.tasks t → L.tasks t) ∧ L.main = K.main⟩

variable {K L M : Known}

theorem le_refl (K : Known) : K ≤ K := ⟨fun _ => id, fun _ => id, rfl⟩

theorem le_trans (h : K ≤ L) (h' : L ≤ M) : K ≤ M :=
  ⟨fun f hf => h'.1 f (h.1 f hf), fun t ht => h'.2.1 t (h.2.1 t ht), h'.2.2.trans h.2.2⟩

theorem itself_mono (h : K ≤ L) : K.itself ≤ L.itself :=
  ⟨fun _ _ => id, fun _ _ hf => ⟨hf.1, h.1 _ hf.2⟩, fun _ _ ht => ⟨ht.1, h.2.1 _ ht.2⟩⟩

/-- A frame more. -/
def withFrame (K : Known) (f : FrameId) : Known := { K with frames := fun g => K.frames g ∨ g = f }

/-- A task more. -/
def withTask (K : Known) (t : TaskId) : Known := { K with tasks := fun u => K.tasks u ∨ u = t }

theorem le_withFrame (K : Known) (f : FrameId) : K ≤ K.withFrame f :=
  ⟨fun _ => .inl, fun _ => id, rfl⟩

theorem le_withTask (K : Known) (t : TaskId) : K ≤ K.withTask t :=
  ⟨fun _ => id, fun _ => .inl, rfl⟩

/-- The task that runs the program, and those that were started since. -/
def Role (K : Known) (t : TaskId) : Bool → Prop
  | true => t = K.main
  | false => K.tasks t

/-- A thread of a task keeps to the terms. -/
def Live (p : Terms) (K : Known) (t : TaskId) (θ : Thread) : Prop :=
  ∃ program, K.Role t program ∧ Thread.Alike p program K.itself θ θ

theorem Role.mono {t : TaskId} {program : Bool} (h : K ≤ L) (hr : K.Role t program) :
    L.Role t program := by
  cases program with
  | true => exact hr.trans h.2.2.symm
  | false => exact h.2.1 t hr

theorem Live.mono {p : Terms} {t : TaskId} {θ : Thread} (h : K ≤ L) (hl : Live p K t θ) :
    Live p L t θ := by
  obtain ⟨program, hr, ht⟩ := hl
  exact ⟨program, hr.mono h, ht.mono (itself_mono h)⟩

end Known

/-! ## Frames -/

/-- What a known frame holds. -/
structure Frame.Keeps (p : Terms) (K : Known) (f : FrameId) (frame : Frame) : Prop where
  bindings : ∀ b ∈ frame.bindings, b.2.Alike p K.itself b.2
  input : ∀ d, frame.input = some d → d.Alike p K.itself d
  parent : ∀ g, frame.parent = some g → g < f → K.frames g

variable {p : Terms} {K L : Known} {m m' : Machine} {t : TaskId} {log : List Asked}

theorem Frame.Keeps.mono {f : FrameId} {frame : Frame} (h : K ≤ L) (hf : frame.Keeps p K f) :
    frame.Keeps p L f :=
  ⟨fun b hb => (hf.bindings b hb).mono (Known.itself_mono h),
    fun d hd => (hf.input d hd).mono (Known.itself_mono h),
    fun g hg hlt => h.1 g (hf.parent g hg hlt)⟩

namespace Scope

variable {s : Scope} {f : FrameId} {name : String} {d : Deferred}

/-- All known frames are there and hold what they may. -/
def Keeps (p : Terms) (K : Known) (s : Scope) : Prop :=
  ∀ f, K.frames f → ∃ frame, s.frames[f]? = some frame ∧ frame.Keeps p K f

theorem Keeps.mono (h : s.Keeps p K) (hle : K ≤ L) (hf : L.frames = K.frames) : s.Keeps p L := by
  intro f hL
  obtain ⟨frame, hs, hk⟩ := h f (hf ▸ hL)
  exact ⟨frame, hs, hk.mono hle⟩

theorem Keeps.lt (h : s.Keeps p K) (hf : K.frames f) : f < s.frames.size := by
  obtain ⟨frame, hs, _⟩ := h f hf
  exact (Array.getElem?_eq_some_iff.1 hs).1

/-- The way from a known frame to the root leads through known frames. -/
theorem Keeps.chain (h : s.Keeps p K) (hf : K.frames f) :
    ∀ x ∈ s.chain f, K.frames x.1 ∧ x.2.Keeps p K x.1 := by
  induction f using Nat.strongRecOn with
  | ind f ih =>
    obtain ⟨frame, hs, hk⟩ := h f hf
    cases hp : frame.parent with
    | none =>
      rw [chain_root hs hp]
      intro x hx
      cases List.mem_singleton.1 hx
      exact ⟨hf, hk⟩
    | some g =>
      by_cases hlt : g < f
      · rw [chain_child hs hp hlt]
        intro x hx
        rcases List.mem_cons.1 hx with rfl | hx
        · exact ⟨hf, hk⟩
        · exact ih g hlt (hk.parent g hp hlt) x hx
      · rw [chain_cut hs hp hlt]
        intro x hx
        cases List.mem_singleton.1 hx
        exact ⟨hf, hk⟩

theorem Keeps.lookup (h : s.Keeps p K) (hf : K.frames f) (name : String) :
    Matches (Failure.Placed p) (Deferred.Alike p K.itself) (s.lookup f name) (s.lookup f name) := by
  unfold Scope.lookup
  split
  · next d hd =>
    obtain ⟨x, hx, hg⟩ := List.exists_of_findSome?_eq_some hd
    obtain ⟨_, _, hb, _⟩ := List.lookup_eq_some_iff.1 hg
    refine .ok ((h.chain hf x hx).2.bindings (name, d) ?_)
    rw [hb]
    simp
  · exact .cause _

theorem Keeps.input (h : s.Keeps p K) (hf : K.frames f) :
    Matches (Failure.Placed p) (Deferred.Alike p K.itself) (s.input f) (s.input f) := by
  unfold Scope.input
  split
  · next d hd =>
    obtain ⟨x, hx, hi⟩ := List.exists_of_findSome?_eq_some hd
    exact .ok ((h.chain hf x hx).2.input d hi)
  · exact .cause _

theorem Keeps.rootOf (h : s.Keeps p K) (hf : K.frames f) : K.frames (s.rootOf f) := by
  unfold Scope.rootOf
  cases hl : (s.chain f).getLast? with
  | none => exact hf
  | some x => exact (h.chain hf x (List.mem_of_getLast? hl)).1

/-- A new frame under a known one becomes known. -/
theorem Keeps.add (h : s.Keeps p K) {frame : Frame} {g : FrameId} (hg : K.frames g)
    (hp : frame.parent = some g) (hb : frame.bindings = [])
    (hi : ∀ d, frame.input = some d → d.Alike p K.itself d) :
    (s.add frame).2.Keeps p (K.withFrame (s.add frame).1) := by
  have hle := K.le_withFrame (s.add frame).1
  have hnew : frame.Keeps p K s.frames.size := by
    refine ⟨fun b hb' => ?_, hi, fun g' hg' => ?_⟩
    · rw [hb] at hb'
      cases hb'
    · rw [hp] at hg'
      cases hg'
      exact fun _ => hg
  rintro f (hf | rfl)
  · obtain ⟨frame', hs, hk⟩ := h f hf
    refine ⟨frame', ?_, hk.mono hle⟩
    simp only [Scope.add]
    rw [Array.getElem?_push_lt (h.lt hf), ← hs, Array.getElem?_eq_getElem (h.lt hf)]
  · exact ⟨frame, Array.getElem?_push_size, hnew.mono hle⟩

/-- A change of the bindings of a frame. -/
theorem Keeps.modify (h : s.Keeps p K) (f : FrameId) {change : Frame → Frame}
    (hc : ∀ g frame, frame.Keeps p K g → (change frame).Keeps p K g) :
    Keeps p K ⟨s.frames.modify f change⟩ := by
  intro g hg
  obtain ⟨frame, hs, hk⟩ := h g hg
  simp only [Array.getElem?_modify, hs]
  split
  · exact ⟨change frame, rfl, hc g frame hk⟩
  · exact ⟨frame, rfl, hk⟩

theorem Keeps.declare (h : s.Keeps p K) (f : FrameId) (name : String)
    (hd : d.Alike p K.itself d) :
    Matches (Failure.Placed p) Eq (s.declare f name d).1 (s.declare f name d).1 ∧
      (s.declare f name d).2.Keeps p K := by
  unfold Scope.declare
  split
  · exact ⟨.cause _, h⟩
  · refine ⟨.ok rfl, h.modify f fun g frame hk => ⟨?_, hk.input, hk.parent⟩⟩
    exact List.forall_mem_cons.2 ⟨hd, hk.bindings⟩

theorem Keeps.rebind (h : s.Keeps p K) (f : FrameId) (name : String)
    (hd : d.Alike p K.itself d) :
    Matches (Failure.Placed p) Eq (s.rebind f name d).1 (s.rebind f name d).1 ∧
      (s.rebind f name d).2.Keeps p K := by
  unfold Scope.rebind
  split
  · refine ⟨.ok rfl, h.modify _ fun g frame hk => ⟨?_, hk.input, hk.parent⟩⟩
    intro b hb
    obtain ⟨b', hb', rfl⟩ := List.mem_map.1 hb
    split
    · exact hd
    · exact hk.bindings b' hb'
  · exact ⟨.cause _, h⟩

end Scope

/-! ## Modules -/

namespace Library

/-- The bodies that are kept keep to the terms. -/
def Keeps (p : Terms) (l : Library) : Prop := ∀ s ∈ l.shelves, ∀ b, s.body = some b → b.Fits p

variable {l : Library}

theorem Keeps.update {path : Path} {change : Shelf → Shelf} (h : l.Keeps p)
    (hc : ∀ s b, (change s).body = some b → s.body = some b ∨ b.Fits p) :
    (l.update path change).Keeps p := by
  intro s hs b hb
  obtain ⟨s', hs', rfl⟩ := List.mem_map.1 hs
  split at hb
  · rcases hc s' b hb with hb' | hb'
    · exact h s' hs' b hb'
    · exact hb'
  · exact h s' hs' b hb

theorem Keeps.claim (h : l.Keeps p) (path : Path) (task : TaskId) :
    (l.claim path task).1.Keeps p ∧ ∀ b, (l.claim path task).2 = .cached b → b.Fits p := by
  unfold Library.claim
  cases hs : l.shelf? path with
  | none =>
    refine ⟨List.forall_mem_cons.2 ⟨fun b hb => ?_, h⟩, fun b hb => ?_⟩
    · cases hb
    · cases hb
  | some s =>
    have hmem : s ∈ l.shelves := List.mem_of_find?_eq_some hs
    cases hb : s.body with
    | some body =>
      dsimp only
      rw [hb]
      refine ⟨h, fun b hb' => ?_⟩
      cases hb'
      exact h s hmem body hb
    | none =>
      cases hl : s.loader with
      | none =>
        simp only [hb, hl]
        exact ⟨h.update fun s b hb => .inl hb, fun b hb => by cases hb⟩
      | some loader =>
        simp only [hb, hl]
        split
        · exact ⟨h, fun b hb => by cases hb⟩
        · exact ⟨h.update fun s b hb => .inl hb, fun b hb => by cases hb⟩

theorem Keeps.publish {body : Body} (h : l.Keeps p) (path : Path) (hb : body.Fits p) :
    (l.publish path body).1.Keeps p := by
  refine h.update fun s b hb' => .inr ?_
  cases hb'
  exact hb

theorem Keeps.giveUp (h : l.Keeps p) (path : Path) : (l.giveUp path).1.Keeps p :=
  h.update fun _ _ hb => .inl hb

end Library

/-! ## Machines -/

theorem Thread.Over.eq {θ : Thread} {o o' : Outcome} (h : θ.Over o) (h' : θ.Over o') : o = o' := by
  cases h <;> cases h' <;> rfl

theorem Thread.Turns.eq {θ θ₁ θ₂ : Thread} (h : θ.Turns θ₁) (h' : θ.Turns θ₂) : θ₁ = θ₂ := by
  cases h <;> cases h' <;> rfl

/-- An answer of the surroundings that the terms admit: text of a module that keeps to them, and from
an added word what can be made of its input and of what is known. -/
def Terms.AdmitsAnswer (p : Terms) (K : Known) : Asked → Prop
  | ⟨.content path, a⟩ => ∀ text, a = .ok text → p.Admits path.text text
  | ⟨.word _ x, o⟩ => ∀ L, K ≤ L → InputAlike p L.itself x x → Outcome.Alike p L.itself o o
  | _ => True

theorem Terms.AdmitsAnswer.mono {x : Asked} (h : K ≤ L) (hx : p.AdmitsAnswer K x) :
    p.AdmitsAnswer L x := by
  obtain ⟨q, a⟩ := x
  cases q with
  | word name x => exact fun M hM => hx M (Known.le_trans h hM)
  | _ => exact hx

namespace Machine

/-- All that is known keeps to the terms. -/
structure Keeps (p : Terms) (K : Known) (m : Machine) : Prop where
  scope : m.scope.Keeps p K
  library : p.loads → m.library.Keeps p
  tasks : ∀ u, K.tasks u → ∃ s l, m.stand u = some s ∧ s.origin = some l ∧ p.places l
  main : ∃ s, m.stand K.main = some s ∧ s.origin = none
  threads : ∀ u s θ, m.stand u = some s → s.thread = some θ → K.Live p u θ
  results : ∀ u s o, m.stand u = some s → s.result = some o → K.tasks u ∨ u = K.main →
    Outcome.Settles p K.itself o o
  running : ∀ u θ, m.running = some (u, θ) → K.Live p u θ
  reading : ∀ r ∈ m.reading, ∀ a, p.AdmitsAnswer K ⟨.content r.path, a⟩ → K.Live p r.task (r.resume a)

/-- More is known, and there may be tasks that were not there before. -/
theorem Keeps.grow (h : m.Keeps p K) (hle : K ≤ L) (hs : m'.scope.Keeps p L)
    (hl : p.loads → m'.library.Keeps p) (hr : m'.running = m.running)
    (hread : m'.reading = m.reading)
    (hold : ∀ u s, m.stand u = some s → m'.stand u = some s)
    (hnew : ∀ u s, m'.stand u = some s → m.stand u = some s ∨
      s.result = none ∧ ∀ θ, s.thread = some θ → L.Live p u θ)
    (ht : ∀ u, L.tasks u → K.tasks u ∨ ∃ s l, m'.stand u = some s ∧ s.origin = some l ∧
      p.places l ∧ s.result = none) : m'.Keeps p L := by
  have hi := Known.itself_mono hle
  refine ⟨hs, hl, fun u hu => ?_, ?_, fun u s θ hu hθ => ?_, fun u s o hu ho hk => ?_,
    fun u θ hu => ?_, fun r hr' a ha => ?_⟩
  · rcases ht u hu with hu | ⟨s, l, hu, ho, hp, _⟩
    · obtain ⟨s, l, hu, ho⟩ := h.tasks u hu
      exact ⟨s, l, hold u s hu, ho⟩
    · exact ⟨s, l, hu, ho, hp⟩
  · obtain ⟨s, hm, ho⟩ := h.main
    rw [hle.2.2]
    exact ⟨s, hold _ s hm, ho⟩
  · rcases hnew u s hu with hu | ⟨_, hθ'⟩
    · exact (h.threads u s θ hu hθ).mono hle
    · exact hθ' θ hθ
  · rcases hnew u s hu with hu' | ⟨hn, _⟩
    · rcases hk with hk | rfl
      · rcases ht u hk with hk | ⟨s', l, hs', _, _, hn⟩
        · exact (h.results u s o hu' ho (.inl hk)).mono hi
        · rw [hu] at hs'
          cases hs'
          rw [hn] at ho
          cases ho
      · exact (h.results _ s o hu' ho (.inr hle.2.2)).mono hi
    · rw [hn] at ho
      cases ho
  · exact (h.running u θ (hr ▸ hu)).mono hle
  · exact (h.reading r (hread ▸ hr') a ha).mono hle

/-- A machine in which tasks stand as before. -/
theorem Keeps.congr (h : m.Keeps p K) (hle : K ≤ L) (ht : L.tasks = K.tasks)
    (hs : m'.scope.Keeps p L) (hl : p.loads → m'.library.Keeps p)
    (hst : ∀ u, m'.stand u = m.stand u)
    (hr : m'.running = m.running) (hread : m'.reading = m.reading) : m'.Keeps p L :=
  h.grow hle hs hl hr hread (fun u _ hu => (hst u).trans hu) (fun u _ hu => .inl ((hst u).symm.trans hu))
    (fun _ hu => .inl (ht ▸ hu))

theorem Keeps.run {θ : Thread} (h : m.Keeps p K) (hl : K.Live p t θ) : (m.run t θ).Keeps p K := by
  refine ⟨h.scope, h.library, h.tasks, h.main, h.threads, h.results, fun u θ' hu => ?_, h.reading⟩
  cases hu
  exact hl

/-- A change of where one task stands, which keeps its origin. -/
theorem Keeps.stand (h : m.Keeps p K) {g : Stand → Stand} (hs : m'.scope = m.scope)
    (hl : m'.library = m.library) (hr : m'.running = none) (hread : m'.reading = m.reading)
    (hst : ∀ u, m'.stand u = if t = u then (m.stand u).map g else m.stand u)
    (ho : ∀ s, (g s).origin = s.origin)
    (hθ : ∀ s θ, m.stand t = some s → (g s).thread = some θ → K.Live p t θ)
    (hres : ∀ s o, m.stand t = some s → (g s).result = some o → K.tasks t ∨ t = K.main →
      Outcome.Settles p K.itself o o) : m'.Keeps p K := by
  have horigin : ∀ u s, m.stand u = some s → ∃ s', m'.stand u = some s' ∧ s'.origin = s.origin := by
    intro u s hu
    rw [hst, hu]
    split
    · exact ⟨g s, rfl, ho s⟩
    · exact ⟨s, rfl, rfl⟩
  refine ⟨hs ▸ h.scope, hl ▸ h.library, fun u hu => ?_, ?_, fun u s θ hu hth => ?_,
    fun u s o hu hso hk => ?_, fun u θ hu => ?_, hread ▸ h.reading⟩
  · obtain ⟨s, l, hu, hl, hp⟩ := h.tasks u hu
    obtain ⟨s', hu', ho'⟩ := horigin u s hu
    exact ⟨s', l, hu', ho'.trans hl, hp⟩
  · obtain ⟨s, hm, hn⟩ := h.main
    obtain ⟨s', hm', ho'⟩ := horigin _ s hm
    exact ⟨s', hm', ho'.trans hn⟩
  · rcases stand_of_change hst hu with ⟨s₀, rfl, hs₀, rfl⟩ | hold
    · exact hθ s₀ θ hs₀ hth
    · exact h.threads u s θ hold hth
  · rcases stand_of_change hst hu with ⟨s₀, rfl, hs₀, rfl⟩ | hold
    · exact hres s₀ o hs₀ hso hk
    · exact h.results u s o hold hso hk
  · rw [hr] at hu
    cases hu

theorem Keeps.suspend {θ : Thread} (h : m.Keeps p K) (hm : m.running = none)
    (hl : K.Live p t θ) : (m.suspend t θ).Keeps p K := by
  refine h.stand (t := t) (g := ({ · with thread := some θ })) rfl rfl hm rfl
    (fun u => stand_suspend m t u θ) (fun _ => rfl) (fun s θ' _ hθ' => ?_) (h.results t)
  cases hθ'
  exact hl

theorem Keeps.claim {path : Path} {library : Library} {c : Library.Claim} (h : m.Keeps p K)
    (hc : m.library.claim path t = (library, c)) : Keeps p K { m with library } := by
  refine h.congr (Known.le_refl K) rfl h.scope (fun hp => ?_) (fun _ => rfl) rfl rfl
  have hlib := ((h.library hp).claim path t).1
  rwa [hc] at hlib

theorem Keeps.wake (h : m.Keeps p K) (woken : Option TaskId) : (m.wake woken).Keeps p K := by
  obtain ⟨ready, hw⟩ := wake_eq m woken
  rw [hw]
  exact h.congr (Known.le_refl K) rfl h.scope h.library (fun _ => rfl) rfl rfl

/-- A failure of a task that was started is blamed on the place where it was started. -/
theorem settles_orAt {ρ : Correspondence} {o o' : Outcome} {l : Location} (hl : p.places l)
    (ho : Outcome.Alike p ρ o o') : Outcome.Settles p ρ (o.orAt l) (o'.orAt l) := by
  cases ho with
  | ok hv => exact .ok hv
  | error he => exact .error (he.orAt hl)

theorem Keeps.finish {θ : Thread} {o : Outcome} (h : m.Keeps p K) (hm : m.running = none)
    (hl : K.Live p t θ) (ho : θ.Over o) : (m.finish t o).Keeps p K := by
  obtain ⟨tasks, ready, he⟩ := finish_eq m t o
  refine h.stand (t := t) (g := fun s => ⟨s.origin, none, some (s.close o)⟩) (he ▸ rfl) (he ▸ rfl)
    (he ▸ hm) (he ▸ rfl) (fun u => stand_finish m t u o) (fun _ => rfl)
    (fun s θ' _ hθ' => by cases hθ') (fun s o' hs ho' _ => ?_)
  cases ho'
  obtain ⟨program, hrole, hθ⟩ := hl
  obtain ⟨o', ho', hmatch⟩ := hθ.over ho
  cases ho.eq ho'
  cases program with
  | true =>
    obtain ⟨s', hs', hn⟩ := h.main
    cases hrole
    rw [hs] at hs'
    cases hs'
    rw [Stand.close, hn]
    exact hmatch
  | false =>
    obtain ⟨s', l, hs', hl, hp⟩ := h.tasks t hrole
    rw [hs] at hs'
    cases hs'
    rw [Stand.close, hl]
    exact settles_orAt hp hmatch

/-- A task that is started becomes known. -/
theorem Keeps.addTask {l : Location} {job : Job} (h : m.Keeps p K) (hl : p.places l)
    (hj : job.Alike p K.itself job) :
    K ≤ K.withTask m.tasks.size ∧
      (m.addTask (some l) job).2.Keeps p (K.withTask m.tasks.size) := by
  have hle := K.le_withTask m.tasks.size
  refine ⟨hle, h.grow hle (h.scope.mono hle rfl) h.library rfl rfl (fun u s hu => ?_)
    (fun u s hu => ?_) (fun u hu => ?_)⟩
  · rw [stand_addTask, if_neg (Nat.ne_of_lt (stand_lt hu))]
    exact hu
  · rw [stand_addTask] at hu
    split at hu
    · next he =>
      cases hu
      refine .inr ⟨rfl, fun θ hθ => ⟨false, .inr he, ?_⟩⟩
      cases hθ
      exact Thread.alike_job (hj.mono (Known.itself_mono hle)) nofun
    · exact .inl hu
  · refine hu.imp_right fun he => ⟨⟨some l, some job.thread, none⟩, l, ?_, rfl, hl, rfl⟩
    rw [stand_addTask, if_pos he]

theorem Keeps.reads {target : TaskId} {r : Option Outcome} (h : m.Keeps p K)
    (hr : m.Reads target r m') : m'.Keeps p K :=
  h.congr (Known.le_refl K) rfl (hr.scope ▸ h.scope) (hr.library ▸ h.library) hr.stand hr.running
    hr.reading

/-- What is answered is known, or becomes known. -/
theorem Serves.keeps {q : Request} {a : q.Answer} (hs : m.Serves t q log a m') (h : m.Keeps p K)
    (ho : m.Orderly) (hlog : ∀ x ∈ log, p.AdmitsAnswer K x)
    {Q : Correspondence → q.Answer → q.Answer → Prop} (hq : Request.Alike p K.itself q q Q) :
    ∃ L, K ≤ L ∧ m'.Keeps p L ∧ Q L.itself a a := by
  have hle := Known.le_refl K
  -- Only the frames that are made and the tasks that are started are new to what is known.
  cases hs with
  | enter f x =>
    cases hq with
    | enter hf hx =>
      have hle' := K.le_withFrame m.scope.frames.size
      have hscope : (m.scope.addChild f (x.map .settled)).2.Keeps p
          (K.withFrame m.scope.frames.size) := by
        refine h.scope.add hf.2 rfl rfl fun d hd => ?_
        obtain ⟨v, rfl, rfl⟩ := Option.map_eq_some_iff.1 hd
        cases hx with
        | some hv => exact .settled hv
      exact ⟨_, hle', h.congr hle' rfl hscope h.library (fun _ => rfl) rfl rfl, rfl, .inr rfl⟩
  | enterModule f path =>
    cases hq with
    | enterModule hp hf =>
      have hle' := K.le_withFrame m.scope.frames.size
      have hscope : (m.scope.addModule (m.scope.rootOf f) path).2.Keeps p
          (K.withFrame m.scope.frames.size) :=
        h.scope.add (h.scope.rootOf hf.2) rfl rfl fun d hd => by cases hd
      exact ⟨_, hle', h.congr hle' rfl hscope h.library (fun _ => rfl) rfl rfl, rfl, .inr rfl⟩
  | declare f name d =>
    cases hq with
    | declare hp hf hd =>
      obtain ⟨hr, hscope⟩ := h.scope.declare f name hd
      exact ⟨K, hle, h.congr hle rfl hscope h.library (fun _ => rfl) rfl rfl, hr⟩
  | rebind f name d =>
    cases hq with
    | rebind hp hf hd =>
      obtain ⟨hr, hscope⟩ := h.scope.rebind f name hd
      exact ⟨K, hle, h.congr hle rfl hscope h.library (fun _ => rfl) rfl rfl, hr⟩
  | lookup f name =>
    cases hq with
    | lookup hf => exact ⟨K, hle, h, h.scope.lookup hf.2 name⟩
  | input f =>
    cases hq with
    | input hf => exact ⟨K, hle, h, h.scope.input hf.2⟩
  | moduleDirectory f =>
    cases hq with
    | moduleDirectory hp hf =>
      refine ⟨K, hle, h, ?_⟩
      unfold Scope.requireLibrary
      split
      · exact .ok rfl
      · exact .cause _
  | stamp =>
    cases hq with
    | stamp => exact ⟨K, hle, h.congr hle rfl h.scope h.library (fun _ => rfl) rfl rfl, rfl⟩
  | spawn l job =>
    cases hq with
    | spawn hl hj =>
      obtain ⟨hle', h'⟩ := h.addTask hl hj
      exact ⟨_, hle', h', rfl, .inr rfl⟩
  | await hr =>
    cases hq with
    | await ht =>
      have hread := ho.reads_readCell hr
      obtain ⟨s, l, hs, _⟩ := h.tasks _ ht.2
      refine ⟨K, hle, h.reads hread, ?_⟩
      exact h.results _ s _ hs (hread.found s _ hs rfl) (.inl ht.2)
  | settings =>
    cases hq with
    | settings => exact ⟨K, hle, h, rfl⟩
  | @cached path _ _ hc =>
    cases hq with
    | claim hp =>
      refine ⟨K, hle, h.claim hc, rfl, fun b hb => ?_⟩
      cases hb
      exact ((h.library hp).claim path t).2 _ (congrArg Prod.snd hc)
  | @granted path _ hc =>
    cases hq with
    | claim hp =>
      exact ⟨K, hle, h.claim hc, rfl, nofun⟩
  | countParse =>
    cases hq with
    | countParse =>
      exact ⟨K, hle, h.congr hle rfl h.scope h.library (fun _ => rfl) rfl rfl, rfl⟩
  | publish path body =>
    cases hq with
    | publish hp hb =>
      exact ⟨K, hle, h.congr hle rfl h.scope (fun _ => (h.library hp).publish path hb) (fun _ => rfl)
        rfl rfl, rfl⟩
  | giveUp path =>
    cases hq with
    | giveUp hp =>
      refine ⟨K, hle, Keeps.wake ?_ _, rfl⟩
      exact h.congr hle rfl h.scope (fun _ => (h.library hp).giveUp path) (fun _ => rfl) rfl rfl
  | note n =>
    cases hq with
    | note => exact ⟨K, hle, h.congr hle rfl h.scope h.library (fun _ => rfl) rfl rfl, rfl⟩
  | workingDirectory a =>
    cases hq with
    | workingDirectory hp => exact ⟨K, hle, h, rfl⟩
  | firstFile candidates a =>
    cases hq with
    | firstFile hp => exact ⟨K, hle, h, rfl⟩
  | write text a =>
    cases hq with
    | write => exact ⟨K, hle, h, rfl⟩
  | word name x o =>
    cases hq with
    | word hp hx =>
      have ha := hlog _ (List.mem_singleton.2 rfl)
      exact ⟨K, hle, h, ha K hle hx⟩

/-- The running task goes on; `m` is the machine without it. -/
theorem Goes.keeps {θ : Thread} (hg : m.Goes t θ log m') (h : m.Keeps p K) (ho : m.Orderly)
    (hm : m.running = none) (hl : K.Live p t θ) (hlog : ∀ x ∈ log, p.AdmitsAnswer K x) :
    ∃ L, K ≤ L ∧ m'.Keeps p L := by
  have hle := Known.le_refl K
  have hl₀ := hl
  obtain ⟨program, hrole, hθ⟩ := hl
  cases hg with
  | turns ht =>
    obtain ⟨θ₁, ht', hθ₁⟩ := hθ.turns ht
    cases ht.eq ht'
    exact ⟨K, hle, h.run ⟨program, hrole, hθ₁⟩⟩
  | served hs =>
    obtain ⟨_, _, _, Q, he, hq, hk⟩ := hθ.asks
    cases he
    obtain ⟨L, hKL, h', ha⟩ := hs.keeps h ho hlog hq
    exact ⟨L, hKL, h'.run ⟨program, hrole.mono hKL, hk _ (Known.itself_mono hKL) _ _ ha⟩⟩
  | awaits hr =>
    have hread := ho.reads_readCell hr
    exact ⟨K, hle, (h.reads hread).suspend (hread.running.trans hm) hl₀⟩
  | claims hc => exact ⟨K, hle, (h.claim hc).suspend hm hl₀⟩
  | givesWay =>
    obtain ⟨_, _, _, _, he, hq, _⟩ := hθ.asks
    cases he
    cases hq
  | reads =>
    obtain ⟨_, _, _, Q, he, hq, hk⟩ := hθ.asks
    cases he
    cases hq with
    | content hp =>
      refine ⟨K, hle, h.scope, h.library, h.tasks, h.main, h.threads, h.results, h.running, ?_⟩
      intro r hr a ha
      rcases List.mem_append.1 hr with hr | hr
      · exact h.reading r hr a ha
      · cases List.mem_singleton.1 hr
        exact ⟨program, hrole, hk _ (Correspondence.le_refl _) _ _ ⟨rfl, ha⟩⟩
  | ends hover => exact ⟨K, hle, h.finish hm hl₀ hover⟩

theorem Keeps.resume (h : m.Keeps p K) (hm : m.running = none) : (m.resume t).Keeps p K := by
  obtain he | ⟨s, θ, m₁, hs, hθ, he, rfl⟩ := m.resume_cases t
  · rw [he]
    exact h
  · rw [he]
    refine Keeps.run ?_ (h.threads t s θ hs hθ)
    exact h.stand (t := t) (g := ({ · with thread := none })) rfl rfl hm rfl
      (fun u => stand_onTask (fun _ _ => rfl) u) (fun _ => rfl) (fun _ _ _ h' => by cases h')
      (h.results t)

/-- What a move keeps. -/
theorem Keeps.change (h : m.Keeps p K) (ho : m.Orderly) (hc : m.Change log m')
    (hlog : ∀ x ∈ log, p.AdmitsAnswer K x) : ∃ L, K ≤ L ∧ m'.Keeps p L := by
  cases hc with
  | @goes t θ _ _ hr hg =>
    have h₀ : Keeps p K { m with running := none } :=
      ⟨h.scope, h.library, h.tasks, h.main, h.threads, h.results, fun _ _ h' => (by cases h'),
        h.reading⟩
    have ho₀ : Orderly { m with running := none } := ho.idle
    exact hg.keeps h₀ ho₀ rfl (h.running t θ hr) hlog
  | take hr _ _ =>
    refine ⟨K, Known.le_refl K, Keeps.resume ?_ hr⟩
    exact h.congr (Known.le_refl K) rfl h.scope h.library (fun _ => rfl) rfl rfl
  | @read r front back a hr hm =>
    have hmem : r ∈ m.reading := by simp [hm]
    have hsub : ∀ r' ∈ front ++ back, r' ∈ m.reading := by
      intro r' hr'
      rw [hm, List.mem_append, List.mem_cons]
      exact (List.mem_append.1 hr').imp_right .inr
    have h' : Keeps p K { m with reading := front ++ back } :=
      ⟨h.scope, h.library, h.tasks, h.main, h.threads, h.results, h.running,
        fun r' hr' => h.reading r' (hsub r' hr')⟩
    exact ⟨K, Known.le_refl K, h'.run (h.reading r hmem a (hlog _ (List.mem_singleton.2 rfl)))⟩

/-- What any moves keep. -/
theorem Keeps.runs (hr : Runs m log m') (h : m.Keeps p K) (ho : m.Orderly)
    (hlog : ∀ x ∈ log, p.AdmitsAnswer K x) : ∃ L, K ≤ L ∧ m'.Keeps p L := by
  induction hr generalizing K with
  | refl m => exact ⟨K, Known.le_refl K, h⟩
  | head hm _ ih =>
    obtain ⟨L, hKL, h₁⟩ := h.change ho hm.change fun x hx => hlog x (List.mem_append_left _ hx)
    obtain ⟨M, hLM, h₂⟩ := ih h₁ (ho.change hm.change) fun x hx =>
      (hlog x (List.mem_append_right _ hx)).mono hKL
    exact ⟨M, Known.le_trans hKL hLM, h₂⟩

/-! ## Programs -/

/-- A machine between two programs: all tasks have ended, and all that is known keeps to the terms. -/
structure Holds (p : Terms) (K : Known) (m : Machine) : Prop where
  orderly : m.Orderly
  ended : m.Ended
  scope : m.scope.Keeps p K
  library : p.loads → m.library.Keeps p
  tasks : ∀ u, K.tasks u → ∃ s l, m.stand u = some s ∧ s.origin = some l ∧ p.places l
  results : ∀ u s o, m.stand u = some s → s.result = some o → K.tasks u →
    Outcome.Settles p K.itself o o

/-- When all tasks have ended, what is known is held. -/
theorem Keeps.holds (h : m.Keeps p K) (ho : m.Orderly) (he : m.Ended) : m.Holds p K :=
  ⟨ho, he, h.scope, h.library, h.tasks, fun u s o hu hso hk => h.results u s o hu hso (.inl hk)⟩

/-- A program that keeps to the terms begins. -/
theorem Holds.addTask {job : Job} (h : m.Holds p K) (hj : job.Alike p K.itself job)
    (hp : job.isProgram = true) :
    (m.addTask none job).2.Keeps p { K with main := m.tasks.size } := by
  have hold : ∀ u s, m.stand u = some s → (m.addTask none job).2.stand u = some s := by
    intro u s hu
    rw [stand_addTask, if_neg (Nat.ne_of_lt (stand_lt hu))]
    exact hu
  refine ⟨fun f hf => ?_, h.library, fun u hu => ?_, ?_, fun u s θ hu hθ => ?_,
    fun u s o hu hso hk => ?_, fun u θ hu => ?_, fun r hr => ?_⟩
  · obtain ⟨frame, hs, hframe⟩ := h.scope f hf
    exact ⟨frame, hs, hframe.bindings, hframe.input, hframe.parent⟩
  · obtain ⟨s, l, hu, ho⟩ := h.tasks u hu
    exact ⟨s, l, hold u s hu, ho⟩
  · exact ⟨⟨none, some job.thread, none⟩, by rw [stand_addTask, if_pos rfl], rfl⟩
  · rw [stand_addTask] at hu
    split at hu
    · next heq =>
      cases hu
      cases hθ
      exact ⟨true, heq, Thread.alike_job hj fun _ => hp⟩
    · obtain ⟨task, htask, rfl⟩ := Option.map_eq_some_iff.1 hu
      cases (h.ended.aside h.orderly htask).symm.trans hθ
  · rw [stand_addTask] at hu
    split at hu
    · cases hu
      cases hso
    · next hne => exact h.results u s o hu hso (hk.resolve_right hne)
  · cases (h.ended.running h.orderly).symm.trans hu
  · rw [addTask_eq, h.ended.reading h.orderly] at hr
    cases hr

end Machine

end Concatenative
