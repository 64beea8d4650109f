import Concatenative.Proofs.SideBySide

/-! What programs can come upon. From the root frame values lead on to the frames of closures and to
tasks, and these hold values in turn. Main statement: where nothing leads out of what a correspondence
allows, a machine holds the same as one that has kept all that can be come upon (`Closed.matched`). -/
namespace Concatenative

open Session (root)

variable {p q : Terms} {ρ σ τ : Correspondence}

/-- What holds values: a frame, or a task that came to one. -/
inductive Holder where
  | frame (f : FrameId)
  | task (t : TaskId)

mutual

/-- The frames and the tasks that a value names. -/
def Value.leads : Value → List Holder
  | .list items => Value.leadsAll items
  | .callable c => c.leads
  | .none | .int _ | .float _ | .bool _ | .text _ => []

def Value.leadsAll : List Value → List Holder
  | [] => []
  | v :: vs => v.leads ++ Value.leadsAll vs

def Callable.leads : Callable → List Holder
  | .closure _ _ f => [.frame f]
  | .composed _ f g => f.leads ++ g.leads
  | .guarded _ d h => d.leads ++ h.leads
  | .reducer _ v s => v.leads ++ s.leads
  | .host _ => []

def Deferred.leads : Deferred → List Holder
  | .settled v => v.leads
  | .rejected _ => []
  | .pending t => [.task t]

end

/-! ## Values that name what stands for itself -/

/-- A frame or a task stands for itself. -/
def Correspondence.Has (ρ : Correspondence) : Holder → Prop
  | .frame f => ρ.frames f f
  | .task t => ρ.tasks t t

mutual

/-- Values that are alike where names stand for themselves are the same. -/
theorem Value.Alike.identity (hσ : σ.IsIdentity) {v v' : Value} :
    v.Alike p σ v' → v' = v ∧ ∀ h ∈ v.leads, σ.Has h
  | .none | .int _ | .float _ | .bool _ | .text _ => ⟨rfl, nofun⟩
  | .list hs => by
    obtain ⟨rfl, hleads⟩ := Value.AllAlike.identity hσ hs
    exact ⟨rfl, hleads⟩
  | .callable hc => by
    obtain ⟨rfl, hleads⟩ := Callable.Alike.identity hσ hc
    exact ⟨rfl, hleads⟩

theorem Value.AllAlike.identity (hσ : σ.IsIdentity) {as bs : List Value} :
    Value.AllAlike p σ as bs → bs = as ∧ ∀ h ∈ Value.leadsAll as, σ.Has h
  | .nil => ⟨rfl, nofun⟩
  | .cons ha hs => by
    obtain ⟨rfl, hleads⟩ := Value.Alike.identity hσ ha
    obtain ⟨rfl, hrest⟩ := Value.AllAlike.identity hσ hs
    exact ⟨rfl, List.forall_mem_append.2 ⟨hleads, hrest⟩⟩

theorem Callable.Alike.identity (hσ : σ.IsIdentity) {c c' : Callable} :
    c.Alike p σ c' → c' = c ∧ ∀ h ∈ c.leads, σ.Has h
  | .closure hn _ hf => by
    cases hσ.stamps _ _ hn
    cases hσ.frames _ _ hf
    exact ⟨rfl, List.forall_mem_singleton.2 hf⟩
  | .composed hn hf hg => by
    cases hσ.stamps _ _ hn
    obtain ⟨rfl, hleads⟩ := Value.Alike.identity hσ hf
    obtain ⟨rfl, hrest⟩ := Value.Alike.identity hσ hg
    exact ⟨rfl, List.forall_mem_append.2 ⟨hleads, hrest⟩⟩
  | .guarded hn hd hh => by
    cases hσ.stamps _ _ hn
    obtain ⟨rfl, hleads⟩ := Deferred.Alike.identity hσ hd
    obtain ⟨rfl, hrest⟩ := Deferred.Alike.identity hσ hh
    exact ⟨rfl, List.forall_mem_append.2 ⟨hleads, hrest⟩⟩
  | .reducer hn hv hs => by
    cases hσ.stamps _ _ hn
    obtain ⟨rfl, hleads⟩ := Value.Alike.identity hσ hv
    obtain ⟨rfl, hrest⟩ := Value.Alike.identity hσ hs
    exact ⟨rfl, List.forall_mem_append.2 ⟨hleads, hrest⟩⟩
  | .host _ => ⟨rfl, nofun⟩

theorem Deferred.Alike.identity (hσ : σ.IsIdentity) {d d' : Deferred} :
    d.Alike p σ d' → d' = d ∧ ∀ h ∈ d.leads, σ.Has h
  | .settled hv => by
    obtain ⟨rfl, hleads⟩ := Value.Alike.identity hσ hv
    exact ⟨rfl, hleads⟩
  | .rejected _ => ⟨rfl, nofun⟩
  | .pending ht => by
    cases hσ.tasks _ _ ht
    exact ⟨rfl, List.forall_mem_singleton.2 ht⟩

end

mutual

/-- The code of all closures in values that are alike keeps to the terms. -/
theorem Value.Alike.fits {v v' : Value} : v.Alike p σ v' → ∀ c ∈ v.closures, c.1.Fits p
  | .none | .int _ | .float _ | .bool _ | .text _ => nofun
  | .list hs => Value.AllAlike.fits hs
  | .callable hc => Callable.Alike.fits hc

theorem Value.AllAlike.fits {as bs : List Value} :
    Value.AllAlike p σ as bs → ∀ c ∈ Value.closuresAll as, c.1.Fits p
  | .nil => nofun
  | .cons ha hs => List.forall_mem_append.2 ⟨Value.Alike.fits ha, Value.AllAlike.fits hs⟩

theorem Callable.Alike.fits {c c' : Callable} : c.Alike p σ c' → ∀ x ∈ c.closures, x.1.Fits p
  | .closure _ hbody _ => List.forall_mem_singleton.2 hbody
  | .composed _ hf hg => List.forall_mem_append.2 ⟨Value.Alike.fits hf, Value.Alike.fits hg⟩
  | .guarded _ hd hh => List.forall_mem_append.2 ⟨Deferred.Alike.fits hd, Deferred.Alike.fits hh⟩
  | .reducer _ hv hs => List.forall_mem_append.2 ⟨Value.Alike.fits hv, Value.Alike.fits hs⟩
  | .host _ => nofun

theorem Deferred.Alike.fits {d d' : Deferred} : d.Alike p σ d' → ∀ c ∈ d.closures, c.1.Fits p
  | .settled hv => Value.Alike.fits hv
  | .rejected _ | .pending _ => nofun

end

/-- What a frame or a task stands for by `σ` it stands for by `τ`. -/
def Correspondence.Lends (σ τ : Correspondence) : Holder → Prop
  | .frame f => ∀ f', σ.frames f f' → τ.frames f f'
  | .task t => ∀ t', σ.tasks t t' → τ.tasks t t'

theorem Correspondence.IsIdentity.lends (hσ : σ.IsIdentity) {h : Holder} (hτ : τ.Has h) :
    σ.Lends τ h := by
  cases h with
  | frame f =>
    intro f' hf
    cases hσ.frames f f' hf
    exact hτ
  | task t =>
    intro t' ht
    cases hσ.tasks t t' ht
    exact hτ

/-- What is alike under some terms and names is alike under others: fewer frames and tasks may stand for
one another, and code may be held to more. -/
structure Terms.Narrows (p q : Terms) (σ τ : Correspondence) : Prop where
  stamps : ∀ a a', σ.stamps a a' → τ.stamps a a'
  places : ∀ l, p.places l → q.places l
  foreign : p.foreign → q.foreign

theorem Failure.Blamed.narrow {e : Failure} (hn : p.Narrows q σ τ) (h : e.Blamed p) : e.Blamed q :=
  h.imp fun l hl => ⟨hl.1, hn.places l hl.2⟩

mutual

theorem Value.Alike.narrow (hn : p.Narrows q σ τ) {v v' : Value} : v.Alike p σ v' →
    (∀ h ∈ v.leads, σ.Lends τ h) → (∀ c ∈ v.closures, c.1.Fits q) → v.Alike q τ v'
  | .none, _, _ => .none
  | .int n, _, _ => .int n
  | .float x, _, _ => .float x
  | .bool b, _, _ => .bool b
  | .text s, _, _ => .text s
  | .list hs, hl, hc => .list (Value.AllAlike.narrow hn hs hl hc)
  | .callable h, hl, hc => .callable (Callable.Alike.narrow hn h hl hc)

theorem Value.AllAlike.narrow (hn : p.Narrows q σ τ) {as bs : List Value} :
    Value.AllAlike p σ as bs → (∀ h ∈ Value.leadsAll as, σ.Lends τ h) →
    (∀ c ∈ Value.closuresAll as, c.1.Fits q) → Value.AllAlike q τ as bs
  | .nil, _, _ => .nil
  | .cons ha hs, hl, hc =>
    .cons
      (Value.Alike.narrow hn ha (List.forall_mem_append.1 hl).1 (List.forall_mem_append.1 hc).1)
      (Value.AllAlike.narrow hn hs (List.forall_mem_append.1 hl).2 (List.forall_mem_append.1 hc).2)

theorem Callable.Alike.narrow (hn : p.Narrows q σ τ) {c c' : Callable} : c.Alike p σ c' →
    (∀ h ∈ c.leads, σ.Lends τ h) → (∀ x ∈ c.closures, x.1.Fits q) → c.Alike q τ c'
  | .closure hs _ hf, hl, hc =>
    .closure (hn.stamps _ _ hs) (hc (_, _) List.mem_cons_self)
      (hl (.frame _) List.mem_cons_self _ hf)
  | .composed hs hf hg, hl, hc =>
    .composed (hn.stamps _ _ hs)
      (Value.Alike.narrow hn hf (List.forall_mem_append.1 hl).1 (List.forall_mem_append.1 hc).1)
      (Value.Alike.narrow hn hg (List.forall_mem_append.1 hl).2 (List.forall_mem_append.1 hc).2)
  | .guarded hs hd hh, hl, hc =>
    .guarded (hn.stamps _ _ hs)
      (Deferred.Alike.narrow hn hd (List.forall_mem_append.1 hl).1 (List.forall_mem_append.1 hc).1)
      (Deferred.Alike.narrow hn hh (List.forall_mem_append.1 hl).2 (List.forall_mem_append.1 hc).2)
  | .reducer hs hv hf, hl, hc =>
    .reducer (hn.stamps _ _ hs)
      (Value.Alike.narrow hn hv (List.forall_mem_append.1 hl).1 (List.forall_mem_append.1 hc).1)
      (Value.Alike.narrow hn hf (List.forall_mem_append.1 hl).2 (List.forall_mem_append.1 hc).2)
  | .host (w := w) hw, _, _ => by
    refine .host ?_
    cases w with
    | foreign name => exact hn.foreign hw
    | _ => trivial

theorem Deferred.Alike.narrow (hn : p.Narrows q σ τ) {d d' : Deferred} : d.Alike p σ d' →
    (∀ h ∈ d.leads, σ.Lends τ h) → (∀ c ∈ d.closures, c.1.Fits q) → d.Alike q τ d'
  | .settled hv, hl, hc => .settled (Value.Alike.narrow hn hv hl hc)
  | .rejected he, _, _ => .rejected (he.narrow hn)
  | .pending ht, hl, _ => .pending (hl (.task _) List.mem_cons_self _ ht)

end

theorem Outcome.settles_iff {o o' : Outcome} :
    Outcome.Settles p ρ o o' ↔ (Deferred.ofOutcome o).Alike p ρ (.ofOutcome o') := by
  constructor
  · intro h
    cases h with
    | ok hv => exact .settled hv
    | error he => exact .rejected he
  · intro h
    cases o with
    | ok v =>
      cases o' with
      | ok v' => cases h with | settled hv => exact .ok hv
      | error e' => cases h
    | error e =>
      cases o' with
      | ok v' => cases h
      | error e' => cases h with | rejected he => exact .error he

theorem forall₂_mem {α β : Type} {R : α → β → Prop} {as : List α} {bs : List β} {a : α}
    (h : List.Forall₂ R as bs) (ha : a ∈ as) : ∃ b ∈ bs, R a b := by
  induction h with
  | nil => cases ha
  | @cons a' b' _ _ hab _ ih =>
    rcases List.mem_cons.1 ha with rfl | ha
    · exact ⟨b', List.mem_cons_self, hab⟩
    · obtain ⟨b, hb, hr⟩ := ih ha
      exact ⟨b, List.mem_cons_of_mem _ hb, hr⟩

/-! ## What can be come upon -/

def Frame.held (frame : Frame) : List Deferred := frame.bindings.map Prod.snd ++ frame.input.toList

namespace Machine

/-- What a frame or a task holds. -/
def held (m : Machine) : Holder → List Deferred
  | .frame f => (m.scope.frames[f]?.map Frame.held).getD []
  | .task t => ((m.result? t).map Deferred.ofOutcome).toList

/-- What programs can come upon: the root, frames above what was come upon, and what is named there. -/
inductive LeadsTo (m : Machine) : Holder → Prop
  | root : LeadsTo m (.frame Session.root)
  | above {f g : FrameId} {frame : Frame} : LeadsTo m (.frame f) → (g, frame) ∈ m.scope.chain f →
      LeadsTo m (.frame g)
  | held {h h' : Holder} {d : Deferred} : LeadsTo m h → d ∈ m.held h → h' ∈ d.leads → LeadsTo m h'

/-- What can be come upon stands for itself. -/
def names (m : Machine) : Correspondence where
  stamps a a' := a = a' ∧ a < m.stamps
  frames f f' := f = f' ∧ m.LeadsTo (.frame f)
  tasks t t' := t = t' ∧ m.LeadsTo (.task t)
  unique := by
    rintro a _ b _ ⟨rfl, _⟩ ⟨rfl, _⟩
    exact Iff.rfl

/-- All that is held by what stands for itself keeps to the terms and leads to what stands for itself. -/
structure Closed (p : Terms) (ρ : Correspondence) (m : Machine) : Prop where
  root : ρ.frames root root
  above : ∀ f g frame, ρ.frames f f → (g, frame) ∈ m.scope.chain f → ρ.frames g g
  held : ∀ h d, ρ.Has h → d ∈ m.held h → d.Alike p ρ d

variable {m : Machine} {K : Known} {f : FrameId} {t : TaskId} {frame : Frame} {d : Deferred}
  {o : Outcome}

theorem names_isIdentity (m : Machine) : m.names.IsIdentity :=
  ⟨fun _ _ h => h.1, fun _ _ h => h.1, fun _ _ h => h.1⟩

theorem has_names {h : Holder} : m.names.Has h ↔ m.LeadsTo h := by
  cases h <;> exact ⟨fun h => h.2, fun h => ⟨rfl, h⟩⟩

theorem mem_held_frame (hf : m.scope.frames[f]? = some frame) :
    d ∈ m.held (.frame f) ↔ (∃ b ∈ frame.bindings, b.2 = d) ∨ frame.input = some d := by
  simp [held, hf, Frame.held]

theorem held_task (ht : m.result? t = some o) : m.held (.task t) = [.ofOutcome o] := by
  simp [held, ht]

/-- Whatever is closed has all that can be come upon. -/
theorem LeadsTo.has {h : Holder} (hl : m.LeadsTo h) (hc : m.Closed p ρ) (hid : ρ.IsIdentity) :
    ρ.Has h := by
  induction hl with
  | root => exact hc.root
  | above _ hmem ih => exact hc.above _ _ _ ih hmem
  | held _ hd hlead ih => exact ((hc.held _ _ ih hd).identity hid).2 _ hlead

/-- Frames that are twins of themselves, and results that are alike to themselves, are closed. -/
theorem closed_of_twins (hid : σ.IsIdentity) (hroot : σ.frames root root)
    (hs : Scope.Twins p σ m.scope m.scope)
    (hres : ∀ t, σ.tasks t t → Option.Rel (Outcome.Settles p σ) (m.result? t) (m.result? t)) :
    m.Closed p σ := by
  refine ⟨hroot, fun f g frame hf hmem => ?_, fun x d hx hd => ?_⟩
  · obtain ⟨⟨g', _⟩, _, hg, _⟩ := forall₂_mem (hs.chain hf) hmem
    cases hid.frames g g' hg
    exact hg
  · cases x with
    | frame f =>
      obtain ⟨frame, frame', hf, hf', ht⟩ := hs f f hx
      cases hf.symm.trans hf'
      rcases (mem_held_frame hf).1 hd with ⟨b, hb, rfl⟩ | hin
      · obtain ⟨b', _, _, hbb⟩ := forall₂_mem ht.bindings hb
        have he := (hbb.identity hid).1
        rwa [he] at hbb
      · have hinput := ht.input
        rw [hin] at hinput
        cases hinput with
        | some hdd => exact hdd
    | task t =>
      have hres := hres t hx
      cases ho : m.result? t with
      | none => simp [held, ho] at hd
      | some o =>
        rw [held_task ho, List.mem_singleton] at hd
        rw [ho] at hres
        cases hres with
        | some hoo => exact hd ▸ Outcome.settles_iff.1 hoo

/-- A machine that keeps to terms between two programs. -/
theorem Holds.closed (h : m.Holds p K) (hroot : K.frames root) : m.Closed p K.itself := by
  refine ⟨⟨rfl, hroot⟩, fun f g frame hf hmem => ⟨rfl, (h.scope.chain hf.2 _ hmem).1⟩,
    fun x d hx hd => ?_⟩
  cases x with
  | frame f =>
    obtain ⟨frame, hs, hk⟩ := h.scope f hx.2
    rcases (mem_held_frame hs).1 hd with ⟨b, hb, rfl⟩ | hin
    · exact hk.bindings b hb
    · exact hk.input d hin
  | task t =>
    cases ho : m.result? t with
    | none => simp [held, ho] at hd
    | some o =>
      rw [held_task ho, List.mem_singleton] at hd
      rw [result?_eq] at ho
      obtain ⟨s, hs, hso⟩ := Option.bind_eq_some_iff.1 ho
      exact hd ▸ Outcome.settles_iff.1 (h.results t s o hs hso hx.2)

end Machine

theorem Library.Quiet.alike {l : Library} (h : l.Quiet) (ρ : Correspondence) : l.Alike ρ l := by
  refine ⟨rfl, rfl, forall₂_self fun s hs => ?_⟩
  obtain ⟨hloader, hwaiting⟩ := h s hs
  refine ⟨rfl, rfl, ?_, ?_⟩
  · rw [hloader]
    exact .none
  · rw [hwaiting]
    exact .nil

namespace Machine

variable {m m' : Machine} {d : Deferred}

/-- What is held by what can be come upon names only what can be come upon. -/
theorem Closed.alike_names {x : Holder} (hc : m.Closed p σ) (hid : σ.IsIdentity)
    (hn : p.Narrows q σ m.names) (hl : m.LeadsTo x) (hd : d ∈ m.held x)
    (hfits : ∀ c ∈ d.closures, c.1.Fits q) : d.Alike q m.names d :=
  (hc.held x d (hl.has hc hid) hd).narrow hn
    (fun _ hx => hid.lends (has_names.2 (.held hl hd hx))) hfits

/-- A machine holds the same as another one that has kept all that can be come upon. -/
theorem Closed.matched (hc : m.Closed p σ) (hid : σ.IsIdentity) (hn : p.Narrows q σ m.names)
    (hfits : ∀ x, m.LeadsTo x → ∀ d ∈ m.held x, ∀ c ∈ d.closures, c.1.Fits q)
    (hframes : ∀ f, m.LeadsTo (.frame f) → ∃ frame, m.scope.frames[f]? = some frame ∧
      m'.scope.frames[f]? = some frame ∧ ∀ g, frame.parent = some g → g < f)
    (htasks : ∀ t, m.LeadsTo (.task t) → ∃ task task', m.tasks[t]? = some task ∧
      m'.tasks[t]? = some task' ∧ (∃ l, q.places l ∧ task.origin = some l ∧ task'.origin = some l) ∧
      task'.cell.result = task.cell.result)
    (hstamps : m.stamps ≤ m'.stamps) (hlib : m'.library = m.library) (hquiet : m.library.Quiet) :
    m.Matched q m.names m' := by
  refine ⟨m.names_isIdentity.ordered, ?_, ?_, by rw [hlib]; exact hquiet.alike _, ?_⟩
  · rintro a _ ⟨rfl, ha⟩
    exact ⟨ha, Nat.lt_of_lt_of_le ha hstamps⟩
  -- What a frame holds can be come upon through it, and so can the frame above.
  · rintro f _ ⟨rfl, hl⟩
    obtain ⟨frame, hs, hs', habove⟩ := hframes f hl
    have hheld : ∀ d, d ∈ m.held (.frame f) → d.Alike q m.names d := fun d hd =>
      hc.alike_names hid hn hl hd (hfits _ hl d hd)
    refine ⟨frame, frame, hs, hs', ⟨⟨⟨forall₂_self fun b hb => ⟨rfl, ?_⟩, ?_⟩, ?_⟩, rfl, rfl, habove⟩⟩
    · exact hheld _ ((mem_held_frame hs).2 (.inl ⟨b, hb, rfl⟩))
    · cases hin : frame.input with
      | none => exact .none
      | some d => exact .some (hheld d ((mem_held_frame hs).2 (.inr hin)))
    · cases hp : frame.parent with
      | none => exact .none
      | some g =>
        refine .some ⟨Iff.rfl, fun hlt => ⟨rfl, ?_⟩⟩
        obtain ⟨frame', hmem⟩ := m.scope.exists_mem_chain (Array.getElem?_eq_some_iff.1 hs).1
        obtain ⟨hs', hparent⟩ := Scope.mem_chain hmem
        cases hs.symm.trans hs'
        obtain ⟨_, hg⟩ := hparent g hp hlt
        exact .above hl hg
  · rintro t _ ⟨rfl, hl⟩
    obtain ⟨task, task', ht, ht', horigin, hres⟩ := htasks t hl
    refine ⟨task, task', ht, ht', horigin, ?_⟩
    rw [hres]
    cases ho : task.cell.result with
    | none => exact .none
    | some o =>
      have hresult : m.result? t = some o := by rw [Machine.result?, ht]; exact ho
      have hd : Deferred.ofOutcome o ∈ m.held (.task t) := by
        rw [held_task hresult]
        exact List.mem_singleton.2 rfl
      exact .some (Outcome.settles_iff.2 (hc.alike_names hid hn hl hd (hfits _ hl _ hd)))

/-- A machine that holds the same as itself, as far as one can come upon it, is closed. -/
theorem Matched.closed (h : m.Matched p m.names m) : m.Closed p m.names := by
  refine closed_of_twins m.names_isIdentity ⟨rfl, .root⟩ h.scope fun t ht => ?_
  obtain ⟨task, task', htask, htask', _, hres⟩ := h.tasks t t ht
  cases htask.symm.trans htask'
  rw [Machine.result?, htask]
  exact hres

end Machine

end Concatenative
