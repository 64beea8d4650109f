import Concatenative.Proofs.Hindsight
import Concatenative.Proofs.Record
import Concatenative.Proofs.Sequential

/-! Programs that bind no names come to the same in every order. Seen from its end, a run tells what
each task did on its own, and the sequential evaluator can be led along that: it starts a job where
the task was started, and finds the outcome of a job where the task was waited for. What it gives
other numbers to, a `Correspondence` keeps track of. Main statement: whatever order the tasks run
in, a program that binds no names comes to what the sequential evaluator makes of it, and writes the
same lines (`scheduling_preserves_outcome`). -/
namespace Concatenative

/-! ## Frames and states that differ in names only -/

variable {p : Terms} {ρ σ : Correspondence}

theorem findSome?_rel {α β γ δ : Type} {R : α → β → Prop} {S : γ → δ → Prop} {f : α → Option γ}
    {g : β → Option δ} (hfg : ∀ a b, R a b → Option.Rel S (f a) (g b)) {as : List α} {bs : List β}
    (h : List.Forall₂ R as bs) : Option.Rel S (as.findSome? f) (bs.findSome? g) := by
  induction h with
  | nil => exact .none
  | @cons a b as bs hab _ ih =>
    have hr := hfg a b hab
    rw [List.findSome?_cons, List.findSome?_cons]
    generalize f a = x at hr
    generalize g b = y at hr
    cases hr with
    | none => exact ih
    | some hc => exact .some hc

/-- Frames that hold what is alike under the same names. -/
structure Frame.Holds (p : Terms) (ρ : Correspondence) (frame frame' : Frame) : Prop where
  bindings : List.Forall₂ (fun b b' => b.1 = b'.1 ∧ b.2.Alike p ρ b'.2) frame.bindings
    frame'.bindings
  input : Option.Rel (Deferred.Alike p ρ) frame.input frame'.input

/-- Frames that hold what is alike and hang under what is alike. -/
structure Frame.Alike (p : Terms) (ρ : Correspondence) (f f' : FrameId) (frame frame' : Frame) :
    Prop extends Frame.Holds p ρ frame frame' where
  parent : Option.Rel (fun g g' => (g < f ↔ g' < f') ∧ (g < f → ρ.frames g g')) frame.parent
    frame'.parent

theorem Frame.Alike.mono {f f' : FrameId} {frame frame' : Frame} (h : ρ ≤ σ)
    (ha : Frame.Alike p ρ f f' frame frame') : Frame.Alike p σ f f' frame frame' := by
  refine ⟨⟨ha.bindings.imp fun _ _ hb => ⟨hb.1, hb.2.mono h⟩, ?_⟩, ?_⟩
  · exact optionRel_imp (fun _ _ => Deferred.Alike.mono h) ha.input
  · exact optionRel_imp (fun _ _ hg => ⟨hg.1, fun hlt => h.2.1 _ _ (hg.2 hlt)⟩) ha.parent

theorem Frame.Holds.get? {frame frame' : Frame} (h : Frame.Holds p ρ frame frame') (name : String) :
    Option.Rel (Deferred.Alike p ρ) (frame.get? name) (frame'.get? name) := by
  obtain ⟨hb, _⟩ := h
  rw [Frame.get?, Frame.get?]
  generalize frame.bindings = bs at hb
  generalize frame'.bindings = bs' at hb
  induction hb with
  | nil => exact .none
  | @cons b b' _ _ hb _ ih =>
    obtain ⟨x, d⟩ := b
    obtain ⟨x', d'⟩ := b'
    obtain ⟨hx, hd⟩ := hb
    dsimp only at hx
    subst hx
    rw [List.lookup_cons, List.lookup_cons]
    cases name == x with
    | true => exact .some hd
    | false => exact ih

/-- Frames that correspond are there in both scopes and are alike. -/
def Scope.Alike (p : Terms) (ρ : Correspondence) (s s' : Scope) : Prop :=
  ∀ f f', ρ.frames f f' → ∃ frame frame', s.frames[f]? = some frame ∧
    s'.frames[f']? = some frame' ∧ Frame.Alike p ρ f f' frame frame'

namespace Scope

variable {s s' : Scope} {f f' : FrameId}

/-- The ways to the root lead through related frames if they start at related frames, and if related
frames have related parents where the way goes on. -/
theorem chain_rel {R : FrameId → FrameId → Prop} {T : FrameId × Frame → FrameId × Frame → Prop}
    (h : ∀ f f', R f f' → ∃ frame frame', s.frames[f]? = some frame ∧ s'.frames[f']? = some frame' ∧
      T (f, frame) (f', frame') ∧
      Option.Rel (fun g g' => (g < f ↔ g' < f') ∧ (g < f → R g g')) frame.parent frame'.parent)
    (hf : R f f') : List.Forall₂ T (s.chain f) (s'.chain f') := by
  -- A way goes on to a parent with a smaller number only.
  induction f using Nat.strongRecOn generalizing f' with
  | ind f ih =>
    obtain ⟨frame, frame', hs, hs', hT, hparent⟩ := h f f' hf
    generalize hp : frame.parent = parent at hparent
    generalize hp' : frame'.parent = parent' at hparent
    cases hparent with
    | none =>
      rw [chain_root hs hp, chain_root hs' hp']
      exact .cons hT .nil
    | @some g g' hg =>
      obtain ⟨hiff, hR⟩ := hg
      by_cases hlt : g < f
      · rw [chain_child hs hp hlt, chain_child hs' hp' (hiff.1 hlt)]
        exact .cons hT (ih g hlt (hR hlt))
      · rw [chain_cut hs hp hlt, chain_cut hs' hp' (mt hiff.2 hlt)]
        exact .cons hT .nil

/-- The ways to the root lead through frames that hold what is alike. -/
theorem Alike.chain (h : Scope.Alike p ρ s s') (hf : ρ.frames f f') :
    List.Forall₂ (fun x x' => Frame.Holds p ρ x.2 x'.2) (s.chain f) (s'.chain f') := by
  refine chain_rel (fun g g' hg => ?_) hf
  obtain ⟨frame, frame', hs, hs', ha⟩ := h g g' hg
  exact ⟨frame, frame', hs, hs', ha.toHolds, ha.parent⟩

theorem Alike.lookup (h : Scope.Alike p ρ s s') (hf : ρ.frames f f') (name : String) :
    Matches (Failure.Placed p) (Deferred.Alike p ρ) (s.lookup f name) (s'.lookup f' name) := by
  have hr := findSome?_rel (fun _ _ hx => hx.get? name) (h.chain hf)
  rw [Scope.lookup, Scope.lookup]
  generalize (s.chain f).findSome? _ = d at hr
  generalize (s'.chain f').findSome? _ = d' at hr
  cases hr with
  | none => exact .cause _
  | some hd => exact .ok hd

theorem Alike.input (h : Scope.Alike p ρ s s') (hf : ρ.frames f f') :
    Matches (Failure.Placed p) (Deferred.Alike p ρ) (s.input f) (s'.input f') := by
  have hr := findSome?_rel (f := fun x => x.2.input) (g := fun x => x.2.input)
    (fun _ _ hx => hx.input) (h.chain hf)
  rw [Scope.input, Scope.input]
  generalize (s.chain f).findSome? _ = d at hr
  generalize (s'.chain f').findSome? _ = d' at hr
  cases hr with
  | none => exact .cause _
  | some hd => exact .ok hd

end Scope

/-! ## More names -/

namespace Correspondence

def withFrame (ρ : Correspondence) (f f' : FrameId) : Correspondence :=
  { ρ with frames := fun g g' => ρ.frames g g' ∨ g = f ∧ g' = f' }

def withTask (ρ : Correspondence) (t t' : TaskId) : Correspondence :=
  { ρ with tasks := fun u u' => ρ.tasks u u' ∨ u = t ∧ u' = t' }

/-- Two stamps that stand for nothing yet. -/
def withStamp (ρ : Correspondence) (a a' : Nat) (h : ∀ b b', ρ.stamps b b' → b ≠ a ∧ b' ≠ a') :
    Correspondence :=
  { ρ with
    stamps := fun b b' => ρ.stamps b b' ∨ b = a ∧ b' = a'
    unique := by
      rintro b b' c c' (hb | ⟨rfl, rfl⟩) (hc | ⟨rfl, rfl⟩)
      · exact ρ.unique hb hc
      · exact iff_of_false (h b b' hb).1 (h b b' hb).2
      · exact iff_of_false (h c c' hc).1.symm (h c c' hc).2.symm
      · exact iff_of_true rfl rfl }

theorem le_withFrame (ρ : Correspondence) (f f' : FrameId) : ρ ≤ ρ.withFrame f f' :=
  ⟨fun _ _ => id, fun _ _ => .inl, fun _ _ => id⟩

theorem le_withTask (ρ : Correspondence) (t t' : TaskId) : ρ ≤ ρ.withTask t t' :=
  ⟨fun _ _ => id, fun _ _ => id, fun _ _ => .inl⟩

theorem le_withStamp (ρ : Correspondence) (a a' : Nat)
    (h : ∀ b b', ρ.stamps b b' → b ≠ a ∧ b' ≠ a') : ρ ≤ ρ.withStamp a a' h :=
  ⟨fun _ _ => .inl, fun _ _ => id, fun _ _ => id⟩

end Correspondence

theorem Scope.Alike.mono {s s' : Scope} (h : Scope.Alike p ρ s s') (hle : ρ ≤ σ)
    (hf : σ.frames = ρ.frames) : Scope.Alike p σ s s' := by
  intro f f' hff
  obtain ⟨frame, frame', hs, hs', ha⟩ := h f f' (hf ▸ hff)
  exact ⟨frame, frame', hs, hs', ha.mono hle⟩

/-- A frame that is there on one side is made on the other. -/
theorem Scope.Alike.add {s s' : Scope} (h : Scope.Alike p ρ s s') {f : FrameId}
    {frame frame' : Frame} (hs : s.frames[f]? = some frame)
    (ha : Frame.Alike p ρ f s'.frames.size frame frame') :
    Scope.Alike p (ρ.withFrame f s'.frames.size) s (s'.add frame').2 := by
  have hle := ρ.le_withFrame f s'.frames.size
  rintro g g' (hg | ⟨rfl, rfl⟩)
  · obtain ⟨old, old', hold, hold', hoo⟩ := h g g' hg
    refine ⟨old, old', hold, ?_, hoo.mono hle⟩
    have hlt := (Array.getElem?_eq_some_iff.1 hold').1
    rw [Scope.add, Array.getElem?_push_lt hlt, ← hold', Array.getElem?_eq_getElem hlt]
  · exact ⟨frame, frame', hs, Array.getElem?_push_size, ha.mono hle⟩

namespace Sequential

/-- The sequential evaluator has what a run has that ended with the frames `scope` and in which tasks
came to `results`, as far as names correspond. -/
structure Mirrors (ρ : Correspondence) (scope : Scope) (results : TaskId → Option Outcome)
    (s : Sequential) : Prop where
  scope : Scope.Alike .unbinding ρ scope s.scope
  tasks : ∀ t t', ρ.tasks t t' → ∃ o o', results t = some o ∧ s.outcomes[t']? = some o' ∧
    Outcome.Settles .unbinding ρ o o'
  stamps : ∀ a a', ρ.stamps a a' → a' < s.stamps
  sink : s.world.sink = .accepting

variable {scope : Scope} {results : TaskId → Option Outcome} {s : Sequential}

theorem Mirrors.mono {s' : Sequential} (h : Mirrors ρ scope results s) (hle : ρ ≤ σ)
    (hscope : Scope.Alike .unbinding σ scope s'.scope) (ht : σ.tasks = ρ.tasks)
    (ho : s'.outcomes = s.outcomes) (hstamps : ∀ a a', σ.stamps a a' → a' < s'.stamps)
    (hsink : s'.world.sink = .accepting) : Mirrors σ scope results s' := by
  refine ⟨hscope, fun t t' htt => ?_, hstamps, hsink⟩
  obtain ⟨o, o', hr, hs, hoo⟩ := h.tasks t t' (ht ▸ htt)
  exact ⟨o, o', hr, ho ▸ hs, hoo.mono hle⟩

theorem Mirrors.enter (h : Mirrors ρ scope results s) {f f' a : FrameId} {x x' : Option Value}
    (hf : ρ.frames f f') (hx : InputAlike .unbinding ρ x x')
    (ha : scope.frames[a]? = some { parent := some f, input := x.map .settled }) (hlt : f < a) :
    Mirrors (ρ.withFrame a s.scope.frames.size) scope results
      { s with scope := (s.scope.addChild f' (x'.map .settled)).2 } := by
  obtain ⟨_, _, _, hs', _⟩ := h.scope f f' hf
  have hlt' : f' < s.scope.frames.size := (Array.getElem?_eq_some_iff.1 hs').1
  refine h.mono (ρ.le_withFrame _ _) (h.scope.add ha ⟨⟨.nil, ?_⟩, ?_⟩) rfl rfl h.stamps h.sink
  · cases hx with
    | none => exact .none
    | some hv => exact .some (.settled hv)
  · exact .some ⟨iff_of_true hlt hlt', fun _ => hf⟩

theorem Mirrors.stamp (h : Mirrors ρ scope results s) {a : Nat} (ha : ∀ b b', ρ.stamps b b' → b ≠ a) :
    ∃ σ, ρ ≤ σ ∧ σ.stamps a s.stamps ∧ (∀ b b', σ.stamps b b' → ρ.stamps b b' ∨ b = a) ∧
      Mirrors σ scope results { s with stamps := s.stamps + 1 } := by
  have hle := ρ.le_withStamp a s.stamps fun b b' hb =>
    ⟨ha b b' hb, Nat.ne_of_lt (h.stamps b b' hb)⟩
  refine ⟨_, hle, .inr ⟨rfl, rfl⟩, fun b b' hb => hb.imp_right And.left,
    h.mono hle (h.scope.mono hle rfl) rfl rfl (fun b b' hb => ?_) h.sink⟩
  rcases hb with hb | ⟨_, rfl⟩
  · exact Nat.lt_succ_of_lt (h.stamps b b' hb)
  · exact Nat.lt_succ_self _

/-- A task came to what a job comes to that is run there and then. -/
theorem Mirrors.record (h : Mirrors ρ scope results s) {t : TaskId} {o o' : Outcome}
    (ht : results t = some o) (ho : Outcome.Settles .unbinding ρ o o') :
    Mirrors (ρ.withTask t (s.record o').1) scope results (s.record o').2 := by
  have hle := ρ.le_withTask t (s.record o').1
  refine ⟨h.scope.mono hle rfl, fun u u' huu => ?_, h.stamps, h.sink⟩
  rcases huu with huu | ⟨rfl, rfl⟩
  · obtain ⟨r, r', hr, hs, hrr⟩ := h.tasks u u' huu
    refine ⟨r, r', hr, ?_, hrr.mono hle⟩
    have hlt := (Array.getElem?_eq_some_iff.1 hs).1
    rw [Sequential.record, Array.getElem?_push_lt hlt, ← hs, Array.getElem?_eq_getElem hlt]
  · exact ⟨o, o', ht, Array.getElem?_push_size, ho.mono hle⟩

theorem Mirrors.write (h : Mirrors ρ scope results s) (text : String) :
    s.answer (.world (.write text)) = some (.ok (), { s with
      world := { s.world with written := text :: s.world.written } }) ∧
    Mirrors ρ scope results { s with
      world := { s.world with written := text :: s.world.written } } := by
  constructor
  · simp only [answer, World.answer, World.write, h.sink]
  · exact h.mono (Correspondence.le_refl ρ) h.scope rfl rfl h.stamps h.sink

/-- The sequential evaluator follows a thread to its end: it comes to what the thread came to, has the
same effects, and gives stamps only where the thread was given some. -/
def Follows (scope : Scope) (results : TaskId → Option Outcome) (program : Bool)
    (ρ : Correspondence) (θ : Thread) (s : Sequential) (E : Effects) (o : Outcome) : Prop :=
  ∃ σ o' s', ρ ≤ σ ∧ θ.Comes surroundings s o' s' ∧
    Matches (Terms.unbinding.blame program) (Value.Alike .unbinding σ) o o' ∧
    Mirrors σ scope results s' ∧ (∀ a a', σ.stamps a a' → ρ.stamps a a' ∨ a ∈ E.2) ∧
    (s'.world.written : Multiset String) = E.1 + s.world.written

variable {program : Bool} {θ θ' : Thread} {E δ : Effects} {o : Outcome} {s₁ : Sequential}

/-- A step in front of what the evaluator follows. -/
theorem Follows.back (h : Follows scope results program σ θ' s₁ E o) (hle : ρ ≤ σ)
    (hc : ∀ o' s', θ'.Comes surroundings s₁ o' s' → θ.Comes surroundings s o' s')
    (hstamps : ∀ a a', σ.stamps a a' → ρ.stamps a a' ∨ a ∈ δ.2)
    (hw : (s₁.world.written : Multiset String) = δ.1 + s.world.written) :
    Follows scope results program ρ θ s (δ + E) o := by
  obtain ⟨τ, o', s', hτ, hθ, hoo, hm, hnew, hlines⟩ := h
  refine ⟨τ, o', s', Correspondence.le_trans hle hτ, hc o' s' hθ, hoo, hm, fun a a' ha => ?_, ?_⟩
  · rw [Prod.snd_add, Multiset.mem_add, ← or_assoc]
    exact (hnew a a' ha).imp_left (hstamps a a')
  · rw [hlines, hw, Prod.fst_add, add_left_comm, add_assoc]

/-- A request without effects in front of what the evaluator follows. -/
theorem Follows.ask {q : Request} {k : q.Answer → Act (Except Failure Next)}
    {ks : List (Outcome → Act (Except Failure Next))} {a : q.Answer}
    (h : Follows scope results program σ ⟨k a, ks⟩ s₁ E o) (hle : ρ ≤ σ) (hp : q.isPerform = false)
    (hs : q.isSpawn = false) (ha : s.answer q = some (a, s₁)) (hstamps : σ.stamps = ρ.stamps)
    (hw : s₁.world = s.world) : Follows scope results program ρ ⟨.ask q k, ks⟩ s E o := by
  rw [← zero_add E]
  refine h.back hle (fun o' s' hc => Thread.comes_asks hp ((surroundings_iff hs).2 ha) hc)
    (fun a a' ha => .inl (hstamps ▸ ha)) ?_
  rw [hw]
  exact (zero_add _).symm

/-- What a thread yields, the evaluator comes to as well. Stamps that were given to the thread stand
for nothing before, so each can be made to stand for the one that the evaluator gives. -/
theorem follows_yields (h : θ.Yields scope results E o) (hθ : Thread.Alike .unbinding program ρ θ θ')
    (hm : Mirrors ρ scope results s) (hnd : E.2.Nodup) (hnew : ∀ a a', ρ.stamps a a' → a ∉ E.2) :
    Follows scope results program ρ θ' s E o := by
  have hle := Correspondence.le_refl
  -- The correspondence grows with every frame, stamp and task that the thread is given.
  induction h generalizing program ρ θ' s with
  | done ho =>
    obtain ⟨o', ho', hoo⟩ := hθ.over ho
    exact ⟨ρ, o', s, hle ρ, Thread.comes_over ho' s, hoo, hm, fun a a' => .inl, (zero_add _).symm⟩
  | turns ht _ ih =>
    obtain ⟨θ₁, ht', hθ₁⟩ := hθ.turns ht
    obtain ⟨σ, o', s', hσ, hc, hrest⟩ := ih hθ₁ hm hnd hnew
    exact ⟨σ, o', s', hσ, Thread.comes_turns ht' hc, hrest⟩
  | @enter f a x k ks E o ha hlt _ ih =>
    obtain ⟨q', k', ks', Q, rfl, hq, hk⟩ := hθ.asks
    cases hq with
    | enter hf hx =>
      have hle' := ρ.le_withFrame a s.scope.frames.size
      exact Follows.ask (ih (hk _ hle' _ _ (.inr ⟨rfl, rfl⟩)) (hm.enter hf hx ha hlt) hnd hnew) hle'
        rfl rfl rfl rfl rfl
  | lookup _ ih =>
    obtain ⟨q', k', ks', Q, rfl, hq, hk⟩ := hθ.asks
    cases hq with
    | lookup hf =>
      exact Follows.ask (ih (hk ρ (hle ρ) _ _ (hm.scope.lookup hf _)) hm hnd hnew) (hle ρ) rfl rfl
        rfl rfl rfl
  | input _ ih =>
    obtain ⟨q', k', ks', Q, rfl, hq, hk⟩ := hθ.asks
    cases hq with
    | input hf =>
      exact Follows.ask (ih (hk ρ (hle ρ) _ _ (hm.scope.input hf)) hm hnd hnew) (hle ρ) rfl rfl rfl
        rfl rfl
  | @stamp n k ks E o _ ih =>
    obtain ⟨q', k', ks', Q, rfl, hq, hk⟩ := hθ.asks
    obtain ⟨hn, hnd⟩ := Multiset.nodup_cons.1 (show (n ::ₘ E.2).Nodup from hnd)
    cases hq with
    | stamp =>
      obtain ⟨σ, hσ, hns, hsub, hm'⟩ := hm.stamp fun b b' hb he =>
        hnew b b' hb (he ▸ Multiset.mem_cons_self n E.2)
      refine (ih (hk σ hσ _ _ hns) hm' hnd (fun b b' hb => ?_)).back hσ
        (fun o' s' hc => Thread.comes_asks rfl rfl hc) (fun b b' hb => ?_) (zero_add _).symm
      · rcases hsub b b' hb with hb | rfl
        · exact fun hin => hnew b b' hb (Multiset.mem_cons_of_mem hin)
        · exact hn
      · exact (hsub b b' hb).imp_right Multiset.mem_singleton.2
  | @write text k ks E o _ ih =>
    obtain ⟨q', k', ks', Q, rfl, hq, hk⟩ := hθ.asks
    have hE : (Effects.line text + E).2 = E.2 := zero_add E.2
    rw [hE] at hnd hnew
    cases hq with
    | write =>
      obtain ⟨ha, hm'⟩ := hm.write text
      exact (ih (hk ρ (hle ρ) _ _ rfl) hm' hnd hnew).back (hle ρ)
        (fun o' s' hc => Thread.comes_asks rfl ((surroundings_iff rfl).2 ha) hc)
        (fun b b' => .inl) rfl
  | note _ ih =>
    obtain ⟨q', k', ks', Q, rfl, hq, hk⟩ := hθ.asks
    cases hq with
    | note =>
      exact Follows.ask (ih (hk ρ (hle ρ) _ _ rfl) hm hnd hnew) (hle ρ) rfl rfl rfl rfl rfl
  | await hr _ ih =>
    obtain ⟨q', k', ks', Q, rfl, hq, hk⟩ := hθ.asks
    cases hq with
    | await ht =>
      obtain ⟨r, r', hr', hs, hrr⟩ := hm.tasks _ _ ht
      cases hr.symm.trans hr'
      refine Follows.ask (ih (hk ρ (hle ρ) _ _ hrr) hm hnd hnew) (hle ρ) rfl rfl ?_ rfl rfl
      rw [answer, hs]
      rfl
  | @spawn l job t r k ks E E' o _ hr _ ihj ih =>
    obtain ⟨q', k', ks', Q, rfl, hq, hk⟩ := hθ.asks
    rw [Prod.snd_add] at hnd hnew
    obtain ⟨hnd', hndE, hdisj⟩ := Multiset.nodup_add.1 hnd
    cases hq with
    | spawn hl hj =>
      -- The job is run to its end first, as the task did on its own.
      have hjob : Thread.Alike .unbinding false ρ job.thread _ :=
        Thread.alike_job hj fun h => by cases h
      obtain ⟨σ, r', s₁, hσ, hc, hrr, hm₁, hsub, hw⟩ := ihj hjob hm hnd'
        (fun b b' hb hin => hnew b b' hb (Multiset.mem_add.2 (.inl hin)))
      have hm₂ := hm₁.record hr (Machine.settles_orAt hl hrr)
      have hτ := σ.le_withTask t (s₁.record (r'.orAt l)).1
      obtain ⟨fuel, hrun⟩ := run_of_ends (Thread.comes_job.1 hc)
      refine (ih (hk _ (Correspondence.le_trans hσ hτ) _ _ (.inr ⟨rfl, rfl⟩)) hm₂ hndE
        (fun b b' hb hin => ?_)).back (Correspondence.le_trans hσ hτ)
        (fun o' s' hc => Thread.comes_asks rfl ⟨fuel, r', s₁, hrun, rfl⟩ hc) hsub hw
      rcases hsub b b' hb with hb | hb
      · exact hnew b b' hb (Multiset.mem_add.2 (.inr hin))
      · exact Multiset.disjoint_left.1 hdisj hb hin

end Sequential

/-! ## Programs -/

/-- A sink that accepts goes on to do so, and takes all that is written. -/
theorem World.Answers.accepting {w w' : World} {log : List Asked} (h : w.Answers log w')
    (hw : w.sink = .accepting) :
    Machine.Accepted log ∧ (w'.written : Multiset String) = Machine.lines log + w.written := by
  induction h with
  | nil w => exact ⟨fun _ _ h => absurd h List.not_mem_nil, (zero_add _).symm⟩
  | @cons w w' q log _ ih =>
    cases q with
    | write text =>
      have hans : w.answer (.write text) = (.ok (), { w with written := text :: w.written }) := by
        simp only [World.answer, World.write, hw]
      rw [hans] at ih ⊢
      obtain ⟨ha, hl⟩ := ih hw
      refine ⟨fun text' a ha' => ?_, ?_⟩
      · rcases List.mem_cons.1 ha' with he | he
        · cases he
          rfl
        · exact ha text' a he
      · rw [hl, ← Multiset.cons_coe, Multiset.add_cons]
        rfl
    | _ =>
      obtain ⟨ha, hl⟩ := ih hw
      refine ⟨fun text a ha' => ?_, hl⟩
      rcases List.mem_cons.1 ha' with he | he
      · cases he
      · exact ha text a he

namespace Scope

variable {s : Scope} {f g : FrameId} {frame : Frame}

/-- A frame and those above it hold nothing but words of the language. -/
def HoldsWords (s : Scope) (f : FrameId) : Prop :=
  ∀ x ∈ s.chain f, x.2.input = none ∧
    ∀ b ∈ x.2.bindings, ∃ w ∈ Word.all, b.2 = .settled (.callable (.host w))

end Scope

/-- What the code of a program can get hold of at first: the frame it runs in and those above. -/
def Known.above (s : Scope) (f : FrameId) (main : TaskId) : Known where
  frames g := ∃ frame, (g, frame) ∈ s.chain f
  tasks _ := False
  main

theorem Scope.HoldsWords.bindings {s : Scope} {f : FrameId} (h : s.HoldsWords f)
    {x : FrameId × Frame} (hx : x ∈ s.chain f) (ρ : Correspondence) :
    ∀ b ∈ x.2.bindings, b.2.Alike .unbinding ρ b.2 := by
  intro b hb
  obtain ⟨w, hw, hb⟩ := (h x hx).2 b hb
  rw [hb]
  refine .settled (.callable (.host ?_))
  simp only [Word.all, List.mem_cons, List.not_mem_nil, or_false] at hw
  rcases hw with rfl | rfl | rfl | rfl | rfl | rfl | rfl | rfl | rfl | rfl <;> trivial

theorem Scope.HoldsWords.keeps {s : Scope} {f : FrameId} (h : s.HoldsWords f) (main : TaskId) :
    s.Keeps .unbinding (.above s f main) := by
  rintro g ⟨frame, hmem⟩
  obtain ⟨hs, hparent⟩ := Scope.mem_chain hmem
  refine ⟨frame, hs, h.bindings hmem _, fun d hd => ?_, hparent⟩
  cases (h _ hmem).1.symm.trans hd

/-- Each frame at first stands for itself, and so does each stamp that was given before. -/
def Correspondence.above (s : Scope) (f : FrameId) (stamps : Nat) : Correspondence where
  stamps a a' := a = a' ∧ a < stamps
  frames g g' := g = g' ∧ ∃ frame, (g, frame) ∈ s.chain f
  tasks _ _ := False
  unique := by
    rintro a _ b _ ⟨rfl, _⟩ ⟨rfl, _⟩
    exact Iff.rfl

theorem forall₂_self {α : Type} {R : α → α → Prop} {as : List α} (h : ∀ a ∈ as, R a a) :
    List.Forall₂ R as as := by
  induction as with
  | nil => exact .nil
  | cons a as ih =>
    obtain ⟨ha, has⟩ := List.forall_mem_cons.1 h
    exact .cons ha (ih has)

/-- The frames that a program can get hold of at first are still the same at the end. -/
theorem Scope.HoldsWords.alike {s last : Scope} {f : FrameId} (h : s.HoldsWords f) (stamps : Nat)
    (hlast : ∀ g < s.frames.size, last.frames[g]? = s.frames[g]?) :
    Scope.Alike .unbinding (.above s f stamps) last s := by
  rintro g _ ⟨rfl, frame, hmem⟩
  obtain ⟨hs, hparent⟩ := Scope.mem_chain hmem
  have hlt := (Array.getElem?_eq_some_iff.1 hs).1
  refine ⟨frame, frame, (hlast g hlt).trans hs, hs, ⟨forall₂_self fun b hb => ?_, ?_⟩, ?_⟩
  · exact ⟨rfl, h.bindings hmem _ b hb⟩
  · rw [(h _ hmem).1]
    exact .none
  · cases hp : frame.parent with
    | none => exact .none
    | some g' => exact .some ⟨Iff.rfl, fun hg' => ⟨rfl, hparent g' hp hg'⟩⟩

open Machine

variable {m last : Machine} {w w' : World} {n : Nat} {body : Body} {f : FrameId} {log : List Asked}

/-- The job of a program: a closure is forced. -/
def Job.program (n : Nat) (body : Body) (f : FrameId) : Job :=
  .force (.callable (.closure n body f)) none

/-- A run of a program, seen from its end: what the program did, with the tasks that it started, is
all that was done. -/
theorem yields_program (ho : m.Orderly) (hended : m.Ended) (hf : f < m.scope.frames.size)
    (hwords : m.scope.HoldsWords f) (hbody : body.Fits .unbinding)
    (hr : Runs (m.addTask none (.program n body f)).2 log last) (hlast : last.Ended)
    (hlog : Accepted log) :
    ∃ k o, (Job.program n body f).thread.Yields last.scope last.result?
        ((lines log : Multiset String), (List.range' m.stamps k : Multiset Nat)) o ∧
      last.result? m.tasks.size = some o ∧
      ∀ g < m.scope.frames.size, last.scope.frames[g]? = m.scope.frames[g]? := by
  have hidle : (m.addTask none (.program n body f)).2.running = none := hended.running ho
  have hholds : m.Holds .unbinding (.above m.scope f m.tasks.size) :=
    ⟨ho, hended, hwords.keeps _, fun h => h.elim, fun _ h => h.elim, fun _ _ _ _ _ h => h.elim⟩
  have hjob : (Job.program n body f).Alike .unbinding
      (Known.above m.scope f m.tasks.size).itself (.program n body f) :=
    .force (.callable (.closure rfl hbody ⟨rfl, Scope.exists_mem_chain hf⟩)) .none
  obtain ⟨E, k, hahead, _, hsum⟩ := ahead_runs hr (ho.addTask (hended.running ho) none _)
    (hholds.addTask hjob rfl) (hended.reading ho) hlast hlog
  have hview : ∀ u, (m.addTask none (.program n body f)).2.view u =
      if u = m.tasks.size then some ⟨none, some (Job.program n body f).thread, none⟩
      else m.stand u := fun u => (view_idle hidle u).trans (stand_addTask m none _ u)
  obtain ⟨o, hy, hres⟩ := hahead.yields m.tasks.size _ (Job.program n body f).thread
    ((hview _).trans (if_pos rfl)) rfl
  have hothers : ∀ u ∈ Finset.range m.tasks.size, E u = 0 := by
    intro u hu
    refine hahead.still u fun s hs => ?_
    rw [hview, if_neg (Nat.ne_of_lt (Finset.mem_range.1 hu))] at hs
    obtain ⟨task, htask, rfl⟩ := Option.map_eq_some_iff.1 hs
    exact hended.aside ho htask
  have hsize : (m.addTask none (.program n body f)).2.tasks.size = m.tasks.size + 1 :=
    Array.size_push ..
  rw [hsize, Finset.sum_range_succ, Finset.sum_eq_zero hothers, zero_add] at hsum
  exact ⟨k, o, hsum ▸ hy, hres, hahead.frames⟩

/-- Programs that bind no names come to the same in every order of their tasks. In a frame from which
nothing but words of the language can be seen and with a sink that accepts all text, however the
tasks of the program take turns, if all of them end then the sequential evaluator ends as well: with
the same value but for names that correspond, or with the same failure at the same place, and with
the same lines written. The order that the machine keeps is one of these. -/
theorem scheduling_preserves_outcome (m : Machine) (w : World) (n : Nat) (body : Body) (f : FrameId)
    (ho : m.Orderly) (hended : m.Ended) (hn : n < m.stamps) (hf : f < m.scope.frames.size)
    (hwords : m.scope.HoldsWords f) (hbody : body.Fits .unbinding) (hsink : w.sink = .accepting) :
    let start := (m.addTask none (.program n body f)).2
    (∀ log last w', Runs start log last → w.Answers log w' → last.Ended →
      ∃ fuel ρ o o' s', last.result? m.tasks.size = some o ∧
        Sequential.run fuel (.ask (.perform (.program n body f)) .done)
          { scope := m.scope, library := m.library, stamps := m.stamps, world := w } =
            some (o', s') ∧
        Sequential.Mirrors ρ last.scope last.result? s' ∧ Outcome.Settles .unbinding ρ o o' ∧
        (w'.written : Multiset String) = s'.world.written) ∧
    ∀ limit, ∃ log, Runs start log (start.runAll limit w).1 ∧
      w.Answers log (start.runAll limit w).2 := by
  intro start
  refine ⟨fun log last w' hr hw hlast => ?_, fun limit => runs_runAll limit start w⟩
  obtain ⟨hlog, hlines⟩ := hw.accepting hsink
  obtain ⟨k, o, hy, hres, hframes⟩ := yields_program ho hended hf hwords hbody hr hlast hlog
  have hmirrors : Sequential.Mirrors (.above m.scope f m.stamps) last.scope last.result?
      { scope := m.scope, library := m.library, stamps := m.stamps, world := w } :=
    ⟨hwords.alike _ hframes, fun _ _ h => h.elim, fun a a' ha => ha.1 ▸ ha.2, hsink⟩
  have hθ : Thread.Alike .unbinding true (.above m.scope f m.stamps)
      (Job.program n body f).thread (Job.program n body f).thread :=
    Thread.alike_job
      (.force (.callable (.closure ⟨rfl, hn⟩ hbody ⟨rfl, Scope.exists_mem_chain hf⟩)) .none)
      fun _ => rfl
  have hnew : ∀ a a', (Correspondence.above m.scope f m.stamps).stamps a a' →
      a ∉ (List.range' m.stamps k : Multiset Nat) := by
    rintro a _ ⟨rfl, ha⟩ hin
    have hle := (List.mem_range'_1.1 (Multiset.mem_coe.1 hin)).1
    exact absurd ha (Nat.not_lt.2 hle)
  obtain ⟨ρ, o', s', _, hc, hoo, hm', _, hwritten⟩ := Sequential.follows_yields hy hθ hmirrors
    (Multiset.coe_nodup.2 List.nodup_range') hnew
  obtain ⟨fuel, hrun⟩ := Sequential.run_of_ends (Thread.comes_job.1 hc)
  exact ⟨fuel, ρ, o, o', s', hres, hrun, hm', hoo, hlines.trans hwritten.symm⟩

/-- Code that prints a number. -/
def printing (x : Int64) : List Instruction :=
  [⟨.start "two", .literal (.int x)⟩, ⟨.start "two", .literal (.text "print")⟩,
    ⟨.start "two", .primitive .lookup⟩, ⟨.start "two", .primitive .compose⟩,
    ⟨.start "two", .primitive .force⟩]

/-- Prints two numbers, and waits for the second only. -/
def printTwo : Body := ⟨printing 1 ++ printing 2, none, .start "two"⟩

/-- A machine with one frame that holds one word. -/
def withPrint : Machine :=
  { scope := ⟨#[{ bindings := [("print", .settled (.callable (.host .print)))] }]⟩, stamps := 1 }

/-- In the order of the machine two numbers are printed, and the sequential evaluator prints the
same. -/
theorem scheduling_preserves_outcome_printTwo :
    let start := (withPrint.addTask none (.program 0 printTwo 0)).2
    (start.runAll 200 {}).1.Ended ∧
    ∃ fuel o o' s', (start.runAll 200 {}).1.result? 0 = some o ∧
      Sequential.run fuel (.ask (.perform (.program 0 printTwo 0)) .done)
        { scope := withPrint.scope, stamps := 1 } = some (o', s') ∧
      (["1\n", "2\n"] : Multiset String) = s'.world.written := by
  intro start
  have hended : (start.runAll 200 {}).1.Ended := by
    unfold Ended
    decide +kernel
  have hwritten : (start.runAll 200 {}).2.written = ["2\n", "1\n"] := by decide +kernel
  have hwords : withPrint.scope.HoldsWords 0 := by
    intro x hx
    rw [Scope.chain_root (s := withPrint.scope) (f := 0) rfl rfl] at hx
    cases List.mem_singleton.1 hx
    refine ⟨rfl, fun b hb => ⟨.print, by decide, ?_⟩⟩
    cases List.mem_singleton.1 hb
    rfl
  have hbody : printTwo.Fits .unbinding := by
    refine ⟨?_, fun l hl => by cases hl⟩
    simp [printTwo, printing, codeFits, Op.Fits, Terms.permits, Terms.unbinding]
  obtain ⟨hany, horder⟩ := scheduling_preserves_outcome withPrint {} 0 printTwo 0
    (orderly_new rfl rfl rfl) (fun u hu => absurd hu (Nat.not_lt_zero u)) (by decide) (by decide)
    hwords hbody rfl
  obtain ⟨log, hr, hw⟩ := horder 200
  obtain ⟨fuel, ρ, o, o', s', hres, hrun, _, _, hlines⟩ := hany log _ _ hr hw hended
  refine ⟨hended, fuel, o, o', s', hres, hrun, hlines ▸ ?_⟩
  rw [hwritten]
  exact Multiset.coe_eq_coe.2 (List.Perm.swap ..)

end Concatenative
