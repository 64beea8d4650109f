import Concatenative.Proofs.Determinacy

/-! What two machines hold that differ in names only: frames, cells and shelves. A correspondence does
not have to know all names of a machine, and of what it does not know nothing is said. Operations that
are applied to what corresponds find the same and leave what corresponds (`Scope.Twins.declare`,
`Cell.Alike.read`, `Library.Alike.claim`). -/
namespace Concatenative

variable {p : Terms} {ρ σ : Correspondence}

/-! ## Names -/

namespace Correspondence

/-- Frames stand in the order of those that they stand for, and tasks stand for one task each. -/
structure Ordered (ρ : Correspondence) : Prop where
  frames : ∀ {f f' g g'}, ρ.frames f f' → ρ.frames g g' → (f < g ↔ f' < g')
  tasks : ∀ {t t' u u'}, ρ.tasks t t' → ρ.tasks u u' → (t = u ↔ t' = u')

theorem Ordered.anti (h : σ.Ordered) (hle : ρ ≤ σ) : ρ.Ordered :=
  ⟨fun hf hg => h.frames (hle.2.1 _ _ hf) (hle.2.1 _ _ hg),
    fun ht hu => h.tasks (hle.2.2 _ _ ht) (hle.2.2 _ _ hu)⟩

theorem Ordered.frames_eq (h : ρ.Ordered) {f f' g g' : FrameId} (hf : ρ.frames f f')
    (hg : ρ.frames g g') : f = g ↔ f' = g' := by
  have heq : ∀ a b : Nat, a = b ↔ ¬ a < b ∧ ¬ b < a := by omega
  rw [heq f g, heq f' g', h.frames hf hg, h.frames hg hf]

theorem Ordered.tasks_holder (h : ρ.Ordered) {x x' : Option TaskId} {t t' : TaskId}
    (hx : Option.Rel ρ.tasks x x') (ht : ρ.tasks t t') : x = some t ↔ x' = some t' := by
  cases hx with
  | none => simp
  | some hu => simpa using h.tasks hu ht

end Correspondence

theorem optionRel_map {α β γ δ : Type} {R : α → β → Prop} {S : γ → δ → Prop} {f : α → γ} {g : β → δ}
    {x : Option α} {y : Option β} (hx : Option.Rel R x y) (h : ∀ a b, R a b → S (f a) (g b)) :
    Option.Rel S (x.map f) (y.map g) := by
  cases hx with
  | none => exact .none
  | some hr => exact .some (h _ _ hr)

theorem optionRel_cases {α β : Type} {R : α → β → Prop} {x : Option α} {y : Option β}
    (h : Option.Rel R x y) :
    (x = none ∧ y = none) ∨ ∃ a b, x = some a ∧ y = some b ∧ R a b := by
  cases h with
  | none => exact .inl ⟨rfl, rfl⟩
  | some hr => exact .inr ⟨_, _, rfl, rfl, hr⟩

theorem forall₂_cases {α β : Type} {R : α → β → Prop} {as : List α} {bs : List β}
    (h : List.Forall₂ R as bs) :
    (as = [] ∧ bs = []) ∨ ∃ a rest b rest', as = a :: rest ∧ bs = b :: rest' ∧ R a b ∧
      List.Forall₂ R rest rest' := by
  cases h with
  | nil => exact .inl ⟨rfl, rfl⟩
  | cons ha hs => exact .inr ⟨_, _, _, _, rfl, rfl, ha, hs⟩

theorem Queue.pop?_rel {α β : Type} {R : α → β → Prop} {q : Queue α} {r : Queue β}
    (h : List.Forall₂ R q.toList r.toList) :
    (q.pop? = none ∧ r.pop? = none) ∨ ∃ a q' b r', q.pop? = some (a, q') ∧
      r.pop? = some (b, r') ∧ R a b ∧ List.Forall₂ R q'.toList r'.toList := by
  cases hq : q.pop? with
  | none =>
    rw [(pop?_eq_none_iff q).1 hq] at h
    exact .inl ⟨rfl, (pop?_eq_none_iff r).2 (List.forall₂_nil_left_iff.1 h)⟩
  | some x =>
    obtain ⟨a, q'⟩ := x
    rw [toList_of_pop? hq] at h
    cases hr : r.pop? with
    | none =>
      rw [(pop?_eq_none_iff r).1 hr] at h
      cases h
    | some y =>
      obtain ⟨b, r'⟩ := y
      rw [toList_of_pop? hr] at h
      cases h with
      | cons hab hs => exact .inr ⟨a, q', b, r', rfl, rfl, hab, hs⟩

theorem head?_rel {α β : Type} {R : α → β → Prop} {as : List α} {bs : List β}
    (h : List.Forall₂ R as bs) : Option.Rel R as.head? bs.head? := by
  cases h with
  | nil => exact .none
  | cons ha _ => exact .some ha

theorem tail_rel {α β : Type} {R : α → β → Prop} {as : List α} {bs : List β}
    (h : List.Forall₂ R as bs) : List.Forall₂ R as.tail bs.tail := by
  cases h with
  | nil => exact .nil
  | cons _ hs => exact hs

theorem getLast?_rel {α β : Type} {R : α → β → Prop} {as : List α} {bs : List β}
    (h : List.Forall₂ R as bs) : Option.Rel R as.getLast? bs.getLast? := by
  have hl := Value.getElem?_rel h (as.length - 1)
  rw [← List.getLast?_eq_getElem?, h.length_eq, ← List.getLast?_eq_getElem?] at hl
  exact hl

/-! ## Frames -/

/-- Frames that are alike, are of the same file and hang under frames that were made before them. -/
structure Frame.Twins (p : Terms) (ρ : Correspondence) (f f' : FrameId) (frame frame' : Frame) :
    Prop extends Frame.Alike p ρ f f' frame frame' where
  modulePath : frame'.modulePath = frame.modulePath
  library : frame'.library = frame.library
  above : ∀ g, frame.parent = some g → g < f

/-- Frames that correspond are there in both scopes and are twins. -/
def Scope.Twins (p : Terms) (ρ : Correspondence) (s s' : Scope) : Prop :=
  ∀ f f', ρ.frames f f' → ∃ frame frame', s.frames[f]? = some frame ∧
    s'.frames[f']? = some frame' ∧ Frame.Twins p ρ f f' frame frame'

theorem Frame.Twins.mono {f f' : FrameId} {frame frame' : Frame} (hle : ρ ≤ σ)
    (h : Frame.Twins p ρ f f' frame frame') : Frame.Twins p σ f f' frame frame' :=
  { h.toAlike.mono hle with modulePath := h.modulePath, library := h.library, above := h.above }

namespace Scope

variable {s s' : Scope} {f f' : FrameId} {name : String} {d d' : Deferred}

theorem Twins.mono (h : Scope.Twins p ρ s s') (hle : ρ ≤ σ) (hf : σ.frames = ρ.frames) :
    Scope.Twins p σ s s' := by
  intro f f' hff
  obtain ⟨frame, frame', hs, hs', ht⟩ := h f f' (hf ▸ hff)
  exact ⟨frame, frame', hs, hs', ht.mono hle⟩

theorem Twins.alike (h : Scope.Twins p ρ s s') : Scope.Alike p ρ s s' := by
  intro f f' hf
  obtain ⟨frame, frame', hs, hs', ht⟩ := h f f' hf
  exact ⟨frame, frame', hs, hs', ht.toAlike⟩

theorem Twins.lt (h : Scope.Twins p ρ s s') (hf : ρ.frames f f') :
    f < s.frames.size ∧ f' < s'.frames.size := by
  obtain ⟨frame, frame', hs, hs', _⟩ := h f f' hf
  exact ⟨(Array.getElem?_eq_some_iff.1 hs).1, (Array.getElem?_eq_some_iff.1 hs').1⟩

/-- The ways to the root lead through twins. -/
theorem Twins.chain (h : Scope.Twins p ρ s s') (hf : ρ.frames f f') :
    List.Forall₂ (fun x x' => ρ.frames x.1 x'.1 ∧ Frame.Twins p ρ x.1 x'.1 x.2 x'.2) (s.chain f)
      (s'.chain f') := by
  refine chain_rel (fun g g' hg => ?_) hf
  obtain ⟨frame, frame', hs, hs', ht⟩ := h g g' hg
  exact ⟨frame, frame', hs, hs', ⟨hg, ht⟩, ht.parent⟩

theorem Twins.rootOf (h : Scope.Twins p ρ s s') (hf : ρ.frames f f') :
    ρ.frames (s.rootOf f) (s'.rootOf f') := by
  have hl := getLast?_rel (h.chain hf)
  rw [Scope.rootOf, Scope.rootOf]
  generalize (s.chain f).getLast? = x at hl
  generalize (s'.chain f').getLast? = x' at hl
  cases hl with
  | none => exact hf
  | some hx => exact hx.1

theorem Twins.modulePath? (h : Scope.Twins p ρ s s') (hf : ρ.frames f f') :
    s'.modulePath? f' = s.modulePath? f := by
  have hr := findSome?_rel (S := Eq) (f := fun x => x.2.modulePath) (g := fun x => x.2.modulePath)
    (fun x x' hx => by rw [hx.2.modulePath]; cases x.2.modulePath <;> constructor; rfl) (h.chain hf)
  rw [Scope.modulePath?, Scope.modulePath?]
  generalize (s.chain f).findSome? _ = path at hr
  generalize (s'.chain f').findSome? _ = path' at hr
  cases hr with
  | none => rfl
  | some he => rw [he]

theorem Twins.requireLibrary (h : Scope.Twins p ρ s s') (hf : ρ.frames f f') :
    s'.requireLibrary f' = s.requireLibrary f := by
  have hany : (s'.chain f').any (fun x => x.2.library) = (s.chain f).any fun x => x.2.library := by
    have hchain := h.chain hf
    generalize s.chain f = c at hchain
    generalize s'.chain f' = c' at hchain
    induction hchain with
    | nil => rfl
    | cons hx _ ih => rw [List.any_cons, List.any_cons, hx.2.library, ih]
  rw [Scope.requireLibrary, Scope.requireLibrary, hany]

theorem Twins.owns {frame frame' : Frame} (h : Frame.Holds p ρ frame frame') (name : String) :
    frame'.owns name = frame.owns name := by
  have hg := h.get? name
  rw [Frame.owns, Frame.owns]
  generalize frame.get? name = x at hg
  generalize frame'.get? name = x' at hg
  cases hg <;> rfl

theorem Twins.owner? (h : Scope.Twins p ρ s s') (hf : ρ.frames f f') (name : String) :
    Option.Rel ρ.frames (s.owner? f name) (s'.owner? f' name) := by
  have hchain := h.chain hf
  rw [Scope.owner?, Scope.owner?]
  generalize s.chain f = c at hchain
  generalize s'.chain f' = c' at hchain
  induction hchain with
  | nil => exact .none
  | @cons x x' _ _ hx _ ih =>
    obtain ⟨g, frame⟩ := x
    obtain ⟨g', frame'⟩ := x'
    have howns := Twins.owns hx.2.toHolds name
    rw [List.find?_cons, List.find?_cons]
    dsimp only at howns ⊢
    rw [howns]
    cases frame.owns name with
    | true => exact .some hx.1
    | false => exact ih

/-- A new frame on both sides. -/
theorem Twins.add (h : Scope.Twins p ρ s s') {frame frame' : Frame} (hle : ρ ≤ σ)
    (hσ : σ.frames = (ρ.withFrame s.frames.size s'.frames.size).frames)
    (ht : Frame.Twins p σ s.frames.size s'.frames.size frame frame') :
    Scope.Twins p σ (s.add frame).2 (s'.add frame').2 := by
  intro g g' hg
  rw [hσ] at hg
  rcases hg with hg | ⟨rfl, rfl⟩
  · obtain ⟨old, old', hold, hold', hoo⟩ := h g g' hg
    obtain ⟨hlt, hlt'⟩ := h.lt hg
    refine ⟨old, old', ?_, ?_, hoo.mono hle⟩
    · rw [Scope.add, Array.getElem?_push_lt hlt, ← hold, Array.getElem?_eq_getElem hlt]
    · rw [Scope.add, Array.getElem?_push_lt hlt', ← hold', Array.getElem?_eq_getElem hlt']
  · exact ⟨frame, frame', Array.getElem?_push_size, Array.getElem?_push_size, ht⟩

/-- The same change of frames that correspond. -/
theorem Twins.modify (h : Scope.Twins p ρ s s') (ho : ρ.Ordered) (hf : ρ.frames f f')
    {u u' : Frame → Frame} (hu : ∀ frame frame', Frame.Twins p ρ f f' frame frame' →
      Frame.Twins p ρ f f' (u frame) (u' frame')) :
    Scope.Twins p ρ ⟨s.frames.modify f u⟩ ⟨s'.frames.modify f' u'⟩ := by
  intro g g' hg
  obtain ⟨frame, frame', hs, hs', ht⟩ := h g g' hg
  simp only [Array.getElem?_modify, hs, hs', ho.frames_eq hf hg]
  split
  · next he =>
    subst he
    have hfg := (ho.frames_eq hf hg).2 rfl
    subst hfg
    exact ⟨u frame, u' frame', rfl, rfl, hu frame frame' ht⟩
  · exact ⟨frame, frame', rfl, rfl, ht⟩

theorem Twins.declare (h : Scope.Twins p ρ s s') (ho : ρ.Ordered) (hf : ρ.frames f f')
    (hd : d.Alike p ρ d') (name : String) :
    Matches (Failure.Placed p) Eq (s.declare f name d).1 (s'.declare f' name d').1 ∧
      Scope.Twins p ρ (s.declare f name d).2 (s'.declare f' name d').2 := by
  obtain ⟨frame, frame', hs, hs', ht⟩ := h f f' hf
  have howns : s'.frames[f']?.any (·.owns name) = s.frames[f]?.any (·.owns name) := by
    rw [hs, hs', Option.any_some, Option.any_some, Twins.owns ht.toHolds name]
  unfold Scope.declare
  rw [howns]
  split
  · exact ⟨.cause _, h⟩
  · exact ⟨.ok rfl, h.modify ho hf fun _ _ hff =>
      { hff with bindings := .cons ⟨rfl, hd⟩ hff.bindings }⟩

theorem Twins.rebind (h : Scope.Twins p ρ s s') (ho : ρ.Ordered) (hf : ρ.frames f f')
    (hd : d.Alike p ρ d') (name : String) :
    Matches (Failure.Placed p) Eq (s.rebind f name d).1 (s'.rebind f' name d').1 ∧
      Scope.Twins p ρ (s.rebind f name d).2 (s'.rebind f' name d').2 := by
  have howner := h.owner? hf name
  unfold Scope.rebind
  generalize s.owner? f name = x at howner
  generalize s'.owner? f' name = x' at howner
  cases howner with
  | none => exact ⟨.cause _, h⟩
  | some hg =>
    refine ⟨.ok rfl, h.modify ho hg fun _ _ hff => { hff with bindings := ?_ }⟩
    simp only [Frame.replace]
    rw [List.forall₂_map_left_iff, List.forall₂_map_right_iff]
    refine hff.bindings.imp fun b b' hb => ?_
    rw [← hb.1]
    split
    · exact ⟨rfl, hd⟩
    · exact hb

end Scope

/-! ## Cells -/

namespace Cell

/-- Cells whose readers correspond. -/
structure Parallel (p : Terms) (ρ : Correspondence) (c c' : Cell) : Prop where
  outcome : Option.Rel (Outcome.Settles p ρ) c.outcome c'.outcome
  result : Option.Rel (Outcome.Settles p ρ) c.result c'.result
  holder : Option.Rel ρ.tasks c.holder c'.holder
  joined : Option.Rel ρ.tasks c.joined c'.joined
  waiting : List.Forall₂ ρ.tasks c.waiting c'.waiting

/-- The computation has ended and nobody is at the cell, so whoever reads it is answered at once. -/
structure Quiet (c : Cell) : Prop where
  holder : c.holder = none
  waiting : c.waiting = []
  ended : c.result ≠ none
  stored : c.outcome = c.result ∨ c.outcome = none ∧ c.joined = none

/-- Cells at which the same is found. Of a quiet cell it does not matter whether it was read. -/
inductive Alike (p : Terms) (ρ : Correspondence) (c c' : Cell) : Prop
  | parallel : Parallel p ρ c c' → Alike p ρ c c'
  | quiet : c.Quiet → c'.Quiet → Option.Rel (Outcome.Settles p ρ) c.result c'.result →
      Alike p ρ c c'

/-- Attempts to read that come to the same. -/
structure Read.Alike (p : Terms) (ρ : Correspondence) (r r' : Read) : Prop where
  cell : Cell.Alike p ρ r.cell r'.cell
  outcome : Option.Rel (Outcome.Settles p ρ) r.outcome r'.outcome
  woken : Option.Rel ρ.tasks r.woken r'.woken

variable {c c' : Cell} {o o' : Outcome} {t t' : TaskId}

theorem optionRel_settles_mono (h : ρ ≤ σ) {x x' : Option Outcome}
    (hx : Option.Rel (Outcome.Settles p ρ) x x') : Option.Rel (Outcome.Settles p σ) x x' :=
  optionRel_imp (fun _ _ => Outcome.Settles.mono h) hx

theorem Parallel.mono (h : ρ ≤ σ) (hc : Parallel p ρ c c') : Parallel p σ c c' :=
  ⟨optionRel_settles_mono h hc.outcome, optionRel_settles_mono h hc.result,
    optionRel_imp h.2.2 hc.holder, optionRel_imp h.2.2 hc.joined, hc.waiting.imp h.2.2⟩

theorem Alike.mono (h : ρ ≤ σ) (hc : Cell.Alike p ρ c c') : Cell.Alike p σ c c' := by
  cases hc with
  | parallel hc => exact .parallel (hc.mono h)
  | quiet hq hq' hr => exact .quiet hq hq' (optionRel_settles_mono h hr)

theorem parallel_new : Parallel p ρ {} {} := ⟨.none, .none, .none, .none, .nil⟩

theorem Alike.result (h : Cell.Alike p ρ c c') :
    Option.Rel (Outcome.Settles p ρ) c.result c'.result := by
  cases h with
  | parallel hc => exact hc.result
  | quiet _ _ hr => exact hr

/-- What a reader finds at a quiet cell. -/
theorem Quiet.read (h : c.Quiet) (reader : TaskId) :
    (c.read reader).cell.Quiet ∧ (c.read reader).cell.result = c.result ∧
      (c.read reader).outcome = c.result ∧ (c.read reader).woken = none := by
  obtain ⟨outcome, result, holder, joined, waiting⟩ := c
  obtain ⟨rfl, rfl, hended, hstored⟩ := h
  cases result with
  | none => exact absurd rfl hended
  | some o =>
    rcases hstored with he | ⟨he, hj⟩
    · cases he
      exact ⟨⟨rfl, rfl, hended, .inl rfl⟩, rfl, rfl, rfl⟩
    · cases he
      cases hj
      exact ⟨⟨rfl, rfl, hended, .inl rfl⟩, rfl, rfl, rfl⟩

theorem Parallel.handOn (h : Parallel p ρ c c') (ho : Outcome.Settles p ρ o o') :
    Read.Alike p ρ (c.handOn o) (c'.handOn o') :=
  ⟨.parallel { h with holder := head?_rel h.waiting, waiting := tail_rel h.waiting }, .some ho,
    head?_rel h.waiting⟩

theorem Parallel.store (h : Parallel p ρ c c') (ho : Outcome.Settles p ρ o o') :
    Read.Alike p ρ (c.store o) (c'.store o') :=
  Parallel.handOn { h with outcome := .some ho } ho

theorem Parallel.join (h : Parallel p ρ c c') (hord : ρ.Ordered) (hs : c.Sound)
    (hn : c.outcome = none) (hh : c.holder = some t) (ht : ρ.tasks t t') :
    Read.Alike p ρ (c.join t) (c'.join t') := by
  have hj : c.joined.all (· = t) = true := by
    cases hc : c.joined with
    | none => rfl
    | some r =>
      cases (hs.joined hn r hc).symm.trans hh
      simp
  have hj' : c'.joined.all (· = t') = true := by
    have hjoined := h.joined
    generalize c.joined = x at hj hjoined
    generalize c'.joined = x' at hjoined
    cases hjoined with
    | none => rfl
    | some hr => simpa [hord.tasks hr ht] using hj
  rw [Cell.join, Cell.join, if_pos hj, if_pos hj']
  obtain ⟨outcome, result, holder, joined, waiting⟩ := c
  obtain ⟨outcome', result', holder', joined', waiting'⟩ := c'
  obtain ⟨hout, hres, hholder, _, hwaiting⟩ := h
  cases hres with
  | none => exact ⟨.parallel ⟨hout, .none, hholder, .some ht, hwaiting⟩, .none, .none⟩
  | some ho => exact Parallel.store ⟨hout, .some ho, hholder, .some ht, hwaiting⟩ ho

theorem Parallel.read (h : Parallel p ρ c c') (hord : ρ.Ordered) (hs : c.Sound)
    (ht : ρ.tasks t t') : Read.Alike p ρ (c.read t) (c'.read t') := by
  have hiff := hord.tasks_holder h.holder ht
  obtain ⟨outcome, result, holder, joined, waiting⟩ := c
  obtain ⟨outcome', result', holder', joined', waiting'⟩ := c'
  have h₀ := h
  obtain ⟨hout, hres, hholder, hjoined, hwaiting⟩ := h
  dsimp only at hiff
  cases hout with
  | some ho =>
    simp only [Cell.read]
    by_cases hh : holder = some t
    · rw [if_pos hh, if_pos (hiff.1 hh)]
      exact h₀.handOn ho
    · rw [if_neg hh, if_neg (mt hiff.2 hh)]
      exact ⟨.parallel h₀, .some ho, .none⟩
  | none =>
    simp only [Cell.read]
    cases hholder with
    | none =>
      have hlock : Sound ⟨none, result, some t, joined, waiting⟩ :=
        ⟨hs.outcome, fun _ r hr => absurd (hs.joined rfl r hr) (Option.some_ne_none r).symm⟩
      exact Parallel.join ⟨.none, hres, .some ht, hjoined, hwaiting⟩ hord hlock rfl rfl ht
    | @some r r' hr =>
      have heq := hord.tasks hr ht
      dsimp only
      by_cases he : r = t
      · rw [if_pos he, if_pos (heq.1 he)]
        exact h₀.join hord hs rfl (congrArg some he) ht
      · rw [if_neg he, if_neg (mt heq.2 he)]
        exact ⟨.parallel ⟨.none, hres, .some hr, hjoined, List.rel_append hwaiting (.cons ht .nil)⟩,
          .none, .none⟩

theorem Alike.read (h : Cell.Alike p ρ c c') (hord : ρ.Ordered) (hs : c.Sound)
    (ht : ρ.tasks t t') : Read.Alike p ρ (c.read t) (c'.read t') := by
  cases h with
  | parallel hc => exact hc.read hord hs ht
  | quiet hq hq' hr =>
    obtain ⟨hquiet, hres, hout, hwoken⟩ := hq.read t
    obtain ⟨hquiet', hres', hout', hwoken'⟩ := hq'.read t'
    refine ⟨.quiet hquiet hquiet' ?_, ?_, ?_⟩
    · rwa [hres, hres']
    · rwa [hout, hout']
    · rw [hwoken, hwoken']
      exact .none

/-- A computation ends; nobody is to be woken but who waits for it. -/
theorem Alike.finish (h : Cell.Alike p ρ c c') (hn : c.result = none)
    (ho : Outcome.Settles p ρ o o') :
    Cell.Alike p ρ (c.finish o).1 (c'.finish o').1 ∧
      Option.Rel ρ.tasks (c.finish o).2 (c'.finish o').2 := by
  cases h with
  | parallel hc => exact ⟨.parallel { hc with result := .some ho }, hc.joined⟩
  | quiet hq _ _ => exact absurd hn hq.ended

end Cell

/-! ## Modules -/

/-- Shelves that hold the same module and that correspond in who loads it. -/
structure Shelf.Alike (ρ : Correspondence) (s s' : Shelf) : Prop where
  path : s'.path = s.path
  body : s'.body = s.body
  loader : Option.Rel ρ.tasks s.loader s'.loader
  waiting : List.Forall₂ ρ.tasks s.waiting s'.waiting

namespace Library

structure Alike (ρ : Correspondence) (l l' : Library) : Prop where
  settings : l'.settings = l.settings
  parseCount : l'.parseCount = l.parseCount
  shelves : List.Forall₂ (Shelf.Alike ρ) l.shelves l'.shelves

variable {l l' : Library} {t t' : TaskId} {path : Path}

theorem Alike.mono (h : ρ ≤ σ) (hl : Library.Alike ρ l l') : Library.Alike σ l l' := by
  refine ⟨hl.settings, hl.parseCount, hl.shelves.imp fun s s' hs => ?_⟩
  exact ⟨hs.path, hs.body, optionRel_imp h.2.2 hs.loader, hs.waiting.imp h.2.2⟩

theorem Alike.shelf? (h : Library.Alike ρ l l') (path : Path) :
    Option.Rel (Shelf.Alike ρ) (l.shelf? path) (l'.shelf? path) := by
  have hshelves := h.shelves
  rw [Library.shelf?, Library.shelf?]
  generalize l.shelves = shelves at hshelves
  generalize l'.shelves = shelves' at hshelves
  induction hshelves with
  | nil => exact .none
  | @cons s s' _ _ hs _ ih =>
    rw [List.find?_cons, List.find?_cons, hs.path]
    cases s.path.same path with
    | true => exact .some hs
    | false => exact ih

theorem Alike.update (h : Library.Alike ρ l l') {u u' : Shelf → Shelf}
    (hu : ∀ s s', Shelf.Alike ρ s s' → Shelf.Alike ρ (u s) (u' s')) :
    Library.Alike ρ (l.update path u) (l'.update path u') := by
  refine { h with shelves := ?_ }
  simp only [Library.update]
  rw [List.forall₂_map_left_iff, List.forall₂_map_right_iff]
  refine h.shelves.imp fun s s' hs => ?_
  rw [hs.path]
  split
  · exact hu s s' hs
  · exact hs

/-- Tasks that correspond are told the same about a module. -/
theorem Alike.claim (h : Library.Alike ρ l l') (hord : ρ.Ordered) (ht : ρ.tasks t t')
    (path : Path) :
    Library.Alike ρ (l.claim path t).1 (l'.claim path t').1 ∧
      (l'.claim path t').2 = (l.claim path t).2 := by
  have hs := h.shelf? path
  rw [Library.claim, Library.claim]
  generalize l.shelf? path = x at hs
  generalize l'.shelf? path = x' at hs
  cases hs with
  | none =>
    refine ⟨{ h with shelves := .cons ?_ h.shelves }, rfl⟩
    exact ⟨rfl, rfl, .some ht, .nil⟩
  | @some s s' hs =>
    obtain ⟨_, body, loader, waiting⟩ := s
    obtain ⟨_, body', loader', waiting'⟩ := s'
    obtain ⟨_, hb, hloader, _⟩ := hs
    dsimp only at hb hloader
    subst hb
    cases body' with
    | some body => exact ⟨h, rfl⟩
    | none =>
      cases hloader with
      | none => exact ⟨h.update fun _ _ hs => { hs with loader := .some ht }, rfl⟩
      | @some r r' hr =>
        have heq := hord.tasks hr ht
        dsimp only
        by_cases he : r = t
        · rw [if_pos he, if_pos (heq.1 he)]
          exact ⟨h, rfl⟩
        · rw [if_neg he, if_neg (mt heq.2 he)]
          exact ⟨h.update fun _ _ hs =>
            { hs with waiting := List.rel_append hs.waiting (.cons ht .nil) }, rfl⟩

theorem Alike.publish (h : Library.Alike ρ l l') (path : Path) (body : Body) :
    Library.Alike ρ (l.publish path body).1 (l'.publish path body).1 ∧
      List.Forall₂ ρ.tasks (l.publish path body).2 (l'.publish path body).2 := by
  refine ⟨h.update fun _ _ hs => ⟨hs.path, rfl, .none, .nil⟩, ?_⟩
  have hs := h.shelf? path
  simp only [Library.publish]
  generalize l.shelf? path = x at hs
  generalize l'.shelf? path = x' at hs
  cases hs with
  | none => exact .nil
  | some hs => exact hs.waiting

theorem Alike.giveUp (h : Library.Alike ρ l l') (path : Path) :
    Library.Alike ρ (l.giveUp path).1 (l'.giveUp path).1 ∧
      Option.Rel ρ.tasks (l.giveUp path).2 (l'.giveUp path).2 := by
  refine ⟨h.update fun _ _ hs =>
    { hs with loader := head?_rel hs.waiting, waiting := tail_rel hs.waiting }, ?_⟩
  have hs := h.shelf? path
  simp only [Library.giveUp]
  generalize l.shelf? path = x at hs
  generalize l'.shelf? path = x' at hs
  cases hs with
  | none => exact .none
  | some hs => exact head?_rel hs.waiting

end Library

end Concatenative
