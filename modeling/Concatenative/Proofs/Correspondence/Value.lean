import Mathlib.Data.List.Forall2
import Concatenative.Evaluation.Instruction
import Concatenative.Word.Arithmetic
import Concatenative.Word.Logic

/-! Values that differ in names only. Frames, tasks and stamps are numbers, and which number one of
them is given says nothing about a program. A `Correspondence` says which numbers of two runs stand
for the same thing, and `Value.Alike` carries it over to values: what is alike is told apart by no
operation of the language. `Terms` say at the same time what code in these values may do and where
it may stand, so a value that is alike to itself is one that keeps to the terms. -/
namespace Concatenative

/-- What code may do, and where it may stand. -/
structure Terms where
  places : Location → Prop
  /-- Names may be bound. -/
  binds : Prop
  /-- Modules may be loaded. -/
  loads : Prop
  /-- Words may be called that were added to the language. -/
  foreign : Prop

namespace Terms

def permits (p : Terms) : Primitive → Prop
  | .bind | .rebind => p.binds
  | .load | .access => p.loads
  | _ => True

def permitsWord (p : Terms) : Word → Prop
  | .foreign _ => p.foreign
  | _ => True

end Terms

mutual

def Op.Fits (p : Terms) : Op → Prop
  | .literal _ => True
  | .group ⟨code, tail, _⟩ => codeFits p code ∧ ∀ l, tail = some l → p.places l
  | .primitive q => p.permits q

/-- Code keeps to the terms, at every depth. -/
def codeFits (p : Terms) : List Instruction → Prop
  | [] => True
  | ⟨l, op⟩ :: rest => p.places l ∧ op.Fits p ∧ codeFits p rest

end

def Body.Fits (p : Terms) (b : Body) : Prop :=
  codeFits p b.code ∧ ∀ l, b.tailForce = some l → p.places l

theorem Op.fits_group {p : Terms} {b : Body} : (Op.group b).Fits p ↔ b.Fits p := by
  obtain ⟨code, tailForce, location⟩ := b
  rw [Op.Fits, Body.Fits]

namespace Failure

/-- If a place is blamed, it is one of the terms. -/
def Placed (p : Terms) (e : Failure) : Prop := ∀ l, e.location = some l → p.places l

/-- A place of the terms is blamed. -/
def Blamed (p : Terms) (e : Failure) : Prop := ∃ l, e.location = some l ∧ p.places l

theorem Blamed.placed {p : Terms} {e : Failure} (h : e.Blamed p) : e.Placed p := by
  intro l hl
  obtain ⟨l', hl', hp⟩ := h
  rw [hl] at hl'
  cases hl'
  exact hp

theorem placed_of_cause (p : Terms) (c : Cause) : (c : Failure).Placed p := by
  intro l hl
  cases hl

/-- Blaming a place of the terms. -/
theorem Placed.orAt {p : Terms} {e : Failure} {l : Location} (h : e.Placed p) (hl : p.places l) :
    (e.orAt l).Blamed p := by
  rcases e with ⟨cause, _ | l'⟩
  · exact ⟨l, rfl, hl⟩
  · exact ⟨l', rfl, h l' rfl⟩

end Failure

/-- Which numbers of two runs stand for the same. Stamps tell callables apart, so no stamp may stand
for two. -/
structure Correspondence where
  stamps : Nat → Nat → Prop
  frames : FrameId → FrameId → Prop
  tasks : TaskId → TaskId → Prop
  unique : ∀ {a a' b b'}, stamps a a' → stamps b b' → (a = b ↔ a' = b')

namespace Correspondence

instance : LE Correspondence :=
  ⟨fun ρ σ => (∀ a a', ρ.stamps a a' → σ.stamps a a') ∧ (∀ f f', ρ.frames f f' → σ.frames f f') ∧
    ∀ t t', ρ.tasks t t' → σ.tasks t t'⟩

theorem le_refl (ρ : Correspondence) : ρ ≤ ρ := ⟨fun _ _ => id, fun _ _ => id, fun _ _ => id⟩

theorem le_trans {ρ σ τ : Correspondence} (h : ρ ≤ σ) (h' : σ ≤ τ) : ρ ≤ τ :=
  ⟨fun a a' ha => h'.1 a a' (h.1 a a' ha), fun f f' hf => h'.2.1 f f' (h.2.1 f f' hf),
    fun t t' ht => h'.2.2 t t' (h.2.2 t t' ht)⟩

end Correspondence

mutual

/-- The same but for names that correspond. -/
inductive Value.Alike (p : Terms) (ρ : Correspondence) : Value → Value → Prop
  | none : Value.Alike p ρ .none .none
  | int (n : Int64) : Value.Alike p ρ (.int n) (.int n)
  | float (x : Float) : Value.Alike p ρ (.float x) (.float x)
  | bool (b : Bool) : Value.Alike p ρ (.bool b) (.bool b)
  | text (s : String) : Value.Alike p ρ (.text s) (.text s)
  | list {as bs : List Value} : Value.AllAlike p ρ as bs → Value.Alike p ρ (.list as) (.list bs)
  | callable {c c' : Callable} : Callable.Alike p ρ c c' → Value.Alike p ρ (.callable c) (.callable c')

inductive Value.AllAlike (p : Terms) (ρ : Correspondence) : List Value → List Value → Prop
  | nil : Value.AllAlike p ρ [] []
  | cons {a b : Value} {as bs : List Value} : Value.Alike p ρ a b → Value.AllAlike p ρ as bs →
      Value.AllAlike p ρ (a :: as) (b :: bs)

inductive Callable.Alike (p : Terms) (ρ : Correspondence) : Callable → Callable → Prop
  | closure {n n' : Nat} {body : Body} {f f' : FrameId} : ρ.stamps n n' → body.Fits p →
      ρ.frames f f' → Callable.Alike p ρ (.closure n body f) (.closure n' body f')
  | composed {n n' : Nat} {f f' g g' : Value} : ρ.stamps n n' → Value.Alike p ρ f f' →
      Value.Alike p ρ g g' → Callable.Alike p ρ (.composed n f g) (.composed n' f' g')
  | guarded {n n' : Nat} {d d' h h' : Deferred} : ρ.stamps n n' → Deferred.Alike p ρ d d' →
      Deferred.Alike p ρ h h' → Callable.Alike p ρ (.guarded n d h) (.guarded n' d' h')
  | reducer {n n' : Nat} {v v' s s' : Value} : ρ.stamps n n' → Value.Alike p ρ v v' →
      Value.Alike p ρ s s' → Callable.Alike p ρ (.reducer n v s) (.reducer n' v' s')
  | host {w : Word} : p.permitsWord w → Callable.Alike p ρ (.host w) (.host w)

inductive Deferred.Alike (p : Terms) (ρ : Correspondence) : Deferred → Deferred → Prop
  | settled {v v' : Value} : Value.Alike p ρ v v' → Deferred.Alike p ρ (.settled v) (.settled v')
  | rejected {e : Failure} : e.Blamed p → Deferred.Alike p ρ (.rejected e) (.rejected e)
  | pending {t t' : TaskId} : ρ.tasks t t' → Deferred.Alike p ρ (.pending t) (.pending t')

end

variable {p : Terms} {ρ σ : Correspondence}

/-! ## More names -/

mutual

theorem Value.Alike.mono (h : ρ ≤ σ) {v v' : Value} : v.Alike p ρ v' → v.Alike p σ v'
  | .none => .none
  | .int n => .int n
  | .float x => .float x
  | .bool b => .bool b
  | .text s => .text s
  | .list hs => .list (Value.AllAlike.mono h hs)
  | .callable hc => .callable (Callable.Alike.mono h hc)

theorem Value.AllAlike.mono (h : ρ ≤ σ) {as bs : List Value} :
    Value.AllAlike p ρ as bs → Value.AllAlike p σ as bs
  | .nil => .nil
  | .cons ha hs => .cons (Value.Alike.mono h ha) (Value.AllAlike.mono h hs)

theorem Callable.Alike.mono (h : ρ ≤ σ) {c c' : Callable} : c.Alike p ρ c' → c.Alike p σ c'
  | .closure hn hb hf => .closure (h.1 _ _ hn) hb (h.2.1 _ _ hf)
  | .composed hn hf hg => .composed (h.1 _ _ hn) (Value.Alike.mono h hf) (Value.Alike.mono h hg)
  | .guarded hn hd hh =>
    .guarded (h.1 _ _ hn) (Deferred.Alike.mono h hd) (Deferred.Alike.mono h hh)
  | .reducer hn hv hs => .reducer (h.1 _ _ hn) (Value.Alike.mono h hv) (Value.Alike.mono h hs)
  | .host hw => .host hw

theorem Deferred.Alike.mono (h : ρ ≤ σ) {d d' : Deferred} : d.Alike p ρ d' → d.Alike p σ d'
  | .settled hv => .settled (Value.Alike.mono h hv)
  | .rejected he => .rejected he
  | .pending ht => .pending (h.2.2 _ _ ht)

end

theorem Value.allAlike_iff {as bs : List Value} :
    Value.AllAlike p ρ as bs ↔ List.Forall₂ (Value.Alike p ρ) as bs := by
  constructor
  · intro h
    induction as generalizing bs with
    | nil => cases h; exact .nil
    | cons a as ih =>
      cases h with
      | cons ha hs => exact .cons ha (ih hs)
  · intro h
    induction h with
    | nil => exact .nil
    | cons ha _ ih => exact .cons ha ih

theorem Value.alike_list {as bs : List Value} :
    (Value.list as).Alike p ρ (.list bs) ↔ List.Forall₂ (Value.Alike p ρ) as bs := by
  rw [← Value.allAlike_iff]
  constructor
  · rintro ⟨h⟩
    assumption
  · exact .list

/-! ## What does not tell values apart -/

theorem Value.Alike.kind_eq {v v' : Value} (h : v.Alike p ρ v') : v.kind = v'.kind := by
  cases h <;> rfl

theorem Value.Alike.isCallable_eq {v v' : Value} (h : v.Alike p ρ v') :
    v.isCallable = v'.isCallable := by
  cases h <;> rfl

theorem Value.Alike.toInt_eq {v v' : Value} (h : v.Alike p ρ v') : v.toInt = v'.toInt := by
  cases h <;> rfl

theorem Value.Alike.toFloat_eq {v v' : Value} (h : v.Alike p ρ v') : v.toFloat = v'.toFloat := by
  cases h <;> rfl

theorem Value.Alike.truth_eq {v v' : Value} (h : v.Alike p ρ v') : v.truth = v'.truth := by
  cases h with
  | list hs => cases hs <;> rfl
  | _ => rfl

theorem Value.AllAlike.truths_eq {as bs : List Value} (h : Value.AllAlike p ρ as bs) :
    as.map Value.truth = bs.map Value.truth := by
  rw [Value.allAlike_iff] at h
  induction h with
  | nil => rfl
  | cons ha _ ih => rw [List.map_cons, List.map_cons, ha.truth_eq, ih]

mutual

theorem Value.Alike.tailForce_eq {v v' : Value} : v.Alike p ρ v' → v.tailForce? = v'.tailForce?
  | .none | .int _ | .float _ | .bool _ | .text _ | .list _ => rfl
  | .callable hc => by
    rw [Value.tailForce?, Value.tailForce?, Callable.Alike.tailForce_eq hc]

theorem Callable.Alike.tailForce_eq {c c' : Callable} :
    c.Alike p ρ c' → c.tailForce? = c'.tailForce?
  | .closure _ _ _ => rfl
  | .composed _ hf _ => by
    rw [Callable.tailForce?, Callable.tailForce?, Value.Alike.tailForce_eq hf]
  | .guarded _ _ _ | .reducer _ _ _ | .host _ => rfl

end

theorem Callable.Alike.isTail_eq {c c' : Callable} (h : c.Alike p ρ c') : c.isTail = c'.isTail := by
  rw [Callable.isTail, Callable.isTail, h.tailForce_eq]

theorem Callable.Alike.display_eq {c c' : Callable} (h : c.Alike p ρ c') :
    c.display = c'.display := by
  cases h <;> rfl

mutual

theorem Value.Alike.inspect_eq {v v' : Value} : v.Alike p ρ v' → v.inspect = v'.inspect
  | .none | .int _ | .float _ | .bool _ | .text _ => rfl
  | .list .nil => rfl
  | .list (.cons ha hs) => by
    rw [Value.inspect, Value.inspect, Value.Alike.inspect_eq ha, Value.AllAlike.inspect_eq hs]
  | .callable hc => by rw [Value.inspect, Value.inspect, hc.display_eq]

theorem Value.AllAlike.inspect_eq {as bs : List Value} :
    Value.AllAlike p ρ as bs → Value.inspectRest as = Value.inspectRest bs
  | .nil => rfl
  | .cons ha hs => by
    rw [Value.inspectRest, Value.inspectRest, Value.Alike.inspect_eq ha,
      Value.AllAlike.inspect_eq hs]

end

theorem Value.Alike.display_eq {v v' : Value} (h : v.Alike p ρ v') : v.display = v'.display := by
  have hi := h.inspect_eq
  cases h with
  | text s => rfl
  | _ => exact hi

theorem Correspondence.beq_stamps {a a' b b' : Nat} (ha : ρ.stamps a a') (hb : ρ.stamps b b') :
    (a == b) = (a' == b') := by
  rw [Bool.eq_iff_iff, beq_iff_eq, beq_iff_eq]
  exact ρ.unique ha hb

/-- Callables are told apart by their stamps, and these correspond one to one. -/
theorem Callable.Alike.same_eq {c c' d d' : Callable} (hc : c.Alike p ρ c') (hd : d.Alike p ρ d') :
    c.same d = c'.same d' := by
  cases hc with
  | closure hn =>
    cases hd with
    | closure hm => exact Correspondence.beq_stamps hn hm
    | _ => rfl
  | composed hn =>
    cases hd with
    | composed hm => exact Correspondence.beq_stamps hn hm
    | _ => rfl
  | guarded hn =>
    cases hd with
    | guarded hm => exact Correspondence.beq_stamps hn hm
    | _ => rfl
  | reducer hn =>
    cases hd with
    | reducer hm => exact Correspondence.beq_stamps hn hm
    | _ => rfl
  | host => cases hd <;> rfl

mutual

theorem Value.Alike.same_eq {a a' : Value} :
    a.Alike p ρ a' → ∀ {b b' : Value}, b.Alike p ρ b' → a.same b = a'.same b'
  | .none, _, _, hb => by cases hb <;> rfl
  | .int _, _, _, hb => by cases hb <;> rfl
  | .float _, _, _, hb => by cases hb <;> rfl
  | .bool _, _, _, hb => by cases hb <;> rfl
  | .text _, _, _, hb => by cases hb <;> rfl
  | .list hs, _, _, hb => by
    cases hb with
    | list hs' =>
      rw [Value.same, Value.same]
      exact Value.AllAlike.same_eq hs hs'
    | _ => simp only [Value.same]
  | .callable hc, _, _, hb => by
    cases hb with
    | callable hd =>
      rw [Value.same, Value.same]
      exact hc.same_eq hd
    | _ => simp only [Value.same]

theorem Value.AllAlike.same_eq {as as' : List Value} :
    Value.AllAlike p ρ as as' → ∀ {bs bs' : List Value}, Value.AllAlike p ρ bs bs' →
      Value.sameAll as bs = Value.sameAll as' bs'
  | .nil, _, _, hb => by cases hb <;> simp only [Value.sameAll]
  | .cons ha hs, _, _, hb => by
    cases hb with
    | nil => simp only [Value.sameAll]
    | cons hb hs' =>
      rw [Value.sameAll, Value.sameAll, Value.Alike.same_eq ha hb, Value.AllAlike.same_eq hs hs']

end

/-! ## Results -/

/-- Results that agree: both succeed with what `φ` relates, or both fail with one failure that `ε`
admits. -/
inductive Matches {α β : Type} (ε : Failure → Prop) (φ : α → β → Prop) :
    Except Failure α → Except Failure β → Prop
  | ok {a : α} {b : β} : φ a b → Matches ε φ (.ok a) (.ok b)
  | error {e : Failure} : ε e → Matches ε φ (.error e) (.error e)

namespace Matches

variable {α β γ δ : Type} {ε ε' : Failure → Prop} {φ φ' : α → β → Prop} {ψ : γ → δ → Prop}

theorem imp (hε : ∀ e, ε e → ε' e) (hφ : ∀ a b, φ a b → φ' a b) {r : Except Failure α}
    {r' : Except Failure β} (h : Matches ε φ r r') : Matches ε' φ' r r' := by
  cases h with
  | ok h => exact .ok (hφ _ _ h)
  | error h => exact .error (hε _ h)

theorem bind {r : Except Failure α} {r' : Except Failure β} {f : α → Except Failure γ}
    {f' : β → Except Failure δ} (h : Matches ε φ r r')
    (hf : ∀ a b, φ a b → Matches ε ψ (f a) (f' b)) : Matches ε ψ (r >>= f) (r' >>= f') := by
  cases h with
  | ok h => exact hf _ _ h
  | error h => exact .error h

end Matches

/-- Values that are alike, or one failure that blames no place outside the terms. -/
abbrev Outcome.Alike (p : Terms) (ρ : Correspondence) : Outcome → Outcome → Prop :=
  Matches (Failure.Placed p) (Value.Alike p ρ)

/-- Outcomes of jobs that were started: a failure blames a place. -/
abbrev Outcome.Settles (p : Terms) (ρ : Correspondence) : Outcome → Outcome → Prop :=
  Matches (Failure.Blamed p) (Value.Alike p ρ)

abbrev InputAlike (p : Terms) (ρ : Correspondence) : Option Value → Option Value → Prop :=
  Option.Rel (Value.Alike p ρ)

theorem Outcome.Alike.mono (h : ρ ≤ σ) {o o' : Outcome} (ho : Outcome.Alike p ρ o o') :
    Outcome.Alike p σ o o' :=
  Matches.imp (fun _ => id) (fun _ _ => Value.Alike.mono h) ho

theorem Outcome.Settles.mono (h : ρ ≤ σ) {o o' : Outcome} (ho : Outcome.Settles p ρ o o') :
    Outcome.Settles p σ o o' :=
  Matches.imp (fun _ => id) (fun _ _ => Value.Alike.mono h) ho

theorem optionRel_imp {α β : Type} {R S : α → β → Prop} (h : ∀ a b, R a b → S a b) {x : Option α}
    {y : Option β} (hx : Option.Rel R x y) : Option.Rel S x y := by
  cases hx with
  | none => exact .none
  | some hr => exact .some (h _ _ hr)

theorem InputAlike.mono (h : ρ ≤ σ) {x x' : Option Value} (hx : InputAlike p ρ x x') :
    InputAlike p σ x x' := optionRel_imp (fun _ _ => Value.Alike.mono h) hx

/-- A failure that the language reports itself blames no place yet. -/
theorem Matches.cause {α β : Type} {φ : α → β → Prop} (c : Cause) :
    Matches (Failure.Placed p) φ (.error (c : Failure)) (.error (c : Failure)) :=
  .error (Failure.placed_of_cause p c)

/-! ## Operations -/

namespace Value

theorem getElem?_rel {α β : Type} {R : α → β → Prop} {as : List α} {bs : List β}
    (h : List.Forall₂ R as bs) (n : Nat) : Option.Rel R as[n]? bs[n]? := by
  induction h generalizing n with
  | nil => exact .none
  | cons ha _ ih =>
    cases n with
    | zero => exact .some ha
    | succ n => exact ih n

theorem Alike.asList {v v' : Value} (h : v.Alike p ρ v') :
    Matches (Failure.Placed p) (List.Forall₂ (Value.Alike p ρ)) v.asList v'.asList := by
  cases h with
  | list hs => exact .ok (allAlike_iff.1 hs)
  | _ => exact .cause _

theorem Alike.append {v v' w w' : Value} (hv : v.Alike p ρ v') (hw : w.Alike p ρ w') :
    Outcome.Alike p ρ (v.append w) (v'.append w') :=
  hv.asList.bind fun _ _ hs => .ok (alike_list.2 (List.rel_append hs (.cons hw .nil)))

theorem Alike.singleton {v v' : Value} (h : v.Alike p ρ v') :
    Outcome.Alike p ρ v.singleton v'.singleton :=
  .ok (alike_list.2 (.cons h .nil))

theorem Alike.split {v v' : Value} (h : v.Alike p ρ v') : Outcome.Alike p ρ v.split v'.split := by
  refine h.asList.bind fun as bs hs => ?_
  have hl := getElem?_rel hs (as.length - 1)
  rw [← List.getLast?_eq_getElem?, hs.length_eq, ← List.getLast?_eq_getElem?] at hl
  generalize as.getLast? = last at hl
  generalize bs.getLast? = last' at hl
  cases hl with
  | none => exact .cause _
  | some hlast =>
    refine .ok (alike_list.2 (.cons (alike_list.2 ?_) (.cons hlast .nil)))
    rw [List.dropLast_eq_take, List.dropLast_eq_take, hs.length_eq]
    exact List.forall₂_take _ hs

theorem Alike.component (n : Nat) {v v' : Value} (h : v.Alike p ρ v') :
    Outcome.Alike p ρ (Evaluation.component n v) (Evaluation.component n v') := by
  refine h.asList.bind fun as bs hs => .ok ?_
  have hn := getElem?_rel hs n
  generalize as[n]? = found at hn
  generalize bs[n]? = found' at hn
  cases hn with
  | none => exact .none
  | some hv => exact hv

theorem Alike.concat {v v' w w' : Value} (hv : v.Alike p ρ v') (hw : w.Alike p ρ w') :
    Outcome.Alike p ρ (v.concat w) (v'.concat w') := by
  have hv₀ := hv
  have hw₀ := hw
  cases hw with
  | list ht =>
    cases hv with
    | list hs => exact .ok (alike_list.2 (List.rel_append (allAlike_iff.1 hs) (allAlike_iff.1 ht)))
    | _ =>
      cases ht with
      | nil => exact .ok hv₀
      | cons => exact .cause _
  | text t =>
    cases hv with
    | text s => exact .ok (.text _)
    | list hs =>
      cases hs with
      | nil => exact .ok hw₀
      | cons => exact .cause _
    | _ => exact .cause _
  | _ =>
    cases hv with
    | list hs =>
      cases hs with
      | nil => exact .ok hw₀
      | cons => exact .cause _
    | _ => exact .cause _

theorem Alike.find {as bs : List Value} (hs : List.Forall₂ (Value.Alike p ρ) as bs) (n : Int) :
    Outcome.Alike p ρ
      (match (if 0 ≤ n then as[n.toNat]? else Option.none) with
        | some v => .ok v
        | Option.none => .error (Cause.outOfRange n as.length))
      (match (if 0 ≤ n then bs[n.toNat]? else Option.none) with
        | some v => .ok v
        | Option.none => .error (Cause.outOfRange n bs.length)) := by
  rw [hs.length_eq]
  split_ifs with hn
  · have hf := getElem?_rel hs n.toNat
    generalize as[n.toNat]? = found at hf
    generalize bs[n.toNat]? = found' at hf
    cases hf with
    | none => exact .cause _
    | some hv => exact .ok hv
  · exact .cause _

theorem Alike.index {as bs : List Value} {i i' : Value} (hs : List.Forall₂ (Value.Alike p ρ) as bs)
    (hi : i.Alike p ρ i') : Outcome.Alike p ρ (Value.index as i) (Value.index bs i') := by
  cases hi with
  | int n => exact Alike.find hs n.toInt
  | bool b => exact Alike.find hs (if b then 1 else 0 : Int64).toInt
  | _ => exact .cause _

theorem Alike.apply {v v' : Value} {x x' : Option Value} (hv : v.Alike p ρ v')
    (hx : InputAlike p ρ x x') : Outcome.Alike p ρ (v.apply x) (v'.apply x') := by
  have hshown := hv.inspect_eq
  cases hx with
  | none => exact .ok hv
  | some hi =>
    cases hv with
    | list hs => exact Alike.index (allAlike_iff.1 hs) hi
    | _ =>
      simp only [Value.apply, hshown]
      exact .cause _

end Value

/-! ## Words -/

namespace Word

theorem requireNumber_alike (w : Word) {v v' : Value} (h : v.Alike p ρ v') :
    Matches (Failure.Placed p) (fun _ _ => True) (w.requireNumber v) (w.requireNumber v') := by
  have he : w.requireNumber v = w.requireNumber v' := by
    rw [requireNumber, requireNumber, Value.isNumeric, Value.isNumeric, h.kind_eq]
  rw [he, requireNumber]
  split
  · exact .ok trivial
  · exact .cause _

theorem arithmetic_alike (onFloats : Float → Float → Float) (onInts : Int64 → Int64 → Int64)
    {a a' b b' : Value} (ha : a.Alike p ρ a') (hb : b.Alike p ρ b') :
    (arithmetic onFloats onInts a b).Alike p ρ (arithmetic onFloats onInts a' b') := by
  simp only [arithmetic, ha.kind_eq, hb.kind_eq, ha.toFloat_eq, hb.toFloat_eq, ha.toInt_eq,
    hb.toInt_eq]
  split_ifs with hk
  · exact .float _
  · exact .int _

theorem foldNumbers_alike (w : Word) {join : Value → Value → Value}
    (hj : ∀ {a a' b b' : Value}, a.Alike p ρ a' → b.Alike p ρ b' →
      (join a b).Alike p ρ (join a' b')) {vs vs' : List Value}
    (hs : List.Forall₂ (Value.Alike p ρ) vs vs') {total total' : Value}
    (ht : total.Alike p ρ total') :
    Outcome.Alike p ρ (w.foldNumbers join total vs) (w.foldNumbers join total' vs') := by
  induction hs generalizing total total' with
  | nil => exact .ok ht
  | cons hv _ ih => exact (w.requireNumber_alike hv).bind fun _ _ _ => ih (hj ht hv)

theorem total_alike (w : Word) (start : Int64) {join : Value → Value → Value}
    (hj : ∀ {a a' b b' : Value}, a.Alike p ρ a' → b.Alike p ρ b' →
      (join a b).Alike p ρ (join a' b')) {x x' : Option Value} (hx : InputAlike p ρ x x') :
    Outcome.Alike p ρ (w.total start join x) (w.total start join x') := by
  cases hx with
  | none => exact .cause _
  | some hv =>
    have hv₀ := hv
    cases hv with
    | list hs => exact w.foldNumbers_alike hj (Value.allAlike_iff.1 hs) (.int start)
    | _ => exact (w.requireNumber_alike hv₀).bind fun _ _ _ => .ok hv₀

theorem oneOrTwo_alike (w : Word) {vs vs' : List Value}
    (hs : List.Forall₂ (Value.Alike p ρ) vs vs') :
    Matches (Failure.Placed p)
      (fun a b => a.1.Alike p ρ b.1 ∧ InputAlike p ρ a.2 b.2) (w.oneOrTwo vs) (w.oneOrTwo vs') := by
  rcases hs with _ | ⟨ha, _ | ⟨hb, _ | _⟩⟩
  · exact .cause _
  · exact (w.requireNumber_alike ha).bind fun _ _ _ => .ok ⟨ha, .none⟩
  · exact (w.requireNumber_alike ha).bind fun _ _ _ =>
      (w.requireNumber_alike hb).bind fun _ _ _ => .ok ⟨ha, .some hb⟩
  · exact .cause _

theorem negate_alike {v v' : Value} (h : v.Alike p ρ v') : (negate v).Alike p ρ (negate v') := by
  simp only [negate, h.kind_eq, h.toFloat_eq, h.toInt_eq]
  split_ifs with hk
  · exact .float _
  · exact .int _

theorem powerOf_alike {a a' b b' : Value} (ha : a.Alike p ρ a') (hb : b.Alike p ρ b') :
    (powerOf a b).Alike p ρ (powerOf a' b') := by
  have hfa := ha.toFloat_eq
  have hfb := hb.toFloat_eq
  cases ha with
  | int m =>
    cases hb with
    | int n =>
      simp only [powerOf]
      split_ifs with hn
      · exact .int _
      · exact .float _
    | _ =>
      simp only [powerOf, hfb]
      exact .float _
  | _ =>
    simp only [powerOf, hfa, hfb]
    exact .float _

/-- Words that take one number or two. -/
theorem pair_alike (w : Word) {one : Value → Value} {two : Value → Value → Value}
    (h₁ : ∀ {a a' : Value}, a.Alike p ρ a' → (one a).Alike p ρ (one a'))
    (h₂ : ∀ {a a' b b' : Value}, a.Alike p ρ a' → b.Alike p ρ b' → (two a b).Alike p ρ (two a' b'))
    {vs vs' : List Value} (hs : List.Forall₂ (Value.Alike p ρ) vs vs') :
    Outcome.Alike p ρ
      (do match ← w.oneOrTwo vs with
        | (a, none) => return one a
        | (a, some b) => return two a b)
      (do match ← w.oneOrTwo vs' with
        | (a, none) => return one a
        | (a, some b) => return two a b) := by
  refine (w.oneOrTwo_alike hs).bind ?_
  rintro ⟨a, x⟩ ⟨a', x'⟩ ⟨ha, hx⟩
  cases hx with
  | none => exact .ok (h₁ ha)
  | some hb => exact .ok (h₂ ha hb)

theorem diffOf_alike {x x' : Option Value} (hx : InputAlike p ρ x x') :
    Outcome.Alike p ρ (diffOf x) (diffOf x') := by
  cases hx with
  | none => exact .cause _
  | some hv =>
    have hv₀ := hv
    cases hv with
    | list hs =>
      exact pair_alike .diff negate_alike (arithmetic_alike _ _) (Value.allAlike_iff.1 hs)
    | _ => exact (requireNumber_alike .diff hv₀).bind fun _ _ _ => .ok (negate_alike hv₀)

theorem powOf_alike {x x' : Option Value} (hx : InputAlike p ρ x x') :
    Outcome.Alike p ρ (powOf x) (powOf x') := by
  cases hx with
  | none => exact .cause _
  | some hv =>
    have hv₀ := hv
    cases hv with
    | list hs => exact pair_alike .pow id powerOf_alike (Value.allAlike_iff.1 hs)
    | _ => exact (requireNumber_alike .pow hv₀).bind fun _ _ _ => .ok hv₀

theorem truthOf_alike (w : Word) (start : Bool) (join : Bool → Bool → Bool) {x x' : Option Value}
    (hx : InputAlike p ρ x x') :
    Outcome.Alike p ρ (w.truthOf start join x) (w.truthOf start join x') := by
  cases hx with
  | none => exact .cause _
  | some hv =>
    have hv₀ := hv
    cases hv with
    | list hs =>
      simp only [truthOf, ← List.foldl_map (f := Value.truth), hs.truths_eq]
      exact .ok (.bool _)
    | _ =>
      simp only [truthOf, hv₀.truth_eq]
      exact .ok (.bool _)

theorem eqOf_alike {x x' : Option Value} (hx : InputAlike p ρ x x') :
    Outcome.Alike p ρ (eqOf x) (eqOf x') := by
  cases hx with
  | none => exact .cause _
  | some hv =>
    cases hv with
    | list hs =>
      rcases hs with _ | ⟨ha, _ | ⟨hb, _ | _⟩⟩
      · exact .cause _
      · exact .cause _
      · simp only [eqOf, ha.same_eq hb]
        exact .ok (.bool _)
      · exact .cause _
    | _ => exact .cause _

theorem notOf_alike {x x' : Option Value} (hx : InputAlike p ρ x x') :
    Outcome.Alike p ρ (notOf x) (notOf x') := by
  cases hx with
  | none => exact .cause _
  | some hv =>
    have hv₀ := hv
    cases hv with
    | list hs =>
      refine .ok (Value.alike_list.2 ?_)
      rw [List.forall₂_map_left_iff, List.forall₂_map_right_iff]
      refine (Value.allAlike_iff.1 hs).imp fun a b h => ?_
      rw [h.truth_eq]
      exact .bool _
    | _ =>
      simp only [notOf, hv₀.truth_eq]
      exact .ok (.bool _)

end Word

end Concatenative
