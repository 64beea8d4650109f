import Concatenative.Evaluation.Job

/-! Closures in values. A closure runs a body over a frame, and `closures` lists the bodies and frames
of all closures that a value holds, however deep. What operators and words make of values holds no
closures but those that were there. A `Provenance` says which bodies may run over which frames; it
only ever grows. -/
namespace Concatenative

/-- A body and the frame it runs over. -/
abbrev Anchored := Body × FrameId

mutual

def Value.closures : Value → List Anchored
  | .list items => Value.closuresAll items
  | .callable c => c.closures
  | .none | .int _ | .float _ | .bool _ | .text _ => []

def Value.closuresAll : List Value → List Anchored
  | [] => []
  | v :: vs => v.closures ++ Value.closuresAll vs

def Callable.closures : Callable → List Anchored
  | .closure _ body frame => [(body, frame)]
  | .composed _ f g => f.closures ++ g.closures
  | .guarded _ d handler => d.closures ++ handler.closures
  | .reducer _ source step => source.closures ++ step.closures
  | .host _ => []

def Deferred.closures : Deferred → List Anchored
  | .settled v => v.closures
  | .rejected _ | .pending _ => []

end

def Outcome.closures : Outcome → List Anchored
  | .ok v => v.closures
  | .error _ => []

/-- The closures of an input, if there is one. -/
def inputClosures (x : Option Value) : List Anchored := (x.map Value.closures).getD []

/-- The closures of what may not be known yet. -/
def stackClosures (ds : List Deferred) : List Anchored := ds.flatMap Deferred.closures

namespace Value

theorem closuresAll_eq (vs : List Value) : closuresAll vs = vs.flatMap closures := by
  induction vs with
  | nil => rfl
  | cons v vs ih => rw [closuresAll, ih, List.flatMap_cons]

theorem closures_list (items : List Value) : (list items).closures = items.flatMap closures := by
  rw [closures, closuresAll_eq]

theorem closures_subset_of_mem {v : Value} {items : List Value} (h : v ∈ items) :
    v.closures ⊆ (list items).closures := by
  intro x hx
  rw [closures_list]
  exact List.mem_flatMap.2 ⟨v, h, hx⟩

theorem closures_list_subset {items items' : List Value} (h : items ⊆ items') :
    (list items).closures ⊆ (list items').closures := by
  rw [closures_list, closures_list]
  intro x hx
  obtain ⟨v, hv, hx⟩ := List.mem_flatMap.1 hx
  exact List.mem_flatMap.2 ⟨v, h hv, hx⟩

/-! ## Operators -/

theorem closures_append (items value : Value) :
    (items.append value).closures ⊆ items.closures ++ value.closures := by
  cases items with
  | list items =>
    have hlist : ((list items).append value).closures = (list (items ++ [value])).closures := rfl
    rw [hlist, closures_list, closures_list, List.flatMap_append, List.flatMap_singleton]
    exact List.Subset.refl _
  | _ => exact List.nil_subset _

theorem closures_concat (a b : Value) : (a.concat b).closures ⊆ a.closures ++ b.closures := by
  unfold concat
  split
  · next as bs =>
    rw [Outcome.closures, closures_list, closures_list, closures_list, List.flatMap_append]
    exact List.Subset.refl _
  · exact List.nil_subset _
  · exact List.subset_append_left _ _
  · exact List.subset_append_right _ _
  · exact List.nil_subset _

theorem closures_singleton (v : Value) : v.singleton.closures ⊆ v.closures := by
  rw [singleton, Outcome.closures, closures_list, List.flatMap_singleton]
  exact List.Subset.refl _

theorem split_list (items : List Value) : (list items).split = match items.getLast? with
    | some last => .ok (list [list items.dropLast, last])
    | Option.none => .error (Cause.emptyPop : Failure) := rfl

theorem closures_split (v : Value) : v.split.closures ⊆ v.closures := by
  cases v with
  | list items =>
    rw [split_list]
    cases hl : items.getLast? with
    | none => exact List.nil_subset _
    | some last =>
      simp only [Outcome.closures, closures, closuresAll, List.append_nil]
      refine List.append_subset.2 ⟨?_, closures_subset_of_mem (List.mem_of_getLast? hl)⟩
      exact closures_list_subset (List.dropLast_subset items)
  | _ => exact List.nil_subset _

theorem closures_component (n : Nat) (v : Value) :
    (Evaluation.component n v).closures ⊆ v.closures := by
  cases v with
  | list items =>
    have hcomp : Evaluation.component n (list items) = .ok (items[n]?.getD none) := rfl
    rw [hcomp, Outcome.closures]
    cases hn : items[n]? with
    | none => exact List.nil_subset _
    | some v => exact closures_subset_of_mem (List.mem_of_getElem? hn)
  | _ => exact List.nil_subset _

theorem closures_at (items : List Value) (n : Int64) : Outcome.closures
    (match (if 0 ≤ n.toInt then items[n.toInt.toNat]? else Option.none) with
      | some v => .ok v
      | Option.none => .error (Cause.outOfRange n.toInt items.length)) ⊆ (list items).closures := by
  split
  · next v hv =>
    split at hv
    · exact closures_subset_of_mem (List.mem_of_getElem? hv)
    · cases hv
  · exact List.nil_subset _

theorem closures_index (items : List Value) (i : Value) :
    (index items i).closures ⊆ (list items).closures := by
  cases i with
  | int n => exact closures_at items n
  | bool b => exact closures_at items (if b then 1 else 0)
  | _ => exact List.nil_subset _

theorem closures_apply (v : Value) (x : Option Value) : (v.apply x).closures ⊆ v.closures := by
  unfold apply
  split
  · exact List.Subset.refl _
  · exact closures_index _ _
  · exact List.nil_subset _

end Value

theorem Literal.closures_value (l : Literal) : l.value.closures = [] := by
  cases l <;> rfl

/-! ## Words -/

namespace Word

theorem closures_arithmetic (onFloats : Float → Float → Float) (onInts : Int64 → Int64 → Int64)
    (a b : Value) : (arithmetic onFloats onInts a b).closures = [] := by
  unfold arithmetic
  split <;> rfl

theorem closures_bind {α : Type} (r : Except Failure α) (f : α → Outcome) (cs : List Anchored)
    (h : ∀ a, r = .ok a → (f a).closures ⊆ cs) : Outcome.closures (r >>= f) ⊆ cs := by
  cases r with
  | error e => exact List.nil_subset _
  | ok a => exact h a rfl

theorem closures_foldNumbers (w : Word) (join : Value → Value → Value)
    (hj : ∀ a b, (join a b).closures = []) (total : Value) (ht : total.closures = [])
    (vs : List Value) : (w.foldNumbers join total vs).closures = [] := by
  induction vs generalizing total with
  | nil => exact ht
  | cons v vs ih =>
    refine List.subset_nil.1 (closures_bind _ _ _ fun _ _ => ?_)
    rw [ih (join total v) (hj total v)]
    exact List.Subset.refl _

theorem closures_total (w : Word) (start : Int64) (join : Value → Value → Value)
    (hj : ∀ a b, (join a b).closures = []) (x : Option Value) :
    (w.total start join x).closures ⊆ inputClosures x := by
  unfold total
  split
  · rw [closures_foldNumbers w join hj _ rfl]
    exact List.nil_subset _
  · exact closures_bind _ _ _ fun _ _ => List.Subset.refl _
  · exact List.nil_subset _

theorem closures_negate (v : Value) : (negate v).closures = [] := by
  unfold negate
  split <;> rfl

theorem closures_powerOf (a b : Value) : (powerOf a b).closures = [] := by
  unfold powerOf
  split
  · split <;> rfl
  · rfl

theorem closures_diffOf (x : Option Value) : (diffOf x).closures = [] := by
  unfold diffOf
  split
  · refine List.subset_nil.1 (closures_bind _ _ _ fun r _ => ?_)
    split
    · exact List.subset_nil.2 (closures_negate _)
    · exact List.subset_nil.2 (closures_arithmetic _ _ _ _)
  · refine List.subset_nil.1 (closures_bind _ _ _ fun _ _ => ?_)
    exact List.subset_nil.2 (closures_negate _)
  · rfl

theorem mem_of_oneOrTwo {w : Word} {items : List Value} {r : Value × Option Value}
    (h : w.oneOrTwo items = .ok r) : r.1 ∈ items := by
  unfold oneOrTwo at h
  split at h
  · next a =>
    cases ha : w.requireNumber a with
    | error e =>
      rw [ha] at h
      cases h
    | ok _ =>
      rw [ha] at h
      cases h
      exact List.mem_cons_self ..
  · next a b =>
    cases ha : w.requireNumber a with
    | error e =>
      rw [ha] at h
      cases h
    | ok _ =>
      cases hb : w.requireNumber b with
      | error e =>
        rw [ha, hb] at h
        cases h
      | ok _ =>
        rw [ha, hb] at h
        cases h
        exact List.mem_cons_self ..
  · cases h

theorem closures_powOf (x : Option Value) : (powOf x).closures ⊆ inputClosures x := by
  unfold powOf
  split
  · next items =>
    refine closures_bind _ _ _ fun r hr => ?_
    split
    · exact Value.closures_subset_of_mem (mem_of_oneOrTwo hr)
    · exact List.Subset.trans (List.subset_nil.2 (closures_powerOf _ _)) (List.nil_subset _)
  · exact closures_bind _ _ _ fun _ _ => List.Subset.refl _
  · exact List.nil_subset _

theorem closures_truthOf (w : Word) (start : Bool) (join : Bool → Bool → Bool) (x : Option Value) :
    (w.truthOf start join x).closures = [] := by
  unfold truthOf
  split <;> rfl

theorem closures_eqOf (x : Option Value) : (eqOf x).closures = [] := by
  unfold eqOf
  split <;> rfl

theorem closures_notOf (x : Option Value) : (notOf x).closures = [] := by
  unfold notOf
  split
  · next items =>
    rw [Outcome.closures, Value.closures_list, List.flatMap_map]
    exact List.flatMap_eq_nil_iff.2 fun _ _ => rfl
  · rfl
  · rfl

end Word

/-! ## Where code is from -/

/-- A group of a body at any depth, or the body itself. -/
inductive Body.Part (b : Body) : Body → Prop
  | self : Part b b
  | nested {l : Location} {inner outer : Body} : ⟨l, .group inner⟩ ∈ outer.code → Part b inner →
      Part b outer

/-- Which frames there are, which bodies may run over them, and which are of a module. -/
structure Provenance where
  frames : FrameId → Prop
  code : FrameId → Body → Prop
  modules : Path → Body → Prop

namespace Provenance

instance : LE Provenance :=
  ⟨fun w w' => (∀ f, w.frames f → w'.frames f) ∧ (∀ f b, w.code f b → w'.code f b) ∧
    ∀ p b, w.modules p b → w'.modules p b⟩

variable {w w' w'' : Provenance} {cs ds : List Anchored}

theorem le_refl (w : Provenance) : w ≤ w := ⟨fun _ => id, fun _ _ => id, fun _ _ => id⟩

theorem le_trans (h : w ≤ w') (h' : w' ≤ w'') : w ≤ w'' :=
  ⟨fun f hf => h'.1 f (h.1 f hf), fun f b hb => h'.2.1 f b (h.2.1 f b hb),
    fun p b hb => h'.2.2 p b (h.2.2 p b hb)⟩

/-- Nothing is said of any code. -/
def any : Provenance := ⟨fun _ => True, fun _ _ => True, fun _ _ => True⟩

/-- A body and all groups in it may run over a frame. -/
def Runs (w : Provenance) (x : Anchored) : Prop := w.frames x.2 ∧ ∀ b, b.Part x.1 → w.code x.2 b

def Knows (w : Provenance) (cs : List Anchored) : Prop := ∀ x ∈ cs, w.Runs x

/-- A body and all groups in it are of a module. -/
def Keeps (w : Provenance) (p : Path) (body : Body) : Prop := ∀ b, b.Part body → w.modules p b

theorem Runs.mono (h : w ≤ w') {x : Anchored} (hx : w.Runs x) : w'.Runs x :=
  ⟨h.1 _ hx.1, fun b hb => h.2.1 _ _ (hx.2 b hb)⟩

theorem Knows.mono (h : w ≤ w') (hc : w.Knows cs) : w'.Knows cs := fun x hx => (hc x hx).mono h

theorem Knows.of_subset (hc : w.Knows cs) (h : ds ⊆ cs) : w.Knows ds := fun x hx => hc x (h hx)

@[simp]
theorem knows_nil (w : Provenance) : w.Knows [] := fun _ hx => absurd hx List.not_mem_nil

@[simp]
theorem knows_append : w.Knows (cs ++ ds) ↔ w.Knows cs ∧ w.Knows ds := List.forall_mem_append

@[simp]
theorem knows_singleton {x : Anchored} : w.Knows [x] ↔ w.Runs x := List.forall_mem_singleton

theorem knows_of_any (h : any ≤ w) (cs : List Anchored) : w.Knows cs :=
  fun _ _ => ⟨h.1 _ trivial, fun _ _ => h.2.1 _ _ trivial⟩

end Provenance

end Concatenative
