import Concatenative.Value.Operations

/-! Joining values. Two values that are not empty lists join if they are two lists or two strings and
not otherwise, and what they make is of their kind. Main statement: the empty list joins with every
value and changes nothing, and it makes no difference which two of three neighbours are joined first
(`concat_associates`). -/
namespace Concatenative.Value

variable {a b c v w : Value}

theorem concat_void (a : Value) : a.concat void = .ok a := by
  cases a <;> simp [void, concat]

theorem void_concat (b : Value) : void.concat b = .ok b := by
  cases b <;> simp [void, concat]

/-! ## Two values -/

/-- The values of one kind that join, with what they make. -/
inductive Joins : Value → Value → Value → Prop
  | lists (xs ys : List Value) : Joins (list xs) (list ys) (list (xs ++ ys))
  | texts (s t : String) : Joins (text s) (text t) (text (s ++ t))

/-- Neither value is the empty list, and they are not of one kind that joins. -/
structure Mismatched (a b : Value) : Prop where
  left : a ≠ void
  right : b ≠ void
  lists : ¬ (a.kind = .list ∧ b.kind = .list)
  texts : ¬ (a.kind = .text ∧ b.kind = .text)

theorem joins_or_mismatched (ha : a ≠ void) (hb : b ≠ void) : (∃ v, Joins a b v) ∨ Mismatched a b := by
  cases a with
  | list xs =>
    cases b with
    | list ys => exact .inl ⟨_, .lists xs ys⟩
    | _ => exact .inr ⟨ha, hb, nofun, nofun⟩
  | text s =>
    cases b with
    | text t => exact .inl ⟨_, .texts s t⟩
    | _ => exact .inr ⟨ha, hb, nofun, nofun⟩
  | _ => exact .inr ⟨ha, hb, nofun, nofun⟩

namespace Joins

theorem concat_eq (h : Joins a b v) : a.concat b = .ok v := by
  cases h <;> simp [concat]

theorem kind_left (h : Joins a b v) : v.kind = a.kind := by
  cases h <;> rfl

theorem kind_right (h : Joins a b v) : v.kind = b.kind := by
  cases h <;> rfl

theorem ne_void_left (h : Joins a b v) (ha : a ≠ void) : v ≠ void := by
  cases h with
  | lists xs ys =>
    intro hv
    obtain ⟨rfl, _⟩ : xs = [] ∧ ys = [] := by simpa [void] using hv
    exact ha rfl
  | texts s t => nofun

theorem ne_void_right (h : Joins a b v) (hb : b ≠ void) : v ≠ void := by
  cases h with
  | lists xs ys =>
    intro hv
    obtain ⟨_, rfl⟩ : xs = [] ∧ ys = [] := by simpa [void] using hv
    exact hb rfl
  | texts s t => nofun

theorem assoc (hv : Joins a b v) (hw : Joins b c w) : ∃ u, Joins v c u ∧ Joins a w u := by
  cases hv with
  | lists xs ys =>
    cases hw with
    | lists _ zs =>
      exact ⟨_, .lists (xs ++ ys) zs, List.append_assoc xs ys zs ▸ .lists xs (ys ++ zs)⟩
  | texts r s =>
    cases hw with
    | texts _ t => exact ⟨_, .texts (r ++ s) t, String.append_assoc ▸ .texts r (s ++ t)⟩

end Joins

/-- A failure for a mismatch of kinds. -/
def Refused (o : Outcome) : Prop := ∃ e, o = .error e ∧ e.kind = .typeMismatch

theorem Refused.bind {o : Outcome} (h : Refused o) (f : Value → Outcome) : Refused (o >>= f) := by
  obtain ⟨e, rfl, he⟩ := h
  exact ⟨e, rfl, he⟩

namespace Mismatched

theorem refused (h : Mismatched a b) : Refused (a.concat b) := by
  refine ⟨Cause.notConcatenable a.kind b.kind, ?_, rfl⟩
  unfold concat
  split
  · exact absurd ⟨rfl, rfl⟩ h.lists
  · exact absurd ⟨rfl, rfl⟩ h.texts
  · exact absurd rfl h.right
  · exact absurd rfl h.left
  · rfl

/-- What was joined to the left of a mismatch is refused by its right side. -/
theorem joined_left (h : Mismatched b c) (hv : Joins a b v) : Mismatched v c where
  left := hv.ne_void_right h.left
  right := h.right
  lists := hv.kind_right ▸ h.lists
  texts := hv.kind_right ▸ h.texts

/-- What was joined to the right of a mismatch is refused by its left side. -/
theorem joined_right (h : Mismatched a b) (hw : Joins b c w) : Mismatched a w where
  left := h.left
  right := hw.ne_void_left h.right
  lists := hw.kind_left ▸ h.lists
  texts := hw.kind_left ▸ h.texts

end Mismatched

/-! ## Three values -/

/-- The same value, or none either way for a mismatch of kinds. -/
def Agree (l r : Outcome) : Prop := (∃ v, l = .ok v ∧ r = .ok v) ∨ (Refused l ∧ Refused r)

/-- Joining two values comes to a value or is refused. -/
theorem agree_concat (a b : Value) : Agree (a.concat b) (a.concat b) := by
  by_cases ha : a = void
  · exact .inl ⟨b, ha ▸ void_concat b, ha ▸ void_concat b⟩
  by_cases hb : b = void
  · exact .inl ⟨a, hb ▸ concat_void a, hb ▸ concat_void a⟩
  rcases joins_or_mismatched ha hb with ⟨v, hv⟩ | h
  · exact .inl ⟨v, hv.concat_eq, hv.concat_eq⟩
  · exact .inr ⟨h.refused, h.refused⟩

theorem agree_of_ne_void (ha : a ≠ void) (hb : b ≠ void) (hc : c ≠ void) :
    Agree (a.concat b >>= (·.concat c)) (b.concat c >>= a.concat) := by
  rcases joins_or_mismatched ha hb with ⟨v, hv⟩ | hab <;>
    rcases joins_or_mismatched hb hc with ⟨w, hw⟩ | hbc
  · obtain ⟨u, hl, hr⟩ := hv.assoc hw
    rw [hv.concat_eq, hw.concat_eq]
    exact .inl ⟨u, hl.concat_eq, hr.concat_eq⟩
  · rw [hv.concat_eq]
    exact .inr ⟨(hbc.joined_left hv).refused, hbc.refused.bind _⟩
  · rw [hw.concat_eq]
    exact .inr ⟨hab.refused.bind _, (hab.joined_right hw).refused⟩
  · exact .inr ⟨hab.refused.bind _, hbc.refused.bind _⟩

/-- The empty list joins with every value and changes nothing. Three values make the same value
whichever two neighbours are joined first, or fail for a mismatch of kinds either way. -/
theorem concat_associates (a b c : Value) :
    a.concat void = .ok a ∧ void.concat a = .ok a ∧
    Agree (a.concat b >>= (·.concat c)) (b.concat c >>= a.concat) := by
  refine ⟨concat_void a, void_concat a, ?_⟩
  by_cases ha : a = void
  · subst ha
    have hright : (b.concat c >>= void.concat) = b.concat c := by
      rw [funext void_concat]
      exact bind_pure _
    rw [void_concat, hright]
    exact agree_concat b c
  by_cases hb : b = void
  · subst hb
    rw [concat_void, void_concat]
    exact agree_concat a c
  by_cases hc : c = void
  · subst hc
    have hleft : (a.concat b >>= (·.concat void)) = a.concat b := by
      simp only [concat_void]
      exact bind_pure _
    rw [concat_void, hleft]
    exact agree_concat a b
  exact agree_of_ne_void ha hb hc

/-- The empty string is not the empty list, so a list refuses it. -/
example : (void.concat (list [none]) >>= (·.concat (text ""))) =
    .error (Cause.notConcatenable .list .text) := rfl

end Concatenative.Value
