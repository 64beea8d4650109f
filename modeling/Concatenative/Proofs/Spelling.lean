import Concatenative.Proofs.ReadingBack
import Concatenative.Value.Equality
import Mathlib.Tactic.TFAE

/-! Values known by their text. A value is plain if no float and no callable is in it. The text of a
plain value says where it ends, but for a number, which ends where no digit follows. So whatever stands
behind it the text is that of one plain value only (`Plain.unmistakable`). Main statement: plain values
are the same to a program exactly if they are one value, and exactly if their texts are one text
(`plain_values_by_text`). -/
namespace Concatenative

/-- Texts that start with all characters of a class that they can are equal part by part. -/
theorem append_inj_of_class {p : Char → Bool} {x y r s : List Char} (hx : ∀ c ∈ x, p c = true)
    (hy : ∀ c ∈ y, p c = true) (hr : ∀ c ∈ r.head?, p c = false) (hs : ∀ c ∈ s.head?, p c = false)
    (h : x ++ r = y ++ s) : x = y ∧ r = s := by
  have hspan : ∀ {x r : List Char}, (∀ c ∈ x, p c = true) → (∀ c ∈ r.head?, p c = false) →
      (x ++ r).takeWhile p = x := by
    intro x r hx hr
    rw [List.takeWhile_append_of_pos hx]
    cases r with
    | nil => exact List.append_nil x
    | cons c r => rw [List.takeWhile_cons_of_neg (by simp [hr c rfl]), List.append_nil]
  have hxy : x = y := by rw [← hspan hx hr, h, hspan hy hs]
  subst hxy
  exact ⟨rfl, List.append_cancel_left h⟩

namespace Value

/-- Made of `none`, integers, booleans, strings and lists. -/
inductive Plain : Value → Prop
  | none : Plain none
  | int (n : Int64) : Plain (int n)
  | bool (b : Bool) : Plain (bool b)
  | text (s : String) : Plain (text s)
  | list {vs : List Value} : (∀ v ∈ vs, Plain v) → Plain (list vs)

variable {a b v : Value} {as bs vs ws : List Value} {r s : List Char}

/-! ## Equality -/

theorem sameAll_iff (ha : ∀ a ∈ as, ∀ b : Value, b.Plain → (a.same b = true ↔ a = b))
    (hb : ∀ b ∈ bs, b.Plain) : sameAll as bs = true ↔ as = bs := by
  induction as generalizing bs with
  | nil => cases bs <;> simp [sameAll]
  | cons a as ih =>
    cases bs with
    | nil => simp [sameAll]
    | cons b bs =>
      obtain ⟨hab, has⟩ := List.forall_mem_cons.1 ha
      obtain ⟨hb, hbs⟩ := List.forall_mem_cons.1 hb
      rw [sameAll, Bool.and_eq_true, hab b hb, ih has hbs, List.cons.injEq]

theorem Plain.same_iff (ha : a.Plain) (hb : b.Plain) : a.same b = true ↔ a = b := by
  induction ha generalizing b with
  | none => cases hb <;> simp [same]
  | int n => cases hb <;> simp [same]
  | bool x => cases hb <;> simp [same]
  | text t => cases hb <;> simp [same]
  | list _ ih =>
    cases hb with
    | list hbs => rw [same, sameAll_iff (fun a ha b hb => ih a ha hb) hbs, list.injEq]
    | _ => simp [same]

/-! ## Where a text ends -/

/-- Numbers are written of these characters. -/
def isNumeral (c : Char) : Bool := c.isDigit || c = '-'

/-- A number that stands in front of the text ends there. -/
def Closes (s : List Char) : Prop := ∀ c ∈ s.head?, isNumeral c = false

/-- What the text of a list has behind its first element. -/
def listRest : List Value → List Char
  | [] => [' ', ']']
  | v :: vs => ',' :: ' ' :: (v.inspect.toList ++ listRest vs)

theorem toList_inspect_cons (v : Value) (vs : List Value) :
    (list (v :: vs)).inspect.toList = '[' :: ' ' :: (v.inspect.toList ++ listRest vs) := by
  have hrest : (String.join (inspectRest vs)).toList ++ [' ', ']'] = listRest vs := by
    rw [String.toList_join]
    induction vs with
    | nil => rfl
    | cons w vs ih => simp [inspectRest, listRest, ← ih]
  simp [inspect, ← hrest]

theorem closes_listRest (vs : List Value) (r : List Char) : Closes (listRest vs ++ r) := by
  cases vs with
  | nil => rintro c ⟨⟩; rfl
  | cons v vs => rintro c ⟨⟩; rfl

theorem isNumeral_of_mem_toString {n : Int} {c : Char} (h : c ∈ (toString n).toList) :
    isNumeral c = true := by
  have hn := Lexeme.Numeral.grammatical_ofInt n
  have hparts : (Lexeme.Numeral.ofInt n).chars =
      (Lexeme.Numeral.ofInt n).sign ++ (Lexeme.Numeral.ofInt n).whole := by
    simp [Lexeme.Numeral.chars, Lexeme.Numeral.ofInt]
  rw [← Lexeme.Numeral.chars_ofInt, hparts, List.mem_append] at h
  rcases h with h | h
  · rcases hn.sign with hs | hs <;> rw [hs] at h
    · cases h
    · rw [List.mem_singleton.1 h]
      rfl
  · rw [isNumeral, hn.whole.2 c h, Bool.true_or]

/-! ## Texts of two values -/

/-- The kind of the plain values whose text starts with a character. -/
def kindOfInitial (c : Char) : ValueKind :=
  if c = 'n' then .none
  else if c = 't' ∨ c = 'f' then .bool
  else if c = '"' then .text
  else if c = '[' then .list
  else .int

theorem kindOfInitial_of_isNumeral {c : Char} (h : isNumeral c = true) : kindOfInitial c = .int := by
  have hne : c ≠ 'n' ∧ c ≠ 't' ∧ c ≠ 'f' ∧ c ≠ '"' ∧ c ≠ '[' := by
    refine ⟨?_, ?_, ?_, ?_, ?_⟩ <;>
    · rintro rfl
      revert h
      decide
  simp [kindOfInitial, hne]

theorem Plain.initial (h : v.Plain) :
    ∃ c rest, v.inspect.toList = c :: rest ∧ kindOfInitial c = v.kind := by
  cases h with
  | none => exact ⟨'n', _, rfl, rfl⟩
  | int n =>
    obtain ⟨c, rest, hc⟩ := List.exists_cons_of_ne_nil
      (Lexeme.Numeral.chars_ne_nil (Lexeme.Numeral.grammatical_ofInt n.toInt).whole.1)
    rw [Lexeme.Numeral.chars_ofInt] at hc
    exact ⟨c, rest, hc, kindOfInitial_of_isNumeral (isNumeral_of_mem_toString (hc ▸ List.mem_cons_self))⟩
  | bool b => cases b <;> exact ⟨_, _, rfl, rfl⟩
  | text s => exact ⟨'"', _, String.toList_ofList, rfl⟩
  | @list vs _ =>
    cases vs with
    | nil => exact ⟨'[', _, rfl, rfl⟩
    | cons v vs => exact ⟨'[', _, toList_inspect_cons v vs, rfl⟩

theorem Plain.kind_eq (ha : a.Plain) (hb : b.Plain)
    (h : a.inspect.toList ++ r = b.inspect.toList ++ s) : a.kind = b.kind := by
  obtain ⟨c, x, hx, hc⟩ := ha.initial
  obtain ⟨d, y, hy, hd⟩ := hb.initial
  rw [hx, hy] at h
  rw [← hc, ← hd, (List.cons.inj h).1]

/-- Whatever stands behind the text of the value, it is not the text of another plain value. -/
def Unmistakable (a : Value) : Prop :=
  ∀ {b : Value} {r s : List Char}, b.Plain → Closes r → Closes s →
    a.inspect.toList ++ r = b.inspect.toList ++ s → a = b ∧ r = s

theorem listRest_append_inj (hv : ∀ v ∈ vs, v.Unmistakable) (hw : ∀ w ∈ ws, w.Plain)
    (h : listRest vs ++ r = listRest ws ++ s) : vs = ws ∧ r = s := by
  induction vs generalizing ws with
  | nil =>
    cases ws with
    | nil => exact ⟨rfl, List.append_cancel_left h⟩
    | cons w ws => cases h
  | cons v vs ih =>
    cases ws with
    | nil => cases h
    | cons w ws =>
      obtain ⟨hv, hvs⟩ := List.forall_mem_cons.1 hv
      obtain ⟨hw, hws⟩ := List.forall_mem_cons.1 hw
      simp only [listRest, List.cons_append, List.append_assoc, List.cons.injEq, true_and] at h
      obtain ⟨rfl, hrest⟩ := hv hw (closes_listRest vs r) (closes_listRest ws s) h
      obtain ⟨rfl, rfl⟩ := ih hvs hws hrest
      exact ⟨rfl, rfl⟩

theorem list_append_inj (hv : ∀ v ∈ vs, v.Unmistakable) (hw : ∀ w ∈ ws, w.Plain)
    (h : (list vs).inspect.toList ++ r = (list ws).inspect.toList ++ s) :
    list vs = list ws ∧ r = s := by
  cases vs with
  | nil =>
    cases ws with
    | nil => exact ⟨rfl, List.append_cancel_left h⟩
    | cons w ws =>
      rw [toList_inspect_cons] at h
      cases h
  | cons v vs =>
    cases ws with
    | nil =>
      rw [toList_inspect_cons] at h
      cases h
    | cons w ws =>
      simp only [toList_inspect_cons, List.cons_append, List.cons.injEq, true_and] at h
      -- With a comma in front the first element is one like those behind it.
      obtain ⟨hvs, hrs⟩ := listRest_append_inj hv hw (congrArg (',' :: ' ' :: ·) h)
      exact ⟨congrArg list hvs, hrs⟩

theorem Plain.unmistakable (ha : a.Plain) : a.Unmistakable := by
  induction ha with
  | none =>
    intro b r s hb hr hs h
    have hkind := Plain.none.kind_eq hb h
    cases hb with
    | none => exact ⟨rfl, List.append_cancel_left h⟩
    | _ => cases hkind
  | int n =>
    intro b r s hb hr hs h
    have hkind := (Plain.int n).kind_eq hb h
    cases hb with
    | int m =>
      obtain ⟨htext, rfl⟩ := append_inj_of_class (fun _ => isNumeral_of_mem_toString)
        (fun _ => isNumeral_of_mem_toString) hr hs h
      have hnm : n.toInt = m.toInt := Int.repr_inj.1 (String.toList_inj.1 htext)
      exact ⟨congrArg _ (Int64.toInt_inj.1 hnm), rfl⟩
    | _ => cases hkind
  | bool x =>
    intro b r s hb hr hs h
    have hkind := (Plain.bool x).kind_eq hb h
    cases hb with
    | bool y =>
      cases x <;> cases y
      · exact ⟨rfl, List.append_cancel_left h⟩
      · cases h
      · cases h
      · exact ⟨rfl, List.append_cancel_left h⟩
    | _ => cases hkind
  | text t =>
    intro b r s hb hr hs h
    have hkind := (Plain.text t).kind_eq hb h
    cases hb with
    | text u =>
      -- A string is read back to its closing quote, whatever stands behind that.
      have hread : Lexeme.string ((Text.quoted t).toList ++ r) =
          Lexeme.string ((Text.quoted u).toList ++ s) := congrArg Lexeme.string h
      rw [Lexeme.string_quoted, Lexeme.string_quoted] at hread
      cases congrArg Lexeme.kind hread
      exact ⟨rfl, List.append_cancel_left h⟩
    | _ => cases hkind
  | @list vs hvs ih =>
    intro b r s hb hr hs h
    have hkind := (Plain.list hvs).kind_eq hb h
    cases hb with
    | @list ws hws => exact list_append_inj (fun v hv => ih v hv) hws h
    | _ => cases hkind

theorem Plain.inspect_inj (ha : a.Plain) (hb : b.Plain) : a.inspect = b.inspect ↔ a = b := by
  refine ⟨fun h => ?_, congrArg inspect⟩
  have hclosed : Closes [] := nofun
  exact (ha.unmistakable hb hclosed hclosed (by rw [h])).1

/-- Plain values are the same to a program if they are one value and not otherwise, so sameness is an
equivalence between them, and they are one value if they have one text and not otherwise. -/
theorem plain_values_by_text :
    (∀ a b : Value, a.Plain → b.Plain → [a.same b = true, a = b, a.inspect = b.inspect].TFAE) ∧
    Equivalence fun a b : { v : Value // v.Plain } => a.1.same b.1 = true := by
  refine ⟨fun a b ha hb => ?_, ?_⟩
  · tfae_have 1 ↔ 2 := ha.same_iff hb
    tfae_have 3 ↔ 2 := ha.inspect_inj hb
    tfae_finish
  · have hsame : ∀ a b : { v : Value // v.Plain }, a.1.same b.1 = true ↔ a = b :=
      fun a b => (a.2.same_iff b.2).trans Subtype.ext_iff.symm
    simp only [hsame]
    exact eq_equivalence

/-- Two strings in a list, and one string that is written as their texts with the comma. -/
theorem plain_values_by_text_comma :
    (list [text "a", text "b"]).Plain ∧ (list [text "a\", \"b"]).Plain ∧
      (list [text "a", text "b"]).inspect ≠ (list [text "a\", \"b"]).inspect := by
  have htwo : (list [text "a", text "b"]).Plain :=
    .list (List.forall_mem_cons.2 ⟨.text _, List.forall_mem_singleton.2 (.text _)⟩)
  have hone : (list [text "a\", \"b"]).Plain := .list (List.forall_mem_singleton.2 (.text _))
  refine ⟨htwo, hone, fun h => ?_⟩
  have hsame := ((plain_values_by_text.1 _ _ htwo hone).out 2 1).1 h
  simp at hsame

end Value

end Concatenative
