import Concatenative.Code.Printer
import Concatenative.Proofs.Flattening
import Concatenative.Proofs.OnDemand
import Concatenative.Proofs.Spelling

/-! Code known by its text. A body is listed with one line for each instruction in it. A line tells what
its instruction does, and of a group how many instructions it has, so it is known which of the lines
behind it are those of the group. Main statement: bodies that were built from texts without floats have
one text exactly if they do the same, wherever their instructions stand; and the text of any body has as
many lines as the body has instructions (`code_by_text`). -/
namespace Concatenative

/-- What an instruction does, wherever it stands. Of a group it is also told whether it left a force to
its caller. -/
inductive Operation where
  | literal (v : Literal)
  | group (code : List Operation) (tail : Bool)
  | primitive (p : Primitive)

mutual

def Op.operation : Op → Operation
  | .literal v => .literal v
  | .group ⟨code, tailForce, _⟩ => .group (operations code) tailForce.isSome
  | .primitive p => .primitive p

def operations : List Instruction → List Operation
  | [] => []
  | ⟨_, op⟩ :: rest => op.operation :: operations rest

end

mutual

/-- How many instructions an instruction is, with all those in its group. -/
def Op.size : Op → Nat
  | .group ⟨code, _, _⟩ => codeSize code + 1
  | _ => 1

def codeSize : List Instruction → Nat
  | [] => 0
  | ⟨_, op⟩ :: rest => op.size + codeSize rest

end

/-- What a body does, but for a force that it leaves to whoever calls it. -/
def Body.operations (b : Body) : List Operation := Concatenative.operations b.code

/-- How many instructions a body has, with those of its groups. -/
def Body.size (b : Body) : Nat := codeSize b.code

/-- No float is pushed, at any depth. -/
inductive Op.FloatFree : Op → Prop
  | literal {v : Literal} : (∀ x, v ≠ .float x) → FloatFree (.literal v)
  | group {b : Body} : (∀ i ∈ b.code, FloatFree i.op) → FloatFree (.group b)
  | primitive (p : Primitive) : FloatFree (.primitive p)

def Body.FloatFree (b : Body) : Prop := ∀ i ∈ b.code, i.op.FloatFree

/-- No token of the text is a float. -/
def WithoutFloats (path text : String) : Prop :=
  ∀ t ∈ (Cursor.ofText path text).tokens.1, ∀ x, t.kind ≠ .float x

/-! ## Lines -/

theorem isDigit_of_mem_toString {n : Nat} {c : Char} (h : c ∈ (toString n).toList) :
    c.isDigit = true := by
  rw [Nat.toString_eq_repr, Nat.repr_eq_ofList_toDigits, String.toList_ofList] at h
  exact Nat.isDigit_of_mem_toDigits (by decide) (by decide) h

/-- Text without a line break. -/
def Unbroken (s : String) : Prop := '\n' ∉ s.toList

instance (s : String) : Decidable (Unbroken s) := inferInstanceAs (Decidable (_ ∉ _))

theorem unbroken_append {s t : String} : Unbroken (s ++ t) ↔ Unbroken s ∧ Unbroken t := by
  simp [Unbroken, not_or]

theorem unbroken_toString (n : Nat) : Unbroken (toString n) := by
  intro h
  cases isDigit_of_mem_toString h

namespace Decimal

theorem unbroken_positional (d : Scientific) : Unbroken d.positional := by
  have hdigits : '\n' ∉ (toString d.digits).toList := unbroken_toString d.digits
  unfold Scientific.positional
  dsimp only
  split
  · intro h
    rw [String.toList_ofList, List.mem_append] at h
    rcases h with h | h
    · exact hdigits h
    · cases List.eq_of_mem_replicate h
  · intro h
    rw [String.toList_ofList, List.mem_append, List.mem_cons] at h
    -- The point stands between two parts of the padded digits.
    obtain hpadded | hpoint : _ ∨ '\n' = '.' := by
      rcases h with h | h | h
      · exact .inl (List.mem_of_mem_take h)
      · exact .inr h
      · exact .inl (List.mem_of_mem_drop h)
    · rcases List.mem_append.1 hpadded with h | h
      · cases List.eq_of_mem_replicate h
      · exact hdigits h
    · cases hpoint

theorem unbroken_floatText (x : Float) : Unbroken (floatText x) := by
  unfold floatText
  dsimp only
  have hsign : Unbroken (if x.toBits >>> 63 = 1 then "-" else "") := by split <;> decide
  split
  · decide
  split
  · exact unbroken_append.2 ⟨hsign, by decide⟩
  split
  · exact unbroken_append.2 ⟨hsign, by decide⟩
  · exact unbroken_append.2 ⟨hsign, unbroken_positional _⟩

end Decimal

theorem Text.unbroken_quoted (s : String) : Unbroken (Text.quoted s) := by
  have hescaped : ∀ c, '\n' ∉ Text.escaped c := by
    intro c
    unfold Text.escaped
    split_ifs <;> simp_all [eq_comm]
  simp [Unbroken, Text.quoted, hescaped]

theorem Literal.unbroken_inspect (v : Literal) : Unbroken v.value.inspect := by
  cases v with
  | int n =>
    intro h
    cases Value.isNumeral_of_mem_toString h
  | float x => exact Decimal.unbroken_floatText x
  | text s => exact Text.unbroken_quoted s
  | bool b => cases b <;> decide
  | void => decide

theorem Op.unbroken_text (op : Op) : Unbroken op.text := by
  cases op with
  | literal v => exact unbroken_append.2 ⟨by decide, v.unbroken_inspect⟩
  | group body =>
    refine unbroken_append.2 ⟨unbroken_append.2 ⟨unbroken_append.2 ⟨by decide, ?_⟩, by decide⟩, ?_⟩
    · exact unbroken_toString _
    · split <;> decide
  | primitive p => cases p <;> decide

/-- What a line starts with. -/
def lead (indent number : Nat) : String :=
  String.ofList (List.replicate indent ' ') ++ lineNumber number ++ ": "

theorem line_eq (indent number : Nat) (op : Op) :
    line indent number op = lead indent number ++ op.text ++ "\n" := rfl

theorem unbroken_lead (indent number : Nat) : Unbroken (lead indent number) := by
  have hblanks : ∀ n, Unbroken (String.ofList (List.replicate n ' ')) := by simp [Unbroken]
  refine unbroken_append.2 ⟨unbroken_append.2 ⟨hblanks _, ?_⟩, by decide⟩
  exact unbroken_append.2 ⟨hblanks _, unbroken_toString number⟩

/-- A text of one line, with the line break behind it. -/
def IsLine (s : String) : Prop := ∃ content, Unbroken content ∧ s = content ++ "\n"

theorem isLine_line (indent number : Nat) (op : Op) : IsLine (line indent number op) :=
  ⟨_, unbroken_append.2 ⟨unbroken_lead indent number, op.unbroken_text⟩, rfl⟩

/-- Lines are told from the text they make. -/
theorem join_inj {ls ls' : List String} (h : ∀ l ∈ ls, IsLine l) (h' : ∀ l ∈ ls', IsLine l)
    (hjoin : String.join ls = String.join ls') : ls = ls' := by
  replace hjoin := congrArg String.toList hjoin
  rw [String.toList_join, String.toList_join] at hjoin
  induction ls generalizing ls' with
  | nil =>
    cases ls' with
    | nil => rfl
    | cons l' ls' =>
      obtain ⟨⟨s, _, rfl⟩, _⟩ := List.forall_mem_cons.1 h'
      simp at hjoin
  | cons l ls ih =>
    obtain ⟨⟨s, hs, rfl⟩, hls⟩ := List.forall_mem_cons.1 h
    cases ls' with
    | nil => simp at hjoin
    | cons l' ls' =>
      obtain ⟨⟨s', hs', rfl⟩, hls'⟩ := List.forall_mem_cons.1 h'
      simp only [List.flatMap_cons, String.toList_append, List.append_assoc] at hjoin
      have hclass : ∀ {s : String}, Unbroken s → ∀ c ∈ s.toList, (c != '\n') = true :=
        fun hs c hc => bne_iff_ne.2 fun he => hs (he ▸ hc)
      have hbreak : ∀ rest : List Char, ∀ c ∈ ("\n".toList ++ rest).head?, (c != '\n') = false := by
        rintro rest c ⟨⟩
        rfl
      obtain ⟨hss, hrest⟩ := append_inj_of_class (hclass hs) (hclass hs') (hbreak _) (hbreak _) hjoin
      rw [String.toList_inj.1 hss, ih hls hls' (List.append_cancel_left hrest)]

theorem exists_contents {ls : List String} (h : ∀ l ∈ ls, IsLine l) :
    ∃ contents : List String, ls = contents.map (· ++ "\n") ∧ ∀ c ∈ contents, Unbroken c := by
  induction ls with
  | nil => exact ⟨[], rfl, nofun⟩
  | cons l ls ih =>
    obtain ⟨⟨c, hc, rfl⟩, hls⟩ := List.forall_mem_cons.1 h
    obtain ⟨contents, rfl, hcontents⟩ := ih hls
    exact ⟨c :: contents, rfl, List.forall_mem_cons.2 ⟨hc, hcontents⟩⟩

mutual

theorem isLine_of_mem_innerLines {indent : Nat} {l : String} :
    ∀ op : Op, l ∈ op.innerLines indent → IsLine l
  | .literal _, h => nomatch h
  | .primitive _, h => nomatch h
  | .group ⟨code, _, _⟩, h => isLine_of_mem_codeLines code h

theorem isLine_of_mem_codeLines {indent number : Nat} {l : String} :
    ∀ code : List Instruction, l ∈ codeLines indent number code → IsLine l
  | [], h => nomatch h
  | ⟨_, op⟩ :: rest, h => by
    rw [codeLines, List.mem_cons, List.mem_append] at h
    rcases h with rfl | h | h
    · exact isLine_line _ _ _
    · exact isLine_of_mem_innerLines op h
    · exact isLine_of_mem_codeLines rest h

end

mutual

theorem length_innerLines (indent : Nat) : ∀ op : Op, (op.innerLines indent).length + 1 = op.size
  | .literal _ => rfl
  | .primitive _ => rfl
  | .group ⟨code, _, _⟩ => by rw [Op.innerLines, Op.size, length_codeLines]

theorem length_codeLines (indent number : Nat) :
    ∀ code : List Instruction, (codeLines indent number code).length = codeSize code
  | [] => rfl
  | ⟨_, op⟩ :: rest => by
    rw [codeLines, codeSize, List.length_cons, List.length_append, length_codeLines _ _ rest,
      ← length_innerLines (indent + 6) op]
    omega

end

/-! ## What a line tells -/

/-- Two instructions have one line: groups of one length that left a force both or neither, or the same
literal or primitive. -/
inductive Op.Headed : Op → Op → Prop
  | literal (v : Literal) : Headed (.literal v) (.literal v)
  | group {a b : Body} : a.code.length = b.code.length → a.isTail = b.isTail →
      Headed (.group a) (.group b)
  | primitive (p : Primitive) : Headed (.primitive p) (.primitive p)

theorem Literal.plain_value {v : Literal} (h : ∀ x, v ≠ .float x) : v.value.Plain := by
  cases v with
  | float x => exact absurd rfl (h x)
  | int n => exact .int n
  | text s => exact .text s
  | bool b => exact .bool b
  | void => exact .list nofun

theorem Literal.value_inj {v w : Literal} : v.value = w.value ↔ v = w := by
  cases v <;> cases w <;> simp [value]

/-- The lines of all other operations hold a blank. -/
theorem Primitive.blank_not_mem_name (p : Primitive) : ' ' ∉ p.name.toList := by
  cases p <;> decide

theorem Primitive.name_inj {p q : Primitive} : p.name = q.name → p = q := by
  cases p <;> cases q <;> decide

namespace Op

/-- What stands in the line of a group behind the number of its instructions. -/
def groupEnd (tail : Bool) : String := " instructions" ++ if tail then ", tail" else ""

theorem toList_text_literal (v : Literal) :
    (literal v).text.toList = "PushValue   ".toList ++ v.value.inspect.toList := String.toList_append

theorem text_group (b : Body) :
    (group b).text = "PushClosure " ++ toString b.code.length ++ groupEnd b.isTail :=
  String.append_assoc

theorem toList_text_group (b : Body) : (group b).text.toList =
    "PushClosure ".toList ++ ((toString b.code.length).toList ++ (groupEnd b.isTail).toList) := by
  rw [text_group, String.toList_append, String.toList_append, List.append_assoc]

theorem blank_mem_text {op : Op} (h : ∀ p, op ≠ .primitive p) : ' ' ∈ op.text.toList := by
  cases op with
  | literal v =>
    rw [toList_text_literal]
    exact List.mem_append_left _ (by decide)
  | group b =>
    rw [toList_text_group]
    exact List.mem_append_left _ (by decide)
  | primitive p => exact absurd rfl (h p)

theorem text_primitive_ne {p : Primitive} {op : Op} (h : ∀ q, op ≠ .primitive q) :
    (primitive p).text ≠ op.text :=
  fun he => p.blank_not_mem_name (congrArg String.toList he ▸ blank_mem_text h)

theorem text_literal_ne_group (v : Literal) (b : Body) : (literal v).text ≠ (group b).text := by
  intro h
  replace h := congrArg String.toList h
  rw [toList_text_literal, toList_text_group] at h
  exact absurd (List.append_inj h (by decide)).1 (by decide)

/-- A group is told by how many instructions it has and whether it left a force. -/
theorem text_group_inj {a b : Body} (h : (group a).text = (group b).text) :
    a.code.length = b.code.length ∧ a.isTail = b.isTail := by
  replace h := congrArg String.toList h
  rw [toList_text_group, toList_text_group] at h
  have hend : ∀ t, ∀ c ∈ (groupEnd t).toList.head?, c.isDigit = false := by
    intro t c hc
    have hblank : (groupEnd t).toList.head? = some ' ' := by cases t <;> decide
    cases hblank ▸ hc
    rfl
  obtain ⟨hlength, htail⟩ := append_inj_of_class (fun _ => isDigit_of_mem_toString)
    (fun _ => isDigit_of_mem_toString) (hend _) (hend _) (List.append_cancel_left h)
  refine ⟨Nat.repr_inj.1 (String.toList_inj.1 hlength), ?_⟩
  have hinj : ∀ t u, (groupEnd t).toList = (groupEnd u).toList → t = u := by
    rintro (_ | _) (_ | _) <;> decide
  exact hinj _ _ htail

/-- The line of an instruction tells what it does, but for what is in its group. -/
theorem headed_of_text_eq {x y : Op} (hx : x.FloatFree) (hy : y.FloatFree) (h : x.text = y.text) :
    x.Headed y := by
  cases hx with
  | @literal v hv =>
    cases hy with
    | @literal w hw =>
      replace h := congrArg String.toList h
      rw [toList_text_literal, toList_text_literal] at h
      have hinspect := String.toList_inj.1 (List.append_cancel_left h)
      have hvalue := (Value.Plain.inspect_inj (Literal.plain_value hv) (Literal.plain_value hw)).1 hinspect
      rw [Literal.value_inj.1 hvalue]
      exact .literal w
    | group hb => exact absurd h (text_literal_ne_group _ _)
    | primitive p => exact absurd h.symm (text_primitive_ne nofun)
  | group ha =>
    cases hy with
    | literal hw => exact absurd h.symm (text_literal_ne_group _ _)
    | group hb => exact .group (text_group_inj h).1 (text_group_inj h).2
    | primitive p => exact absurd h.symm (text_primitive_ne nofun)
  | primitive p =>
    cases hy with
    | literal hw => exact absurd h (text_primitive_ne nofun)
    | group hb => exact absurd h (text_primitive_ne nofun)
    | primitive q =>
      rw [Primitive.name_inj h]
      exact .primitive q

end Op

/-! ## What the lines of code tell -/

/-- The lines of an instruction with those of its group. -/
def Op.lines (indent number : Nat) (op : Op) : List String :=
  line indent number op :: op.innerLines (indent + 6)

theorem codeLines_cons (indent number : Nat) (i : Instruction) (rest : List Instruction) :
    codeLines indent number (i :: rest) =
      i.op.lines indent number ++ codeLines indent (number + 1) rest := by
  obtain ⟨l, op⟩ := i
  rw [codeLines, Op.lines, List.cons_append]

theorem operations_cons (i : Instruction) (rest : List Instruction) :
    operations (i :: rest) = i.op.operation :: operations rest := by
  obtain ⟨l, op⟩ := i
  rw [operations]

@[simp]
theorem Op.operation_literal (v : Literal) : (Op.literal v).operation = .literal v := rfl

@[simp]
theorem Op.operation_primitive (p : Primitive) : (Op.primitive p).operation = .primitive p := rfl

@[simp]
theorem Op.operation_group (b : Body) : (Op.group b).operation = .group b.operations b.isTail := by
  obtain ⟨code, tailForce, location⟩ := b
  rw [operation, Body.operations, Body.isTail]

theorem Op.innerLines_group (indent : Nat) (b : Body) :
    (Op.group b).innerLines indent = codeLines indent 0 b.code := by
  obtain ⟨code, tailForce, location⟩ := b
  rw [innerLines]

theorem length_operations (code : List Instruction) : (operations code).length = code.length := by
  induction code with
  | nil => rfl
  | cons i rest ih => rw [operations_cons, List.length_cons, List.length_cons, ih]

section

variable {indent number : Nat} {x y : Op} {r s : List String} {xs ys : List Instruction}

theorem Op.text_eq_of_line_eq (h : line indent number x = line indent number y) : x.text = y.text := by
  simpa [line] using h

/-- Whatever lines stand behind those of the instruction, no other instruction has the same lines there. -/
def Op.Legible (x : Op) : Prop :=
  ∀ {y : Op} {indent number : Nat} {r s : List String}, y.FloatFree →
    x.lines indent number ++ r = y.lines indent number ++ s → x.operation = y.operation ∧ r = s

/-- Where the lines of code end is known from the number of its instructions. -/
theorem codeLines_append_inj (hx : ∀ i ∈ xs, i.op.Legible) (hy : ∀ i ∈ ys, i.op.FloatFree)
    (hlength : xs.length = ys.length)
    (h : codeLines indent number xs ++ r = codeLines indent number ys ++ s) :
    operations xs = operations ys ∧ r = s := by
  induction xs generalizing ys number with
  | nil =>
    obtain rfl := List.length_eq_zero_iff.1 hlength.symm
    exact ⟨rfl, h⟩
  | cons i xs ih =>
    cases ys with
    | nil => cases hlength
    | cons j ys =>
      obtain ⟨hi, hxs⟩ := List.forall_mem_cons.1 hx
      obtain ⟨hj, hys⟩ := List.forall_mem_cons.1 hy
      rw [codeLines_cons, codeLines_cons, List.append_assoc, List.append_assoc] at h
      obtain ⟨hop, hrest⟩ := hi hj h
      obtain ⟨hops, hrs⟩ := ih hxs hys (Nat.succ.inj hlength) hrest
      rw [operations_cons, operations_cons, hop, hops]
      exact ⟨rfl, hrs⟩

theorem Op.FloatFree.legible (hx : x.FloatFree) : x.Legible := by
  induction hx with
  | literal hv =>
    intro y indent number r s hy h
    obtain ⟨hline, hrest⟩ := List.cons.inj h
    cases headed_of_text_eq (.literal hv) hy (text_eq_of_line_eq hline)
    exact ⟨rfl, List.append_cancel_left hrest⟩
  | group hb ih =>
    intro y indent number r s hy h
    obtain ⟨hline, hrest⟩ := List.cons.inj h
    cases headed_of_text_eq (.group hb) hy (text_eq_of_line_eq hline) with
    | group hlength htail =>
      cases hy with
      | group hb' =>
        rw [innerLines_group, innerLines_group] at hrest
        obtain ⟨hops, hrs⟩ := codeLines_append_inj (fun i hi => ih i hi) hb' hlength hrest
        rw [operation_group, operation_group, Body.operations, hops, htail]
        exact ⟨rfl, hrs⟩
  | primitive p =>
    intro y indent number r s hy h
    obtain ⟨hline, hrest⟩ := List.cons.inj h
    cases headed_of_text_eq (.primitive p) hy (text_eq_of_line_eq hline)
    exact ⟨rfl, List.append_cancel_left hrest⟩

theorem codeLines_inj (hx : ∀ i ∈ xs, i.op.FloatFree) (hy : ∀ i ∈ ys, i.op.FloatFree)
    (h : codeLines indent number xs = codeLines indent number ys) : operations xs = operations ys := by
  induction xs generalizing ys number with
  | nil =>
    cases ys with
    | nil => rfl
    | cons j ys =>
      rw [codeLines_cons] at h
      cases h
  | cons i xs ih =>
    cases ys with
    | nil =>
      rw [codeLines_cons] at h
      cases h
    | cons j ys =>
      obtain ⟨hi, hxs⟩ := List.forall_mem_cons.1 hx
      obtain ⟨hj, hys⟩ := List.forall_mem_cons.1 hy
      rw [codeLines_cons, codeLines_cons] at h
      obtain ⟨hop, hrest⟩ := hi.legible hj h
      rw [operations_cons, operations_cons, hop, ih hxs hys hrest]

end

mutual

/-- The lines do not show where anything stands. -/
theorem Op.lines_congr (indent number : Nat) :
    ∀ x y : Op, x.operation = y.operation → x.lines indent number = y.lines indent number
  | .literal v, y, h => by
    cases y <;> simp only [Op.operation_literal, Op.operation_group, Op.operation_primitive,
      reduceCtorEq, Operation.literal.injEq] at h
    rw [h]
  | .group ⟨code, tailForce, location⟩, y, h => by
    cases y <;> simp only [Op.operation_literal, Op.operation_group, Op.operation_primitive,
      reduceCtorEq, Operation.group.injEq] at h
    next b =>
    have hcode : operations code = operations b.code := h.1
    have hlength : code.length = b.code.length := by
      rw [← length_operations, hcode, length_operations]
    have hinner := codeLines_congr (indent + 6) 0 code b.code hcode
    rw [Op.lines, Op.lines, Op.innerLines_group, Op.innerLines_group, hinner, line_eq, line_eq,
      Op.text_group, Op.text_group, hlength, h.2]
  | .primitive p, y, h => by
    cases y <;> simp only [Op.operation_literal, Op.operation_group, Op.operation_primitive,
      reduceCtorEq, Operation.primitive.injEq] at h
    rw [h]

theorem codeLines_congr (indent number : Nat) : ∀ xs ys : List Instruction,
    operations xs = operations ys → codeLines indent number xs = codeLines indent number ys
  | [], [], _ => rfl
  | ⟨l, x⟩ :: xs, j :: ys, h => by
    rw [operations_cons, operations_cons] at h
    obtain ⟨hop, hops⟩ := List.cons.inj h
    rw [codeLines_cons, codeLines_cons, Op.lines_congr indent number x j.op hop,
      codeLines_congr indent (number + 1) xs ys hops]
  | [], j :: ys, h => by
    rw [operations_cons] at h
    cases h
  | i :: xs, [], h => by
    rw [operations_cons] at h
    cases h

end

/-! ## Texts of bodies -/

namespace Body

theorem lines_inj {a b : Body} (ha : a.FloatFree) (hb : b.FloatFree) :
    a.lines = b.lines ↔ a.operations = b.operations :=
  ⟨codeLines_inj ha hb, codeLines_congr 0 0 a.code b.code⟩

theorem isLine_of_mem_lines {b : Body} {l : String} (h : l ∈ b.lines) : IsLine l :=
  isLine_of_mem_codeLines b.code h

theorem text_inj {a b : Body} (ha : a.FloatFree) (hb : b.FloatFree) :
    a.text = b.text ↔ a.operations = b.operations := by
  rw [← lines_inj ha hb]
  exact ⟨join_inj (fun _ => isLine_of_mem_lines) (fun _ => isLine_of_mem_lines), congrArg String.join⟩

end Body

/-! ## Bodies that were built -/

namespace Group

/-- No float was pushed in the group. -/
def FloatFree (g : Group) : Prop := ∀ i ∈ g.code, i.op.FloatFree

variable {g around : Group} {outer : List Group}

theorem FloatFree.push {i : Instruction} (h : g.FloatFree) (hi : i.op.FloatFree) :
    (g.push i).FloatFree := List.forall_mem_cons.2 ⟨hi, h⟩

theorem FloatFree.body (h : g.FloatFree) : g.body.FloatFree :=
  fun i hi => h i (List.mem_reverse.1 (mem_code_ofCode hi))

theorem FloatFree.pushGroup (h : g.FloatFree) (ha : around.FloatFree) :
    (around.pushGroup g).FloatFree := ha.push (.group h.body)

theorem FloatFree.closeAll (h : g.FloatFree) (ho : ∀ g ∈ outer, g.FloatFree) :
    (g.closeAll outer).FloatFree := by
  induction outer generalizing g with
  | nil => exact h.body
  | cons around outer ih =>
    obtain ⟨ha, ho⟩ := List.forall_mem_cons.1 ho
    exact ih (h.pushGroup ha) ho

end Group

namespace Builder

/-- No float was pushed in the groups that are open. -/
def FloatFree (b : Builder) : Prop := b.group.FloatFree ∧ ∀ g ∈ b.outer, g.FloatFree

/-- The body has no float, if there is one. -/
def Progress.FloatFree : Progress → Prop
  | .more b => b.FloatFree
  | .done build => ∀ body, build.result = .ok body → body.FloatFree

variable {b : Builder} {t : Token} {ts : List Token}

theorem FloatFree.push {l : Location} {op : Op} (h : b.FloatFree) (hop : op.FloatFree) :
    (b.push l op).FloatFree := ⟨h.1.push hop, h.2⟩

theorem FloatFree.accept (h : b.FloatFree) (ht : ∀ x, t.kind ≠ .float x) :
    (b.accept t).FloatFree := by
  unfold Builder.accept
  split
  · exact h.push (.literal nofun)
  · next x hx => exact absurd hx (ht x)
  · exact h.push (.literal nofun)
  · exact h.push (.literal nofun)
  · exact h.push (.literal nofun)
  · exact h.push (.literal nofun)
  · exact h.push (.primitive _)
  · exact ⟨nofun, List.forall_mem_cons.2 h⟩
  · split
    · next around outer ho =>
      obtain ⟨ha, hout⟩ := List.forall_mem_cons.1 (ho ▸ h.2)
      exact ⟨h.1.pushGroup ha, hout⟩
    · split
      · rintro body ⟨⟩
      · rintro body ⟨⟩
        exact h.1.body
  · split
    · rintro body ⟨⟩
    · exact h

theorem FloatFree.feed (h : b.FloatFree) (hts : ∀ t ∈ ts, ∀ x, t.kind ≠ .float x) :
    (b.feed ts).FloatFree := by
  induction ts generalizing b with
  | nil => exact h
  | cons t ts ih =>
    obtain ⟨ht, hts⟩ := List.forall_mem_cons.1 hts
    have hnext := h.accept ht
    rw [Builder.feed]
    split
    · next b' hb =>
      rw [hb] at hnext
      exact ih hnext hts
    · next build hb =>
      rw [hb] at hnext
      exact hnext

theorem Progress.FloatFree.close {p : Progress} (h : p.FloatFree) {failure : Option Failure} {body : Body}
    (hbody : (p.close failure).result = .ok body) : body.FloatFree := by
  cases p with
  | done build => exact h body hbody
  | more b =>
    cases failure with
    | some e => cases hbody
    | none =>
      unfold Progress.close Builder.finish at hbody
      dsimp only at hbody
      split at hbody
      · cases hbody
      · cases hbody
        exact h.1.closeAll h.2

end Builder

theorem WithoutFloats.build {path text : String} (h : WithoutFloats path text) {strict : Bool}
    {body : Body} (hbody : (build strict path text).result = .ok body) : body.FloatFree := by
  have hstart : (Builder.start strict (.start path)).FloatFree := ⟨nofun, nofun⟩
  rw [Concatenative.build, Builder.ofCursor_eq_feed] at hbody
  exact (hstart.feed h).close hbody

/-- Bodies that were built from texts without floats have one text if they do the same, wherever their
instructions stand, and not otherwise. Of a whole body the text does not show whether it left a force, of
the groups in it it does. The text of any body has one line for each instruction in it. -/
theorem code_by_text :
    (∀ (strict strict' : Bool) (path path' text text' : String) (a b : Body),
      WithoutFloats path text → WithoutFloats path' text' →
      (build strict path text).result = .ok a → (build strict' path' text').result = .ok b →
      (a.text = b.text ↔ a.operations = b.operations)) ∧
    ∀ b : Body, ∃ lines : List String, lines.length = b.size ∧ (∀ l ∈ lines, '\n' ∉ l.toList) ∧
      b.text = String.join (lines.map (· ++ "\n")) := by
  refine ⟨fun strict strict' path path' text text' a b h h' ha hb => ?_, fun b => ?_⟩
  · exact Body.text_inj (h.build ha) (h'.build hb)
  · obtain ⟨lines, hlines, hunbroken⟩ := exists_contents fun l => b.isLine_of_mem_lines (l := l)
    refine ⟨lines, ?_, hunbroken, congrArg String.join hlines⟩
    rw [← List.length_map (f := (· ++ "\n")), ← hlines]
    exact length_codeLines 0 0 b.code

/-- A string that holds what looks like a line is told from the instruction of that line. -/
theorem code_by_text_lookalike :
    WithoutFloats "a" "\"x\n   1: Pop\"" ∧ WithoutFloats "a" "\"x\" >" ∧
      Body.text ⟨[⟨⟨"a", 1, 1⟩, .literal (.text "x\n   1: Pop")⟩], none, .start "a"⟩ ≠
        Body.text ⟨[⟨⟨"a", 1, 1⟩, .literal (.text "x")⟩, ⟨⟨"a", 1, 5⟩, .primitive .pop⟩], none,
          .start "a"⟩ := by
  have hone : (Cursor.ofText "a" "\"x\n   1: Pop\"").tokens =
      ([⟨.text "x\n   1: Pop", "\"x\n   1: Pop\"", ⟨"a", 1, 1⟩⟩], none) := by
    decide +kernel
  have htwo : (Cursor.ofText "a" "\"x\" >").tokens =
      ([⟨.text "x", "\"x\"", ⟨"a", 1, 1⟩⟩, ⟨.operator (.primitive .pop), ">", ⟨"a", 1, 5⟩⟩], none) := by
    decide +kernel
  have hfree : WithoutFloats "a" "\"x\n   1: Pop\"" := by simp [WithoutFloats, hone]
  have hfree' : WithoutFloats "a" "\"x\" >" := by simp [WithoutFloats, htwo]
  refine ⟨hfree, hfree', fun h => ?_⟩
  have hops := (code_by_text.1 false false "a" "a" _ _ _ _ hfree hfree'
    (by rw [build, Builder.ofCursor_eq_feed, hone]; rfl)
    (by rw [build, Builder.ofCursor_eq_feed, htwo]; rfl)).1 h
  cases congrArg List.length hops

end Concatenative
