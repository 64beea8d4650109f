import Concatenative.Code.Builder

/-! Bodies written out again. The marks of a body are what its text must have held: every
instruction in order, a group as what stands between its parentheses, and the force that was taken
off the end put back. Main statement: a lenient builder makes of any tokens a body whose marks are
those tokens, without the ones that mean nothing, up to the first `)` that closes no group, and with
the `)` that are missing. The same is true of each group in the body and of the tokens behind its
opening. -/
namespace Concatenative

/-- What stands at a place of a text. -/
inductive Sign where
  | literal (v : Literal)
  | primitive (p : Primitive)
  | openGroup
  | closeGroup
deriving DecidableEq

/-- A sign and where it stands. Nothing keeps the place of a `)`. -/
structure Mark where
  place : Option Location
  sign : Sign
deriving DecidableEq

namespace Mark

def opening (l : Location) : Mark := ⟨some l, .openGroup⟩

def closing : Mark := ⟨none, .closeGroup⟩

def force (l : Location) : Mark := ⟨some l, .primitive .force⟩

end Mark

/-- What a token denotes; names denote their text, and unknown punctuation nothing. -/
def Token.mark? (t : Token) : Option Mark :=
  match t.kind with
  | .int n => some ⟨some t.location, .literal (.int n)⟩
  | .float x => some ⟨some t.location, .literal (.float x)⟩
  | .text s => some ⟨some t.location, .literal (.text s)⟩
  | .bool b => some ⟨some t.location, .literal (.bool b)⟩
  | .void => some ⟨some t.location, .literal .void⟩
  | .symbol name => some ⟨some t.location, .literal (.text name)⟩
  | .operator (.primitive p) => some ⟨some t.location, .primitive p⟩
  | .operator .openGroup => some (.opening t.location)
  | .operator .closeGroup => some .closing
  | .unknown _ => none

/-- The marks up to the first `)` that closes no group, with `depth` groups open before them. -/
def uptoStray (depth : Nat) : List Mark → List Mark
  | [] => []
  | m :: rest =>
    match m.sign, depth with
    | .openGroup, depth => m :: uptoStray (depth + 1) rest
    | .closeGroup, depth + 1 => m :: uptoStray depth rest
    | .closeGroup, 0 => []
    | _, depth => m :: uptoStray depth rest

/-- How many groups are open behind marks that had `depth` groups open before them. -/
def openBehind (depth : Nat) (ms : List Mark) : Nat :=
  depth + ms.countP (·.sign = .openGroup) - ms.countP (·.sign = .closeGroup)

/-- Marks with the `)` that are missing. -/
def closed (depth : Nat) (ms : List Mark) : List Mark :=
  ms ++ List.replicate (openBehind depth ms) .closing

mutual

/-- The marks of an instruction. -/
def Op.marks (l : Location) : Op → List Mark
  | .literal v => [⟨some l, .literal v⟩]
  | .primitive p => [⟨some l, .primitive p⟩]
  | .group ⟨code, tailForce, _⟩ =>
    .opening l :: (codeMarks code ++ tailForce.toList.map Mark.force ++ [.closing])

def codeMarks : List Instruction → List Mark
  | [] => []
  | ⟨l, op⟩ :: rest => op.marks l ++ codeMarks rest

end

namespace Body

/-- The marks of a body, with the force put back that was taken off its code. -/
def marks (b : Body) : List Mark := codeMarks b.code ++ b.tailForce.toList.map Mark.force

/-- A body is pushed by an instruction at `l`, at any depth of another body. -/
inductive Inside (l : Location) (b : Body) : Body → Prop
  | here {outer : Body} : ⟨l, .group b⟩ ∈ outer.code → Inside l b outer
  | deeper {l' : Location} {inner outer : Body} :
      ⟨l', .group inner⟩ ∈ outer.code → Inside l b inner → Inside l b outer

/-- A body that starts at `l` and has lost the force that it ends with, if it ends with one, and
nothing else. -/
structure Exact (b : Body) (l : Location) : Prop where
  location : b.location = l
  tailForce : ∀ f, b.tailForce = some f ↔ b.marks.getLast? = some (.force f)
  code : codeMarks b.code = if b.tailForce.isSome then b.marks.dropLast else b.marks

end Body

/-! ## Marks of code -/

theorem Op.marks_group (l : Location) (b : Body) :
    (Op.group b).marks l = .opening l :: (b.marks ++ [.closing]) := by
  obtain ⟨code, tailForce, location⟩ := b
  rw [Op.marks, Body.marks]

theorem codeMarks_append (is js : List Instruction) :
    codeMarks (is ++ js) = codeMarks is ++ codeMarks js := by
  induction is with
  | nil => rfl
  | cons i rest ih =>
    obtain ⟨l, op⟩ := i
    simp only [List.cons_append, codeMarks, ih, List.append_assoc]

theorem codeMarks_concat (is : List Instruction) (l : Location) (op : Op) :
    codeMarks (is ++ [⟨l, op⟩]) = codeMarks is ++ op.marks l := by
  simp only [codeMarks_append, codeMarks, List.append_nil]

/-- Only a force ends in the mark of a force. -/
theorem Op.getLast?_marks (l f : Location) (op : Op) :
    (op.marks l).getLast? = some (.force f) ↔ op = .primitive .force ∧ l = f := by
  cases op with
  | literal v => simp [Op.marks, Mark.force]
  | primitive p => simp [Op.marks, Mark.force, and_comm]
  | group b => simp [Op.marks_group, Mark.force, Mark.closing, List.getLast?_cons]

theorem Op.marks_ne_nil (l : Location) (op : Op) : op.marks l ≠ [] := by
  cases op with
  | literal v => exact List.cons_ne_nil _ _
  | primitive p => exact List.cons_ne_nil _ _
  | group b =>
    rw [Op.marks_group]
    exact List.cons_ne_nil _ _

/-- How code ends: it is empty, or it has a last instruction. -/
theorem ofCode_cases (code : List Instruction) (location : Location) :
    (∃ is f, code = is ++ [⟨f, .primitive .force⟩] ∧
      Body.ofCode code location = ⟨is, some f, location⟩) ∨
    (Body.ofCode code location = ⟨code, none, location⟩ ∧
      ∀ f, (codeMarks code).getLast? ≠ some (.force f)) := by
  rcases List.eq_nil_or_concat code with rfl | ⟨is, ⟨l, op⟩, rfl⟩
  · exact .inr ⟨rfl, fun f h => by cases h⟩
  by_cases hop : op = .primitive .force
  · subst hop
    exact .inl ⟨is, l, by simp, by simp [Body.ofCode]⟩
  · refine .inr ⟨?_, fun f h => ?_⟩
    · unfold Body.ofCode
      split
      · next tail h =>
        simp only [List.concat_eq_append, List.getLast?_append, List.getLast?_singleton,
          Option.some_or, Option.some.injEq, Instruction.mk.injEq] at h
        exact absurd h.2 hop
      · rfl
    · have hl := List.getLast?_eq_some_getLast (op.marks_ne_nil l)
      rw [List.concat_eq_append, codeMarks_concat, List.getLast?_append, hl, Option.some_or, ← hl,
        Op.getLast?_marks] at h
      exact hop h.1

/-- Taking a force off the code changes no marks. -/
theorem marks_ofCode (code : List Instruction) (location : Location) :
    (Body.ofCode code location).marks = codeMarks code := by
  obtain ⟨is, f, rfl, h⟩ | ⟨h, _⟩ := ofCode_cases code location
  · rw [h, codeMarks_concat]
    rfl
  · rw [h]
    exact List.append_nil _

theorem exact_ofCode (code : List Instruction) (location : Location) :
    (Body.ofCode code location).Exact location := by
  obtain ⟨is, f, rfl, h⟩ | ⟨h, hne⟩ := ofCode_cases code location
  · rw [h]
    refine ⟨rfl, fun f' => ?_, ?_⟩
    · simp [Body.marks, Mark.force]
    · simp [Body.marks]
  · rw [h]
    refine ⟨rfl, fun f' => ?_, ?_⟩
    · simpa [Body.marks] using hne f'
    · simp [Body.marks]

theorem mem_code_ofCode {code : List Instruction} {location : Location} {i : Instruction}
    (h : i ∈ (Body.ofCode code location).code) : i ∈ code := by
  obtain ⟨is, f, rfl, he⟩ | ⟨he, _⟩ := ofCode_cases code location
  · rw [he] at h
    exact List.mem_append_left _ h
  · rwa [he] at h

/-! ## Groups in a body -/

mutual

theorem uptoStray_op (depth : Nat) (l : Location) (rest : List Mark) :
    ∀ op : Op, uptoStray depth (op.marks l ++ rest) = op.marks l ++ uptoStray depth rest
  | .literal v => rfl
  | .primitive p => rfl
  | .group ⟨code, tailForce, _⟩ => by
    have hf : ∀ ms, uptoStray (depth + 1) (tailForce.toList.map Mark.force ++ ms) =
        tailForce.toList.map Mark.force ++ uptoStray (depth + 1) ms := by
      intro ms
      cases tailForce <;> rfl
    simp only [Op.marks, List.cons_append, List.append_assoc, List.nil_append, Mark.opening,
      uptoStray, uptoStray_code (depth + 1) _ code, hf, Mark.closing]

theorem uptoStray_code (depth : Nat) (rest : List Mark) :
    ∀ code : List Instruction,
      uptoStray depth (codeMarks code ++ rest) = codeMarks code ++ uptoStray depth rest
  | [] => rfl
  | ⟨l, op⟩ :: is => by
    simp only [codeMarks, List.append_assoc, uptoStray_op depth l _ op, uptoStray_code depth rest is]

end

/-- In the marks of a body every `)` closes a group. -/
theorem uptoStray_body (b : Body) (rest : List Mark) :
    uptoStray 0 (b.marks ++ .closing :: rest) = b.marks := by
  obtain ⟨code, tailForce, location⟩ := b
  simp only [Body.marks, List.append_assoc, uptoStray_code]
  cases tailForce <;> simp [uptoStray, Mark.force, Mark.closing]

theorem marks_of_mem {l : Location} {b outer : Body} (h : ⟨l, .group b⟩ ∈ outer.code) :
    ∃ front back, outer.marks = front ++ .opening l :: (b.marks ++ .closing :: back) := by
  obtain ⟨is, js, hcode⟩ := List.append_of_mem h
  refine ⟨codeMarks is, codeMarks js ++ outer.tailForce.toList.map Mark.force, ?_⟩
  simp only [Body.marks, hcode, codeMarks_append, codeMarks, Op.marks_group, List.cons_append,
    List.append_assoc, List.nil_append]

/-- The marks of a group stand between its parentheses. -/
theorem Body.Inside.marks {l : Location} {b outer : Body} (h : Inside l b outer) :
    ∃ front back, outer.marks = front ++ .opening l :: (b.marks ++ .closing :: back) := by
  induction h with
  | here h => exact marks_of_mem h
  | @deeper l' _ _ h _ ih =>
    obtain ⟨front, back, hi⟩ := ih
    obtain ⟨front', back', ho⟩ := marks_of_mem h
    refine ⟨front' ++ .opening l' :: front, back ++ .closing :: back', ?_⟩
    simp only [ho, hi, List.append_assoc, List.cons_append]

/-- Every group in a body starts at its opening and has lost its last force only. -/
def Body.Tidy (b : Body) : Prop := ∀ l c, Inside l c b → c.Exact l

/-! ## Groups that are open -/

namespace Group

/-- The marks of a group that is open and of those around it. -/
def written (g : Group) : List Group → List Mark
  | [] => codeMarks g.code.reverse
  | around :: outer => around.written outer ++ .opening g.location :: codeMarks g.code.reverse

theorem written_push (g : Group) (l : Location) (op : Op) (outer : List Group) :
    (g.push ⟨l, op⟩).written outer = g.written outer ++ op.marks l := by
  cases outer with
  | nil => simp only [written, push, List.reverse_cons, codeMarks_concat]
  | cons around outer =>
    simp only [written, push, List.reverse_cons, codeMarks_concat, List.append_assoc,
      List.cons_append]

theorem written_pushGroup (g around : Group) (outer : List Group) :
    (around.pushGroup g).written outer = g.written (around :: outer) ++ [.closing] := by
  rw [pushGroup, written_push, Op.marks_group, body, marks_ofCode, written, List.append_assoc,
    List.cons_append]

theorem marks_closeAll (g : Group) (outer : List Group) :
    (g.closeAll outer).marks = g.written outer ++ List.replicate outer.length .closing := by
  induction outer generalizing g with
  | nil => rw [closeAll, body, marks_ofCode, written]; exact (List.append_nil _).symm
  | cons around outer ih =>
    rw [closeAll, ih, written_pushGroup, List.append_assoc, List.length_cons, List.replicate_succ]
    rfl

/-- Every group that was closed inside the group is as it should be. -/
def Tidy (g : Group) : Prop := ∀ l b, ⟨l, .group b⟩ ∈ g.code → b.Exact l ∧ b.Tidy

theorem Tidy.body {g : Group} (h : g.Tidy) : g.body.Tidy := by
  intro l c hc
  cases hc with
  | here hm => exact (h l c (List.mem_reverse.1 (mem_code_ofCode hm))).1
  | deeper hm hi => exact (h _ _ (List.mem_reverse.1 (mem_code_ofCode hm))).2 l c hi

theorem Tidy.push {g : Group} {i : Instruction} (h : g.Tidy)
    (hi : ∀ b, i.op = .group b → b.Exact i.location ∧ b.Tidy) : (g.push i).Tidy := by
  intro l b hm
  rcases List.mem_cons.1 hm with rfl | hm
  · exact hi b rfl
  · exact h l b hm

theorem Tidy.pushGroup {g around : Group} (hg : g.Tidy) (ha : around.Tidy) :
    (around.pushGroup g).Tidy := by
  refine ha.push fun b hb => ?_
  cases hb
  exact ⟨exact_ofCode _ _, hg.body⟩

theorem Tidy.closeAll {g : Group} {outer : List Group} (hg : g.Tidy) (ho : ∀ g ∈ outer, g.Tidy) :
    (g.closeAll outer).Tidy := by
  induction outer generalizing g with
  | nil => exact hg.body
  | cons around outer ih =>
    exact ih (hg.pushGroup (ho _ (List.mem_cons_self ..))) fun g h =>
      ho g (List.mem_cons_of_mem _ h)

/-- Where the outermost group starts. -/
def start (g : Group) : List Group → Location
  | [] => g.location
  | around :: outer => around.start outer

theorem start_eq {g h : Group} (outer : List Group) (he : g.location = h.location) :
    g.start outer = h.start outer := by
  cases outer with
  | nil => exact he
  | cons around outer => rfl

theorem exact_closeAll (g : Group) (outer : List Group) :
    (g.closeAll outer).Exact (g.start outer) := by
  induction outer generalizing g with
  | nil => exact exact_ofCode _ _
  | cons around outer ih =>
    rw [closeAll, start, start_eq (g := around) (h := around.pushGroup g) outer rfl]
    exact ih _

end Group

/-! ## Building -/

theorem closed_nil (depth : Nat) : closed depth [] = List.replicate depth .closing := rfl

theorem closed_opening (depth : Nat) (l : Location) (ms : List Mark) :
    closed depth (.opening l :: ms) = .opening l :: closed (depth + 1) ms := by
  have h : openBehind depth (.opening l :: ms) = openBehind (depth + 1) ms := by
    simp only [openBehind, Mark.opening, List.countP_cons, decide_true, if_true, reduceCtorEq,
      decide_false, Bool.false_eq_true, if_false]
    omega
  rw [closed, closed, h]
  rfl

theorem closed_closing (depth : Nat) (ms : List Mark) :
    closed (depth + 1) (.closing :: ms) = .closing :: closed depth ms := by
  have h : openBehind (depth + 1) (.closing :: ms) = openBehind depth ms := by
    simp only [openBehind, Mark.closing, List.countP_cons, decide_true, if_true, reduceCtorEq,
      decide_false, Bool.false_eq_true, if_false]
    omega
  rw [closed, closed, h]
  rfl

/-- A sign that opens no group and closes none. -/
def Sign.isPlain : Sign → Bool
  | openGroup | closeGroup => false
  | _ => true

theorem closed_plain (depth : Nat) {m : Mark} (hm : m.sign.isPlain = true) (ms : List Mark) :
    closed depth (m :: ms) = m :: closed depth ms := by
  obtain ⟨place, sign⟩ := m
  have h : openBehind depth (⟨place, sign⟩ :: ms) = openBehind depth ms := by
    cases sign with
    | openGroup | closeGroup => cases hm
    | _ => simp [openBehind]
  rw [closed, closed, h]
  rfl

theorem uptoStray_plain (depth : Nat) {m : Mark} (hm : m.sign.isPlain = true) (ms : List Mark) :
    uptoStray depth (m :: ms) = m :: uptoStray depth ms := by
  obtain ⟨place, sign⟩ := m
  cases sign with
  | openGroup | closeGroup => cases hm
  | _ => rfl

namespace Builder

/-- What a lenient builder can do with a token. -/
inductive Takes (b : Builder) (t : Token) : Progress → Prop
  | skip : t.mark? = none → Takes b t (.more { b with skipped := t :: b.skipped })
  | push {op : Op} {m : Mark} : t.mark? = some m → m.sign.isPlain = true →
      op.marks t.location = [m] → (∀ body, op ≠ .group body) →
      Takes b t (.more { b with group := b.group.push ⟨t.location, op⟩ })
  | opens : t.mark? = some (.opening t.location) →
      Takes b t (.more { b with group := ⟨t.location, []⟩, outer := b.group :: b.outer })
  | closes {around : Group} {outer : List Group} : t.mark? = some .closing →
      b.outer = around :: outer →
      Takes b t (.more { b with group := around.pushGroup b.group, outer })
  | stray : t.mark? = some .closing → b.outer = [] →
      Takes b t (.done (b.done (.ok b.group.body)))

theorem takes_accept {b : Builder} (hb : b.strict = false) (t : Token) :
    b.Takes t (b.accept t) := by
  obtain ⟨kind, text, location⟩ := t
  cases kind with
  | operator o =>
    cases o with
    | openGroup => exact .opens rfl
    | closeGroup =>
      cases ho : b.outer with
      | nil =>
        simp only [accept, ho, hb, Bool.false_eq_true, if_false]
        exact .stray rfl ho
      | cons around outer =>
        simp only [accept, ho]
        exact .closes rfl ho
    | primitive p => exact .push rfl rfl rfl nofun
  | unknown c =>
    simp only [accept, hb, Bool.false_eq_true, if_false]
    have h := Takes.skip (b := b) (t := ⟨.unknown c, text, location⟩) rfl
    rwa [hb] at h
  | _ => exact .push rfl rfl rfl nofun

/-- What tokens add to the marks when `depth` groups are open before them. -/
def ahead (depth : Nat) (ts : List Token) : List Mark :=
  closed depth (uptoStray depth (ts.filterMap Token.mark?))

/-- What has to hold of a body that is built from here on with these tokens. -/
structure Yields (b : Builder) (ts : List Token) (body : Body) : Prop where
  marks : body.marks = b.group.written b.outer ++ ahead b.outer.length ts
  start : body.Exact (b.group.start b.outer)
  tidy : body.Tidy

/-- All groups that are open are as they should be. -/
def Tidy (b : Builder) : Prop := b.group.Tidy ∧ ∀ g ∈ b.outer, g.Tidy

variable {b : Builder} {t : Token} {ts : List Token} {body : Body}

theorem yields_closeAll (h : b.Tidy) : b.Yields [] (b.group.closeAll b.outer) :=
  ⟨b.group.marks_closeAll b.outer, b.group.exact_closeAll b.outer, h.1.closeAll h.2⟩

theorem yields_stray (h : b.Tidy) (hm : t.mark? = some .closing) (ho : b.outer = []) :
    b.Yields (t :: ts) b.group.body := by
  refine ⟨?_, ?_, h.1.body⟩
  · simp only [ho, ahead, List.filterMap_cons, hm, List.length_nil, Mark.closing, uptoStray, closed_nil]
    exact (marks_ofCode _ _).trans (List.append_nil _).symm
  · rw [ho]
    exact exact_ofCode _ _

/-- A step keeps the open groups as they should be, and what is built after it is what is to be built
before it. -/
theorem Takes.more {b' : Builder} (h : b.Takes t (.more b')) (hb : b.Tidy) :
    b'.strict = b.strict ∧ b'.Tidy ∧ ∀ ts body, b'.Yields ts body → b.Yields (t :: ts) body := by
  cases h with
  | skip hm =>
    refine ⟨rfl, hb, fun ts body hy => ⟨?_, hy.start, hy.tidy⟩⟩
    rw [hy.marks, ahead, ahead, List.filterMap_cons, hm]
  | @push op m hm hp hop hg =>
    refine ⟨rfl, ⟨hb.1.push fun body h => absurd h (hg body), hb.2⟩, fun ts body hy => ?_⟩
    refine ⟨?_, ?_, hy.tidy⟩
    · rw [hy.marks, Group.written_push, hop, ahead, ahead, List.filterMap_cons, hm]
      simp only [uptoStray_plain _ hp, closed_plain _ hp, List.append_assoc, List.cons_append,
        List.nil_append]
    · rw [Group.start_eq (g := b.group) (h := b.group.push ⟨t.location, op⟩) b.outer rfl]
      exact hy.start
  | opens hm =>
    refine ⟨rfl, ⟨fun l body h => absurd h List.not_mem_nil, ?_⟩, fun ts body hy => ?_⟩
    · exact List.forall_mem_cons.2 hb
    · refine ⟨?_, hy.start, hy.tidy⟩
      rw [hy.marks, Group.written, ahead, ahead, List.filterMap_cons, hm]
      simp only [List.length_cons, List.reverse_nil, codeMarks, List.append_assoc, List.cons_append,
        List.nil_append, ← closed_opening]
      rfl
  | @closes around outer hm ho =>
    have hall := hb.2
    rw [ho] at hall
    obtain ⟨ha, hout⟩ := List.forall_mem_cons.1 hall
    refine ⟨rfl, ⟨hb.1.pushGroup ha, hout⟩, fun ts body hy => ⟨?_, ?_, hy.tidy⟩⟩
    · rw [hy.marks, Group.written_pushGroup, ho, ahead, ahead, List.filterMap_cons, hm]
      simp only [List.length_cons, List.append_assoc, List.cons_append, List.nil_append,
        ← closed_closing]
      rfl
    · rw [ho, Group.start, Group.start_eq (g := around) (h := around.pushGroup b.group) outer rfl]
      exact hy.start

/-- A lenient builder builds from any tokens, and all that it was given is in the body. -/
theorem yields_ofTokens (ts : List Token) (b : Builder) (hb : b.strict = false) (ht : b.Tidy) :
    ∃ body, (b.ofTokens ts).result = .ok body ∧ b.Yields ts body := by
  induction ts generalizing b with
  | nil =>
    refine ⟨b.group.closeAll b.outer, ?_, yields_closeAll ht⟩
    simp [ofTokens, finish, hb, done]
  | cons t rest ih =>
    have hstep := takes_accept hb t
    rw [ofTokens]
    generalize b.accept t = progress at hstep
    cases progress with
    | more b' =>
      obtain ⟨hs, ht', hy⟩ := hstep.more ht
      obtain ⟨body, hr, hbody⟩ := ih b' (hs.trans hb) ht'
      exact ⟨body, hr, hy rest body hbody⟩
    | done build =>
      cases hstep with
      | stray hm ho => exact ⟨b.group.body, rfl, yields_stray ht hm ho⟩

end Builder

/-- A lenient builder loses, adds and reorders nothing. It makes a body of any tokens. The marks of
the body are those of the tokens, up to the first `)` that closes no group and with the missing `)`
at the end. Of each group in it the marks are those that stand between its opening and the `)` that
closes it; it starts at its opening; and like the whole body it has lost the force that it ends with,
if it ends with one, and no other. -/
theorem lenient_build_flattens (location : Location) (ts : List Token) :
    ∃ body, ((Builder.start false location).ofTokens ts).result = .ok body ∧
      body.marks = closed 0 (uptoStray 0 (ts.filterMap Token.mark?)) ∧
      body.Exact location ∧
      ∀ l b, Body.Inside l b body → b.Exact l ∧
        ∃ front back, body.marks = front ++ .opening l :: back ∧ b.marks = uptoStray 0 back := by
  have htidy : (Builder.start false location).Tidy :=
    ⟨fun l b h => absurd h List.not_mem_nil, fun g h => absurd h List.not_mem_nil⟩
  obtain ⟨body, hr, hy⟩ := Builder.yields_ofTokens ts _ rfl htidy
  refine ⟨body, hr, hy.marks, hy.start, fun l b hb => ⟨hy.tidy l b hb, ?_⟩⟩
  obtain ⟨front, back, hm⟩ := hb.marks
  exact ⟨front, _, hm, (uptoStray_body b back).symm⟩

end Concatenative
