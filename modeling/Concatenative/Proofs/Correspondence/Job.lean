import Concatenative.Proofs.Correspondence.Computation

/-! Jobs do the same to what is alike. Main statement: jobs that are alike unfold to computations
that are alike (`Job.Alike.act`). Read with a correspondence of all names with themselves it says
that a job asks only for what its terms allow. Failures of code blame a place, because every
instruction and every force that was left to a caller adds its own; the other failures blame one if
the job was started by an instruction, and so jobs that run a program are told apart from the
rest. -/
namespace Concatenative

open Eval Evaluation

/-- A program, or a call of one: all failures of such a job blame a place. -/
def Job.isProgram : Job → Bool
  | .force (.callable (.closure _ _ _)) _ => true
  | .call (.closure _ _ _) _ => true
  | _ => false

/-- What is known of the failures of a job. -/
def Terms.blame (p : Terms) (program : Bool) (e : Failure) : Prop :=
  if program then e.Blamed p else e.Placed p

/-- Jobs end alike. A program ends or becomes another one. -/
inductive Next.Alike (p : Terms) (program : Bool) (ρ : Correspondence) : Next → Next → Prop
  | value {v v' : Value} : v.Alike p ρ v' → Alike p program ρ (.value v) (.value v')
  | become {job job' : Job} : job.Alike p ρ job' → (program = true → job.isProgram = true) →
      Alike p program ρ (.become job) (.become job')

abbrev StackAlike (p : Terms) (ρ : Correspondence) : Stack → Stack → Prop :=
  List.Forall₂ (Deferred.Alike p ρ)

variable {p : Terms} {ρ σ : Correspondence} {α β : Type}

theorem Next.Alike.mono {program : Bool} (h : ρ ≤ σ) {n n' : Next}
    (hn : Next.Alike p program ρ n n') : Next.Alike p program σ n n' := by
  cases hn with
  | value hv => exact .value (hv.mono h)
  | become hj hp => exact .become (hj.mono h) hp

/-- The job of a program that becomes none other than itself. -/
theorem Next.alike_job {job job' : Job} (h : job.Alike p ρ job') :
    Next.Alike p false ρ (.become job) (.become job') := .become h nofun

theorem Literal.value_alike (v : Literal) : v.value.Alike p ρ v.value := by
  cases v with
  | int n => exact .int n
  | float x => exact .float x
  | text s => exact .text s
  | bool b => exact .bool b
  | void => exact .list .nil

/-! ## Instructions -/

namespace Evaluation

theorem alike_pop {φ : Correspondence → α → β → Prop} {stack stack' : Stack}
    {f : Deferred × Stack → Eval α} {f' : Deferred × Stack → Eval β} (hs : StackAlike p ρ stack stack')
    (hf : ∀ {d d' rest rest'}, Deferred.Alike p ρ d d' → StackAlike p ρ rest rest' →
      Eval.Alike p (Failure.Placed p) φ ρ (f (d, rest)) (f' (d', rest'))) :
    Eval.Alike p (Failure.Placed p) φ ρ (pop stack >>= f) (pop stack' >>= f') := by
  cases hs with
  | nil => exact alike_fail _
  | cons hd hs => exact hf hd hs

theorem alike_popName {stack stack' : Stack} (hs : StackAlike p ρ stack stack') :
    Eval.Alike p (Failure.Placed p) (fun σ r r' => r.1 = r'.1 ∧ StackAlike p σ r.2 r'.2) ρ
      (popName stack) (popName stack') := by
  refine alike_pop hs fun hd hrest => ?_
  refine (alike_await_placed hd).bind fun σ hσ v v' hv => ?_
  cases hv with
  | text name => exact alike_pure ⟨rfl, forall₂_mono hσ hrest⟩
  | _ => exact alike_fail _

theorem alike_withName {φ : Correspondence → α → β → Prop} {stack stack' : Stack}
    {f : String × Stack → Eval α} {f' : String × Stack → Eval β} (hs : StackAlike p ρ stack stack')
    (hf : ∀ {σ name rest rest'}, ρ ≤ σ → StackAlike p σ rest rest' →
      Eval.Alike p (Failure.Placed p) φ σ (f (name, rest)) (f' (name, rest'))) :
    Eval.Alike p (Failure.Placed p) φ ρ (popName stack >>= f) (popName stack' >>= f') := by
  refine (alike_popName hs).bind ?_
  rintro σ hσ ⟨name, rest⟩ ⟨_, rest'⟩ ⟨rfl, hrest⟩
  exact hf hσ hrest

/-- Starts a job and pushes its result. -/
theorem alike_push {l : Location} (hl : p.places l) {job job' : Job} (hj : job.Alike p ρ job')
    {stack stack' : Stack} (hs : StackAlike p ρ stack stack') :
    Eval.Alike p (Failure.Placed p) (StackAlike p) ρ (do return (← start l job) :: stack)
      (do return (← start l job') :: stack') :=
  (alike_start hl hj).bind fun _ hσ _ _ hd => alike_pure (.cons hd (forall₂_mono hσ hs))

theorem alike_keep {r r' : Except Failure Unit} (hr : Matches (Failure.Placed p) Eq r r')
    {stack stack' : Stack} (hs : StackAlike p ρ stack stack') :
    Eval.Alike p (Failure.Placed p) (StackAlike p) ρ (do orFail r; return stack)
      (do orFail r'; return stack') :=
  (alike_orFail (φ := fun _ => Eq) hr).bind fun _ hσ _ _ _ => alike_pure (forall₂_mono hσ hs)

theorem alike_found {r r' : Except Failure Deferred}
    (hr : Matches (Failure.Placed p) (Deferred.Alike p ρ) r r') {stack stack' : Stack}
    (hs : StackAlike p ρ stack stack') :
    Eval.Alike p (Failure.Placed p) (StackAlike p) ρ (do return (← orFail r) :: stack)
      (do return (← orFail r') :: stack') :=
  (alike_orFail hr).bind fun _ hσ _ _ hd => alike_pure (.cons hd (forall₂_mono hσ hs))

theorem alike_primitive {f f' : FrameId} (hf : ρ.frames f f') {l : Location} (hl : p.places l)
    {q : Primitive} (hq : p.permits q) {stack stack' : Stack} (hs : StackAlike p ρ stack stack') :
    Eval.Alike p (Failure.Placed p) (StackAlike p) ρ (primitive f l q stack)
      (primitive f' l q stack') := by
  cases q with
  | bind =>
    refine alike_withName hs fun hσ hs => alike_pop hs fun hd hs => ?_
    refine (alike_ask (.declare hq (hσ.2.1 _ _ hf) hd)).bind fun τ hτ r r' hr => ?_
    exact alike_keep hr (forall₂_mono hτ hs)
  | rebind =>
    refine alike_withName hs fun hσ hs => alike_pop hs fun hd hs => ?_
    refine (alike_ask (.rebind hq (hσ.2.1 _ _ hf) hd)).bind fun τ hτ r r' hr => ?_
    exact alike_keep hr (forall₂_mono hτ hs)
  | lookup =>
    refine alike_withName hs fun hσ hs => ?_
    refine (alike_ask (.lookup (hσ.2.1 _ _ hf))).bind fun τ hτ r r' hr => ?_
    exact alike_found hr (forall₂_mono hτ hs)
  | input =>
    refine (alike_ask (.input hf)).bind fun τ hτ r r' hr => ?_
    exact alike_found hr (forall₂_mono hτ hs)
  | compose =>
    exact alike_pop hs fun hd hs => alike_pop hs fun he hs => alike_push hl (.compose he hd) hs
  | force => exact alike_pop hs fun hd hs => alike_push hl (.forceLater hd) hs
  | guard =>
    refine alike_pop hs fun hd hs => alike_pop hs fun he hs => ?_
    refine (alike_ask .stamp).bind fun σ hσ n n' hn => alike_pure ?_
    exact .cons (.settled (.callable (.guarded hn (he.mono hσ) (hd.mono hσ)))) (forall₂_mono hσ hs)
  | concat =>
    exact alike_pop hs fun hd hs => alike_pop hs fun he hs => alike_push hl (.concat he hd) hs
  | push =>
    exact alike_pop hs fun hd hs => alike_pop hs fun he hs => alike_push hl (.append he hd) hs
  | pop =>
    refine alike_pop hs fun hd hs => ?_
    refine (alike_start hl (.transform hd fun _ _ _ h => h.split)).bind fun σ hσ _ _ hpair => ?_
    refine (alike_start hl (.transform hpair fun _ _ _ h => h.component 0)).bind
      fun τ hτ _ _ hrest => ?_
    refine (alike_start hl (.transform (hpair.mono hτ) fun _ _ _ h => h.component 1)).bind
      fun υ hυ _ _ hlast => alike_pure ?_
    exact .cons hlast (.cons (hrest.mono hυ)
      (forall₂_mono (Correspondence.le_trans hσ (Correspondence.le_trans hτ hυ)) hs))
  | newList =>
    exact alike_pop hs fun hd hs =>
      alike_push hl (.transform hd fun _ _ _ h => h.singleton) hs
  | map =>
    exact alike_pop hs fun hd hs => alike_pop hs fun he hs => alike_push hl (.map hl he hd) hs
  | reduce =>
    exact alike_pop hs fun hd hs => alike_pop hs fun he hs => alike_push hl (.reducer he hd) hs
  | load => exact alike_pop hs fun hd hs => alike_push hl (.load hq hf hd) hs
  | access => exact alike_pop hs fun hd hs => alike_push hl (.access hq hf hd) hs
  | clear => exact alike_pop hs fun _ hs => alike_pure hs

theorem alike_instruction {f f' : FrameId} (hf : ρ.frames f f') {l : Location} (hl : p.places l)
    {op : Op} (hop : op.Fits p) {stack stack' : Stack} (hs : StackAlike p ρ stack stack') :
    Eval.Alike p (Failure.Blamed p) (StackAlike p) ρ (instruction f ⟨l, op⟩ stack)
      (instruction f' ⟨l, op⟩ stack') := by
  refine Eval.Alike.orAt hl ?_
  cases op with
  | literal v => exact alike_pure (.cons (.settled (Literal.value_alike v)) hs)
  | group body =>
    refine (alike_ask .stamp).bind fun σ hσ n n' hn => alike_pure ?_
    exact .cons (.settled (.callable (.closure hn (Op.fits_group.1 hop) (hσ.2.1 _ _ hf))))
      (forall₂_mono hσ hs)
  | primitive q =>
    rw [Op.Fits] at hop
    exact alike_primitive hf hl hop hs

/-- Code that keeps to the terms asks only for what they allow, and its failures blame a place. -/
theorem alike_code {f f' : FrameId} (hf : ρ.frames f f') {is : List Instruction}
    (his : codeFits p is) {stack stack' : Stack} (hs : StackAlike p ρ stack stack') :
    Eval.Alike p (Failure.Blamed p) (Value.Alike p) ρ (code f is stack) (code f' is stack') := by
  induction is generalizing ρ stack stack' with
  | nil =>
    cases hs with
    | nil => exact alike_pure .none
    | cons hd _ => exact alike_await hd
  | cons i rest ih =>
    obtain ⟨l, op⟩ := i
    rw [codeFits] at his
    obtain ⟨hl, hop, hrest⟩ := his
    exact (alike_instruction hf hl hop hs).bind fun σ hσ _ _ hs => ih (hσ.2.1 _ _ hf) hrest hs

/-! ## Words -/

theorem alike_print {x x' : Option Value} (hx : InputAlike p ρ x x') :
    Eval.Alike p (Failure.Placed p) (Value.Alike p) ρ (print x) (print x') := by
  have ht : x.map Value.display = x'.map Value.display := by
    cases hx with
    | none => rfl
    | some hv => rw [Option.map_some, Option.map_some, hv.display_eq]
  rw [print, print, ht]
  refine (alike_ask .write).bind fun σ hσ r r' hr => ?_
  subst hr
  cases r with
  | ok _ => exact alike_pure .none
  | error fault => exact alike_fail _

theorem alike_word {w : Word} (hw : p.permitsWord w) {x x' : Option Value}
    (hx : InputAlike p ρ x x') :
    Eval.Alike p (Failure.Placed p) (Value.Alike p) ρ (word w x) (word w x') := by
  cases w with
  | sum => exact alike_orFail (Word.total_alike _ _ (Word.arithmetic_alike _ _) hx)
  | prod => exact alike_orFail (Word.total_alike _ _ (Word.arithmetic_alike _ _) hx)
  | diff => exact alike_orFail (Word.diffOf_alike hx)
  | pow => exact alike_orFail (Word.powOf_alike hx)
  | eq => exact alike_orFail (Word.eqOf_alike hx)
  | not => exact alike_orFail (Word.notOf_alike hx)
  | and => exact alike_orFail (Word.truthOf_alike _ _ _ hx)
  | or => exact alike_orFail (Word.truthOf_alike _ _ _ hx)
  | xor => exact alike_orFail (Word.truthOf_alike _ _ _ hx)
  | print => exact alike_print hx
  | foreign name =>
    exact alike_askOrFail (f := id) (g := id) (.word hw hx) fun _ _ _ ho => ho

/-! ## Modules -/

section Modules

variable (hp : p.loads)

theorem alike_noteAll {ε : Failure → Prop} (ns : List Note) :
    Eval.Alike p ε (fun _ => Eq) ρ (noteAll ns) (noteAll ns) := by
  induction ns generalizing ρ with
  | nil => exact alike_pure rfl
  | cons n rest ih => exact (alike_ask .note).bind fun _ _ _ _ _ => ih

include hp

theorem alike_search (reference : String) (first : Path) :
    Eval.Alike p (Failure.Placed p) (fun _ => Eq) ρ (resolve reference (some first))
      (resolve reference (some first)) := by
  refine (alike_ask (.settings hp)).bind ?_
  rintro _ _ settings _ rfl
  refine (alike_ask (.firstFile hp)).bind ?_
  rintro _ _ found _ rfl
  refine (alike_noteAll _).bind fun _ _ _ _ _ => ?_
  cases found with
  | some found => exact alike_pure rfl
  | none => exact alike_fail _

theorem alike_resolve (reference : String) (directory : Option Path) :
    Eval.Alike p (Failure.Placed p) (fun _ => Eq) ρ (resolve reference directory)
      (resolve reference directory) := by
  -- Wherever the search starts, it goes on in the same way.
  rcases directory with _ | d
  · refine (alike_ask (.workingDirectory hp)).bind ?_
    rintro _ _ first _ rfl
    exact alike_search hp reference first
  · exact alike_search hp reference d

theorem alike_locate {f f' : FrameId} (hf : ρ.frames f f') {d d' : Deferred}
    (hd : d.Alike p ρ d') :
    Eval.Alike p (Failure.Placed p) (fun _ => Eq) ρ (locate f d) (locate f' d') := by
  refine (alike_await_placed hd).bind fun σ hσ v v' hv => ?_
  cases hv with
  | text reference =>
    refine (alike_ask (.moduleDirectory hp (hσ.2.1 _ _ hf))).bind fun _ _ r r' hr => ?_
    refine (alike_orFail (φ := fun _ => Eq) hr).bind ?_
    rintro _ _ directory _ rfl
    refine (alike_resolve hp reference directory).bind ?_
    rintro _ _ path _ rfl
    exact (alike_note _ _).bind fun _ _ _ _ _ => alike_pure rfl
  | _ => exact alike_fail _

theorem alike_buildModule (path : Path) {text : String} (ht : p.Admits path.text text) :
    Eval.Alike p (Failure.Placed p) (fun _ b b' => b = b' ∧ b.Fits p) ρ (buildModule path text)
      (buildModule path text) := by
  refine (alike_ask (.countParse hp)).bind fun _ _ _ _ _ => ?_
  refine (alike_note _ _).bind fun _ _ _ _ _ => ?_
  refine (alike_ask (.settings hp)).bind ?_
  rintro _ _ settings _ rfl
  refine (alike_noteAll _).bind fun _ _ _ _ _ => ?_
  obtain ⟨hok, herror⟩ := ht settings.strict
  cases hb : (build settings.strict path.text text).result with
  | ok body =>
    have hfits := hok body hb
    exact (alike_ask (.publish hp hfits)).bind fun _ _ _ _ _ => alike_pure ⟨rfl, hfits⟩
  | error e =>
    exact (alike_ask (.giveUp hp)).bind fun _ _ _ _ _ => alike_throw (herror e hb)

theorem alike_moduleBody (path : Path) :
    Eval.Alike p (Failure.Placed p) (fun _ b b' => b = b' ∧ b.Fits p) ρ (moduleBody path)
      (moduleBody path) := by
  refine (alike_ask (.claim hp)).bind ?_
  rintro _ _ claimed _ ⟨rfl, hfits⟩
  cases claimed with
  | some body => exact alike_pure ⟨rfl, hfits body rfl⟩
  | none =>
    refine (alike_ask (.content hp)).bind ?_
    rintro _ _ answer _ ⟨rfl, hadmits⟩
    cases answer with
    | ok text => exact alike_buildModule hp path (hadmits text rfl)
    | error fault => exact (alike_ask (.giveUp hp)).bind fun _ _ _ _ _ => alike_fail _

end Modules

/-! ## Calls -/

theorem alike_foldList {step step' : Value} (hstep : step.Alike p ρ step') {total total' : Value}
    (ht : total.Alike p ρ total') (index : Nat) {vs vs' : List Value}
    (hs : List.Forall₂ (Value.Alike p ρ) vs vs') :
    Eval.Alike p (Failure.Placed p) (Value.Alike p) ρ (foldList step total index vs)
      (foldList step' total' index vs') := by
  induction vs generalizing ρ total total' index vs' with
  | nil =>
    cases hs
    exact alike_pure ht
  | cons v rest ih =>
    cases hs with
    | cons hv hs =>
      have hin : (stepInput total v index).Alike p ρ (stepInput total' _ index) :=
        .list (.cons ht (.cons hv (.cons (.int _) .nil)))
      refine (alike_perform (.force hstep (.some hin))).bind fun σ hσ w w' hw => ?_
      exact ih (hstep.mono hσ) hw (index + 1) (hs.imp fun _ _ => Value.Alike.mono hσ)

theorem alike_value {x x' : Eval Value} {ε : Failure → Prop} {program : Bool}
    (h : Eval.Alike p ε (Value.Alike p) ρ x x') :
    Eval.Alike p ε (Next.Alike p program) ρ (do return .value (← x)) (do return .value (← x')) :=
  h.bind fun _ _ _ _ hv => alike_pure (.value hv)

/-- A reducer of anything but a list folds what a generator yields. -/
theorem alike_reduce_generator {g g' step step' : Value} (hg : g.Alike p ρ g')
    (hstep : step.Alike p ρ step') :
    Eval.Alike p (Failure.Placed p) (Next.Alike p false) ρ
      (do match ← perform (.force g (some (indexValue 0))) with
        | .none => fail .emptyGenerator
        | first => return .become (.generate g step first 1))
      (do match ← perform (.force g' (some (indexValue 0))) with
        | .none => fail .emptyGenerator
        | first => return .become (.generate g' step' first 1)) := by
  refine (alike_perform (.force hg (.some (.int _)))).bind fun σ hσ v v' hv => ?_
  have hnext : Next.Alike p false σ (.become (.generate g step v 1))
      (.become (.generate g' step' v' 1)) :=
    Next.alike_job (.generate 1 (hg.mono hσ) (hstep.mono hσ) hv)
  cases hv with
  | none => exact alike_fail _
  | _ => exact alike_pure hnext

theorem alike_reduce {source source' step step' : Value} {x x' : Option Value}
    (hsource : source.Alike p ρ source') (hstep : step.Alike p ρ step')
    (hx : InputAlike p ρ x x') :
    Eval.Alike p (Failure.Placed p) (Next.Alike p false) ρ (reduce source step x)
      (reduce source' step' x') := by
  have hs₀ := hsource
  cases hx with
  | some hv =>
    cases hsource with
    | list hs => exact alike_value (alike_foldList hstep hv 0 (Value.allAlike_iff.1 hs))
    | _ => exact alike_pure (Next.alike_job (.generate 0 hs₀ hstep hv))
  | none =>
    cases hsource with
    | list hs =>
      cases hs with
      | nil => exact alike_fail _
      | cons hv hs => exact alike_value (alike_foldList hstep hv 1 (Value.allAlike_iff.1 hs))
    | _ => exact alike_reduce_generator hs₀ hstep

/-- What the second part of a composition does with the value of the first. -/
def passOn (f inner : Value) : Next :=
  match f with
  | .callable c =>
    if c.isTail then .become (.call c (some inner)) else .become (.force f (some inner))
  | _ => .become (.force f (some inner))

theorem composed_eq (f g : Value) (x : Option Value) :
    composed f g x = (if g.isCallable then perform (.force g x) else pure g) >>= fun inner =>
      pure (passOn f inner) := by
  simp only [composed, passOn]
  cases f with
  | callable c =>
    dsimp only
    cases g.isCallable <;> cases c.isTail <;> rfl
  | _ => cases g.isCallable <;> rfl

theorem passOn_alike {f f' v v' : Value} (hf : f.Alike p ρ f') (hv : v.Alike p ρ v') :
    Next.Alike p false ρ (passOn f v) (passOn f' v') := by
  have hforce := Next.alike_job (.force hf (.some hv))
  cases hf with
  | callable hc =>
    simp only [passOn, hc.isTail_eq]
    split
    · exact Next.alike_job (.call hc (.some hv))
    · exact hforce
  | _ => exact hforce

theorem alike_composed {f f' g g' : Value} {x x' : Option Value} (hf : f.Alike p ρ f')
    (hg : g.Alike p ρ g') (hx : InputAlike p ρ x x') :
    Eval.Alike p (Failure.Placed p) (Next.Alike p false) ρ (composed f g x)
      (composed f' g' x') := by
  have hinner : Eval.Alike p (Failure.Placed p) (Value.Alike p) ρ
      (if g.isCallable then perform (.force g x) else pure g)
      (if g'.isCallable then perform (.force g' x') else pure g') := by
    rw [hg.isCallable_eq]
    split
    · exact alike_perform (.force hg hx)
    · exact alike_pure hg
  rw [composed_eq, composed_eq]
  exact hinner.bind fun σ hσ v v' hv => alike_pure (passOn_alike (hf.mono hσ) hv)

theorem alike_guarded {d d' h h' : Deferred} {x x' : Option Value} (hd : d.Alike p ρ d')
    (hh : h.Alike p ρ h') (hx : InputAlike p ρ x x') :
    Eval.Alike p (Failure.Placed p) (Next.Alike p false) ρ (guarded d h x) (guarded d' h' x') := by
  have hcall : Eval.Alike p (Failure.Placed p) (Value.Alike p) ρ
      (do perform (.force (← await d) x)) (do perform (.force (← await d') x')) :=
    (alike_await_placed hd).bind fun σ hσ _ _ hv => alike_perform (.force hv (hx.mono hσ))
  refine hcall.attempt.bind fun σ hσ o o' ho => ?_
  cases ho with
  | ok hv => exact alike_pure (.value hv)
  | error he =>
    refine (alike_note _ _).bind fun τ hτ _ _ _ => ?_
    refine (alike_await_placed ((hh.mono hσ).mono hτ)).bind fun υ hυ _ _ hv => ?_
    exact alike_pure (Next.alike_job (.force hv (.some (.text _))))

/-- A call of a closure. -/
theorem alike_call_closure {body : Body} {f f' : FrameId} {x x' : Option Value}
    {program : Bool} (n n' : Nat) (hb : body.Fits p) (hf : ρ.frames f f') (hx : InputAlike p ρ x x') :
    Eval.Alike p (Failure.Blamed p) (Next.Alike p program) ρ (call (.closure n body f) x)
      (call (.closure n' body f') x') := by
  refine (alike_ask (.enter hf hx)).bind fun σ hσ f f' hf => ?_
  exact alike_value (alike_code hf hb.1 .nil)

theorem alike_call {c c' : Callable} {x x' : Option Value} (hc : c.Alike p ρ c')
    (hx : InputAlike p ρ x x') :
    Eval.Alike p (Failure.Placed p) (Next.Alike p false) ρ (call c x) (call c' x') := by
  cases hc with
  | closure hn hb hf => exact (alike_call_closure _ _ hb hf hx).imp fun _ => Failure.Blamed.placed
  | composed hn hf hg => exact alike_composed hf hg hx
  | guarded hn hd hh => exact alike_guarded hd hh hx
  | reducer hn hv hs => exact alike_reduce hv hs hx
  | host hw => exact alike_value (alike_word hw hx)

/-! ## Forces -/

mutual

/-- A force that is left to the caller stands at a place of the terms. -/
theorem places_tailForce {c c' : Callable} {l : Location} :
    c.Alike p ρ c' → c.tailForce? = some l → p.places l
  | .closure _ hb _, hl => hb.2 l hl
  | .composed _ hf _, hl => by
    rw [Callable.tailForce?] at hl
    exact places_tailForce_value hf hl
  | .guarded _ _ _, hl => nomatch hl
  | .reducer _ _ _, hl => nomatch hl
  | .host _, hl => nomatch hl

theorem places_tailForce_value {v v' : Value} {l : Location} :
    v.Alike p ρ v' → v.tailForce? = some l → p.places l
  | .callable hc, hl => by
    rw [Value.tailForce?] at hl
    exact places_tailForce hc hl

end

/-- A force of a callable; failures of one that leaves its force blame a place. -/
theorem alike_force_callable {c c' : Callable} {x x' : Option Value} {program : Bool}
    (hc : c.Alike p ρ c') (hx : InputAlike p ρ x x')
    (hp : program = true → (Job.call c x).isProgram = true) :
    Eval.Alike p (Failure.Blamed p) (Next.Alike p program) ρ (Evaluation.force (.callable c) x)
      (Evaluation.force (.callable c') x') := by
  simp only [Evaluation.force, hc.tailForce_eq]
  cases ht : c'.tailForce? with
  | some l =>
    have hl := places_tailForce hc (hc.tailForce_eq.trans ht)
    exact alike_value ((alike_perform (.bounce hc hx)).orAt hl)
  | none => exact alike_pure (.become (.call hc hx) hp)

theorem alike_force {v v' : Value} {x x' : Option Value} (hv : v.Alike p ρ v')
    (hx : InputAlike p ρ x x') :
    Eval.Alike p (Failure.Placed p) (Next.Alike p false) ρ (Evaluation.force v x)
      (Evaluation.force v' x') := by
  have happly := hv.apply hx
  cases hv with
  | @callable c c' hc =>
    have hp : false = true → (Job.call c x).isProgram = true := nofun
    exact (alike_force_callable hc hx hp).imp fun _ => Failure.Blamed.placed
  | _ => exact alike_value (alike_orFail happly)

theorem alike_bounce {c c' : Callable} {x x' : Option Value} (hc : c.Alike p ρ c')
    (hx : InputAlike p ρ x x') :
    Eval.Alike p (Failure.Placed p) (Next.Alike p false) ρ (bounce c x) (bounce c' x') := by
  refine (alike_perform (.call hc hx)).bind fun σ hσ v v' hv => ?_
  have hv₀ := hv
  cases hv with
  | callable hn =>
    simp only [hn.isTail_eq]
    split
    · exact alike_pure (Next.alike_job (.bounce hn .none))
    · exact alike_pure (Next.alike_job (.call hn .none))
  | _ => exact alike_pure (.value hv₀)

theorem alike_generate {g g' s s' t t' : Value} (hg : g.Alike p ρ g') (hs : s.Alike p ρ s')
    (ht : t.Alike p ρ t') (index : Nat) :
    Eval.Alike p (Failure.Placed p) (Next.Alike p false) ρ (generate g s t index)
      (generate g' s' t' index) := by
  refine (alike_perform (.force hg (.some (.int _)))).bind fun σ hσ v v' hv => ?_
  have hin : (stepInput t v index).Alike p σ (stepInput t' v' index) :=
    .list (.cons (ht.mono hσ) (.cons hv (.cons (.int _) .nil)))
  have hstep : Eval.Alike p (Failure.Placed p) (Next.Alike p false) σ
      (do
        let total ← perform (.force s (some (stepInput t v index)))
        return .become (.generate g s total (index + 1)))
      (do
        let total ← perform (.force s' (some (stepInput t' v' index)))
        return .become (.generate g' s' total (index + 1))) := by
    refine (alike_perform (.force (hs.mono hσ) (.some hin))).bind fun τ hτ w w' hw => ?_
    exact alike_pure (Next.alike_job (.generate (index + 1) ((hg.mono hσ).mono hτ)
      ((hs.mono hσ).mono hτ) hw))
  cases hv with
  | none => exact alike_pure (.value (ht.mono hσ))
  | _ => exact hstep

theorem alike_startEach {ε : Failure → Prop} {l : Location} (hl : p.places l) {f f' : Value}
    (hf : f.Alike p ρ f') {vs vs' : List Value} (hs : List.Forall₂ (Value.Alike p ρ) vs vs')
    {started started' : List Deferred} (hd : List.Forall₂ (Deferred.Alike p ρ) started started')
    (index : Nat) :
    Eval.Alike p ε (fun σ => List.Forall₂ (Deferred.Alike p σ)) ρ
      (startEach l f started index vs) (startEach l f' started' index vs') := by
  induction vs generalizing ρ vs' started started' index with
  | nil =>
    cases hs
    exact alike_pure (List.rel_reverse hd)
  | cons v rest ih =>
    cases hs with
    | cons hv hs =>
      refine (alike_start hl (.force hf (.some (.list (.cons hv (.cons (.int _) .nil)))))).bind
        fun σ hσ d d' hnew => ?_
      exact ih (hf.mono hσ) (hs.imp fun _ _ => Value.Alike.mono hσ)
        (.cons hnew (forall₂_mono hσ hd)) (index + 1)

end Evaluation

/-! ## Jobs -/

theorem alike_map {l : Location} (hl : p.places l) {i i' f f' : Deferred} (hi : i.Alike p ρ i')
    (hf : f.Alike p ρ f') :
    Eval.Alike p (Failure.Placed p) (Next.Alike p false) ρ (Job.map l i f).act
      (Job.map l i' f').act := by
  refine (alike_settleBoth hi hf).bind fun σ hσ r r' hr => ?_
  refine (alike_orFail (φ := fun τ => List.Forall₂ (Value.Alike p τ)) hr.1.asList).bind
    fun τ hτ vs vs' hvs => ?_
  refine (alike_startEach hl (hr.2.mono hτ) hvs .nil 0).bind fun υ hυ ds ds' hds => ?_
  exact alike_pure (Next.alike_job (.gather hds))

theorem alike_reducer {s s' f f' : Deferred} (hs : s.Alike p ρ s') (hf : f.Alike p ρ f') :
    Eval.Alike p (Failure.Placed p) (Next.Alike p false) ρ (Job.reducer s f).act
      (Job.reducer s' f').act := by
  refine (alike_settleBoth hs hf).bind ?_
  rintro σ hσ ⟨v, w⟩ ⟨v', w'⟩ ⟨hv, hw⟩
  have hmade : Eval.Alike p (Failure.Placed p) (Next.Alike p false) σ
      (do return .value (.callable (.reducer (← ask .stamp) v w)))
      (do return .value (.callable (.reducer (← ask .stamp) v' w'))) :=
    (alike_ask .stamp).bind fun τ hτ n n' hn =>
      alike_pure (.value (.callable (.reducer hn (hv.mono hτ) (hw.mono hτ))))
  cases hv with
  | list => exact hmade
  | callable => exact hmade
  | _ => exact alike_fail _

theorem alike_openModule (hp : p.loads) {f f' : FrameId} (hf : ρ.frames f f') (path : Path) :
    Eval.Alike p (Failure.Placed p) (Next.Alike p false) ρ (Job.openModule f path).act
      (Job.openModule f' path).act := by
  refine (alike_moduleBody hp path).bind ?_
  rintro σ hσ body _ ⟨rfl, hbody⟩
  refine (alike_ask (.enterModule hp (hσ.2.1 _ _ hf))).bind fun τ hτ g g' hg => ?_
  refine (alike_ask .stamp).bind fun υ hυ n n' hn => alike_pure (.value ?_)
  exact .callable (.closure hn hbody (hυ.2.1 _ _ hg))

/-- Jobs that are alike unfold to computations that are alike. -/
theorem Job.Alike.act {job job' : Job} (h : job.Alike p ρ job') :
    Eval.Alike p (Failure.Placed p) (Next.Alike p false) ρ job.act job'.act := by
  cases h with
  | force hv hx => exact alike_force hv hx
  | call hc hx => exact alike_call hc hx
  | bounce hc hx => exact alike_bounce hc hx
  | generate index hg hs ht => exact alike_generate hg hs ht index
  | forceLater hd =>
    exact (alike_await_placed hd).bind fun _ _ _ _ hv =>
      alike_pure (Next.alike_job (.force hv .none))
  | compose hg hf =>
    refine (alike_settleBoth hg hf).bind fun σ hσ r r' hr => ?_
    refine (alike_ask .stamp).bind fun τ hτ n n' hn => alike_pure (.value (.callable ?_))
    exact .composed hn (hr.2.mono hτ) (hr.1.mono hτ)
  | concat ha hb =>
    refine (alike_settleBoth ha hb).bind fun σ hσ r r' hr => ?_
    exact alike_value (alike_orFail (hr.1.concat hr.2))
  | append hi hv =>
    refine (alike_settleBoth hi hv).bind fun σ hσ r r' hr => ?_
    exact alike_value (alike_orFail (hr.1.append hr.2))
  | transform hd hf =>
    refine (alike_await_placed hd).bind fun σ hσ v v' hv => ?_
    exact alike_value (alike_orFail (hf σ v v' hv))
  | map hl hi hf => exact alike_map hl hi hf
  | gather hs =>
    exact (alike_settleAll hs).bind fun _ _ _ _ hvs => alike_pure (.value (Value.alike_list.2 hvs))
  | reducer hs hf => exact alike_reducer hs hf
  | load hp hf hr =>
    refine (alike_locate hp hf hr).bind ?_
    rintro σ hσ path _ rfl
    refine (alike_perform (.openModule hp (hσ.2.1 _ _ hf))).bind fun τ hτ v v' hv => ?_
    exact alike_pure (Next.alike_job (.force hv .none))
  | access hp hf hr =>
    refine (alike_locate hp hf hr).bind ?_
    rintro σ hσ path _ rfl
    exact alike_pure (Next.alike_job (.openModule hp (hσ.2.1 _ _ hf)))
  | openModule hp hf => exact alike_openModule hp hf _

/-- Programs that are alike unfold to computations whose failures blame a place. -/
theorem Job.Alike.act_program {job job' : Job} (h : job.Alike p ρ job')
    (hj : job.isProgram = true) :
    Eval.Alike p (Failure.Blamed p) (Next.Alike p true) ρ job.act job'.act := by
  cases h with
  | force hv hx =>
    cases hv with
    | callable hc =>
      cases hc with
      | closure hn hb hf => exact alike_force_callable (.closure hn hb hf) hx fun _ => rfl
      | _ => cases hj
    | _ => cases hj
  | call hc hx =>
    cases hc with
    | @closure n n' _ _ _ hn hb hf => exact alike_call_closure n n' hb hf hx
    | _ => cases hj
  | _ => cases hj

end Concatenative
