import Concatenative.Proofs.Correspondence.Computation

/-! Where built code stands. The spots of a text are the starts of its tokens, and the start of the
lexeme that can not be read if there is one. Everything a builder puts into a body stands at a spot
of the text: instructions, forces that are left to the caller and the groups in it. Main statement:
so does every failure to build a text (`build_fits`). -/
namespace Concatenative

/-- A token starts here, or the lexeme that can not be read. -/
def Cursor.Spot (c : Cursor) (l : Location) : Prop :=
  (∃ t ∈ c.tokens.1, t.location = l) ∨ c.tokens.2.bind Failure.location = some l

instance (c : Cursor) (l : Location) : Decidable (c.Spot l) := inferInstanceAs (Decidable (_ ∨ _))

/-- A spot of a whole text. -/
def Spot (path text : String) (l : Location) : Prop := (Cursor.ofText path text).Spot l

instance (path text : String) (l : Location) : Decidable (Spot path text l) :=
  inferInstanceAs (Decidable (Cursor.Spot _ l))

namespace Cursor

variable {c d : Cursor} {t : Token}

theorem spot_token {l : Location} (h : c.readToken = (.ok (some t), d)) :
    c.Spot l ↔ t.location = l ∨ d.Spot l := by
  simp only [Spot, tokens_token h, List.mem_cons, exists_eq_or_imp, or_assoc]

/-- A failure to read a token blames the start of a lexeme. -/
theorem spot_failure {e : Failure} (h : c.readToken = (.error e, d)) :
    ∃ l, e.location = some l ∧ c.Spot l := by
  obtain ⟨l, hl⟩ : ∃ l, e.location = some l := by
    unfold Cursor.readToken at h
    dsimp only at h
    split at h
    · cases h
    · split at h
      · cases h
      · cases h
        exact ⟨_, rfl⟩
  refine ⟨l, hl, .inr ?_⟩
  rw [tokens_failure h]
  exact hl

end Cursor

variable {p : Terms}

theorem codeFits_cons {i : Instruction} {rest : List Instruction} :
    codeFits p (i :: rest) ↔ p.places i.location ∧ i.op.Fits p ∧ codeFits p rest := by
  obtain ⟨l, op⟩ := i
  rw [codeFits]

theorem codeFits_iff {is : List Instruction} :
    codeFits p is ↔ ∀ i ∈ is, p.places i.location ∧ i.op.Fits p := by
  induction is with
  | nil => simp [codeFits]
  | cons i rest ih => simp [codeFits_cons, ih, and_assoc]

/-- Code that fits makes a body that fits, also if its last force is taken off. -/
theorem Body.fits_ofCode {is : List Instruction} (h : codeFits p is) (l : Location) :
    (Body.ofCode is l).Fits p := by
  rw [codeFits_iff] at h
  unfold Body.ofCode
  split
  · next tail hlast =>
    refine ⟨codeFits_iff.2 fun i hi => h i (List.dropLast_subset is hi), fun l' hl' => ?_⟩
    cases hl'
    exact (h _ (List.mem_of_getLast? hlast)).1
  · refine ⟨codeFits_iff.2 h, fun l' hl' => ?_⟩
    cases hl'

namespace Group

/-- A group and those around it hold code that fits. The outermost is no group of the text, all others
stand where they were opened. -/
def Fits (p : Terms) (g : Group) : List Group → Prop
  | [] => codeFits p g.code
  | around :: outer => codeFits p g.code ∧ p.places g.location ∧ around.Fits p outer

variable {g : Group} {outer : List Group}

theorem Fits.code (h : g.Fits p outer) : codeFits p g.code := by
  cases outer with
  | nil => exact h
  | cons around outer => exact h.1

theorem Fits.body (h : g.Fits p outer) : g.body.Fits p := by
  refine Body.fits_ofCode (codeFits_iff.2 fun i hi => ?_) g.location
  exact codeFits_iff.1 h.code i (List.mem_reverse.1 hi)

theorem Fits.push {i : Instruction} (h : g.Fits p outer) (hl : p.places i.location)
    (ho : i.op.Fits p) : (g.push i).Fits p outer := by
  cases outer with
  | nil => exact codeFits_cons.2 ⟨hl, ho, h⟩
  | cons around outer => exact ⟨codeFits_cons.2 ⟨hl, ho, h.1⟩, h.2⟩

theorem Fits.pushGroup {around : Group} (h : g.Fits p (around :: outer)) :
    (around.pushGroup g).Fits p outer :=
  h.2.2.push h.2.1 (Op.fits_group.2 h.body)

theorem Fits.closeAll (h : g.Fits p outer) : (g.closeAll outer).Fits p := by
  induction outer generalizing g with
  | nil => exact h.body
  | cons around outer ih => exact ih h.pushGroup

end Group

/-- What was built fits, or the failure blames a place. -/
def Build.Fits (p : Terms) (b : Build) : Prop :=
  (∀ body, b.result = .ok body → body.Fits p) ∧ ∀ e, b.result = .error e → e.Blamed p

namespace Builder

theorem fits_done {b : Builder} {body : Body} (h : body.Fits p) : (b.done (.ok body)).Fits p := by
  constructor
  · intro body' h'
    cases h'
    exact h
  · intro e h'
    cases h'

theorem fits_failed {b : Builder} {e : Failure} (h : e.Blamed p) : (b.done (.error e)).Fits p := by
  constructor
  · intro body h'
    cases h'
  · intro e' h'
    cases h'
    exact h

/-- All groups that are open fit. -/
def Fits (p : Terms) (b : Builder) : Prop := b.group.Fits p b.outer

/-- What a builder comes to with one token more. -/
def Progress.Fits (p : Terms) : Progress → Prop
  | .more b => b.Fits p
  | .done b => b.Fits p

variable {b : Builder} {t : Token}

theorem Fits.push {l : Location} {op : Op} (h : b.Fits p) (hl : p.places l) (ho : op.Fits p) :
    (b.push l op).Fits p := Group.Fits.push h hl ho

theorem Fits.accept (h : b.Fits p) (ht : p.places t.location) (hp : ∀ q, p.permits q) :
    (b.accept t).Fits p := by
  unfold Builder.accept
  split
  · exact h.push ht trivial
  · exact h.push ht trivial
  · exact h.push ht trivial
  · exact h.push ht trivial
  · exact h.push ht trivial
  · exact h.push ht trivial
  · exact h.push ht (hp _)
  · exact ⟨trivial, ht, h⟩
  · split
    · next around outer ho =>
      unfold Builder.Fits at h
      rw [ho] at h
      exact h.pushGroup
    · next ho =>
      split
      · exact fits_failed ⟨_, rfl, ht⟩
      · exact fits_done h.body
  · split
    · exact fits_failed ⟨_, rfl, ht⟩
    · exact h

theorem Fits.finish (h : b.Fits p) : b.finish.Fits p := by
  unfold Builder.finish
  split
  · next hopen =>
    refine fits_failed ⟨_, rfl, ?_⟩
    unfold Builder.Fits at h
    cases ho : b.outer with
    | nil => simp [ho] at hopen
    | cons around outer =>
      rw [ho] at h
      exact h.2.1
  · exact fits_done h.closeAll

theorem Fits.ofCursor {c : Cursor} (h : b.Fits p) (hc : ∀ l, c.Spot l → p.places l)
    (hp : ∀ q, p.permits q) : (b.ofCursor c).Fits p := by
  fun_induction Builder.ofCursor b c with
  | case1 b c t d hread b' hb ih =>
    have hnext := h.accept (hc t.location ((Cursor.spot_token hread).2 (.inl rfl))) hp
    rw [hb] at hnext
    exact ih hnext fun l hl => hc l ((Cursor.spot_token hread).2 (.inr hl))
  | case2 b c t d hread build hb =>
    have hnext := h.accept (hc t.location ((Cursor.spot_token hread).2 (.inl rfl))) hp
    rw [hb] at hnext
    exact hnext
  | case3 b c d hread => exact h.finish
  | case4 b c e d hread =>
    obtain ⟨l, hl, hs⟩ := Cursor.spot_failure hread
    exact fits_failed ⟨l, hl, hc l hs⟩

end Builder

/-- All that comes of building a text stands at spots of the text. -/
theorem build_fits {path text : String} (strict : Bool) (hs : ∀ l, Spot path text l → p.places l)
    (hp : ∀ q, p.permits q) : (build strict path text).Fits p := by
  have hstart : (Builder.start strict (.start path)).Fits p := trivial
  exact hstart.ofCursor hs hp

theorem Terms.admits_of_spots {path text : String} (hs : ∀ l, Spot path text l → p.places l)
    (hp : ∀ q, p.permits q) : p.Admits path text := by
  intro strict
  obtain ⟨hbody, hfail⟩ := build_fits strict hs hp
  exact ⟨hbody, fun e he => (hfail e he).placed⟩

end Concatenative
