import Concatenative.Proofs.Whereabouts

/-! What a library has of a path: the body that was kept, the task that loads the module and those
that wait for it. Each operation is told by what it does to these, for the path it is about and for all
others. -/
namespace Concatenative

theorem Path.same_iff {p q : Path} : p.same q ↔ p.components = q.components := decide_eq_true_iff

theorem Path.same_refl (p : Path) : p.same p := Path.same_iff.2 rfl

theorem Path.same_symm {p q : Path} (h : p.same q) : q.same p :=
  Path.same_iff.2 (Path.same_iff.1 h).symm

theorem Path.same_trans {p q r : Path} (h : p.same q) (h' : q.same r) : p.same r :=
  Path.same_iff.2 ((Path.same_iff.1 h).trans (Path.same_iff.1 h'))

namespace Library

def body? (l : Library) (p : Path) : Option Body := (l.shelf? p).bind Shelf.body

def loader? (l : Library) (p : Path) : Option TaskId := (l.shelf? p).bind Shelf.loader

/-- A task waits for a module that another one loads. -/
def InLine (l : Library) (p : Path) (u : TaskId) : Prop :=
  ∃ s ∈ l.shelves, s.path.same p ∧ u ∈ s.waiting

/-- The paths whose bodies are kept. -/
def cached (l : Library) : List Path := (l.shelves.filter (·.body.isSome)).map Shelf.path

variable {l l' : Library} {p q : Path} {f : Shelf → Shelf} {s : Shelf} {t : TaskId}

theorem isCached_eq (l : Library) (p : Path) : l.isCached p = (l.body? p).isSome := by
  unfold isCached body?
  cases l.shelf? p with
  | none => rfl
  | some s => simp

/-- What is known of a path does not depend on how it is spelled. -/
theorem shelf?_congr (h : p.same q) : l.shelf? p = l.shelf? q := by
  unfold shelf? Path.same
  rw [Path.same_iff.1 h]

theorem body?_congr (h : p.same q) : l.body? p = l.body? q := by
  rw [body?, body?, shelf?_congr h]

theorem InLine.congr (h : l.InLine p t) (hs : p.same q) : l.InLine q t := by
  obtain ⟨s, hmem, hp, ht⟩ := h
  exact ⟨s, hmem, Path.same_trans hp hs, ht⟩

theorem loader?_congr (h : p.same q) : l.loader? p = l.loader? q := by
  rw [loader?, loader?, shelf?_congr h]

/-! ## A change of one shelf -/

theorem shelf?_update_same (h : p.same q) (hf : ∀ s, (f s).path = s.path) :
    (l.update p f).shelf? q = (l.shelf? q).map f := by
  obtain ⟨settings, shelves, parseCount⟩ := l
  simp only [update, shelf?]
  induction shelves with
  | nil => rfl
  | cons a rest ih =>
    have hiff : a.path.same p = a.path.same q := by
      simp only [Path.same, Path.same_iff.1 h]
    by_cases ha : a.path.same q
    · simp [hiff, ha, hf]
    · simpa [hiff, ha] using ih

theorem shelf?_update_other (h : ¬ p.same q) (hf : ∀ s, (f s).path = s.path) :
    (l.update p f).shelf? q = l.shelf? q := by
  obtain ⟨settings, shelves, parseCount⟩ := l
  simp only [update, shelf?]
  induction shelves with
  | nil => rfl
  | cons a rest ih =>
    by_cases ha : a.path.same p
    · have hq : ¬ a.path.same q := fun hq => h (Path.same_trans (Path.same_symm ha) hq)
      simpa [ha, hf, hq] using ih
    · by_cases hq : a.path.same q
      · simp [ha, hq]
      · simpa [ha, hq] using ih

theorem body?_update (hf : ∀ s, (f s).path = s.path) (hb : ∀ s, (f s).body = s.body) :
    (l.update p f).body? q = l.body? q := by
  unfold body?
  by_cases h : p.same q
  · rw [shelf?_update_same h hf]
    cases l.shelf? q with
    | none => rfl
    | some s => exact hb s
  · rw [shelf?_update_other h hf]

theorem loader?_update_other (h : ¬ p.same q) (hf : ∀ s, (f s).path = s.path) :
    (l.update p f).loader? q = l.loader? q := by
  rw [loader?, loader?, shelf?_update_other h hf]

theorem cached_update (hf : ∀ s, (f s).path = s.path) (hb : ∀ s, (f s).body = s.body) :
    (l.update p f).cached = l.cached := by
  obtain ⟨settings, shelves, parseCount⟩ := l
  simp only [update, cached]
  induction shelves with
  | nil => rfl
  | cons a rest ih =>
    have hbody : (if a.path.same p then f a else a).body = a.body := by
      split
      · exact hb a
      · rfl
    have hpath : (if a.path.same p then f a else a).path = a.path := by
      split
      · exact hf a
      · rfl
    rw [List.map_cons, List.filter_cons, List.filter_cons, hbody]
    split
    · rw [List.map_cons, List.map_cons, hpath, ih]
    · exact ih

theorem inLine_update {u : TaskId} (hf : ∀ s, (f s).path = s.path)
    (hw : ∀ s, (f s).waiting ⊆ s.waiting) (h : (l.update p f).InLine q u) : l.InLine q u := by
  obtain ⟨s', hs', hq, hu⟩ := h
  obtain ⟨s, hs, rfl⟩ := List.mem_map.1 hs'
  refine ⟨s, hs, ?_⟩
  split at hq
  · next hp =>
    rw [if_pos hp] at hu
    exact ⟨hf s ▸ hq, hw s hu⟩
  · next hp =>
    rw [if_neg hp] at hu
    exact ⟨hq, hu⟩

/-! ## Claims -/

theorem claim_cached {b : Body} (h : l.claim p t = (l', .cached b)) :
    l' = l ∧ l.body? p = some b := by
  unfold Library.claim at h
  unfold body?
  cases hs : l.shelf? p with
  | none =>
    rw [hs] at h
    cases h
  | some s =>
    simp only [hs] at h
    split at h
    · next hb =>
      cases h
      exact ⟨rfl, hb⟩
    · cases h
    · split at h <;> cases h

/-- A task is to load what was not kept and what no other task loads. -/
structure Grants (l : Library) (p : Path) (t : TaskId) (l' : Library) : Prop where
  body : l.body? p = none
  loader : ∀ u, l.loader? p = some u → u = t
  bodies : ∀ q, l'.body? q = l.body? q
  loads : l'.loader? p = some t
  others : ∀ q, ¬ p.same q → l'.loader? q = l.loader? q
  line : ∀ q u, l'.InLine q u → l.InLine q u
  cached : l'.cached = l.cached
  parseCount : l'.parseCount = l.parseCount

theorem grants_new (hs : l.shelf? p = none) :
    l.Grants p t { l with shelves := { path := p, loader := some t } :: l.shelves } := by
  have hnew : ∀ q, ¬ p.same q →
      shelf? { l with shelves := { path := p, loader := some t } :: l.shelves } q = l.shelf? q := by
    intro q hq
    simp [shelf?, hq]
  have hself : ∀ q, p.same q →
      shelf? { l with shelves := { path := p, loader := some t } :: l.shelves } q =
        some { path := p, loader := some t } := by
    intro q hq
    simp [shelf?, hq]
  refine ⟨?_, ?_, ?_, ?_, ?_, ?_, ?_, rfl⟩
  · rw [body?, hs]
    rfl
  · intro u hu
    rw [loader?, hs] at hu
    cases hu
  · intro q
    by_cases hq : p.same q
    · rw [body?, body?, hself q hq, ← shelf?_congr hq, hs]
      rfl
    · rw [body?, body?, hnew q hq]
  · rw [loader?, hself p p.same_refl]
    rfl
  · intro q hq
    rw [loader?, loader?, hnew q hq]
  · rintro q u ⟨s, hmem, hq, hu⟩
    rcases List.mem_cons.1 hmem with rfl | hmem
    · cases hu
    · exact ⟨s, hmem, hq, hu⟩
  · simp [Library.cached]

theorem grants_free {s : Shelf} (hs : l.shelf? p = some s) (hb : s.body = none)
    (hl : s.loader = none) : l.Grants p t (l.update p ({ · with loader := some t })) := by
  refine ⟨?_, ?_, ?_, ?_, ?_, ?_, ?_, rfl⟩
  · rw [body?, hs]
    exact hb
  · intro u hu
    rw [loader?, hs] at hu
    cases hl.symm.trans hu
  · exact fun q => body?_update (fun _ => rfl) fun _ => rfl
  · have hself := shelf?_update_same (l := l) (f := ({ · with loader := some t })) p.same_refl
      fun _ => rfl
    rw [loader?, hself, hs]
    rfl
  · exact fun q hq => loader?_update_other hq fun _ => rfl
  · exact fun q u => inLine_update (fun _ => rfl) fun _ => List.Subset.refl _
  · exact cached_update (fun _ => rfl) fun _ => rfl

/-- A task that was woken to load is its path's loader already, and claims it once more. -/
theorem grants_again {s : Shelf} (hs : l.shelf? p = some s) (hb : s.body = none)
    (hl : s.loader = some t) : l.Grants p t l := by
  have hloader : l.loader? p = some t := by
    rw [loader?, hs]
    exact hl
  refine ⟨?_, ?_, fun _ => rfl, hloader, fun _ _ => rfl, fun _ _ => id, rfl, rfl⟩
  · rw [body?, hs]
    exact hb
  · intro u hu
    cases hloader.symm.trans hu
    rfl

theorem claim_granted (h : l.claim p t = (l', .granted)) : l.Grants p t l' := by
  unfold Library.claim at h
  cases hs : l.shelf? p with
  | none =>
    rw [hs] at h
    cases h
    exact grants_new hs
  | some s =>
    simp only [hs] at h
    split at h
    · cases h
    · next hb hl =>
      cases h
      exact grants_free hs hb hl
    · next loader hb hl =>
      split at h
      · next he =>
        cases h
        exact grants_again hs hb (hl.trans (congrArg some he))
      · cases h

/-- A task waits for what another one loads, and changes nothing but the line. -/
structure Waits (l : Library) (p : Path) (t : TaskId) (l' : Library) : Prop where
  loader : ∃ u, l.loader? p = some u ∧ u ≠ t
  bodies : ∀ q, l'.body? q = l.body? q
  loaders : ∀ q, l'.loader? q = l.loader? q
  line : ∀ q u, l'.InLine q u → l.InLine q u ∨ p.same q ∧ u = t
  cached : l'.cached = l.cached
  parseCount : l'.parseCount = l.parseCount

theorem claim_wait (h : l.claim p t = (l', .wait)) : l.Waits p t l' := by
  unfold Library.claim at h
  cases hs : l.shelf? p with
  | none =>
    rw [hs] at h
    cases h
  | some s =>
    simp only [hs] at h
    split at h
    · cases h
    · cases h
    · next loader hb hl =>
      split at h
      · cases h
      · next hne =>
        cases h
        refine ⟨⟨loader, ?_, hne⟩, fun q => body?_update (fun _ => rfl) fun _ => rfl, fun q => ?_,
          ?_, cached_update (fun _ => rfl) fun _ => rfl, rfl⟩
        · rw [loader?, hs]
          exact hl
        · by_cases hq : p.same q
          · have hself := shelf?_update_same (l := l)
              (f := fun s => { s with waiting := s.waiting ++ [t] }) hq fun _ => rfl
            rw [loader?, loader?, hself]
            cases l.shelf? q <;> rfl
          · exact loader?_update_other hq fun _ => rfl
        · rintro q u ⟨s', hs', hq, hu⟩
          obtain ⟨s, hmem, rfl⟩ := List.mem_map.1 hs'
          by_cases hp : s.path.same p
          · rw [if_pos hp] at hq hu
            rcases List.mem_append.1 hu with hu | hu
            · exact .inl ⟨s, hmem, hq, hu⟩
            · exact .inr ⟨Path.same_trans (Path.same_symm hp) hq, List.mem_singleton.1 hu⟩
          · rw [if_neg hp] at hq hu
            exact .inl ⟨s, hmem, hq, hu⟩

/-- Who asks for a module that no other task loads is answered at once. -/
theorem claim_of_free (h : ∀ u, l.loader? p = some u → u = t) :
    (l.claim p t).2 = match l.body? p with
      | some b => .cached b
      | none => .granted := by
  unfold Library.claim
  unfold loader? at h
  unfold body?
  cases hs : l.shelf? p with
  | none => rfl
  | some s =>
    rw [hs] at h
    cases hb : s.body with
    | some b => simp [hb]
    | none =>
      cases hl : s.loader with
      | none => simp [hb, hl]
      | some u => simp [hb, hl, h u hl]

/-! ## What becomes of a loading -/

theorem body?_publish_same {b : Body} (hl : (l.loader? p).isSome) (h : p.same q) :
    (l.publish p b).1.body? q = some b := by
  have hself := shelf?_update_same (l := l)
    (f := ({ · with body := some b, loader := none, waiting := [] })) h fun _ => rfl
  unfold loader? at hl
  rw [Library.publish, body?, hself, ← shelf?_congr h]
  cases hs : l.shelf? p with
  | none => simp [hs] at hl
  | some s => rfl

theorem body?_publish_other {b : Body} (h : ¬ p.same q) :
    (l.publish p b).1.body? q = l.body? q := by
  have hother := shelf?_update_other (l := l)
    (f := ({ · with body := some b, loader := none, waiting := [] })) h fun _ => rfl
  rw [Library.publish, body?, body?, hother]

/-- What is kept after a body was kept is that body or was kept before. -/
theorem body?_publish_eq_some {b c : Body} (h : (l.publish p b).1.body? q = some c) :
    p.same q ∧ c = b ∨ l.body? q = some c := by
  by_cases hq : p.same q
  · have hself := shelf?_update_same (l := l)
      (f := ({ · with body := some b, loader := none, waiting := [] })) hq fun _ => rfl
    rw [Library.publish, body?, hself] at h
    cases hs : l.shelf? q with
    | none => simp [hs] at h
    | some s =>
      rw [hs] at h
      cases h
      exact .inl ⟨hq, rfl⟩
  · rw [body?_publish_other hq] at h
    exact .inr h

theorem loader?_publish_other {b : Body} (h : ¬ p.same q) :
    (l.publish p b).1.loader? q = l.loader? q := loader?_update_other h fun _ => rfl

theorem loader?_publish_same {b : Body} (h : p.same q) : (l.publish p b).1.loader? q = none := by
  have hself := shelf?_update_same (l := l)
    (f := ({ · with body := some b, loader := none, waiting := [] })) h fun _ => rfl
  rw [Library.publish, loader?, hself]
  cases l.shelf? q <;> rfl

theorem inLine_publish {b : Body} (h : (l.publish p b).1.InLine q t) : l.InLine q t := by
  refine inLine_update (f := ({ · with body := some b, loader := none, waiting := [] }))
    (fun _ => rfl) (fun _ => ?_) h
  exact List.nil_subset _

theorem body?_giveUp (p q : Path) : (l.giveUp p).1.body? q = l.body? q :=
  body?_update (fun _ => rfl) fun _ => rfl

theorem loader?_giveUp_other (h : ¬ p.same q) : (l.giveUp p).1.loader? q = l.loader? q :=
  loader?_update_other h fun _ => rfl

/-- The next in line is to load. -/
theorem loader?_giveUp_same (h : p.same q) : (l.giveUp p).1.loader? q = (l.giveUp p).2 := by
  have hself := shelf?_update_same (l := l)
    (f := fun s => { s with loader := s.waiting.head?, waiting := s.waiting.tail }) h fun _ => rfl
  rw [Library.giveUp, loader?, hself, shelf?_congr h]
  cases l.shelf? q <;> rfl

theorem inLine_of_giveUp (h : (l.giveUp p).2 = some t) : l.InLine p t := by
  obtain ⟨s, hs, ht⟩ := Option.bind_eq_some_iff.1 h
  unfold shelf? at hs
  have hsame : s.path.same p := by simpa using List.find?_some hs
  exact ⟨s, List.mem_of_find?_eq_some hs, hsame, List.mem_of_mem_head? ht⟩

theorem inLine_giveUp (h : (l.giveUp p).1.InLine q t) : l.InLine q t := by
  refine inLine_update (f := fun s => { s with loader := s.waiting.head?, waiting := s.waiting.tail })
    (fun _ => rfl) (fun s => ?_) h
  exact (List.tail_sublist _).subset

theorem cached_giveUp (l : Library) (p : Path) : (l.giveUp p).1.cached = l.cached :=
  cached_update (fun _ => rfl) fun _ => rfl

/-- Keeping a body that was not kept adds one path. -/
theorem length_cached_publish (hd : l.Distinct) (hs : l.shelf? p = some s) (hb : s.body = none)
    (b : Body) : (l.publish p b).1.cached.length = l.cached.length + 1 := by
  obtain ⟨settings, shelves, parseCount⟩ := l
  simp only [Distinct, shelf?] at hd hs
  simp only [Library.publish, update, cached, List.length_map]
  induction shelves with
  | nil => simp at hs
  | cons a rest ih =>
    obtain ⟨hnot, hrest⟩ := List.nodup_cons.1 hd
    by_cases ha : a.path.same p
    · have hothers : ∀ c ∈ rest, ¬ c.path.same p = true := by
        intro c hc hc'
        have hsame := Path.same_iff.1 (Path.same_trans hc' (Path.same_symm ha))
        exact hnot (List.mem_map.2 ⟨c, hc, hsame⟩)
      rw [List.find?_cons, ha] at hs
      cases hs
      simp [ha, hb, map_update_eq_self hothers]
    · have hs' : rest.find? (fun s => s.path.same p) = some s := by simpa [ha] using hs
      have hrest' := ih hrest hs'
      simp only [List.map_cons, List.filter_cons, ha, Bool.false_eq_true, if_false]
      split
      · simp only [List.length_cons, hrest']
      · exact hrest'

theorem isCached_iff (hd : l.Distinct) : l.isCached p ↔ ∃ q ∈ l.cached, q.same p := by
  rw [isCached_eq]
  obtain ⟨settings, shelves, parseCount⟩ := l
  simp only [Distinct, body?, shelf?, cached] at hd ⊢
  induction shelves with
  | nil => simp
  | cons a rest ih =>
    obtain ⟨hnot, hrest⟩ := List.nodup_cons.1 hd
    have ih := ih hrest
    by_cases ha : a.path.same p
    · have hothers : ∀ c ∈ rest, ¬ c.path.same p = true := by
        intro c hc hc'
        have hsame := Path.same_iff.1 (Path.same_trans hc' (Path.same_symm ha))
        exact hnot (List.mem_map.2 ⟨c, hc, hsame⟩)
      simp only [List.find?_cons, ha, Option.bind_some, List.filter_cons]
      constructor
      · intro hb
        exact ⟨a.path, by simp [hb], ha⟩
      · rintro ⟨q, hq, hsame⟩
        split at hq
        · assumption
        · obtain ⟨c, hc, rfl⟩ := List.mem_map.1 hq
          exact absurd hsame (hothers c (List.mem_filter.1 hc).1)
    · have hfind : (a :: rest).find? (fun s => s.path.same p) =
          rest.find? fun s => s.path.same p := by simp [ha]
      rw [hfind, ih, List.filter_cons]
      split
      · simp [ha]
      · rfl

/-- No path is kept twice. -/
theorem pairwise_cached (hd : l.Distinct) : l.cached.Pairwise fun p q => ¬ p.same q := by
  unfold cached
  rw [List.pairwise_map]
  refine List.Pairwise.filter _ ?_
  refine (List.pairwise_map.1 hd).imp fun hne hsame => hne (Path.same_iff.1 hsame)

end Library

end Concatenative
