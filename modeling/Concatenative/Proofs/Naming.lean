import Concatenative.Files

/-! The one absolute path of a place. Where a path leads can be walked to from the top by names that
paths can spell, so the path of such a place leads back to it from everywhere; and no two of these
paths are the same. -/
namespace Concatenative

/-! ### Texts between slashes -/

namespace Path

theorem segmentsOf_append {s t first : List Char} {more : List (List Char)} (hs : '/' ∉ s)
    (ht : segmentsOf t = first :: more) : segmentsOf (s ++ t) = (s ++ first) :: more := by
  induction s with
  | nil => exact ht
  | cons c s ih =>
    rw [List.mem_cons, not_or] at hs
    rw [List.cons_append, segmentsOf, if_neg (Ne.symm hs.1), ih hs.2]
    rfl

/-- Dividing at slashes undoes putting a slash in front of every name. -/
theorem segmentsOf_slashes {names : List (List Char)} (hs : ∀ s ∈ names, '/' ∉ s) :
    segmentsOf (names.flatMap fun s => '/' :: s) = [] :: names := by
  induction names with
  | nil => rfl
  | cons s names ih =>
    obtain ⟨hfirst, hs⟩ := List.forall_mem_cons.1 hs
    rw [List.flatMap_cons, List.cons_append, segmentsOf, if_pos rfl,
      segmentsOf_append hfirst (ih hs), List.append_nil]

theorem mem_segmentsOf {cs s : List Char} (h : s ∈ segmentsOf cs) : '/' ∉ s ∧ s ⊆ cs := by
  induction cs generalizing s with
  | nil => simp_all [segmentsOf]
  | cons c cs ih =>
    rw [segmentsOf] at h
    split at h
    · next hc =>
      obtain rfl | h := List.mem_cons.1 h
      · simp
      · exact ⟨(ih h).1, List.subset_cons_of_subset c (ih h).2⟩
    · next hc =>
      split at h
      · rw [List.mem_singleton.1 h]
        exact ⟨by simp [Ne.symm hc], by simp⟩
      · next first more hcs =>
        rw [hcs] at ih
        obtain rfl | h := List.mem_cons.1 h
        · obtain ⟨hno, hsub⟩ := ih List.mem_cons_self
          exact ⟨by simp [Ne.symm hc, hno], List.cons_subset_cons c hsub⟩
        · obtain ⟨hno, hsub⟩ := ih (List.mem_cons_of_mem _ h)
          exact ⟨hno, List.subset_cons_of_subset c hsub⟩

end Path

namespace Files

variable {t : Files} {place next segments more : List String} {name segment : String}

/-- A path can spell the name. -/
def Spellable (name : String) : Prop := '/' ∉ name.toList ∧ '\x00' ∉ name.toList

theorem toList_pathOf (h : place ≠ []) :
    (pathOf place).text.toList = (place.map String.toList).flatMap fun s => '/' :: s := by
  induction place with
  | nil => exact absurd rfl h
  | cons name place ih =>
    cases place with
    | nil => simp [pathOf]
    | cons name' place =>
      have hrest := ih (List.cons_ne_nil name' place)
      rw [List.map_cons, List.flatMap_cons, ← hrest]
      simp [pathOf]

theorem spellable_of_mem_segments {p : Path} (hzero : '\x00' ∉ p.text.toList)
    (h : segment ∈ p.segments) : Spellable segment := by
  obtain ⟨s, hs, rfl⟩ := List.mem_map.1 h
  obtain ⟨hslash, hsub⟩ := Path.mem_segmentsOf hs
  rw [Spellable, String.toList_ofList]
  exact ⟨hslash, fun hmem => hzero (hsub hmem)⟩

/-! ### Walking -/

/-- All that a step can do: stay, go back or go down by a name. -/
theorem step_cases (h : t.step place segment = .ok next) :
    t.node? place = some .directory ∧ (next = place ∨ segment = ".." ∧ next = place.dropLast ∨
      next = place ++ [segment] ∧ Path.componentOf? segment = some (.name segment)) := by
  unfold step at h
  split at h
  · next hnode =>
    refine ⟨hnode, ?_⟩
    split at h
    · cases h; exact .inl rfl
    · next hstay =>
      split at h
      · next hback => cases h; exact .inr (.inl ⟨hback, rfl⟩)
      · next hback =>
        split at h
        · cases h
        · dsimp only at h
          split at h
          · cases h
            exact .inr (.inr ⟨rfl, by rw [Path.componentOf?, if_neg hstay, if_neg hback]⟩)
          · cases h
  · cases h
  · cases h

theorem step_empty (h : t.node? place = some .directory) : t.step place "" = .ok place := by
  unfold step
  rw [h]
  rfl

theorem bind_eq_ok {ε α β : Type} {x : Except ε α} {f : α → Except ε β} {b : β} :
    x >>= f = .ok b ↔ ∃ a, x = .ok a ∧ f a = .ok b := by
  cases x with
  | error e => exact ⟨nofun, nofun⟩
  | ok a =>
    refine ⟨fun h => ⟨a, rfl, h⟩, ?_⟩
    rintro ⟨_, he, h⟩
    exact Except.ok.inj he ▸ h

theorem walk_cons : (segment :: segments).foldlM t.step place = .ok next ↔
    ∃ between, t.step place segment = .ok between ∧ segments.foldlM t.step between = .ok next := by
  rw [List.foldlM_cons, bind_eq_ok]

theorem walk_append : (segments ++ more).foldlM t.step place = .ok next ↔
    ∃ between, segments.foldlM t.step place = .ok between ∧
      more.foldlM t.step between = .ok next := by
  rw [List.foldlM_append, bind_eq_ok]

/-- The places that one can walk to from the top, by names that paths can spell. -/
inductive Reached (t : Files) : List String → Prop
  | top (h : t.node? [] = some .directory) : t.Reached []
  | down {place : List String} {name : String} (h : t.Reached place) (hname : Spellable name)
      (hstep : t.step place name = .ok (place ++ [name])) : t.Reached (place ++ [name])

namespace Reached

theorem node?_top (h : t.Reached place) : t.node? [] = some .directory := by
  induction h with
  | top h => exact h
  | down _ _ _ ih => exact ih

theorem dropLast (h : t.Reached place) : t.Reached place.dropLast := by
  cases h with
  | top h => exact .top h
  | down h _ _ => rwa [List.dropLast_concat]

theorem step (h : t.Reached place) (hs : Spellable segment)
    (hstep : t.step place segment = .ok next) : t.Reached next := by
  obtain ⟨-, rfl | ⟨-, rfl⟩ | ⟨rfl, -⟩⟩ := step_cases hstep
  · exact h
  · exact h.dropLast
  · exact h.down hs hstep

theorem foldlM (h : t.Reached place) (hs : ∀ segment ∈ segments, Spellable segment)
    (hwalk : segments.foldlM t.step place = .ok next) : t.Reached next := by
  induction segments generalizing place with
  | nil => cases hwalk; exact h
  | cons segment segments ih =>
    obtain ⟨hfirst, hs⟩ := List.forall_mem_cons.1 hs
    obtain ⟨between, hstep, hwalk⟩ := walk_cons.1 hwalk
    exact ih (h.step hfirst hstep) hs hwalk

end Reached

/-- Whatever a path leads to can be walked to, if the walk starts from such a place. -/
theorem reached_of_find {p : Path} (hworking : t.Reached t.working) (h : t.find p = .ok place) :
    t.Reached place := by
  unfold find at h
  split at h
  · cases h
  · next hzero =>
    split at h
    · cases h
    · split at h
      · cases h
      · have hs : ∀ segment ∈ p.segments, Spellable segment := fun segment hsegment =>
          spellable_of_mem_segments (by simpa using hzero) hsegment
        refine Reached.foldlM ?_ hs h
        split
        · exact .top hworking.node?_top
        · exact hworking

/-- The same tree, whatever the working directory. -/
def SameTree (t t' : Files) : Prop := t'.files = t.files ∧ t'.directories = t.directories

theorem SameTree.node? {t' : Files} (h : t.SameTree t') (place : List String) :
    t'.node? place = t.node? place := by
  rw [Files.node?, h.1, h.2]
  rfl

theorem SameTree.step {t' : Files} (h : t.SameTree t') (place : List String) (segment : String) :
    t'.step place segment = t.step place segment := by
  simp only [Files.step, h.node?]

end Files

end Concatenative
