import Concatenative.Library
import Concatenative.Proofs.Naming

/-! Segments of a path and the components that they stand for. The last name of a path is told by the
segments in front of it, and the extension of modules is put behind that name, whatever trails it. -/
namespace Concatenative

open LibrarySettings (moduleExtension)

namespace Path

variable {p : Path} {segments kept more dots : List String} {name s : String}

/-! ### Segments -/

theorem segmentsOf_ne_nil (cs : List Char) : segmentsOf cs ≠ [] := by
  cases cs with
  | nil => exact List.cons_ne_nil _ _
  | cons c rest =>
    rw [segmentsOf]
    split
    · exact List.cons_ne_nil _ _
    · split <;> exact List.cons_ne_nil _ _

theorem segmentsOf_append_slash (cs ds : List Char) :
    segmentsOf (cs ++ '/' :: ds) = segmentsOf cs ++ segmentsOf ds := by
  induction cs with
  | nil => rfl
  | cons c cs ih =>
    rw [List.cons_append, segmentsOf, segmentsOf]
    split
    · rw [ih, List.cons_append]
    · obtain ⟨first, rest, hcs⟩ := List.exists_cons_of_ne_nil (segmentsOf_ne_nil cs)
      rw [ih, hcs]
      rfl

theorem segments_ne_nil (p : Path) : p.segments ≠ [] := by
  simpa [Path.segments] using segmentsOf_ne_nil p.text.toList

theorem segments_ofSegments (hne : segments ≠ []) (hs : ∀ s ∈ segments, '/' ∉ s.toList) :
    (ofSegments segments).segments = segments := by
  have hslash : ∀ s ∈ segments.map String.toList, '/' ∉ s := by
    simpa using hs
  have htext := segmentsOf_slashes hslash
  rw [← Files.toList_pathOf hne, Files.pathOf, String.toList_append] at htext
  have hmap : segmentsOf (ofSegments segments).text.toList = segments.map String.toList :=
    (List.cons.inj htext).2
  rw [Path.segments, hmap]
  simp

theorem isAbsolute_iff : p.isAbsolute = true ↔ ∃ more, more ≠ [] ∧ p.segments = "" :: more := by
  rw [isAbsolute, Path.segments]
  cases p.text.toList with
  | nil => simp [segmentsOf]
  | cons c cs =>
    obtain ⟨first, rest, hcs⟩ := List.exists_cons_of_ne_nil (segmentsOf_ne_nil cs)
    by_cases hc : c = '/'
    · simp [segmentsOf, hc, hcs]
    · simp [segmentsOf, hc, hcs]

theorem mem_segments (h : s ∈ p.segments) : '/' ∉ s.toList := by
  obtain ⟨cs, hcs, rfl⟩ := List.mem_map.1 h
  rw [String.toList_ofList]
  exact (mem_segmentsOf hcs).1

/-! ### Components -/

/-- The components that segments stand for, from the top or not. -/
def componentsOf (absolute : Bool) : List String → List Component
  | [] => []
  | first :: rest =>
    (if absolute then some .root else if first = "." then some .here
      else componentOf? first).toList ++ rest.filterMap componentOf?

theorem components_eq (p : Path) : p.components = componentsOf p.isAbsolute p.segments := by
  unfold components
  cases p.segments <;> rfl

theorem componentsOf_append {absolute : Bool} (h : kept ≠ []) : componentsOf absolute (kept ++ more) =
    componentsOf absolute kept ++ more.filterMap componentOf? := by
  cases kept with
  | nil => exact absurd rfl h
  | cons first rest => simp [componentsOf]

/-- The segment is a name. -/
def IsName (s : String) : Prop := componentOf? s = some (.name s)

theorem isName_iff : IsName s ↔ s ≠ "" ∧ s ≠ "." ∧ s ≠ ".." := by
  unfold IsName componentOf?
  split
  · next h => grind
  · split <;> grind

theorem IsName.ne_none (h : IsName s) : componentOf? s ≠ none := by
  unfold IsName at h
  simp [h]

theorem componentOf?_cases (s : String) : componentOf? s = none ∨ s = ".." ∨ IsName s := by
  unfold IsName componentOf?
  split
  · exact .inl rfl
  · split
    · next hup => exact .inr (.inl hup)
    · exact .inr (.inr rfl)

theorem isName_of_componentOf? (h : componentOf? s = some (.name name)) : s = name ∧ IsName s := by
  obtain hnone | rfl | hname := componentOf?_cases s
  · cases hnone.symm.trans h
  · simp [componentOf?] at h
  · exact ⟨Component.name.inj (Option.some.inj (hname.symm.trans h)), hname⟩

theorem trimEnd_append (hdots : ∀ d ∈ dots, componentOf? d = none) :
    trimEnd (kept ++ dots) = trimEnd kept := by
  rw [trimEnd, List.reverse_append, List.dropWhile_append_of_pos (by simpa using hdots)]
  rfl

theorem trimEnd_concat (hs : componentOf? s ≠ none) : trimEnd (kept ++ [s]) = kept ++ [s] := by
  simp [trimEnd, hs]

/-- The last segment that is a component. -/
theorem exists_last (h : ∃ s ∈ segments, componentOf? s ≠ none) : ∃ kept s dots,
    segments = kept ++ s :: dots ∧ componentOf? s ≠ none ∧ ∀ d ∈ dots, componentOf? d = none := by
  induction segments with
  | nil => simp at h
  | cons first rest ih =>
    by_cases hrest : ∃ s ∈ rest, componentOf? s ≠ none
    · obtain ⟨kept, s, dots, rfl, hs, hdots⟩ := ih hrest
      exact ⟨first :: kept, s, dots, rfl, hs, hdots⟩
    · have hdots : ∀ d ∈ rest, componentOf? d = none := by simpa using hrest
      refine ⟨[], first, rest, rfl, ?_, hdots⟩
      obtain ⟨s, hs, hne⟩ := h
      obtain rfl | hs := List.mem_cons.1 hs
      · exact hne
      · exact absurd ⟨s, hs, hne⟩ hrest

/-! ### Paths that end in a name -/

/-- The last component is a name, behind these segments. -/
structure Ends (p : Path) (kept : List String) (name : String) : Prop where
  isName : IsName name
  segments : ∃ dots, p.segments = kept ++ name :: dots ∧ ∀ d ∈ dots, componentOf? d = none

theorem Ends.trimEnd (h : p.Ends kept name) : trimEnd p.segments = kept ++ [name] := by
  obtain ⟨hname, dots, hp, hdots⟩ := h
  rw [hp, List.append_cons, trimEnd_append hdots, trimEnd_concat hname.ne_none]

theorem Ends.isAbsolute_iff (h : p.Ends kept name) :
    p.isAbsolute = true ↔ ∃ more, kept = "" :: more := by
  obtain ⟨hname, dots, hp, -⟩ := h
  rw [Path.isAbsolute_iff, hp]
  cases kept with
  | nil => simp [(isName_iff.1 hname).1]
  | cons first rest => simp

theorem Ends.components (h : p.Ends kept name) :
    p.components = componentsOf p.isAbsolute kept ++ [.name name] := by
  have habsolute := h.isAbsolute_iff
  obtain ⟨hname, dots, hp, hdots⟩ := h
  have hmore := List.filterMap_eq_nil_iff.2 hdots
  rw [components_eq, hp]
  cases kept with
  | nil =>
    have hrelative : p.isAbsolute = false := by simpa using habsolute
    obtain ⟨-, hdot, -⟩ := isName_iff.1 hname
    have hname : componentOf? name = some (.name name) := hname
    simp [componentsOf, hrelative, hdot, hname, hmore]
  | cons first rest =>
    rw [componentsOf_append (List.cons_ne_nil _ _), List.filterMap_cons_some hname, hmore]

theorem Ends.fileName? (h : p.Ends kept name) : p.fileName? = some name := by
  rw [Path.fileName?, h.components, List.getLast?_concat]

theorem exists_ends (h : p.fileName? = some name) : ∃ kept, p.Ends kept name := by
  have hlast : p.components.getLast? = some (.name name) := by
    unfold Path.fileName? at h
    split at h
    · next name' hlast => rw [hlast, Option.some.inj h]
    · cases h
  rw [components_eq] at hlast
  obtain ⟨first, rest, hp⟩ := List.exists_cons_of_ne_nil p.segments_ne_nil
  rw [hp] at hlast
  by_cases hrest : ∃ s ∈ rest, componentOf? s ≠ none
  · obtain ⟨kept, s, dots, rfl, hs, hdots⟩ := exists_last hrest
    obtain ⟨c, hc⟩ := Option.ne_none_iff_exists'.1 hs
    have hmore : (s :: dots).filterMap componentOf? = [c] := by
      rw [List.filterMap_cons_some hc, List.filterMap_eq_nil_iff.2 hdots]
    rw [← List.cons_append, componentsOf_append (List.cons_ne_nil _ _), hmore,
      List.getLast?_concat] at hlast
    obtain rfl := Option.some.inj hlast
    obtain ⟨rfl, hname⟩ := isName_of_componentOf? hc
    exact ⟨first :: kept, hname, dots, hp, hdots⟩
  · have hdots : ∀ d ∈ rest, componentOf? d = none := by simpa using hrest
    rw [componentsOf, List.filterMap_eq_nil_iff.2 hdots, List.append_nil] at hlast
    have hfirst : componentOf? first = some (.name name) := by
      split at hlast
      · simp at hlast
      · split at hlast
        · simp at hlast
        · cases hc : componentOf? first <;> simp_all
    obtain ⟨rfl, hname⟩ := isName_of_componentOf? hfirst
    exact ⟨[], hname, rest, hp, hdots⟩

/-- A name with the extension of modules. -/
def extended (name : String) : String := name ++ "." ++ moduleExtension

theorem divide_fst (h : (divide name).2 = none) : (divide name).1 = name := by
  unfold divide at h ⊢
  dsimp only at h ⊢
  split
  · rfl
  · next hdivides =>
    rw [if_neg hdivides] at h
    cases h

theorem extended_ne (name : String) : extended name ≠ name := by
  intro h
  have hlist := congrArg String.toList h
  simp [extended, moduleExtension] at hlist

theorem isName_extended (name : String) : IsName (extended name) := by
  have hmem : 'g' ∈ (extended name).toList := by simp [extended, moduleExtension]
  rw [isName_iff]
  refine ⟨?_, ?_, ?_⟩ <;> intro h <;> rw [h] at hmem <;> simp at hmem

theorem Ends.withExtension_eq (h : p.Ends kept name) (hextension : p.extension? = none) :
    p.withExtension moduleExtension = ofSegments (kept ++ [extended name]) := by
  have hdivide : (divide name).1 = name := by
    rw [extension?, h.fileName?] at hextension
    exact divide_fst hextension
  unfold withExtension
  rw [h.fileName?]
  dsimp only
  rw [h.trimEnd, List.dropLast_concat, hdivide]
  rfl

theorem Ends.segments_withExtension (h : p.Ends kept name) (hextension : p.extension? = none) :
    (p.withExtension moduleExtension).segments = kept ++ [extended name] := by
  rw [h.withExtension_eq hextension]
  refine segments_ofSegments (by simp) fun s hs => ?_
  obtain ⟨-, dots, hp, -⟩ := h
  obtain hs | hs := List.mem_append.1 hs
  · exact mem_segments (hp ▸ List.mem_append_left _ hs)
  · have hname : '/' ∉ name.toList := mem_segments (hp ▸ List.mem_append_right _ List.mem_cons_self)
    simp [List.mem_singleton.1 hs, extended, moduleExtension, hname]

theorem Ends.withExtension (h : p.Ends kept name) (hextension : p.extension? = none) :
    (p.withExtension moduleExtension).Ends kept (extended name) :=
  ⟨isName_extended name, [], h.segments_withExtension hextension, by simp⟩

theorem Ends.isAbsolute_withExtension (h : p.Ends kept name) (hextension : p.extension? = none) :
    (p.withExtension moduleExtension).isAbsolute = p.isAbsolute := by
  rw [Bool.eq_iff_iff, (h.withExtension hextension).isAbsolute_iff, h.isAbsolute_iff]

end Path

end Concatenative
