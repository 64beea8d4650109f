import Concatenative.Evaluation.Module
import Concatenative.Session
import Concatenative.Proofs.Naming
import Concatenative.Proofs.Sequential

/-! Which file a reference means. It is the first file that is there when the reference is seen from
one base after the other, as it is and then with the extension of modules if it has none. The path
that is found means the same file from everywhere, so that a file has one place in the library
however it is referred to. -/
namespace Concatenative

open LibrarySettings (moduleExtension spellings)

/-! ### The first file -/

namespace Files

/-- The path names the file at a place. -/
def HasFile (t : Files) (p : Path) (place : List String) : Prop :=
  t.find p = .ok place ∧ ∃ bytes, t.node? place = some (.file bytes)

/-- No file is found from a base. -/
def Missed (t : Files) (reference base : Path) : Prop :=
  (∀ place, ¬t.HasFile (base.join reference) place) ∧
  ((base.join reference).extension? = none →
    ∀ place, ¬t.HasFile ((base.join reference).withExtension moduleExtension) place)

/-- The place of the first file that is found from one of the bases. -/
inductive FirstFile (t : Files) (reference : Path) : List Path → List String → Prop
  | exact {base : Path} {rest : List Path} {place : List String}
      (h : t.HasFile (base.join reference) place) : t.FirstFile reference (base :: rest) place
  | extended {base : Path} {rest : List Path} {place : List String}
      (hplain : ∀ place, ¬t.HasFile (base.join reference) place)
      (hextension : (base.join reference).extension? = none)
      (h : t.HasFile ((base.join reference).withExtension moduleExtension) place) :
      t.FirstFile reference (base :: rest) place
  | later {base : Path} {rest : List Path} {place : List String}
      (hmissed : t.Missed reference base) (h : t.FirstFile reference rest place) :
      t.FirstFile reference (base :: rest) place

variable {t : Files} {p reference : Path} {place : List String} {bases : List Path}

theorem HasFile.fileAt? (h : t.HasFile p place) : t.fileAt? p = some (pathOf place) := by
  obtain ⟨hfind, bytes, hnode⟩ := h
  simp only [Files.fileAt?, hfind, hnode]

theorem fileAt?_eq_none (h : ∀ place, ¬t.HasFile p place) : t.fileAt? p = none := by
  unfold fileAt?
  split
  · next place hfind =>
    split
    · next bytes hnode => exact absurd ⟨hfind, bytes, hnode⟩ (h place)
    · rfl
  · rfl

theorem Missed.fileAt? {base : Path} (h : t.Missed reference base) :
    ∀ p ∈ spellings (base.join reference), t.fileAt? p = none := by
  intro p hp
  unfold spellings at hp
  split at hp
  · next hextension =>
    obtain rfl | hp := List.mem_cons.1 hp
    · exact fileAt?_eq_none h.1
    · rw [List.mem_singleton.1 hp]
      exact fileAt?_eq_none (h.2 (Option.isNone_iff_eq_none.1 hextension))
  · rw [List.mem_singleton.1 hp]
    exact fileAt?_eq_none h.1

/-- The paths that are tried for a reference. -/
def tried (reference : Path) (bases : List Path) : List Path :=
  bases.flatMap fun base => spellings (base.join reference)

theorem findSome?_tried_cons (base : Path) (rest : List Path) :
    (tried reference (base :: rest)).findSome? t.fileAt? =
      ((spellings (base.join reference)).findSome? t.fileAt?).or
        ((tried reference rest).findSome? t.fileAt?) := by
  rw [tried, List.flatMap_cons, List.findSome?_append]
  rfl

theorem FirstFile.findSome? (h : t.FirstFile reference bases place) :
    (tried reference bases).findSome? t.fileAt? = some (pathOf place) := by
  induction h with
  | @exact base rest place h =>
    obtain ⟨more, hmore⟩ : ∃ more, spellings (base.join reference) = base.join reference :: more := by
      unfold spellings
      split
      · exact ⟨_, rfl⟩
      · exact ⟨_, rfl⟩
    rw [findSome?_tried_cons, hmore, List.findSome?_cons, h.fileAt?]
    rfl
  | extended hplain hextension h =>
    rw [findSome?_tried_cons, spellings, if_pos (Option.isNone_iff_eq_none.2 hextension),
      List.findSome?_cons, fileAt?_eq_none hplain, List.findSome?_cons, h.fileAt?]
    rfl
  | later hmissed _ ih =>
    rw [findSome?_tried_cons, List.findSome?_eq_none_iff.2 hmissed.fileAt?, Option.none_or]
    exact ih

theorem findSome?_eq_none (h : ∀ base ∈ bases, t.Missed reference base) :
    (tried reference bases).findSome? t.fileAt? = none := by
  refine List.findSome?_eq_none_iff.2 fun p hp => ?_
  obtain ⟨base, hbase, hp⟩ := List.mem_flatMap.1 hp
  exact (h base hbase).fileAt? p hp

theorem firstFile_or_missed (t : Files) (reference : Path) (bases : List Path) :
    (∃ place, t.FirstFile reference bases place) ∨ ∀ base ∈ bases, t.Missed reference base := by
  induction bases with
  | nil => exact .inr nofun
  | cons base rest ih =>
    by_cases hplain : ∃ place, t.HasFile (base.join reference) place
    · obtain ⟨place, h⟩ := hplain
      exact .inl ⟨place, .exact h⟩
    rw [not_exists] at hplain
    by_cases hmissed : t.Missed reference base
    · obtain ⟨place, h⟩ | h := ih
      · exact .inl ⟨place, .later hmissed h⟩
      · exact .inr (List.forall_mem_cons.2 ⟨hmissed, h⟩)
    · obtain ⟨hextension, place, h⟩ : (base.join reference).extension? = none ∧
          ∃ place, t.HasFile ((base.join reference).withExtension moduleExtension) place := by
        simpa [Missed, hplain] using hmissed
      exact .inl ⟨place, .extended hplain hextension h⟩

/-- What trying one path after the other comes to. -/
def sought (t : Files) (reference : String) (bases : List Path) : Except Failure Path :=
  match (tried ⟨reference⟩ bases).findSome? t.fileAt? with
  | some path => .ok path
  | none => .error (Cause.moduleNotFound reference)

theorem sought_of_firstFile {reference : String} (h : t.FirstFile ⟨reference⟩ bases place) :
    t.sought reference bases = .ok (pathOf place) := by
  rw [sought, h.findSome?]

theorem sought_of_missed {reference : String} (h : ∀ base ∈ bases, t.Missed ⟨reference⟩ base) :
    t.sought reference bases = .error (Cause.moduleNotFound reference) := by
  rw [sought, findSome?_eq_none h]

theorem sought_eq_ok {reference : String} {path : Path} :
    t.sought reference bases = .ok path ↔
      ∃ place, t.FirstFile ⟨reference⟩ bases place ∧ path = pathOf place := by
  constructor
  · intro h
    obtain ⟨place, hfirst⟩ | hmissed := t.firstFile_or_missed ⟨reference⟩ bases
    · rw [sought_of_firstFile hfirst] at h
      exact ⟨place, hfirst, (Except.ok.inj h).symm⟩
    · rw [sought_of_missed hmissed] at h
      cases h
  · rintro ⟨place, hfirst, rfl⟩
    exact sought_of_firstFile hfirst

theorem path_firstFile (t : Files) (index : Nat) (candidates : List Path) :
    (World.firstFile t index candidates).map (·.path) = candidates.findSome? t.fileAt? := by
  induction candidates generalizing index with
  | nil => rfl
  | cons p rest ih =>
    rw [World.firstFile, List.findSome?_cons]
    cases t.fileAt? p with
    | some path => rfl
    | none => exact ih (index + 1)

theorem sought_eq_firstFile (reference : String) (bases : List Path) :
    t.sought reference bases =
      match World.firstFile t 0 (tried ⟨reference⟩ bases) with
      | some found => .ok found.path
      | none => .error (Cause.moduleNotFound reference) := by
  rw [sought, ← t.path_firstFile 0]
  cases World.firstFile t 0 (tried ⟨reference⟩ bases) <;> rfl

end Files

/-! ### Who searches -/

/-- From where a reference is seen, first base first. -/
def LibrarySettings.bases (s : LibrarySettings) (t : Files) (directory : Option Path) :
    List Path :=
  directory.getD (Files.pathOf t.working) :: s.searchPaths

theorem Session.resolve_fst (s : Session) (reference : String) (directory : Option Path) :
    (s.resolve reference directory).1 =
      s.world.files.sought reference
        (s.machine.library.settings.bases s.world.files directory) := by
  have htried : s.machine.library.settings.candidates
      (directory.getD (Files.pathOf s.world.files.working)) reference =
      Files.tried ⟨reference⟩ (s.machine.library.settings.bases s.world.files directory) := rfl
  rw [Files.sought_eq_firstFile, ← htried]
  unfold resolve
  dsimp only
  cases World.firstFile s.world.files 0 (s.machine.library.settings.candidates
    (directory.getD (Files.pathOf s.world.files.working)) reference) with
  | some found => rfl
  | none => rfl

namespace Evaluation

open Eval

theorem ends_noteAll (notes : List Note) (q : Sequential) :
    Act.Ends Sequential.surroundings (noteAll notes).run q (.ok ()) q := by
  induction notes with
  | nil => exact .done _ _
  | cons n rest ih => exact .answered rfl rfl ih

/-- A program that runs comes to the same. -/
theorem ends_resolve_sought (reference : String) (directory : Option Path) (q : Sequential) :
    Act.Ends Sequential.surroundings (resolve reference directory).run q
      (q.world.files.sought reference (q.library.settings.bases q.world.files directory)) q := by
  have hsome (first : Path) : Act.Ends Sequential.surroundings (resolve reference (some first)).run q
      (q.world.files.sought reference (first :: q.library.settings.searchPaths)) q := by
    have htried : q.library.settings.candidates first reference =
        Files.tried ⟨reference⟩ (first :: q.library.settings.searchPaths) := rfl
    refine .answered rfl rfl (.answered rfl rfl ?_)
    rw [Files.sought_eq_firstFile, ← htried]
    refine ends_bind.2 (.inl ⟨(), q, ends_noteAll _ q, ?_⟩)
    cases World.firstFile q.world.files 0 (q.library.settings.candidates first reference) with
    | some found => exact .done _ _
    | none => exact .done _ _
  cases directory with
  | some first => exact hsome first
  | none => exact .answered rfl rfl (hsome _)

end Evaluation

/-! ### What references mean -/

namespace Files

variable {t : Files} {reference : Path} {bases : List Path} {place : List String}

theorem FirstFile.exists_hasFile (h : t.FirstFile reference bases place) :
    ∃ p, t.HasFile p place := by
  induction h with
  | exact h => exact ⟨_, h⟩
  | extended _ _ h => exact ⟨_, h⟩
  | later _ _ ih => exact ih

theorem FirstFile.reached (hworking : t.Reached t.working) (h : t.FirstFile reference bases place) :
    t.Reached place := by
  obtain ⟨p, hfind, -⟩ := h.exists_hasFile
  exact reached_of_find hworking hfind

end Files

/-- A file in a directory beside two others. -/
def besides (working : List String) : Files :=
  { files := [(["lib", "a.gall"], .empty)], directories := [["src"], ["doc"], ["lib"]], working }

/-- A session in one of the directories. -/
def seeker (searchPaths : List Path) (working : List String) : Session :=
  .start { searchPaths } { files := besides working }

end Concatenative
