import Concatenative.Proofs.Components
import Concatenative.Proofs.Resolution

/-! Where references lead that neither start from the top nor step back. Seen from a base, such a
reference goes on from the segments of the base, so that every path that is tried for it has the
components of the base in front, and a file that is found stands below the base. Only a reference without
a name has nothing to put the extension of modules behind, and then the base itself takes it. Main
statement: `plain_references_stay_inside`. -/
namespace Concatenative

open LibrarySettings (moduleExtension spellings)

namespace Path

variable {p base reference : Path} {kept more : List String} {name s : String}

/-! ### Going on from a base -/

/-- The segments that those of another path are put behind: all but the empty one behind a last slash. -/
def ground (p : Path) : List String :=
  if p.text.isEmpty || p.text.toList.getLast? = some '/' then p.segments.dropLast else p.segments

/-- Lies lexically inside a base. -/
def Inside (p base : Path) : Prop := base.components <+: p.components

instance (p base : Path) : Decidable (p.Inside base) := inferInstanceAs (Decidable (_ <+: _))

/-- Goes on from a base by segments. -/
structure Continues (p base : Path) (more : List String) : Prop where
  segments : p.segments = base.ground ++ more
  isAbsolute : p.isAbsolute = base.isAbsolute
  more_ne_nil : more ≠ []

theorem segments_append_slash {cs : List Char} (text : String)
    (h : p.text.toList = cs ++ '/' :: text.toList) :
    p.segments = (segmentsOf cs).map String.ofList ++ (Path.mk text).segments := by
  rw [Path.segments, h, segmentsOf_append_slash, List.map_append]
  rfl

/-- A path is empty, ends with a slash, or is ground itself. -/
theorem ground_cases (p : Path) :
    (p.text = "" ∧ p.ground = [] ∧ p.segments = [""]) ∨
    (∃ cs, p.text.toList = cs ++ ['/'] ∧ p.ground = (segmentsOf cs).map String.ofList ∧
      p.segments = p.ground ++ [""]) ∨
    (p.text ≠ "" ∧ p.text.toList.getLast? ≠ some '/' ∧ p.ground = p.segments) := by
  by_cases hempty : p.text = ""
  · have hsegments : p.segments = [""] := by simp [Path.segments, hempty, segmentsOf]
    exact .inl ⟨hempty, by simp [ground, hempty, hsegments], hsegments⟩
  by_cases hslash : p.text.toList.getLast? = some '/'
  · obtain ⟨cs, hcs⟩ := List.getLast?_eq_some_iff.1 hslash
    have hsegments : p.segments = (segmentsOf cs).map String.ofList ++ [""] :=
      segments_append_slash "" hcs
    have hground : p.ground = (segmentsOf cs).map String.ofList := by
      simp [ground, hslash, hsegments]
    exact .inr (.inl ⟨cs, hcs, hground, hground ▸ hsegments⟩)
  · exact .inr (.inr ⟨hempty, hslash, by simp [ground, hempty, hslash]⟩)

theorem segments_ground (p : Path) : p.segments = p.ground ∨ p.segments = p.ground ++ [""] := by
  obtain ⟨-, hground, hsegments⟩ | ⟨cs, -, -, hsegments⟩ | ⟨-, -, hground⟩ := p.ground_cases
  · exact .inr (by rw [hground, hsegments]; rfl)
  · exact .inr hsegments
  · exact .inl hground.symm

theorem toList_join (base : Path) (h : reference.isAbsolute = false) :
    (base.join reference).text.toList = if base.text = "" ∨ base.text.toList.getLast? = some '/' then
      base.text.toList ++ reference.text.toList
    else base.text.toList ++ '/' :: reference.text.toList := by
  unfold join
  rw [h, if_neg Bool.false_ne_true]
  by_cases hbase : base.text = "" ∨ base.text.toList.getLast? = some '/' <;> simp [hbase]

theorem continues_join (base : Path) (h : reference.isAbsolute = false) :
    (base.join reference).Continues base reference.segments := by
  have htext := toList_join base h
  obtain ⟨hempty, hground, -⟩ | ⟨cs, hcs, hground, -⟩ | ⟨hne, hlast, hground⟩ := base.ground_cases
  · rw [if_pos (.inl hempty), hempty, String.toList_empty, List.nil_append] at htext
    refine ⟨?_, ?_, reference.segments_ne_nil⟩
    · rw [hground, Path.segments, htext]
      rfl
    · rw [Path.isAbsolute, htext, Path.isAbsolute, hempty]
      exact h
  · have hlast : base.text.toList.getLast? = some '/' := by rw [hcs, List.getLast?_concat]
    rw [if_pos (.inr hlast), hcs, List.append_assoc] at htext
    refine ⟨hground ▸ segments_append_slash _ htext, ?_, reference.segments_ne_nil⟩
    simp [Path.isAbsolute, htext, hcs]
  · rw [if_neg (not_or.2 ⟨hne, hlast⟩)] at htext
    refine ⟨hground ▸ segments_append_slash _ htext, ?_, reference.segments_ne_nil⟩
    obtain ⟨c, cs, hcs⟩ := List.exists_cons_of_ne_nil fun hnil => hne (String.toList_eq_nil_iff.1 hnil)
    simp [Path.isAbsolute, htext, hcs]

theorem Continues.components (h : p.Continues base more) (hground : base.ground ≠ []) :
    p.components = base.components ++ more.filterMap componentOf? := by
  have hbase : base.components = componentsOf base.isAbsolute base.ground := by
    rw [components_eq]
    obtain hsegments | hsegments := base.segments_ground
    · rw [hsegments]
    · rw [hsegments, componentsOf_append hground]
      exact List.append_nil _
  rw [components_eq, h.segments, h.isAbsolute, componentsOf_append hground, hbase]

theorem eq_of_ground (h : p.ground = []) : p = ⟨""⟩ := by
  obtain ⟨htext, -, -⟩ | ⟨cs, -, hground, -⟩ | ⟨-, -, hground⟩ := p.ground_cases
  · exact congrArg Path.mk htext
  · rw [hground, List.map_eq_nil_iff] at h
    exact absurd h (segmentsOf_ne_nil cs)
  · exact absurd (hground ▸ h) p.segments_ne_nil

theorem Continues.inside (h : p.Continues base more) : p.Inside base := by
  by_cases hground : base.ground = []
  -- Without ground the first of the segments behind it may stand for the top or a dot, but then there are
  -- no components to be kept.
  · rw [eq_of_ground hground]
    exact List.nil_prefix
  · rw [Inside, h.components hground]
    exact List.prefix_append _ _

/-! ### Plain references -/

/-- Neither starts from the top nor steps back. -/
structure Plain (reference : Path) : Prop where
  relative : reference.isAbsolute = false
  forward : .up ∉ reference.components

/-- Has no name among its components. -/
def Nameless (reference : Path) : Prop := ∀ name, .name name ∉ reference.components

theorem mem_components (h : reference.isAbsolute = false) (hs : s ∈ reference.segments) {c : Component}
    (hc : componentOf? s = some c) : c ∈ reference.components := by
  rw [components_eq, h]
  obtain ⟨first, rest, hsegments⟩ := List.exists_cons_of_ne_nil reference.segments_ne_nil
  rw [hsegments] at hs ⊢
  rw [componentsOf, List.mem_append]
  obtain rfl | hs := List.mem_cons.1 hs
  · have hdot : s ≠ "." := by
      rintro rfl
      simp [componentOf?] at hc
    simp [hdot, hc]
  · exact .inr (List.mem_filterMap.2 ⟨s, hs, hc⟩)

theorem Plain.not_mem (h : reference.Plain) : ".." ∉ reference.segments := fun hs =>
  h.forward (mem_components h.relative hs rfl)

/-- Past the empty ones and those that stay in place, the segments are names. -/
theorem Plain.isName (h : reference.Plain) (hs : s ∈ reference.segments) (hne : componentOf? s ≠ none) :
    IsName s := by
  obtain hnone | rfl | hname := componentOf?_cases s
  · exact absurd hnone hne
  · exact absurd hs h.not_mem
  · exact hname

theorem Plain.nameless_iff (h : reference.Plain) :
    reference.Nameless ↔ ∀ s ∈ reference.segments, componentOf? s = none := by
  constructor
  · intro hnameless s hs
    cases hc : componentOf? s with
    | none => rfl
    | some c =>
      have hname : IsName s := h.isName hs (by simp [hc])
      exact absurd (mem_components h.relative hs hname) (hnameless s)
  · intro hnone name hname
    obtain ⟨first, rest, hsegments⟩ := List.exists_cons_of_ne_nil reference.segments_ne_nil
    rw [hsegments] at hnone
    obtain ⟨hfirst, hrest⟩ := List.forall_mem_cons.1 hnone
    rw [components_eq, h.relative, hsegments, componentsOf, hfirst,
      List.filterMap_eq_nil_iff.2 hrest] at hname
    split at hname
    · contradiction
    · split at hname <;> simp at hname

theorem Nameless.fileName? (h : reference.Nameless) : reference.fileName? = none := by
  unfold Path.fileName?
  split
  · next name hlast => exact absurd (List.mem_of_getLast? hlast) (h name)
  · rfl

/-- A reference without a name leaves the last component of its base the last one. -/
theorem Plain.fileName?_join (h : reference.Plain) (hnameless : reference.Nameless) :
    (base.join reference).fileName? = base.fileName? := by
  by_cases hground : base.ground = []
  · have hjoin : (Path.mk "").join reference = reference := by
      simp [join, h.relative]
    rw [eq_of_ground hground, hjoin, hnameless.fileName?]
    decide
  · rw [Path.fileName?, (continues_join base h.relative).components hground,
      List.filterMap_eq_nil_iff.2 (h.nameless_iff.1 hnameless), List.append_nil]
    rfl

theorem trimEnd_ground (p : Path) : trimEnd p.segments = trimEnd p.ground := by
  obtain hsegments | hsegments := p.segments_ground
  · rw [hsegments]
  · rw [hsegments, trimEnd_append (by simp [componentOf?])]

theorem Plain.withExtension_join (h : reference.Plain) (hnameless : reference.Nameless)
    (hname : base.fileName? ≠ none) (extension : String) :
    (base.join reference).withExtension extension = base.withExtension extension := by
  have hnone := h.nameless_iff.1 hnameless
  have htrim : trimEnd (base.join reference).segments = trimEnd base.segments := by
    rw [(continues_join base h.relative).segments, trimEnd_append hnone, trimEnd_ground]
  obtain ⟨name, hname⟩ := Option.ne_none_iff_exists'.1 hname
  unfold withExtension
  rw [h.fileName?_join hnameless, hname]
  dsimp only
  rw [htrim]

/-- The extension of modules is put behind a name of the reference, if it has one. -/
theorem Plain.continues_withExtension (h : reference.Plain) (hnamed : ¬ reference.Nameless)
    (hextension : (base.join reference).extension? = none) :
    ∃ more, ((base.join reference).withExtension moduleExtension).Continues base more ∧
      ".." ∉ more := by
  have hjoin := continues_join base h.relative
  obtain ⟨kept, name, dots, hsegments, hne, hdots⟩ :
      ∃ kept name dots, reference.segments = kept ++ name :: dots ∧ componentOf? name ≠ none ∧
        ∀ d ∈ dots, componentOf? d = none := by
    refine exists_last ?_
    rw [h.nameless_iff] at hnamed
    simpa using hnamed
  have hends : (base.join reference).Ends (base.ground ++ kept) name := by
    refine ⟨h.isName (by simp [hsegments]) hne, dots, ?_, hdots⟩
    rw [hjoin.segments, hsegments, List.append_assoc]
  refine ⟨kept ++ [extended name], ⟨?_, ?_, by simp⟩, fun hup => ?_⟩
  · rw [hends.segments_withExtension hextension, List.append_assoc]
  · rw [hends.isAbsolute_withExtension hextension, hjoin.isAbsolute]
  · obtain hup | hup := List.mem_append.1 hup
    · exact h.not_mem (by simp [hsegments, hup])
    · exact (isName_iff.1 (isName_extended name)).2.2 (List.mem_singleton.1 hup).symm

/-- A path that is tried goes on from the base, or it is the base with the extension of modules. -/
theorem Plain.spelling_cases (h : reference.Plain) (hp : p ∈ spellings (base.join reference)) :
    (∃ more, p.Continues base more ∧ ".." ∉ more) ∨
      reference.Nameless ∧ base.fileName? ≠ none ∧ base.extension? = none ∧
        p = base.withExtension moduleExtension := by
  have hplain : ∃ more, (base.join reference).Continues base more ∧ ".." ∉ more :=
    ⟨reference.segments, continues_join base h.relative, h.not_mem⟩
  unfold spellings at hp
  split at hp
  · next hextension =>
    rw [Option.isNone_iff_eq_none] at hextension
    obtain rfl | hp := List.mem_cons.1 hp
    · exact .inl hplain
    obtain rfl := List.mem_singleton.1 hp
    by_cases hnameless : reference.Nameless
    · by_cases hname : base.fileName? = none
      · have hstays : (base.join reference).withExtension moduleExtension = base.join reference := by
          rw [withExtension, h.fileName?_join hnameless, hname]
        rw [hstays]
        exact .inl hplain
      · rw [extension?, h.fileName?_join hnameless] at hextension
        exact .inr ⟨hnameless, hname, hextension, h.withExtension_join hnameless hname _⟩
    · exact .inl (h.continues_withExtension hnameless hextension)
  · rw [List.mem_singleton.1 hp]
    exact .inl hplain

theorem Ends.not_inside (h : p.Ends kept name) (hextension : p.extension? = none) :
    ¬ (p.withExtension moduleExtension).Inside p := by
  rw [Inside, (h.withExtension hextension).components, h.isAbsolute_withExtension hextension,
    h.components, List.prefix_append_right_inj]
  simp [(extended_ne name).symm]

theorem Plain.exists_not_inside_iff (h : reference.Plain) :
    (∃ p ∈ spellings (base.join reference), ¬ p.Inside base) ↔
      reference.Nameless ∧ base.fileName? ≠ none ∧ base.extension? = none := by
  constructor
  · rintro ⟨p, hp, houtside⟩
    obtain ⟨more, hmore, -⟩ | ⟨hnameless, hname, hextension, -⟩ := h.spelling_cases hp
    · exact absurd hmore.inside houtside
    · exact ⟨hnameless, hname, hextension⟩
  · rintro ⟨hnameless, hname, hextension⟩
    have hjoin : (base.join reference).extension? = none := by
      rw [extension?, h.fileName?_join hnameless]
      exact hextension
    refine ⟨base.withExtension moduleExtension, ?_, ?_⟩
    · rw [spellings, hjoin, ← h.withExtension_join hnameless hname]
      simp
    · obtain ⟨name, hname⟩ := Option.ne_none_iff_exists'.1 hname
      obtain ⟨kept, hends⟩ := exists_ends hname
      exact hends.not_inside hextension

end Path

/-! ### Files below a base -/

namespace Files

variable {t : Files} {p base reference path : Path} {place next more : List String} {segment : String}

/-- Where a path leads by its segments; one without text stays in the working directory. -/
def Leads (t : Files) (p : Path) (place : List String) : Prop :=
  p.segments.foldlM t.step (if p.isAbsolute then [] else t.working) = .ok place

/-- The one path of a file below the directory that a base leads to. -/
def Below (t : Files) (base path : Path) : Prop :=
  ∃ directory names, t.Leads base directory ∧ t.node? directory = some .directory ∧
    names ≠ [] ∧ path = pathOf (directory ++ names)

/-- The one path of the file that a base becomes by the extension of modules. -/
def Beside (t : Files) (base path : Path) : Prop :=
  base.fileName? ≠ none ∧ base.extension? = none ∧
    t.fileAt? (base.withExtension moduleExtension) = some path

theorem leads_of_find (h : t.find p = .ok place) : t.Leads p place := by
  unfold find at h
  split at h
  · cases h
  · split at h
    · cases h
    · split at h
      · cases h
      · exact h

/-- Without a step back a walk only goes down. -/
theorem prefix_of_walk (hup : ".." ∉ more) (h : more.foldlM t.step place = .ok next) :
    place <+: next := by
  induction more generalizing place with
  | nil => cases h; exact List.prefix_rfl
  | cons segment more ih =>
    rw [List.mem_cons, not_or] at hup
    obtain ⟨between, hstep, h⟩ := walk_cons.1 h
    have hdown := ih hup.2 h
    obtain ⟨-, rfl | ⟨hback, -⟩ | ⟨rfl, -⟩⟩ := step_cases hstep
    · exact hdown
    · exact absurd hback.symm hup.1
    · exact (List.prefix_append place [segment]).trans hdown

/-- A walk starts from a directory. -/
theorem node?_of_walk (hne : more ≠ []) (h : more.foldlM t.step place = .ok next) :
    t.node? place = some .directory := by
  obtain ⟨segment, rest, rfl⟩ := List.exists_cons_of_ne_nil hne
  obtain ⟨between, hstep, -⟩ := walk_cons.1 h
  exact (step_cases hstep).1

theorem below_of_hasFile (h : t.HasFile p place) (hp : p.Continues base more) (hup : ".." ∉ more) :
    t.Below base (pathOf place) := by
  obtain ⟨hfind, bytes, hfile⟩ := h
  have hwalk := leads_of_find hfind
  rw [Leads, hp.segments, hp.isAbsolute] at hwalk
  obtain ⟨directory, hground, hmore⟩ := walk_append.1 hwalk
  have hnode := node?_of_walk hp.more_ne_nil hmore
  obtain ⟨names, rfl⟩ := prefix_of_walk hup hmore
  refine ⟨directory, names, ?_, hnode, ?_, rfl⟩
  · obtain hsegments | hsegments := base.segments_ground
    · rw [Leads, hsegments, hground]
    · rw [Leads, hsegments]
      exact walk_append.2 ⟨directory, hground, walk_cons.2 ⟨directory, step_empty hnode, rfl⟩⟩
  · rintro rfl
    rw [List.append_nil, hnode] at hfile
    cases hfile

theorem FirstFile.exists_spelling {bases : List Path} (h : t.FirstFile reference bases place) :
    ∃ base ∈ bases, ∃ p ∈ spellings (base.join reference), t.HasFile p place := by
  induction h with
  | @exact base rest place h =>
    refine ⟨base, List.mem_cons_self, _, ?_, h⟩
    unfold spellings
    split <;> simp
  | @extended base rest place hplain hextension h =>
    refine ⟨base, List.mem_cons_self, _, ?_, h⟩
    simp [spellings, hextension]
  | later _ _ ih =>
    obtain ⟨base, hbase, hp⟩ := ih
    exact ⟨base, List.mem_cons_of_mem _ hbase, hp⟩

/-- What is found for a plain reference. -/
theorem below_or_beside {reference : String} {bases : List Path} (h : (Path.mk reference).Plain)
    (hsought : t.sought reference bases = .ok path) :
    ∃ base ∈ bases, t.Below base path ∨ (Path.mk reference).Nameless ∧ t.Beside base path := by
  obtain ⟨place, hfirst, rfl⟩ := sought_eq_ok.1 hsought
  obtain ⟨base, hbase, p, hp, hfile⟩ := hfirst.exists_spelling
  refine ⟨base, hbase, ?_⟩
  obtain ⟨more, hmore, hup⟩ | ⟨hnameless, hname, hextension, rfl⟩ := h.spelling_cases hp
  · exact .inl (below_of_hasFile hfile hmore hup)
  · exact .inr ⟨hnameless, hname, hextension, hfile.fileAt?⟩

end Files

/-- A plain reference neither starts from the top nor steps back. Seen from a base, what is tried for it
lies inside the base, unless it has no name; then a base that ends in a name without an extension is also
tried with the extension of modules, which lies beside it. So whatever file is found for a plain reference
lies below one of the bases, or beside one if the reference has no name; it is the same for a session and
for a program that runs. -/
theorem plain_references_stay_inside (reference : String) (h : (Path.mk reference).Plain) :
    (∀ base : Path,
      (∀ p ∈ spellings (base.join ⟨reference⟩), p.Inside base ∨
        (Path.mk reference).Nameless ∧ p = base.withExtension moduleExtension) ∧
      ((∃ p ∈ spellings (base.join ⟨reference⟩), ¬ p.Inside base) ↔
        (Path.mk reference).Nameless ∧ base.fileName? ≠ none ∧ base.extension? = none)) ∧
    (∀ (s : Session) directory path, (s.resolve reference directory).1 = .ok path →
      ∃ base ∈ s.machine.library.settings.bases s.world.files directory,
        s.world.files.Below base path ∨
          (Path.mk reference).Nameless ∧ s.world.files.Beside base path) ∧
    ∀ (q : Sequential) directory, ∃ n found,
      Sequential.run n (Evaluation.resolve reference directory).run q = some (found, q) ∧
      ∀ path, found = .ok path →
        ∃ base ∈ q.library.settings.bases q.world.files directory,
          q.world.files.Below base path ∨
            (Path.mk reference).Nameless ∧ q.world.files.Beside base path := by
  refine ⟨fun base => ⟨fun p hp => ?tried, h.exists_not_inside_iff⟩, ?session, ?program⟩
  case tried =>
    obtain ⟨more, hmore, -⟩ | ⟨hnameless, -, -, he⟩ := h.spelling_cases hp
    · exact .inl hmore.inside
    · exact .inr ⟨hnameless, he⟩
  case session =>
    intro s directory path hfound
    rw [s.resolve_fst] at hfound
    exact Files.below_or_beside h hfound
  case program =>
    intro q directory
    obtain ⟨n, hn⟩ := Sequential.run_of_ends (Evaluation.ends_resolve_sought reference directory q)
    exact ⟨n, _, hn, fun path hfound => Files.below_or_beside h hfound⟩

/-- The reference has a name, so the library that it is found in is one of the bases. -/
theorem plain_references_stay_inside_library :
    (Path.mk "./a/").Plain ∧
    (∀ p ∈ spellings (Path.join ⟨"../lib"⟩ ⟨"./a/"⟩), p.Inside ⟨"../lib"⟩) ∧
    ((seeker [⟨"../lib"⟩] ["src"]).resolve "./a/" none).1 = .ok ⟨"/lib/a.gall"⟩ ∧
    ∃ base ∈ [⟨"/src"⟩, ⟨"../lib"⟩], (besides ["src"]).Below base ⟨"/lib/a.gall"⟩ := by
  have hplain : (Path.mk "./a/").Plain := ⟨by decide, by decide⟩
  have hnamed : ¬ (Path.mk "./a/").Nameless := fun h => h "a" (by decide)
  have hfound : ((seeker [⟨"../lib"⟩] ["src"]).resolve "./a/" none).1 = .ok ⟨"/lib/a.gall"⟩ := by
    rw [Session.resolve_fst]
    rfl
  obtain ⟨hinside, hsession, -⟩ := plain_references_stay_inside "./a/" hplain
  refine ⟨hplain, fun p hp => ?_, hfound, ?_⟩
  · exact ((hinside ⟨"../lib"⟩).1 p hp).resolve_right fun h => hnamed h.1
  · obtain ⟨base, hbase, hbelow⟩ := hsession _ none _ hfound
    exact ⟨base, hbase, hbelow.resolve_right fun h => hnamed h.1⟩

/-- A reference to the base itself is tried with the extension behind the name of the base. -/
theorem nameless_reference_leaves_base :
    (Path.mk ".").Plain ∧
    ⟨"/proj/lib.gall"⟩ ∈ spellings (Path.join ⟨"/proj/lib"⟩ ⟨"."⟩) ∧
    ¬ (Path.mk "/proj/lib.gall").Inside ⟨"/proj/lib"⟩ ∧
    ((Session.start {} { files := {
        files := [(["proj", "lib.gall"], .empty)]
        directories := [["proj"], ["proj", "lib"]] } }).resolve "." (some ⟨"/proj/lib"⟩)).1 =
      .ok ⟨"/proj/lib.gall"⟩ := by
  refine ⟨⟨by decide, by decide⟩, by decide, by decide, ?_⟩
  rw [Session.resolve_fst]
  rfl

end Concatenative
