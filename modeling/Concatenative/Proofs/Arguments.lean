import Concatenative.Settings

/-! The grammar of command lines. A command line is a list of items, one or two arguments each. The settings
take the items one after the other and stop at the end, at an argument that begins no item, or at a file
when there is one already. Main statement: what a command line comes to is told from its items or from what
stopped the reading, and a command line can be read in parts (`arguments_follow_grammar`). -/
namespace Concatenative

namespace Settings

/-! ### Items -/

/-- An argument that names a file: `-`, or one that does not begin like an option. -/
def IsFileName (argument : String) : Prop :=
  argument = "-" ∨ argument.toList.head? ≠ some '-'

instance (argument : String) : Decidable (IsFileName argument) :=
  inferInstanceAs (Decidable (_ ∨ _))

inductive Item where
  | strict
  | showResult
  | directory (path : String)
  | file (name : String) (h : IsFileName name)

namespace Item

/-- The arguments that an item is given by. -/
def spelling : Item → List String
  | strict => ["--strict"]
  | showResult => ["--show-result"]
  | directory path => ["-I", path]
  | file name _ => [name]

def directory? : Item → Option Path
  | directory path => some ⟨path⟩
  | _ => none

def file? : Item → Option String
  | file name _ => some name
  | _ => none

end Item

/-- The command line of items. -/
def spelled (items : List Item) : List String := items.flatMap Item.spelling

def options : List String := ["--strict", "--show-result", "-I"]

/-- An argument that begins like an option and is none. -/
def IsUnknown (argument : String) : Prop := ¬ IsFileName argument ∧ argument ∉ options

variable {s s' s'' : Settings} {item : Item} {items items' : List Item} {arguments rest : List String}
  {argument : String} {fault : UsageFault}

theorem spelled_cons_append (item : Item) (items : List Item) (rest : List String) :
    spelled (item :: items) ++ rest = item.spelling ++ (spelled items ++ rest) := by
  rw [spelled, List.flatMap_cons, List.append_assoc]
  rfl

theorem isFileName_iff : IsFileName argument ↔
    (argument.startsWith "-" && argument != "-") = false := by
  have hstarts : argument.startsWith "-" = true ↔ argument.toList.head? = some '-' := by
    rw [String.startsWith_string_iff]
    cases argument.toList with
    | nil => simp
    | cons c cs => simp [eq_comm]
  rw [IsFileName, ne_eq, ← hstarts]
  by_cases h : argument = "-" <;> simp [h]

theorem IsFileName.not_mem_options (h : IsFileName argument) : argument ∉ options := by
  intro hm
  simp only [options, List.mem_cons, List.not_mem_nil, or_false] at hm
  obtain rfl | rfl | rfl := hm <;> simp [IsFileName] at h

/-! ### One item -/

/-- The settings behind an item. -/
def add (s : Settings) : Item → Settings
  | .strict => { s with strict := true }
  | .showResult => { s with showResult := true }
  | .directory path => { s with searchPaths := s.searchPaths ++ [⟨path⟩] }
  | .file name _ => { s with sourceFile := some name }

/-- The files that are named before and by items. -/
def filesWith (s : Settings) (items : List Item) : List String :=
  s.sourceFile.toList ++ items.filterMap Item.file?

/-- No second file is named. -/
def Admits (s : Settings) (items : List Item) : Prop := (s.filesWith items).length ≤ 1

/-- An argument that is none of the options. -/
theorem withArguments_argument (h : argument ∉ options) :
    s.withArguments (argument :: rest) =
      if ¬ IsFileName argument then refuse (.unknownOption argument)
      else if s.sourceFile.isSome then refuse .secondFile
      else { s with sourceFile := some argument }.withArguments rest := by
  simp only [options, List.mem_cons, List.not_mem_nil, or_false, not_or] at h
  obtain ⟨hstrict, hshow, hdirectory⟩ := h
  rw [withArguments]
  · simp only [isFileName_iff, Bool.not_eq_false]
  · exact hstrict
  · exact hshow
  · exact fun _ _ he => absurd he hdirectory
  · exact fun he => absurd he hdirectory

theorem Admits.sourceFile_eq_none {name : String} {hname : IsFileName name}
    (h : s.Admits [.file name hname]) : s.sourceFile = none := by
  cases hs : s.sourceFile with
  | none => rfl
  | some file => simp [Admits, filesWith, hs, Item.file?] at h

theorem withArguments_item (h : s.Admits [item]) :
    s.withArguments (item.spelling ++ rest) = (s.add item).withArguments rest := by
  cases item with
  | strict => rfl
  | showResult => rfl
  | directory path => rfl
  | file name hname =>
    rw [Item.spelling, List.singleton_append, withArguments_argument hname.not_mem_options,
      if_neg (not_not_intro hname), h.sourceFile_eq_none]
    rfl

/-! ### All items -/

/-- What settings come to by items. -/
structure Extends (s s' : Settings) (items : List Item) : Prop where
  strict : s'.strict = true ↔ s.strict = true ∨ .strict ∈ items
  showResult : s'.showResult = true ↔ s.showResult = true ∨ .showResult ∈ items
  searchPaths : s'.searchPaths = s.searchPaths ++ items.filterMap Item.directory?
  sourceFile : s'.sourceFile.toList = s.filesWith items

theorem Extends.nil (s : Settings) : s.Extends s [] := by
  constructor <;> simp [filesWith]

theorem filesWith_add (h : s.Admits [item]) :
    (s.add item).filesWith items = s.filesWith (item :: items) := by
  cases item with
  | file name hname => simp [filesWith, add, Item.file?, h.sourceFile_eq_none]
  | strict => rfl
  | showResult => rfl
  | directory path => rfl

theorem Extends.cons (h : s.Admits [item]) (hs : (s.add item).Extends s' items) :
    s.Extends s' (item :: items) := by
  refine ⟨?_, ?_, ?_, hs.sourceFile.trans (filesWith_add h)⟩
  · rw [hs.strict]
    cases item <;> simp [add]
  · rw [hs.showResult]
    cases item <;> simp [add]
  · rw [hs.searchPaths]
    cases item <;> simp [add, List.filterMap_cons, Item.directory?]

theorem Extends.unique (h : s.Extends s' items) (h' : s.Extends s'' items) : s' = s'' := by
  have hstrict : s'.strict = s''.strict := Bool.eq_iff_iff.2 (h.strict.trans h'.strict.symm)
  have hshow : s'.showResult = s''.showResult :=
    Bool.eq_iff_iff.2 (h.showResult.trans h'.showResult.symm)
  have hpaths := h.searchPaths.trans h'.searchPaths.symm
  have hfile : s'.sourceFile = s''.sourceFile := by
    simpa using congrArg List.head? (h.sourceFile.trans h'.sourceFile.symm)
  cases s'
  cases s''
  simp_all

theorem Extends.admits (h : s.Extends s' items) : s.Admits items := by
  rw [Admits, ← h.sourceFile]
  cases s'.sourceFile <;> simp

theorem Admits.head (h : s.Admits (item :: items)) : s.Admits [item] := by
  refine Nat.le_trans ?_ h
  cases hf : item.file? <;> simp [filesWith, hf]

theorem admits_add (h : s.Admits [item]) : (s.add item).Admits items ↔ s.Admits (item :: items) := by
  rw [Admits, Admits, filesWith_add h]

/-- Settings take items that name no second file, whatever follows. -/
theorem Admits.exists_extends (h : s.Admits items) : ∃ s', s.Extends s' items ∧
    ∀ rest, s.withArguments (spelled items ++ rest) = s'.withArguments rest := by
  induction items generalizing s with
  | nil => exact ⟨s, .nil s, fun rest => rfl⟩
  | cons item items ih =>
    obtain ⟨s', hs', hrest⟩ := ih ((admits_add h.head).2 h)
    refine ⟨s', hs'.cons h.head, fun rest => ?_⟩
    rw [spelled_cons_append, withArguments_item h.head, hrest]

/-! ### Offences -/

/-- What is at fault at the head of arguments, when files were named before them. -/
inductive Offends (files : List String) : List String → UsageFault → Prop
  | missingDirectory : Offends files ["-I"] .missingDirectory
  | unknownOption {argument : String} {rest : List String} (h : IsUnknown argument) :
      Offends files (argument :: rest) (.unknownOption argument)
  | secondFile {name : String} {rest : List String} (h : IsFileName name) (hfiles : files ≠ []) :
      Offends files (name :: rest) .secondFile

theorem Offends.withArguments (h : Offends s.sourceFile.toList rest fault) :
    s.withArguments rest = refuse fault := by
  cases h with
  | missingDirectory => rfl
  | unknownOption h => rw [withArguments_argument h.2, if_pos h.1]
  | secondFile h hfiles =>
    have hsome : s.sourceFile.isSome := by
      cases hs : s.sourceFile with
      | none => simp [hs] at hfiles
      | some file => rfl
    rw [withArguments_argument h.not_mem_options, if_neg (not_not_intro h), if_pos hsome]

/-- Reading goes over items and stops at the end or at an offence. -/
def Stops (s : Settings) (items : List Item) (rest : List String) : Prop :=
  s.Admits items ∧ (rest = [] ∨ ∃ fault, Offends (s.filesWith items) rest fault)

/-- There is a place where reading stops. -/
def Readable (s : Settings) (arguments : List String) : Prop :=
  ∃ items rest, arguments = spelled items ++ rest ∧ s.Stops items rest

theorem stops_add (h : s.Admits [item]) : (s.add item).Stops items rest ↔ s.Stops (item :: items) rest := by
  rw [Stops, Stops, admits_add h, filesWith_add h]

theorem Readable.cons (item : Item) (h : s.Admits [item]) (hs : (s.add item).Readable rest) :
    s.Readable (item.spelling ++ rest) := by
  obtain ⟨items, rest, rfl, hstops⟩ := hs
  exact ⟨item :: items, rest, (spelled_cons_append item items rest).symm, (stops_add h).1 hstops⟩

theorem admits_of_no_file (s : Settings) (h : items.filterMap Item.file? = []) : s.Admits items := by
  rw [Admits, filesWith, h, List.append_nil]
  exact Option.length_toList_le

theorem readable (s : Settings) (arguments : List String) : s.Readable arguments := by
  fun_induction withArguments s arguments with
  | case1 s => exact ⟨[], [], rfl, s.admits_of_no_file rfl, .inl rfl⟩
  | case2 s rest ih => exact .cons .strict (s.admits_of_no_file rfl) ih
  | case3 s rest ih => exact .cons .showResult (s.admits_of_no_file rfl) ih
  | case4 s path rest ih => exact .cons (.directory path) (s.admits_of_no_file rfl) ih
  | case5 s => exact ⟨[], _, rfl, s.admits_of_no_file rfl, .inr ⟨_, .missingDirectory⟩⟩
  | case6 s argument rest hstrict hshow hpath hlone h =>
    -- An `-I` would have come to the case with a directory or to the one without.
    have hdirectory : argument ≠ "-I" := by
      intro he
      cases rest with
      | nil => exact hlone he rfl
      | cons path rest => exact hpath path rest he rfl
    have hunknown : IsUnknown argument := by
      refine ⟨fun hname => ?_, ?_⟩
      · rw [isFileName_iff.1 hname] at h
        cases h
      · simpa [options] using ⟨hstrict, hshow, hdirectory⟩
    exact ⟨[], _, rfl, s.admits_of_no_file rfl, .inr ⟨_, .unknownOption hunknown⟩⟩
  | case7 s argument rest _ _ _ _ h hfile =>
    have hname : IsFileName argument := isFileName_iff.2 (Bool.eq_false_iff.2 h)
    refine ⟨[], _, rfl, s.admits_of_no_file rfl, .inr ⟨_, .secondFile hname ?_⟩⟩
    obtain ⟨file, hfile⟩ := Option.isSome_iff_exists.1 hfile
    simp [filesWith, hfile]
  | case8 s argument rest _ _ _ _ h hfile ih =>
    have hname : IsFileName argument := isFileName_iff.2 (Bool.eq_false_iff.2 h)
    have hadmits : s.Admits [.file argument hname] := by
      rw [Option.not_isSome_iff_eq_none] at hfile
      simp [Admits, filesWith, hfile, Item.file?]
    exact .cons (.file argument hname) hadmits ih

/-! ### One reading -/

theorem IsFileName.ne_option (h : IsFileName argument) :
    argument ≠ "--strict" ∧ argument ≠ "--show-result" ∧ argument ≠ "-I" := by
  simpa [options] using h.not_mem_options

theorem Item.spelling_append_inj {item' : Item} {rest' : List String}
    (h : item.spelling ++ rest = item'.spelling ++ rest') : item = item' ∧ rest = rest' := by
  cases item <;> cases item' <;> grind [Item.spelling, IsFileName.ne_option]

/-- Whatever is at fault is no item that could be taken. -/
theorem Offends.not_admits (h : Offends (s.filesWith []) (item.spelling ++ rest) fault) :
    ¬ s.Admits [item] := by
  generalize harguments : item.spelling ++ rest = arguments at h
  cases h with
  | missingDirectory => cases item <;> grind [Item.spelling, IsFileName.ne_option]
  | unknownOption h =>
    obtain ⟨hname, hoption⟩ := h
    cases item <;> grind [Item.spelling, options]
  | secondFile h hfiles =>
    intro hadmits
    cases item with
    | file name hname =>
      simp [filesWith, hadmits.sourceFile_eq_none] at hfiles
    | _ => grind [Item.spelling, IsFileName.ne_option]

theorem Stops.not_item (h : s.Stops [] (item.spelling ++ rest)) : ¬ s.Admits [item] := by
  obtain ⟨-, hnil | ⟨fault, hfault⟩⟩ := h
  · cases item <;> cases hnil
  · exact hfault.not_admits

theorem Stops.unique {rest' : List String} (h : s.Stops items rest) (h' : s.Stops items' rest')
    (he : spelled items ++ rest = spelled items' ++ rest') : items = items' ∧ rest = rest' := by
  induction items generalizing s items' with
  | nil =>
    cases items' with
    | nil => exact ⟨rfl, he⟩
    | cons item' items' =>
      rw [spelled_cons_append] at he
      obtain rfl : rest = _ := he
      exact absurd h'.1.head h.not_item
  | cons item items ih =>
    cases items' with
    | nil =>
      rw [spelled_cons_append] at he
      obtain rfl : _ = rest' := he
      exact absurd h.1.head h'.not_item
    | cons item' items' =>
      rw [spelled_cons_append, spelled_cons_append] at he
      obtain ⟨rfl, htail⟩ := Item.spelling_append_inj he
      have hadmits := h.1.head
      obtain ⟨rfl, rfl⟩ := ih ((stops_add hadmits).2 h) ((stops_add hadmits).2 h') htail
      exact ⟨rfl, rfl⟩

/-! ### What a reading comes to -/

theorem Extends.withArguments (h : s.Extends s' items) (rest : List String) :
    s.withArguments (spelled items ++ rest) = s'.withArguments rest := by
  obtain ⟨s'', hs, hrun⟩ := h.admits.exists_extends
  rw [hrun, h.unique hs]

theorem Offends.withArguments_append (hadmits : s.Admits items)
    (h : Offends (s.filesWith items) rest fault) :
    s.withArguments (spelled items ++ rest) = refuse fault := by
  obtain ⟨s', hs, hrun⟩ := hadmits.exists_extends
  rw [← hs.sourceFile] at h
  rw [hrun, h.withArguments]

/-- All that settings can do with a command line. -/
theorem withArguments_cases (s : Settings) (arguments : List String) :
    (∃ items s', arguments = spelled items ∧ s.Extends s' items ∧
      s.withArguments arguments = .ok s') ∨
    ∃ items rest fault, arguments = spelled items ++ rest ∧ s.Admits items ∧
      Offends (s.filesWith items) rest fault ∧ s.withArguments arguments = refuse fault := by
  obtain ⟨items, rest, rfl, hadmits, rfl | ⟨fault, hfault⟩⟩ := s.readable arguments
  · obtain ⟨s', hs, hrun⟩ := hadmits.exists_extends
    exact .inl ⟨items, s', List.append_nil _, hs, hrun []⟩
  · exact .inr ⟨items, rest, fault, rfl, hadmits, hfault, hfault.withArguments_append hadmits⟩

theorem withArguments_eq_ok : s.withArguments arguments = .ok s' ↔
    ∃ items, arguments = spelled items ∧ s.Extends s' items := by
  constructor
  · intro h
    obtain ⟨items, s'', harguments, hs, hok⟩ | ⟨_, _, _, -, -, -, herror⟩ :=
      s.withArguments_cases arguments
    · obtain rfl := Except.ok.inj (hok.symm.trans h)
      exact ⟨items, harguments, hs⟩
    · cases herror.symm.trans h
  · rintro ⟨items, rfl, hs⟩
    rw [← List.append_nil (spelled items), hs.withArguments]
    rfl

theorem withArguments_eq_error {e : Failure} : s.withArguments arguments = .error e ↔
    ∃ items rest fault, arguments = spelled items ++ rest ∧ s.Admits items ∧
      Offends (s.filesWith items) rest fault ∧ e = Cause.usage fault := by
  constructor
  · intro h
    obtain ⟨_, _, -, -, hok⟩ | ⟨items, rest, fault, harguments, hadmits, hfault, herror⟩ :=
      s.withArguments_cases arguments
    · cases hok.symm.trans h
    · exact ⟨items, rest, fault, harguments, hadmits, hfault,
        (Except.error.inj (herror.symm.trans h)).symm⟩
  · rintro ⟨items, rest, fault, rfl, hadmits, hfault, rfl⟩
    exact hfault.withArguments_append hadmits

/-- Settings take a command line if it is a list of items of which no more than one names a file, counting
the file that is set; they come to what the items say. Everything else is refused as a misuse, for what is
at fault behind items that could be taken. There is one place only where reading stops, be it the end or
the first thing at fault, and one list of items up to it. And to read a command line in parts, the second
from what the first came to, is to read it as a whole. -/
theorem arguments_follow_grammar (s : Settings) (arguments : List String) :
    ((∃ s', s.withArguments arguments = .ok s') ↔
      ∃ items, arguments = spelled items ∧ s.Admits items) ∧
    (∀ s', s.withArguments arguments = .ok s' ↔
      ∃ items, arguments = spelled items ∧ s.Extends s' items) ∧
    (∀ e, s.withArguments arguments = .error e ↔
      ∃ items rest fault, arguments = spelled items ++ rest ∧ s.Admits items ∧
        Offends (s.filesWith items) rest fault ∧ e = ⟨.usage fault, none⟩) ∧
    (∀ items rest items' rest', arguments = spelled items ++ rest → s.Stops items rest →
      arguments = spelled items' ++ rest' → s.Stops items' rest' → items = items' ∧ rest = rest') ∧
    ∀ s' more, s.withArguments arguments = .ok s' →
      s.withArguments (arguments ++ more) = s'.withArguments more := by
  refine ⟨?accepted, ?result, ?refused, ?one, ?parts⟩
  case accepted =>
    simp only [withArguments_eq_ok]
    constructor
    · rintro ⟨s', items, harguments, hs⟩
      exact ⟨items, harguments, hs.admits⟩
    · rintro ⟨items, harguments, hadmits⟩
      obtain ⟨s', hs, -⟩ := hadmits.exists_extends
      exact ⟨s', items, harguments, hs⟩
  case result => exact fun s' => withArguments_eq_ok
  case refused => exact fun e => withArguments_eq_error
  case one => exact fun items rest items' rest' he h he' h' => h.unique h' (he.symm.trans he')
  case parts =>
    intro s' more h
    obtain ⟨items, rfl, hs⟩ := withArguments_eq_ok.1 h
    exact hs.withArguments more

/-- A directory that looks like a flag, and a file that begins like one. -/
theorem arguments_follow_grammar_lookalikes :
    let s : Settings := { searchPaths := [⟨"--strict"⟩], sourceFile := some "-" }
    ({} : Settings).withArguments ["-I", "--strict", "-"] = .ok s ∧
    ({} : Settings).withArguments ["-I", "--strict", "-", "-I", "x", "y"] =
      .error ⟨.usage .secondFile, none⟩ ∧
    ∀ items rest, ["-I", "x", "y"] = spelled items ++ rest → s.Stops items rest →
      items = [.directory "x"] ∧ rest = ["y"] := by
  intro s
  obtain ⟨-, hresult, -, -, hparts⟩ := arguments_follow_grammar {} ["-I", "--strict", "-"]
  obtain ⟨-, -, hrefused, hone, -⟩ := arguments_follow_grammar s ["-I", "x", "y"]
  have htaken : ({} : Settings).withArguments ["-I", "--strict", "-"] = .ok s :=
    (hresult s).2 ⟨[.directory "--strict", .file "-" (.inl rfl)], rfl, by simp [s], by simp [s],
      rfl, rfl⟩
  have hadmits : s.Admits [.directory "x"] := Nat.le_refl 1
  have hfault : Offends (s.filesWith [.directory "x"]) ["y"] .secondFile :=
    .secondFile (.inr (by decide)) (by decide)
  refine ⟨htaken, (hparts s ["-I", "x", "y"] htaken).trans ?_, fun items rest he hstops => ?_⟩
  · exact (hrefused _).2 ⟨[.directory "x"], ["y"], .secondFile, rfl, hadmits, hfault, rfl⟩
  · exact hone items rest [.directory "x"] ["y"] he hstops rfl ⟨hadmits, .inr ⟨_, hfault⟩⟩

end Settings

end Concatenative
