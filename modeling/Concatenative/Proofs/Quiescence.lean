import Concatenative.Proofs.Correspondence.State
import Concatenative.Proofs.Wakeups

/-! Machines at rest. A task that has ended is nowhere: it does not run, it is not ready, it reads no
file and it stands in no line. Main statement: when all tasks have ended nobody is at any cell, and the
library waits for nobody (`Unfolds.atRest`). -/
namespace Concatenative

/-- Nobody loads a module or waits for one. -/
def Library.Quiet (l : Library) : Prop := ∀ s ∈ l.shelves, s.loader = none ∧ s.waiting = []

/-- A path leads to its shelf. -/
theorem Library.Distinct.shelf?_path {l : Library} {s : Shelf} (h : l.Distinct) (hs : s ∈ l.shelves) :
    l.shelf? s.path = some s := by
  obtain ⟨settings, shelves, parseCount⟩ := l
  simp only [Library.Distinct, Library.shelf?] at h hs ⊢
  induction shelves with
  | nil => cases hs
  | cons first rest ih =>
    obtain ⟨hfirst, hrest⟩ := List.nodup_cons.1 h
    rw [List.find?_cons]
    rcases List.mem_cons.1 hs with rfl | hmem
    · rw [Path.same_iff.2 rfl]
    · have hne : first.path.same s.path = false := by
        rw [Bool.eq_false_iff]
        intro hsame
        exact hfirst (List.mem_map.2 ⟨s, hmem, (Path.same_iff.1 hsame).symm⟩)
      rw [hne]
      exact ih hrest hmem

theorem Cell.Quiet.sound {c : Cell} (h : c.Quiet) : c.Sound := by
  constructor
  · intro o ho
    rcases h.stored with he | ⟨hn, _⟩
    · exact he.symm.trans ho
    · cases hn.symm.trans ho
  · intro hn r hr
    rcases h.stored with he | ⟨_, hj⟩
    · exact absurd (he.symm.trans hn) h.ended
    · cases hj.symm.trans hr

namespace Machine

/-- Nothing is left to be done, and nobody is at any cell. -/
structure AtRest (m : Machine) : Prop where
  running : m.running = none
  ready : m.ready.toList = []
  reading : m.reading = []
  tasks : ∀ (u : TaskId) (task : Task), m.tasks[u]? = some task → task.thread = none ∧ task.cell.Quiet
  library : m.library.Quiet

theorem AtRest.orderly {m : Machine} (h : m.AtRest) : m.Orderly := by
  refine ⟨fun u task hu => (h.tasks u task hu).2.sound, fun u task hu hn => ?_, fun u hu => ?_, ?_,
    fun t θ hr => ?_⟩
  · exact absurd (h.tasks u task hu).1 hn
  · rw [readers, h.reading] at hu
    cases hu
  · rw [readers, h.reading]
    exact List.nodup_nil
  · cases h.running.symm.trans hr

/-- Whoever has ended is nowhere. -/
def Vacant (m : Machine) : Prop := ∀ u, m.result? u ≠ none → m.whereabouts.count u = 0

variable {m m' : Machine} {t u : TaskId} {θ : Thread} {log : List Asked} {J : Journal}
  {es : List Entry}

/-! ## Tasks that have ended -/

theorem At.result?_eq_none (h : m.At u θ) (ho : m.Orderly) : m.result? u = none := by
  obtain ⟨s, hs, hn⟩ := h.result ho
  rw [result?_eq, hs]
  exact hn

/-- The running task leaves its last place when it ends. -/
theorem Goes.count_self (hg : Goes { m with running := none } t θ log m') (ho : m.Orderly)
    (hpl : m.Placed) (hr : m.running = some (t, θ)) (ho' : m'.Orderly) (hres : m'.result? t ≠ none) :
    m'.whereabouts.count t = 0 := by
  obtain ⟨_, θ', _, hat⟩ | ⟨o, s, hover, _⟩ := hg.at_self ho hr
  · exact absurd (hat.result?_eq_none ho') hres
  · have hf : Free { m with running := none } t := (ho.running t θ hr).congr rfl rfl
    have hcount := count_of_running hr t
    have hone := hpl.le_one t
    rw [List.count_singleton_self] at hcount
    cases hg with
    | turns ht => cases hover <;> cases ht
    | ends _ =>
      rw [count_finish hf]
      omega
    | _ => cases hover

/-- A task that is not the one that moves has ended before. -/
theorem Goes.result?_of_ne (hg : Goes { m with running := none } t θ log m') (ho : m.Orderly)
    (ho' : m'.Orderly) (hut : u ≠ t) (hres : m'.result? u ≠ none) :
    u < m.tasks.size ∧ m.result? u ≠ none := by
  have hlt' : u < m'.tasks.size := by
    obtain ⟨o, ho⟩ := Option.ne_none_iff_exists'.1 hres
    rw [result?_eq] at ho
    obtain ⟨s, hs, _⟩ := Option.bind_eq_some_iff.1 ho
    exact stand_lt hs
  rcases hg.lt_or_ready ho.idle hlt' with hlt | ⟨⟨θ', hat⟩, _⟩
  · refine ⟨hlt, ?_⟩
    have hs : m.stand u = some m.tasks[u].stand := stand_eq (Array.getElem?_eq_getElem hlt)
    have hs' := hg.stand_of_ne ho.idle (Ne.symm hut) hs
    rwa [result?_eq, hs', ← hs, ← result?_eq] at hres
  · exact absurd (hat.result?_eq_none ho') hres

/-- Whoever has ended stays nowhere, whatever move is made. -/
theorem Vacant.change (h : m.Vacant) (ho : m.Orderly) (hpl : m.Placed) (hc : m.Change log m') :
    m'.Vacant := by
  intro u hres
  have ho' := ho.change hc
  have hcount := hc.count ho hpl.distinct u
  cases hc with
  | @goes t θ _ _ hr hg =>
    by_cases hut : u = t
    · subst hut
      exact hg.count_self ho hpl hr ho' hres
    · obtain ⟨hlt, hold⟩ := hg.result?_of_ne ho ho' hut hres
      have hroom : m'.room u ≤ 1 := by
        unfold room
        split <;> omega
      have hroom₀ : m.room u = 1 := if_pos hlt
      have hnone := h u hold
      omega
  | @take t _ _ ready _ _ _ =>
    rw [result?_cellOf, cellOf_resume] at hres
    have hnone := h u (by rwa [result?_cellOf])
    obtain ⟨tasks, running, he, hsize⟩ := resume_eq { m with ready } t
    have hroom : (resume { m with ready } t).room u = m.room u := by
      rw [he, room, room, hsize]
    omega
  | read a _ _ =>
    have hnone := h u hres
    have hroom : ∀ reading t θ, (run { m with reading } t θ).room u = m.room u := fun _ _ _ => rfl
    rw [hroom] at hcount
    omega

theorem Vacant.addTask (h : m.Vacant) (origin : Option Location) (job : Job) :
    (m.addTask origin job).2.Vacant := by
  intro u hres
  rw [result?_cellOf, cellOf_addTask, ← result?_cellOf] at hres
  have hlt : u ≠ m.tasks.size := by
    rintro rfl
    rw [result?, Array.getElem?_eq_none (Nat.le_refl _)] at hres
    exact hres rfl
  have hnone := h u hres
  rw [count_addTask, hnone, Nat.zero_add, List.count_eq_zero]
  simpa using hlt

/-- No task is lost, and whoever has ended is nowhere. -/
theorem Unfolds.wakeful (h : Unfolds J m) : m.Wakeful ∧ m.Vacant := by
  induction h with
  | start settings world =>
    refine ⟨wakeful_new rfl rfl, fun u hres => absurd ?_ hres⟩
    simp [result?, Session.start]
  | hosts _ hh ih =>
    cases hh with
    | starts job => exact ⟨ih.1.still (still_addTask _ none job), ih.2.addTask none job⟩
    | opens body => exact ⟨ih.1.still (still_between _ _ _ _), ih.2⟩
    | declares name v => exact ⟨ih.1.still (still_between _ _ _ _), ih.2⟩
    | notes notes => exact ⟨ih.1.still (still_between _ _ _ _), ih.2⟩
  | tells hprev ht ih =>
    obtain ⟨log, hc⟩ := ht.change
    obtain ⟨ho, hpl⟩ := hprev.orderly
    exact ⟨ih.1.change ho hpl hc, ih.2.change ho hpl hc⟩

/-! ## When all have ended -/

/-- When all tasks have ended, none is anywhere. -/
theorem Vacant.whereabouts_eq_nil (h : m.Vacant) (hpl : m.Placed) (he : m.Ended) :
    m.whereabouts = [] := by
  refine List.eq_nil_iff_forall_not_mem.2 fun u hu => ?_
  have hpos := List.count_pos_iff.2 hu
  have hroom := hpl.once u
  have hlt : u < m.tasks.size := by
    unfold room at hroom
    split at hroom
    · assumption
    · omega
  have hnone := h u (Option.isSome_iff_ne_none.1 (he u hlt))
  omega

theorem Ended.not_at (he : m.Ended) (ho : m.Orderly) : ¬ m.At u θ := by
  intro hat
  obtain ⟨s, hs, _⟩ := hat.result ho
  have hsome := he u (stand_lt hs)
  rw [hat.result?_eq_none ho] at hsome
  cases hsome

/-- Nobody is at the cell of a task when all have ended. -/
theorem Wakeful.quiet {task : Task} (h : m.Wakeful) (ho : m.Orderly) (he : m.Ended)
    (hu : m.tasks[u]? = some task) (hnone : task.cell.waiting = []) : task.cell.Quiet := by
  have hended := he.result hu
  have hholder : task.cell.holder = none := by
    cases hh : task.cell.holder with
    | none => rfl
    | some r =>
      cases h.turn u r (cellOf_eq hu ▸ hh) with
      | up ha _ =>
        obtain ⟨k, ks, hat⟩ := ha
        exact absurd hat (he.not_at ho)
      | joins hj => exact absurd (cellOf_eq hu ▸ hj.result) hended
  refine ⟨hholder, hnone, hended, ?_⟩
  have hsound := ho.sound u task hu
  cases hout : task.cell.outcome with
  | some o => exact .inl (hsound.outcome o hout).symm
  | none =>
    refine .inr ⟨rfl, ?_⟩
    cases hj : task.cell.joined with
    | none => rfl
    | some r => exact nomatch hholder.symm.trans (hsound.joined hout r hj)

/-- When all tasks have ended, nothing is left to be done. -/
theorem Unfolds.atRest (h : Unfolds J m) (he : m.Ended) : m.AtRest := by
  obtain ⟨ho, hpl⟩ := h.orderly
  obtain ⟨hwakeful, hvacant⟩ := h.wakeful
  have hnone := hvacant.whereabouts_eq_nil hpl he
  have hplaces := fun u => count_whereabouts m u
  simp only [hnone, List.count_nil] at hplaces
  have hready : m.ready.toList = [] := by
    refine List.eq_nil_iff_forall_not_mem.2 fun u hu => ?_
    have hpos := List.count_pos_iff.2 hu
    have := hplaces u
    omega
  refine ⟨he.running ho, hready, he.reading ho, fun u task hu => ⟨he.aside ho hu, ?_⟩, fun s hs => ?_⟩
  · refine hwakeful.quiet ho he hu (List.eq_nil_iff_forall_not_mem.2 fun r hr => ?_)
    have hin : r ∈ (m.cellOf u).attending := cellOf_eq hu ▸ List.mem_append_left _ hr
    obtain ⟨k, ks, hat⟩ := hwakeful.asks u r hin
    exact he.not_at ho hat
  · constructor
    · have hshelf := hpl.distinct.shelf?_path hs
      cases hl : s.loader with
      | none => rfl
      | some u =>
        have hloader : m.library.loader? s.path = some u := by rw [Library.loader?, hshelf]; exact hl
        cases h.attended.loader s.path u hloader with
        | loads _ _ hup =>
          rcases hup with ⟨θ, hr⟩ | hr
          · cases (he.running ho).symm.trans hr
          · rw [readers, he.reading ho] at hr
            cases hr
        | seeks hseeks _ =>
          obtain ⟨q, k, ks, _, hat⟩ := hseeks
          exact absurd hat (he.not_at ho)
    · refine List.eq_nil_iff_forall_not_mem.2 fun u hu => ?_
      obtain ⟨p, k, ks, hat⟩ := hwakeful.lines u (List.mem_flatMap.2 ⟨s, hs, hu⟩)
      exact he.not_at ho hat

end Machine

end Concatenative
