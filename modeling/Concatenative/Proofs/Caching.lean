import Concatenative.Proofs.Loadings

/-! Modules are loaded once. Whoever the library waits for is at work (`Attended`), so that a loading
that came to nothing keeps no other from reading the file. Main statement: in whatever order loadings of
the same or of different files go on and whatever the files hold by then, the library keeps exactly what
was loaded, whoever asks later is given that, and files are read and built again only after a failure
(`modules_load_once`). -/
namespace Concatenative

namespace Machine

def IsRunning (m : Machine) (u : TaskId) : Prop := ∃ θ, m.running = some (u, θ)

theorem not_isRunning {m : Machine} (h : m.running = none) (u : TaskId) : ¬ m.IsRunning u := by
  rintro ⟨θ, hu⟩
  cases h.symm.trans hu

/-- A task is about to ask for a module. -/
def Seeks (m : Machine) (u : TaskId) (p : Path) : Prop :=
  ∃ q k ks, q.same p ∧ m.At u ⟨.ask (.claim q) k, ks⟩

/-- A task is on the way to load a module, or is loading it. -/
inductive AtWork (m : Machine) (J : Journal) (u : TaskId) (p : Path) : Prop
  | loads {q : Path} : (J.phase u).loads? = some q → q.same p → m.IsRunning u ∨ u ∈ m.readers →
      AtWork m J u p
  | seeks : m.Seeks u p → m.IsRunning u ∨ u ∈ m.ready.toList → AtWork m J u p

/-- Whoever the library waits for is at work. -/
structure Attended (m : Machine) (J : Journal) : Prop where
  line : ∀ p u, m.library.InLine p u → m.Seeks u p
  free : ∀ p u, m.library.loader? p = some u → m.library.body? p = none
  loader : ∀ p u, m.library.loader? p = some u → m.AtWork J u p

variable {m m' : Machine} {J J' : Journal} {w : Provenance} {t u : TaskId} {p : Path} {b : Body}
  {θ θ' : Thread} {e : Entry} {es : List Entry} {log : List Asked}

/-! ## Other tasks -/

theorem mem_ready_wake {woken : Option TaskId} (h : u ∈ m.ready.toList ∨ woken = some u) :
    u ∈ (m.wake woken).ready.toList := by
  cases woken with
  | none => exact h.resolve_right nofun
  | some t =>
    rw [wake, Queue.toList_push, List.mem_append, List.mem_singleton]
    exact h.imp_right fun he => (Option.some.inj he).symm

theorem mem_ready_readCell {target : TaskId} {r : Option Outcome}
    (hr : m.readCell t target = (r, m')) (h : u ∈ m.ready.toList) : u ∈ m'.ready.toList := by
  unfold Machine.readCell at hr
  split at hr
  · cases hr
    exact h
  · cases hr
    exact mem_ready_wake (.inl h)

theorem Serves.mem_ready {q : Request} {a : q.Answer} (hs : m.Serves t q log a m')
    (h : u ∈ m.ready.toList) : u ∈ m'.ready.toList := by
  cases hs with
  | spawn l job =>
    rw [addTask_eq, Queue.toList_push]
    exact List.mem_append_left _ h
  | await hr => exact mem_ready_readCell hr h
  | publish path body =>
    rw [Queue.toList_pushAll]
    exact List.mem_append_left _ h
  | giveUp path => exact mem_ready_wake (.inl h)
  | _ => exact h

theorem Goes.mem_ready (hg : m.Goes t θ log m') (h : u ∈ m.ready.toList) : u ∈ m'.ready.toList := by
  cases hg with
  | turns _ => exact h
  | served hs => exact hs.mem_ready h
  | @awaits _ _ _ m' hr =>
    have hmem : u ∈ m'.ready.toList := mem_ready_readCell hr h
    exact hmem
  | claims _ => exact h
  | givesWay => exact mem_ready_wake (.inl h)
  | reads => exact h
  | ends _ =>
    unfold Machine.finish
    split
    · exact h
    · exact mem_ready_wake (.inl h)

theorem Goes.mem_readers (hg : m.Goes t θ log m') (h : u ∈ m.readers) : u ∈ m'.readers := by
  obtain ⟨r, hr, rfl⟩ := List.mem_map.1 h
  exact List.mem_map.2 ⟨r, hg.mem_reading hr, rfl⟩

/-- The running task is in no line. -/
theorem Placed.not_inLine (h : m.Placed) (hr : m.running = some (t, θ)) :
    ¬ m.library.InLine p t := by
  rintro ⟨s, hs, _, hmem⟩
  have honce := h.once t
  have hroom : m.room t ≤ 1 := by
    unfold room
    split <;> omega
  have hpos : 0 < m.library.waiting.count t :=
    List.count_pos_iff.2 (List.mem_flatMap.2 ⟨s, hs, hmem⟩)
  rw [count_whereabouts, hr] at honce
  simp only [Option.map_some, Option.toList_some, List.count_singleton_self] at honce
  omega

theorem Seeks.of_running (h : m.Seeks u p) (ho : m.Orderly) (hr : m.running = some (u, θ)) :
    ∃ q k ks, q.same p ∧ θ = ⟨.ask (.claim q) k, ks⟩ := by
  obtain ⟨q, k, ks, hq, hat⟩ := h
  exact ⟨q, k, ks, hq, (hat.eq_of_running ho hr).symm⟩

/-- What a task does that moves, if it is at work. -/
theorem AtWork.of_running (h : m.AtWork J t p) (ho : m.Orderly) (hr : m.running = some (t, θ)) :
    (∃ q, (J.phase t).loads? = some q ∧ q.same p) ∨
      ∃ q k ks, q.same p ∧ θ = ⟨.ask (.claim q) k, ks⟩ := by
  cases h with
  | loads hq hsame _ => exact .inl ⟨_, hq, hsame⟩
  | seeks hs _ => exact .inr (hs.of_running ho hr)

section Goes

variable (hg : Goes { m with running := none } t θ log m') (ho : m.Orderly)
  (hr : m.running = some (t, θ))

include hg ho hr

theorem Seeks.other (h : m.Seeks u p) (hu : u ≠ t) : m'.Seeks u p := by
  obtain ⟨q, k, ks, hq, hat⟩ := h
  exact ⟨q, k, ks, hq, hg.at_other ho hr (Ne.symm hu) hat⟩

theorem AtWork.other (h : m.AtWork J u p) (hu : u ≠ t) (hφ : J'.phase u = J.phase u) :
    m'.AtWork J' u p := by
  have hnot : ¬ m.IsRunning u := by
    rintro ⟨θ', hu'⟩
    cases hr.symm.trans hu'
    exact hu rfl
  cases h with
  | loads hq hsame hplace =>
    refine .loads (hφ ▸ hq) hsame (.inr ?_)
    exact hg.mem_readers (hplace.resolve_left hnot)
  | seeks hs hplace =>
    refine .seeks (hs.other hg ho hr hu) (.inr ?_)
    exact hg.mem_ready (hplace.resolve_left hnot)

end Goes

namespace Attended

/-- What is left to show when the running task moves. -/
theorem goes (h : m.Attended J) (ho : m.Orderly) (hpl : m.Placed) (hr : m.running = some (t, θ))
    (hg : Goes { m with running := none } t θ log m') (hJ : ∀ u, u ≠ t → J'.phase u = J.phase u)
    (hline : ∀ p u, m'.library.InLine p u → m.library.InLine p u ∨ m'.Seeks u p)
    (hfree : ∀ p u, m'.library.loader? p = some u → m'.library.body? p = none)
    (hloader : ∀ p u, m'.library.loader? p = some u →
      u ≠ t ∧ m.library.loader? p = some u ∨ m'.AtWork J' u p) : m'.Attended J' := by
  refine ⟨fun p u hu => ?_, hfree, fun p u hu => ?_⟩
  · rcases hline p u hu with hu' | hseeks
    · have hne : u ≠ t := by
        rintro rfl
        exact hpl.not_inLine hr hu'
      exact (h.line p u hu').other hg ho hr hne
    · exact hseeks
  · rcases hloader p u hu with ⟨hne, hu'⟩ | hwork
    · exact (h.loader p u hu').other hg ho hr hne (hJ u hne)
    · exact hwork

/-- The running task moves and leaves the library as it is. -/
theorem unmoved (h : m.Attended J) (ho : m.Orderly) (hpl : m.Placed) (hr : m.running = some (t, θ))
    (hg : Goes { m with running := none } t θ log m') (hJ : ∀ u, u ≠ t → J'.phase u = J.phase u)
    (hl : m'.library = m.library) (hself : ∀ p, m.AtWork J t p → m'.AtWork J' t p) :
    m'.Attended J' := by
  refine h.goes ho hpl hr hg hJ (fun p u hu => .inl (hl ▸ hu)) (fun p u hu => ?_) fun p u hu => ?_
  · rw [hl] at hu ⊢
    exact h.free p u hu
  · rw [hl] at hu
    by_cases hne : u = t
    · subst hne
      exact .inr (hself p (h.loader p u hu))
    · exact .inl ⟨hne, hu⟩

section Serves

variable {q : Request} {a : q.Answer} {k : q.Answer → Act (Except Failure Next)}
  {ks : List (Outcome → Act (Except Failure Next))}

/-- The running task is at work only if it is loading, unless it asks for a module. -/
theorem loads_of_atWork (ho : m.Orderly) (hr : m.running = some (t, ⟨.ask q k, ks⟩))
    (hq : ∀ p, q ≠ .claim p) (h : m.AtWork J t p) :
    ∃ q, (J.phase t).loads? = some q ∧ q.same p := by
  rcases h.of_running ho hr with hloads | ⟨q', k', ks', _, he⟩
  · exact hloads
  · cases he
    exact absurd rfl (hq q')

/-- A request is answered that leaves the library and the loading as they are. -/
theorem quiet (h : m.Attended J) (ho : m.Orderly) (hpl : m.Placed)
    (hr : m.running = some (t, ⟨.ask q k, ks⟩)) (hs : Serves { m with running := none } t q log a m')
    (hq : ∀ p, q ≠ .claim p) (hl : m'.library.loader? = m.library.loader?)
    (hb : m'.library.body? = m.library.body?) (hi : m'.library.InLine = m.library.InLine)
    (hφ : (Journal.phase (.answered t q a :: J) t).loads? = (J.phase t).loads?) :
    (m'.run t ⟨k a, ks⟩).Attended (.answered t q a :: J) := by
  refine h.goes ho hpl hr (.served hs) (fun u hu => Journal.phase_cons_of_ne ?_)
    (fun p u hu => .inl (hi ▸ hu)) (fun p u hu => ?_) fun p u hu => ?_
  · exact fun he => hu (Option.some.inj he).symm
  · rw [run, hb]
    exact h.free p u (hl ▸ hu)
  · rw [run, hl] at hu
    by_cases hut : u = t
    · subst hut
      obtain ⟨q', hq', hsame⟩ := loads_of_atWork ho hr hq (h.loader p u hu)
      exact .inr (.loads (hφ.trans hq') hsame (.inl ⟨_, rfl⟩))
    · exact .inl ⟨hut, hu⟩

end Serves

/-- The task that loads ends the loading; the next in line, if any, is to load. -/
theorem ends_loading {q : Request} {a : q.Answer} {k : q.Answer → Act (Except Failure Next)}
    {ks : List (Outcome → Act (Except Failure Next))} (h : m.Attended J) (ho : m.Orderly)
    (hpl : m.Placed) (hr : m.running = some (t, ⟨.ask q k, ks⟩))
    (hs : Serves { m with running := none } t q log a m') (hq : ∀ p, q ≠ .claim p)
    (hφ : (J.phase t).loads? = some p)
    (hother : ∀ p', ¬ p.same p' → m'.library.loader? p' = m.library.loader? p' ∧
      m'.library.body? p' = m.library.body? p')
    (hself : ∀ p' u, p.same p' → m'.library.loader? p' = some u →
      m'.library.body? p' = none ∧ m.library.InLine p' u ∧ u ∈ m'.ready.toList)
    (hline : ∀ p' u, m'.library.InLine p' u → m.library.InLine p' u) :
    (m'.run t ⟨k a, ks⟩).Attended (.answered t q a :: J) := by
  have hg : Goes { m with running := none } t ⟨.ask q k, ks⟩ log (m'.run t ⟨k a, ks⟩) := .served hs
  refine h.goes ho hpl hr hg (fun u hu => Journal.phase_cons_of_ne ?_)
    (fun p' u hu => .inl (hline p' u hu)) (fun p' u hu => ?_) fun p' u hu => ?_
  · exact fun he => hu (Option.some.inj he).symm
  · by_cases hsame : p.same p'
    · exact (hself p' u hsame hu).1
    · rw [run, (hother p' hsame).2]
      exact h.free p' u ((hother p' hsame).1 ▸ hu)
  · by_cases hsame : p.same p'
    · obtain ⟨_, hin, hready⟩ := hself p' u hsame hu
      have hne : u ≠ t := by
        rintro rfl
        exact hpl.not_inLine hr hin
      exact .inr (.seeks ((h.line p' u hin).other hg ho hr hne) (.inr hready))
    · rw [run, (hother p' hsame).1] at hu
      refine .inl ⟨?_, hu⟩
      rintro rfl
      obtain ⟨q', hq', hsame'⟩ := loads_of_atWork ho hr hq (h.loader p' u hu)
      cases hφ.symm.trans hq'
      exact hsame hsame'

/-- Whatever is answered, whoever the library waits for is at work. -/
theorem serves {q : Request} {a : q.Answer} {k : q.Answer → Act (Except Failure Next)}
    {ks : List (Outcome → Act (Except Failure Next))} (h : m.Attended J) (hp : m.Proper J w)
    (hshelved : m.Shelved J) (ho : m.Orderly) (hpl : m.Placed)
    (hr : m.running = some (t, ⟨.ask q k, ks⟩))
    (hs : Serves { m with running := none } t q log a m') :
    (m'.run t ⟨k a, ks⟩).Attended (.answered t q a :: J) := by
  have hdue := hp.due hr
  have hphase := (hp.running t _ hr).phase_answered a
  have hJ : ∀ u, u ≠ t → Journal.phase (.answered t q a :: J) u = J.phase u := fun u hu =>
    Journal.phase_cons_of_ne fun he => hu (Option.some.inj he).symm
  have hquiet : q.loads = false → m'.library = m.library →
      (m'.run t ⟨k a, ks⟩).Attended (.answered t q a :: J) := by
    intro hq hl
    refine h.quiet ho hpl hr hs ?_ (hl ▸ rfl) (hl ▸ rfl) (hl ▸ rfl) ?_
    · rintro p rfl
      cases hq
    · rw [hphase]
      exact (Phase.next_of_not_loads a hq hdue).1
  -- Who asks for a module is at work for that module only.
  have hseeks : ∀ p' path, q = .claim path → m.AtWork J t p' → path.same p' := by
    rintro p' path rfl hwork
    rcases hwork.of_running ho hr with ⟨q', hq', _⟩ | ⟨q', k', ks', hsame, he⟩
    · rw [show J.phase t = .outside from hdue] at hq'
      cases hq'
    · cases he
      exact hsame
  have hs₀ := hs
  cases hs with
  | await hread =>
    obtain ⟨tasks, ready, rfl⟩ := readCell_eq hread
    exact hquiet rfl rfl
  | @cached path library body hc =>
    obtain ⟨rfl, hb⟩ := Library.claim_cached hc
    refine h.goes ho hpl hr (.served hs₀) hJ (fun _ _ => .inl) h.free fun p' u hu => .inl ⟨?_, hu⟩
    rintro rfl
    have hsame := hseeks p' path rfl (h.loader p' u hu)
    have hnone := h.free p' u hu
    rw [← Library.body?_congr hsame] at hnone
    cases hnone.symm.trans hb
  | @granted path library hc =>
    have hgrants := Library.claim_granted hc
    refine h.goes ho hpl hr (.served hs₀) hJ (fun p' u hu => .inl (hgrants.line p' u hu))
      (fun p' u hu => ?_) fun p' u hu => ?_
    · rw [run, hgrants.bodies]
      by_cases hsame : path.same p'
      · rw [← Library.body?_congr hsame]
        exact hgrants.body
      · exact h.free p' u ((hgrants.others p' hsame).symm.trans hu)
    · by_cases hsame : path.same p'
      · have hut : t = u := by
          have hloads := hgrants.loads
          rw [Library.loader?_congr hsame] at hloads
          exact Option.some.inj (hloads.symm.trans hu)
        subst hut
        exact .inr (.loads (by rw [hphase]; rfl) hsame (.inl ⟨_, rfl⟩))
      · have hu' := (hgrants.others p' hsame).symm.trans hu
        refine .inl ⟨?_, hu'⟩
        rintro rfl
        exact hsame (hseeks p' path rfl (h.loader p' u hu'))
  | countParse =>
    obtain ⟨p, text, hφ⟩ := hdue
    refine h.quiet ho hpl hr hs₀ (fun _ he => by cases he) rfl rfl rfl ?_
    rw [hphase, hφ]
    rfl
  | publish path body =>
    obtain ⟨text, strict, hφ, _⟩ := hdue
    refine h.ends_loading ho hpl hr hs₀ (fun _ he => by cases he) (by rw [hφ]; rfl) (fun p' hp' => ?_)
      (fun p' u hp' hu => ?_) fun p' u => Library.inLine_publish
    · exact ⟨Library.loader?_publish_other hp', Library.body?_publish_other hp'⟩
    · cases (Library.loader?_publish_same hp').symm.trans hu
  | giveUp path =>
    have hloads : (J.phase t).loads? = some path := Request.loads_of_giveUp hdue
    refine h.ends_loading ho hpl hr hs₀ (fun _ he => by cases he) hloads (fun p' hp' => ?_) (fun p' u hp' hu => ?_)
      fun p' u hu => ?_
    · rw [wake_library]
      exact ⟨Library.loader?_giveUp_other hp', Library.body?_giveUp path p'⟩
    · rw [wake_library] at hu ⊢
      have hnext : (m.library.giveUp path).2 = some u :=
        (Library.loader?_giveUp_same hp').symm.trans hu
      refine ⟨?_, ?_, mem_ready_wake (.inr hnext)⟩
      · rw [Library.body?_giveUp, ← Library.body?_congr hp']
        exact (hshelved.loading t path hloads).1
      · exact (Library.inLine_of_giveUp hnext).congr hp'
    · rw [wake_library] at hu
      exact Library.inLine_giveUp hu
  | _ => exact hquiet rfl rfl

/-- The running task waits, gives way or ends. -/
theorem rests (h : m.Attended J) (hp : m.Proper J w) (ho : m.Orderly) (hpl : m.Placed)
    (hr : m.running = some (t, θ)) (hg : Goes { m with running := none } t θ log m')
    (hm' : m'.running = none) : m'.Attended J := by
  have hθ := hp.running t θ hr
  have hJ : ∀ u, u ≠ t → J.phase u = J.phase u := fun _ _ => rfl
  -- A task that rests is not at work, unless it reads.
  have hidle : (J.phase t).loads? = none → (∀ q k ks, θ ≠ ⟨.ask (.claim q) k, ks⟩) →
      m'.library = m.library → m'.Attended J := by
    intro hφ hne hl
    refine h.unmoved ho hpl hr hg hJ hl fun p hwork => ?_
    rcases hwork.of_running ho hr with ⟨q, hq, _⟩ | ⟨q, k, ks, _, he⟩
    · cases hφ.symm.trans hq
    · exact absurd he (hne q k ks)
  have hg₀ := hg
  cases hg with
  | turns _ => cases hm'
  | served _ => cases hm'
  | awaits hread =>
    refine hidle (hp.due hr) (fun _ _ _ => by simp) ?_
    obtain ⟨tasks, ready, rfl⟩ := readCell_eq hread
    rfl
  | @claims path k ks library hc =>
    have hw := Library.claim_wait hc
    have hφ : J.phase t = .outside := hp.due hr
    refine h.goes ho hpl hr hg₀ hJ (fun p u hu => ?_) (fun p u hu => ?_) fun p u hu => ?_
    · rcases hw.line p u hu with hu | ⟨hsame, rfl⟩
      · exact .inl hu
      · obtain ⟨_, task, ht, _⟩ := ho.running u _ hr
        refine .inr ⟨path, k, ks, hsame, .aside (s := { task.stand with thread := some _ }) ?_ rfl⟩
        rw [stand_suspend, if_pos rfl]
        exact congrArg _ (stand_eq ht)
    · exact (hw.bodies p).trans (h.free p u ((hw.loaders p).symm.trans hu))
    · have hu' : m.library.loader? p = some u := (hw.loaders p).symm.trans hu
      refine .inl ⟨?_, hu'⟩
      rintro rfl
      -- It would be told to load.
      rcases (h.loader p u hu').of_running ho hr with ⟨q, hq, _⟩ | ⟨q, k', ks', hsame, he⟩
      · rw [hφ] at hq
        cases hq
      · cases he
        obtain ⟨v, hv, hne⟩ := hw.loader
        rw [Library.loader?_congr hsame] at hv
        exact hne (Option.some.inj (hv.symm.trans hu'))
  | givesWay => exact hidle (hp.due hr) (fun _ _ _ => by simp) rfl
  | @reads path k ks =>
    refine h.unmoved ho hpl hr hg₀ hJ rfl fun p hwork => ?_
    rcases hwork.of_running ho hr with ⟨q, hq, hsame⟩ | ⟨q, k, ks, _, he⟩
    · refine .loads hq hsame (.inr (List.mem_map.2 ⟨⟨t, path, fun a => ⟨k a, ks⟩⟩, ?_, rfl⟩))
      exact List.mem_append_right _ (List.mem_singleton.2 rfl)
    · cases he
  | @ends _ o hover =>
    refine hidle (hθ.idle_of_over hover) (fun _ _ _ => ?_) ?_
    · cases hover <;> simp
    · obtain ⟨tasks, ready, he⟩ := finish_eq { m with running := none } t o
      rw [he]

theorem takes {front back : List TaskId} {ready : Queue TaskId} (h : m.Attended J)
    (hr : m.running = none) (hf : m.ready.toList = front ++ t :: back)
    (hb : ready.toList = front ++ back) : (resume { m with ready } t).Attended J := by
  obtain ⟨tasks, running, he, _⟩ := resume_eq { m with ready } t
  have hlib : (resume { m with ready } t).library = m.library := by rw [he]
  have hseeks : ∀ {u p}, m.Seeks u p → (resume { m with ready } t).Seeks u p := by
    rintro u p ⟨q, k, ks, hsame, hat⟩
    exact ⟨q, k, ks, hsame, hat.take hr⟩
  refine ⟨fun p u hu => hseeks (h.line p u (hlib ▸ hu)), fun p u hu => ?_, fun p u hu => ?_⟩
  · rw [hlib] at hu ⊢
    exact h.free p u hu
  · rw [hlib] at hu
    cases h.loader p u hu with
    | loads hq hsame hplace =>
      refine .loads hq hsame (.inr ?_)
      rw [he]
      exact hplace.resolve_left (not_isRunning hr u)
    | seeks hs hplace =>
      refine .seeks (hseeks hs) ?_
      by_cases hut : u = t
      · subst hut
        obtain ⟨q, k, ks, _, hat⟩ := hs
        refine .inl ?_
        cases hat with
        | running hr' => cases hr.symm.trans hr'
        | aside hs hθ => exact ⟨_, running_take hs hθ⟩
      · refine .inr ?_
        rw [he, hb]
        exact mem_of_taken hf (hplace.resolve_left (not_isRunning hr u)) hut

/-- A file is read. -/
theorem reads {r : Reading} {front back : List Reading} (h : m.Attended J) (hp : m.Proper J w)
    (hr : m.running = none) (hm : m.reading = front ++ r :: back) (a : Except ReadFault String) :
    (run { m with reading := front ++ back } r.task (r.resume a)).Attended
      (.answered r.task (.world (.content r.path)) a :: J) := by
  have hmem : r ∈ m.reading := by simp [hm]
  obtain ⟨_, _, _, hθ⟩ := hp.reading r hmem
  have hφ := hp.granted_of_reading hmem
  have hφ' := hθ.phase_answered (q := .world (.content r.path)) a
  have hseeks : ∀ {u p}, m.Seeks u p →
      (run { m with reading := front ++ back } r.task (r.resume a)).Seeks u p := by
    rintro u p ⟨q, k, ks, hsame, hat⟩
    refine ⟨q, k, ks, hsame, ?_⟩
    cases hat with
    | running hr' => cases hr.symm.trans hr'
    | aside hs hθ => exact .aside hs hθ
  refine ⟨fun p u hu => hseeks (h.line p u hu), h.free, fun p u hu => ?_⟩
  cases h.loader p u hu with
  | @loads q hq hsame hplace =>
    by_cases hu' : u = r.task
    · subst hu'
      refine .loads ?_ hsame (.inl ⟨_, rfl⟩)
      rw [← hq, hφ', hφ]
      cases a <;> rfl
    · refine .loads ?_ hsame (.inr ?_)
      · rw [Journal.phase_cons_of_ne (by simpa [Entry.task?] using Ne.symm hu')]
        exact hq
      · obtain ⟨r', hr', rfl⟩ := List.mem_map.1 (hplace.resolve_left (not_isRunning hr u))
        refine List.mem_map.2 ⟨r', mem_of_taken hm hr' ?_, rfl⟩
        rintro rfl
        exact hu' rfl
  | seeks hs hplace => exact .seeks (hseeks hs) (.inr (hplace.resolve_left (not_isRunning hr u)))

theorem tells (h : m.Attended J) (hp : m.Proper J w) (hs : m.Shelved J) (ho : m.Orderly)
    (hpl : m.Placed) (ht : m.Tells es m') : m'.Attended (es ++ J) := by
  cases ht with
  | @turns t θ θ' turn hr hturn =>
    refine h.unmoved ho hpl hr (.turns hturn.turns) (fun u hu => Journal.phase_cons_of_ne ?_) rfl
      fun p hwork => ?_
    · exact fun he => hu (Option.some.inj he).symm
    · rcases hwork.of_running ho hr with ⟨q, hq, _⟩ | ⟨q, k, ks, _, rfl⟩
      · cases ((hp.running t θ hr).idle_of_takes hturn).1.symm.trans hq
      · cases hturn
  | serves hr hserves => exact h.serves hp hs ho hpl hr hserves
  | rests hr hg hm' => exact h.rests hp ho hpl hr hg hm'
  | takes hr hf hb => exact h.takes hr hf hb
  | reads a hr hm => exact h.reads hp hr hm a

/-- What is done from outside is no one's work. -/
theorem hosts (h : m.Attended J) (hh : m.Hosts es m') : m'.Attended (es ++ J) := by
  have hsame : (∀ e ∈ es, e.task? = none) → m'.library = m.library → m'.running = m.running →
      m'.reading = m.reading → (∀ u ∈ m.ready.toList, u ∈ m'.ready.toList) →
      (∀ u s, m.stand u = some s → m'.stand u = some s) → m'.Attended (es ++ J) := by
    intro hes hl hr hread hready hstand
    have hphase : ∀ u, Journal.phase (es ++ J) u = J.phase u := by
      intro u
      rcases hh.one with rfl | ⟨e, rfl⟩
      · rfl
      · exact Journal.phase_cons_of_ne (by simp [hes e (List.mem_singleton.2 rfl)])
    have hseeks : ∀ {u p}, m.Seeks u p → m'.Seeks u p := by
      rintro u p ⟨q, k, ks, hsame, hat⟩
      refine ⟨q, k, ks, hsame, ?_⟩
      cases hat with
      | running hr' => exact .running (hr.trans hr')
      | aside hs hθ => exact .aside (hstand u _ hs) hθ
    have hrun : ∀ u, m.IsRunning u → m'.IsRunning u := fun u => .imp fun θ => (hr.trans ·)
    refine ⟨fun p u hu => hseeks (h.line p u (hl ▸ hu)), fun p u hu => ?_, fun p u hu => ?_⟩
    · rw [hl] at hu ⊢
      exact h.free p u hu
    · cases h.loader p u (hl ▸ hu) with
      | loads hq hsame hplace =>
        exact .loads ((hphase u).symm ▸ hq) hsame (hplace.imp (hrun u) fun h' => by
          rwa [readers, hread])
      | seeks hs hplace => exact .seeks (hseeks hs) (hplace.imp (hrun u) (hready u))
  cases hh with
  | starts job =>
    refine hsame (by simp [Entry.task?]) rfl rfl rfl (fun u hu => ?_) fun u s hu => ?_
    · rw [addTask_eq, Queue.toList_push]
      exact List.mem_append_left _ hu
    · rw [stand_addTask, if_neg (Nat.ne_of_lt (stand_lt hu))]
      exact hu
  | opens body => exact hsame (by simp [Entry.task?]) rfl rfl rfl (fun _ => id) fun _ _ => id
  | declares name v => exact hsame (by simp [Entry.task?]) rfl rfl rfl (fun _ => id) fun _ _ => id
  | notes notes => exact hsame (by simp) rfl rfl rfl (fun _ => id) fun _ _ => id

end Attended

theorem Unfolds.attended (h : Unfolds J m) : m.Attended J := by
  induction h with
  | start settings world =>
    refine ⟨fun p u ⟨s, hs, _⟩ => absurd hs List.not_mem_nil, nofun, nofun⟩
  | hosts _ hh ih => exact ih.hosts hh
  | tells hprev ht ih =>
    exact ih.tells hprev.proper_any hprev.shelved hprev.orderly.1 hprev.orderly.2 ht

end Machine

/-! ## Loading once -/

/-- The file that an entry tells to be read, kept or given up. -/
def Entry.loading? : Entry → Option Path
  | .answered _ (.world (.content p)) _ | .answered _ (.publish p _) _
  | .answered _ (.giveUp p) _ => some p
  | _ => none

/-- Who is told to load a module asks for the file, and for nothing else. -/
theorem Request.Due.of_granted {w : Provenance} {q : Request} {p : Path} (h : q.Due w (.granted p)) :
    q = .world (.content p) := by
  cases q with
  | settings => exact absurd rfl (h p)
  | note n => exact absurd rfl (h p)
  | countParse =>
    obtain ⟨p', text, hφ⟩ := h
    cases hφ
  | publish p' body =>
    obtain ⟨text, strict, hφ, _⟩ := h
    cases hφ
  | giveUp p' =>
    rcases h with hφ | ⟨text, strict, e, hφ, _⟩
    · cases hφ
    · cases hφ
  | world q =>
    cases q with
    | content p' =>
      cases h
      rfl
    | word name x => cases h.1
    | _ => cases h
  | declare f name d => cases h.1.1
  | rebind f name d => cases h.1.1
  | stamp => cases h
  | await u => cases h
  | giveWay => cases h
  | claim p' => cases h
  | _ => cases h.1

namespace Machine

/-- Modules are loaded once, and what was loaded is kept. -/
structure LoadsOnce (m : Machine) (J : Journal) : Prop where
  cached : ∀ p, m.library.isCached p ↔ ∃ b, J.Loaded p b
  kept : ∀ p b, J.Loaded p b → m.library.body? p = some b
  /-- Whoever asks is given what was loaded by then, or is told to load. -/
  claims : ∀ J₂ t p a J₁, J = J₂ ++ .answered t (.claim p) a :: J₁ →
    ∀ b, a = some b ↔ Journal.Loaded J₁ p b
  /-- The next that is told of a task that was told to load is that it reads the file. -/
  reads : ∀ J₂ t p e J₁, J = J₂ ++ e :: J₁ → Journal.phase J₁ t = .granted p → e.task? = some t →
    ∃ a, e = .answered t (.world (.content p)) a
  /-- What was loaded is not read, not kept again and not given up. -/
  settled : ∀ J₂ e p J₁, J = J₂ ++ e :: J₁ → e.loading? = some p → ∀ b, ¬ Journal.Loaded J₁ p b
  /-- No move but the keeping of a body changes what is kept. -/
  unchanged : ∀ es m', m.Tells es m' → (∀ t p b, es ≠ [.answered t (.publish p b) ()]) →
    ∀ p, m'.library.body? p = m.library.body? p
  /-- Texts that were read are counted: those whose bodies are kept, those that could not be built, and
  the one that is being built if there is one. -/
  counted : ∃ ps : List Path, ps.Pairwise (fun p q => ¬ p.same q) ∧
    (∀ p, m.library.isCached p ↔ ∃ q ∈ ps, q.same p) ∧
    m.library.parseCount = ps.length + J.failedBuilds + m.building J
  /-- A module is waited for only while the task goes on that is to load it; -/
  busy : ∀ p u, m.library.loader? p = some u → m.IsRunning u ∨ u ∈ m.readers ∨ u ∈ m.ready.toList
  /-- otherwise whoever asks is answered at once. -/
  answered : ∀ t p k ks, m.running = some (t, ⟨.ask (.claim p) k, ks⟩) →
    (∀ u, m.library.loader? p = some u → u = t) →
    ∃ m', m.Tells [.answered t (.claim p) (m.library.body? p)] m'

variable {m m' : Machine} {J J' : Journal} {w : Provenance} {t : TaskId} {p : Path} {b : Body}
  {e : Entry} {es : List Entry} {log : List Asked}

theorem Tells.body? (h : m.Tells es m') (hes : ∀ t p b, es ≠ [.answered t (.publish p b) ()])
    (p : Path) : m'.library.body? p = m.library.body? p := by
  cases h with
  | turns _ _ => rfl
  | serves _ hs =>
    cases hs with
    | await hread =>
      obtain ⟨tasks, ready, rfl⟩ := readCell_eq hread
      rfl
    | cached hc =>
      obtain ⟨rfl, _⟩ := Library.claim_cached hc
      rfl
    | granted hc => exact (Library.claim_granted hc).bodies p
    | publish path body => exact absurd rfl (hes _ path body)
    | giveUp path =>
      rw [run, wake_library]
      exact Library.body?_giveUp path p
    | _ => rfl
  | @rests t θ _ _ _ hg hm' =>
    cases hg with
    | turns _ => cases hm'
    | served _ => cases hm'
    | awaits hread =>
      obtain ⟨tasks, ready, rfl⟩ := readCell_eq hread
      rfl
    | claims hc => exact (Library.claim_wait hc).bodies p
    | givesWay => rfl
    | reads => rfl
    | @ends _ o _ =>
      obtain ⟨tasks, ready, he⟩ := finish_eq { m with running := none } t o
      rw [he]
  | @takes t _ _ ready _ _ _ =>
    obtain ⟨tasks, running, he, _⟩ := resume_eq { m with ready } t
    rw [he]
  | reads a _ _ => rfl

/-- A task is given what is kept. -/
theorem Tells.answer_claim {a : Option Body} (h : m.Tells [.answered t (.claim p) a] m') :
    a = m.library.body? p := by
  cases h with
  | serves _ hs =>
    cases hs with
    | cached hc => exact (Library.claim_cached hc).2.symm
    | granted hc => exact (Library.claim_granted hc).body.symm

/-- A file is read, kept or given up by the task that loads it. -/
theorem Proper.loads_of_tells (h : m.Proper J w) (ht : m.Tells [e] m') (he : e.loading? = some p) :
    ∃ t, (J.phase t).loads? = some p := by
  cases e with
  | answered t q a =>
    have hdue := h.due_of_tells ht
    refine ⟨t, ?_⟩
    cases q with
    | world q =>
      cases q with
      | content p' =>
        cases he
        rw [show J.phase t = .granted p from hdue]
        rfl
      | _ => cases he
    | publish p' body =>
      cases he
      obtain ⟨text, strict, hφ, _⟩ := hdue
      rw [hφ]
      rfl
    | giveUp p' =>
      cases he
      exact Request.loads_of_giveUp hdue
    | _ => cases he
  | _ => cases he

/-- Who was told to load reads the file. -/
theorem Proper.reads_of_granted (h : m.Proper J w) (ht : m.Tells [e] m') (he : e.task? = some t)
    (hφ : J.phase t = .granted p) : ∃ a, e = .answered t (.world (.content p)) a := by
  cases e with
  | turned u turn =>
    cases he
    cases ht with
    | turns hr hturn =>
      have hidle := ((h.running t _ hr).idle_of_takes hturn).1
      rw [show (J.phases t).headD .outside = .granted p from hφ] at hidle
      cases hidle
  | answered u q a =>
    cases he
    have hdue := h.due_of_tells ht
    rw [hφ] at hdue
    cases hdue.of_granted
    exact ⟨a, rfl⟩
  | _ => cases he

theorem Unfolds.loadsOnce (h : Unfolds J m) : m.LoadsOnce J := by
  have hshelved := h.shelved
  have hdistinct := h.orderly.2.distinct
  refine ⟨fun p => ?_, fun p b => (hshelved.kept p b).2, ?_, ?_, ?_, fun es m' ht hes => ht.body? hes,
    ?_, fun p u hu => ?_, fun t p k ks hr hfree => ?_⟩
  · rw [Library.isCached_eq, Option.isSome_iff_exists]
    exact exists_congr (hshelved.kept p)
  · rintro J₂ t p a J₁ rfl b
    obtain ⟨m₁, m₂, hprev, ht⟩ := h.answered
    rw [ht.answer_claim]
    exact hprev.shelved.kept p b
  · rintro J₂ t p e J₁ rfl hφ he
    obtain ⟨m₁, m₂, hprev, ht⟩ := h.told (by simp [he])
    exact hprev.proper_any.reads_of_granted ht he hφ
  · rintro J₂ e p J₁ rfl he b hloaded
    have htask : e.task? ≠ none := by
      cases e with
      | answered t q a => exact nofun
      | _ => cases he
    obtain ⟨m₁, m₂, hprev, ht⟩ := h.told htask
    obtain ⟨t, hφ⟩ := hprev.proper_any.loads_of_tells ht he
    have hnone := (hprev.shelved.loading t p hφ).1
    cases hnone.symm.trans ((hprev.shelved.kept p b).2 hloaded)
  · exact ⟨m.library.cached, Library.pairwise_cached hdistinct,
      fun p => Library.isCached_iff hdistinct, hshelved.counted⟩
  · cases h.attended.loader p u hu with
    | loads _ _ hplace => exact hplace.imp_right .inl
    | seeks _ hplace => exact hplace.imp_right .inr
  · have hclaim := Library.claim_of_free hfree
    rcases hc : m.library.claim p t with ⟨library, c⟩
    rw [hc] at hclaim
    cases hb : m.library.body? p with
    | some b =>
      rw [hb] at hclaim
      cases hclaim
      exact ⟨_, .serves hr (.cached hc)⟩
    | none =>
      rw [hb] at hclaim
      cases hclaim
      exact ⟨_, .serves hr (.granted hc)⟩

end Machine

open Machine

/-- Modules are loaded once, in every state that a session comes to: at any time while jobs run in any
order and files change, and whatever is loaded next. A loading asks for what `Loading` says. -/
theorem modules_load_once {J : Journal} {s : Session} (h : Unfolds J s.machine) :
    s.machine.LoadsOnce J ∧
    (∀ J' m', s.machine.Recounts J' m' → m'.LoadsOnce (J' ++ J)) ∧
    (∀ path, ∃ J', (s.load path).2.machine.LoadsOnce (J' ++ J)) ∧
    ∀ p τ r, Act.Ends recorded (Evaluation.moduleBody p).run τ r [] ↔ Evaluation.Loading p τ r := by
  refine ⟨h.loadsOnce, fun J' m' hr => (h.recounts hr).loadsOnce, fun path => ?_, fun p τ r => ?_⟩
  · obtain ⟨J', _, h'⟩ := Session.unfolds_load h path
    exact ⟨J', h'.loadsOnce⟩
  · exact Evaluation.ends_moduleBody

/-- A file is loaded that holds two numbers. -/
def loaded : Session :=
  ((Session.start {} { files := { files := [(["m"], "1 2 ,".toUTF8)] } }).load ⟨"/m"⟩).2

/-- It is loaded again when it is not there any more. -/
def reloaded : Session := (Session.load { loaded with world := {} } ⟨"/m"⟩).2

theorem modules_load_once_reloaded :
    ∃ J, Unfolds J reloaded.machine ∧ reloaded.machine.LoadsOnce J ∧
      reloaded.isCached ⟨"/m"⟩ = true ∧ reloaded.parseCount = 1 := by
  obtain ⟨J₁, _, h₁⟩ := Session.unfolds_load (s := Session.start {} _) (.start {} _) ⟨"/m"⟩
  obtain ⟨J₂, _, h₂⟩ := Session.unfolds_load (s := { loaded with world := {} }) h₁ ⟨"/m"⟩
  exact ⟨_, h₂, (modules_load_once (s := reloaded) h₂).1, by decide +kernel, by decide +kernel⟩

end Concatenative
