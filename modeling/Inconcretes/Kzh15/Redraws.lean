import Inconcretes.Kzh15.Crossing

/-!
# When the redrawing loops can end

`map_labels_to_runnables` redraws a task until it has two runnables, and one of the runnables until it is
another one. `map_inter_task_msgs_to_runnables` redraws the reader until it is not the writer. The loops over
runnables can always end, since a task and a period hold every runnable once, and the second function skips
the periods with less than two runnables (`interTaskExits`). The first function has no such check. Its loop
over tasks can end only when runnables were merged (`exists_two_iff`), and without such a task the
constructor does not go past a label within a task (`not_mapped_of_intraTask`).
-/

namespace KZH15

open Drawing

variable {D : Type}

/-- A read-write label within a task. -/
def Label.IsIntraTask (l : Label) : Prop := l.type = .readWrite ∧ l.mtype ≠ .interTask

instance (l : Label) : Decidable l.IsIntraTask := inferInstanceAs (Decidable (_ ∧ _))

/-- Whenever `map_labels_to_runnables` handles a label within a task, some task has two runnables, and every
such task has another runnable beside the one drawn first. -/
def BenchmarkInstance.IntraTaskExits (b : BenchmarkInstance D) : Prop :=
  ∀ done l rest, b.labels = done ++ l :: rest → l.IsIntraTask →
    (done.foldlM (mapLabel b.tasks) (b.runnables, [])).Yields fun s =>
      (∃ t ∈ b.tasks, 2 ≤ t.runnables.length)
        ∧ ∀ t ∈ b.tasks, 2 ≤ t.runnables.length → ∀ r1 ∈ t.runnables,
          ∃ r2 ∈ t.runnables, idAt s.1 r1 ≠ idAt s.1 r2

/-- Whenever `map_inter_task_msgs_to_runnables` has drawn the writer of a label, some runnable of the other
period is not the writer. -/
def BenchmarkInstance.InterTaskExits (cfg : Config D) (b : BenchmarkInstance D) : Prop :=
  (assignVolumeTypes cfg.msgsCfg.interTaskMsgsCfg b.labels : Drawing D (List Label)).Yields fun typed =>
    ∀ reverse, reverseDist cfg = some reverse → ∀ done l rest, typed = done ++ l :: rest → l.IsInterTask →
      (done.foldlM (mapInterTaskMsg reverse (periodToRunnables b.runnables)) (b.runnables, [], ∅)).Yields
        fun s => ∀ p ∈ reverse.getD l.mvtype [], ∀ senders receivers,
          (periodToRunnables b.runnables)[p.min]? = some senders →
          (periodToRunnables b.runnables)[p.max]? = some receivers →
          ¬(p.min = p.max ∧ senders.length < 2) → ∀ r1 ∈ senders,
          ∃ r2 ∈ receivers, idAt s.1 r1 ≠ idAt s.1 r2

/-! ## Labels between tasks -/

theorem skeleton_mapInterTaskMsg {reverse : Std.TreeMap MessageVolumeType (List (Range ℤ))}
    {pToR : Std.TreeMap ℤ (List ℕ)} {rs : List (Runnable D)} {ls : List Label} {deleted : Std.TreeSet ℤ}
    {l : Label} :
    (mapInterTaskMsg reverse pToR (rs, ls, deleted) l).Yields fun s => skeleton s.1 = skeleton rs := by
  unfold mapInterTaskMsg
  dsimp only
  split_ifs
  · refine (yields_any _).bind fun p _ => ?_
    split
    · split_ifs
      · exact yields_pure rfl
      · exact (yields_any _).bind fun r1 _ => (yields_any _).bind fun r2 _ =>
          yields_pure ((skeleton_addLabel ..).trans (skeleton_addLabel ..))
    · exact yields_pure rfl
  · exact yields_pure rfl

/-- Unless both periods are the same and have one runnable, there is a reader for each writer. -/
theorem exists_receiver {runnables : List (Runnable D)} {p : Range ℤ} {senders receivers : List ℕ}
    (hsenders : (periodToRunnables runnables)[p.min]? = some senders)
    (hreceivers : (periodToRunnables runnables)[p.max]? = some receivers)
    (hskip : ¬(p.min = p.max ∧ senders.length < 2)) {r1 : ℕ} (hr1 : r1 ∈ senders) :
    ∃ r2 ∈ receivers, r2 ≠ r1 := by
  obtain ⟨rfl, -⟩ := periodToRunnables_eq_some_iff.mp hsenders
  obtain ⟨rfl, hnonempty⟩ := periodToRunnables_eq_some_iff.mp hreceivers
  by_cases hp : p.min = p.max
  · rw [← hp]
    exact exists_mem_ne (nodup_pointersOf runnables p.min) (not_lt.mp fun hlt => hskip ⟨hp, hlt⟩) hr1
  · obtain ⟨r2, hr2⟩ := List.exists_mem_of_ne_nil _ hnonempty
    refine ⟨r2, hr2, fun heq => hp ?_⟩
    rw [heq] at hr2
    exact Option.some.inj ((mem_pointersOf.mp hr1).symm.trans (mem_pointersOf.mp hr2))

theorem interTaskExits (cfg : Config D) {b : BenchmarkInstance D} (h : b.MappedWithinTasks cfg) :
    b.InterTaskExits cfg := by
  refine (yields_any _).mono fun typed _ reverse _ done l rest _ _ => ?_
  refine (yields_foldlM (fun _ s => skeleton s.1 = skeleton b.runnables) rfl ?_).mono ?_
  · rintro done' l' rest' ⟨rs, ls, deleted⟩ - hskeleton
    exact skeleton_mapInterTaskMsg.mono fun s hs => hs.trans hskeleton
  · intro s hskeleton p _ senders receivers hsenders hreceivers hskip r1 hr1
    obtain ⟨r2, hr2, hne⟩ := exists_receiver hsenders hreceivers hskip hr1
    exact ⟨r2, hr2, idAt_ne h.numbered hskeleton (lt_of_mem_periodToRunnables hsenders hr1)
      (lt_of_mem_periodToRunnables hreceivers hr2) hne.symm⟩

/-! ## Labels within a task -/

theorem length_mapLabel {tasks : List (Task D)} {rs : List (Runnable D)} {ls : List Label} {l : Label} :
    (mapLabel tasks (rs, ls) l).Yields fun s => s.1.length = rs.length := by
  have hlength : ∀ ptr ptr' a a', (addLabel (addLabel rs ptr l.id a) ptr' l.id a').length = rs.length :=
    fun ptr ptr' a a' => (length_addLabel ..).trans (length_addLabel ..)
  unfold mapLabel
  dsimp only
  split
  · exact (yields_any _).bind fun r _ => yields_pure (length_addLabel ..)
  · exact (yields_any _).bind fun r _ => yields_pure (length_addLabel ..)
  · exact yields_pure rfl
  · refine (yields_any _).bind fun t _ => (yields_any _).bind fun r1 _ => (yields_any _).bind fun r2 _ => ?_
    split_ifs <;> exact yields_pure (hlength ..)

/-- Without runnables no read-only and no write-only label is mapped. -/
theorem readWrite_of_no_runnables {tasks : List (Task D)} {ls : List Label} {l : Label} :
    (mapLabel tasks ([], ls) l).Yields fun _ => l.type = .readWrite := by
  unfold mapLabel
  dsimp only
  split
  · exact yields_pick.bind fun r hr => absurd hr List.not_mem_nil
  · exact yields_pick.bind fun r hr => absurd hr List.not_mem_nil
  · exact yields_pure ‹_›
  · exact (yields_any _).mono fun _ _ => ‹_›

/-- Without a task of two runnables no label within a task is mapped. -/
theorem not_intraTask_of_no_task {tasks : List (Task D)} (hnone : ¬∃ t ∈ tasks, 2 ≤ t.runnables.length)
    {rs : List (Runnable D)} {ls : List Label} {l : Label} :
    (mapLabel tasks (rs, ls) l).Yields fun _ => ¬l.IsIntraTask := by
  unfold mapLabel
  dsimp only
  split
  · rename_i htype
    exact (yields_any _).mono fun _ _ h => absurd (htype.symm.trans h.1) (by decide)
  · rename_i htype
    exact (yields_any _).mono fun _ _ h => absurd (htype.symm.trans h.1) (by decide)
  · rename_i htype hmtype
    exact (yields_any _).mono fun _ _ h => h.2 hmtype
  · exact yields_pickUntil.bind fun t ht => absurd ⟨t, ht.1, of_decide_eq_true ht.2⟩ hnone

/-- Without a task of two runnables the labels are never mapped when one of them is within a task. -/
theorem not_mapped_of_intraTask {b : BenchmarkInstance D} (hnone : ¬∃ t ∈ b.tasks, 2 ≤ t.runnables.length)
    {l : Label} (hl : l ∈ b.labels) (hintra : l.IsIntraTask) (draws : Draws D) :
    b.mapLabels draws = none := by
  suffices h : b.mapLabels.Yields fun _ => False by
    cases hrun : b.mapLabels draws with
    | none => rfl
    | some r => exact (h draws r hrun).elim
  refine (yields_foldlM (fun done _ => ∀ l ∈ done, ¬l.IsIntraTask) nofun ?_).bind fun s hs =>
    absurd hintra (hs l hl)
  rintro done l' rest ⟨rs, ls⟩ - hdone
  exact (not_intraTask_of_no_task hnone).mono fun s hs =>
    List.forall_mem_append.mpr ⟨hdone, List.forall_mem_singleton.mpr hs⟩

/-- A label that is not within a task can be mapped when there is a runnable for it. -/
theorem allows_mapLabel {tasks : List (Task D)} {rs : List (Runnable D)} {ls : List Label} {l : Label}
    (hl : ¬l.IsIntraTask) (hrs : l.type ≠ .readWrite → rs ≠ []) :
    (mapLabel tasks (rs, ls) l).Allows fun s => s.1.length = rs.length := by
  have hpick : l.type ≠ .readWrite → (pick (List.range rs.length) : Drawing D ℕ).Allows (· = 0) :=
    fun htype =>
    allows_pick (List.mem_range.mpr (List.length_pos_iff.mpr (hrs htype)))
  unfold mapLabel
  dsimp only
  split
  · rename_i htype
    exact (hpick (by rw [htype]; decide)).bind fun r _ => allows_pure (length_addLabel ..)
  · rename_i htype
    exact (hpick (by rw [htype]; decide)).bind fun r _ => allows_pure (length_addLabel ..)
  · exact allows_pure rfl
  · rename_i htype hmtype
    exact absurd ⟨htype, hmtype⟩ hl

/-- The first label within a task. -/
theorem exists_first_intraTask {labels : List Label} {l : Label} (hl : l ∈ labels) (hintra : l.IsIntraTask) :
    ∃ done l rest, labels = done ++ l :: rest ∧ l.IsIntraTask ∧ ∀ l' ∈ done, ¬l'.IsIntraTask := by
  have hsome : (labels.find? fun l => l.IsIntraTask).isSome :=
    List.find?_isSome.mpr ⟨l, hl, decide_eq_true hintra⟩
  obtain ⟨l₁, hfind⟩ := Option.isSome_iff_exists.mp hsome
  obtain ⟨hfirst, done, rest, hsplit, hnone⟩ := List.find?_eq_some_iff_append.mp hfind
  exact ⟨done, l₁, rest, hsplit, of_decide_eq_true hfirst, fun l' hl' => by simpa using hnone l' hl'⟩

/-- No label within a task is reached without runnables behind a read-only or a write-only one. -/
def ReachesNone (runnables : List (Runnable D)) (labels : List Label) : Prop :=
  runnables = []
    ∧ ∀ done l rest, labels = done ++ l :: rest → l.IsIntraTask → ∃ l' ∈ done, l'.type ≠ .readWrite

/-- The first label within a task is reached by some draws, unless none is reached. -/
theorem allows_first {tasks : List (Task D)} {runnables : List (Runnable D)} {labels done rest : List Label}
    {l : Label} (hsplit : labels = done ++ l :: rest) (hfirst : ∀ l' ∈ done, ¬l'.IsIntraTask)
    (hreached : ¬ReachesNone runnables labels) :
    (done.foldlM (mapLabel tasks) (runnables, [])).Allows fun s => s.1.length = runnables.length := by
  have hrunnables : ∀ l' ∈ done, l'.type ≠ .readWrite → runnables ≠ [] := by
    rintro l' hl' htype rfl
    refine hreached ⟨rfl, fun done' l'' rest' hsplit' hintra => ?_⟩
    rcases List.append_eq_append_iff.mp (hsplit.symm.trans hsplit') with ⟨xs, rfl, -⟩ | ⟨xs, rfl, hrest⟩
    · exact ⟨l', List.mem_append_left xs hl', htype⟩
    · -- the label would stand before the first one, or is this one
      cases xs with
      | nil => exact ⟨l', by simpa using hl', htype⟩
      | cons x xs =>
        obtain rfl := (List.cons.inj hrest).1
        exact absurd hintra (hfirst _ (by simp))
  refine allows_foldlM (fun _ (s : List (Runnable D) × List Label) => s.1.length = runnables.length) rfl ?_
  rintro done' l' rest' ⟨rs, ls⟩ hdone hlength
  have hl' : l' ∈ done := by simp [hdone]
  have hrs : l'.type ≠ .readWrite → rs ≠ [] := fun htype =>
    List.length_pos_iff.mp (hlength ▸ List.length_pos_iff.mpr (hrunnables l' hl' htype))
  exact (allows_mapLabel (hfirst l' hl') hrs).mono fun s hs => hs.trans hlength

section Exits

variable [Floating D] [DecidableLE D]

/-- A task with two runnables has another one beside each, after any labels. -/
theorem exists_second {cfg : Config D} {mergeRunnables : Bool} {b : BenchmarkInstance D}
    (h : b.Generated cfg mergeRunnables) {done : List Label} (hdone : ∀ l ∈ done, l.Unplaced) :
    (done.foldlM (mapLabel b.tasks) (b.runnables, [])).Yields fun s =>
      ∀ t ∈ b.tasks, 2 ≤ t.runnables.length → ∀ r1 ∈ t.runnables,
        ∃ r2 ∈ t.runnables, idAt s.1 r1 ≠ idAt s.1 r2 := by
  refine (yields_mapLabelsToRunnables (recorded_of_unplaced h.empty hdone) h.numbered hdone
    fun t ht ptr => h.lt_length ht).mono ?_
  rintro s ⟨-, hskeleton, -⟩ t ht htwo r1 hr1
  obtain ⟨r2, hr2, hne⟩ := exists_mem_ne (nodup_of_mem_task (h.tasks_eq ▸ ht)) htwo hr1
  exact ⟨r2, hr2, idAt_ne h.numbered hskeleton (h.lt_length ht hr1) (h.lt_length ht hr2) hne.symm⟩

/-- **Redrawing.** The loops of the generator can end wherever its runs enter them if and only if there is no
label within a task, or runnables are merged and two that fit together are, or none of these labels is
reached. -/
theorem retryLoopsExit_iff [DecidableLT D] (cfg : Config D) (mergeRunnables : Bool) (mtype : MessageType)
    (draws rest : Draws D) (b : BenchmarkInstance D)
    (hreached : BenchmarkInstance.generated cfg mergeRunnables mtype draws = some (b, rest)) :
    (b.IntraTaskExits ∧ b.mapLabels.Yields (BenchmarkInstance.InterTaskExits cfg))
      ↔ (∀ l ∈ b.labels, ¬l.IsIntraTask)
        ∨ (mergeRunnables = true ∧ ∃ p ∈ cfg.periodsMs, FitTogether b.runnables p)
        ∨ ReachesNone b.runnables b.labels := by
  have h := BenchmarkInstance.yields_generated cfg mergeRunnables mtype draws _ hreached
  rw [← exists_two_iff, ← h.tasks_eq]
  constructor
  · rintro ⟨hexits, -⟩
    by_contra hnot
    rw [not_or, not_or] at hnot
    obtain ⟨hintra, htwo, hnone⟩ := hnot
    simp only [not_forall, not_not, exists_prop] at hintra
    obtain ⟨l, hl, hl'⟩ := hintra
    obtain ⟨done, l₁, rest₁, hsplit, hl₁, hfirst⟩ := exists_first_intraTask hl hl'
    obtain ⟨s, -, hs, -⟩ := (allows_first hsplit hfirst hnone).and_yields (hexits done l₁ rest₁ hsplit hl₁)
    exact htwo hs
  · intro hcases
    refine ⟨fun done l rest₁ hsplit hintra => ?_, h.yields_mapLabels.mono fun _ h₁ => interTaskExits cfg h₁⟩
    have hdone : ∀ l' ∈ done, l'.Unplaced := fun l' hl' => h.unplaced l' (by simp [hsplit, hl'])
    refine Yields.and ?_ (exists_second h hdone)
    rcases hcases with hnone | htwo | ⟨hempty, hnone⟩
    · exact absurd hintra (hnone l (by simp [hsplit]))
    · exact (yields_any _).mono fun _ _ => htwo
    · obtain ⟨l', hl', htype⟩ := hnone done l rest₁ hsplit hintra
      rw [hempty]
      refine (yields_foldlM (fun done s => s.1 = [] ∧ ∀ l' ∈ done, l'.type = .readWrite) ⟨rfl, nofun⟩ ?_).mono
        fun s hs => absurd (hs.2 l' hl') htype
      rintro done' l'' rest' ⟨rs, ls⟩ - ⟨rfl, hall⟩
      refine (length_mapLabel.and readWrite_of_no_runnables).mono fun s hs => ⟨?_, ?_⟩
      · exact List.length_eq_zero_iff.mp hs.1
      · exact List.forall_mem_append.mpr ⟨hall, List.forall_mem_singleton.mpr hs.2⟩

end Exits

/-- The configuration with labels within tasks. -/
def tenMsWithin : Config ℚ :=
  { tenMs with msgsCfg := { tenMs.msgsCfg with typePartition := .insert ∅ .intraTaskFwd 100 } }

/-- Two of the merged runnables fit together. -/
theorem retryLoopsExit_iff_tenMs : ∃ b rest,
    BenchmarkInstance.generated tenMsWithin true .interTask tenMsDraws = some (b, rest)
      ∧ (∃ l ∈ b.labels, l.IsIntraTask)
      ∧ b.IntraTaskExits ∧ b.mapLabels.Yields (BenchmarkInstance.InterTaskExits tenMsWithin) := by
  have hrun : (BenchmarkInstance.generated tenMsWithin true .interTask tenMsDraws).any fun s =>
      s.1.labels.any (fun l => l.IsIntraTask) && s.1.tasks.any fun t => 2 ≤ t.runnables.length := by
    decide +kernel
  obtain ⟨⟨b, rest⟩, hreached, hstate⟩ := (Option.any_eq_true ..).mp hrun
  obtain ⟨hlabels, htasks⟩ := Bool.and_eq_true_iff.mp hstate
  obtain ⟨l, hl, hintra⟩ := List.any_eq_true.mp hlabels
  obtain ⟨t, ht, htwo⟩ := List.any_eq_true.mp htasks
  have h := BenchmarkInstance.yields_generated tenMsWithin true .interTask tenMsDraws _ hreached
  refine ⟨b, rest, hreached, ⟨l, hl, of_decide_eq_true hintra⟩, ?_⟩
  refine (retryLoopsExit_iff tenMsWithin true .interTask tenMsDraws rest b hreached).mpr (Or.inr (Or.inl ?_))
  rw [← exists_two_iff, ← h.tasks_eq]
  exact ⟨t, ht, of_decide_eq_true htwo⟩

/-- Runnables that are not merged, and a label within a task. -/
theorem not_retryLoopsExit_tenMsWithin : ∃ b rest,
    BenchmarkInstance.generated tenMsWithin false .interTask tenMsDraws = some (b, rest)
      ∧ (∀ draws, b.mapLabels draws = none)
      ∧ ¬(b.IntraTaskExits ∧ b.mapLabels.Yields (BenchmarkInstance.InterTaskExits tenMsWithin)) := by
  have hrun : (BenchmarkInstance.generated tenMsWithin false .interTask tenMsDraws).any (fun s =>
      s.1.labels.head?.any (fun l => l.IsIntraTask) && s.1.tasks.all fun t => t.runnables.length < 2) := by
    decide +kernel
  obtain ⟨⟨b, rest⟩, hreached, hstate⟩ := (Option.any_eq_true ..).mp hrun
  obtain ⟨hlabels, htasks⟩ := Bool.and_eq_true_iff.mp hstate
  obtain ⟨l, hhead, hkind⟩ := (Option.any_eq_true ..).mp hlabels
  have hintra : l.IsIntraTask := of_decide_eq_true hkind
  obtain ⟨labels, hsplit⟩ := List.head?_eq_some_iff.mp hhead
  have hnone : ¬∃ t ∈ b.tasks, 2 ≤ t.runnables.length := by
    rintro ⟨t, ht, htwo⟩
    exact not_lt.mpr htwo (of_decide_eq_true (List.all_eq_true.mp htasks t ht))
  refine ⟨b, rest, hreached, not_mapped_of_intraTask hnone (hsplit ▸ List.mem_cons_self) hintra, ?_⟩
  rintro ⟨hexits, -⟩
  exact hnone (hexits [] l labels hsplit hintra ⟨[], []⟩ _ rfl).1

end KZH15
