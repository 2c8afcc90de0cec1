import Inconcretes.Kzh15.Trim

/-!
# The labels of a finished instance

A label between tasks gets a volume type, and then two periods between which messages of this type flow. Its
writer has the first of them and its reader the second, at every step of the loop that maps these labels
(`flows_mapInterTaskMsg`). With what the other steps keep (`yields_wellFormed`), the labels of a finished
instance and the lists of its runnables agree, and each label has the runnables that its kind asks for
(`wellLabelled`).
-/

namespace KZH15

open Drawing OrderedMap

variable {D : Type}

/-! ## Periods of a volume type -/

theorem MessageVolumeType.compare_eq (a b : MessageVolumeType) :
    compare a b = compare a.ctorIdx b.ctorIdx := by
  cases a <;> cases b <;> rfl

instance : Std.TransOrd MessageVolumeType where
  eq_swap {a b} := by
    rw [MessageVolumeType.compare_eq, MessageVolumeType.compare_eq]
    exact Std.OrientedOrd.eq_swap
  isLE_trans {a b c} := by
    rw [MessageVolumeType.compare_eq, MessageVolumeType.compare_eq, MessageVolumeType.compare_eq]
    exact Std.TransOrd.isLE_trans

instance : Std.LawfulEqOrd MessageVolumeType where
  compare_self {a} := by
    rw [MessageVolumeType.compare_eq]
    exact Std.ReflOrd.compare_self
  eq_of_compare {a b} h := by
    rw [MessageVolumeType.compare_eq, Std.LawfulEqOrd.compare_eq_iff_eq] at h
    cases a <;> cases b <;> first | rfl | cases h

/-- `dist[p1][p2]`. -/
def InterTaskMessagesConfig.volumeType (cfg : InterTaskMessagesConfig) (p1 p2 : ℤ) :
    Option MessageVolumeType := do
  let row ← cfg.dist[p1]?
  row[p2]?

/-- The inverted table is a loop over the pairs of periods. -/
theorem reverseDist_eq (cfg : Config D) :
    reverseDist cfg = (cfg.periodsMs ×ˢ cfg.periodsMs).foldlM
      (fun m p => do
        return pushBack m (← cfg.msgsCfg.interTaskMsgsCfg.volumeType p.1 p.2) ⟨p.1, p.2⟩) ∅ := by
  rw [reverseDist]
  congr
  funext m p
  rw [InterTaskMessagesConfig.volumeType]
  exact (Option.bind_assoc ..).symm

/-- The pairs that the inverted table has under a volume type. -/
theorem mem_reverseDist {cfg : Config D} {m : Std.TreeMap MessageVolumeType (List (Range ℤ))}
    (h : reverseDist cfg = some m) {mvtype : MessageVolumeType} {p : Range ℤ} :
    p ∈ m.getD mvtype [] ↔ p.min ∈ cfg.periodsMs ∧ p.max ∈ cfg.periodsMs
      ∧ cfg.msgsCfg.interTaskMsgsCfg.volumeType p.min p.max = some mvtype := by
  rw [reverseDist_eq] at h
  rw [getD_foldlM_pushBack h]
  simp only [List.mem_map, List.mem_filter, List.mem_product, decide_eq_true_eq, Prod.exists]
  constructor
  · rintro ⟨p1, p2, ⟨⟨hp1, hp2⟩, htype⟩, rfl⟩
    exact ⟨hp1, hp2, htype⟩
  · rintro ⟨hp1, hp2, htype⟩
    exact ⟨p.min, p.max, ⟨⟨hp1, hp2⟩, htype⟩, rfl⟩

/-! ## Writer and reader of a label between tasks -/

/-- Messages of the volume type of the label flow from its writer to its reader. -/
def Label.Between (cfg : Config D) (periods : List ℤ) (l : Label) : Prop :=
  ∀ w ∈ l.writers, ∀ r ∈ l.readers, ∃ p1 p2, periods[w]? = some p1 ∧ periods[r]? = some p2
    ∧ cfg.msgsCfg.interTaskMsgsCfg.volumeType p1 p2 = some l.mvtype

/-- A label between tasks with a volume type that was drawn for it. -/
structure Label.Flows (cfg : Config D) (periods : List ℤ) (l : Label) : Prop where
  canDraw : cfg.msgsCfg.interTaskMsgsCfg.CanDraw l.mvtype
  between : l.Between cfg periods

theorem Label.Unplaced.between {l : Label} (h : l.Unplaced) (cfg : Config D) (periods : List ℤ) :
    l.Between cfg periods := by
  intro w hw
  rw [h.2] at hw
  exact absurd hw List.not_mem_nil

theorem mem_pointersOf_of_getElem? {runnables : List (Runnable D)} {p : ℤ} {ptrs : List ℕ}
    (h : (periodToRunnables runnables)[p]? = some ptrs) {ptr : ℕ} (hptr : ptr ∈ ptrs) :
    (runnables.map (·.periodMs))[ptr]? = some p := by
  rw [periodToRunnables_eq h] at hptr
  exact mem_pointersOf.mp hptr

/-- The runnables drawn for a label have the periods drawn for it. -/
theorem Label.Unplaced.between_mapped {cfg : Config D} {runnables : List (Runnable D)} {l : Label}
    (h : l.Unplaced) {p : Range ℤ}
    (hp : cfg.msgsCfg.interTaskMsgsCfg.volumeType p.min p.max = some l.mvtype) {senders receivers : List ℕ}
    (hsenders : (periodToRunnables runnables)[p.min]? = some senders)
    (hreceivers : (periodToRunnables runnables)[p.max]? = some receivers) {r1 r2 : ℕ}
    (hr1 : r1 ∈ senders) (hr2 : r2 ∈ receivers) :
    ((l.addWriter r1).addReader r2).Between cfg (runnables.map (·.periodMs)) := by
  intro w hw r hr
  rw [show ((l.addWriter r1).addReader r2).writers = [r1] from h.writers_addWriter r1] at hw
  rw [show ((l.addWriter r1).addReader r2).readers = [r2] from h.readers_addReader r2] at hr
  obtain rfl := List.mem_singleton.mp hw
  obtain rfl := List.mem_singleton.mp hr
  exact ⟨p.min, p.max, mem_pointersOf_of_getElem? hsenders hr1, mem_pointersOf_of_getElem? hreceivers hr2, hp⟩

theorem flows_mapInterTaskMsg {cfg : Config D} {reverse : Std.TreeMap MessageVolumeType (List (Range ℤ))}
    (hreverse : reverseDist cfg = some reverse) {runnables rs : List (Runnable D)} {ls : List Label}
    {deleted : Std.TreeSet ℤ} {l : Label}
    (hl : l.IsInterTask → l.Unplaced ∧ cfg.msgsCfg.interTaskMsgsCfg.CanDraw l.mvtype)
    (hls : ∀ l ∈ ls, l.IsInterTask → l.Flows cfg (runnables.map (·.periodMs))) :
    (mapInterTaskMsg reverse (periodToRunnables runnables) (rs, ls, deleted) l).Yields fun s =>
      ∀ l ∈ s.2.1, l.IsInterTask → l.Flows cfg (runnables.map (·.periodMs)) := by
  have hpush : ∀ l' : Label, (l'.IsInterTask → l'.Flows cfg (runnables.map (·.periodMs))) →
      ∀ l ∈ ls ++ [l'], l.IsInterTask → l.Flows cfg (runnables.map (·.periodMs)) := fun l' hl' =>
    List.forall_mem_append.mpr ⟨hls, List.forall_mem_singleton.mpr hl'⟩
  have hkept := hpush l fun hinter => ⟨(hl hinter).2, (hl hinter).1.between cfg _⟩
  unfold mapInterTaskMsg
  dsimp only
  by_cases hinter : l.IsInterTask
  · obtain ⟨hunplaced, hdrawn⟩ := hl hinter
    rw [if_pos hinter]
    refine yields_pick.bind fun p hp => ?_
    have htype := ((mem_reverseDist hreverse).mp hp).2.2
    split
    · rename_i senders receivers hsenders hreceivers
      split_ifs
      · exact yields_pure hkept
      · refine yields_pick.bind fun r1 hr1 => yields_pickUntil.bind fun r2 hr2 => yields_pure ?_
        exact hpush _ fun _ => ⟨hdrawn, hunplaced.between_mapped htype hsenders hreceivers hr1 hr2.1⟩
    · exact yields_pure hkept
  · rw [if_neg hinter]
    exact yields_pure hkept

/-- What `map_inter_task_msgs_to_runnables` leaves flows between periods of its volume type. -/
theorem flows_mapInterTaskMsgsToRunnables (cfg : Config D) {runnables : List (Runnable D)}
    {labels : List Label} (hlabels : ∀ l ∈ labels, l.IsInterTask → l.Unplaced) :
    (mapInterTaskMsgsToRunnables cfg runnables labels).Yields fun s =>
      ∀ l ∈ s.2, l.IsInterTask → l.Flows cfg (runnables.map (·.periodMs)) := by
  refine (yields_assignVolumeTypes _ labels).bind fun typed htyped => ?_
  have hunplaced : ∀ l ∈ typed, l.IsInterTask →
      l.Unplaced ∧ cfg.msgsCfg.interTaskMsgsCfg.CanDraw l.mvtype := fun l hl hinter => by
    obtain ⟨l₀, hl₀, hsame, hdrawn⟩ := exists_of_mem_right htyped hl
    rw [hsame] at hinter
    refine ⟨?_, hdrawn hinter⟩
    rw [hsame]
    exact hlabels l₀ hl₀ hinter
  refine (yields_lift fun _ => id).bind fun reverse hreverse => ?_
  refine (yields_foldlM (fun _ s => ∀ l ∈ s.2.1, l.IsInterTask → l.Flows cfg (runnables.map (·.periodMs)))
    nofun ?_).bind fun s hs => yields_pure fun l hl => hs l (List.mem_of_mem_filter hl)
  rintro done l rest ⟨rs, ls, deleted⟩ hsplit hls
  exact flows_mapInterTaskMsg hreverse (hunplaced l (by simp [hsplit])) hls

/-! ## Finished labels -/

theorem BenchmarkInstance.MappedWithinTasks.flows_mapInterTaskMsgs {cfg : Config D} {b : BenchmarkInstance D}
    (h : b.MappedWithinTasks cfg) : (b.mapInterTaskMsgs cfg).Yields fun b' =>
      ∀ l ∈ b'.labels, l.IsInterTask → l.Flows cfg (b.runnables.map (·.periodMs)) := by
  refine (flows_mapInterTaskMsgsToRunnables cfg fun l hl hinter => ?_).bind fun s hs => yields_pure hs
  have hunplaced := h.labels l hl
  rwa [if_pos hinter] at hunplaced

/-- The labels of a finished instance, with the lists of its runnables. -/
structure BenchmarkInstance.WellLabelled (cfg : Config D) (b : BenchmarkInstance D) : Prop where
  nodup_ids : (b.labels.map (·.id)).Nodup
  readOnly : ∀ l ∈ b.labels, l.type = .readOnly → ∃ r, l.readers = [r] ∧ l.writers = []
  writeOnly : ∀ l ∈ b.labels, l.type = .writeOnly → ∃ w, l.readers = [] ∧ l.writers = [w]
  readWrite : ∀ l ∈ b.labels, l.type = .readWrite → ∃ r w, l.readers = [r] ∧ l.writers = [w]
    ∧ idAt b.runnables r ≠ idAt b.runnables w
  /-- A label within a task is written and read in one task, in the order of its kind. -/
  intraTask : ∀ l ∈ b.labels, l.type = .readWrite → l.mtype ≠ .interTask → ∀ r ∈ l.readers, ∀ w ∈ l.writers,
    (∃ t ∈ b.tasks, r ∈ t.runnables ∧ w ∈ t.runnables)
      ∧ if l.mtype = .intraTaskFwd then idAt b.runnables w < idAt b.runnables r
        else idAt b.runnables r < idAt b.runnables w
  /-- Messages of its volume type flow between the periods of a label between tasks. -/
  interTask : ∀ l ∈ b.labels, l.IsInterTask → l.Between cfg (b.runnables.map (·.periodMs))
  /-- The runnables that a label records are there. -/
  recorded_lt : ∀ l ∈ b.labels, ∀ ptr ∈ l.readers ++ l.writers, ptr < b.runnables.length
  /-- A label is in the list of its kind of just the runnables that it records. -/
  mem_held : ∀ l ∈ b.labels, ∀ ptr a, l.id ∈ held b.runnables ptr a ↔
    ptr ∈ l.readers ∧ a = l.readAccess ∨ ptr ∈ l.writers ∧ a = l.writeAccess
  /-- No runnable refers to another label. -/
  held_mem : ∀ ptr a, ∀ lid ∈ held b.runnables ptr a, ∃ l ∈ b.labels, l.id = lid

theorem Label.mem_sites {l : Label} {ptr : ℕ} {a : Access} :
    (ptr, a) ∈ l.sites ↔ ptr ∈ l.readers ∧ a = l.readAccess ∨ ptr ∈ l.writers ∧ a = l.writeAccess := by
  simp only [Label.sites, List.mem_append, List.mem_map, Prod.mk.injEq]
  constructor
  · rintro (⟨r, hr, rfl, rfl⟩ | ⟨w, hw, rfl, rfl⟩)
    · exact Or.inl ⟨hr, rfl⟩
    · exact Or.inr ⟨hw, rfl⟩
  · rintro (⟨hr, rfl⟩ | ⟨hw, rfl⟩)
    · exact Or.inl ⟨ptr, hr, rfl, rfl⟩
    · exact Or.inr ⟨ptr, hw, rfl, rfl⟩

namespace BenchmarkInstance.WellFormed

variable {b : BenchmarkInstance D} (hb : b.WellFormed)

include hb

/-- The runnables of a label have the numbers of their positions. -/
theorem idAt_of_sites {l : Label} (hl : l ∈ b.labels) {ptr : ℕ} {a : Access} (h : (ptr, a) ∈ l.sites) :
    idAt b.runnables ptr = ptr :=
  idAt_of_numbered hb.numbered (hb.lt_of_sites hl h)

theorem idAt_reader {l : Label} (hl : l ∈ b.labels) {r : ℕ} (hr : r ∈ l.readers) : idAt b.runnables r = r :=
  hb.idAt_of_sites hl (Label.mem_sites.mpr (Or.inl ⟨hr, rfl⟩))

theorem idAt_writer {l : Label} (hl : l ∈ b.labels) {w : ℕ} (hw : w ∈ l.writers) : idAt b.runnables w = w :=
  hb.idAt_of_sites hl (Label.mem_sites.mpr (Or.inr ⟨hw, rfl⟩))

theorem wellLabelled {cfg : Config D}
    (hflows : ∀ l ∈ b.labels, l.IsInterTask → l.Flows cfg (b.runnables.map (·.periodMs))) :
    b.WellLabelled cfg where
  nodup_ids := hb.nodup_ids
  readOnly l hl htype := by
    cases hb.placed l hl with
    | readOnly _ r hreaders hwriters => exact ⟨r, hreaders, hwriters⟩
    | writeOnly htype' => exact absurd (htype.symm.trans htype') (by decide)
    | intraTask htype' => exact absurd (htype.symm.trans htype') (by decide)
    | interTask htype' => exact absurd (htype.symm.trans htype') (by decide)
  writeOnly l hl htype := by
    cases hb.placed l hl with
    | readOnly htype' => exact absurd (htype.symm.trans htype') (by decide)
    | writeOnly _ w hreaders hwriters => exact ⟨w, hreaders, hwriters⟩
    | intraTask htype' => exact absurd (htype.symm.trans htype') (by decide)
    | interTask htype' => exact absurd (htype.symm.trans htype') (by decide)
  readWrite l hl htype := by
    obtain ⟨r, w, hreaders, hwriters, hne⟩ : ∃ r w, l.readers = [r] ∧ l.writers = [w] ∧ r ≠ w := by
      cases hb.placed l hl with
      | readOnly htype' => exact absurd (htype.symm.trans htype') (by decide)
      | writeOnly htype' => exact absurd (htype.symm.trans htype') (by decide)
      | intraTask _ _ r w hreaders hwriters horder =>
        refine ⟨r, w, hreaders, hwriters, ?_⟩
        split_ifs at horder
        · exact horder.ne'
        · exact horder.ne
      | interTask _ _ r w hreaders hwriters hne => exact ⟨r, w, hreaders, hwriters, hne⟩
    refine ⟨r, w, hreaders, hwriters, ?_⟩
    rw [hb.idAt_reader hl (hreaders ▸ List.mem_cons_self), hb.idAt_writer hl (hwriters ▸ List.mem_cons_self)]
    exact fun heq => hne (Int.natCast_inj.mp heq)
  intraTask l hl htype hmtype r hr w hw := by
    rw [hb.idAt_reader hl hr, hb.idAt_writer hl hw]
    cases hb.placed l hl with
    | readOnly htype' => exact absurd (htype.symm.trans htype') (by decide)
    | writeOnly htype' => exact absurd (htype.symm.trans htype') (by decide)
    | intraTask _ _ r' w' hreaders hwriters horder t ht hr' hw' =>
      obtain rfl := List.mem_singleton.mp (hreaders ▸ hr)
      obtain rfl := List.mem_singleton.mp (hwriters ▸ hw)
      refine ⟨⟨t, ht, hr', hw'⟩, ?_⟩
      split_ifs at horder ⊢
      · exact Int.ofNat_lt.mpr horder
      · exact Int.ofNat_lt.mpr horder
    | interTask _ hmtype' => exact absurd hmtype' hmtype
  interTask l hl hinter := (hflows l hl hinter).between
  recorded_lt l hl ptr hptr := by
    rcases List.mem_append.mp hptr with hr | hw
    · exact hb.lt_of_sites hl (Label.mem_sites.mpr (Or.inl ⟨hr, rfl⟩))
    · exact hb.lt_of_sites hl (Label.mem_sites.mpr (Or.inr ⟨hw, rfl⟩))
  mem_held l hl ptr a := by
    rw [← Label.mem_sites]
    exact hb.id_mem_held hl
  held_mem ptr a lid hlid := by
    obtain ⟨l, hl, hid, -⟩ := hb.mem_held.mp hlid
    exact ⟨l, hl, hid⟩

end BenchmarkInstance.WellFormed

variable [Floating D] [DecidableLT D] [DecidableLE D]

/-- **Labels.** However the numbers are drawn, the labels of the instance are those that the lists of its
runnables hold, each with the readers and writers of its kind. -/
theorem wellLabelled_of_new (cfg : Config D) (mergeRunnables : Bool) (mtype : MessageType)
    (draws rest : Draws D) (b : BenchmarkInstance D)
    (hnew : BenchmarkInstance.new cfg mergeRunnables mtype draws = some (b, rest)) : b.WellLabelled cfg := by
  suffices h : (BenchmarkInstance.new cfg mergeRunnables mtype).Yields fun b => b.WellLabelled cfg from
    h draws _ hnew
  rw [BenchmarkInstance.new_eq]
  refine (BenchmarkInstance.yields_mappedWithinTasks cfg mergeRunnables mtype).bind fun b₁ h₁ => ?_
  refine (h₁.yields_mapInterTaskMsgs.and h₁.flows_mapInterTaskMsgs).mono ?_
  rintro b ⟨⟨hb, -, hskeleton⟩, hflows⟩
  exact hb.wellLabelled (periods_of_skeleton hskeleton ▸ hflows)

theorem wellLabelled_twoPeriods : ∃ b rest,
    BenchmarkInstance.new twoPeriods true .interTask twoPeriodsDraws = some (b, rest)
      ∧ b.WellLabelled twoPeriods := by
  have hsome : (BenchmarkInstance.new twoPeriods true .interTask twoPeriodsDraws).isSome := by
    decide +kernel
  obtain ⟨⟨b, rest⟩, hnew⟩ := Option.isSome_iff_exists.mp hsome
  exact ⟨b, rest, hnew, wellLabelled_of_new twoPeriods true .interTask twoPeriodsDraws rest b hnew⟩

end KZH15
