import Inconcretes.Kzh15.Labels
import Inconcretes.Kzh15.Merging

/-!
# Labels between tasks that stay within one

`map_inter_task_msgs_to_runnables` draws two different runnables for a label, and does not ask for their
tasks. The two have the periods that were drawn, so they can share a task when both periods are that of a
task with two runnables (`crosses_of_volumeTypes`). Whenever a label can get the volume type of this pair,
some draws put its writer and its reader into this task (`allows_within`).
-/

namespace KZH15

open Drawing OrderedMap

variable {D : Type}

/-- The writer and the reader of the label are in tasks, and in none together. -/
def Label.CrossesTasks (tasks : List (Task D)) (l : Label) : Prop :=
  ∃ w r, l.writers = [w] ∧ l.readers = [r] ∧ (∃ t ∈ tasks, w ∈ t.runnables) ∧ (∃ t ∈ tasks, r ∈ t.runnables)
    ∧ ∀ t ∈ tasks, ¬(w ∈ t.runnables ∧ r ∈ t.runnables)

/-! ## Labels that cross -/

theorem forall_not_interTask (cfg : Config D) {runnables : List (Runnable D)} {labels : List Label}
    (h : ∀ l ∈ labels, ¬l.IsInterTask) :
    (mapInterTaskMsgsToRunnables cfg runnables labels).Yields fun s => ∀ l ∈ s.2, ¬l.IsInterTask := by
  refine (yields_assignVolumeTypes _ labels).bind fun typed htyped => (yields_any _).bind fun reverse _ => ?_
  refine (yields_foldlM (fun _ s => ∀ l ∈ s.2.1, ¬l.IsInterTask) nofun ?_).bind fun s hs =>
    yields_pure fun l hl => hs l (List.mem_of_mem_filter hl)
  rintro done l rest ⟨rs, ls, deleted⟩ rfl hls
  have hl : ¬l.IsInterTask := by
    obtain ⟨l₀, hl₀, hsame, -⟩ := exists_of_mem_right htyped (List.mem_append_right done List.mem_cons_self)
    rw [hsame]
    exact h l₀ hl₀
  unfold mapInterTaskMsg
  dsimp only
  rw [if_neg hl]
  exact yields_pure (List.forall_mem_append.mpr ⟨hls, List.forall_mem_singleton.mpr hl⟩)

/-- The table can be inverted when it has all pairs of periods. -/
theorem exists_reverseDist_iff (cfg : Config D) :
    (∃ m, reverseDist cfg = some m) ↔ ∀ p1 ∈ cfg.periodsMs, ∀ p2 ∈ cfg.periodsMs,
      (cfg.msgsCfg.interTaskMsgsCfg.volumeType p1 p2).isSome := by
  rw [reverseDist_eq]
  refine (exists_foldlM_pushBack _ _ _).trans ⟨fun h p1 hp1 p2 hp2 => ?_, fun h p hp => ?_⟩
  · exact h (p1, p2) (List.mem_product.mpr ⟨hp1, hp2⟩)
  · obtain ⟨hp1, hp2⟩ := List.mem_product.mp hp
    exact h p.1 hp1 p.2 hp2

theorem two_le_length {α : Type} {xs : List α} {x y : α} (hx : x ∈ xs) (hy : y ∈ xs) (hne : x ≠ y) :
    2 ≤ xs.length := by
  match xs with
  | [] => exact absurd hx List.not_mem_nil
  | [z] => exact absurd ((List.mem_singleton.mp hx).trans (List.mem_singleton.mp hy).symm) hne
  | _ :: _ :: rest => exact Nat.le_add_left 2 rest.length

theorem exists_mem_ne {α : Type} {xs : List α} (hnodup : xs.Nodup) (htwo : 2 ≤ xs.length) {x : α}
    (hx : x ∈ xs) : ∃ y ∈ xs, y ≠ x := by
  refine ((hnodup.ne_singleton_iff x).mp fun heq => ?_).resolve_left (List.ne_nil_of_mem hx)
  rw [heq] at htwo
  exact absurd htwo (by decide : ¬2 ≤ 1)

/-- Labels do not get the volume type of a period that a task with two runnables has. -/
def BenchmarkInstance.NoneWithin (cfg : InterTaskMessagesConfig) (b : BenchmarkInstance D) : Prop :=
  ∀ t ∈ b.tasks, 2 ≤ t.runnables.length → ∀ mvtype, cfg.volumeType t.periodMs t.periodMs = some mvtype →
    ¬cfg.CanDraw mvtype

/-- Then the runnables of a label are not in one task. -/
theorem crosses_of_volumeTypes {cfg : Config D} {b b' : BenchmarkInstance D} (h : b.MappedWithinTasks cfg)
    (hnone : b.NoneWithin cfg.msgsCfg.interTaskMsgsCfg) (hb' : b'.WellFormed) (htasks : b'.tasks = b.tasks)
    (hskeleton : skeleton b'.runnables = skeleton b.runnables) {l : Label} (hl : l ∈ b'.labels)
    (hinter : l.IsInterTask) (hflows : l.Flows cfg (b.runnables.map (·.periodMs))) :
    l.CrossesTasks b'.tasks := by
  cases hb'.placed l hl with
  | readOnly htype => exact absurd (hinter.1.symm.trans htype) (by decide)
  | writeOnly htype => exact absurd (hinter.1.symm.trans htype) (by decide)
  | intraTask _ hmtype => exact absurd hinter.2 hmtype
  | interTask _ _ r w hreaders hwriters hne =>
    have hr : r ∈ l.readers := hreaders ▸ List.mem_cons_self
    have hw : w ∈ l.writers := hwriters ▸ List.mem_cons_self
    have hin : ∀ ptr a, (ptr, a) ∈ l.sites → ∃ t ∈ b'.tasks, ptr ∈ t.runnables := fun ptr a hsite => by
      have hlt := hb'.lt_of_sites hl hsite
      rw [htasks]
      exact List.mem_flatMap.mp (h.covered ptr (length_of_skeleton hskeleton ▸ hlt))
    refine ⟨w, r, hwriters, hreaders, hin w _ (Label.mem_sites.mpr (Or.inr ⟨hw, rfl⟩)),
      hin r _ (Label.mem_sites.mpr (Or.inl ⟨hr, rfl⟩)), fun t ht hboth => ?_⟩
    -- in one task, both have its period
    rw [htasks] at ht
    obtain ⟨p1, p2, hp1, hp2, htype⟩ := hflows.between w hw r hr
    obtain rfl := Option.some.inj ((h.period t ht w hboth.1).symm.trans hp1)
    obtain rfl := Option.some.inj ((h.period t ht r hboth.2).symm.trans hp2)
    exact hnone t ht (two_le_length hboth.1 hboth.2 hne.symm) _ htype hflows.canDraw

/-! ## Labels that stay within a task -/

theorem getElem?_periodToRunnables {runnables : List (Runnable D)} {p : ℤ} {ptr : ℕ}
    (h : ptr ∈ pointersOf runnables p) :
    (periodToRunnables runnables)[p]? = some (pointersOf runnables p) :=
  periodToRunnables_eq_some_iff.mpr ⟨rfl, List.ne_nil_of_mem h⟩

/-- All labels between tasks can get the volume type. -/
theorem allows_assignVolumeTypes {cfg : InterTaskMessagesConfig} {mvtype : MessageVolumeType}
    (h : cfg.CanDraw mvtype) (labels : List Label) :
    (assignVolumeTypes cfg labels : Drawing D (List Label)).Allows
      (List.Forall₂ (fun l l' => l.SameButVolume l' ∧ (l.IsInterTask → l'.mvtype = mvtype)) labels) := by
  obtain ⟨n, hlo, hhi, htype⟩ := h
  obtain ⟨it, hit, rfl⟩ := Option.map_eq_some_iff.mp htype
  refine allows_mapM fun l _ => ?_
  split_ifs with hinter
  · refine (allows_int hlo hhi).bind fun x hx => ?_
    refine (allows_lift (P := (· = it)) (hx ▸ hit) rfl).bind fun it' hit' => ?_
    exact allows_pure ⟨rfl, fun _ => congrArg Prod.fst hit'⟩
  · exact allows_pure ⟨rfl, fun hinter' => absurd hinter' hinter⟩

/-- Numbers tell runnables apart. -/
theorem idAt_ne {runnables rs : List (Runnable D)} (hnumbered : Numbered runnables)
    (hskeleton : skeleton rs = skeleton runnables) {i j : ℕ} (hi : i < runnables.length)
    (hj : j < runnables.length) (hne : i ≠ j) : idAt rs i ≠ idAt rs j := by
  have hlength := length_of_skeleton hskeleton
  rw [idAt_of_numbered (numbered_of_skeleton hskeleton hnumbered) (hlength ▸ hi),
    idAt_of_numbered (numbered_of_skeleton hskeleton hnumbered) (hlength ▸ hj)]
  exact fun heq => hne (Int.natCast_inj.mp heq)

/-- Two runnables of one period can be drawn for a label of the volume type of this pair. -/
theorem allows_mapInterTaskMsg {cfg : Config D} {reverse : Std.TreeMap MessageVolumeType (List (Range ℤ))}
    (hreverse : reverseDist cfg = some reverse) {runnables rs : List (Runnable D)}
    (hnumbered : Numbered runnables) (hskeleton : skeleton rs = skeleton runnables) {ls : List Label}
    {deleted : Std.TreeSet ℤ} {l : Label} {p : ℤ} (hp : p ∈ cfg.periodsMs)
    (htype : l.IsInterTask → cfg.msgsCfg.interTaskMsgsCfg.volumeType p p = some l.mvtype) {w r : ℕ}
    (hw : w ∈ pointersOf runnables p) (hr : r ∈ pointersOf runnables p) (hne : w ≠ r) :
    (mapInterTaskMsg reverse (periodToRunnables runnables) (rs, ls, deleted) l).Allows fun s =>
      skeleton s.1 = skeleton runnables ∧ s.2.2 = deleted
        ∧ ∃ l', s.2.1 = ls ++ [l'] ∧ (l.IsInterTask → l' = (l.addWriter w).addReader r) := by
  unfold mapInterTaskMsg
  dsimp only
  by_cases hinter : l.IsInterTask
  · rw [if_pos hinter]
    have hmem := (mem_reverseDist (p := ⟨p, p⟩) hreverse).mpr ⟨hp, hp, htype hinter⟩
    refine (allows_pick hmem).bind fun pair hpair => ?_
    have hlt : ∀ ptr ∈ pointersOf runnables p, ptr < runnables.length := fun ptr hptr =>
      lt_of_mem_periodToRunnables (getElem?_periodToRunnables hw) hptr
    have hids : decide (idAt rs w ≠ idAt rs r) = true :=
      decide_eq_true (idAt_ne hnumbered hskeleton (hlt w hw) (hlt r hr) hne)
    simp only [hpair, getElem?_periodToRunnables hw]
    rw [if_neg fun h => absurd h.2 (not_lt.mpr (two_le_length hw hr hne))]
    refine (allows_pick hw).bind fun r1 hr1 => ?_
    rw [hr1]
    refine (allows_pickUntil hr hids).bind fun r2 hr2 => allows_pure ⟨?_, rfl, _, rfl, fun _ => ?_⟩
    · exact ((skeleton_addLabel ..).trans (skeleton_addLabel ..)).trans hskeleton
    · rw [hr2]
  · rw [if_neg hinter]
    exact allows_pure ⟨hskeleton, rfl, l, rfl, fun hinter' => absurd hinter' hinter⟩

/-- All labels between tasks can be mapped to two runnables of one period. -/
theorem allows_mapInterTaskMsgsToRunnables {cfg : Config D}
    {reverse : Std.TreeMap MessageVolumeType (List (Range ℤ))} (hreverse : reverseDist cfg = some reverse)
    {runnables : List (Runnable D)} (hnumbered : Numbered runnables) (labels : List Label) {p : ℤ}
    (hp : p ∈ cfg.periodsMs) {mvtype : MessageVolumeType}
    (htype : cfg.msgsCfg.interTaskMsgsCfg.volumeType p p = some mvtype)
    (hdraw : cfg.msgsCfg.interTaskMsgsCfg.CanDraw mvtype) {w r : ℕ} (hw : w ∈ pointersOf runnables p)
    (hr : r ∈ pointersOf runnables p) (hne : w ≠ r) :
    (mapInterTaskMsgsToRunnables cfg runnables labels).Allows fun s => ∀ l ∈ labels, l.IsInterTask →
      ((({ l with mvtype } : Label).addWriter w).addReader r) ∈ s.2 := by
  refine (allows_assignVolumeTypes hdraw labels).bind fun typed htyped => ?_
  refine (allows_lift (P := (· = reverse)) hreverse rfl).bind fun reverse' hreverse' => ?_
  rw [hreverse']
  refine (allows_foldlM (fun done s => skeleton s.1 = skeleton runnables ∧ s.2.2 = ∅
    ∧ List.Forall₂ (fun l l' => l.IsInterTask → l' = (l.addWriter w).addReader r) done s.2.1)
    ⟨rfl, rfl, .nil⟩ ?_).bind ?_
  · rintro done l rest ⟨rs, ls, deleted⟩ hsplit ⟨hskeleton, rfl, hls⟩
    have hl : l.IsInterTask → cfg.msgsCfg.interTaskMsgsCfg.volumeType p p = some l.mvtype := fun hinter => by
      obtain ⟨l₀, -, hsame, hmvtype⟩ := exists_of_mem_right htyped (y := l) (by simp [hsplit])
      rw [hsame] at hinter
      rw [hmvtype hinter, htype]
    refine (allows_mapInterTaskMsg hreverse hnumbered hskeleton hp hl hw hr hne).mono ?_
    rintro ⟨rs', ls', deleted'⟩ ⟨hskeleton', rfl, l', rfl, hl'⟩
    exact ⟨hskeleton', rfl, List.rel_append hls (.cons hl' .nil)⟩
  · rintro ⟨rs, ls, deleted⟩ ⟨-, rfl, hls⟩
    refine allows_pure fun l hl hinter => List.mem_filter.mpr ⟨?_, by simp⟩
    obtain ⟨l₁, hl₁, hsame, hmvtype⟩ := exists_of_mem_right htyped.flip hl
    obtain ⟨l₂, hl₂, heq⟩ := exists_of_mem_right hls.flip hl₁
    have hsame' : l₁ = { l with mvtype } := by rw [hsame, hmvtype hinter]
    have hmapped : l₂ = (l₁.addWriter w).addReader r := heq (by rw [hsame']; exact hinter)
    rwa [hmapped, hsame'] at hl₂

/-- Some draws put the writer and the reader of a label into one task. -/
theorem allows_within {cfg : Config D} {b : BenchmarkInstance D} (h : b.MappedWithinTasks cfg)
    (hinter : ∃ l ∈ b.labels, l.IsInterTask)
    (hpairs : ∀ p1 ∈ cfg.periodsMs, ∀ p2 ∈ cfg.periodsMs,
      (cfg.msgsCfg.interTaskMsgsCfg.volumeType p1 p2).isSome)
    (hwithin : ¬b.NoneWithin cfg.msgsCfg.interTaskMsgsCfg) :
    (b.mapInterTaskMsgs cfg).Allows fun b' => ∃ l ∈ b'.labels, l.IsInterTask ∧ ¬l.CrossesTasks b'.tasks := by
  obtain ⟨l, hl, hl'⟩ := hinter
  obtain ⟨reverse, hreverse⟩ := (exists_reverseDist_iff cfg).mpr hpairs
  simp only [BenchmarkInstance.NoneWithin, not_forall, not_not] at hwithin
  obtain ⟨t, ht, htwo, mvtype, htype, hdraw⟩ := hwithin
  obtain ⟨w, hw⟩ := List.exists_mem_of_length_pos (Nat.zero_lt_two.trans_le htwo)
  obtain ⟨r, hr, hne⟩ := exists_mem_ne (h.nodup_task t ht) htwo hw
  have hp := h.period_mem t.periodMs (List.mem_of_getElem? (h.period t ht w hw))
  refine (allows_mapInterTaskMsgsToRunnables hreverse h.numbered b.labels hp htype hdraw
    (mem_pointersOf.mpr (h.period t ht w hw)) (mem_pointersOf.mpr (h.period t ht r hr)) hne.symm).bind
    fun s hs => allows_pure ⟨_, hs l hl hl', hl', ?_⟩
  have hunplaced : l.Unplaced := by
    have hkind := h.labels l hl
    rwa [if_pos hl'] at hkind
  rintro ⟨w', r', hwriters, hreaders, -, -, hnot⟩
  obtain rfl := (List.cons.inj ((hunplaced.writers_addWriter w).symm.trans hwriters)).1
  obtain rfl := (List.cons.inj ((hunplaced.readers_addReader r).symm.trans hreaders)).1
  exact hnot t ht ⟨hw, hr⟩

/-- **Crossing tasks.** When the labels between tasks are mapped, whatever is drawn, each connects two tasks
if and only if there is none, or a pair of periods has no volume type, or no label gets the volume type of a
period that a task with two runnables has. -/
theorem crossesTasks_iff [Floating D] [DecidableLT D] [DecidableLE D] (cfg : Config D) (mergeRunnables : Bool)
    (mtype : MessageType) (draws rest : Draws D) (b : BenchmarkInstance D)
    (hreached : (BenchmarkInstance.generated cfg mergeRunnables mtype >>= BenchmarkInstance.mapLabels) draws
      = some (b, rest)) :
    (b.mapInterTaskMsgs cfg).Yields (fun b' => ∀ l ∈ b'.labels, l.IsInterTask → l.CrossesTasks b'.tasks)
      ↔ (∀ l ∈ b.labels, ¬l.IsInterTask)
        ∨ (∃ p1 ∈ cfg.periodsMs, ∃ p2 ∈ cfg.periodsMs,
          cfg.msgsCfg.interTaskMsgsCfg.volumeType p1 p2 = none)
        ∨ b.NoneWithin cfg.msgsCfg.interTaskMsgsCfg := by
  have h := BenchmarkInstance.yields_mappedWithinTasks cfg mergeRunnables mtype draws _ hreached
  constructor
  · intro hyields
    by_contra hnot
    rw [not_or, not_or] at hnot
    obtain ⟨hinter, hpairs, hwithin⟩ := hnot
    simp only [not_forall, not_not, not_exists, not_and, exists_prop] at hinter hpairs
    obtain ⟨b', ⟨l, hl, hl', hcrosses⟩, hall⟩ := (allows_within h hinter (fun p1 hp1 p2 hp2 =>
      Option.isSome_iff_ne_none.mpr (hpairs p1 hp1 p2 hp2)) hwithin).and_yields hyields
    exact hcrosses (hall l hl hl')
  · rintro (hnone | ⟨p1, hp1, p2, hp2, hmissing⟩ | hwithin)
    · exact (forall_not_interTask cfg hnone).bind fun s hs => yields_pure fun l hl hinter =>
        absurd hinter (hs l hl)
    · suffices h : (mapInterTaskMsgsToRunnables cfg b.runnables b.labels).Yields fun _ => False from
        h.bind fun _ => False.elim
      refine (yields_any _).bind fun typed _ => ?_
      refine (yields_lift (P := fun _ => False) fun reverse hreverse => ?_).bind fun _ => False.elim
      have hsome := (exists_reverseDist_iff cfg).mp ⟨reverse, hreverse⟩ p1 hp1 p2 hp2
      rw [hmissing] at hsome
      exact Bool.false_ne_true hsome
    · refine (h.yields_mapInterTaskMsgs.and h.flows_mapInterTaskMsgs).mono ?_
      rintro b' ⟨⟨hb', htasks, hskeleton⟩, hflows⟩ l hl hinter
      exact crosses_of_volumeTypes h hwithin hb' htasks hskeleton hl hinter (hflows l hl hinter)

/-- Three runnables in one task, and a label between its first two. -/
def tenMsDraws : Draws ℚ where
  ints := [3, 1, 5, 0, 0, 1]
  reals := [0, 1, 1, 0, 1, 1, 0, 1, 1, 50, 50]

/-- Without merging no task has two runnables, and the label crosses. -/
theorem crossesTasks_iff_tenMs : ∃ b rest,
    (BenchmarkInstance.generated tenMs false .interTask >>= BenchmarkInstance.mapLabels) tenMsDraws
        = some (b, rest)
      ∧ (∃ l ∈ b.labels, l.IsInterTask)
      ∧ (b.mapInterTaskMsgs tenMs).Yields
        fun b' => ∀ l ∈ b'.labels, l.IsInterTask → l.CrossesTasks b'.tasks := by
  have hrun : ((BenchmarkInstance.generated tenMs false .interTask >>= BenchmarkInstance.mapLabels)
      tenMsDraws).any fun s => s.1.labels.any (fun l => l.IsInterTask)
        && s.1.tasks.all fun t => t.runnables.length < 2 := by
    decide +kernel
  obtain ⟨⟨b, rest⟩, hreached, hstate⟩ := (Option.any_eq_true ..).mp hrun
  obtain ⟨hlabels, htasks⟩ := Bool.and_eq_true_iff.mp hstate
  obtain ⟨l, hl, hinter⟩ := List.any_eq_true.mp hlabels
  refine ⟨b, rest, hreached, ⟨l, hl, of_decide_eq_true hinter⟩, ?_⟩
  refine (crossesTasks_iff tenMs false .interTask tenMsDraws rest b hreached).mpr (Or.inr (Or.inr ?_))
  exact fun t ht htwo => absurd (of_decide_eq_true (List.all_eq_true.mp htasks t ht)) (not_lt.mpr htwo)

theorem not_crossesTasks_tenMs : ∃ b rest,
    BenchmarkInstance.new tenMs true .interTask tenMsDraws = some (b, rest)
      ∧ ∃ l ∈ b.labels, l.IsInterTask ∧ ¬l.CrossesTasks b.tasks := by
  have hrun : (BenchmarkInstance.new tenMs true .interTask tenMsDraws).any (fun s => s.1.labels.any fun l =>
      l.IsInterTask ∧ s.1.tasks.any fun t => (l.writers ++ l.readers).all (· ∈ t.runnables)) := by
    decide +kernel
  obtain ⟨⟨b, rest⟩, hnew, hlabels⟩ := (Option.any_eq_true ..).mp hrun
  obtain ⟨l, hl, hkind⟩ := List.any_eq_true.mp hlabels
  obtain ⟨hinter, htasks⟩ := of_decide_eq_true hkind
  obtain ⟨t, ht, hall⟩ := List.any_eq_true.mp htasks
  refine ⟨b, rest, hnew, l, hl, hinter, ?_⟩
  rintro ⟨w, r, hwriters, hreaders, -, -, hnot⟩
  rw [hwriters, hreaders, List.all_eq_true] at hall
  exact hnot t ht ⟨of_decide_eq_true (hall w (by simp)), of_decide_eq_true (hall r (by simp))⟩

end KZH15
