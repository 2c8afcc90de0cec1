import Inconcretes.Exp.Bosch1
import Inconcretes.Kzh15.ReplicatedBenchmark

/-!
# The benchmark of `bosch1`

The tasks that `main` makes for one processor, with the freshness constraints that it joins and the store that
it chooses, are a `Benchmark` when the periods that are left are multiples of the smallest one
(`exists_benchmark`). So the results about `KZH15.Run` are about generated instances. When of any two periods
the longer one is a multiple of the other, the experiment counts no failure (`no_failures`).
-/

namespace Bosch1

open KZH15 Achal

variable {D : Type}

/-- The periods that are left are multiples of the smallest one, and not longer than a second. -/
def Regular (b : BenchmarkInstanceBasic D) (smallestPeriodMs : UInt64) : Prop :=
  0 < smallestPeriodMs.toNat ∧ ∀ t ∈ b.tasks,
    0 < t.periodMs ∧ t.periodMs ≤ 1000 ∧ (smallestPeriodMs.toNat : ℤ) ∣ t.periodMs

/-- Of two periods that are left, the longer one is a multiple of the other. -/
def Harmonic (b : BenchmarkInstanceBasic D) : Prop :=
  ∀ t ∈ b.tasks, ∀ t' ∈ b.tasks, t.periodMs ≤ t'.periodMs → t.periodMs ∣ t'.periodMs

/-! ## Tasks and periods -/

/-- One processor. -/
theorem makeTasks_one {B : BenchmarkInstanceBasic D} {smallestPeriodMs : UInt64} {tasks : List KZH15Task}
    (h : B.tasks.mapM (makeTask B smallestPeriodMs) = some tasks) :
    makeTasks B smallestPeriodMs 1 = some tasks := by
  rw [makeTasks, List.range_one, List.mapM_cons, h]
  exact congrArg some (List.append_nil tasks)

theorem val_msToNs {t : ℤ} (hpos : 0 < t) (hle : t ≤ 1000) : (msToNs t).val = t.toNat * 1000000 := by
  obtain ⟨n, rfl⟩ := Int.eq_ofNat_of_zero_le hpos.le
  show ((n : ℤ) * 1000000 % 2 ^ 64).toNat % 2 ^ 64 = _
  omega

/-! ## Labels -/

/-- The value of a label. -/
noncomputable def labelValue (b : BenchmarkInstanceBasic D) (key : Str) : Str :=
  List.replicate (labelSize 16 (b.labelSizes.getD (Function.invFun KZH15.toString key) 0)).toNat 97

theorem labelValue_toString (b : BenchmarkInstanceBasic D) (lid : ℤ) : labelValue b (KZH15.toString lid)
    = List.replicate (labelSize 16 (b.labelSizes.getD lid 0)).toNat 97 := by
  rw [labelValue, Function.leftInverse_invFun toString_injective]

theorem nulFree_toString (lid : ℤ) : 0 ∉ KZH15.toString lid := by
  have hdigit : ∀ n, 0 ∉ Decimal.render n := fun n hmem =>
    absurd (Decimal.isDigit_of_mem_render hmem) (by decide)
  rw [KZH15.toString]
  split
  · rw [List.mem_cons, not_or]
    exact ⟨by decide, hdigit _⟩
  · exact hdigit _

section Tasks

variable {B : BenchmarkInstanceBasic D} {ts : List (TaskBasic D)} {tasks : List KZH15Task}
  (hspec : List.Forall₂ (MadeOf B) ts tasks)

include hspec

theorem flatMap_keysWritten : tasks.flatMap KZH15Task.keysWritten
    = (ts.flatMap (TaskBasic.lidsWritten B.heap)).map KZH15.toString := by
  induction hspec with
  | nil => rfl
  | cons ht _ ih => rw [List.flatMap_cons, List.flatMap_cons, List.map_append, ih, keysWritten_eq ht.keys]

end Tasks

/-- In a list without repetitions, two positions do not share an element. -/
theorem eq_of_mem_get {α β : Type} {xs : List α} {f : α → List β} (h : (xs.flatMap f).Nodup)
    {k k' : Fin xs.length} {y : β} (hy : y ∈ f (xs.get k)) (hy' : y ∈ f (xs.get k')) : k = k' := by
  have hpairs := (List.nodup_flatMap.mp h).2
  rcases lt_trichotomy k k' with hlt | heq | hlt
  · exact absurd hy' (List.pairwise_iff_get.mp hpairs k k' hlt hy)
  · exact heq
  · exact absurd hy (List.pairwise_iff_get.mp hpairs k' k hlt hy')

section Prepared

variable {b : BenchmarkInstance D} {b' : BenchmarkInstanceBasic D} (h : b.Reread b') (hb : b.WellFormed)
  {smallestPeriodMs : UInt64} {B : BenchmarkInstanceBasic D} (hB : B = b'.prepare smallestPeriodMs)

include h hb hB

/-- A label that a task reads of itself is written by it. -/
theorem intraTask_written (hnodup : (b.tasks.flatMap (·.runnables)).Nodup) {t : TaskBasic D} (ht : t ∈ B.tasks)
    {lid : ℤ} (hlid : lid ∈ t.pointers.flatMap (held B.heap · .rwIntraTaskRead)) :
    lid ∈ t.pointers.flatMap (held B.heap · .rwIntraTaskWritten) := by
  subst hB
  obtain ⟨ptr, hptr, hheld⟩ := List.mem_flatMap.mp hlid
  have hleft : ∀ ptr ∈ t.pointers, b'.isSmall smallestPeriodMs ptr = false := by
    intro ptr hptr
    obtain ⟨_, -, hleft, heq⟩ := h.of_mem_task hb rfl ht (List.reduceOption_mem_iff.mp hptr)
    rwa [Option.some.inj heq]
  obtain ⟨l, hl, rfl, hsite, hkept⟩ := h.exists_of_mem_held_trim hb (hleft ptr hptr) hheld
  obtain ⟨t₁, ht₁, -, -, hrunnables⟩ := exists_of_mem_right h.tasks (List.mem_filter.mp ht).1
  have hpointers : t.pointers = t₁.runnables := by
    rw [TaskBasic.pointers, hrunnables, List.reduceOption, List.filterMap_map]
    exact List.filterMap_some
  obtain ⟨w, hwritten, hw⟩ : ∃ w, (w, .rwIntraTaskWritten) ∈ l.sites ∧ w ∈ t₁.runnables := by
    have hsites := (hb.placed l hl).placedSites
    generalize l.sites = sites at hsites hsite ⊢
    cases hsites with
    | intraTask r w t₀ ht₀ hr hw =>
      -- the task that both are in is this one, as no runnable is in two
      obtain rfl : ptr = r := by simpa using hsite
      obtain ⟨k, rfl⟩ := List.get_of_mem ht₀
      obtain ⟨k', rfl⟩ := List.get_of_mem ht₁
      obtain rfl := eq_of_mem_get hnodup hr (hpointers ▸ hptr)
      exact ⟨w, by simp, hw⟩
    | readOnly r => simp at hsite
    | writeOnly w => simp at hsite
    | interTask r w => simp at hsite
  have hmem : w ∈ t.pointers := hpointers ▸ hw
  exact List.mem_flatMap.mpr ⟨w, hmem, (h.mem_held_trim hb hl (hleft w hmem)).mpr ⟨hwritten, hkept⟩⟩

end Prepared

/-! ## Benchmarks -/

/-- What makes a `Benchmark` of the tasks. -/
structure Suits (P : Params) (B : BenchmarkInstanceBasic D) (smallestPeriodMs : UInt64)
    (tasks : List KZH15Task) : Prop where
  made : List.Forall₂ (MadeOf B) B.tasks tasks
  regular : Regular B smallestPeriodMs
  fits : ∀ t ∈ tasks, t.Fits P
  room : (tasks.flatMap KZH15Task.keysWritten).length ≤ P.NT
  nodup : (tasks.flatMap KZH15Task.keysWritten).Nodup
  intraTask : ∀ t ∈ tasks, ∀ key ∈ t.keys .rwIntraTaskRead, key ∈ t.keysWritten
  linesUp : ∀ t ∈ tasks, LinesUp tasks t

namespace Suits

variable {P : Params} {B : BenchmarkInstanceBasic D} {smallestPeriodMs : UInt64} {tasks : List KZH15Task}
  (h : Suits P B smallestPeriodMs tasks)

include h

/-- The task that task `k` is made of, and its period. -/
theorem exists_period (k : Fin tasks.length) : ∃ t ∈ B.tasks, MadeOf B t (tasks.get k)
    ∧ (0 < t.periodMs ∧ t.periodMs ≤ 1000 ∧ (smallestPeriodMs.toNat : ℤ) ∣ t.periodMs)
    ∧ (tasks.get k).timePeriodNs.val = t.periodMs.toNat * 1000000 := by
  obtain ⟨t, ht, hmade⟩ := exists_of_mem_right h.made (List.get_mem tasks k)
  have hperiod := h.regular.2 t ht
  exact ⟨t, ht, hmade, hperiod, by rw [hmade.timePeriodNs, val_msToNs hperiod.1 hperiod.2.1]⟩

/-- The tasks, their constraints and the period of the store. -/
noncomputable def benchmark : Benchmark P tasks.length where
  tasks := tasks.get
  constraints k i := ((freshnessConstraints tasks (tasks.get k))[i]?).getD 0
  basePeriodNs := smallestPeriodMs.toNat * 1000000
  value := labelValue B
  basePeriodNs_pos := Nat.mul_pos h.regular.1 (by decide)
  period_pos k := by
    obtain ⟨t, -, -, ⟨hpos, -⟩, hperiod⟩ := h.exists_period k
    omega
  dvd_period k := by
    obtain ⟨t, -, -, ⟨hpos, -, hdvd⟩, hperiod⟩ := h.exists_period k
    rw [hperiod]
    exact Nat.mul_dvd_mul_right (Int.natCast_dvd_natCast.mp (by rwa [Int.toNat_of_nonneg hpos.le])) _
  fits k := h.fits _ (List.get_mem tasks k)
  values_eq k a := by
    obtain ⟨t, -, hmade, -⟩ := h.exists_period k
    rw [hmade.keys, hmade.values, List.map_map]
    exact List.map_congr_left fun lid _ => (labelValue_toString B lid).symm
  nulFree k a key hkey := by
    obtain ⟨t, -, hmade, -⟩ := h.exists_period k
    rw [hmade.keys] at hkey
    obtain ⟨lid, -, rfl⟩ := List.mem_map.mp hkey
    refine ⟨nulFree_toString lid, fun hmem => ?_⟩
    exact absurd (List.eq_of_mem_replicate hmem) (by decide)
  room := (Cpu.sum_length_keysWritten tasks).trans_le h.room
  eq_of_written _ _ _ hkey hkey' := eq_of_mem_get h.nodup hkey hkey'
  intraTask k := h.intraTask _ (List.get_mem tasks k)
  interTask k i key hkey := by
    have hlines := h.linesUp _ (List.get_mem tasks k)
    obtain ⟨t, ht, hwritten⟩ := hlines.written key (List.mem_of_getElem? hkey)
    obtain ⟨w, rfl⟩ := List.get_of_mem ht
    refine ⟨w, Benchmark.mem_keysWritten.mpr ⟨.rwInterTaskWritten, by decide, hwritten⟩, ?_⟩
    rw [hlines.period i key hkey _ ht hwritten]
    rfl

theorem period_le (k : Fin tasks.length) : h.benchmark.period k ≤ 1000000000 := by
  obtain ⟨t, -, -, ⟨-, hle, -⟩, hperiod⟩ := h.exists_period k
  show (tasks.get k).timePeriodNs.val ≤ _
  omega

end Suits

/-! ## Generated instances -/

variable [Floating D] [DecidableLT D] [DecidableLE D]

/-- What `main` makes of a generated instance on one processor. -/
theorem exists_suits (cfg : Config D) (mergeRunnables : Bool)
    (hperiods : mergeRunnables = true → cfg.periodsMs.Nodup) (mtype : MessageType) (draws rest : Draws D)
    (b : BenchmarkInstance D) (hnew : BenchmarkInstance.new cfg mergeRunnables mtype draws = some (b, rest))
    (hids : ∀ l ∈ b.labels, l.id < 10 ^ 7) (L : Setting.Reread D) (smallestPeriodMs : UInt64) :
    ∃ b' tasks, BenchmarkInstanceBasic.ofSetting (L.apply b.exportToFile) = some b'
      ∧ makeTasks (b'.prepare smallestPeriodMs) smallestPeriodMs 1 = some tasks
      ∧ ((b'.prepare smallestPeriodMs).labelSizes.size < 2000 →
        Regular (b'.prepare smallestPeriodMs) smallestPeriodMs →
        ∃ P, bftkvsInitFromConfig (b'.prepare smallestPeriodMs).labelSizes.size = some P
          ∧ Suits P (b'.prepare smallestPeriodMs) smallestPeriodMs tasks) := by
  obtain ⟨hb, -⟩ := yields_finished cfg mergeRunnables mtype draws _ hnew
  have hnodup : (b.tasks.flatMap (·.runnables)).Nodup :=
    yields_nodup_runnables cfg mtype hperiods draws _ hnew
  obtain ⟨b', tasks, hread, hmake, hlines⟩ :=
    linesUp_oneProcessor cfg mergeRunnables hperiods mtype draws rest b hnew L smallestPeriodMs
  obtain ⟨b'', hread', hreread⟩ := ofSetting_exportToFile L hb
  obtain rfl := Option.some.inj (hread.symm.trans hread')
  obtain ⟨tasks', hmap, hnewTasks, hmade⟩ := exists_madeOf hreread hb (B := b'.prepare smallestPeriodMs) rfl
  obtain rfl := Option.some.inj (hmake.symm.trans (makeTasks_one hmap))
  refine ⟨b', tasks, hread, hmake, fun htotal hregular => ?_⟩
  obtain ⟨P, hP, hNT, hKS, hVS⟩ := bftkvsInitFromConfig_eq_some htotal
  have hkeys := flatMap_keysWritten hmade
  refine ⟨P, hP, hmade, hregular, ?_, ?_, ?_, fun t' ht' key hkey => ?_, hlines⟩
  · obtain ⟨tasks', htasks', hfits, -⟩ :=
      exists_tasks hreread hb hids smallestPeriodMs (P := P) ⟨hKS, hVS⟩ rfl
    rwa [Option.some.inj (hnewTasks.symm.trans htasks')]
  · rw [hkeys, List.length_map]
    exact ((hreread.length_lidsWritten_le hb rfl hnodup).trans_eq Std.TreeMap.size_map.symm).trans hNT.le
  · rw [hkeys]
    exact (hreread.nodup_lidsWritten hb rfl hnodup).map toString_injective
  · obtain ⟨t, ht, hlists⟩ := exists_of_mem_right hmade ht'
    rw [hlists.keys] at hkey
    obtain ⟨lid, hlid, rfl⟩ := List.mem_map.mp hkey
    refine Benchmark.mem_keysWritten.mpr ⟨.rwIntraTaskWritten, by decide, ?_⟩
    rw [hlists.keys]
    exact List.mem_map_of_mem (intraTask_written hreread hb rfl hnodup ht hlid)

/-- **Generated instances are benchmarks.** The tasks that `main` makes of one on one processor, with the
constraints that it joins, in the store that it chooses, when runnables are not merged or no period is listed
twice. -/
theorem exists_benchmark (cfg : Config D) (mergeRunnables : Bool)
    (hperiods : mergeRunnables = true → cfg.periodsMs.Nodup) (mtype : MessageType) (draws rest : Draws D)
    (b : BenchmarkInstance D) (hnew : BenchmarkInstance.new cfg mergeRunnables mtype draws = some (b, rest))
    (hids : ∀ l ∈ b.labels, l.id < 10 ^ 7) (L : Setting.Reread D) (smallestPeriodMs : UInt64) :
    ∃ b' tasks, BenchmarkInstanceBasic.ofSetting (L.apply b.exportToFile) = some b'
      ∧ makeTasks (b'.prepare smallestPeriodMs) smallestPeriodMs 1 = some tasks
      ∧ ((b'.prepare smallestPeriodMs).labelSizes.size < 2000 →
        Regular (b'.prepare smallestPeriodMs) smallestPeriodMs →
        ∃ P, bftkvsInitFromConfig (b'.prepare smallestPeriodMs).labelSizes.size = some P
          ∧ ∃ B : Benchmark P tasks.length, B.tasks = tasks.get
            ∧ (∀ k i, B.constraints k i = ((freshnessConstraints tasks (tasks.get k))[i]?).getD 0)
            ∧ B.basePeriodNs = smallestPeriodMs.toNat * 1000000 ∧ ∀ k, B.period k ≤ 1000000000) := by
  obtain ⟨b', tasks, hread, hmake, hsuits⟩ :=
    exists_suits cfg mergeRunnables hperiods mtype draws rest b hnew hids L smallestPeriodMs
  refine ⟨b', tasks, hread, hmake, fun htotal hregular => ?_⟩
  obtain ⟨P, hP, hsuits⟩ := hsuits htotal hregular
  exact ⟨P, hP, hsuits.benchmark, rfl, fun _ _ => rfl, rfl, hsuits.period_le⟩

/-- `twoPeriods` for a smallest period of 5 ms meets the conditions. -/
theorem twoPeriods_checks : (do
    let (b, _) ← BenchmarkInstance.new twoPeriods true .interTask twoPeriodsDraws
    let b' ← BenchmarkInstanceBasic.ofSetting ((Setting.Reread.exact ℚ).apply b.exportToFile)
    let tasks := (b'.prepare 5).tasks
    return (b.labels.all (·.id < 10 ^ 7) && (b'.prepare 5).labelSizes.size < 2000
      && (tasks.all fun t => 0 < t.periodMs ∧ t.periodMs ≤ 1000 ∧ ((5 : UInt64).toNat : ℤ) ∣ t.periodMs)
      && tasks.all fun t => tasks.all fun t' => t.periodMs ≤ t'.periodMs → t.periodMs ∣ t'.periodMs))
        = some true := by
  decide +kernel

theorem exists_regular_twoPeriods : ∃ b rest b',
    BenchmarkInstance.new twoPeriods true .interTask twoPeriodsDraws = some (b, rest)
      ∧ BenchmarkInstanceBasic.ofSetting ((Setting.Reread.exact ℚ).apply b.exportToFile) = some b'
      ∧ (∀ l ∈ b.labels, l.id < 10 ^ 7) ∧ (b'.prepare 5).labelSizes.size < 2000
      ∧ Regular (b'.prepare 5) 5 ∧ Harmonic (b'.prepare 5) := by
  obtain ⟨⟨b, rest⟩, hnew, h⟩ := Option.bind_eq_some_iff.mp twoPeriods_checks
  obtain ⟨b', hread, h⟩ := Option.bind_eq_some_iff.mp h
  have h := Option.some.inj h
  simp only [Bool.and_eq_true, List.all_eq_true, decide_eq_true_iff] at h
  obtain ⟨⟨⟨hids, htotal⟩, hregular⟩, hharmonic⟩ := h
  exact ⟨b, rest, b', hnew, hread, hids, htotal, ⟨by decide, hregular⟩, hharmonic⟩

theorem exists_benchmark_twoPeriods : ∃ b rest b' tasks P,
    BenchmarkInstance.new twoPeriods true .interTask twoPeriodsDraws = some (b, rest)
      ∧ BenchmarkInstanceBasic.ofSetting ((Setting.Reread.exact ℚ).apply b.exportToFile) = some b'
      ∧ makeTasks (b'.prepare 5) 5 1 = some tasks
      ∧ bftkvsInitFromConfig (b'.prepare 5).labelSizes.size = some P
      ∧ ∃ B : Benchmark P tasks.length, B.tasks = tasks.get
        ∧ (∀ k i, B.constraints k i = ((freshnessConstraints tasks (tasks.get k))[i]?).getD 0)
        ∧ B.basePeriodNs = (5 : UInt64).toNat * 1000000 ∧ ∀ k, B.period k ≤ 1000000000 := by
  obtain ⟨b, rest, b', hnew, hread, hids, htotal, hregular, -⟩ := exists_regular_twoPeriods
  obtain ⟨b'', tasks, hread', hmake, hbenchmark⟩ := exists_benchmark twoPeriods true (fun _ => by decide)
    .interTask twoPeriodsDraws rest b hnew hids (Setting.Reread.exact ℚ) 5
  obtain rfl := Option.some.inj (hread.symm.trans hread')
  obtain ⟨P, hP, hB⟩ := hbenchmark htotal hregular
  exact ⟨b, rest, b', tasks, P, hnew, hread, hmake, hP, hB⟩

end Bosch1
