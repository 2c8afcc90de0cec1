import Inconcretes.Kzh15.Capacity
import Inconcretes.Lib.Join

/-!
# The freshness constraints of `bosch1`

`main` makes the tasks of the benchmark once for each processor. Then it joins the labels that each task reads
with the labels that all tasks write, over all processors, and appends the period of the writer wherever two
are equal. So a label gets an entry for each task that writes it. The entries line up with the labels when
there is one processor and no runnable is in two tasks, and otherwise only when no task reads a label that is
written twice (`linesUp_iff`).
-/

namespace Bosch1

open KZH15 Achal

variable {D : Type}

/-! ## The loops -/

/-- A task of the benchmark becomes a periodic task. Without a result an assertion has failed or a null pointer
is dereferenced. -/
def makeTask (b : BenchmarkInstanceBasic D) (smallestPeriodMs : UInt64) (t : TaskBasic D) : Option KZH15Task :=
  if periodBelow t.periodMs smallestPeriodMs then none else KZH15Task.new b maxLabelSize.toNat t

/-- The loops that make the tasks of each processor. -/
def makeTasks (b : BenchmarkInstanceBasic D) (smallestPeriodMs : UInt64) (cpusUsed : ℕ) :
    Option (List KZH15Task) := do
  let tasks ← (List.range cpusUsed).mapM fun _ => b.tasks.mapM (makeTask b smallestPeriodMs)
  return tasks.flatten

/-- `t1->rw_inter_task_labels_read_freshness_constraints` after the loops. -/
def freshnessConstraints (tasks : List KZH15Task) (t1 : KZH15Task) : List Uint64 :=
  (t1.keys .rwInterTaskRead).flatMap fun lidRead =>
    tasks.flatMap fun t2 =>
      (t2.keys .rwInterTaskWritten).flatMap fun lidWritten =>
        if lidRead = lidWritten then [t2.timePeriodNs] else []

/-- The constraints of a task line up with the labels that it reads: there is one for each label, the period
of the task that writes it. -/
structure LinesUp (tasks : List KZH15Task) (t1 : KZH15Task) : Prop where
  length_eq : (t1.keys .rwInterTaskRead).length = (freshnessConstraints tasks t1).length
  written : ∀ key ∈ t1.keys .rwInterTaskRead, ∃ t2 ∈ tasks, key ∈ t2.keys .rwInterTaskWritten
  period : ∀ (i : ℕ) (key : Str), (t1.keys .rwInterTaskRead)[i]? = some key → ∀ t2 ∈ tasks,
    key ∈ t2.keys .rwInterTaskWritten → (freshnessConstraints tasks t1)[i]? = some t2.timePeriodNs

/-- Each label that a task reads from another task is written once: there is one processor, and its writer is
in one task. -/
def WrittenOnce (b : BenchmarkInstanceBasic D) (cpusUsed : ℕ) : Prop :=
  ∀ r ∈ b.tasks.flatMap TaskBasic.pointers, ∀ lid ∈ held b.heap r .rwInterTaskRead, ∀ w ∈ b.runnables,
    lid ∈ held b.heap w .rwInterTaskWritten → cpusUsed = 1 ∧ (b.tasks.flatMap TaskBasic.pointers).count w = 1

/-- No task reads a label of another task. -/
def ReadsNothing (b : BenchmarkInstanceBasic D) : Prop :=
  ∀ r ∈ b.tasks.flatMap TaskBasic.pointers, held b.heap r .rwInterTaskRead = []

/-! ## Labels and their writers -/

theorem toString_injective : Function.Injective KZH15.toString := by
  have hsign : ∀ {n : ℕ} {s : Str}, 45 :: s ≠ Decimal.render n := fun {n s} heq => by
    have hdigit := Decimal.isDigit_of_mem_render (heq ▸ List.mem_cons_self : 45 ∈ Decimal.render n)
    exact absurd hdigit (by decide)
  intro lid lid' h
  simp only [KZH15.toString] at h
  split at h <;> split at h
  · have habs := Decimal.render_injective (List.cons.inj h).2
    omega
  · exact absurd h hsign
  · exact absurd h.symm hsign
  · have habs := Decimal.render_injective h
    omega

/-- A task lines up when the labels that it reads are written, and each of them once. -/
theorem linesUp_iff_count {tasks : List KZH15Task} {t1 : KZH15Task}
    (h : ∀ key ∈ t1.keys .rwInterTaskRead, key ∈ tasks.flatMap (·.keys .rwInterTaskWritten)) :
    LinesUp tasks t1
      ↔ ∀ key ∈ t1.keys .rwInterTaskRead, (tasks.flatMap (·.keys .rwInterTaskWritten)).count key = 1 := by
  have hlength : (freshnessConstraints tasks t1).length = (t1.keys .rwInterTaskRead).length ↔ _ :=
    Join.length_joined_eq_iff h
  refine ⟨fun hlines => hlength.mp hlines.length_eq.symm, fun hone => ⟨(hlength.mpr hone).symm, ?_, ?_⟩⟩
  · exact fun key hkey => List.mem_flatMap.mp (h key hkey)
  · exact fun i key hkey t2 ht2 hwritten => Join.getElem?_joined hone hkey ht2 hwritten

/-- Lists that hold a label once, if at all, and those of one runnable only. -/
theorem count_flatMap_held {heap : List (RunnableBasic D)} {a : Access} {lid : ℤ} {w : ℕ} {ptrs : List ℕ}
    (h : ∀ ptr ∈ ptrs, (held heap ptr a).count lid = if ptr = w then 1 else 0) :
    (ptrs.flatMap (held heap · a)).count lid = ptrs.count w := by
  induction ptrs with
  | nil => rfl
  | cons ptr ptrs ih =>
    obtain ⟨hptr, hptrs⟩ := List.forall_mem_cons.mp h
    rw [List.flatMap_cons, List.count_append, hptr, ih hptrs, List.count_cons, Nat.add_comm]
    simp only [beq_iff_eq]

/-- The keys of a task are those of its runnables. -/
def HasKeysOf (heap : List (RunnableBasic D)) (t : TaskBasic D) (t' : KZH15Task) : Prop :=
  ∀ a, t'.keys a = (t.pointers.flatMap (held heap · a)).map KZH15.toString

/-- A task and what is made of it. -/
structure MadeOf (b : BenchmarkInstanceBasic D) (t : TaskBasic D) (t' : KZH15Task) : Prop where
  timePeriodNs : t'.timePeriodNs = msToNs t.periodMs
  keys : HasKeysOf b.heap t t'
  values : ∀ a, t'.values a = (t.pointers.flatMap (held b.heap · a)).map fun lid =>
    List.replicate (labelSize 16 (b.labelSizes.getD lid 0)).toNat 97

section Replicas

variable {heap : List (RunnableBasic D)} {ts : List (TaskBasic D)} {tasks : List KZH15Task}
  (h : List.Forall₂ (HasKeysOf heap) ts tasks)

include h

theorem flatMap_keys (a : Access) : tasks.flatMap (·.keys a)
    = ((ts.flatMap TaskBasic.pointers).flatMap (held heap · a)).map KZH15.toString := by
  induction h with
  | nil => rfl
  | cons ht _ ih => rw [List.flatMap_cons, List.flatMap_cons, List.flatMap_append, List.map_append, ih, ht]

/-- What the tasks of all processors write. -/
theorem count_keysWritten (cpusUsed : ℕ) (lid : ℤ) :
    ((List.replicate cpusUsed tasks).flatten.flatMap (·.keys .rwInterTaskWritten)).count (KZH15.toString lid)
      = cpusUsed * ((ts.flatMap TaskBasic.pointers).flatMap (held heap · .rwInterTaskWritten)).count lid := by
  induction cpusUsed with
  | zero => rw [Nat.zero_mul]; rfl
  | succ n ih =>
    rw [List.replicate_succ, List.flatten_cons, List.flatMap_append, List.count_append, ih, flatMap_keys h,
      List.count_map_of_injective _ _ toString_injective, Nat.succ_mul, Nat.add_comm]

/-- What the tasks of all processors read. -/
theorem forall_keysRead_iff {cpusUsed : ℕ} (hcpus : 0 < cpusUsed) {p : Str → Prop} :
    (∀ t ∈ (List.replicate cpusUsed tasks).flatten, ∀ key ∈ t.keys .rwInterTaskRead, p key)
      ↔ ∀ r ∈ ts.flatMap TaskBasic.pointers, ∀ lid ∈ held heap r .rwInterTaskRead, p (KZH15.toString lid) := by
  have hmem : ∀ t, t ∈ (List.replicate cpusUsed tasks).flatten ↔ t ∈ tasks := by
    intro t
    rw [List.mem_flatten]
    constructor
    · rintro ⟨ts', hts', ht⟩
      rwa [← List.eq_of_mem_replicate hts']
    · exact fun ht => ⟨tasks, List.mem_replicate.mpr ⟨hcpus.ne', rfl⟩, ht⟩
  simp only [hmem]
  rw [← List.forall_mem_flatMap, flatMap_keys h, List.forall_mem_map, List.forall_mem_flatMap]

end Replicas

section Prepared

variable {b : BenchmarkInstance D} {b' : BenchmarkInstanceBasic D} (h : b.Reread b') (hb : b.WellFormed)
  {smallestPeriodMs : UInt64} {B : BenchmarkInstanceBasic D} (hB : B = b'.prepare smallestPeriodMs)

include h hb hB

/-- The runnables of the tasks that are left are left. -/
theorem mem_runnables_of_mem_pointers {ptr : ℕ} (hptr : ptr ∈ B.tasks.flatMap TaskBasic.pointers) :
    ptr ∈ B.runnables := by
  subst hB
  obtain ⟨t, ht, hptr⟩ := List.mem_flatMap.mp hptr
  obtain ⟨ptr', hptr', heq⟩ :=
    (h.closed hb smallestPeriodMs).runnables_of_tasks t ht _ (List.reduceOption_mem_iff.mp hptr)
  exact Option.some.inj heq ▸ hptr'

/-- The runnables that are left are in tasks that are left. -/
theorem mem_pointers_of_mem_runnables
    (hcovered : ∀ ptr < b.runnables.length, ptr ∈ b.tasks.flatMap (·.runnables)) {ptr : ℕ}
    (hptr : ptr ∈ B.runnables) : ptr ∈ B.tasks.flatMap TaskBasic.pointers := by
  subst hB
  obtain ⟨hlt, hsmall⟩ := h.mem_runnables_trim.mp hptr
  obtain ⟨t, ht, hmem⟩ := List.mem_flatMap.mp (hcovered ptr (h.heap.length_eq ▸ hlt))
  obtain ⟨t', ht', -, hperiod, hrunnables⟩ := exists_of_mem_right h.tasks.flip ht
  rw [h.isSmall_eq, hb.period t ht ptr hmem, Option.any_some, ← hperiod] at hsmall
  refine List.mem_flatMap.mpr ⟨t', List.mem_filter.mpr ⟨ht', by rw [hsmall]; rfl⟩, ?_⟩
  rw [TaskBasic.pointers, List.reduceOption_mem_iff, hrunnables]
  exact List.mem_map_of_mem hmem

/-- A label that a task reads from another one has a writer, and stands in the lists of what the tasks write
as often as its writer is in a task. -/
theorem exists_writer (hcovered : ∀ ptr < b.runnables.length, ptr ∈ b.tasks.flatMap (·.runnables)) {r : ℕ}
    (hr : r ∈ B.tasks.flatMap TaskBasic.pointers) {lid : ℤ} (hlid : lid ∈ held B.heap r .rwInterTaskRead) :
    ∃ w ∈ B.tasks.flatMap TaskBasic.pointers,
      (∀ w', w' ∈ B.runnables ∧ lid ∈ held B.heap w' .rwInterTaskWritten ↔ w' = w)
      ∧ ((B.tasks.flatMap TaskBasic.pointers).flatMap (held B.heap · .rwInterTaskWritten)).count lid
        = (B.tasks.flatMap TaskBasic.pointers).count w := by
  have hleft : ∀ ptr ∈ B.tasks.flatMap TaskBasic.pointers, ptr ∈ B.runnables :=
    fun _ => mem_runnables_of_mem_pointers h hb hB
  have hnodup : ∀ ptr, (held B.heap ptr .rwInterTaskWritten).Nodup := fun ptr =>
    hB ▸ h.nodup_held_trim rfl hb ptr _
  have hwritten : ∃! w, w ∈ B.runnables ∧ lid ∈ held B.heap w .rwInterTaskWritten := by
    subst hB
    exact (h.closed hb smallestPeriodMs).written r (hleft r hr) lid hlid
  obtain ⟨w, hw, hunique⟩ := hwritten
  refine ⟨w, mem_pointers_of_mem_runnables h hb hB hcovered hw.1,
    fun w' => ⟨hunique w', fun heq => heq ▸ hw⟩, count_flatMap_held fun ptr hptr => ?_⟩
  split
  · rename_i heq
    exact heq ▸ List.count_eq_one_of_mem (hnodup w) hw.2
  · rename_i hne
    exact List.count_eq_zero.mpr fun hmem' => hne (hunique ptr ⟨hleft ptr hptr, hmem'⟩)

/-- The assertion about the periods holds, and the runnables of the tasks are objects. -/
theorem exists_madeOf : ∃ tasks, B.tasks.mapM (makeTask B smallestPeriodMs) = some tasks
    ∧ B.tasks.mapM (KZH15Task.new B maxLabelSize.toNat) = some tasks
    ∧ List.Forall₂ (MadeOf B) B.tasks tasks := by
  obtain ⟨tasks, hmap, hspec⟩ : ∃ tasks, B.tasks.mapM (makeTask B smallestPeriodMs) = some tasks
      ∧ List.Forall₂ (fun t t' => KZH15Task.new B maxLabelSize.toNat t = some t' ∧ MadeOf B t t')
        B.tasks tasks := by
    refine Setting.exists_mapM B.tasks fun t ht => ?_
    obtain ⟨t', hnew, hlists⟩ := KZH15Task.new_spec (b := B) maxLabelSize.toNat fun r hr => by
      obtain ⟨ptr, hptr, -, heq⟩ := h.of_mem_task hb rfl (hB ▸ ht) hr
      exact ⟨ptr, hB ▸ hptr, heq⟩
    have hperiod : periodBelow t.periodMs smallestPeriodMs = false := by
      subst hB
      exact Bool.not_eq_true' _ ▸ (List.mem_filter.mp ht).2
    have htime : t'.timePeriodNs = msToNs t.periodMs := by
      obtain ⟨rs, -, hrs⟩ := Option.bind_eq_some_iff.mp hnew
      rw [← Option.some.inj hrs]
    exact ⟨t', by rw [makeTask, hperiod]; exact hnew, hnew, htime, fun a => (hlists a).1,
      fun a => (hlists a).2⟩
  refine ⟨tasks, hmap, ?_, hspec.imp fun _ _ hmade => hmade.2⟩
  clear hmap
  generalize B.tasks = ts at hspec
  induction hspec with
  | nil => rfl
  | cons ht _ ih =>
    rw [List.mapM_cons, ht.1, ih]
    rfl

/-- The tasks that `main` makes are those of one processor, once for each of them. -/
theorem exists_makeTasks (cpusUsed : ℕ) : ∃ tasks, makeTasks B smallestPeriodMs cpusUsed
      = some (List.replicate cpusUsed tasks).flatten ∧ List.Forall₂ (HasKeysOf B.heap) B.tasks tasks := by
  obtain ⟨tasks, hmap, -, hspec⟩ := exists_madeOf h hb hB
  refine ⟨tasks, ?_, hspec.imp fun _ _ hmade => hmade.keys⟩
  have hcpus : ((List.range cpusUsed).mapM fun _ => some tasks) = some (List.replicate cpusUsed tasks) := by
    rw [← List.length_range (n := cpusUsed), ← List.map_const', List.length_range]
    exact List.mapM_pure
  rw [makeTasks, hmap, hcpus]
  rfl

/-- **When the constraints line up.** Exactly when each label that a task reads from another task is written
once. -/
theorem linesUp_iff_writtenOnce (hcovered : ∀ ptr < b.runnables.length, ptr ∈ b.tasks.flatMap (·.runnables))
    {cpusUsed : ℕ} (hcpus : 0 < cpusUsed) : ∃ tasks, makeTasks B smallestPeriodMs cpusUsed = some tasks
      ∧ ((∀ t ∈ tasks, LinesUp tasks t) ↔ WrittenOnce B cpusUsed) := by
  obtain ⟨tasks, hmake, hspec⟩ := exists_makeTasks h hb hB cpusUsed
  refine ⟨_, hmake, ?_⟩
  have hwritten : ∀ t ∈ (List.replicate cpusUsed tasks).flatten, ∀ key ∈ t.keys .rwInterTaskRead,
      key ∈ (List.replicate cpusUsed tasks).flatten.flatMap (·.keys .rwInterTaskWritten) := by
    refine (forall_keysRead_iff hspec hcpus).mpr fun r hr lid hlid => ?_
    obtain ⟨w, hw, -, hcount⟩ := exists_writer h hb hB hcovered hr hlid
    rw [← List.count_pos_iff, count_keysWritten hspec, hcount]
    exact Nat.mul_pos hcpus (List.count_pos_iff.mpr hw)
  rw [forall₂_congr fun t ht => linesUp_iff_count (hwritten t ht), forall_keysRead_iff hspec hcpus]
  refine forall₂_congr fun r hr => forall₂_congr fun lid hlid => ?_
  obtain ⟨w, -, hunique, hcount⟩ := exists_writer h hb hB hcovered hr hlid
  rw [count_keysWritten hspec, hcount, mul_eq_one]
  constructor
  · intro hone w' hw' hlid'
    rwa [(hunique w').mp ⟨hw', hlid'⟩]
  · intro hall
    obtain ⟨hw, hlid'⟩ := (hunique w).mpr rfl
    exact hall w hw hlid'

/-- When no runnable is in two tasks, only several processors are in the way. -/
theorem writtenOnce_iff (hcovered : ∀ ptr < b.runnables.length, ptr ∈ b.tasks.flatMap (·.runnables))
    (hnodup : (b.tasks.flatMap (·.runnables)).Nodup) (cpusUsed : ℕ) :
    WrittenOnce B cpusUsed ↔ cpusUsed = 1 ∨ ReadsNothing B := by
  constructor
  · intro honce
    by_contra hnot
    rw [not_or, ReadsNothing, not_forall₂] at hnot
    obtain ⟨hcpus, r, hr, hne⟩ := hnot
    obtain ⟨lid, hlid⟩ := List.exists_mem_of_ne_nil _ hne
    obtain ⟨w, -, hunique, -⟩ := exists_writer h hb hB hcovered hr hlid
    obtain ⟨hw, hlid'⟩ := (hunique w).mpr rfl
    exact hcpus (honce r hr lid hlid w hw hlid').1
  · have hpointers : (B.tasks.flatMap TaskBasic.pointers).Nodup := by
      subst hB
      exact h.nodup_pointers
        (T := (b'.resolveLabelDependencies smallestPeriodMs).trimBenchmark smallestPeriodMs) rfl hnodup
    rintro (rfl | hnothing) r hr lid hlid w hw -
    · have hmem := mem_pointers_of_mem_runnables h hb hB hcovered hw
      exact ⟨rfl, List.count_eq_one_of_mem hpointers hmem⟩
    · rw [hnothing r hr] at hlid
      exact absurd hlid List.not_mem_nil

end Prepared

/-! ## Generated instances -/

variable [Floating D] [DecidableLT D] [DecidableLE D]

/-- **When the constraints line up.** For a generated instance, exactly when each label that a task reads from
another task is written once. -/
theorem linesUp_iff (cfg : Config D) (mergeRunnables : Bool) (mtype : MessageType) (draws rest : Draws D)
    (b : BenchmarkInstance D) (hnew : BenchmarkInstance.new cfg mergeRunnables mtype draws = some (b, rest))
    (L : Setting.Reread D) (smallestPeriodMs : UInt64) (cpusUsed : ℕ) (hcpus : 0 < cpusUsed) :
    ∃ b' tasks, BenchmarkInstanceBasic.ofSetting (L.apply b.exportToFile) = some b'
      ∧ makeTasks (b'.prepare smallestPeriodMs) smallestPeriodMs cpusUsed = some tasks
      ∧ ((∀ t ∈ tasks, LinesUp tasks t) ↔ WrittenOnce (b'.prepare smallestPeriodMs) cpusUsed) := by
  obtain ⟨hb, hcovered⟩ := yields_finished cfg mergeRunnables mtype draws _ hnew
  obtain ⟨b', hread, hreread⟩ := ofSetting_exportToFile L hb
  obtain ⟨tasks, hmake, hiff⟩ := linesUp_iff_writtenOnce hreread hb rfl hcovered hcpus
  exact ⟨b', tasks, hread, hmake, hiff⟩

/-- On one processor, and the task of 10 ms reads a label of the other one. -/
theorem linesUp_iff_twoPeriods : ∃ b rest,
    BenchmarkInstance.new twoPeriods true .interTask twoPeriodsDraws = some (b, rest)
      ∧ ∃ b' tasks, BenchmarkInstanceBasic.ofSetting ((Setting.Reread.exact ℚ).apply b.exportToFile) = some b'
        ∧ makeTasks (b'.prepare 5) 5 1 = some tasks
        ∧ ¬ReadsNothing (b'.prepare 5) ∧ ∀ t ∈ tasks, LinesUp tasks t := by
  have hrun : (do
      let generated ← BenchmarkInstance.new twoPeriods true .interTask twoPeriodsDraws
      let b' ← BenchmarkInstanceBasic.ofSetting generated.1.exportToFile
      let B := b'.prepare 5
      let rs := B.tasks.flatMap TaskBasic.pointers
      return rs.any (fun r => held B.heap r .rwInterTaskRead ≠ [])
        && rs.all fun r => (held B.heap r .rwInterTaskRead).all fun lid => B.runnables.all fun w =>
          lid ∉ held B.heap w .rwInterTaskWritten || rs.count w = 1) = some true := by
    decide +kernel
  obtain ⟨⟨b, rest⟩, hnew, hrun⟩ := Option.bind_eq_some_iff.mp hrun
  obtain ⟨b₁, hread₁, hrun⟩ := Option.bind_eq_some_iff.mp hrun
  obtain ⟨hreads, honce⟩ := Bool.and_eq_true_iff.mp (Option.some.inj hrun)
  obtain ⟨b', tasks, hread, hmake, hiff⟩ := linesUp_iff twoPeriods true .interTask twoPeriodsDraws rest b hnew
    (Setting.Reread.exact ℚ) 5 1 one_pos
  obtain rfl := Option.some.inj (hread₁.symm.trans hread)
  refine ⟨b, rest, hnew, b₁, tasks, hread, hmake, fun hnothing => ?_, hiff.mpr ?_⟩
  · obtain ⟨r, hr, hne⟩ := List.any_eq_true.mp hreads
    exact of_decide_eq_true hne (hnothing r hr)
  · intro r hr lid hlid w hw hlid'
    have hall := List.all_eq_true.mp (List.all_eq_true.mp (List.all_eq_true.mp honce r hr) lid hlid) w hw
    rw [Bool.or_eq_true_iff, decide_eq_true_eq, decide_eq_true_eq] at hall
    exact ⟨rfl, hall.resolve_left (not_not.mpr hlid')⟩

/-- One processor, when runnables are not merged or no period is listed twice: the assertion holds. -/
theorem linesUp_oneProcessor (cfg : Config D) (mergeRunnables : Bool)
    (hperiods : mergeRunnables = true → cfg.periodsMs.Nodup) (mtype : MessageType) (draws rest : Draws D)
    (b : BenchmarkInstance D) (hnew : BenchmarkInstance.new cfg mergeRunnables mtype draws = some (b, rest))
    (L : Setting.Reread D) (smallestPeriodMs : UInt64) :
    ∃ b' tasks, BenchmarkInstanceBasic.ofSetting (L.apply b.exportToFile) = some b'
      ∧ makeTasks (b'.prepare smallestPeriodMs) smallestPeriodMs 1 = some tasks
      ∧ ∀ t ∈ tasks, LinesUp tasks t := by
  obtain ⟨hb, hcovered⟩ := yields_finished cfg mergeRunnables mtype draws _ hnew
  have hnodup : (b.tasks.flatMap (·.runnables)).Nodup :=
    yields_nodup_runnables cfg mtype hperiods draws _ hnew
  obtain ⟨b', hread, hreread⟩ := ofSetting_exportToFile L hb
  obtain ⟨tasks, hmake, hiff⟩ := linesUp_iff_writtenOnce hreread hb rfl hcovered one_pos
  refine ⟨b', tasks, hread, hmake, hiff.mpr ?_⟩
  exact (writtenOnce_iff hreread hb rfl hcovered hnodup 1).mpr (Or.inl rfl)

/-- On two processors the constraints of some task of `twoPeriods` outnumber the labels that it reads. -/
theorem twoPeriods_constraints : (do
    let (b, _) ← BenchmarkInstance.new twoPeriods true .interTask twoPeriodsDraws
    let b' ← BenchmarkInstanceBasic.ofSetting b.exportToFile
    let tasks ← makeTasks (b'.prepare 5) 5 2
    return tasks.any fun t =>
      (t.keys .rwInterTaskRead).length < (freshnessConstraints tasks t).length) = some true := by
  decide +kernel

theorem not_linesUp_twoProcessors : ∃ b rest b' tasks t,
    BenchmarkInstance.new twoPeriods true .interTask twoPeriodsDraws = some (b, rest)
      ∧ BenchmarkInstanceBasic.ofSetting b.exportToFile = some b'
      ∧ makeTasks (b'.prepare 5) 5 2 = some tasks ∧ t ∈ tasks
      ∧ (t.keys .rwInterTaskRead).length < (freshnessConstraints tasks t).length ∧ ¬LinesUp tasks t := by
  obtain ⟨⟨b, rest⟩, hnew, h⟩ := Option.bind_eq_some_iff.mp twoPeriods_constraints
  obtain ⟨b', hread, h⟩ := Option.bind_eq_some_iff.mp h
  obtain ⟨tasks, hmake, h⟩ := Option.bind_eq_some_iff.mp h
  obtain ⟨t, ht, hlt⟩ := List.any_eq_true.mp (Option.some.inj h)
  have hlt := of_decide_eq_true hlt
  exact ⟨b, rest, b', tasks, t, hnew, hread, hmake, ht, hlt, fun hlines => hlt.ne hlines.length_eq⟩

end Bosch1
