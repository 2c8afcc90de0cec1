import Inconcretes.Kzh15.Task
import Mathlib.Data.List.ReduceOption

/-!
# The capacity of the store

`bftkvs_init_from_config` chooses room for more tuples than there are labels. A job of a task writes a label
for each entry of four of its lists, and no label is in two of them, over all tasks, when no runnable is in
two tasks (`nodup_lidsWritten`). So the jobs between two jobs of the store find room for all their writes
(`capacity_suffices`). When runnables are merged, a period that is listed twice puts its runnables into two
tasks, and a write can find the store full (`exists_not_safe`).
-/

namespace KZH15

open Std Achal

variable {D : Type}

/-! ## The ladder of templates -/

theorem ladder_lt (i : Fin 20) : 100 * (i.val + 1) < 2 ^ 31 := by omega

/-- The `BFTKVS<NT, 7, 15>` of `bftkvs_init_from_config(NT, …)`. Without a result an assertion has failed. -/
def bftkvsInitFromConfig (NT : ℕ) : Option Params :=
  ((List.finRange 20).map fun i => ⟨100 * (i.val + 1), 7, 15, ladder_lt i⟩).find? fun P => NT < P.NT

theorem bftkvsInitFromConfig_eq_some {NT : ℕ} (h : NT < 2000) :
    ∃ P, bftkvsInitFromConfig NT = some P ∧ NT < P.NT ∧ P.KS = 7 ∧ P.VS = 15 := by
  obtain ⟨P, hP⟩ : ∃ P, bftkvsInitFromConfig NT = some P := by
    rw [← Option.isSome_iff_exists, bftkvsInitFromConfig, List.find?_isSome]
    exact ⟨_, List.mem_map_of_mem (List.mem_finRange (Fin.last 19)), decide_eq_true h⟩
  have hlt : NT < P.NT := by simpa using List.find?_some hP
  obtain ⟨i, -, rfl⟩ := List.mem_map.mp (List.mem_of_find?_eq_some hP)
  exact ⟨_, hP, hlt, rfl, rfl⟩

example : (bftkvsInitFromConfig 0).map Params.NT = some 100 := by decide
example : (bftkvsInitFromConfig 1999).map Params.NT = some 2000 := by decide
example : (bftkvsInitFromConfig 2000).map Params.NT = none := by decide

/-! ## Sizes of keys and values -/

theorem length_toString_le {lid : ℤ} (hnonneg : 0 ≤ lid) (hlt : lid < 10 ^ 7) :
    (toString lid).length ≤ 7 := by
  rw [toString, if_neg (by omega)]
  exact Decimal.length_render_le (by omega) (by omega)

theorem labelSize_le (size : ℤ) : labelSize 16 size ≤ 15 := by
  rw [labelSize]
  omega

/-! ## What a job writes -/

/-- The lists whose labels a job writes, in its order. -/
def writtenAccesses : List Access := [.woWritten, .rwInterTaskWritten, .rwIntraTaskWritten, .roRead]

/-- The positions of the runnables of a task. -/
def TaskBasic.pointers (t : TaskBasic D) : List ℕ := t.runnables.reduceOption

/-- The lists that a job goes through. -/
def TaskBasic.sitesWritten (t : TaskBasic D) : List (ℕ × Access) :=
  writtenAccesses.flatMap fun a => t.pointers.map (·, a)

/-- The labels that a job writes. -/
def TaskBasic.lidsWritten (heap : List (RunnableBasic D)) (t : TaskBasic D) : List ℤ :=
  t.sitesWritten.flatMap fun s => held heap s.1 s.2

/-- A task whose runnables are objects gets the keys and values of their labels. -/
theorem KZH15Task.new_spec {b : BenchmarkInstanceBasic D} (maxLabelSize : ℤ) {t : TaskBasic D}
    (h : ∀ r ∈ t.runnables, ∃ ptr < b.heap.length, r = some ptr) :
    ∃ t', KZH15Task.new b maxLabelSize t = some t'
      ∧ ∀ a, t'.keys a = (t.pointers.flatMap (held b.heap · a)).map toString
        ∧ t'.values a = (t.pointers.flatMap (held b.heap · a)).map fun lid =>
            List.replicate (labelSize maxLabelSize (b.labelSizes.getD lid 0)).toNat 97 := by
  obtain ⟨rs, hrs, hlabels⟩ : ∃ rs, (t.runnables.mapM fun r => r.bind fun ptr => b.heap[ptr]?) = some rs
      ∧ ∀ a, rs.flatMap (fun r => r.labels a) = t.pointers.flatMap (held b.heap · a) := by
    rw [TaskBasic.pointers]
    generalize t.runnables = ptrs at h
    induction ptrs with
    | nil => exact ⟨[], rfl, fun _ => rfl⟩
    | cons r ptrs ih =>
      obtain ⟨⟨ptr, hptr, rfl⟩, hptrs⟩ := List.forall_mem_cons.mp h
      obtain ⟨rs, hrs, hlabels⟩ := ih hptrs
      refine ⟨b.heap[ptr] :: rs, ?_, fun a => ?_⟩
      · rw [List.mapM_cons, hrs, Option.bind_some, List.getElem?_eq_getElem hptr]
        rfl
      · rw [List.reduceOption_cons_of_some, List.flatMap_cons, List.flatMap_cons, hlabels, held,
          List.getElem?_eq_getElem hptr]
        rfl
  refine ⟨_, by rw [KZH15Task.new, hrs]; rfl, fun a => ⟨?_, ?_⟩⟩
  · rw [← hlabels, List.map_flatMap]
  · rw [← hlabels, List.map_flatMap]

theorem keysWritten_eq {heap : List (RunnableBasic D)} {t : TaskBasic D} {t' : KZH15Task}
    (h : ∀ a, t'.keys a = (t.pointers.flatMap (held heap · a)).map toString) :
    t'.keysWritten = (t.lidsWritten heap).map toString := by
  simp only [KZH15Task.keysWritten, h, TaskBasic.lidsWritten, TaskBasic.sitesWritten, writtenAccesses,
    List.flatMap_cons, List.flatMap_nil, List.append_nil, List.flatMap_append, List.flatMap_map,
    List.map_append, List.append_assoc]

theorem of_mem_sitesWritten {ts : List (TaskBasic D)} {s : ℕ × Access}
    (h : s ∈ ts.flatMap TaskBasic.sitesWritten) :
    (∃ t ∈ ts, some s.1 ∈ t.runnables) ∧ s.2 ∈ writtenAccesses := by
  obtain ⟨t, ht, hs⟩ := List.mem_flatMap.mp h
  obtain ⟨a, ha, hs⟩ := List.mem_flatMap.mp hs
  obtain ⟨ptr, hptr, rfl⟩ := List.mem_map.mp hs
  exact ⟨⟨t, ht, List.reduceOption_mem_iff.mp hptr⟩, ha⟩

/-- No list is gone through twice. -/
theorem nodup_sitesWritten {ts : List (TaskBasic D)} (h : (ts.flatMap TaskBasic.pointers).Nodup) :
    (ts.flatMap TaskBasic.sitesWritten).Nodup := by
  rw [List.nodup_flatMap] at h ⊢
  constructor
  · intro t ht
    rw [TaskBasic.sitesWritten, List.nodup_flatMap]
    refine ⟨fun a _ => (h.1 t ht).map fun _ _ heq => (Prod.mk.inj heq).1, ?_⟩
    have hnodup : writtenAccesses.Nodup := by decide
    refine hnodup.imp fun {a a'} hne s hs hs' => hne ?_
    obtain ⟨ptr, -, rfl⟩ := List.mem_map.mp hs
    obtain ⟨ptr', -, heq⟩ := List.mem_map.mp hs'
    exact (Prod.mk.inj heq).2.symm
  · refine h.2.imp fun {t t'} hdisjoint s hs hs' => ?_
    obtain ⟨a, -, hs⟩ := List.mem_flatMap.mp hs
    obtain ⟨a', -, hs'⟩ := List.mem_flatMap.mp hs'
    obtain ⟨ptr, hptr, rfl⟩ := List.mem_map.mp hs
    obtain ⟨ptr', hptr', heq⟩ := List.mem_map.mp hs'
    exact hdisjoint hptr ((Prod.mk.inj heq).1 ▸ hptr')

/-! ## No label is written twice -/

theorem PlacedSites.nodup {tasks : List (Task D)} {sites : List (ℕ × Access)} (h : PlacedSites tasks sites) :
    sites.Nodup := by
  cases h <;> simp

/-- A mapped label is in one of the lists that a job writes. -/
theorem PlacedSites.eq_of_written {tasks : List (Task D)} {sites : List (ℕ × Access)}
    (h : PlacedSites tasks sites) {s s' : ℕ × Access} (hs : s ∈ sites) (hs' : s' ∈ sites)
    (hwritten : s.2 ∈ writtenAccesses) (hwritten' : s'.2 ∈ writtenAccesses) : s = s' := by
  cases h with
  | readOnly r => rw [List.mem_singleton.mp hs, List.mem_singleton.mp hs']
  | writeOnly w => rw [List.mem_singleton.mp hs, List.mem_singleton.mp hs']
  | intraTask r w =>
    have hone : ∀ s ∈ [(r, Access.rwIntraTaskRead), (w, .rwIntraTaskWritten)], s.2 ∈ writtenAccesses →
        s = (w, .rwIntraTaskWritten) := by
      simp [writtenAccesses]
    rw [hone s hs hwritten, hone s' hs' hwritten']
  | interTask r w =>
    have hone : ∀ s ∈ [(r, Access.rwInterTaskRead), (w, .rwInterTaskWritten)], s.2 ∈ writtenAccesses →
        s = (w, .rwInterTaskWritten) := by
      simp [writtenAccesses]
    rw [hone s hs hwritten, hone s' hs' hwritten']

theorem BenchmarkInstance.WellFormed.nodup_held {b : BenchmarkInstance D} (hb : b.WellFormed) (ptr : ℕ)
    (a : Access) : (held b.runnables ptr a).Nodup := by
  have hrecords : (records b.labels).Nodup := by
    rw [records, List.nodup_flatMap]
    constructor
    · intro l hl
      exact (hb.placed l hl).placedSites.nodup.map fun _ _ heq => (Prod.mk.inj heq).2
    · refine (List.pairwise_map.mp hb.nodup_ids).imp fun hne x hx hx' => hne ?_
      obtain ⟨s, -, rfl⟩ := List.mem_map.mp hx
      obtain ⟨s', -, heq⟩ := List.mem_map.mp hx'
      exact (Prod.mk.inj heq).1.symm
  rw [List.nodup_iff_count_le_one]
  intro lid
  rw [hb.recorded]
  exact List.nodup_iff_count_le_one.mp hrecords _

namespace BenchmarkInstance.Reread

variable {b : BenchmarkInstance D} {b' : BenchmarkInstanceBasic D} (h : b.Reread b') (hb : b.WellFormed)
  {smallestPeriodMs : UInt64} {T : BenchmarkInstanceBasic D}
  (hT : T = (b'.resolveLabelDependencies smallestPeriodMs).trimBenchmark smallestPeriodMs)

include h hT

omit hT in
theorem flatMap_pointers : b'.tasks.flatMap TaskBasic.pointers = b.tasks.flatMap (·.runnables) := by
  have htasks := h.tasks
  clear h
  generalize b.tasks = ts, b'.tasks = ts' at htasks
  induction htasks with
  | nil => rfl
  | cons ht _ ih =>
    rw [List.flatMap_cons, List.flatMap_cons, ih, TaskBasic.pointers, ht.2.2, List.reduceOption,
      List.filterMap_map]
    exact congrArg (· ++ _) List.filterMap_some

/-- No runnable is in two of the tasks that are left. -/
theorem nodup_pointers (hnodup : (b.tasks.flatMap (·.runnables)).Nodup) :
    (T.tasks.flatMap TaskBasic.pointers).Nodup := by
  have hsub : T.tasks.Sublist b'.tasks := by
    rw [hT]
    exact List.filter_sublist
  rw [← h.flatMap_pointers] at hnodup
  exact hnodup.sublist (hsub.flatMap _)

theorem nodup_held_trim (hb : b.WellFormed) (ptr : ℕ) (a : Access) : (held T.heap ptr a).Nodup := by
  have hnodup : (held b'.heap ptr a).Nodup := h.held_eq ptr a ▸ hb.nodup_held ptr a
  subst hT
  show (held (b'.resolveLabelDependencies smallestPeriodMs).heap ptr a).Nodup
  rw [BenchmarkInstanceBasic.held_resolve h.runnables]
  split
  · exact hnodup.filter _
  · exact hnodup

include hb

/-- The runnables of the tasks that are left are objects, and are left. -/
theorem of_mem_task {t : TaskBasic D} (ht : t ∈ T.tasks) {r : Option ℕ} (hr : r ∈ t.runnables) :
    ∃ ptr < T.heap.length, b'.isSmall smallestPeriodMs ptr = false ∧ r = some ptr := by
  have hclosed := h.closed hb smallestPeriodMs
  rw [← hT] at hclosed
  obtain ⟨ptr, hptr, rfl⟩ := hclosed.runnables_of_tasks t ht r hr
  refine ⟨ptr, hclosed.allocated ptr hptr, ?_, rfl⟩
  rw [hT] at hptr
  exact (h.mem_runnables_trim.mp hptr).2

/-- The label in a list that a job goes through. -/
theorem exists_of_mem_written {s : ℕ × Access} (hs : s ∈ T.tasks.flatMap TaskBasic.sitesWritten) {lid : ℤ}
    (hlid : lid ∈ held T.heap s.1 s.2) :
    ∃ l ∈ b.labels, l.id = lid ∧ s ∈ l.sites ∧ lid ∈ T.labelSizes := by
  obtain ⟨⟨t, ht, hptr⟩, -⟩ := of_mem_sitesWritten hs
  obtain ⟨ptr, -, hleft, heq⟩ := h.of_mem_task hb hT ht hptr
  obtain rfl := Option.some.inj heq
  rw [hT] at hlid
  obtain ⟨l, hl, hid, hsite, hkept⟩ := h.exists_of_mem_held_trim hb hleft hlid
  refine ⟨l, hl, hid, hsite, ?_⟩
  rw [hT]
  exact h.mem_labelSizes_trim.mpr ⟨l, hl, hid, hkept⟩

/-- No label is written by two jobs, or twice by one. -/
theorem nodup_lidsWritten (hnodup : (b.tasks.flatMap (·.runnables)).Nodup) :
    (T.tasks.flatMap (TaskBasic.lidsWritten T.heap)).Nodup := by
  have hsites := nodup_sitesWritten (h.nodup_pointers hT hnodup)
  show (T.tasks.flatMap fun t => t.sitesWritten.flatMap fun s => held T.heap s.1 s.2).Nodup
  rw [← List.flatMap_assoc, List.nodup_flatMap]
  refine ⟨fun s _ => h.nodup_held_trim hT hb s.1 s.2, List.Pairwise.imp_of_mem ?_ hsites⟩
  intro s s' hs hs' hne lid hlid hlid'
  obtain ⟨l, hl, hid, hsite, -⟩ := h.exists_of_mem_written hb hT hs hlid
  obtain ⟨l', hl', hid', hsite', -⟩ := h.exists_of_mem_written hb hT hs' hlid'
  obtain rfl := hb.eq_of_id hl hl' (hid.trans hid'.symm)
  exact hne ((hb.placed l hl).placedSites.eq_of_written hsite hsite' (of_mem_sitesWritten hs).2
    (of_mem_sitesWritten hs').2)

/-- The jobs write at most as many labels as there are. -/
theorem length_lidsWritten_le (hnodup : (b.tasks.flatMap (·.runnables)).Nodup) :
    (T.tasks.flatMap (TaskBasic.lidsWritten T.heap)).length ≤ T.labelSizes.size := by
  rw [← TreeMap.length_keys]
  refine (List.subperm_of_subset (h.nodup_lidsWritten hb hT hnodup) fun lid hlid => ?_).length_le
  obtain ⟨t, ht, hlid⟩ := List.mem_flatMap.mp hlid
  obtain ⟨s, hs, hlid⟩ := List.mem_flatMap.mp hlid
  obtain ⟨l, -, -, -, hsize⟩ := h.exists_of_mem_written hb hT (List.mem_flatMap.mpr ⟨t, ht, hs⟩) hlid
  exact TreeMap.mem_keys.mpr hsize

end BenchmarkInstance.Reread

/-! ## The tasks of an instance -/

/-- `MAX_LABEL_SIZE`. -/
def maxLabelSize : UInt32 := 16

/-- The capacity that is chosen for an instance suffices: the keys that its tasks write are no more than
its labels, and fewer than the tuples that the store has room for, and in every run in which each task runs
at most one job between two jobs of the store, no assertion fails and every write fits and finds room. -/
def BenchmarkInstanceBasic.CapacitySuffices (b : BenchmarkInstanceBasic D) : Prop :=
  ∃ P tasks, bftkvsInitFromConfig b.labelSizes.size = some P
    ∧ b.tasks.mapM (KZH15Task.new b maxLabelSize.toNat) = some tasks
    ∧ (tasks.flatMap KZH15Task.keysWritten).length ≤ b.labelSizes.size ∧ b.labelSizes.size < P.NT
    ∧ ∀ (S : Shape) (crc : List UInt8 → UInt32) (pid : Fin S.degree)
        (constraints : Fin tasks.length → ℕ → Uint64),
        (Cpu.init tasks.get constraints : Cpu P tasks.length).Safe crc pid

/-- `resolve_label_dependencies`, `trim_benchmark` and `shrink_label_sizes`, as `main` applies them. -/
def BenchmarkInstanceBasic.prepare (b : BenchmarkInstanceBasic D) (smallestPeriodMs : UInt64) :
    BenchmarkInstanceBasic D :=
  ((b.resolveLabelDependencies smallestPeriodMs).trimBenchmark smallestPeriodMs).shrinkLabelSizes
    maxLabelSize

section Tasks

variable {b : BenchmarkInstance D} {b' : BenchmarkInstanceBasic D} (h : b.Reread b') (hb : b.WellFormed)
  (hids : ∀ l ∈ b.labels, l.id < 10 ^ 7) (smallestPeriodMs : UInt64)

include h hb hids

/-- The tasks that are made write the labels of their runnables. -/
theorem exists_tasks {P : Params} (hP : P.KS = 7 ∧ P.VS = 15) {B : BenchmarkInstanceBasic D}
    (hB : B = b'.prepare smallestPeriodMs) :
    ∃ tasks, B.tasks.mapM (KZH15Task.new B maxLabelSize.toNat) = some tasks ∧ (∀ t ∈ tasks, t.Fits P)
      ∧ (tasks.flatMap KZH15Task.keysWritten).length
        = (B.tasks.flatMap (TaskBasic.lidsWritten B.heap)).length := by
  obtain ⟨T, hT⟩ : ∃ T, T = (b'.resolveLabelDependencies smallestPeriodMs).trimBenchmark smallestPeriodMs :=
    ⟨_, rfl⟩
  have hheap : B.heap = T.heap := by rw [hB, hT]; rfl
  have htasks : B.tasks = T.tasks := by rw [hB, hT]; rfl
  obtain ⟨tasks, hmap, hspec⟩ := Setting.exists_mapM B.tasks fun t ht =>
    KZH15Task.new_spec (b := B) maxLabelSize.toNat fun r hr => by
      obtain ⟨ptr, hptr, -, heq⟩ := h.of_mem_task hb hT (htasks ▸ ht) hr
      exact ⟨ptr, hheap ▸ hptr, heq⟩
  refine ⟨tasks, hmap, fun t' ht' => ?_, ?_⟩
  · obtain ⟨t, ht, hlists⟩ := exists_of_mem_right hspec ht'
    refine ⟨fun a key hkey => ?_, fun a value hvalue => ?_, fun a => ?_⟩
    · rw [(hlists a).1] at hkey
      obtain ⟨lid, hlid, rfl⟩ := List.mem_map.mp hkey
      obtain ⟨ptr, hptr, hlid⟩ := List.mem_flatMap.mp hlid
      obtain ⟨_, -, hleft, heq⟩ :=
        h.of_mem_task hb hT (htasks ▸ ht) (List.reduceOption_mem_iff.mp hptr)
      obtain rfl := Option.some.inj heq
      rw [hheap, hT] at hlid
      obtain ⟨l, hl, rfl, -⟩ := h.exists_of_mem_held_trim hb hleft hlid
      rw [hP.1]
      exact length_toString_le (hb.id_nonneg l hl) (hids l hl)
    · rw [(hlists a).2] at hvalue
      obtain ⟨lid, -, rfl⟩ := List.mem_map.mp hvalue
      rw [List.length_replicate, hP.2]
      exact Int.toNat_le.mpr (labelSize_le _)
    · rw [(hlists a).1, (hlists a).2, List.length_map, List.length_map]
  · clear hmap
    generalize B.tasks = ts at hspec
    induction hspec with
    | nil => rfl
    | cons ht _ ih =>
      rw [List.flatMap_cons, List.flatMap_cons, List.length_append, List.length_append, ih,
        keysWritten_eq fun a => (ht a).1, List.length_map]

/-- The capacity suffices when no runnable is in two tasks. -/
theorem capacitySuffices_of_nodup (hnodup : (b.tasks.flatMap (·.runnables)).Nodup)
    (htotal : (b'.prepare smallestPeriodMs).labelSizes.size < 2000) :
    (b'.prepare smallestPeriodMs).CapacitySuffices := by
  obtain ⟨P, hP, hNT, hKS, hVS⟩ := bftkvsInitFromConfig_eq_some htotal
  obtain ⟨tasks, htasks, hfits, hcount⟩ := exists_tasks h hb hids smallestPeriodMs (P := P) ⟨hKS, hVS⟩ rfl
  have hle : (tasks.flatMap KZH15Task.keysWritten).length ≤ (b'.prepare smallestPeriodMs).labelSizes.size := by
    rw [hcount]
    exact (h.length_lidsWritten_le hb rfl hnodup).trans_eq TreeMap.size_map.symm
  exact ⟨P, tasks, hP, htasks, hle, hNT, fun S crc pid constraints =>
    Cpu.safe_new hfits constraints (hle.trans hNT.le)⟩

end Tasks

/-! ## Generated instances -/

variable [Floating D] [DecidableLT D] [DecidableLE D]

/-- **The capacity suffices** for every generated instance whose runnables are not merged, or whose
configuration lists no period twice. -/
theorem capacity_suffices (cfg : Config D) (mergeRunnables : Bool)
    (hperiods : mergeRunnables = true → cfg.periodsMs.Nodup) (mtype : MessageType) (draws rest : Draws D)
    (b : BenchmarkInstance D)
    (hnew : BenchmarkInstance.new cfg mergeRunnables mtype draws = some (b, rest))
    (hids : ∀ l ∈ b.labels, l.id < 10 ^ 7) (L : Setting.Reread D) (smallestPeriodMs : UInt64) :
    ∃ b', BenchmarkInstanceBasic.ofSetting (L.apply b.exportToFile) = some b'
      ∧ ((b'.prepare smallestPeriodMs).labelSizes.size < 2000 →
        (b'.prepare smallestPeriodMs).CapacitySuffices) := by
  have hb : b.WellFormed := yields_wellFormed cfg mergeRunnables mtype draws _ hnew
  have hnodup : (b.tasks.flatMap (·.runnables)).Nodup :=
    yields_nodup_runnables cfg mtype hperiods draws _ hnew
  obtain ⟨b', hread, hreread⟩ := ofSetting_exportToFile L hb
  exact ⟨b', hread, capacitySuffices_of_nodup hreread hb hids smallestPeriodMs hnodup⟩

theorem capacity_suffices_twoPeriods : ∃ b rest,
    BenchmarkInstance.new twoPeriods true .interTask twoPeriodsDraws = some (b, rest)
      ∧ ∃ b', BenchmarkInstanceBasic.ofSetting ((Setting.Reread.exact ℚ).apply b.exportToFile) = some b'
        ∧ (b'.prepare 10).CapacitySuffices := by
  have hsmall : (do
      let (b, _) ← BenchmarkInstance.new twoPeriods true .interTask twoPeriodsDraws
      let b' ← BenchmarkInstanceBasic.ofSetting b.exportToFile
      return b.labels.all (·.id < 10 ^ 7) && (b'.prepare 10).labelSizes.size < 2000) = some true := by
    decide +kernel
  obtain ⟨⟨b, rest⟩, hnew, hsmall⟩ := Option.bind_eq_some_iff.mp hsmall
  obtain ⟨b₁, hread₁, hsmall⟩ := Option.bind_eq_some_iff.mp hsmall
  obtain ⟨hids, hsize⟩ := Bool.and_eq_true_iff.mp (Option.some.inj hsmall)
  obtain ⟨b', hread, hsuffices⟩ := capacity_suffices twoPeriods true (fun _ => by decide) .interTask
    twoPeriodsDraws rest b hnew (by simpa using hids) (Setting.Reread.exact ℚ) 10
  obtain rfl := Option.some.inj (hread₁.symm.trans hread)
  exact ⟨b, rest, hnew, b₁, hread, hsuffices (of_decide_eq_true hsize)⟩

/-! ## A period that is listed twice -/

/-- One runnable, whose period is listed twice, writes 51 labels. -/
def repeatedPeriod : Config ℚ where
  scaleFactor := 1
  periodsMs := [10, 10]
  labelsCfg := {
    count := ⟨51, 51⟩
    sizeShares := .insert ∅ ⟨1, 8⟩ 100
    typePartition := .insert ∅ .writeOnly 100 }
  msgsCfg := {
    typePartition := ∅
    interTaskMsgsCfg := { volumeTypes := ∅, dist := .insert ∅ 10 (.insert ∅ 10 .I) } }
  runnablesCfg := {
    count := ⟨1, 1⟩
    periodShares := .insert ∅ 10 100
    execTimeProfiles := ∅ }

def repeatedPeriodDraws : Draws ℚ where
  ints := 1 :: 51 :: List.replicate 51 0
  reals := [0, 1, 1] ++ List.replicate 51 0

/-- Both tasks write the labels of the runnable. -/
theorem repeatedPeriod_writes : (do
    let (b, _) ← BenchmarkInstance.new repeatedPeriod true .interTask repeatedPeriodDraws
    let b' ← BenchmarkInstanceBasic.ofSetting b.exportToFile
    let B := b'.prepare 10
    let P ← bftkvsInitFromConfig B.labelSizes.size
    let tasks ← B.tasks.mapM (KZH15Task.new B maxLabelSize.toNat)
    return (b.labels.all (·.id < 10 ^ 7), B.labelSizes.size, P.NT,
      (tasks.flatMap KZH15Task.keysWritten).length, tasks.map (·.timePeriodNs.val)))
      = some (true, 51, 100, 102, [10000000, 10000000]) := by
  decide +kernel

/-- The capacity that is chosen does not suffice, and there are runs in which a write finds no room. -/
theorem exists_not_safe : ∃ b rest b' P tasks,
    BenchmarkInstance.new repeatedPeriod true .interTask repeatedPeriodDraws = some (b, rest)
      ∧ (∀ l ∈ b.labels, l.id < 10 ^ 7) ∧ BenchmarkInstanceBasic.ofSetting b.exportToFile = some b'
      ∧ (b'.prepare 10).labelSizes.size = 51
      ∧ bftkvsInitFromConfig (b'.prepare 10).labelSizes.size = some P
      ∧ (b'.prepare 10).tasks.mapM (KZH15Task.new (b'.prepare 10) maxLabelSize.toNat) = some tasks
      ∧ (b'.prepare 10).labelSizes.size < (tasks.flatMap KZH15Task.keysWritten).length
      ∧ ∀ (S : Shape) (crc : List UInt8 → UInt32) (pid : Fin S.degree)
        (constraints : Fin tasks.length → ℕ → Uint64),
        ¬(Cpu.init tasks.get constraints : Cpu P tasks.length).Safe crc pid := by
  obtain ⟨⟨b, rest⟩, hnew, hwrites⟩ := Option.bind_eq_some_iff.mp repeatedPeriod_writes
  obtain ⟨b', hread, hwrites⟩ := Option.bind_eq_some_iff.mp hwrites
  obtain ⟨P, hP, hwrites⟩ := Option.bind_eq_some_iff.mp hwrites
  obtain ⟨tasks, htasks, hwrites⟩ := Option.bind_eq_some_iff.mp hwrites
  obtain ⟨hids, hsize, hNT, hcount, hperiods⟩ : _ ∧ _ ∧ _ ∧ _ ∧ _ := by
    simpa only [Prod.mk.injEq] using Option.some.inj hwrites
  have hids : ∀ l ∈ b.labels, l.id < 10 ^ 7 := by simpa using hids
  refine ⟨b, rest, b', P, tasks, hnew, hids, hread, hsize, hP, htasks, by omega,
    fun S crc pid constraints hsafe => ?_⟩
  have hb : b.WellFormed := yields_wellFormed repeatedPeriod true .interTask repeatedPeriodDraws _ hnew
  obtain ⟨_, hread', hreread⟩ := ofSetting_exportToFile (Setting.Reread.exact ℚ) hb
  obtain rfl := Option.some.inj (hread.symm.trans hread')
  have htotal : (b'.prepare 10).labelSizes.size < 2000 := hsize ▸ by decide
  obtain ⟨P', hP', -, hKS, hVS⟩ := bftkvsInitFromConfig_eq_some htotal
  obtain rfl := Option.some.inj (hP.symm.trans hP')
  obtain ⟨_, htasks', hfits, -⟩ := exists_tasks hreread hb hids 10 ⟨hKS, hVS⟩ rfl
  obtain rfl := Option.some.inj (htasks.symm.trans htasks')
  have hperiod : ∀ t ∈ tasks, 0 < t.timePeriodNs := by
    intro t ht
    have hmem := List.mem_map_of_mem (f := fun t : KZH15Task => t.timePeriodNs.val) ht
    rw [hperiods] at hmem
    have heq : t.timePeriodNs.val = 10000000 := by simpa using hmem
    exact Fin.lt_def.mpr (by rw [heq]; decide)
  have hroom := (Cpu.safe_new_iff hfits constraints hperiod).mp hsafe
  omega

/-- The capacity need not suffice when runnables are merged and a period is listed twice. -/
theorem not_capacity_suffices : ¬∀ (cfg : Config ℚ) (mergeRunnables : Bool) (mtype : MessageType)
    (draws rest : Draws ℚ) (b : BenchmarkInstance ℚ),
    BenchmarkInstance.new cfg mergeRunnables mtype draws = some (b, rest) →
      (∀ l ∈ b.labels, l.id < 10 ^ 7) → ∀ (L : Setting.Reread ℚ) (smallestPeriodMs : UInt64),
        ∃ b', BenchmarkInstanceBasic.ofSetting (L.apply b.exportToFile) = some b'
          ∧ ((b'.prepare smallestPeriodMs).labelSizes.size < 2000 →
            (b'.prepare smallestPeriodMs).CapacitySuffices) := by
  intro hall
  obtain ⟨b, rest, b', P, tasks, hnew, hids, hread, hsize, hP, htasks, -, hunsafe⟩ := exists_not_safe
  obtain ⟨_, hread', hsuffices⟩ :=
    hall repeatedPeriod true .interTask repeatedPeriodDraws rest b hnew hids (Setting.Reread.exact ℚ) 10
  obtain rfl := Option.some.inj (hread.symm.trans hread')
  obtain ⟨_, _, hP', htasks', -, -, hsafe⟩ := hsuffices (hsize ▸ by decide)
  obtain rfl := Option.some.inj (hP.symm.trans hP')
  obtain rfl := Option.some.inj (htasks.symm.trans htasks')
  exact hunsafe .four crc32 0 (fun _ _ => 0) (hsafe .four crc32 0 fun _ _ => 0)

end KZH15
