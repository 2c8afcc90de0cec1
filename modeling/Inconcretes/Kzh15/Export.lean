import Inconcretes.Kzh15.Placement
import Inconcretes.Lib.Settings

/-!
# Exported instances

`export_to_file` writes an instance as a tree of settings, and `BenchmarkInstanceBasic` reads it back, with
the numbers of labels and the objects of runnables in place of pointers. Periods are exported as positive
ones. What is read back has the runnables, tasks and labels of the instance (`ofSetting_exportToFile`).
-/

namespace KZH15

open Std

variable {D : Type}

/-! ## Writing -/

section Write

variable [Floating D]

/-- `get_total_utilization()`. -/
def BenchmarkInstance.getTotalUtilization (b : BenchmarkInstance D) : D :=
  b.tasks.foldl (fun total t => total + t.getUtilization) (0 : ℤ)

/-- The group of a task. -/
def Task.toSetting (runnables : List (Runnable D)) (t : Task D) : Setting D :=
  .group [("id", .int t.id), ("period_ms", .int (getMinPeriodMs t.periodMs)), ("acet_us", .float t.acetUs),
    ("bcet_us", .float t.bcetUs), ("wcet_us", .float t.wcetUs),
    ("runnables", .array ((t.runnables.map (idAt runnables)).map .int))]

/-- The group of a runnable. -/
def Runnable.toSetting (r : Runnable D) : Setting D :=
  .group [("id", .int r.id), ("period_ms", .int (getMinPeriodMs r.periodMs)), ("acet_us", .float r.acetUs),
    ("bcet_us", .float r.bcetUs), ("wcet_us", .float r.wcetUs),
    ("ro_labels_read", .array (r.roLabelsRead.map .int)),
    ("wo_labels_written", .array (r.woLabelsWritten.map .int)),
    ("rw_intra_task_labels_read", .array (r.rwIntraTaskLabelsRead.map .int)),
    ("rw_intra_task_labels_written", .array (r.rwIntraTaskLabelsWritten.map .int)),
    ("rw_inter_task_labels_read", .array (r.rwInterTaskLabelsRead.map .int)),
    ("rw_inter_task_labels_written", .array (r.rwInterTaskLabelsWritten.map .int))]

/-- The group of a label. -/
def Label.toSetting (l : Label) : Setting D := .group [("id", .int l.id), ("size_bytes", .int l.sizeBytes)]

/-- `export_to_file()`. -/
def BenchmarkInstance.exportToFile (b : BenchmarkInstance D) : Setting D :=
  .group [("KZH15BenchmarkInstance", .group [
    ("Summary", .group [("utilization", .float b.getTotalUtilization), ("num_labels", .int b.labels.length)]),
    ("Tasks", .list (b.tasks.map (Task.toSetting b.runnables))),
    ("Runnables", .list (b.runnables.map Runnable.toSetting)),
    ("Labels", .list (b.labels.map Label.toSetting))])]

end Write

/-! ## Reading -/

/-- A `RunnableBasic` has the numbers of labels, which is what a `Runnable` has here. -/
abbrev RunnableBasic (D : Type) := Runnable D

/-- The runnables are positions in the heap, or null. -/
structure TaskBasic (D : Type) where
  id : ℤ
  periodMs : ℤ
  acetUs : D
  bcetUs : D
  wcetUs : D
  runnables : List (Option ℕ)

structure BenchmarkInstanceBasic (D : Type) where
  /-- All objects that were made, also those that `runnables` does not point to any more. -/
  heap : List (RunnableBasic D)
  tasks : List (TaskBasic D)
  runnables : List ℕ
  labelSizes : TreeMap ℤ ℤ

def RunnableBasic.ofSetting (s : Setting D) : Option (RunnableBasic D) := do
  let id ← s.int? "id"
  let periodMs ← s.int? "period_ms"
  let acetUs ← s.float? "acet_us"
  let bcetUs ← s.float? "bcet_us"
  let wcetUs ← s.float? "wcet_us"
  let roLabelsRead ← s.ints? "ro_labels_read"
  let woLabelsWritten ← s.ints? "wo_labels_written"
  let rwIntraTaskLabelsRead ← s.ints? "rw_intra_task_labels_read"
  let rwIntraTaskLabelsWritten ← s.ints? "rw_intra_task_labels_written"
  let rwInterTaskLabelsRead ← s.ints? "rw_inter_task_labels_read"
  let rwInterTaskLabelsWritten ← s.ints? "rw_inter_task_labels_written"
  return { id, periodMs, acetUs, bcetUs, wcetUs, roLabelsRead, woLabelsWritten, rwIntraTaskLabelsRead,
           rwIntraTaskLabelsWritten, rwInterTaskLabelsRead, rwInterTaskLabelsWritten }

/-- A number without an object gives a null pointer. -/
def TaskBasic.ofSetting (ridToObjMap : TreeMap ℤ ℕ) (s : Setting D) : Option (TaskBasic D) := do
  let id ← s.int? "id"
  let periodMs ← s.int? "period_ms"
  let acetUs ← s.float? "acet_us"
  let bcetUs ← s.float? "bcet_us"
  let wcetUs ← s.float? "wcet_us"
  let rids ← s.ints? "runnables"
  return { id, periodMs, acetUs, bcetUs, wcetUs, runnables := rids.map fun rid => ridToObjMap[rid]? }

/-- The `id` and the `size_bytes` of a label. -/
def labelSizeOfSetting (s : Setting D) : Option (ℤ × ℤ) := do
  let id ← s.int? "id"
  let sizeBytes ← s.int? "size_bytes"
  return (id, sizeBytes)

/-- `BenchmarkInstanceBasic(config_file, logger)`. -/
def BenchmarkInstanceBasic.ofSetting (root : Setting D) : Option (BenchmarkInstanceBasic D) := do
  let top ← root.get? "KZH15BenchmarkInstance"
  let sTasks ← (top.get? "Tasks").bind Setting.elems?
  let sRunnables ← (top.get? "Runnables").bind Setting.elems?
  let sLabels ← (top.get? "Labels").bind Setting.elems?
  let heap ← sRunnables.mapM RunnableBasic.ofSetting
  let ridToObjMap := heap.zipIdx.foldl (fun m x => m.insert x.1.id x.2) (∅ : TreeMap ℤ ℕ)
  let tasks ← sTasks.mapM (TaskBasic.ofSetting ridToObjMap)
  let sizes ← sLabels.mapM labelSizeOfSetting
  return ⟨heap, tasks, List.range heap.length, sizes.foldl (fun m x => m.insert x.1 x.2) ∅⟩

/-! ## Reading what was written -/

section RoundTrip

variable (L : Setting.Reread D)

/-- A runnable that was exported and read back. -/
def Runnable.Reread (r r' : Runnable D) : Prop :=
  r'.toLabelLists = r.toLabelLists ∧ r'.id = r.id ∧ r'.periodMs = getMinPeriodMs r.periodMs

theorem runnable_ofSetting (r : Runnable D) :
    ∃ r', RunnableBasic.ofSetting (L.apply r.toSetting) = some r' ∧ r.Reread r' := by
  have hid : (L.apply r.toSetting).int? "id" = some r.id := L.int?_group rfl
  have hperiod : (L.apply r.toSetting).int? "period_ms" = some (getMinPeriodMs r.periodMs) :=
    L.int?_group rfl
  have hacet : (L.apply r.toSetting).float? "acet_us" = some (L.float r.acetUs) := L.float?_group rfl
  have hbcet : (L.apply r.toSetting).float? "bcet_us" = some (L.float r.bcetUs) := L.float?_group rfl
  have hwcet : (L.apply r.toSetting).float? "wcet_us" = some (L.float r.wcetUs) := L.float?_group rfl
  have hro : (L.apply r.toSetting).ints? "ro_labels_read" = some r.roLabelsRead := L.ints?_group rfl
  have hwo : (L.apply r.toSetting).ints? "wo_labels_written" = some r.woLabelsWritten :=
    L.ints?_group rfl
  have hintraRead : (L.apply r.toSetting).ints? "rw_intra_task_labels_read"
      = some r.rwIntraTaskLabelsRead := L.ints?_group rfl
  have hintraWritten : (L.apply r.toSetting).ints? "rw_intra_task_labels_written"
      = some r.rwIntraTaskLabelsWritten := L.ints?_group rfl
  have hinterRead : (L.apply r.toSetting).ints? "rw_inter_task_labels_read"
      = some r.rwInterTaskLabelsRead := L.ints?_group rfl
  have hinterWritten : (L.apply r.toSetting).ints? "rw_inter_task_labels_written"
      = some r.rwInterTaskLabelsWritten := L.ints?_group rfl
  refine ⟨⟨r.toLabelLists, r.id, getMinPeriodMs r.periodMs, L.float r.acetUs, L.float r.bcetUs,
    L.float r.wcetUs⟩, ?_, rfl, rfl, rfl⟩
  rw [RunnableBasic.ofSetting, hid, hperiod, hacet, hbcet, hwcet, hro, hwo, hintraRead, hintraWritten,
    hinterRead, hinterWritten]
  rfl

/-- A task that was exported and read back. -/
def Task.Reread (t : Task D) (t' : TaskBasic D) : Prop :=
  t'.id = t.id ∧ t'.periodMs = getMinPeriodMs t.periodMs ∧ t'.runnables = t.runnables.map some

theorem task_ofSetting {runnables : List (Runnable D)} {ridToObjMap : TreeMap ℤ ℕ} (t : Task D)
    (h : ∀ ptr ∈ t.runnables, ridToObjMap[idAt runnables ptr]? = some ptr) :
    ∃ t', TaskBasic.ofSetting ridToObjMap (L.apply (t.toSetting runnables)) = some t' ∧ t.Reread t' := by
  have hid : (L.apply (t.toSetting runnables)).int? "id" = some t.id := L.int?_group rfl
  have hperiod : (L.apply (t.toSetting runnables)).int? "period_ms" = some (getMinPeriodMs t.periodMs) :=
    L.int?_group rfl
  have hacet : (L.apply (t.toSetting runnables)).float? "acet_us" = some (L.float t.acetUs) :=
    L.float?_group rfl
  have hbcet : (L.apply (t.toSetting runnables)).float? "bcet_us" = some (L.float t.bcetUs) :=
    L.float?_group rfl
  have hwcet : (L.apply (t.toSetting runnables)).float? "wcet_us" = some (L.float t.wcetUs) :=
    L.float?_group rfl
  have hrids : (L.apply (t.toSetting runnables)).ints? "runnables"
      = some (t.runnables.map (idAt runnables)) := L.ints?_group rfl
  have hobjects : (t.runnables.map (idAt runnables)).map (fun rid => ridToObjMap[rid]?)
      = t.runnables.map some := by
    rw [List.map_map]
    exact List.map_congr_left h
  refine ⟨⟨t.id, getMinPeriodMs t.periodMs, L.float t.acetUs, L.float t.bcetUs, L.float t.wcetUs,
    t.runnables.map some⟩, ?_, rfl, rfl, rfl⟩
  rw [TaskBasic.ofSetting, hid, hperiod, hacet, hbcet, hwcet, hrids, ← hobjects]
  rfl

theorem label_ofSetting (l : Label) :
    labelSizeOfSetting (L.apply (l.toSetting : Setting D)) = some (l.id, l.sizeBytes) := by
  have hid : (L.apply (l.toSetting : Setting D)).int? "id" = some l.id := L.int?_group rfl
  have hsize : (L.apply (l.toSetting : Setting D)).int? "size_bytes" = some l.sizeBytes :=
    L.int?_group rfl
  rw [labelSizeOfSetting, hid, hsize]
  rfl

/-- The instance that was exported and read back. -/
structure BenchmarkInstance.Reread (b : BenchmarkInstance D) (b' : BenchmarkInstanceBasic D) : Prop where
  heap : List.Forall₂ Runnable.Reread b.runnables b'.heap
  tasks : List.Forall₂ Task.Reread b.tasks b'.tasks
  runnables : b'.runnables = List.range b'.heap.length
  labelSizes : b'.labelSizes = b.labels.foldl (fun m l => m.insert l.id l.sizeBytes) ∅

theorem numbered_of_reread {runnables runnables' : List (Runnable D)}
    (h : List.Forall₂ Runnable.Reread runnables runnables') (hnumbered : Numbered runnables) :
    Numbered runnables' := by
  have hids : runnables'.map (·.id) = runnables.map (·.id) := by
    clear hnumbered
    induction h with
    | nil => rfl
    | cons hr _ ih => exact congrArg₂ List.cons hr.2.1 ih
  rw [Numbered, hids, ← h.length_eq]
  exact hnumbered

theorem id_of_numbered {runnables : List (Runnable D)} (h : Numbered runnables) {ptr : ℕ} {r : Runnable D}
    (hr : runnables[ptr]? = some r) : r.id = ptr := by
  have hid := idAt_of_numbered h (List.getElem?_eq_some_iff.mp hr).1
  rwa [idAt, hr] at hid

/-- The objects are found under their numbers. -/
theorem getElem?_ridToObjMap {heap : List (RunnableBasic D)} (hnumbered : Numbered heap) {ptr : ℕ}
    (hptr : ptr < heap.length) :
    (heap.zipIdx.foldl (fun m x => m.insert x.1.id x.2) (∅ : TreeMap ℤ ℕ))[(ptr : ℤ)]? = some ptr := by
  have hid : ∀ x ∈ heap.zipIdx, x.1.id = x.2 := fun x hx =>
    id_of_numbered hnumbered (List.mem_zipIdx_iff_getElem?.mp hx)
  have hobject : (heap[ptr], ptr) ∈ heap.zipIdx.filter (·.1.id = (ptr : ℤ)) := by
    have hmem : (heap[ptr], ptr) ∈ heap.zipIdx :=
      List.mem_zipIdx_iff_getElem?.mpr (List.getElem?_eq_getElem hptr)
    exact List.mem_filter.mpr ⟨hmem, decide_eq_true (hid _ hmem)⟩
  obtain ⟨x, hlast⟩ := Option.ne_none_iff_exists'.mp
    (mt List.getLast?_eq_none_iff.mp (List.ne_nil_of_mem hobject))
  obtain ⟨hx, hkey⟩ := List.mem_filter.mp (List.mem_of_getLast? hlast)
  have hpos : x.2 = ptr := Int.ofNat.inj ((hid x hx).symm.trans (of_decide_eq_true hkey))
  rw [OrderedMap.getElem?_foldl_insert, hlast, Option.map_some, hpos]

/-- A finished instance is reproduced. -/
theorem ofSetting_exportToFile [Floating D] {b : BenchmarkInstance D} (hb : b.WellFormed) :
    ∃ b', BenchmarkInstanceBasic.ofSetting (L.apply b.exportToFile) = some b' ∧ b.Reread b' := by
  obtain ⟨heap, hheap, hheapReread⟩ := Setting.mapM_reread L b.runnables
    fun r _ => runnable_ofSetting L r
  have hnumbered := numbered_of_reread hheapReread hb.numbered
  have hobjects : ∀ t ∈ b.tasks, ∀ ptr ∈ t.runnables,
      (heap.zipIdx.foldl (fun m x => m.insert x.1.id x.2) (∅ : TreeMap ℤ ℕ))[idAt b.runnables ptr]?
        = some ptr := by
    intro t ht ptr hptr
    have hlt : ptr < b.runnables.length := by
      simpa using (List.getElem?_eq_some_iff.mp (hb.period t ht ptr hptr)).1
    rw [idAt_of_numbered hb.numbered hlt]
    exact getElem?_ridToObjMap hnumbered (hheapReread.length_eq ▸ hlt)
  obtain ⟨tasks, htasks, htasksReread⟩ := Setting.mapM_reread L b.tasks
    fun t ht => task_ofSetting L t (hobjects t ht)
  obtain ⟨sizes, hsizes, hsizesReread⟩ := Setting.mapM_reread L b.labels
    (R := fun l x => (l.id, l.sizeBytes) = x) fun l _ => ⟨_, label_ofSetting L l, rfl⟩
  have hsizesEq : b.labels.map (fun l => (l.id, l.sizeBytes)) = sizes := by
    rwa [← List.forall₂_eq_eq_eq, List.forall₂_map_left_iff]
  refine ⟨⟨heap, tasks, List.range heap.length, sizes.foldl (fun m x => m.insert x.1 x.2) ∅⟩, ?_,
    hheapReread, htasksReread, rfl, ?_⟩
  · rw [BenchmarkInstanceBasic.ofSetting, BenchmarkInstance.exportToFile, L.get?_group]
    simp only [List.lookup_cons_self, Option.map_some, Option.bind_eq_bind, Option.bind_some]
    rw [L.elems?_group rfl, L.elems?_group rfl, L.elems?_group rfl]
    simp only [Option.bind_some, hheap, htasks, hsizes]
    rfl
  · rw [← hsizesEq, List.foldl_map]

end RoundTrip

end KZH15
