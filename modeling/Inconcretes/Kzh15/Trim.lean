import Inconcretes.Kzh15.Export

/-!
# Trimmed instances

`resolve_label_dependencies` deletes the labels of the runnables with small periods, from the sizes and from
the inter-task lists of all runnables, and `trim_benchmark` removes these runnables and their tasks. The
other lists need no deletion: the runnables of a label that is not an inter-task label share a period
(`WellFormed.period_of_sites`). So an instance that was generated, exported and imported is closed
afterwards (`closed_trimmed`).
-/

namespace KZH15

open Std

variable {D : Type}

/-! ## The functions -/

/-- `period_ms < smallest_period_ms`, where the `int` is converted to `uint64_t`. -/
def periodBelow (periodMs : ℤ) (smallestPeriodMs : UInt64) : Bool :=
  UInt64.ofInt periodMs < smallestPeriodMs

/-- The labels of the six lists, in the order in which they are visited. -/
def LabelLists.all (ls : LabelLists) : List ℤ :=
  ls.roLabelsRead ++ ls.woLabelsWritten ++ ls.rwIntraTaskLabelsRead ++ ls.rwIntraTaskLabelsWritten
    ++ ls.rwInterTaskLabelsRead ++ ls.rwInterTaskLabelsWritten

namespace BenchmarkInstanceBasic

/-- `r->period_ms < smallest_period_ms`, for the runnable at `ptr`. -/
def isSmall (b : BenchmarkInstanceBasic D) (smallestPeriodMs : UInt64) (ptr : ℕ) : Bool :=
  (b.heap[ptr]?).any fun r => periodBelow r.periodMs smallestPeriodMs

/-- `delete_set`. -/
def deleteSet (b : BenchmarkInstanceBasic D) (smallestPeriodMs : UInt64) : TreeSet ℤ :=
  b.runnables.foldl
    (fun deleteSet ptr =>
      if b.isSmall smallestPeriodMs ptr then
        deleteSet.insertMany ((b.heap[ptr]?).elim [] fun r => r.all)
      else deleteSet) ∅

/-- The loops that erase labels from the inter-task lists. -/
def eraseInterTask (deleteSet : TreeSet ℤ) (r : RunnableBasic D) : RunnableBasic D :=
  { r with
    rwInterTaskLabelsRead := r.rwInterTaskLabelsRead.filter fun lid => !deleteSet.contains lid
    rwInterTaskLabelsWritten := r.rwInterTaskLabelsWritten.filter fun lid => !deleteSet.contains lid }

/-- `resolve_label_dependencies(instance, smallest_period_ms)`. -/
def resolveLabelDependencies (b : BenchmarkInstanceBasic D) (smallestPeriodMs : UInt64) :
    BenchmarkInstanceBasic D :=
  let deleteSet := b.deleteSet smallestPeriodMs
  { b with
    heap := b.runnables.foldl (fun heap ptr => heap.modify ptr (eraseInterTask deleteSet)) b.heap
    labelSizes := deleteSet.toList.foldl (fun sizes lid => sizes.erase lid) b.labelSizes }

/-- `trim_benchmark(instance, smallest_period_ms)`. -/
def trimBenchmark (b : BenchmarkInstanceBasic D) (smallestPeriodMs : UInt64) : BenchmarkInstanceBasic D :=
  { b with
    tasks := b.tasks.filter fun t => !periodBelow t.periodMs smallestPeriodMs
    runnables := b.runnables.filter fun ptr => !b.isSmall smallestPeriodMs ptr }

/-- `shrink_label_sizes(instance, max_label_size)`. The comparison is made as `unsigned`. -/
def shrinkLabelSizes (b : BenchmarkInstanceBasic D) (maxLabelSize : UInt32) : BenchmarkInstanceBasic D :=
  { b with
    labelSizes := b.labelSizes.map fun _ size =>
      if maxLabelSize < UInt32.ofInt size then maxLabelSize.toInt32.toInt else size }

/-- A closed instance. -/
structure Closed (b : BenchmarkInstanceBasic D) : Prop where
  /-- The runnables are objects. -/
  allocated : ∀ ptr ∈ b.runnables, ptr < b.heap.length
  /-- Every runnable of a task is a runnable of the instance. -/
  runnables_of_tasks : ∀ t ∈ b.tasks, ∀ r ∈ t.runnables, ∃ ptr ∈ b.runnables, r = some ptr
  /-- Every label in a list has a size. -/
  sized : ∀ ptr ∈ b.runnables, ∀ a, ∀ lid ∈ held b.heap ptr a, lid ∈ b.labelSizes
  /-- Every label with a size is in a list. -/
  used : ∀ lid ∈ b.labelSizes, ∃ ptr ∈ b.runnables, ∃ a, lid ∈ held b.heap ptr a
  /-- Every inter-task label that is read has one writer. -/
  written : ∀ ptr ∈ b.runnables, ∀ lid ∈ held b.heap ptr .rwInterTaskRead,
    ∃! w, w ∈ b.runnables ∧ lid ∈ held b.heap w .rwInterTaskWritten

end BenchmarkInstanceBasic

/-! ## The sites of a label -/

theorem mem_records {labels : List Label} {lid : ℤ} {s : ℕ × Access} :
    (lid, s) ∈ records labels ↔ ∃ l ∈ labels, l.id = lid ∧ s ∈ l.sites := by
  simp only [records, List.mem_flatMap, List.mem_map, Prod.mk.injEq]
  constructor
  · rintro ⟨l, hl, s, hs, hid, rfl⟩
    exact ⟨l, hl, hid, hs⟩
  · rintro ⟨l, hl, hid, hs⟩
    exact ⟨l, hl, s, hs, hid, rfl⟩

namespace BenchmarkInstance.WellFormed

variable {b : BenchmarkInstance D} (hb : b.WellFormed)

include hb

/-- The lists hold the labels that are placed there. -/
theorem mem_held {ptr : ℕ} {a : Access} {lid : ℤ} :
    lid ∈ held b.runnables ptr a ↔ ∃ l ∈ b.labels, l.id = lid ∧ (ptr, a) ∈ l.sites := by
  rw [← List.count_pos_iff, hb.recorded, List.count_pos_iff, mem_records]

theorem eq_of_id {l l' : Label} (hl : l ∈ b.labels) (hl' : l' ∈ b.labels) (hid : l.id = l'.id) : l = l' :=
  List.inj_on_of_nodup_map hb.nodup_ids hl hl' hid

/-- The lists hold a label where it records its runnables. -/
theorem id_mem_held {l : Label} (hl : l ∈ b.labels) {ptr : ℕ} {a : Access} :
    l.id ∈ held b.runnables ptr a ↔ (ptr, a) ∈ l.sites := by
  constructor
  · intro h
    obtain ⟨l', hl', hid, hsite⟩ := hb.mem_held.mp h
    rwa [← hb.eq_of_id hl' hl hid]
  · exact fun hsite => hb.mem_held.mpr ⟨l, hl, rfl, hsite⟩

/-- The runnables that a label records are there. -/
theorem lt_of_sites {l : Label} (hl : l ∈ b.labels) {ptr : ℕ} {a : Access} (h : (ptr, a) ∈ l.sites) :
    ptr < b.runnables.length := lt_of_mem_held ((hb.id_mem_held hl).mpr h)

end BenchmarkInstance.WellFormed

/-- The sites that a mapped label can have. -/
inductive PlacedSites (tasks : List (Task D)) : List (ℕ × Access) → Prop
  | readOnly (r : ℕ) : PlacedSites tasks [(r, .roRead)]
  | writeOnly (w : ℕ) : PlacedSites tasks [(w, .woWritten)]
  | intraTask (r w : ℕ) (t : Task D) (ht : t ∈ tasks) (hr : r ∈ t.runnables) (hw : w ∈ t.runnables) :
    PlacedSites tasks [(r, .rwIntraTaskRead), (w, .rwIntraTaskWritten)]
  | interTask (r w : ℕ) : PlacedSites tasks [(r, .rwInterTaskRead), (w, .rwInterTaskWritten)]

theorem Label.Placed.placedSites {tasks : List (Task D)} {l : Label} (h : l.Placed tasks) :
    PlacedSites tasks l.sites := by
  cases h with
  | readOnly htype r hreaders hwriters =>
    rw [Label.sites, hreaders, hwriters, Label.readAccess, htype]
    exact .readOnly r
  | writeOnly htype w hreaders hwriters =>
    rw [Label.sites, hreaders, hwriters, Label.writeAccess, htype]
    exact .writeOnly w
  | intraTask htype hmtype r w hreaders hwriters horder t ht hr hw =>
    obtain ⟨hread, hwritten⟩ := Label.access_of_intraTask htype hmtype
    rw [Label.sites, hreaders, hwriters, hread, hwritten]
    exact .intraTask r w t ht hr hw
  | interTask htype hmtype r w hreaders hwriters =>
    rw [Label.sites, hreaders, hwriters, Label.readAccess, Label.writeAccess, htype, hmtype]
    exact .interTask r w

theorem Label.Placed.exists_site {tasks : List (Task D)} {l : Label} (h : l.Placed tasks) :
    ∃ s, s ∈ l.sites := by
  have hsites := h.placedSites
  generalize l.sites = sites at hsites ⊢
  cases hsites <;> exact ⟨_, List.mem_cons_self⟩

/-- An inter-task label that is read has one writer. -/
theorem PlacedSites.exists_writer {tasks : List (Task D)} {sites : List (ℕ × Access)}
    (h : PlacedSites tasks sites) {ptr : ℕ} (hread : (ptr, .rwInterTaskRead) ∈ sites) :
    ∃ w, (w, .rwInterTaskWritten) ∈ sites ∧ ∀ w', (w', .rwInterTaskWritten) ∈ sites → w' = w := by
  cases h with
  | interTask r w => exact ⟨w, by simp, by simp⟩
  | readOnly r => simp at hread
  | writeOnly w => simp at hread
  | intraTask r w => simp at hread

namespace BenchmarkInstance.WellFormed

variable {b : BenchmarkInstance D} (hb : b.WellFormed)

include hb

/-- The runnables of a label that is not an inter-task label share a period. -/
theorem period_of_sites {l : Label} (hl : l ∈ b.labels) {ptr ptr' : ℕ} {a a' : Access}
    (h : (ptr, a) ∈ l.sites) (h' : (ptr', a') ∈ l.sites) (hread : a ≠ .rwInterTaskRead)
    (hwritten : a ≠ .rwInterTaskWritten) :
    (b.runnables.map (·.periodMs))[ptr']? = (b.runnables.map (·.periodMs))[ptr]? := by
  have hsites := (hb.placed l hl).placedSites
  generalize l.sites = sites at hsites h h'
  cases hsites with
  | readOnly r =>
    obtain rfl : ptr' = ptr := by
      rw [(Prod.mk.inj (List.mem_singleton.mp h)).1, (Prod.mk.inj (List.mem_singleton.mp h')).1]
    rfl
  | writeOnly w =>
    obtain rfl : ptr' = ptr := by
      rw [(Prod.mk.inj (List.mem_singleton.mp h)).1, (Prod.mk.inj (List.mem_singleton.mp h')).1]
    rfl
  | intraTask r w t ht hr hw =>
    have hmem : ∀ s ∈ [(r, Access.rwIntraTaskRead), (w, .rwIntraTaskWritten)], s.1 ∈ t.runnables := by
      simpa using ⟨hr, hw⟩
    exact (hb.period t ht _ (hmem _ h')).trans (hb.period t ht _ (hmem _ h)).symm
  | interTask r w =>
    have hmem : ∀ s ∈ [(r, Access.rwInterTaskRead), (w, .rwInterTaskWritten)],
        s.2 = .rwInterTaskRead ∨ s.2 = .rwInterTaskWritten := by
      simp
    exact ((hmem _ h).elim hread hwritten).elim

end BenchmarkInstance.WellFormed

/-! ## What the functions do -/

namespace BenchmarkInstanceBasic

theorem mem_all {ls : LabelLists} {lid : ℤ} : lid ∈ ls.all ↔ ∃ a, lid ∈ ls.labels a := by
  simp only [LabelLists.all, List.mem_append]
  constructor
  · rintro (((((h | h) | h) | h) | h) | h)
    exacts [⟨.roRead, h⟩, ⟨.woWritten, h⟩, ⟨.rwIntraTaskRead, h⟩, ⟨.rwIntraTaskWritten, h⟩,
      ⟨.rwInterTaskRead, h⟩, ⟨.rwInterTaskWritten, h⟩]
  · rintro ⟨a, h⟩
    cases a <;> simp [LabelLists.labels] at h <;> simp [h]

/-- The labels to delete are those of small runnables. -/
theorem mem_deleteSet {b : BenchmarkInstanceBasic D} {smallestPeriodMs : UInt64} {lid : ℤ} :
    lid ∈ b.deleteSet smallestPeriodMs
      ↔ ∃ ptr ∈ b.runnables, b.isSmall smallestPeriodMs ptr ∧ ∃ a, lid ∈ held b.heap ptr a := by
  have hall : ∀ ptr, lid ∈ (b.heap[ptr]?).elim [] (fun r => r.all) ↔ ∃ a, lid ∈ held b.heap ptr a := by
    intro ptr
    cases hr : b.heap[ptr]? with
    | none => simp [held, hr]
    | some r => simp only [held, hr, Option.elim_some, mem_all]
  rw [deleteSet]
  induction b.runnables using List.reverseRecOn with
  | nil => simp
  | append_singleton ptrs ptr ih =>
    rw [List.foldl_append, List.foldl_cons, List.foldl_nil]
    cases hsmall : b.isSmall smallestPeriodMs ptr with
    | false => simp [ih, hsmall]
    | true => simp [ih, hsmall, TreeSet.mem_insertMany_list, or_and_right, exists_or, hall]

theorem mem_labelSizes_resolve {b : BenchmarkInstanceBasic D} {smallestPeriodMs : UInt64} {lid : ℤ} :
    lid ∈ (b.resolveLabelDependencies smallestPeriodMs).labelSizes
      ↔ lid ∈ b.labelSizes ∧ lid ∉ b.deleteSet smallestPeriodMs := by
  rw [resolveLabelDependencies, OrderedMap.mem_foldl_erase, TreeSet.mem_toList]

/-- A loop that modifies some entries, each once. -/
theorem getElem?_foldl_modify {α : Type} (f : α → α) {ptrs : List ℕ} (h : ptrs.Nodup) (xs : List α)
    (i : ℕ) :
    (ptrs.foldl (fun xs ptr => xs.modify ptr f) xs)[i]? = if i ∈ ptrs then (xs[i]?).map f else xs[i]? := by
  induction ptrs using List.reverseRecOn with
  | nil => simp
  | append_singleton ptrs ptr ih =>
    rw [List.nodup_append'] at h
    rw [List.foldl_append, List.foldl_cons, List.foldl_nil, List.getElem?_modify, ih h.1]
    by_cases hi : ptr = i
    · subst hi
      have hfresh : ptr ∉ ptrs := fun hmem => h.2.2 hmem List.mem_cons_self
      simp [hfresh]
    · simp [hi, Ne.symm hi]

section Resolve

variable {b : BenchmarkInstanceBasic D} (h : b.runnables = List.range b.heap.length)
  (smallestPeriodMs : UInt64) (ptr : ℕ)

include h

theorem getElem?_heap_resolve :
    (b.resolveLabelDependencies smallestPeriodMs).heap[ptr]?
      = (b.heap[ptr]?).map (eraseInterTask (b.deleteSet smallestPeriodMs)) := by
  rw [resolveLabelDependencies, getElem?_foldl_modify _ (h ▸ List.nodup_range), h]
  split_ifs with hmem
  · rfl
  · rw [List.getElem?_eq_none (Nat.le_of_not_lt (mt List.mem_range.mpr hmem))]
    rfl

/-- The inter-task lists lose the labels to delete. -/
theorem held_resolve (a : Access) :
    held (b.resolveLabelDependencies smallestPeriodMs).heap ptr a
      = if a = .rwInterTaskRead ∨ a = .rwInterTaskWritten then
          (held b.heap ptr a).filter fun lid => !(b.deleteSet smallestPeriodMs).contains lid
        else held b.heap ptr a := by
  rw [held, held, getElem?_heap_resolve h]
  cases b.heap[ptr]? with
  | none => simp
  | some r => cases a <;> rfl

theorem isSmall_resolve :
    (b.resolveLabelDependencies smallestPeriodMs).isSmall smallestPeriodMs ptr
      = b.isSmall smallestPeriodMs ptr := by
  rw [isSmall, isSmall, getElem?_heap_resolve h]
  cases b.heap[ptr]? with
  | none => rfl
  | some r => rfl

end Resolve

end BenchmarkInstanceBasic

/-! ## What is read back -/

theorem rel_getElem? {α β : Type} {R : α → β → Prop} {xs : List α} {ys : List β} (h : List.Forall₂ R xs ys)
    (i : ℕ) : Option.Rel R xs[i]? ys[i]? := by
  induction h generalizing i with
  | nil => exact .none
  | cons hxy _ ih =>
    cases i with
    | zero => exact .some hxy
    | succ i => exact ih i

namespace BenchmarkInstance.Reread

variable {b : BenchmarkInstance D} {b' : BenchmarkInstanceBasic D} (h : b.Reread b')

include h

theorem held_eq (ptr : ℕ) (a : Access) : held b'.heap ptr a = held b.runnables ptr a := by
  have hrel := rel_getElem? h.heap ptr
  rw [held, held]
  generalize b.runnables[ptr]? = x, b'.heap[ptr]? = y at hrel ⊢
  cases hrel with
  | none => rfl
  | some hr => rw [Option.elim_some, Option.elim_some, hr.1]

theorem isSmall_eq (smallestPeriodMs : UInt64) (ptr : ℕ) :
    b'.isSmall smallestPeriodMs ptr
      = ((b.runnables.map (·.periodMs))[ptr]?).any
          fun p => periodBelow (getMinPeriodMs p) smallestPeriodMs := by
  have hrel := rel_getElem? h.heap ptr
  rw [BenchmarkInstanceBasic.isSmall, List.getElem?_map]
  generalize b.runnables[ptr]? = x, b'.heap[ptr]? = y at hrel ⊢
  cases hrel with
  | none => rfl
  | some hr => rw [Option.any_some, hr.2.2, Option.map_some, Option.any_some]

theorem mem_labelSizes {lid : ℤ} : lid ∈ b'.labelSizes ↔ ∃ l ∈ b.labels, l.id = lid := by
  rw [h.labelSizes]
  exact OrderedMap.mem_foldl_insert

/-- The runnables that are left. -/
theorem mem_runnables_trim {smallestPeriodMs : UInt64} {ptr : ℕ} :
    ptr ∈ ((b'.resolveLabelDependencies smallestPeriodMs).trimBenchmark smallestPeriodMs).runnables
      ↔ ptr < b'.heap.length ∧ b'.isSmall smallestPeriodMs ptr = false := by
  rw [BenchmarkInstanceBasic.trimBenchmark, List.mem_filter,
    BenchmarkInstanceBasic.isSmall_resolve h.runnables, Bool.not_eq_true']
  show ptr ∈ b'.runnables ∧ _ ↔ _
  rw [h.runnables, List.mem_range]

/-- The labels that are left. -/
theorem mem_labelSizes_trim {smallestPeriodMs : UInt64} {lid : ℤ} :
    lid ∈ ((b'.resolveLabelDependencies smallestPeriodMs).trimBenchmark smallestPeriodMs).labelSizes
      ↔ ∃ l ∈ b.labels, l.id = lid ∧ l.id ∉ b'.deleteSet smallestPeriodMs := by
  show lid ∈ (b'.resolveLabelDependencies smallestPeriodMs).labelSizes ↔ _
  rw [BenchmarkInstanceBasic.mem_labelSizes_resolve, h.mem_labelSizes]
  constructor
  · rintro ⟨⟨l, hl, rfl⟩, hkept⟩
    exact ⟨l, hl, rfl, hkept⟩
  · rintro ⟨l, hl, rfl, hkept⟩
    exact ⟨⟨l, hl, rfl⟩, hkept⟩

variable (hb : b.WellFormed)

include hb

/-- A label is deleted when one of its runnables is small. -/
theorem mem_deleteSet {smallestPeriodMs : UInt64} {l : Label} (hl : l ∈ b.labels) :
    l.id ∈ b'.deleteSet smallestPeriodMs ↔ ∃ s ∈ l.sites, b'.isSmall smallestPeriodMs s.1 := by
  rw [BenchmarkInstanceBasic.mem_deleteSet]
  constructor
  · rintro ⟨ptr, -, hsmall, a, hheld⟩
    rw [h.held_eq] at hheld
    exact ⟨(ptr, a), (hb.id_mem_held hl).mp hheld, hsmall⟩
  · rintro ⟨⟨ptr, a⟩, hsite, hsmall⟩
    have hlt : ptr < b'.heap.length := by
      by_contra hge
      rw [BenchmarkInstanceBasic.isSmall, List.getElem?_eq_none (Nat.le_of_not_lt hge)] at hsmall
      exact Bool.false_ne_true hsmall
    refine ⟨ptr, h.runnables ▸ List.mem_range.mpr hlt, hsmall, a, ?_⟩
    rw [h.held_eq]
    exact (hb.id_mem_held hl).mpr hsite

/-- The runnables that are left hold the labels that are left, where they were placed. -/
theorem mem_held_trim {smallestPeriodMs : UInt64} {l : Label} (hl : l ∈ b.labels) {ptr : ℕ} {a : Access}
    (hptr : b'.isSmall smallestPeriodMs ptr = false) :
    l.id ∈ held ((b'.resolveLabelDependencies smallestPeriodMs).trimBenchmark smallestPeriodMs).heap ptr a
      ↔ (ptr, a) ∈ l.sites ∧ l.id ∉ b'.deleteSet smallestPeriodMs := by
  have hsite : l.id ∈ held b'.heap ptr a ↔ (ptr, a) ∈ l.sites := by
    rw [h.held_eq]
    exact hb.id_mem_held hl
  show l.id ∈ held (b'.resolveLabelDependencies smallestPeriodMs).heap ptr a ↔ _
  rw [BenchmarkInstanceBasic.held_resolve h.runnables]
  split_ifs with hinter
  · rw [List.mem_filter, hsite, TreeSet.mem_iff_contains, Bool.not_eq_true', Bool.not_eq_true]
  · rw [hsite]
    refine ⟨fun hptrSite => ⟨hptrSite, fun hdelete => ?_⟩, And.left⟩
    -- a small runnable of the label would have the period of this one
    obtain ⟨⟨ptr', a'⟩, hsite', hsmall⟩ := (h.mem_deleteSet hb hl).mp hdelete
    rw [not_or] at hinter
    rw [h.isSmall_eq, hb.period_of_sites hl hptrSite hsite' hinter.1 hinter.2, ← h.isSmall_eq, hptr]
      at hsmall
    exact Bool.false_ne_true hsmall

/-- A label in a list of a runnable that is left. -/
theorem exists_of_mem_held_trim {smallestPeriodMs : UInt64} {ptr : ℕ} {a : Access} {lid : ℤ}
    (hptr : b'.isSmall smallestPeriodMs ptr = false)
    (hlid : lid ∈ held
      ((b'.resolveLabelDependencies smallestPeriodMs).trimBenchmark smallestPeriodMs).heap ptr a) :
    ∃ l ∈ b.labels, l.id = lid ∧ (ptr, a) ∈ l.sites ∧ l.id ∉ b'.deleteSet smallestPeriodMs := by
  have hheld : lid ∈ held b.runnables ptr a := by
    have hresolved : lid ∈ held (b'.resolveLabelDependencies smallestPeriodMs).heap ptr a := hlid
    rw [BenchmarkInstanceBasic.held_resolve h.runnables, h.held_eq] at hresolved
    split_ifs at hresolved
    · exact (List.mem_filter.mp hresolved).1
    · exact hresolved
  obtain ⟨l, hl, rfl, -⟩ := hb.mem_held.mp hheld
  exact ⟨l, hl, rfl, (h.mem_held_trim hb hl hptr).mp hlid⟩

/-- The runnables of a label that is left are left, and hold it. -/
theorem kept {smallestPeriodMs : UInt64} {l : Label} (hl : l ∈ b.labels) {ptr : ℕ} {a : Access}
    (hsite : (ptr, a) ∈ l.sites) (hkept : l.id ∉ b'.deleteSet smallestPeriodMs) :
    ptr ∈ ((b'.resolveLabelDependencies smallestPeriodMs).trimBenchmark smallestPeriodMs).runnables
      ∧ l.id ∈ held
        ((b'.resolveLabelDependencies smallestPeriodMs).trimBenchmark smallestPeriodMs).heap ptr a := by
  have hptr : b'.isSmall smallestPeriodMs ptr = false :=
    Bool.eq_false_iff.mpr fun hsmall => hkept ((h.mem_deleteSet hb hl).mpr ⟨_, hsite, hsmall⟩)
  refine ⟨h.mem_runnables_trim.mpr ⟨?_, hptr⟩, (h.mem_held_trim hb hl hptr).mpr ⟨hsite, hkept⟩⟩
  have hheld : l.id ∈ held b'.heap ptr a := by
    rw [h.held_eq]
    exact (hb.id_mem_held hl).mpr hsite
  exact lt_of_mem_held hheld

/-- What is left is closed. -/
theorem closed (smallestPeriodMs : UInt64) :
    ((b'.resolveLabelDependencies smallestPeriodMs).trimBenchmark smallestPeriodMs).Closed where
  allocated ptr hptr := by
    have hlt := (h.mem_runnables_trim.mp hptr).1
    show ptr < (b'.resolveLabelDependencies smallestPeriodMs).heap.length
    by_contra hge
    have hnone := BenchmarkInstanceBasic.getElem?_heap_resolve h.runnables smallestPeriodMs ptr
    rw [List.getElem?_eq_none (Nat.le_of_not_lt hge), List.getElem?_eq_getElem hlt] at hnone
    cases hnone
  runnables_of_tasks t' ht' x hx := by
    obtain ⟨ht', hperiod⟩ := List.mem_filter.mp ht'
    obtain ⟨t, ht, -, hperiodEq, hrunnables⟩ := exists_of_mem_right h.tasks ht'
    rw [hrunnables, List.mem_map] at hx
    obtain ⟨ptr, hptr, rfl⟩ := hx
    have hperiodAt := hb.period t ht ptr hptr
    refine ⟨ptr, h.mem_runnables_trim.mpr ⟨?_, ?_⟩, rfl⟩
    · rw [← h.heap.length_eq]
      simpa using (List.getElem?_eq_some_iff.mp hperiodAt).1
    · rw [h.isSmall_eq, hperiodAt, Option.any_some, ← hperiodEq]
      exact Bool.not_eq_true' _ ▸ hperiod
  sized ptr hptr a lid hlid := by
    obtain ⟨l, hl, rfl, -, hkept⟩ := h.exists_of_mem_held_trim hb (h.mem_runnables_trim.mp hptr).2 hlid
    exact h.mem_labelSizes_trim.mpr ⟨l, hl, rfl, hkept⟩
  used lid hlid := by
    obtain ⟨l, hl, rfl, hkept⟩ := h.mem_labelSizes_trim.mp hlid
    obtain ⟨⟨ptr, a⟩, hsite⟩ := (hb.placed l hl).exists_site
    obtain ⟨hptr, hlist⟩ := h.kept hb hl hsite hkept
    exact ⟨ptr, hptr, a, hlist⟩
  written ptr hptr lid hlid := by
    obtain ⟨l, hl, rfl, hsite, hkept⟩ :=
      h.exists_of_mem_held_trim hb (h.mem_runnables_trim.mp hptr).2 hlid
    obtain ⟨w, hw, hunique⟩ := (hb.placed l hl).placedSites.exists_writer hsite
    refine ⟨w, h.kept hb hl hw hkept, fun w' ⟨hw', hwritten⟩ => hunique w' ?_⟩
    exact ((h.mem_held_trim hb hl (h.mem_runnables_trim.mp hw').2).mp hwritten).1

end BenchmarkInstance.Reread

/-! ## Generated instances -/

/-- Every instance that the generator makes is closed after it is exported, imported, resolved and
trimmed. -/
theorem closed_trimmed [Floating D] [DecidableLT D] [DecidableLE D] (cfg : Config D) (mergeRunnables : Bool)
    (mtype : MessageType) (draws rest : Draws D) (b : BenchmarkInstance D)
    (hnew : BenchmarkInstance.new cfg mergeRunnables mtype draws = some (b, rest)) (L : Setting.Reread D)
    (smallestPeriodMs : UInt64) :
    ∃ b', BenchmarkInstanceBasic.ofSetting (L.apply b.exportToFile) = some b'
      ∧ ((b'.resolveLabelDependencies smallestPeriodMs).trimBenchmark smallestPeriodMs).Closed := by
  have hb : b.WellFormed := yields_wellFormed cfg mergeRunnables mtype draws _ hnew
  obtain ⟨b', hread, hreread⟩ := ofSetting_exportToFile L hb
  exact ⟨b', hread, hreread.closed hb smallestPeriodMs⟩

/-- Runnables of two periods, one of them angle-synchronous, and labels of all kinds. -/
def twoPeriods : Config ℚ where
  scaleFactor := 1
  periodsMs := [0, 10]
  labelsCfg := {
    count := ⟨6, 6⟩
    sizeShares := .insert ∅ ⟨1, 8⟩ 100
    typePartition := .insertMany ∅ [(.readOnly, 20), (.writeOnly, 20), (.readWrite, 60)] }
  msgsCfg := {
    typePartition := .insertMany ∅ [(.intraTaskFwd, 25), (.intraTaskBwd, 35), (.interTask, 40)]
    interTaskMsgsCfg := {
      volumeTypes := .insertMany ∅ [(.none, ⟨0, 0⟩), (.I, ⟨1, 10⟩), (.VI, ⟨11, 20⟩)]
      dist := .insertMany ∅ [(0, .insertMany ∅ [(0, .I), (10, .VI)]),
        (10, .insertMany ∅ [(0, .none), (10, .I)])] } }
  runnablesCfg := {
    count := ⟨4, 4⟩
    periodShares := .insertMany ∅ [(0, 50), (10, 50)]
    execTimeProfiles := ∅ }

def twoPeriodsDraws : Draws ℚ where
  ints := [4, 6, 0, 3, 0, 0, 0, 1, 1, 0, 1, 12, 5, 0, 0, 1, 1, 0, 0, 1]
  reals := [0, 1, 1, 0, 1, 1, 0, 1, 1, 0, 1, 1, 10, 30, 50, 10, 60, 30, 60, 90, 70, 95]

theorem closed_trimmed_twoPeriods : ∃ b rest,
    BenchmarkInstance.new twoPeriods true .interTask twoPeriodsDraws = some (b, rest)
      ∧ ∃ b', BenchmarkInstanceBasic.ofSetting ((Setting.Reread.exact ℚ).apply b.exportToFile) = some b'
        ∧ ((b'.resolveLabelDependencies 10).trimBenchmark 10).Closed := by
  have hsome : (BenchmarkInstance.new twoPeriods true .interTask twoPeriodsDraws).isSome := by
    decide +kernel
  obtain ⟨⟨b, rest⟩, hnew⟩ := Option.isSome_iff_exists.mp hsome
  exact ⟨b, rest, hnew, closed_trimmed twoPeriods true .interTask twoPeriodsDraws rest b hnew
    (Setting.Reread.exact ℚ) 10⟩

end KZH15
