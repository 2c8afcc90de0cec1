import Inconcretes.Kzh15.Generator
import Mathlib.Data.List.Nodup

/-!
# Runnables and their tasks

`generate_runnable_instances` numbers the runnables, and every later step keeps their numbers and periods.
The tasks of a period hold its runnables in order, each once (`mergePeriod_spec`), so a task and its
runnables share the period (`period_of_mem_task`) and no runnable is in two tasks when no period is listed
twice (`nodup_runnables`).
-/

namespace KZH15

open Drawing

variable {D : Type}

/-- Numbers and periods. -/
def skeleton (runnables : List (Runnable D)) : List (ℤ × ℤ) := runnables.map fun r => (r.id, r.periodMs)

/-- Runnables that are numbered by position. -/
def Numbered (runnables : List (Runnable D)) : Prop :=
  runnables.map (·.id) = (List.range runnables.length).map Int.ofNat

/-- The positions of the runnables with the period `p`. -/
def pointersOf (runnables : List (Runnable D)) (p : ℤ) : List ℕ :=
  (runnables.zipIdx.filter fun x => x.1.periodMs = p).map (·.2)

theorem map_snd_zipIdx {α : Type} (xs : List α) : xs.zipIdx.map (·.2) = List.range xs.length := by
  rw [List.zipIdx_map_snd, List.range_eq_range']

theorem mem_pointersOf {runnables : List (Runnable D)} {p : ℤ} {ptr : ℕ} :
    ptr ∈ pointersOf runnables p ↔ (runnables.map (·.periodMs))[ptr]? = some p := by
  simp only [pointersOf, List.mem_map, List.mem_filter, decide_eq_true_eq, List.getElem?_map,
    Option.map_eq_some_iff, Prod.exists, List.mem_zipIdx_iff_getElem?]
  constructor
  · rintro ⟨r, i, ⟨hr, hp⟩, rfl⟩
    exact ⟨r, hr, hp⟩
  · rintro ⟨r, hr, hp⟩
    exact ⟨r, ptr, ⟨hr, hp⟩, rfl⟩

theorem nodup_pointersOf (runnables : List (Runnable D)) (p : ℤ) : (pointersOf runnables p).Nodup := by
  have hsub : (pointersOf runnables p).Sublist (runnables.zipIdx.map (·.2)) := List.filter_sublist.map _
  rw [map_snd_zipIdx] at hsub
  exact List.nodup_range.sublist hsub

theorem exists_of_mem_right {α β : Type} {R : α → β → Prop} {xs : List α} {ys : List β}
    (h : List.Forall₂ R xs ys) {y : β} (hy : y ∈ ys) : ∃ x ∈ xs, R x y := by
  induction h with
  | nil => exact absurd hy List.not_mem_nil
  | cons hxy _ ih =>
    rcases List.mem_cons.mp hy with rfl | hy
    · exact ⟨_, List.mem_cons_self, hxy⟩
    · obtain ⟨x, hx, hR⟩ := ih hy
      exact ⟨x, List.mem_cons_of_mem _ hx, hR⟩

/-! ## Runnables -/

variable [Floating D] [DecidableLE D]

/-- A loop of fallible steps: `I n` holds after `n` steps. -/
theorem foldlM_range_induction {β : Type} {f : β → ℕ → Option β} {n : ℕ} {b b' : β}
    (h : (List.range n).foldlM f b = some b') (I : ℕ → β → Prop) (hstart : I 0 b)
    (hstep : ∀ i b b', i < n → I i b → f b i = some b' → I (i + 1) b') : I n b' := by
  induction n generalizing b' with
  | zero => exact Option.some.inj h ▸ hstart
  | succ n ih =>
    rw [List.range_succ, List.foldlM_append] at h
    obtain ⟨b₁, hb₁, hlast⟩ := Option.bind_eq_some_iff.mp h
    obtain ⟨b₂, hb₂, heq⟩ := Option.bind_eq_some_iff.mp hlast
    obtain rfl := Option.some.inj heq
    exact hstep n b₁ _ n.lt_succ_self
      (ih hb₁ fun i b b' hi => hstep i b b' (hi.trans n.lt_succ_self)) hb₂

/-- The runnables are numbered and have no labels yet. -/
theorem generateRunnableInstances_spec {cfg : Config D} {max : ℤ} {runnables : List (Runnable D)}
    (h : generateRunnableInstances cfg max = some runnables) :
    Numbered runnables ∧ ∀ r ∈ runnables, r.toLabelLists = {} ∧ r.periodMs ∈ cfg.periodsMs := by
  obtain ⟨⟨idx, counter, rs⟩, hloop, heq⟩ := Option.bind_eq_some_iff.mp h
  obtain rfl := Option.some.inj heq
  refine (foldlM_range_induction hloop (fun n s => s.2.2.length = n ∧ Numbered s.2.2
    ∧ ∀ r ∈ s.2.2, r.toLabelLists = {} ∧ r.periodMs ∈ cfg.periodsMs) ⟨rfl, rfl, nofun⟩ ?_).2
  rintro i ⟨idx, counter, rs⟩ s' - ⟨rfl, hnumbered, hrs⟩ hstep
  obtain ⟨p, hp, heq⟩ := Option.bind_eq_some_iff.mp hstep
  have hrunnables : s'.2.2 = rs ++ [Runnable.new rs.length p] := by
    rw [← Option.some.inj heq]
    split <;> rfl
  rw [hrunnables]
  refine ⟨by simp, ?_, ?_⟩
  · rw [Numbered, List.map_append, List.length_append, List.length_singleton, List.range_succ,
      List.map_append, hnumbered]
    rfl
  · intro r hr
    rcases List.mem_append.mp hr with hr | hr
    · exact hrs r hr
    · obtain rfl := List.mem_singleton.mp hr
      exact ⟨rfl, List.mem_of_getElem? hp⟩

/-- The runnables agree but for their execution times. -/
def SameButTimes (r r' : Runnable D) : Prop :=
  r'.toLabelLists = r.toLabelLists ∧ r'.id = r.id ∧ r'.periodMs = r.periodMs

theorem yields_execTimes (cfg : Config D) (runnables : List (Runnable D)) :
    (generateRunnableAcetsBcetsAndWcets cfg runnables).Yields
      (List.Forall₂ SameButTimes runnables) := by
  refine Yields.bind (yields_any _) fun dists _ => yields_mapM fun r _ => ?_
  refine Yields.bind (yields_any _) fun rand _ => Yields.bind (yields_any _) fun dist _ => ?_
  refine Yields.bind (yields_any _) fun acet _ => Yields.bind (yields_any _) fun bcetFactor _ => ?_
  exact Yields.bind (yields_any _) fun wcetFactor _ => yields_pure ⟨rfl, rfl, rfl⟩

omit [Floating D] [DecidableLE D] in
theorem skeleton_of_sameButTimes {runnables runnables' : List (Runnable D)}
    (h : List.Forall₂ SameButTimes runnables runnables') : skeleton runnables' = skeleton runnables := by
  induction h with
  | nil => rfl
  | cons hr _ ih => exact congrArg₂ List.cons (Prod.ext hr.2.1 hr.2.2) ih

omit [Floating D] [DecidableLE D] in
theorem empty_of_sameButTimes {runnables runnables' : List (Runnable D)}
    (h : List.Forall₂ SameButTimes runnables runnables') (hempty : ∀ r ∈ runnables, r.toLabelLists = {}) :
    ∀ r ∈ runnables', r.toLabelLists = {} := by
  induction h with
  | nil => exact hempty
  | cons hr _ ih =>
    obtain ⟨hfirst, hrest⟩ := List.forall_mem_cons.mp hempty
    exact List.forall_mem_cons.mpr ⟨hr.1.trans hfirst, ih hrest⟩

/-! ## Tasks -/

/-- The tasks that a period adds: all have the period, and together they have its runnables, in order. -/
theorem mergePeriod_spec (runnables : List (Runnable D)) (tasks : List (Task D)) (p : ℤ) :
    ∃ new, mergePeriod runnables tasks p = tasks ++ new ∧ (∀ t ∈ new, t.periodMs = p)
      ∧ new.flatMap (·.runnables) = pointersOf runnables p := by
  suffices h : ∀ xs : List (Runnable D × ℕ), ∃ closed t,
      xs.foldl (mergeRunnable p) (none, tasks) = (t, tasks ++ closed)
        ∧ (∀ t' ∈ closed ++ t.toList, t'.periodMs = p)
        ∧ (closed ++ t.toList).flatMap (·.runnables)
          = (xs.filter fun x => x.1.periodMs = p).map (·.2) by
    obtain ⟨closed, t, hfold, hperiod, hpointers⟩ := h runnables.zipIdx
    refine ⟨closed ++ t.toList, ?_, hperiod, hpointers⟩
    rw [mergePeriod, hfold]
    exact List.append_assoc tasks closed t.toList
  intro xs
  induction xs using List.reverseRecOn with
  | nil => exact ⟨[], none, by simp, nofun, rfl⟩
  | append_singleton xs x ih =>
    obtain ⟨closed, t, hfold, hperiod, hpointers⟩ := ih
    obtain ⟨r, ptr⟩ := x
    rw [List.foldl_append, List.foldl_cons, List.foldl_nil, hfold, List.filter_append, List.map_append,
      ← hpointers]
    by_cases hp : r.periodMs = p
    · rw [List.filter_cons_of_pos (by simpa using hp), List.filter_nil, List.map_singleton]
      simp only [mergeRunnable, hp, ne_eq, not_true, if_false]
      cases t with
      | none =>
        refine ⟨closed, some _, rfl, ?_, ?_⟩
        · simpa [or_imp, forall_and, Task.addRunnable, Task.new] using hperiod
        · simp [Task.addRunnable, Task.new]
      | some t =>
        by_cases hfits : t.doesRunnableFit r
        · simp only [if_pos hfits]
          refine ⟨closed, some _, rfl, ?_, ?_⟩
          · simpa [or_imp, forall_and, Task.addRunnable] using hperiod
          · simp [Task.addRunnable]
        · simp only [if_neg hfits, List.append_assoc]
          refine ⟨closed ++ [t], some _, rfl, ?_, ?_⟩
          · simpa [or_imp, forall_and, Task.addRunnable, Task.new] using hperiod
          · simp [Task.addRunnable, Task.new]
    · rw [List.filter_cons_of_neg (by simpa using hp), List.filter_nil, List.map_nil, List.append_nil]
      simp only [mergeRunnable, hp, ne_eq, not_false_iff, if_true]
      exact ⟨closed, t, rfl, hperiod, rfl⟩

/-- The tasks of all periods, behind each other. -/
theorem mergePeriods_spec (runnables : List (Runnable D)) (periods : List ℤ) :
    (∀ t ∈ periods.foldl (mergePeriod runnables) [], ∀ ptr ∈ t.runnables,
        (runnables.map (·.periodMs))[ptr]? = some t.periodMs)
      ∧ (periods.foldl (mergePeriod runnables) []).flatMap (·.runnables)
        = periods.flatMap (pointersOf runnables) := by
  induction periods using List.reverseRecOn with
  | nil => exact ⟨nofun, rfl⟩
  | append_singleton periods p ih =>
    obtain ⟨new, hnew, hperiod, hpointers⟩ :=
      mergePeriod_spec runnables (periods.foldl (mergePeriod runnables) []) p
    rw [List.foldl_append, List.foldl_cons, List.foldl_nil, hnew]
    constructor
    · intro t ht ptr hptr
      rcases List.mem_append.mp ht with ht | ht
      · exact ih.1 t ht ptr hptr
      · rw [hperiod t ht, ← mem_pointersOf, ← hpointers]
        exact List.mem_flatMap_of_mem ht hptr
    · rw [List.flatMap_append, ih.2, hpointers, List.flatMap_append, List.flatMap_singleton]

/-- The runnables of a task have its period. -/
theorem period_of_mem_task {cfg : Config D} {mergeRunnables : Bool} {runnables : List (Runnable D)}
    {t : Task D} (ht : t ∈ generateTaskInstancesFromRunnables cfg mergeRunnables runnables) {ptr : ℕ}
    (hptr : ptr ∈ t.runnables) : (runnables.map (·.periodMs))[ptr]? = some t.periodMs := by
  cases mergeRunnables with
  | true => exact (mergePeriods_spec runnables cfg.periodsMs).1 t ht ptr hptr
  | false =>
    obtain ⟨⟨r, i⟩, hr, rfl⟩ := List.mem_map.mp ht
    obtain rfl : ptr = i := by simpa [Task.addRunnable, Task.new] using hptr
    rw [List.getElem?_map, List.mem_zipIdx_iff_getElem?.mp hr]
    rfl

/-- No runnable is in two tasks, or twice in one. -/
theorem nodup_runnables {cfg : Config D} {mergeRunnables : Bool} (runnables : List (Runnable D))
    (h : mergeRunnables = true → cfg.periodsMs.Nodup) :
    ((generateTaskInstancesFromRunnables cfg mergeRunnables runnables).flatMap (·.runnables)).Nodup := by
  cases mergeRunnables with
  | true =>
    show ((cfg.periodsMs.foldl (mergePeriod runnables) []).flatMap (·.runnables)).Nodup
    rw [(mergePeriods_spec runnables cfg.periodsMs).2, List.nodup_flatMap]
    refine ⟨fun p _ => nodup_pointersOf runnables p, (h rfl).imp fun {p q} hne ptr hp hq => hne ?_⟩
    exact Option.some.inj ((mem_pointersOf.mp hp).symm.trans (mem_pointersOf.mp hq))
  | false =>
    show ((runnables.zipIdx.map fun x => (Task.new x.2 x.1.periodMs).addRunnable x.2 x.1).flatMap
      (·.runnables)).Nodup
    rw [List.flatMap_map]
    show (runnables.zipIdx.flatMap fun x => [x.2]).Nodup
    rw [← List.map_eq_flatMap, map_snd_zipIdx]
    exact List.nodup_range

/-- No runnable is twice in a task. -/
theorem nodup_of_mem_task {cfg : Config D} {mergeRunnables : Bool} {runnables : List (Runnable D)}
    {t : Task D} (ht : t ∈ generateTaskInstancesFromRunnables cfg mergeRunnables runnables) :
    t.runnables.Nodup := by
  cases mergeRunnables with
  | true =>
    replace ht : t ∈ cfg.periodsMs.foldl (mergePeriod runnables) [] := ht
    generalize cfg.periodsMs = periods at ht
    induction periods using List.reverseRecOn with
    | nil => exact absurd ht List.not_mem_nil
    | append_singleton periods p ih =>
      obtain ⟨new, hnew, -, hpointers⟩ :=
        mergePeriod_spec runnables (periods.foldl (mergePeriod runnables) []) p
      rw [List.foldl_append, List.foldl_cons, List.foldl_nil, hnew] at ht
      rcases List.mem_append.mp ht with ht | ht
      · exact ih ht
      · have hnodup := nodup_pointersOf runnables p
        rw [← hpointers, List.nodup_flatMap] at hnodup
        exact hnodup.1 t ht
  | false =>
    obtain ⟨⟨r, i⟩, -, rfl⟩ := List.mem_map.mp ht
    exact List.nodup_singleton i

/-- Every runnable is in a task. -/
theorem mem_runnables {cfg : Config D} {mergeRunnables : Bool} {runnables : List (Runnable D)}
    (h : ∀ r ∈ runnables, r.periodMs ∈ cfg.periodsMs) {ptr : ℕ} (hptr : ptr < runnables.length) :
    ptr ∈ (generateTaskInstancesFromRunnables cfg mergeRunnables runnables).flatMap (·.runnables) := by
  cases mergeRunnables with
  | true =>
    show ptr ∈ (cfg.periodsMs.foldl (mergePeriod runnables) []).flatMap (·.runnables)
    rw [(mergePeriods_spec runnables cfg.periodsMs).2, List.mem_flatMap]
    refine ⟨_, h _ (List.getElem_mem hptr), mem_pointersOf.mpr ?_⟩
    rw [List.getElem?_map, List.getElem?_eq_getElem hptr, Option.map_some]
  | false =>
    have hmem : (runnables[ptr], ptr) ∈ runnables.zipIdx :=
      List.mem_zipIdx_iff_getElem?.mpr (List.getElem?_eq_getElem hptr)
    exact List.mem_flatMap.mpr ⟨_, List.mem_map_of_mem hmem, by simp [Task.addRunnable, Task.new]⟩

/-- No runnable is in two tasks of a finished instance. -/
theorem yields_nodup_runnables [DecidableLT D] (cfg : Config D) {mergeRunnables : Bool} (mtype : MessageType)
    (h : mergeRunnables = true → cfg.periodsMs.Nodup) :
    (BenchmarkInstance.new cfg mergeRunnables mtype).Yields fun b =>
      (b.tasks.flatMap (·.runnables)).Nodup := by
  refine (yields_any _).bind fun numRunnables _ => (yields_any _).bind fun rs₀ _ => ?_
  refine (yields_any _).bind fun rs _ => (yields_any _).bind fun numLabels _ => ?_
  refine (yields_any _).bind fun labels _ => (yields_any _).bind fun mapped _ => ?_
  exact (yields_any _).bind fun finished _ => yields_pure (nodup_runnables rs h)

end KZH15
