import Inconcretes.Kzh15.Grouping
import Mathlib.Algebra.Order.Field.Rat

/-!
# How runnables are merged

The runnables of a period are taken in order. Each goes into the task that was made last when it fits there,
and into a new one otherwise. What one such step makes (`mergeRunnable_kept`) gives what a period adds
(`mergePeriod_merged`) and what all periods do (`mergePeriods_merged`): every task has runnables in it and the
sums of their execution times, a task with two of them is within the bound, and the first runnable of a task
did not fit into the task before it.
-/

namespace KZH15

variable {D : Type} [Floating D] [DecidableLE D]

omit [Floating D] [DecidableLE D] in
/-- The runnables that a task points to. -/
def Task.members (runnables : List (Runnable D)) (t : Task D) : List (Runnable D) :=
  t.runnables.filterMap (runnables[·]?)

omit [DecidableLE D] in
/-- The sum of some execution times, from the first one on. -/
def total (time : Runnable D → D) (rs : List (Runnable D)) : D := rs.foldl (fun s r => s + time r) (0 : ℤ)

/-! ## One task -/

omit [DecidableLE D] in
/-- A task of the period `p` with one runnable. -/
def Task.alone (p : ℤ) (r : Runnable D) : Task D := (Task.new 0 p).addRunnable 0 r

/-- A task that is made from runnables. -/
structure Task.Made (runnables : List (Runnable D)) (t : Task D) : Prop where
  nonempty : t.runnables ≠ []
  acet_eq : t.acetUs = total (·.acetUs) (t.members runnables)
  bcet_eq : t.bcetUs = total (·.bcetUs) (t.members runnables)
  wcet_eq : t.wcetUs = total (·.wcetUs) (t.members runnables)
  within : 2 ≤ t.runnables.length → usToMs t.wcetUs ≤ kMaxUtilPerCPU * (getMinPeriodMs t.periodMs : D)
  second : ∀ ptr ptr' rest, t.runnables = ptr :: ptr' :: rest → ∀ r r', runnables[ptr]? = some r →
    runnables[ptr']? = some r' → (Task.alone t.periodMs r).doesRunnableFit r' = true

variable {runnables : List (Runnable D)} {ptr : ℕ} {r : Runnable D}

omit [DecidableLE D] in
theorem Task.members_addRunnable (t : Task D) (hr : runnables[ptr]? = some r) :
    (t.addRunnable ptr r).members runnables = t.members runnables ++ [r] := by
  show (t.runnables ++ [ptr]).filterMap (runnables[·]?) = _
  rw [List.filterMap_append, List.filterMap_cons_some hr, List.filterMap_nil]
  rfl

omit [DecidableLE D] in
theorem total_concat (time : Runnable D → D) (rs : List (Runnable D)) (r : Runnable D) :
    total time (rs ++ [r]) = total time rs + time r := List.foldl_concat ..

/-- A task with one runnable. -/
theorem Task.made_new (id p : ℤ) (hr : runnables[ptr]? = some r) :
    ((Task.new id p).addRunnable ptr r).Made runnables := by
  have hmembers : ((Task.new id p).addRunnable ptr r).members runnables = [r] :=
    Task.members_addRunnable (Task.new id p) hr
  refine ⟨List.cons_ne_nil _ _, ?_, ?_, ?_, fun h => absurd h (by decide : ¬2 ≤ 1), fun _ _ _ h => ?_⟩
  · rw [hmembers]
    rfl
  · rw [hmembers]
    rfl
  · rw [hmembers]
    rfl
  · exact absurd h (by simp [Task.addRunnable, Task.new])

omit [DecidableLE D] in
/-- The time of a task with one runnable is that of the runnable. -/
theorem wcetUs_of_one {t : Task D} (h : t.wcetUs = total (·.wcetUs) (t.members runnables))
    (hone : t.runnables = [ptr]) (hr : runnables[ptr]? = some r) :
    t.wcetUs = (Task.alone t.periodMs r).wcetUs := by
  rw [h, Task.members, hone, List.filterMap_cons_some hr]
  rfl

/-- A runnable that fits is added to the task. -/
theorem Task.Made.add {t : Task D} (h : t.Made runnables) (hr : runnables[ptr]? = some r)
    (hfit : t.doesRunnableFit r = true) : (t.addRunnable ptr r).Made runnables := by
  have hempty : t.runnables.isEmpty = false := by simpa using h.nonempty
  have hle : usToMs (t.wcetUs + r.wcetUs) ≤ kMaxUtilPerCPU * (getMinPeriodMs t.periodMs : D) := by
    rw [Task.doesRunnableFit, hempty, Bool.false_or] at hfit
    exact of_decide_eq_true hfit
  refine ⟨by simp [Task.addRunnable], ?_, ?_, ?_, fun _ => hle, fun ptr₁ ptr₂ rest hptrs => ?_⟩
  · rw [Task.members_addRunnable t hr, total_concat, ← h.acet_eq]
    rfl
  · rw [Task.members_addRunnable t hr, total_concat, ← h.bcet_eq]
    rfl
  · rw [Task.members_addRunnable t hr, total_concat, ← h.wcet_eq]
    rfl
  · replace hptrs : t.runnables ++ [ptr] = ptr₁ :: ptr₂ :: rest := hptrs
    cases hold : t.runnables with
    | nil => exact absurd hold h.nonempty
    | cons ptr₀ rest₀ =>
      rw [hold] at hptrs
      obtain ⟨rfl, htail⟩ := List.cons.inj hptrs
      cases rest₀ with
      | cons ptr₀' rest₀ =>
        obtain ⟨rfl, -⟩ := List.cons.inj htail
        exact h.second _ _ _ hold
      | nil =>
        -- the task had one runnable, and its time is that of the runnable
        obtain ⟨rfl, -⟩ := List.cons.inj htail
        intro r₁ r₂ hr₁ hr₂
        obtain rfl := Option.some.inj (hr.symm.trans hr₂)
        rw [wcetUs_of_one h.wcet_eq hold hr₁] at hle
        exact decide_eq_true hle

/-! ## One period -/

/-- The first runnable of the second task does not fit into the first one. -/
def Separated (runnables : List (Runnable D)) (t t' : Task D) : Prop :=
  ∀ ptr ∈ t'.runnables.head?, ∀ r, runnables[ptr]? = some r → t.doesRunnableFit r = false

/-- The tasks that a period makes, of which the first has the number `start`. -/
structure Merged (runnables : List (Runnable D)) (start : ℕ) (new : List (Task D)) : Prop where
  made : ∀ t ∈ new, t.Made runnables
  ids_eq : new.map (·.id) = (List.range' start new.length).map Int.ofNat
  separated : new.IsChain (Separated runnables)

omit [Floating D] [DecidableLE D] in
theorem ids_concat {start : ℕ} {new : List (Task D)} {t : Task D}
    (h : new.map (·.id) = (List.range' start new.length).map Int.ofNat)
    (ht : t.id = (start + new.length : ℕ)) :
    (new ++ [t]).map (·.id) = (List.range' start (new ++ [t]).length).map Int.ofNat := by
  rw [List.map_append, h, List.length_append, List.length_singleton, List.range'_concat, List.map_append,
    List.map_singleton, ht, Nat.one_mul]
  rfl

theorem separated_addRunnable {t t' : Task D} (hne : t'.runnables ≠ []) (h : Separated runnables t t')
    (ptr : ℕ) (r : Runnable D) : Separated runnables t (t'.addRunnable ptr r) := by
  have hhead : (t'.addRunnable ptr r).runnables.head? = t'.runnables.head? := by
    show (t'.runnables ++ [ptr]).head? = _
    rw [List.head?_append_of_ne_nil _ hne]
  rw [Separated, hhead]
  exact h

/-- One runnable more, in the last task or in a new one. -/
theorem mergeRunnable_kept {p : ℤ} {tasks closed : List (Task D)} {t : Option (Task D)}
    (h : Merged runnables tasks.length (closed ++ t.toList)) (hclosed : t = none → closed = [])
    {x : Runnable D × ℕ} (hx : runnables[x.2]? = some x.1) :
    ∃ closed' t', mergeRunnable p (t, tasks ++ closed) x = (t', tasks ++ closed')
      ∧ Merged runnables tasks.length (closed' ++ t'.toList) ∧ (t' = none → closed' = []) := by
  obtain ⟨r, ptr⟩ := x
  by_cases hp : r.periodMs = p
  · simp only [mergeRunnable, hp, ne_eq, not_true, if_false]
    cases t with
    | none =>
      obtain rfl := hclosed rfl
      refine ⟨[], some _, rfl, ⟨?_, ?_, List.isChain_singleton _⟩, fun _ => rfl⟩
      · exact fun t ht => List.mem_singleton.mp ht ▸ Task.made_new _ p hx
      · show [((tasks ++ []).length : ℤ)] = _
        rw [List.append_nil]
        rfl
    | some t =>
      have ht : t.Made runnables := h.made t (by simp)
      obtain ⟨hchain, -, hlast⟩ := List.isChain_append.mp h.separated
      by_cases hfits : t.doesRunnableFit r
      · simp only [if_pos hfits]
        refine ⟨closed, some _, rfl, ⟨fun t' ht' => ?_, ?_, ?_⟩,
          fun h => absurd h (Option.some_ne_none _)⟩
        · rcases List.mem_append.mp ht' with ht' | ht'
          · exact h.made t' (List.mem_append_left _ ht')
          · exact List.mem_singleton.mp ht' ▸ ht.add hx hfits
        · simpa [Task.addRunnable] using h.ids_eq
        · refine List.isChain_append.mpr ⟨hchain, List.isChain_singleton _, fun t₁ ht₁ t₂ ht₂ => ?_⟩
          obtain rfl := Option.some.inj ht₂
          exact separated_addRunnable ht.nonempty (hlast t₁ ht₁ t rfl) ptr r
      · simp only [if_neg hfits, List.append_assoc]
        refine ⟨closed ++ [t], some _, rfl, ⟨fun t' ht' => ?_, ?_, ?_⟩,
          fun h => absurd h (Option.some_ne_none _)⟩
        · rcases List.mem_append.mp ht' with ht' | ht'
          · exact h.made t' ht'
          · exact List.mem_singleton.mp ht' ▸ Task.made_new _ p hx
        · refine ids_concat h.ids_eq ?_
          show (((tasks ++ closed).length + 1 : ℕ) : ℤ) = _
          rw [List.length_append, List.length_append]
          rfl
        · refine List.isChain_append.mpr ⟨h.separated, List.isChain_singleton _, fun t₁ ht₁ t₂ ht₂ => ?_⟩
          obtain rfl : t = t₁ := by simpa using ht₁
          obtain rfl := Option.some.inj ht₂
          intro ptr' hptr' r' hr'
          obtain rfl : ptr = ptr' := by simpa [Task.addRunnable, Task.new] using hptr'
          obtain rfl := Option.some.inj (hx.symm.trans hr')
          exact Bool.not_eq_true _ ▸ hfits
  · simp only [mergeRunnable, hp, ne_eq, not_false_iff, if_true]
    exact ⟨closed, t, rfl, h, hclosed⟩

/-- The tasks that a period adds. -/
theorem mergePeriod_merged (runnables : List (Runnable D)) (tasks : List (Task D)) (p : ℤ) :
    ∃ new, mergePeriod runnables tasks p = tasks ++ new ∧ Merged runnables tasks.length new := by
  suffices h : ∀ xs : List (Runnable D × ℕ), (∀ x ∈ xs, runnables[x.2]? = some x.1) → ∃ closed t,
      xs.foldl (mergeRunnable p) (none, tasks) = (t, tasks ++ closed)
        ∧ Merged runnables tasks.length (closed ++ t.toList) ∧ (t = none → closed = []) by
    obtain ⟨closed, t, hfold, hmerged, -⟩ := h runnables.zipIdx fun x hx => List.mem_zipIdx_iff_getElem?.mp hx
    refine ⟨closed ++ t.toList, ?_, hmerged⟩
    rw [mergePeriod, hfold]
    exact List.append_assoc tasks closed t.toList
  intro xs hxs
  induction xs using List.reverseRecOn with
  | nil =>
    exact ⟨[], none, by simp, ⟨fun _ ht => absurd ht List.not_mem_nil, rfl, List.isChain_nil⟩, fun _ => rfl⟩
  | append_singleton xs x ih =>
    obtain ⟨closed, t, hfold, hmerged, hclosed⟩ := ih fun x' hx' => hxs x' (List.mem_append_left _ hx')
    rw [List.foldl_append, List.foldl_cons, List.foldl_nil, hfold]
    exact mergeRunnable_kept hmerged hclosed (hxs x (by simp))

/-- The tasks that a period adds have its runnables, in order, and are merged. -/
theorem exists_new (runnables : List (Runnable D)) (tasks : List (Task D)) (p : ℤ) :
    ∃ new, mergePeriod runnables tasks p = tasks ++ new ∧ (∀ t ∈ new, t.periodMs = p)
      ∧ new.flatMap (·.runnables) = pointersOf runnables p ∧ Merged runnables tasks.length new := by
  obtain ⟨new, hnew, hperiod, hpointers⟩ := mergePeriod_spec runnables tasks p
  obtain ⟨new', hnew', hmerged⟩ := mergePeriod_merged runnables tasks p
  obtain rfl := List.append_cancel_left (hnew'.symm.trans hnew)
  exact ⟨_, hnew, hperiod, hpointers, hmerged⟩

/-! ## All periods -/

omit [Floating D] [DecidableLE D] in
/-- The runnables of a task are among those of its period, in the same order. -/
theorem sublist_pointersOf {new : List (Task D)} {p : ℤ}
    (h : new.flatMap (·.runnables) = pointersOf runnables p) {t : Task D} (ht : t ∈ new) :
    t.runnables.Sublist (pointersOf runnables p) := by
  obtain ⟨front, back, rfl⟩ := List.append_of_mem ht
  rw [← h, List.flatMap_append, List.flatMap_cons]
  exact (List.sublist_append_left _ _).trans (List.sublist_append_right _ _)

/-- The invariant of the loop over the periods. -/
structure MergedUpTo (runnables : List (Runnable D)) (periods : List ℤ) (tasks : List (Task D)) : Prop where
  merged : ∀ t ∈ tasks, t.Made runnables
  ids_eq : tasks.map (·.id) = (List.range tasks.length).map Int.ofNat
  separated : ∀ p : ℤ, (tasks.filter (·.periodMs = p)).IsChain (Separated runnables)
  period : ∀ t ∈ tasks, t.periodMs ∈ periods
  sublist : ∀ t ∈ tasks, t.runnables.Sublist (pointersOf runnables t.periodMs)

theorem mergePeriods_merged (runnables : List (Runnable D)) {periods : List ℤ} (hnodup : periods.Nodup) :
    MergedUpTo runnables periods (periods.foldl (mergePeriod runnables) []) := by
  induction periods using List.reverseRecOn with
  | nil => exact ⟨nofun, rfl, fun _ => List.isChain_nil, nofun, nofun⟩
  | append_singleton periods p ih =>
    obtain ⟨hperiods, -, hfresh⟩ := List.nodup_append.mp hnodup
    replace ih := ih hperiods
    rw [List.foldl_append, List.foldl_cons, List.foldl_nil]
    generalize periods.foldl (mergePeriod runnables) [] = tasks at ih ⊢
    obtain ⟨new, hnew, hperiod, hpointers, hmerged⟩ := exists_new runnables tasks p
    rw [hnew]
    refine ⟨fun t ht => ?_, ?_, fun p' => ?_, fun t ht => ?_, fun t ht => ?_⟩
    · exact (List.mem_append.mp ht).elim (ih.merged t) (hmerged.made t)
    · rw [List.map_append, ih.ids_eq, hmerged.ids_eq, List.length_append, List.range_add, List.map_append,
        List.range'_eq_map_range]
    · rw [List.filter_append]
      by_cases hp : p' = p
      · -- no task so far has the period
        subst hp
        have hnone : tasks.filter (·.periodMs = p') = [] := List.filter_eq_nil_iff.mpr fun t ht => by
          simpa using hfresh _ (ih.period t ht) p' List.mem_cons_self
        have hall : new.filter (·.periodMs = p') = new := List.filter_eq_self.mpr fun t ht => by
          simpa using hperiod t ht
        rw [hnone, hall]
        exact hmerged.separated
      · have hnone : new.filter (·.periodMs = p') = [] := List.filter_eq_nil_iff.mpr fun t ht => by
          simpa [hperiod t ht] using Ne.symm hp
        rw [hnone, List.append_nil]
        exact ih.separated p'
    · rcases List.mem_append.mp ht with ht | ht
      · exact List.mem_append_left _ (ih.period t ht)
      · exact List.mem_append_right _ (List.mem_singleton.mpr (hperiod t ht))
    · rcases List.mem_append.mp ht with ht | ht
      · exact ih.sublist t ht
      · rw [hperiod t ht]
        exact sublist_pointersOf hpointers ht

/-! ## Tasks with two runnables -/

omit [Floating D] [DecidableLE D] in
theorem isInfix_map {α β : Type} {f : α → β} {xs : List α} {y y' : β} :
    [y, y'] <:+: xs.map f ↔ ∃ x x', [x, x'] <:+: xs ∧ f x = y ∧ f x' = y' := by
  constructor
  · rintro ⟨front, back, heq⟩
    obtain ⟨xs₁, xs₂, rfl, hfront, -⟩ := List.map_eq_append_iff.mp heq.symm
    obtain ⟨xs₃, xs₄, rfl, -, hpair⟩ := List.map_eq_append_iff.mp hfront
    obtain ⟨x, xs₅, rfl, hx, htail⟩ := List.map_eq_cons_iff.mp hpair
    obtain ⟨x', xs₆, rfl, hx', hnil⟩ := List.map_eq_cons_iff.mp htail
    obtain rfl := List.map_eq_nil_iff.mp hnil
    exact ⟨x, x', ⟨xs₃, xs₂, rfl⟩, hx, hx'⟩
  · rintro ⟨x, x', hinfix, rfl, rfl⟩
    exact hinfix.map f

/-- Lists of one entry each stand behind each other as the entries do. -/
theorem map_eq_of_length_one {α β : Type} {f : α → List β} {xs : List α} (h : ∀ x ∈ xs, (f x).length = 1) :
    xs.map f = (xs.flatMap f).map ([·]) := by
  induction xs with
  | nil => rfl
  | cons x xs ih =>
    obtain ⟨hx, hxs⟩ := List.forall_mem_cons.mp h
    obtain ⟨y, hy⟩ := List.length_eq_one_iff.mp hx
    rw [List.map_cons, List.flatMap_cons, List.map_append, ih hxs, hy]
    rfl

/-- Two successive runnables of the period `p` would fit into one task. -/
def FitTogether (runnables : List (Runnable D)) (p : ℤ) : Prop :=
  ∃ r r', [r, r'] <:+: runnables.filter (·.periodMs = p) ∧ (Task.alone p r).doesRunnableFit r' = true

omit [Floating D] [DecidableLE D] in
/-- The runnables of a period, with their positions. -/
theorem mem_zipIdx_filter {p : ℤ} {x : Runnable D × ℕ}
    (hx : x ∈ runnables.zipIdx.filter fun x => x.1.periodMs = p) : runnables[x.2]? = some x.1 :=
  List.mem_zipIdx_iff_getElem?.mp (List.mem_of_mem_filter hx)

omit [Floating D] [DecidableLE D] in
theorem filter_eq_map (runnables : List (Runnable D)) (p : ℤ) :
    runnables.filter (·.periodMs = p) = (runnables.zipIdx.filter fun x => x.1.periodMs = p).map (·.1) := by
  conv_lhs => rw [← List.zipIdx_map_fst 0 runnables, List.filter_map]
  rfl

/-- A period makes a task with two runnables when two successive ones fit together. -/
theorem exists_two_iff_fitTogether {start : ℕ} {new : List (Task D)} {p : ℤ} (h : Merged runnables start new)
    (hperiod : ∀ t ∈ new, t.periodMs = p) (hpointers : new.flatMap (·.runnables) = pointersOf runnables p) :
    (∃ t ∈ new, 2 ≤ t.runnables.length) ↔ FitTogether runnables p := by
  rw [FitTogether, filter_eq_map]
  constructor
  · rintro ⟨t, ht, htwo⟩
    obtain ⟨ptr, ptr', rest, hptrs⟩ : ∃ ptr ptr' rest, t.runnables = ptr :: ptr' :: rest := by
      match hptrs : t.runnables with
      | [] => exact absurd (hptrs ▸ htwo) (by simp)
      | [_] => exact absurd (hptrs ▸ htwo) (by simp)
      | ptr :: ptr' :: rest => exact ⟨ptr, ptr', rest, rfl⟩
    have hinfix : [ptr, ptr'] <:+: pointersOf runnables p := by
      obtain ⟨front, back, rfl⟩ := List.append_of_mem ht
      rw [← hpointers, List.flatMap_append, List.flatMap_cons, hptrs]
      exact ⟨front.flatMap (·.runnables), rest ++ back.flatMap (·.runnables), by simp⟩
    obtain ⟨x, x', hx, rfl, rfl⟩ := isInfix_map.mp hinfix
    refine ⟨x.1, x'.1, hx.map _, ?_⟩
    rw [← hperiod t ht]
    exact (h.made t ht).second _ _ _ hptrs _ _ (mem_zipIdx_filter (hx.subset (by simp)))
      (mem_zipIdx_filter (hx.subset (by simp)))
  · rintro ⟨r, r', hinfix, hfit⟩
    by_contra hnot
    have hone : ∀ t ∈ new, t.runnables.length = 1 := fun t ht => by
      have hlt := not_le.mp fun htwo => hnot ⟨t, ht, htwo⟩
      have hpos := List.length_pos_iff.mpr (h.made t ht).nonempty
      omega
    obtain ⟨x, x', hx, rfl, rfl⟩ := isInfix_map.mp hinfix
    have hlists : [[x.2], [x'.2]] <:+: new.map (·.runnables) := by
      rw [map_eq_of_length_one hone, hpointers]
      exact (hx.map (·.2)).map ([·])
    obtain ⟨t, t', ht, hptr, hptr'⟩ := isInfix_map.mp hlists
    have hr := mem_zipIdx_filter (hx.subset (List.mem_cons_self))
    have hpair : [t, t'].IsChain (Separated runnables) := List.IsChain.infix h.separated ht
    have hsep : Separated runnables t t' := List.isChain_pair.mp hpair
    have hmem : t ∈ new := ht.subset List.mem_cons_self
    -- the second runnable did not fit into the task of the first one
    have hfalse := hsep x'.2 (by rw [hptr']; rfl) x'.1 (mem_zipIdx_filter (hx.subset (by simp)))
    rw [Task.doesRunnableFit, wcetUs_of_one (h.made t hmem).wcet_eq hptr hr, hptr, hperiod t hmem] at hfalse
    exact absurd (hfit.symm.trans hfalse) (by decide)

/-- Some task has two runnables when runnables are merged and two of them fit together. -/
theorem exists_two_iff (cfg : Config D) (mergeRunnables : Bool) (runnables : List (Runnable D)) :
    (∃ t ∈ generateTaskInstancesFromRunnables cfg mergeRunnables runnables, 2 ≤ t.runnables.length)
      ↔ mergeRunnables = true ∧ ∃ p ∈ cfg.periodsMs, FitTogether runnables p := by
  cases mergeRunnables with
  | false =>
    refine iff_of_false ?_ fun h => Bool.false_ne_true h.1
    rintro ⟨t, ht, htwo⟩
    obtain ⟨x, -, rfl⟩ := List.mem_map.mp ht
    exact absurd htwo (by decide : ¬2 ≤ 1)
  | true =>
    rw [and_iff_right rfl]
    show (∃ t ∈ cfg.periodsMs.foldl (mergePeriod runnables) [], 2 ≤ t.runnables.length) ↔ _
    induction cfg.periodsMs using List.reverseRecOn with
    | nil => exact iff_of_false (by simp) (by simp)
    | append_singleton periods p ih =>
      rw [List.foldl_append, List.foldl_cons, List.foldl_nil]
      generalize periods.foldl (mergePeriod runnables) [] = tasks at ih ⊢
      obtain ⟨new, hnew, hperiod, hpointers, hmerged⟩ := exists_new runnables tasks p
      simp only [hnew, List.mem_append, List.mem_singleton, or_and_right, exists_or, exists_eq_left]
      rw [ih, exists_two_iff_fitTogether hmerged hperiod hpointers]

/-! ## Exact execution times -/

theorem total_eq_sum (time : Runnable ℚ → ℚ) (rs : List (Runnable ℚ)) : total time rs = (rs.map time).sum := by
  rw [List.sum_eq_foldl, List.foldl_map]
  rfl

theorem getMinPeriodMs_pos (p : ℤ) : 0 < getMinPeriodMs p := by
  rw [getMinPeriodMs]
  split_ifs with hp
  · exact hp
  · decide

theorem getUtilization_le_iff (t : Task ℚ) :
    t.getUtilization ≤ kMaxUtilPerCPU ↔ usToMs t.wcetUs ≤ kMaxUtilPerCPU * (getMinPeriodMs t.periodMs : ℚ) :=
  div_le_iff₀ (Int.cast_pos.mpr (getMinPeriodMs_pos t.periodMs))

/-- Tasks that runnables are merged into. -/
structure WellMerged (runnables : List (Runnable ℚ)) (tasks : List (Task ℚ)) : Prop where
  /-- Each runnable is in one task. -/
  partition : (tasks.flatMap (·.runnables)).Perm (List.range runnables.length)
  nonempty : ∀ t ∈ tasks, t.runnables ≠ []
  period : ∀ t ∈ tasks, ∀ r ∈ t.members runnables, r.periodMs = t.periodMs
  ascending : ∀ t ∈ tasks, t.runnables.Pairwise (· < ·)
  acet_eq : ∀ t ∈ tasks, t.acetUs = ((t.members runnables).map (·.acetUs)).sum
  bcet_eq : ∀ t ∈ tasks, t.bcetUs = ((t.members runnables).map (·.bcetUs)).sum
  wcet_eq : ∀ t ∈ tasks, t.wcetUs = ((t.members runnables).map (·.wcetUs)).sum
  ids_eq : tasks.map (·.id) = (List.range tasks.length).map Int.ofNat
  utilization_le : ∀ t ∈ tasks, 2 ≤ t.runnables.length → t.getUtilization ≤ kMaxUtilPerCPU
  /-- Among the tasks of one period, the first runnable of a task would have been too much for the task before
  it. -/
  next_fit : ∀ (p : ℤ) (i : ℕ) (t t' : Task ℚ), (tasks.filter (·.periodMs = p))[i]? = some t →
    (tasks.filter (·.periodMs = p))[i + 1]? = some t' → ∀ ptr ∈ t'.runnables.head?,
    ∀ r, runnables[ptr]? = some r → kMaxUtilPerCPU < (t.addRunnable ptr r).getUtilization

theorem lt_getUtilization_of_separated {runnables : List (Runnable ℚ)} {t t' : Task ℚ}
    (h : Separated runnables t t') {ptr : ℕ} (hptr : ptr ∈ t'.runnables.head?) {r : Runnable ℚ}
    (hr : runnables[ptr]? = some r) : kMaxUtilPerCPU < (t.addRunnable ptr r).getUtilization := by
  have hfits := h ptr hptr r hr
  rw [Task.doesRunnableFit, Bool.or_eq_false_iff, decide_eq_false_iff_not] at hfits
  exact lt_of_not_ge fun hle => hfits.2 ((getUtilization_le_iff (t.addRunnable ptr r)).mp hle)

/-- **Merging.** The tasks partition the runnables, with the bound kept by every task of several runnables and
no task made before it is needed. -/
theorem wellMerged (cfg : Config ℚ) (runnables : List (Runnable ℚ))
    (hperiods : ∀ r ∈ runnables, r.periodMs ∈ cfg.periodsMs) (hnodup : cfg.periodsMs.Nodup) :
    WellMerged runnables (generateTaskInstancesFromRunnables cfg true runnables) := by
  have hmerged : MergedUpTo runnables cfg.periodsMs (generateTaskInstancesFromRunnables cfg true runnables) :=
    mergePeriods_merged runnables hnodup
  have hperiod : ∀ t ∈ generateTaskInstancesFromRunnables cfg true runnables, ∀ ptr ∈ t.runnables,
      (runnables.map (·.periodMs))[ptr]? = some t.periodMs := fun _ ht _ hptr => period_of_mem_task ht hptr
  refine ⟨?_, fun t ht => (hmerged.merged t ht).nonempty, fun t ht r hr => ?_, fun t ht => ?_, fun t ht => ?_,
    fun t ht => ?_, fun t ht => ?_, hmerged.ids_eq, fun t ht htwo => ?_,
    fun p i t t' hi hi' ptr hptr r hr => ?_⟩
  · refine (List.perm_ext_iff_of_nodup (nodup_runnables runnables fun _ => hnodup) List.nodup_range).mpr
      fun ptr => ⟨fun hptr => ?_, fun hptr => mem_runnables hperiods (List.mem_range.mp hptr)⟩
    obtain ⟨t, ht, hptr⟩ := List.mem_flatMap.mp hptr
    obtain ⟨hlt, -⟩ := List.getElem?_eq_some_iff.mp (hperiod t ht ptr hptr)
    simpa using hlt
  · obtain ⟨ptr, hptr, hr⟩ := List.mem_filterMap.mp hr
    have hsome := hperiod t ht ptr hptr
    rw [List.getElem?_map, hr] at hsome
    exact Option.some.inj hsome
  · have hrange : (pointersOf runnables t.periodMs).Sublist (List.range runnables.length) :=
      map_snd_zipIdx runnables ▸ List.filter_sublist.map _
    exact List.pairwise_lt_range.sublist ((hmerged.sublist t ht).trans hrange)
  · rw [(hmerged.merged t ht).acet_eq, total_eq_sum]
  · rw [(hmerged.merged t ht).bcet_eq, total_eq_sum]
  · rw [(hmerged.merged t ht).wcet_eq, total_eq_sum]
  · exact (getUtilization_le_iff t).mpr ((hmerged.merged t ht).within htwo)
  · refine lt_getUtilization_of_separated ?_ hptr hr
    obtain ⟨hlt, rfl⟩ := List.getElem?_eq_some_iff.mp hi
    obtain ⟨hlt', rfl⟩ := List.getElem?_eq_some_iff.mp hi'
    exact List.isChain_iff_getElem.mp (hmerged.separated p) i hlt'

/-- A configuration with one period. -/
def tenMs : Config ℚ where
  scaleFactor := 1
  periodsMs := [10]
  labelsCfg := {
    count := ⟨1, 1⟩
    sizeShares := .insert ∅ ⟨1, 8⟩ 100
    typePartition := .insert ∅ .readWrite 100 }
  msgsCfg := {
    typePartition := .insert ∅ .interTask 100
    interTaskMsgsCfg := {
      volumeTypes := .insertMany ∅ [(.I, ⟨1, 10⟩), (.VI, ⟨11, 20⟩)]
      dist := .insert ∅ 10 (.insert ∅ 10 .I) } }
  runnablesCfg := { count := ⟨3, 3⟩, periodShares := .insert ∅ 10 100, execTimeProfiles := ∅ }

/-- Three runnables, of which two fit together. -/
def threeOfTenMs : List (Runnable ℚ) :=
  [{ Runnable.new 0 10 with wcetUs := 2000 }, { Runnable.new 1 10 with wcetUs := 2500 },
    { Runnable.new 2 10 with wcetUs := 1000 }]

theorem wellMerged_threeOfTenMs :
    WellMerged threeOfTenMs (generateTaskInstancesFromRunnables tenMs true threeOfTenMs) :=
  wellMerged tenMs threeOfTenMs (by decide) (by decide)

end KZH15
