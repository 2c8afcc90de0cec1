import Inconcretes.Kzh15.Grouping
import Inconcretes.Lib.Blocks
import Mathlib.Algebra.Order.Floor.Semiring
import Mathlib.Algebra.Order.Field.Rat
import Mathlib.Algebra.BigOperators.Ring.List
import Mathlib.Algebra.BigOperators.Ring.Finset
import Mathlib.Data.Nat.Cast.Order.Field

/-!
# How many runnables there are of each period

`generate_runnable_instances` goes through the periods and leaves one when its runnables have reached its
share. A period is left after its share rounded up (`quota`), so the periods of the runnables are the first
`max` entries of the blocks of these lengths (`foldlM_generateRunnable`), and what is rounded up is missing
from the periods behind (`followsShares_iff`).
-/

namespace KZH15

open Blocks

/-- The share of the `j`-th period, in runnables. -/
def shareOf (cfg : Config ℚ) (max : ℤ) (j : ℕ) : ℚ :=
  (cfg.periodsMs[j]?).elim 0 fun p => cfg.runnablesCfg.periodShares.getD p 0 * max / 100

/-- The share rounded up. -/
def quota (cfg : Config ℚ) (max : ℤ) (j : ℕ) : ℕ := ⌈shareOf cfg max j⌉₊

variable {cfg : Config ℚ} {max : ℤ}

theorem shareOf_eq {j : ℕ} {p : ℤ} (hp : cfg.periodsMs[j]? = some p) :
    shareOf cfg max j = cfg.runnablesCfg.periodShares.getD p 0 * max / 100 := by
  rw [shareOf, hp]
  rfl

theorem shareOf_le_quota (cfg : Config ℚ) (max : ℤ) (j : ℕ) : shareOf cfg max j ≤ quota cfg max j :=
  Nat.le_ceil _

theorem sum_range_elim (f : ℤ → ℚ) (ps : List ℤ) :
    ∑ j ∈ Finset.range ps.length, (ps[j]?).elim 0 f = (ps.map f).sum := by
  induction ps using List.reverseRecOn with
  | nil => rfl
  | append_singleton ps p ih =>
    rw [List.length_append, List.length_singleton, Finset.sum_range_succ, List.map_append, List.sum_append,
      ← ih, List.getElem?_concat_length]
    refine congrArg₂ (· + ·) (Finset.sum_congr rfl fun j hj => ?_) (by simp)
    rw [List.getElem?_append_left (Finset.mem_range.mp hj)]

theorem sum_shareOf (cfg : Config ℚ) (max : ℤ) :
    ∑ j ∈ Finset.range cfg.periodsMs.length, shareOf cfg max j
      = (cfg.periodsMs.map fun p => cfg.runnablesCfg.periodShares.getD p 0).sum * max / 100 := by
  simp only [shareOf, mul_div_assoc]
  rw [sum_range_elim, List.sum_map_mul_right]

/-- The loop stops at a period when its share is reached. -/
theorem reaches_iff {j : ℕ} {p : ℤ} (hp : cfg.periodsMs[j]? = some p) (hmax : 0 < max) (k : ℕ) :
    cfg.runnablesCfg.periodShares.getD p 0 ≤ ((k : ℚ) + 1) * 100 / max ↔ quota cfg max j ≤ k + 1 := by
  have hmax' : (0 : ℚ) < max := Int.cast_pos.mpr hmax
  rw [quota, Nat.ceil_le, shareOf_eq hp, le_div_iff₀ hmax', div_le_iff₀ (by norm_num), Nat.cast_add,
    Nat.cast_one]

/-! ## The loop -/

/-- The periods have shares, which add up to everything. -/
structure SharesCover (cfg : Config ℚ) : Prop where
  pos : ∀ p ∈ cfg.periodsMs, 0 < cfg.runnablesCfg.periodShares.getD p 0
  sum_ge : 100 ≤ (cfg.periodsMs.map fun p => cfg.runnablesCfg.periodShares.getD p 0).sum

theorem SharesCover.quota_pos (h : SharesCover cfg) (hmax : 0 < max) {j : ℕ} (hj : j < cfg.periodsMs.length) :
    0 < quota cfg max j := by
  have hp := List.getElem?_eq_getElem hj
  rw [quota, Nat.ceil_pos, shareOf_eq hp]
  have hshare := h.pos _ (List.mem_of_getElem? hp)
  have hmax' : (0 : ℚ) < max := Int.cast_pos.mpr hmax
  positivity

theorem SharesCover.le_sum_quota (h : SharesCover cfg) (max : ℤ) (hmax : 0 ≤ max) :
    max.toNat ≤ ∑ j ∈ Finset.range cfg.periodsMs.length, quota cfg max j := by
  have hmax' : (0 : ℚ) ≤ max := Int.cast_nonneg hmax
  have hle : (max : ℚ) ≤ ∑ j ∈ Finset.range cfg.periodsMs.length, (quota cfg max j : ℚ) := by
    calc (max : ℚ) = 100 * max / 100 := by ring
      _ ≤ (cfg.periodsMs.map fun p => cfg.runnablesCfg.periodShares.getD p 0).sum * max / 100 := by
        gcongr
        exact h.sum_ge
      _ = ∑ j ∈ Finset.range cfg.periodsMs.length, shareOf cfg max j := (sum_shareOf cfg max).symm
      _ ≤ _ := Finset.sum_le_sum fun j _ => shareOf_le_quota cfg max j
  rw [← Nat.cast_sum] at hle
  exact Int.toNat_le.mpr (by exact_mod_cast hle)

/-- The state of the loop before its iteration `i`: `k` runnables of the period at `idx` have been made. -/
structure AtPeriod (cfg : Config ℚ) (max : ℤ) (i : ℕ) (s : ℕ × ℚ × List (Runnable ℚ)) (k : ℕ) : Prop where
  counter_eq : s.2.1 = k
  position : (∑ j ∈ Finset.range s.1, quota cfg max j) + k = i
  idx_le : s.1 ≤ cfg.periodsMs.length
  below : 0 < max → s.1 < cfg.periodsMs.length → k < quota cfg max s.1
  ids_eq : s.2.2.map (·.id) = (List.range i).map Int.ofNat
  periods_eq : s.2.2.map (fun r : Runnable ℚ => some r.periodMs)
    = ((blocks (quota cfg max) cfg.periodsMs.length).take i).map (cfg.periodsMs[·]?)

/-- While runnables are missing the index is in range. -/
theorem AtPeriod.idx_lt {i k : ℕ} {s : ℕ × ℚ × List (Runnable ℚ)} (h : AtPeriod cfg max i s k)
    (hcover : SharesCover cfg) (hi : i < max.toNat) : s.1 < cfg.periodsMs.length := by
  refine h.idx_le.lt_of_ne fun heq => ?_
  have hsum := hcover.le_sum_quota max (by omega)
  have hposition := h.position
  rw [heq] at hposition
  omega

theorem AtPeriod.entry {i k : ℕ} {s : ℕ × ℚ × List (Runnable ℚ)} (h : AtPeriod cfg max i s k)
    (hmax : 0 < max) (hlt : s.1 < cfg.periodsMs.length) :
    (blocks (quota cfg max) cfg.periodsMs.length)[i]? = some s.1 :=
  h.position ▸ getElem?_blocks hlt (h.below hmax hlt)

/-- One iteration. -/
theorem AtPeriod.step {i k : ℕ} {s : ℕ × ℚ × List (Runnable ℚ)} (h : AtPeriod cfg max i s k)
    (hcover : SharesCover cfg) (hi : i < max.toNat) :
    ∃ s' k', generateRunnable cfg max s i = some s' ∧ AtPeriod cfg max (i + 1) s' k' := by
  obtain ⟨idx, counter, runnables⟩ := s
  have hmax : 0 < max := by omega
  have hlt : idx < cfg.periodsMs.length := h.idx_lt hcover hi
  have hp := List.getElem?_eq_getElem hlt
  have hentry := h.entry hmax hlt
  obtain ⟨rfl, hposition, hle, hbelow, hids, hperiods⟩ := h
  have hids' : (runnables ++ [Runnable.new (i : ℤ) cfg.periodsMs[idx]]).map Runnable.id
      = (List.range (i + 1)).map Int.ofNat := by
    rw [List.map_append, hids, List.range_succ, List.map_append]
    rfl
  have hperiods' :
      (runnables ++ [Runnable.new (i : ℤ) cfg.periodsMs[idx]]).map (fun r : Runnable ℚ => some r.periodMs)
      = ((blocks (quota cfg max) cfg.periodsMs.length).take (i + 1)).map (cfg.periodsMs[·]?) := by
    rw [List.take_add_one, hentry, List.map_append, List.map_append, hperiods]
    exact congrArg (_ ++ [·]) hp.symm
  have hstep : generateRunnable cfg max (idx, (k : ℚ), runnables) i
      = some (if quota cfg max idx ≤ k + 1
          then (idx + 1, ((0 : ℤ) : ℚ), runnables ++ [Runnable.new (i : ℤ) cfg.periodsMs[idx]])
          else (idx, (k : ℚ) + (1 : ℤ), runnables ++ [Runnable.new (i : ℤ) cfg.periodsMs[idx]])) := by
    simp only [generateRunnable, hp, Option.bind_eq_bind, Option.bind_some]
    refine congrArg some (if_congr ?_ rfl rfl)
    exact_mod_cast reaches_iff hp hmax k
  rw [hstep]
  by_cases hreach : quota cfg max idx ≤ k + 1
  · -- the period has reached its share
    rw [if_pos hreach]
    refine ⟨_, 0, rfl, ⟨rfl, ?_, hlt, fun _ hnext => hcover.quota_pos hmax hnext, hids', hperiods'⟩⟩
    have hk := hbelow hmax hlt
    show (∑ j ∈ Finset.range (idx + 1), quota cfg max j) + 0 = i + 1
    rw [Finset.sum_range_succ]
    dsimp only at hk hposition
    omega
  · rw [if_neg hreach]
    refine ⟨_, k + 1, rfl, ⟨?_, ?_, hlt.le, fun _ _ => not_le.mp hreach, hids', hperiods'⟩⟩
    · show (k : ℚ) + ((1 : ℤ) : ℚ) = ((k + 1 : ℕ) : ℚ)
      push_cast
      rfl
    · rw [← hposition]
      rfl

/-- The loop up to its iteration `i`. -/
theorem foldlM_generateRunnable (hcover : SharesCover cfg) {i : ℕ} (hi : i ≤ max.toNat) :
    ∃ s k, (List.range i).foldlM (generateRunnable cfg max) (0, ((0 : ℤ) : ℚ), []) = some s
      ∧ AtPeriod cfg max i s k := by
  induction i with
  | zero =>
    exact ⟨_, 0, rfl, ⟨rfl, rfl, Nat.zero_le _, fun hmax hlt => hcover.quota_pos hmax hlt, rfl, rfl⟩⟩
  | succ i ih =>
    obtain ⟨s, k, hs, hat⟩ := ih (Nat.le_of_succ_le hi)
    obtain ⟨s', k', hstep, hat'⟩ := hat.step hcover hi
    refine ⟨s', k', ?_, hat'⟩
    rw [List.range_succ, List.foldlM_append, hs]
    exact (Option.bind_some ..).trans (by rw [List.foldlM_cons, hstep]; rfl)

/-- The runnables are made for the periods at `idxs`, one after the other: each of these is the index that the
loop has in the iteration, and each index comes as often as its share rounded up and what is left for it. -/
structure MadeAt (cfg : Config ℚ) (max : ℤ) (idxs : List ℕ) : Prop where
  length_eq : idxs.length = max.toNat
  index_eq : ∀ i idx, idxs[i]? = some idx → ∃ counter runnables,
    (List.range i).foldlM (generateRunnable cfg max) (0, ((0 : ℤ) : ℚ), []) = some (idx, counter, runnables)
  in_range : ∀ idx ∈ idxs, idx < cfg.periodsMs.length
  ascending : idxs.Pairwise (· ≤ ·)
  count_eq : ∀ j < cfg.periodsMs.length,
    idxs.count j = min (quota cfg max j) (max.toNat - ∑ i ∈ Finset.range j, quota cfg max i)
  runnables_eq : ∃ runnables, generateRunnableInstances cfg max = some runnables
    ∧ runnables.map (·.id) = (List.range max.toNat).map Int.ofNat
    ∧ runnables.map (fun r : Runnable ℚ => some r.periodMs) = idxs.map (cfg.periodsMs[·]?)

/-- **The index stays in range**, and the periods get their shares rounded up while there are runnables left. -/
theorem exists_madeAt (cfg : Config ℚ) (hcover : SharesCover cfg) (max : ℤ) (hmax : 0 ≤ max) :
    ∃ idxs, MadeAt cfg max idxs := by
  have hlength : ((blocks (quota cfg max) cfg.periodsMs.length).take max.toNat).length = max.toNat := by
    rw [List.length_take, length_blocks, Nat.min_eq_left (hcover.le_sum_quota max hmax)]
  refine ⟨(blocks (quota cfg max) cfg.periodsMs.length).take max.toNat, hlength, fun i idx hidx => ?_,
    fun idx hidx => lt_of_mem_blocks (List.mem_of_mem_take hidx),
    (pairwise_blocks _).sublist (List.take_sublist _ _),
    fun j hj => count_take_blocks hj _, ?_⟩
  · have hi : i < max.toNat := hlength ▸ (List.getElem?_eq_some_iff.mp hidx).1
    obtain ⟨⟨idx', counter, runnables⟩, k, hs, hat⟩ := foldlM_generateRunnable hcover hi.le
    rw [List.getElem?_take_of_lt hi, hat.entry (by omega) (hat.idx_lt hcover hi)] at hidx
    obtain rfl := Option.some.inj hidx
    exact ⟨counter, runnables, hs⟩
  · obtain ⟨⟨idx, counter, runnables⟩, k, hs, hat⟩ := foldlM_generateRunnable hcover le_rfl
    refine ⟨runnables, ?_, hat.ids_eq, hat.periods_eq⟩
    rw [generateRunnableInstances, hs]
    rfl

/-- The periods of the benchmark with their shares. -/
def benchmarkShares : Config ℚ where
  scaleFactor := 1 / 100
  periodsMs := [0, 1, 2, 5, 10, 20, 50, 100, 200, 1000]
  labelsCfg := { count := ⟨0, 0⟩, sizeShares := ∅, typePartition := ∅ }
  msgsCfg := { typePartition := ∅, interTaskMsgsCfg := { volumeTypes := ∅, dist := ∅ } }
  runnablesCfg := {
    count := ⟨1000, 1500⟩
    periodShares := .insertMany ∅ [(0, 15), (1, 3), (2, 2), (5, 2), (10, 25), (20, 25), (50, 3), (100, 20),
      (200, 1), (1000, 4)]
    execTimeProfiles := ∅ }

theorem pos_benchmarkShares : ∀ p ∈ benchmarkShares.periodsMs,
    0 < benchmarkShares.runnablesCfg.periodShares.getD p 0 := by
  decide +kernel

theorem sum_benchmarkShares :
    (benchmarkShares.periodsMs.map fun p => benchmarkShares.runnablesCfg.periodShares.getD p 0).sum = 100 := by
  decide +kernel

theorem exists_madeAt_tenRunnables : ∃ idxs, MadeAt benchmarkShares 10 idxs :=
  exists_madeAt benchmarkShares ⟨pos_benchmarkShares, sum_benchmarkShares.ge⟩ 10 (by decide)

/-! ## Shares -/

/-- The runnables of the `j`-th period, when no period is listed twice. -/
theorem countP_periodMs {idxs : List ℕ} (hrange : ∀ idx ∈ idxs, idx < cfg.periodsMs.length)
    (hnodup : cfg.periodsMs.Nodup) {runnables : List (Runnable ℚ)}
    (hperiods : runnables.map (fun r => some r.periodMs) = idxs.map (cfg.periodsMs[·]?)) {j : ℕ} {p : ℤ}
    (hp : cfg.periodsMs[j]? = some p) : runnables.countP (fun r => r.periodMs = p) = idxs.count j := by
  have hcounts := congrArg (List.count (some p)) hperiods
  simp only [List.count, List.countP_map] at hcounts
  calc runnables.countP (fun r => r.periodMs = p)
      = runnables.countP ((· == some p) ∘ fun r => some r.periodMs) :=
        List.countP_congr fun r _ => by simp
    _ = idxs.countP ((· == some p) ∘ (cfg.periodsMs[·]?)) := hcounts
    _ = idxs.count j := List.countP_congr fun idx hidx => by
        rw [Function.comp_apply, beq_iff_eq, beq_iff_eq, ← hp]
        exact ⟨fun heq => (List.getElem?_inj (hrange idx hidx) hnodup).mp heq, fun heq => heq ▸ rfl⟩

/-- What is left is less than a share by less than one, for a share of one at least. -/
theorem abs_sub_lt_one_iff {x : ℚ} {c n m : ℕ} (hle : x ≤ c) (hlt : (c : ℚ) < x + 1) :
    |((min c (n - m) : ℕ) : ℚ) - x| < 1 ↔ (1 ≤ x → x - 1 < (n : ℚ) - m) := by
  have hmin : ((min c (n - m) : ℕ) : ℚ) ≤ c := Nat.cast_le.mpr (Nat.min_le_left _ _)
  have habove : ((min c (n - m) : ℕ) : ℚ) - x < 1 := by linarith
  rw [abs_lt, and_iff_left habove, neg_lt_sub_iff_lt_add]
  rcases lt_or_ge x 1 with hx | hx
  · have hpos : (0 : ℚ) ≤ ((min c (n - m) : ℕ) : ℚ) := Nat.cast_nonneg _
    exact iff_of_true (by linarith) fun h => absurd hx (not_lt_of_ge h)
  rw [Nat.cast_min, ← sub_lt_iff_lt_add', lt_min_iff, and_iff_right (by linarith : x - 1 < c)]
  rcases le_total m n with hmn | hmn
  · rw [Nat.cast_sub hmn]
    exact ⟨fun h _ => h, fun h => h hx⟩
  · have hneg : (n : ℚ) - m ≤ 0 := sub_nonpos.mpr (Nat.cast_le.mpr hmn)
    rw [Nat.sub_eq_zero_of_le hmn, Nat.cast_zero]
    exact iff_of_false (by linarith) fun h => absurd (h hx) (by linarith)

/-- For each period whose share is one runnable or more, what the periods before it are rounded up by adds up to
less than one more than the shares of the periods behind it. -/
def RoundingsFit (cfg : Config ℚ) (max : ℤ) : Prop :=
  ∀ j < cfg.periodsMs.length, 1 ≤ shareOf cfg max j →
    ∑ i ∈ Finset.range j, ((quota cfg max i : ℚ) - shareOf cfg max i)
      < 1 + ∑ i ∈ Finset.Ico (j + 1) cfg.periodsMs.length, shareOf cfg max i

/-- The number of runnables of each period differs from its share by less than one. -/
def FollowsShares (cfg : Config ℚ) (max : ℤ) (runnables : List (Runnable ℚ)) : Prop :=
  ∀ p ∈ cfg.periodsMs, |(runnables.countP (fun r => r.periodMs = p) : ℚ)
    - cfg.runnablesCfg.periodShares.getD p 0 * max / 100| < 1

/-- **When the runnables follow the shares.** -/
theorem followsShares_iff (cfg : Config ℚ) (max : ℤ) (hmax : 1 ≤ max) (hnodup : cfg.periodsMs.Nodup)
    (hpos : ∀ p ∈ cfg.periodsMs, 0 < cfg.runnablesCfg.periodShares.getD p 0)
    (hsum : (cfg.periodsMs.map fun p => cfg.runnablesCfg.periodShares.getD p 0).sum = 100) :
    ∃ runnables, generateRunnableInstances cfg max = some runnables
      ∧ (FollowsShares cfg max runnables ↔ RoundingsFit cfg max) := by
  obtain ⟨idxs, hmade⟩ := exists_madeAt cfg ⟨hpos, hsum.ge⟩ max (by omega)
  obtain ⟨runnables, hgenerated, -, hperiods⟩ := hmade.runnables_eq
  refine ⟨runnables, hgenerated, ?_⟩
  have hall : (max.toNat : ℚ) = ∑ i ∈ Finset.range cfg.periodsMs.length, shareOf cfg max i := by
    rw [sum_shareOf, hsum, mul_div_cancel_left₀ _ (by norm_num)]
    exact_mod_cast congrArg (Int.cast (R := ℚ)) (Int.toNat_of_nonneg (by omega : 0 ≤ max))
  have hperiod : ∀ j (hj : j < cfg.periodsMs.length),
      |(runnables.countP (fun r => r.periodMs = cfg.periodsMs[j]) : ℚ)
        - cfg.runnablesCfg.periodShares.getD cfg.periodsMs[j] 0 * max / 100| < 1
      ↔ (1 ≤ shareOf cfg max j → ∑ i ∈ Finset.range j, ((quota cfg max i : ℚ) - shareOf cfg max i)
        < 1 + ∑ i ∈ Finset.Ico (j + 1) cfg.periodsMs.length, shareOf cfg max i) := by
    intro j hj
    have hp := List.getElem?_eq_getElem hj
    have hshare : 0 ≤ shareOf cfg max j := by
      rw [shareOf_eq hp]
      have := hpos _ (List.getElem_mem hj)
      have hmax' : (0 : ℚ) ≤ max := Int.cast_nonneg (by omega)
      positivity
    rw [countP_periodMs hmade.in_range hnodup hperiods hp, hmade.count_eq j hj, ← shareOf_eq hp,
      abs_sub_lt_one_iff (shareOf_le_quota cfg max j) (Nat.ceil_lt_add_one hshare), hall]
    refine imp_congr_right fun _ => ?_
    rw [← Finset.sum_range_add_sum_Ico _ hj, Finset.sum_range_succ, Finset.sum_sub_distrib, Nat.cast_sum]
    constructor
    · intro h
      linarith
    · intro h
      linarith
  rw [FollowsShares, List.forall_mem_iff_forall_getElem]
  exact forall₂_congr hperiod

/-- Of a hundred runnables no share is rounded. -/
theorem followsShares_iff_hundredRunnables : ∃ runnables,
    generateRunnableInstances benchmarkShares 100 = some runnables
      ∧ FollowsShares benchmarkShares 100 runnables := by
  obtain ⟨runnables, hgenerated, hiff⟩ :=
    followsShares_iff benchmarkShares 100 (by decide) (by decide) pos_benchmarkShares sum_benchmarkShares
  exact ⟨runnables, hgenerated, hiff.mpr (by unfold RoundingsFit; decide +kernel)⟩

/-- Of ten runnables none has the period of 100 ms, whose share is two. -/
theorem not_followsShares_tenRunnables : ∃ runnables,
    generateRunnableInstances benchmarkShares 10 = some runnables
    ∧ runnables.countP (fun r => r.periodMs = 100) = 0 ∧ ¬FollowsShares benchmarkShares 10 runnables := by
  have hcount : (generateRunnableInstances benchmarkShares 10).map
      (fun runnables => runnables.countP fun r => r.periodMs = 100) = some 0 := by
    decide +kernel
  obtain ⟨runnables, hgenerated, hnone⟩ := Option.map_eq_some_iff.mp hcount
  refine ⟨runnables, hgenerated, hnone, fun hfollows => ?_⟩
  have hperiod := hfollows 100 (by decide)
  rw [hnone] at hperiod
  exact absurd hperiod (by decide +kernel)

end KZH15
