import Inconcretes.Utils.BinPack
import Mathlib.Algebra.Order.Ring.Rat

/-!
# What the heuristics pack

`next_fit` packs the items when they are, in the order of their keys, the concatenation of at most `num_bins`
blocks within the capacity, and otherwise it stops at the first item that leaves no such blocks
(`nextFitLoop_spec`). All heuristics keep to the capacity and say whether they map every item
(`heuristics_sound`). An item that `next_fit` does not come to is neither mapped nor a misfit
(`accounted_iff`).
-/

namespace Utils

open Std (TreeMap TreeSet)
open OrderedMap Packing

section General

variable {W : Type} [AddZeroClass W] [LinearOrder W] {bp : BinPack W}

/-! ## Next fit -/

theorem advance_zero {cap w : W} (hw : cap < w) (left bid : ℕ) :
    (advance cap w left bid 0).1 = bid + left := by
  induction left generalizing bid with
  | zero => rfl
  | succ left ih =>
    rw [advance, if_pos (by rwa [zero_add]), ih]
    omega

/-- The open bin, the next one, or none. -/
theorem advance_cases (cap w : W) (left bid : ℕ) (sum : W) :
    sum + w ≤ cap ∧ advance cap w (left + 1) bid sum = (bid, sum)
      ∨ cap < sum + w ∧ w ≤ cap ∧ (∃ left', left = left' + 1) ∧ advance cap w (left + 1) bid sum = (bid + 1, 0)
      ∨ cap < sum + w ∧ (left = 0 ∨ cap < w) ∧ (advance cap w (left + 1) bid sum).1 = bid + left + 1 := by
  rw [advance]
  rcases le_or_gt (sum + w) cap with hfits | hlt
  · exact Or.inl ⟨hfits, if_neg (not_lt_of_ge hfits)⟩
  · rw [if_pos hlt]
    rcases lt_or_ge cap w with hw | hw
    · refine Or.inr (Or.inr ⟨hlt, Or.inr hw, ?_⟩)
      rw [advance_zero hw]
      omega
    · cases left with
      | zero => exact Or.inr (Or.inr ⟨hlt, Or.inl rfl, rfl⟩)
      | succ left =>
        refine Or.inr (Or.inl ⟨hlt, hw, ⟨left, rfl⟩, ?_⟩)
        rw [advance, if_neg (by rw [zero_add]; exact not_lt_of_ge hw)]

/-- What `next_fit` leaves: all items up to one, which is the first that leaves no blocks, are mapped, and that
one is the misfit. -/
structure NextFitDone (cap : W) (left : ℕ) (sum : W) (done rest : List (ℕ × W))
    (r : TreeMap ℕ ℕ × TreeSet ℕ) (packed behind : List (ℕ × W)) : Prop where
  split : rest = packed ++ behind
  mem_iff : ∀ k, k ∈ r.1 ↔ k ∈ (done ++ packed).map Prod.fst
  runs : Runs cap left sum (packed.map Prod.snd)
  stops : behind = [] ∧ r.2 = ∅ ∨ ∃ i behind', behind = i :: behind' ∧ r.2 = (∅ : TreeSet ℕ).insert i.1
    ∧ ¬Runs cap left sum ((packed ++ [i]).map Prod.snd)

/-- An item in front that goes into a bin. -/
theorem NextFitDone.cons {cap : W} {left left' : ℕ} {sum sum' : W} {done rest packed behind : List (ℕ × W)}
    {i : ℕ × W} {r : TreeMap ℕ ℕ × TreeSet ℕ}
    (h : NextFitDone cap left' sum' (done ++ [i]) rest r packed behind)
    (hruns : ∀ ws, Runs cap left sum (i.2 :: ws) ↔ Runs cap left' sum' ws) :
    NextFitDone cap left sum done (i :: rest) r (i :: packed) behind where
  split := congrArg (i :: ·) h.split
  mem_iff k := by
    rw [h.mem_iff, List.append_assoc]
    rfl
  runs := (hruns _).mpr h.runs
  stops := h.stops.imp id fun ⟨j, behind', hbehind, hmisfit, hnot⟩ =>
    ⟨j, behind', hbehind, hmisfit, fun hall => hnot ((hruns _).mp hall)⟩

variable [AddRightMono W]

/-- The loop of `next_fit`. -/
theorem nextFitLoop_spec {numBins : ℕ} {cap : W} {rest done : List (ℕ × W)} (hnonneg : ∀ i ∈ rest, 0 ≤ i.2)
    {left bid : ℕ} {sum : W} {mapping : TreeMap ℕ ℕ} (hleft : bid + left + 1 = numBins)
    (hmem : ∀ k, k ∈ mapping ↔ k ∈ done.map Prod.fst) : ∃ packed behind, NextFitDone cap left sum done rest
      (nextFitLoop numBins cap rest bid sum mapping) packed behind := by
  induction rest generalizing done left bid sum mapping with
  | nil =>
    refine ⟨[], [], rfl, fun k => ?_, .nil _ _, Or.inl ⟨rfl, rfl⟩⟩
    rw [List.append_nil]
    exact hmem k
  | cons i rest ih =>
    obtain ⟨hi, hnonneg⟩ := List.forall_mem_cons.mp hnonneg
    have hbins : numBins - bid = left + 1 := by omega
    have hput : ∀ (b k : ℕ), k ∈ mapping.insert i.1 b ↔ k ∈ (done ++ [i]).map Prod.fst := fun b k => by
      rw [mem_map_insert, hmem, List.map_append, List.mem_append, List.map_singleton, List.mem_singleton,
        or_comm, eq_comm]
    rw [nextFitLoop, hbins]
    rcases advance_cases cap i.2 left bid sum with
      ⟨hfits, heq⟩ | ⟨hlt, hw, ⟨left', rfl⟩, heq⟩ | ⟨hlt, hfull, heq⟩
    · -- the open bin
      have hbid : bid ≠ numBins := by omega
      simp only [heq, if_neg hbid]
      obtain ⟨packed, behind, hdone⟩ := ih hnonneg hleft (hput bid)
      exact ⟨i :: packed, behind, hdone.cons fun ws => Runs.cons_iff_of_le hi hfits⟩
    · -- the next bin
      have hleft' : bid + 1 + left' + 1 = numBins := by omega
      have hbid : bid + 1 ≠ numBins := by omega
      simp only [heq, if_neg hbid, zero_add]
      obtain ⟨packed, behind, hdone⟩ := @ih _ hnonneg _ _ i.2 _ hleft' (hput (bid + 1))
      exact ⟨i :: packed, behind, hdone.cons fun ws => Runs.cons_iff_of_lt hlt hw⟩
    · -- no bin
      have hbid : (advance cap i.2 (left + 1) bid sum).1 = numBins := heq.trans hleft
      simp only [hbid, if_true]
      refine ⟨[], i :: rest, rfl, fun k => ?_, .nil _ _, Or.inr ⟨i, rest, rfl, rfl, fun hruns => ?_⟩⟩
      · rw [List.append_nil]
        exact hmem k
      · obtain ⟨left', rfl, hw, -⟩ := Runs.leave hruns hlt
        exact hfull.elim (Nat.succ_ne_zero left') (not_lt_of_ge hw)

namespace BinPack

/-- The weights, in the order of the keys. -/
def weights (bp : BinPack W) : List W := bp.items.toList.map Prod.snd

omit [AddRightMono W] in
theorem Nonneg.weights (h : bp.Nonneg) : ∀ w ∈ bp.weights, 0 ≤ w := by
  intro w hw
  obtain ⟨i, hi, rfl⟩ := List.mem_map.mp hw
  exact h.of_mem hi

theorem nextFit_spec (hnonneg : bp.Nonneg) (hbins : 0 < bp.numBins) : ∃ packed behind,
    NextFitDone bp.maxBinCapacity (bp.numBins - 1) 0 [] bp.items.toList
      (bp.nextFit.2.mapping, bp.nextFit.2.misfits) packed behind :=
  nextFitLoop_spec (fun _ hi => hnonneg.of_mem hi) (by omega) fun k => by simp

omit [AddRightMono W] in
theorem nextFit_fst (bp : BinPack W) : bp.nextFit.1 = bp.nextFit.2.misfits.isEmpty := rfl

/-- `next_fit` packs what is the concatenation of blocks. -/
theorem nextFit_iff_runs (hnonneg : bp.Nonneg) (hbins : 0 < bp.numBins) :
    bp.nextFit.1 = true ↔ Runs bp.maxBinCapacity (bp.numBins - 1) 0 bp.weights := by
  obtain ⟨packed, behind, hdone⟩ := nextFit_spec hnonneg hbins
  have hruns := hdone.runs
  rw [nextFit_fst, weights, hdone.split]
  rcases hdone.stops with ⟨rfl, hempty⟩ | ⟨i, behind, rfl, hmisfit, hnot⟩
  · replace hempty : bp.nextFit.2.misfits = ∅ := hempty
    rw [hempty, List.append_nil]
    exact iff_of_true TreeSet.isEmpty_emptyc hruns
  · replace hmisfit : bp.nextFit.2.misfits = (∅ : TreeSet ℕ).insert i.1 := hmisfit
    rw [hmisfit, TreeSet.isEmpty_insert]
    refine iff_of_false Bool.false_ne_true fun hall => hnot ?_
    rw [List.append_cons, List.map_append] at hall
    exact hall.of_append

/-! ## Misfits -/

omit [AddZeroClass W] [LinearOrder W] [AddRightMono W] in
/-- Without misfits every item is mapped. -/
theorem Accounted.isEmpty_iff (h : bp.Accounted) (hmisfits : ∀ k ∈ bp.misfits, k ∈ bp.items) :
    bp.misfits.isEmpty = true ↔ bp.Complete := by
  constructor
  · intro hempty k hk
    exact (h k hk).mpr (TreeSet.not_mem_of_isEmpty hempty)
  · intro hall
    by_contra hne
    obtain ⟨k, hk⟩ := TreeSet.isEmpty_eq_false_iff_exists_mem.mp (Bool.not_eq_true _ ▸ hne)
    exact (h k (hmisfits k hk)).mp (hall k (hmisfits k hk)) hk

omit [AddRightMono W] in
theorem fit_accounted (arrange : ℕ → List (Bin W) → List (Bin W)) (bp : BinPack W) :
    (bp.fit arrange).2.Accounted ∧ ∀ k ∈ (bp.fit arrange).2.misfits, k ∈ bp.items := by
  have hcount := Filling.counted_foldl arrange bp ((List.range bp.numBins).map fun i => (i, 0))
  constructor
  · intro k hk
    have hmem : k ∈ bp.items.toList.map Prod.fst := bp.mem_items.mp hk
    have hiff := hcount.mem_misfits k
    rw [and_iff_right hmem] at hiff
    exact not_not.symm.trans (not_congr hiff).symm
  · intro k hk
    exact bp.mem_items.mpr ((hcount.mem_misfits k).mp hk).1

theorem mem_misfits_nextFit (hnonneg : bp.Nonneg) (hbins : 0 < bp.numBins) :
    (∀ k ∈ bp.nextFit.2.misfits, k ∈ bp.items ∧ k ∉ bp.nextFit.2.mapping)
      ∧ (bp.nextFit.2.misfits.isEmpty = true → ∀ k ∈ bp.items, k ∈ bp.nextFit.2.mapping) := by
  obtain ⟨packed, behind, hdone⟩ := nextFit_spec hnonneg hbins
  have hmem : ∀ k, k ∈ bp.nextFit.2.mapping ↔ k ∈ packed.map Prod.fst := hdone.mem_iff
  rcases hdone.stops with ⟨rfl, hempty⟩ | ⟨i, behind, rfl, hmisfit, -⟩
  · replace hempty : bp.nextFit.2.misfits = ∅ := hempty
    rw [hempty]
    refine ⟨fun k hk => absurd hk TreeSet.not_mem_emptyc, fun _ k hk => (hmem k).mpr ?_⟩
    rwa [mem_items, hdone.split, List.append_nil] at hk
  · replace hmisfit : bp.nextFit.2.misfits = (∅ : TreeSet ℕ).insert i.1 := hmisfit
    rw [hmisfit, TreeSet.isEmpty_insert]
    refine ⟨fun k hk => ?_, fun h => absurd h Bool.false_ne_true⟩
    obtain rfl : i.1 = k := (mem_set_insert.mp hk).resolve_right TreeSet.not_mem_emptyc
    refine ⟨bp.mem_items.mpr (by simp [hdone.split]), fun hmapped => ?_⟩
    have hfresh : i.1 ∉ packed.map Prod.fst := notMem_done hdone.split
    exact hfresh ((hmem i.1).mp hmapped)

omit [AddRightMono W] in
/-- `any_fit` is the first of the heuristics that packs, and the last one when none does. -/
theorem anyFit_cases (bp : BinPack W) (bestOrder : ℕ → StdSort (W := W) cmpOpp)
    (worstOrder : ℕ → StdSort (W := W) cmp) :
    ((bp.anyFit bestOrder worstOrder).1
        = (bp.nextFit.1 || bp.firstFit.1 || (bp.bestFit bestOrder).1 || (bp.worstFit worstOrder).1))
      ∧ ∃ r ∈ [bp.nextFit, bp.firstFit, bp.bestFit bestOrder, bp.worstFit worstOrder],
        bp.anyFit bestOrder worstOrder = r := by
  have hunfold : bp.anyFit bestOrder worstOrder
      = if bp.nextFit.1 then (true, bp.nextFit.2) else if bp.firstFit.1 then (true, bp.firstFit.2)
        else if (bp.bestFit bestOrder).1 then (true, (bp.bestFit bestOrder).2)
        else if (bp.worstFit worstOrder).1 then (true, (bp.worstFit worstOrder).2)
        else (false, (bp.worstFit worstOrder).2) := rfl
  have hpair : ∀ {r : Bool × BinPack W} {b : Bool}, r.1 = b → (b, r.2) = r := fun h => h ▸ rfl
  rw [hunfold]
  cases hnext : bp.nextFit.1 with
  | true => exact ⟨rfl, _, List.mem_cons_self, hpair hnext⟩
  | false =>
    cases hfirst : bp.firstFit.1 with
    | true => exact ⟨rfl, _, by simp, hpair hfirst⟩
    | false =>
      cases hbest : (bp.bestFit bestOrder).1 with
      | true => exact ⟨rfl, bp.bestFit bestOrder, by simp, hpair hbest⟩
      | false =>
        cases hworst : (bp.worstFit worstOrder).1 with
        | true => exact ⟨rfl, bp.worstFit worstOrder, by simp, hpair hworst⟩
        | false => exact ⟨rfl, bp.worstFit worstOrder, by simp, hpair hworst⟩

/-! ## What is lost -/

theorem nextFit_accounted_iff (hnonneg : bp.Nonneg) (hbins : 0 < bp.numBins) :
    bp.nextFit.2.Accounted ↔ Runs bp.maxBinCapacity (bp.numBins - 1) 0 bp.weights.dropLast := by
  obtain ⟨packed, behind, hdone⟩ := nextFit_spec hnonneg hbins
  have hmem : ∀ k, k ∈ bp.nextFit.2.mapping ↔ k ∈ packed.map Prod.fst := hdone.mem_iff
  have hitems : ∀ k, k ∈ bp.nextFit.2.items ↔ k ∈ (packed ++ behind).map Prod.fst := fun k =>
    hdone.split ▸ bp.mem_items
  rw [Accounted, weights, hdone.split]
  rcases hdone.stops with ⟨rfl, hempty⟩ | ⟨i, behind, rfl, hmisfit, hnot⟩
  · replace hempty : bp.nextFit.2.misfits = ∅ := hempty
    refine iff_of_true (fun k hk => ?_) ?_
    · rw [hempty, hmem]
      exact iff_of_true (by simpa using (hitems k).mp hk) TreeSet.not_mem_emptyc
    · rw [List.append_nil]
      have hruns := hdone.runs
      rcases List.eq_nil_or_concat (packed.map Prod.snd) with hnil | ⟨ws, w, hlast⟩
      · rw [hnil]
        exact .nil _ _
      · rw [hlast, List.concat_eq_append] at hruns ⊢
        rw [List.dropLast_concat]
        exact hruns.of_append
  · replace hmisfit : bp.nextFit.2.misfits = (∅ : TreeSet ℕ).insert i.1 := hmisfit
    have hmisfits : ∀ k, k ∈ bp.nextFit.2.misfits ↔ i.1 = k := fun k => by
      rw [hmisfit, mem_set_insert, or_iff_left TreeSet.not_mem_emptyc]
    have hnodup := bp.nodup_items
    rw [hdone.split, List.map_append, List.map_cons, List.nodup_append, List.nodup_cons] at hnodup
    cases behind with
    | nil =>
      -- the misfit is the last item
      refine iff_of_true (fun k hk => ?_) ?_
      · rw [hmisfits, hmem]
        have hsplit : k ∈ packed.map Prod.fst ∨ k = i.1 := by simpa using (hitems k).mp hk
        refine ⟨fun hk heq => hnodup.2.2 k hk i.1 List.mem_cons_self heq.symm, fun hne => ?_⟩
        exact hsplit.resolve_right (Ne.symm hne)
      · rw [List.map_append, List.map_singleton, List.dropLast_concat]
        exact hdone.runs
    | cons j behind =>
      -- the item behind the misfit is lost
      refine iff_of_false (fun hall => ?_) fun hruns => hnot ?_
      · have hj : j.1 ∈ bp.nextFit.2.items := (hitems j.1).mpr (by simp)
        have hne : i.1 ≠ j.1 := fun heq => hnodup.2.1.1 (heq ▸ List.mem_cons_self)
        have hmapped := (hall j.1 hj).mpr fun h => hne ((hmisfits j.1).mp h)
        exact hnodup.2.2 j.1 ((hmem j.1).mp hmapped) j.1 (List.mem_cons_of_mem _ List.mem_cons_self) rfl
      · rw [List.append_cons, List.map_append, List.dropLast_append_of_ne_nil (by simp)] at hruns
        exact hruns.of_append

variable [AddLeftMono W]

/-- **When no item disappears.** The heuristics that look at all bins account for every item, and `next_fit`
does when all items but the last one are the concatenation of blocks, at most one for each bin, whose sums from
left to right are within the capacity. -/
theorem accounted_iff (bp : BinPack W) (hnonneg : bp.Nonneg) (hbins : 1 ≤ bp.numBins)
    (bestOrder : ℕ → StdSort (W := W) cmpOpp) (worstOrder : ℕ → StdSort (W := W) cmp) :
    (bp.nextFit.2.Accounted ∧ bp.firstFit.2.Accounted ∧ (bp.bestFit bestOrder).2.Accounted
        ∧ (bp.worstFit worstOrder).2.Accounted)
      ↔ ∃ blocks : List (List W), blocks.flatten = bp.weights.dropLast ∧ blocks.length ≤ bp.numBins
        ∧ ∀ b ∈ blocks, b.foldl (· + ·) 0 ≤ bp.maxBinCapacity := by
  have hothers : bp.firstFit.2.Accounted ∧ (bp.bestFit bestOrder).2.Accounted
      ∧ (bp.worstFit worstOrder).2.Accounted :=
    ⟨(fit_accounted (fun _ bins => bins) bp).1, (fit_accounted (fun k => (bestOrder k).sort) bp).1,
      (fit_accounted (fun k => (worstOrder k).sort) bp).1⟩
  have hdrop : ∀ w ∈ bp.weights.dropLast, 0 ≤ w := fun w hw =>
    hnonneg.weights w ((List.dropLast_sublist _).subset hw)
  rw [and_iff_left hothers, nextFit_accounted_iff hnonneg hbins, runs_iff_blocks hdrop,
    Nat.sub_add_cancel hbins]

/-- The items of the tests. -/
abbrev sevenItems : BinPack ℚ where
  items := TreeMap.ofList ([(0, 23 / 100), (1, 39 / 100), (2, 41 / 100), (3, 83 / 100), (4, 3 / 100),
    (5, 1 / 100), (6, 30 / 100)] : List (ℕ × ℚ))
  numBins := 4
  maxBinCapacity := 1

theorem nonneg_sevenItems : sevenItems.Nonneg := nonneg_of_forall (by decide +kernel)

theorem accounted_sevenItems : sevenItems.nextFit.2.Accounted :=
  ((accounted_iff sevenItems nonneg_sevenItems (by decide) (fun _ => .stableOpp) fun _ => .stable).mpr
    ⟨[[23 / 100, 39 / 100], [41 / 100], [83 / 100, 3 / 100, 1 / 100]], by decide +kernel⟩).1

/-- An item that does not fit into the only bin, and one that would. -/
abbrev threeItems : BinPack ℚ where
  items := TreeMap.ofList ([(0, 3 / 4), (1, 3 / 4), (2, 1 / 4)] : List (ℕ × ℚ))
  numBins := 1
  maxBinCapacity := 1

theorem not_accounted_thirdOfThree : threeItems.Nonneg ∧ 1 ≤ threeItems.numBins
    ∧ 2 ∈ threeItems.items ∧ 2 ∉ threeItems.nextFit.2.mapping ∧ 2 ∉ threeItems.nextFit.2.misfits
    ∧ ¬threeItems.nextFit.2.Accounted := by
  have hlost : 2 ∉ threeItems.nextFit.2.mapping ∧ 2 ∉ threeItems.nextFit.2.misfits := by decide +kernel
  have hitem : 2 ∈ threeItems.items := by decide +kernel
  exact ⟨nonneg_of_forall (by decide +kernel), le_rfl, hitem, hlost.1, hlost.2,
    fun hall => hlost.1 ((hall 2 hitem).mpr hlost.2)⟩

end BinPack

end General

/-! ## What is packed -/

section Exact

variable {W : Type} [AddCommMonoid W] [LinearOrder W] {bp : BinPack W}

/-- The invariant of the loop of `next_fit` over the items, after the items `done`: `bid` is the last bin with
an item in it, and `sum` is its load. -/
structure NextFitKept (bp : BinPack W) (done : List (ℕ × W)) (left bid : ℕ) (sum : W)
    (mapping : TreeMap ℕ ℕ) : Prop where
  fits : BinPack.Fits { bp with mapping }
  left_eq : bid + left + 1 = bp.numBins
  sum_eq : sum = load mapping bp.items.toList bid
  le_bid : ∀ (k b : ℕ), mapping[k]? = some b → b ≤ bid
  mem_iff : ∀ k, k ∈ mapping ↔ k ∈ done.map Prod.fst

namespace NextFitKept

variable {done rest : List (ℕ × W)} {i : ℕ × W} {left bid : ℕ} {sum : W} {mapping : TreeMap ℕ ℕ}

theorem start (hbins : 0 < bp.numBins) : NextFitKept bp [] (bp.numBins - 1) 0 0 ∅ where
  fits := bp.fits_empty
  left_eq := by omega
  sum_eq := (load_eq_zero _ (by simp)).symm
  le_bid k b h := by simp at h
  mem_iff k := by simp

/-- The next bin is empty. -/
theorem next {left' : ℕ} (h : NextFitKept bp done left bid sum mapping) (hleft : left = left' + 1) :
    NextFitKept bp done left' (bid + 1) 0 mapping where
  fits := h.fits
  left_eq := by have := h.left_eq; omega
  sum_eq := (load_eq_zero _ fun k hk => absurd (h.le_bid k _ hk) (by omega)).symm
  le_bid k b hk := (h.le_bid k b hk).trans (Nat.le_succ bid)
  mem_iff := h.mem_iff

/-- One item more, in the open bin. -/
theorem put (h : NextFitKept bp done left bid sum mapping) (hsplit : bp.items.toList = done ++ i :: rest)
    (hfits : sum + i.2 ≤ bp.maxBinCapacity) :
    NextFitKept bp (done ++ [i]) left bid (sum + i.2) (mapping.insert i.1 bid) := by
  have hi : i ∈ bp.items.toList := by simp [hsplit]
  have hfresh : i.1 ∉ mapping := fun hmem => notMem_done hsplit ((h.mem_iff i.1).mp hmem)
  have hbid : bid < bp.numBins := by have := h.left_eq; omega
  refine ⟨h.fits.put hi hfresh hbid (h.sum_eq ▸ hfits), h.left_eq, ?_, fun k b hk => ?_, fun k => ?_⟩
  · rw [load_insert bp.nodup_items hi hfresh, if_pos rfl, ← h.sum_eq]
  · rw [getElem?_insert] at hk
    split_ifs at hk
    · exact (Option.some.inj hk).ge
    · exact h.le_bid k b hk
  · rw [mem_map_insert, h.mem_iff, List.map_append, List.mem_append, List.map_singleton, List.mem_singleton,
      or_comm, eq_comm]

end NextFitKept

/-- What `next_fit` maps. -/
theorem nextFitLoop_fits {rest done : List (ℕ × W)} {left bid : ℕ} {sum : W} {mapping : TreeMap ℕ ℕ}
    (hsplit : bp.items.toList = done ++ rest) (h : NextFitKept bp done left bid sum mapping) :
    BinPack.Fits { bp with
      mapping := (nextFitLoop bp.numBins bp.maxBinCapacity rest bid sum mapping).1 } := by
  induction rest generalizing done left bid sum mapping with
  | nil => exact h.fits
  | cons i rest ih =>
    have hleft : bp.numBins - bid = left + 1 := by have := h.left_eq; omega
    have hsplit' : bp.items.toList = (done ++ [i]) ++ rest := by rw [hsplit, List.append_assoc]; rfl
    rw [nextFitLoop, hleft]
    rcases advance_cases bp.maxBinCapacity i.2 left bid sum with
      ⟨hfits, heq⟩ | ⟨-, hw, ⟨left', rfl⟩, heq⟩ | ⟨-, -, heq⟩
    · have hbid : bid ≠ bp.numBins := by omega
      simp only [heq, if_neg hbid]
      exact ih hsplit' (h.put hsplit hfits)
    · have hbid : bid + 1 ≠ bp.numBins := by have := h.left_eq; omega
      simp only [heq, if_neg hbid]
      exact ih hsplit' ((h.next rfl).put hsplit (by rwa [zero_add]))
    · have hbid : (advance bp.maxBinCapacity i.2 (left + 1) bid sum).1 = bp.numBins := heq.trans h.left_eq
      simp only [hbid, if_true]
      exact h.fits

namespace BinPack

theorem packs_fit {arrange : ℕ → List (Bin W) → List (Bin W)}
    (harrange : ∀ k bins, (arrange k bins).Perm bins) (hcap : 0 ≤ bp.maxBinCapacity) :
    bp.Packs (bp.fit arrange) where
  items_eq := rfl
  numBins_eq := rfl
  capacity_eq := rfl
  sound := by
    have hsound := (Filling.kept_foldl harrange bp).fits.sound hcap
    exact ⟨hsound.bin_lt, hsound.load_le⟩
  fits_iff := (fit_accounted arrange bp).1.isEmpty_iff (fit_accounted arrange bp).2

variable [IsOrderedAddMonoid W]

theorem packs_nextFit (hnonneg : bp.Nonneg) (hbins : 0 < bp.numBins) (hcap : 0 ≤ bp.maxBinCapacity) :
    bp.Packs bp.nextFit where
  items_eq := rfl
  numBins_eq := rfl
  capacity_eq := rfl
  sound := by
    have hfits := nextFitLoop_fits (W := W) rfl (NextFitKept.start hbins)
    have hsound := Fits.sound hfits hcap
    exact ⟨hsound.bin_lt, hsound.load_le⟩
  fits_iff := by
    obtain ⟨hmisfits, hempty⟩ := mem_misfits_nextFit hnonneg hbins
    refine ⟨hempty, fun hall => ?_⟩
    rw [nextFit_fst, TreeSet.isEmpty_iff_forall_not_mem]
    exact fun k hk => (hmisfits k hk).2 (hall k (hmisfits k hk).1)

/-- **The heuristics are sound.** Whatever they map is in the bins that there are and within the capacity, they
return `true` exactly when they map every item, and `any_fit` does when one of the four does. -/
theorem heuristics_sound (bp : BinPack W) (hnonneg : bp.Nonneg) (hbins : 1 ≤ bp.numBins)
    (hcap : 0 ≤ bp.maxBinCapacity) (bestOrder : ℕ → StdSort (W := W) cmpOpp)
    (worstOrder : ℕ → StdSort (W := W) cmp) :
    bp.Packs bp.nextFit ∧ bp.Packs bp.firstFit ∧ bp.Packs (bp.bestFit bestOrder)
      ∧ bp.Packs (bp.worstFit worstOrder) ∧ bp.Packs (bp.anyFit bestOrder worstOrder)
      ∧ ((bp.anyFit bestOrder worstOrder).1 = true ↔ bp.nextFit.1 = true ∨ bp.firstFit.1 = true
        ∨ (bp.bestFit bestOrder).1 = true ∨ (bp.worstFit worstOrder).1 = true) := by
  have hnext := packs_nextFit hnonneg hbins hcap
  have hfirst : bp.Packs bp.firstFit := packs_fit (fun _ bins => List.Perm.refl bins) hcap
  have hbest : bp.Packs (bp.bestFit bestOrder) := packs_fit (fun k => (bestOrder k).perm) hcap
  have hworst : bp.Packs (bp.worstFit worstOrder) := packs_fit (fun k => (worstOrder k).perm) hcap
  obtain ⟨hverdict, r, hr, hany⟩ := bp.anyFit_cases bestOrder worstOrder
  refine ⟨hnext, hfirst, hbest, hworst, ?_, ?_⟩
  · rw [hany]
    simp only [List.mem_cons, List.not_mem_nil, or_false] at hr
    rcases hr with rfl | rfl | rfl | rfl
    · exact hnext
    · exact hfirst
    · exact hbest
    · exact hworst
  · rw [hverdict]
    simp only [Bool.or_eq_true, or_assoc]

theorem heuristics_sound_sevenItems : sevenItems.Packs sevenItems.nextFit
    ∧ sevenItems.Packs (sevenItems.anyFit (fun _ => .stableOpp) fun _ => .stable) := by
  have h := heuristics_sound sevenItems nonneg_sevenItems (by decide) (by decide +kernel)
    (fun _ => .stableOpp) fun _ => .stable
  exact ⟨h.1, h.2.2.2.2.1⟩

end BinPack

end Exact

end Utils
