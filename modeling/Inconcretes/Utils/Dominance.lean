import Inconcretes.Utils.Heuristics

/-!
# First fit and best fit against next fit

`first_fit` looks at the bins in the order of their numbers and fills them in this order, and `best_fit`
looks at the fuller ones first. So both come to the empty bins last (`OpenFirst`), and take one only for an
item that fits no other: they pack whatever `next_fit` packs (`nextFit_dominated`). `worst_fit` begins with the
empty bins.
-/

namespace Utils

open Std (TreeMap TreeSet)
open Packing

variable {W : Type} [AddCommMonoid W] [LinearOrder W]

/-- What is in the bins. -/
def loads (bins : List (Bin W)) : Multiset W := (bins.map Prod.snd : List W)

/-- An empty bin stands behind those with something in them. -/
def OpenFirst (bins : List (Bin W)) : Prop := bins.Pairwise fun a b => 0 < b.2 → 0 < a.2

omit [AddCommMonoid W] [LinearOrder W] in
theorem loads_perm {bins bins' : List (Bin W)} (h : bins.Perm bins') : loads bins = loads bins' :=
  Multiset.coe_eq_coe.mpr (h.map Prod.snd)

omit [AddCommMonoid W] [LinearOrder W] in
theorem loads_append_cons (front : List (Bin W)) (b : Bin W) (back : List (Bin W)) :
    loads (front ++ b :: back) = b.2 ::ₘ loads (front ++ back) := loads_perm List.perm_middle

omit [AddCommMonoid W] [LinearOrder W] in
theorem mem_loads {bins : List (Bin W)} {w : W} : w ∈ loads bins ↔ ∃ b ∈ bins, b.2 = w := by
  rw [loads, Multiset.mem_coe, List.mem_map]

variable {cap w : W} {front back : List (Bin W)} {b : Bin W}

/-- The first bin that an item fits is empty only when it fits no other. -/
theorem OpenFirst.anyFit (h : OpenFirst (front ++ b :: back)) (hfront : ∀ c ∈ front, cap < c.2 + w)
    (hfits : b.2 + w ≤ cap) :
    AnyFit cap (loads (front ++ b :: back)) w (loads (front ++ (b.1, b.2 + w) :: back)) := by
  refine ⟨b.2, loads (front ++ back), loads_append_cons .., hfits, loads_append_cons ..,
    fun hzero x hx hpos => ?_⟩
  obtain ⟨c, hc, rfl⟩ := mem_loads.mp hx
  rcases List.mem_append.mp hc with hc | hc
  · exact hfront c hc
  rcases List.mem_cons.mp hc with rfl | hc
  · exact absurd hzero hpos.ne'
  · have hopen := List.rel_of_pairwise_cons (List.pairwise_append.mp h).2.1 hc
    exact absurd hzero (hopen hpos).ne'

variable [IsOrderedAddMonoid W]

/-- The first bin that an item fits may grow where it stands. -/
theorem OpenFirst.grow (h : OpenFirst (front ++ b :: back)) (hnonneg : ∀ c ∈ front ++ b :: back, 0 ≤ c.2)
    (hfront : ∀ c ∈ front, cap < c.2 + w) (hfits : b.2 + w ≤ cap) (hw : 0 ≤ w) :
    OpenFirst (front ++ (b.1, b.2 + w) :: back) := by
  obtain ⟨hf, hb, hcross⟩ := List.pairwise_append.mp h
  obtain ⟨hback, hrest⟩ := List.pairwise_cons.mp hb
  refine List.pairwise_append.mpr ⟨hf, List.pairwise_cons.mpr ⟨fun c hc hpos => ?_, hrest⟩, ?_⟩
  · exact (hback c hc hpos).trans_le (le_add_of_nonneg_right hw)
  · intro c hc d hd hpos
    rcases List.mem_cons.mp hd with rfl | hd
    · -- an empty bin before this one would have been taken
      refine (hnonneg c (List.mem_append_left _ hc)).lt_of_ne fun hzero => ?_
      have hfull := hfront c hc
      rw [← hzero, zero_add] at hfull
      have hb0 : 0 ≤ b.2 := hnonneg b (by simp)
      exact absurd ((le_add_of_nonneg_left hb0).trans hfits) (not_le_of_gt hfull)
    · exact hcross c hc d (List.mem_cons_of_mem _ hd) hpos

/-- The invariant of a heuristic that comes to the empty bins last, against a way to put the items that are
left in order. -/
structure Dominates (cap : W) (s : Filling W) (left : ℕ) (sum : W) (ws : List W) : Prop where
  nonneg : ∀ b ∈ s.bins, 0 ≤ b.2
  behind : Behind (loads s.bins) left sum
  sum_nonneg : 0 ≤ sum
  runs : Runs cap left sum ws

/-- One item more, which finds a bin. -/
theorem Dominates.fitItem {arrange : ℕ → List (Bin W) → List (Bin W)} {s : Filling W} {left : ℕ} {sum : W}
    {ws : List W} {i : ℕ × W} (hi : 0 ≤ i.2) (h : Dominates cap s left sum (i.2 :: ws))
    (hperm : (arrange i.1 s.bins).Perm s.bins) (hopen : OpenFirst (arrange i.1 s.bins)) :
    (s.fitItem arrange cap i).misfits = s.misfits
      ∧ (∃ left' sum', Dominates cap (s.fitItem arrange cap i) left' sum' ws)
      ∧ ∃ front b back, arrange i.1 s.bins = front ++ b :: back ∧ (∀ c ∈ front, cap < c.2 + i.2)
        ∧ b.2 + i.2 ≤ cap ∧ (s.fitItem arrange cap i).bins = front ++ (b.1, b.2 + i.2) :: back := by
  have hnonneg : ∀ b ∈ arrange i.1 s.bins, 0 ≤ b.2 := fun b hb => h.nonneg b (hperm.mem_iff.mp hb)
  have hloads : ∀ c ∈ loads s.bins, 0 ≤ c := fun c hc => by
    obtain ⟨b, hb, rfl⟩ := mem_loads.mp hc
    exact h.nonneg b hb
  rw [Filling.fitItem]
  rcases place_cases cap i (arrange i.1 s.bins) s.mapping with
    ⟨hnone, -⟩ | ⟨front, b, back, hbins, hfront, hfits, heq⟩
  · -- some bin has room
    obtain ⟨c, hc, hfits⟩ := h.behind.exists_fits h.sum_nonneg h.runs
    obtain ⟨b, hb, rfl⟩ := mem_loads.mp hc
    exact absurd hfits (not_le_of_gt (hnone b (hperm.mem_iff.mpr hb)))
  · have hmem : i.1 ∈ s.mapping.insert i.1 b.1 := TreeMap.mem_insert_self
    rw [hbins] at hnonneg hopen hperm
    have hany := hopen.anyFit hfront hfits
    rw [loads_perm hperm] at hany
    obtain ⟨left', sum', hbehind, hsum, hruns⟩ := h.behind.step hloads hi hany h.runs h.sum_nonneg
    rw [heq]
    refine ⟨if_pos hmem, ⟨left', sum', fun c hc => ?_, hbehind, hsum, hruns⟩, front, b, back, hbins, hfront,
      hfits, rfl⟩
    rcases List.mem_append.mp hc with hc | hc
    · exact hnonneg c (List.mem_append_left _ hc)
    rcases List.mem_cons.mp hc with rfl | hc
    · exact add_nonneg (hnonneg b (by simp)) hi
    · exact hnonneg c (List.mem_append_right _ (List.mem_cons_of_mem _ hc))

/-- All items: none is a misfit. `P` is what the loop keeps about the order of the bins. -/
theorem misfits_foldl {arrange : ℕ → List (Bin W) → List (Bin W)}
    (hperm : ∀ k bins, (arrange k bins).Perm bins) {P : List (Bin W) → Prop}
    (hopen : ∀ k bins, P bins → OpenFirst (arrange k bins))
    (hkeep : ∀ front b back (w : W), OpenFirst (front ++ b :: back) → (∀ c ∈ front ++ b :: back, 0 ≤ c.2) →
      (∀ c ∈ front, cap < c.2 + w) → b.2 + w ≤ cap → 0 ≤ w → P (front ++ (b.1, b.2 + w) :: back))
    {items : List (ℕ × W)} (hitems : ∀ i ∈ items, 0 ≤ i.2) {s : Filling W} {left : ℕ} {sum : W}
    (hP : P s.bins) (h : Dominates cap s left sum (items.map Prod.snd)) :
    (items.foldl (Filling.fitItem arrange cap) s).misfits = s.misfits := by
  induction items generalizing s left sum with
  | nil => rfl
  | cons i items ih =>
    obtain ⟨hi, hitems⟩ := List.forall_mem_cons.mp hitems
    obtain ⟨hmisfits, ⟨left', sum', hnext⟩, front, b, back, hbins, hfront, hfits, heq⟩ :=
      h.fitItem hi (hperm i.1 s.bins) (hopen i.1 s.bins hP)
    have hnonneg : ∀ c ∈ front ++ b :: back, 0 ≤ c.2 := fun c hc =>
      h.nonneg c ((hperm i.1 s.bins).mem_iff.mp (hbins ▸ hc))
    have hP' : P (s.fitItem arrange cap i).bins :=
      heq ▸ hkeep front b back i.2 (hbins ▸ hopen i.1 s.bins hP) hnonneg hfront hfits hi
    exact (ih hitems hP' hnext).trans hmisfits

namespace BinPack

variable {bp : BinPack W}

omit [IsOrderedAddMonoid W] in
/-- The bins are empty at first. -/
theorem dominates_start (hbins : 0 < bp.numBins)
    (hruns : Runs bp.maxBinCapacity (bp.numBins - 1) 0 bp.weights) :
    Dominates bp.maxBinCapacity { bins := (List.range bp.numBins).map fun i => (i, (0 : W)) }
      (bp.numBins - 1) 0 bp.weights where
  nonneg b hb := by
    obtain ⟨i, -, rfl⟩ := List.mem_map.mp hb
    exact le_rfl
  behind := by
    have hzero :
        loads ((List.range bp.numBins).map fun i => (i, (0 : W))) = Multiset.replicate bp.numBins 0 := by
      rw [loads, List.map_map]
      show ((List.range bp.numBins).map fun _ => (0 : W) : Multiset W) = _
      rw [List.map_const', List.length_range, Multiset.coe_replicate]
    refine Or.inl ?_
    rw [hzero, Multiset.count_replicate_self]
    omega
  sum_nonneg := le_rfl
  runs := hruns

/-- A heuristic that comes to the empty bins last packs what can be put in order. -/
theorem fit_of_runs {arrange : ℕ → List (Bin W) → List (Bin W)} (hnonneg : bp.Nonneg) (hbins : 0 < bp.numBins)
    (hperm : ∀ k bins, (arrange k bins).Perm bins) {P : List (Bin W) → Prop}
    (hstart : P ((List.range bp.numBins).map fun i => (i, 0)))
    (hopen : ∀ k bins, P bins → OpenFirst (arrange k bins))
    (hkeep : ∀ front b back (w : W), OpenFirst (front ++ b :: back) → (∀ c ∈ front ++ b :: back, 0 ≤ c.2) →
      (∀ c ∈ front, bp.maxBinCapacity < c.2 + w) → b.2 + w ≤ bp.maxBinCapacity → 0 ≤ w →
      P (front ++ (b.1, b.2 + w) :: back))
    (hruns : Runs bp.maxBinCapacity (bp.numBins - 1) 0 bp.weights) : (bp.fit arrange).1 = true := by
  have hmisfits := misfits_foldl hperm hopen hkeep (fun i hi => hnonneg.of_mem hi) hstart
    (dominates_start hbins hruns)
  show (TreeSet.isEmpty _) = true
  rw [hmisfits]
  exact TreeSet.isEmpty_emptyc

theorem firstFit_of_runs (hnonneg : bp.Nonneg) (hbins : 0 < bp.numBins)
    (hruns : Runs bp.maxBinCapacity (bp.numBins - 1) 0 bp.weights) : bp.firstFit.1 = true := by
  refine fit_of_runs (P := OpenFirst) hnonneg hbins (fun _ bins => List.Perm.refl bins) ?_ (fun _ _ h => h)
    (fun _ _ _ _ hopen hnonneg hfront hfits hw => hopen.grow hnonneg hfront hfits hw) hruns
  exact List.pairwise_map.mpr (List.pairwise_of_forall fun i j hpos => absurd hpos (lt_irrefl 0))

theorem bestFit_of_runs (hnonneg : bp.Nonneg) (hbins : 0 < bp.numBins) (order : ℕ → StdSort (W := W) cmpOpp)
    (hruns : Runs bp.maxBinCapacity (bp.numBins - 1) 0 bp.weights) : (bp.bestFit order).1 = true := by
  refine fit_of_runs (P := fun _ => True) hnonneg hbins (fun k => (order k).perm) trivial (fun k bins _ => ?_)
    (fun _ _ _ _ _ _ _ _ _ => trivial) hruns
  refine ((order k).sorted bins).imp fun {a b} hle hpos => ?_
  have hle : b.2 ≤ a.2 := by simpa [cmpOpp] using hle
  exact hpos.trans_le hle

/-- **`next_fit` packs no more than `first_fit` and `best_fit`**, so `any_fit` does as well without it. -/
theorem nextFit_dominated (bp : BinPack W) (hnonneg : bp.Nonneg) (hbins : 1 ≤ bp.numBins)
    (bestOrder : ℕ → StdSort (W := W) cmpOpp) (worstOrder : ℕ → StdSort (W := W) cmp) :
    (bp.nextFit.1 = true → bp.firstFit.1 = true ∧ (bp.bestFit bestOrder).1 = true)
      ∧ (bp.anyFit bestOrder worstOrder).1
        = (bp.firstFit.1 || (bp.bestFit bestOrder).1 || (bp.worstFit worstOrder).1) := by
  have hdominated : bp.nextFit.1 = true → bp.firstFit.1 = true ∧ (bp.bestFit bestOrder).1 = true := by
    intro hnext
    have hruns := (nextFit_iff_runs hnonneg hbins).mp hnext
    exact ⟨firstFit_of_runs hnonneg hbins hruns, bestFit_of_runs hnonneg hbins bestOrder hruns⟩
  refine ⟨hdominated, ?_⟩
  rw [(bp.anyFit_cases bestOrder worstOrder).1]
  cases hnext : bp.nextFit.1 with
  | true => rw [(hdominated hnext).1]; rfl
  | false => rfl

theorem nextFit_dominated_sevenItems : sevenItems.firstFit.1 = true
    ∧ (sevenItems.bestFit fun _ => .stableOpp).1 = true :=
  (nextFit_dominated sevenItems nonneg_sevenItems (by decide) (fun _ => .stableOpp) fun _ => .stable).1
    (by decide +kernel)

end BinPack

end Utils
