import Inconcretes.Lib.OrderedMap
import Inconcretes.Lib.Packing
import Mathlib.Data.List.Sort

/-!
# Bin packing

`BinPack` puts items into bins by four heuristics. `next_fit` goes through the bins once, and the others look
at all bins for each item, in the order of their numbers, or sorted by what is in them. The order that
`std::sort` gives to bins that hold the same is any (`StdSort`).

The weights are doubles other than nan: a sum may round, but zero is neutral and a sum grows with its
arguments. The heuristics keep what they have put into the bins beside the mapping. Where weights are exact, it
is the load that the mapping gives to each bin (`Filling.Kept`), so whatever a heuristic maps is within the
capacity (`heuristics_sound`).
-/

namespace Utils

open Std (TreeMap TreeSet)
open OrderedMap Packing

/-- `BinPack`. -/
structure BinPack (W : Type) where
  items : TreeMap ℕ W
  numBins : ℕ
  maxBinCapacity : W
  mapping : TreeMap ℕ ℕ := ∅
  misfits : TreeSet ℕ := ∅

/-- The number of a bin, and what is in it. -/
abbrev Bin (W : Type) := ℕ × W

section Code

variable {W : Type} [AddZeroClass W] [LinearOrder W]

/-- `cmp(a, b)`. -/
def cmp (a b : Bin W) : Bool := a.2 < b.2

/-- `cmp_opp(a, b)`. -/
def cmpOpp (a b : Bin W) : Bool := a.2 > b.2

/-- `std::sort(bins.begin(), bins.end(), cmp)`. -/
structure StdSort (cmp : Bin W → Bin W → Bool) where
  sort : List (Bin W) → List (Bin W)
  perm : ∀ bins, (sort bins).Perm bins
  sorted : ∀ bins, (sort bins).Pairwise fun a b => ¬cmp b a

/-- Bins that hold the same stay in order: one admissible order. -/
def StdSort.stable : StdSort (W := W) cmp where
  sort := List.insertionSort fun a b => a.2 ≤ b.2
  perm := List.perm_insertionSort _
  sorted bins := (List.pairwise_insertionSort _ bins).imp fun hle => by simpa [cmp] using hle

/-- Bins that hold the same stay in order, the fuller ones first. -/
def StdSort.stableOpp : StdSort (W := W) cmpOpp where
  sort := List.insertionSort fun a b => b.2 ≤ a.2
  perm := List.perm_insertionSort _
  sorted bins := (List.pairwise_insertionSort _ bins).imp fun hle => by simpa [cmpOpp] using hle

/-! ## Next fit -/

/-- The `while` loop of `next_fit()`, with the number of bins from `bid` on. -/
def advance (cap w : W) : ℕ → ℕ → W → ℕ × W
  | 0, bid, sum => (bid, sum)
  | left + 1, bid, sum => if sum + w > cap then advance cap w left (bid + 1) 0 else (bid, sum)

/-- The loop of `next_fit()` over the items. -/
def nextFitLoop (numBins : ℕ) (cap : W) :
    List (ℕ × W) → ℕ → W → TreeMap ℕ ℕ → TreeMap ℕ ℕ × TreeSet ℕ
  | [], _, _, mapping => (mapping, ∅)
  | p :: items, bid, sum, mapping =>
    let (bid, sum) := advance cap p.2 (numBins - bid) bid sum
    if bid = numBins then (mapping, (∅ : TreeSet ℕ).insert p.1)
    else nextFitLoop numBins cap items bid (sum + p.2) (mapping.insert p.1 bid)

/-- `next_fit()`. -/
def BinPack.nextFit (bp : BinPack W) : Bool × BinPack W :=
  let (mapping, misfits) := nextFitLoop bp.numBins bp.maxBinCapacity bp.items.toList 0 0 ∅
  (misfits.isEmpty, { bp with mapping, misfits })

/-! ## The other heuristics -/

/-- The variables of `first_fit()`, `best_fit()` and `worst_fit()`. -/
structure Filling (W : Type) where
  bins : List (Bin W)
  mapping : TreeMap ℕ ℕ := ∅
  misfits : TreeSet ℕ := ∅

/-- The loop over the bins for an item. -/
def place (cap : W) (i : ℕ × W) : List (Bin W) → TreeMap ℕ ℕ → List (Bin W) × TreeMap ℕ ℕ
  | [], mapping => ([], mapping)
  | b :: bins, mapping =>
    if i.2 + b.2 ≤ cap then ((b.1, b.2 + i.2) :: bins, mapping.insert i.1 b.1)
    else
      let (bins, mapping) := place cap i bins mapping
      (b :: bins, mapping)

/-- One iteration of the loop over the items. -/
def Filling.fitItem (arrange : ℕ → List (Bin W) → List (Bin W)) (cap : W) (s : Filling W) (i : ℕ × W) :
    Filling W :=
  let (bins, mapping) := place cap i (arrange i.1 s.bins) s.mapping
  let misfits := if i.1 ∈ mapping then s.misfits else s.misfits.insert i.1
  ⟨bins, mapping, misfits⟩

/-- The heuristic that arranges the bins before each item. -/
def BinPack.fit (arrange : ℕ → List (Bin W) → List (Bin W)) (bp : BinPack W) : Bool × BinPack W :=
  let bins := (List.range bp.numBins).map fun i => (i, (0 : W))
  let s := bp.items.toList.foldl (Filling.fitItem arrange bp.maxBinCapacity) { bins }
  (s.misfits.isEmpty, { bp with mapping := s.mapping, misfits := s.misfits })

/-- `first_fit()`. -/
def BinPack.firstFit (bp : BinPack W) : Bool × BinPack W := bp.fit fun _ bins => bins

/-- `best_fit()`. -/
def BinPack.bestFit (order : ℕ → StdSort (W := W) cmpOpp) (bp : BinPack W) : Bool × BinPack W :=
  bp.fit fun id => (order id).sort

/-- `worst_fit()`. -/
def BinPack.worstFit (order : ℕ → StdSort (W := W) cmp) (bp : BinPack W) : Bool × BinPack W :=
  bp.fit fun id => (order id).sort

/-- `any_fit()`. -/
def BinPack.anyFit (bestOrder : ℕ → StdSort (W := W) cmpOpp) (worstOrder : ℕ → StdSort (W := W) cmp)
    (bp : BinPack W) : Bool × BinPack W :=
  let (fits, bp) := bp.nextFit
  if fits then (true, bp) else
  let (fits, bp) := bp.firstFit
  if fits then (true, bp) else
  let (fits, bp) := bp.bestFit bestOrder
  if fits then (true, bp) else
  let (fits, bp) := bp.worstFit worstOrder
  if fits then (true, bp) else (false, bp)

end Code

/-! ## Every item -/

section Items

variable {W : Type} [AddZeroClass W] [LinearOrder W]

namespace BinPack

variable (bp : BinPack W)

/-- Every item is in a bin. -/
def Complete : Prop := ∀ k ∈ bp.items, k ∈ bp.mapping

/-- Every item is in a bin or a misfit, and not both. -/
def Accounted : Prop := ∀ k ∈ bp.items, (k ∈ bp.mapping ↔ k ∉ bp.misfits)

/-- The weights are not negative. -/
def Nonneg : Prop := ∀ (k : ℕ) (w : W), bp.items[k]? = some w → 0 ≤ w

omit [AddZeroClass W] [LinearOrder W] in
theorem nodup_items : (bp.items.toList.map Prod.fst).Nodup := by
  rw [TreeMap.map_fst_toList_eq_keys]
  exact TreeMap.nodup_keys

omit [AddZeroClass W] [LinearOrder W] in
theorem mem_items {k : ℕ} : k ∈ bp.items ↔ k ∈ bp.items.toList.map Prod.fst := by
  rw [TreeMap.map_fst_toList_eq_keys, TreeMap.mem_keys]

variable {bp}

theorem nonneg_of_forall (h : ∀ i ∈ bp.items.toList, 0 ≤ i.2) : bp.Nonneg := fun k w hk =>
  h (k, w) (TreeMap.mem_toList_iff_getElem?_eq_some.mpr hk)

theorem Nonneg.of_mem (h : bp.Nonneg) {i : ℕ × W} (hi : i ∈ bp.items.toList) : 0 ≤ i.2 :=
  h i.1 i.2 (TreeMap.mem_toList_iff_getElem?_eq_some.mp hi)

end BinPack

variable {bp : BinPack W} {done rest : List (ℕ × W)} {i : ℕ × W}

/-- The item goes into one bin at most. -/
theorem place_mapping (cap : W) (i : ℕ × W) (bins : List (Bin W)) (mapping : TreeMap ℕ ℕ) :
    (place cap i bins mapping).2 = mapping ∨ ∃ bid, (place cap i bins mapping).2 = mapping.insert i.1 bid := by
  induction bins with
  | nil => exact Or.inl rfl
  | cons b bins ih =>
    rw [place]
    split_ifs
    · exact Or.inr ⟨b.1, rfl⟩
    · exact ih

/-- After the items `done`, each of them is mapped or a misfit. -/
structure Filling.Counted (done : List (ℕ × W)) (s : Filling W) : Prop where
  mem_done : ∀ k ∈ s.mapping, k ∈ done.map Prod.fst
  mem_misfits : ∀ k, k ∈ s.misfits ↔ k ∈ done.map Prod.fst ∧ k ∉ s.mapping

omit [AddZeroClass W] [LinearOrder W] in
theorem notMem_done (hsplit : bp.items.toList = done ++ i :: rest) : i.1 ∉ done.map Prod.fst := by
  have hnodup := bp.nodup_items
  rw [hsplit, List.map_append, List.map_cons] at hnodup
  exact fun hmem => List.disjoint_of_nodup_append hnodup hmem List.mem_cons_self

/-- One item more. -/
theorem Filling.Counted.fitItem {arrange : ℕ → List (Bin W) → List (Bin W)} {s : Filling W}
    (h : s.Counted done) (hdone : i.1 ∉ done.map Prod.fst) (cap : W) :
    (s.fitItem arrange cap i).Counted (done ++ [i]) := by
  have hfresh : i.1 ∉ s.mapping := fun hmem => hdone (h.mem_done _ hmem)
  have hdone' : ∀ k, k ∈ (done ++ [i]).map Prod.fst ↔ k ∈ done.map Prod.fst ∨ k = i.1 := by simp
  rw [Filling.fitItem]
  rcases place_mapping cap i (arrange i.1 s.bins) s.mapping with heq | ⟨bid, heq⟩
  · simp only [heq, if_neg hfresh]
    refine ⟨fun k hk => (hdone' k).mpr (Or.inl (h.mem_done k hk)), fun k => ?_⟩
    rw [mem_set_insert, h.mem_misfits, hdone']
    constructor
    · rintro (rfl | ⟨hk, hmapped⟩)
      · exact ⟨Or.inr rfl, hfresh⟩
      · exact ⟨Or.inl hk, hmapped⟩
    · rintro ⟨hk | rfl, hmapped⟩
      · exact Or.inr ⟨hk, hmapped⟩
      · exact Or.inl rfl
  · have hmem : i.1 ∈ s.mapping.insert i.1 bid := TreeMap.mem_insert_self
    simp only [heq, if_pos hmem]
    refine ⟨fun k hk => ?_, fun k => ?_⟩
    · rw [hdone']
      rcases mem_map_insert.mp hk with heq | hk
      · exact Or.inr heq.symm
      · exact Or.inl (h.mem_done k hk)
    · rw [h.mem_misfits, hdone', mem_map_insert, not_or]
      constructor
      · rintro ⟨hk, hmapped⟩
        exact ⟨Or.inl hk, fun heq => hdone (heq ▸ hk), hmapped⟩
      · rintro ⟨hk | rfl, hne, hmapped⟩
        · exact ⟨hk, hmapped⟩
        · exact absurd rfl hne

/-- All items. -/
theorem Filling.counted_foldl (arrange : ℕ → List (Bin W) → List (Bin W)) (bp : BinPack W)
    (bins : List (Bin W)) :
    (bp.items.toList.foldl (Filling.fitItem arrange bp.maxBinCapacity) { bins }).Counted bp.items.toList := by
  suffices h : ∀ rest done s, bp.items.toList = done ++ rest → Filling.Counted done s →
      (rest.foldl (Filling.fitItem arrange bp.maxBinCapacity) s).Counted bp.items.toList from
    h _ [] _ rfl ⟨fun k hk => by simp at hk, fun k => by simp⟩
  intro rest
  induction rest with
  | nil =>
    intro done s hsplit h
    rw [List.append_nil] at hsplit
    exact hsplit ▸ h
  | cons i rest ih =>
    intro done s hsplit h
    exact ih (done ++ [i]) _ (by rw [hsplit, List.append_assoc]; rfl) (h.fitItem (notMem_done hsplit) _)

end Items

/-! ## Loads -/

section Loads

variable {W : Type} [AddCommMonoid W] [LinearOrder W]

/-- The weights of the items that are mapped to the bin `b`. -/
def load (mapping : TreeMap ℕ ℕ) (items : List (ℕ × W)) (b : ℕ) : W :=
  ((items.filter fun i => mapping[i.1]? = some b).map (·.2)).sum

omit [LinearOrder W] in
/-- Items that are not mapped anew weigh as before. -/
theorem load_insert_of_notMem {mapping : TreeMap ℕ ℕ} {items : List (ℕ × W)} {k : ℕ}
    (hk : k ∉ items.map Prod.fst) (bid b : ℕ) :
    load (mapping.insert k bid) items b = load mapping items b := by
  have hsame : ∀ i ∈ items, (mapping.insert k bid)[i.1]? = mapping[i.1]? := fun i hi => by
    rw [getElem?_insert, if_neg fun heq : k = i.1 => hk (heq ▸ List.mem_map_of_mem hi)]
  rw [load, load, List.filter_congr fun i hi => by rw [hsame i hi]]

omit [LinearOrder W] in
theorem load_append (mapping : TreeMap ℕ ℕ) (items items' : List (ℕ × W)) (b : ℕ) :
    load mapping (items ++ items') b = load mapping items b + load mapping items' b := by
  rw [load, List.filter_append, List.map_append, List.sum_append]
  rfl

omit [LinearOrder W] in
/-- An item that is mapped adds its weight to its bin. -/
theorem load_insert {mapping : TreeMap ℕ ℕ} {items : List (ℕ × W)} (hnodup : (items.map Prod.fst).Nodup)
    {i : ℕ × W} (hi : i ∈ items) (hfresh : i.1 ∉ mapping) (bid b : ℕ) :
    load (mapping.insert i.1 bid) items b = load mapping items b + if bid = b then i.2 else 0 := by
  obtain ⟨front, back, rfl⟩ := List.append_of_mem hi
  rw [List.map_append, List.map_cons, List.nodup_append, List.nodup_cons] at hnodup
  have hfront : i.1 ∉ front.map Prod.fst := fun hmem =>
    hnodup.2.2 i.1 hmem i.1 List.mem_cons_self rfl
  have hnone : mapping[i.1]? = none := TreeMap.getElem?_eq_none hfresh
  have hone : load (mapping.insert i.1 bid) [i] b = load mapping [i] b + if bid = b then i.2 else 0 := by
    rw [load, load]
    by_cases hb : bid = b
    · simp [hb, hnone]
    · simp [hb, hnone]
  rw [List.append_cons, load_append, load_append, load_append, load_append, load_insert_of_notMem hfront,
    load_insert_of_notMem hnodup.2.1.1, hone, ← add_assoc, add_right_comm]

omit [LinearOrder W] in
/-- Nothing is in a bin to which nothing is mapped. -/
theorem load_eq_zero {mapping : TreeMap ℕ ℕ} (items : List (ℕ × W)) {b : ℕ}
    (h : ∀ k : ℕ, mapping[k]? ≠ some b) : load mapping items b = 0 := by
  have hnil : items.filter (fun i => mapping[i.1]? = some b) = [] :=
    List.filter_eq_nil_iff.mpr fun i _ => by simpa using h i.1
  rw [load, hnil]
  rfl

namespace BinPack

variable (bp : BinPack W)

/-- A bin with an item in it is one of the bins, and within the capacity. -/
structure Fits : Prop where
  bin_lt : ∀ (k bid : ℕ), bp.mapping[k]? = some bid → bid < bp.numBins
  load_le : ∀ (k bid : ℕ), bp.mapping[k]? = some bid →
    load bp.mapping bp.items.toList bid ≤ bp.maxBinCapacity

/-- The items are in the bins that there are, and no bin is filled beyond the capacity. -/
structure Sound : Prop where
  bin_lt : ∀ (k bid : ℕ), bp.mapping[k]? = some bid → bid < bp.numBins
  load_le : ∀ bid, load bp.mapping bp.items.toList bid ≤ bp.maxBinCapacity

variable {bp}

theorem Fits.sound (h : bp.Fits) (hcap : 0 ≤ bp.maxBinCapacity) : bp.Sound where
  bin_lt := h.bin_lt
  load_le bid := by
    by_cases hused : ∃ k : ℕ, bp.mapping[k]? = some bid
    · obtain ⟨k, hk⟩ := hused
      exact h.load_le k bid hk
    · rwa [load_eq_zero _ (not_exists.mp hused)]

/-- A mapping of nothing. -/
theorem fits_empty (bp : BinPack W) : Fits { bp with mapping := ∅ } where
  bin_lt k bid h := by simp at h
  load_le k bid h := by simp at h

/-- One item more, in a bin that it fits. -/
theorem Fits.put {mapping : TreeMap ℕ ℕ} (h : Fits { bp with mapping }) {i : ℕ × W}
    (hi : i ∈ bp.items.toList) (hfresh : i.1 ∉ mapping) {bid : ℕ} (hbid : bid < bp.numBins)
    (hfits : load mapping bp.items.toList bid + i.2 ≤ bp.maxBinCapacity) :
    Fits { bp with mapping := mapping.insert i.1 bid } where
  bin_lt k bid' hk := by
    replace hk : (mapping.insert i.1 bid)[k]? = some bid' := hk
    rw [getElem?_insert] at hk
    split_ifs at hk
    · exact Option.some.inj hk ▸ hbid
    · exact h.bin_lt k bid' hk
  load_le k bid' hk := by
    replace hk : (mapping.insert i.1 bid)[k]? = some bid' := hk
    show load (mapping.insert i.1 bid) bp.items.toList bid' ≤ bp.maxBinCapacity
    rw [load_insert bp.nodup_items hi hfresh]
    rw [getElem?_insert] at hk
    by_cases hb : bid = bid'
    · rw [if_pos hb]
      exact hb ▸ hfits
    · rw [if_neg hb, add_zero]
      split_ifs at hk
      · exact absurd (Option.some.inj hk) hb
      · exact h.load_le k bid' hk

/-- The call has packed: it keeps the items and the bins, fills no bin beyond the capacity, and says whether
every item is in a bin. -/
structure Packs (bp : BinPack W) (r : Bool × BinPack W) : Prop where
  items_eq : r.2.items = bp.items
  numBins_eq : r.2.numBins = bp.numBins
  capacity_eq : r.2.maxBinCapacity = bp.maxBinCapacity
  sound : r.2.Sound
  fits_iff : r.1 = true ↔ r.2.Complete

end BinPack

/-! ### Heuristics that look at all bins -/

/-- The item goes into the first bin that it fits, if there is one. -/
theorem place_cases (cap : W) (i : ℕ × W) (bins : List (Bin W)) (mapping : TreeMap ℕ ℕ) :
    (∀ b ∈ bins, cap < b.2 + i.2) ∧ place cap i bins mapping = (bins, mapping)
      ∨ ∃ front b back, bins = front ++ b :: back ∧ (∀ c ∈ front, cap < c.2 + i.2) ∧ b.2 + i.2 ≤ cap
        ∧ place cap i bins mapping = (front ++ (b.1, b.2 + i.2) :: back, mapping.insert i.1 b.1) := by
  induction bins with
  | nil => exact Or.inl ⟨nofun, rfl⟩
  | cons b bins ih =>
    rw [place]
    by_cases hfits : i.2 + b.2 ≤ cap
    · rw [if_pos hfits]
      exact Or.inr ⟨[], b, bins, rfl, nofun, add_comm i.2 b.2 ▸ hfits, rfl⟩
    · rw [if_neg hfits]
      have hb : cap < b.2 + i.2 := add_comm i.2 b.2 ▸ lt_of_not_ge hfits
      rcases ih with ⟨hnone, heq⟩ | ⟨front, b', back, rfl, hfront, hb', heq⟩
      · exact Or.inl ⟨List.forall_mem_cons.mpr ⟨hb, hnone⟩, by rw [heq]⟩
      · exact Or.inr ⟨b :: front, b', back, rfl, List.forall_mem_cons.mpr ⟨hb, hfront⟩, hb', by rw [heq]; rfl⟩

/-- The invariant of the loop over the items: the vector of bins holds the loads that the mapping gives. -/
structure Filling.Kept (bp : BinPack W) (s : Filling W) : Prop where
  fits : BinPack.Fits { bp with mapping := s.mapping }
  bins_eq : (s.bins.map Prod.fst).Perm (List.range bp.numBins)
  load_eq : ∀ b ∈ s.bins, b.2 = load s.mapping bp.items.toList b.1

variable {bp : BinPack W} {done rest : List (ℕ × W)} {i : ℕ × W}

theorem Filling.kept_nil (bp : BinPack W) :
    Filling.Kept bp { bins := (List.range bp.numBins).map fun i => (i, 0) } where
  fits := bp.fits_empty
  bins_eq := by
    rw [List.map_map]
    exact (List.map_id _).symm ▸ List.Perm.refl _
  load_eq b hb := by
    obtain ⟨i, -, rfl⟩ := List.mem_map.mp hb
    exact (load_eq_zero _ (by simp)).symm

/-- The bins in another order. -/
theorem Filling.Kept.perm {s : Filling W} (h : s.Kept bp) {bins : List (Bin W)} (hperm : bins.Perm s.bins) :
    Filling.Kept bp { s with bins } where
  fits := h.fits
  bins_eq := (hperm.map _).trans h.bins_eq
  load_eq b hb := h.load_eq b (hperm.mem_iff.mp hb)

/-- One item more. -/
theorem Filling.Kept.fitItem {arrange : ℕ → List (Bin W) → List (Bin W)}
    (harrange : ∀ k bins, (arrange k bins).Perm bins) {s : Filling W} (h : s.Kept bp)
    (hi : i ∈ bp.items.toList) (hfresh : i.1 ∉ s.mapping) :
    (s.fitItem arrange bp.maxBinCapacity i).Kept bp := by
  replace h := h.perm (harrange i.1 s.bins)
  rw [Filling.fitItem]
  rcases place_cases bp.maxBinCapacity i (arrange i.1 s.bins) s.mapping with
    ⟨-, heq⟩ | ⟨front, b, back, hbins, -, hfits, heq⟩
  · rw [heq]
    exact ⟨h.fits, h.bins_eq, h.load_eq⟩
  · rw [heq]
    have hb : b ∈ arrange i.1 s.bins := hbins ▸ by simp
    have hload := h.load_eq b hb
    have hbid : b.1 < bp.numBins := List.mem_range.mp (h.bins_eq.mem_iff.mp (List.mem_map_of_mem hb))
    have hids := h.bins_eq
    have hloads := h.load_eq
    simp only [hbins, List.map_append, List.map_cons] at hids hloads
    have hnodup := hids.nodup_iff.mpr List.nodup_range
    refine ⟨h.fits.put hi hfresh hbid (hload ▸ hfits), ?_, fun c hc => ?_⟩
    · simpa using hids
    · show c.2 = load (s.mapping.insert i.1 b.1) bp.items.toList c.1
      rw [load_insert bp.nodup_items hi hfresh]
      -- the number of a bin occurs once
      rw [List.nodup_append, List.nodup_cons] at hnodup
      rcases List.mem_append.mp hc with hc | hc
      · have hne : b.1 ≠ c.1 := fun heq =>
          hnodup.2.2 c.1 (List.mem_map_of_mem hc) b.1 List.mem_cons_self heq.symm
        rw [if_neg hne, add_zero]
        exact hloads c (List.mem_append_left _ hc)
      rcases List.mem_cons.mp hc with rfl | hc
      · rw [if_pos rfl, ← hload]
      · have hne : b.1 ≠ c.1 := fun heq => hnodup.2.1.1 (heq ▸ List.mem_map_of_mem hc)
        rw [if_neg hne, add_zero]
        exact hloads c (List.mem_append_right _ (List.mem_cons_of_mem _ hc))

/-- All items. -/
theorem Filling.kept_foldl {arrange : ℕ → List (Bin W) → List (Bin W)}
    (harrange : ∀ k bins, (arrange k bins).Perm bins) (bp : BinPack W) :
    (bp.items.toList.foldl (Filling.fitItem arrange bp.maxBinCapacity)
      { bins := (List.range bp.numBins).map fun i => (i, 0) }).Kept bp := by
  suffices h : ∀ rest done s, bp.items.toList = done ++ rest → Filling.Counted done s → Filling.Kept bp s →
      (rest.foldl (Filling.fitItem arrange bp.maxBinCapacity) s).Kept bp from
    h _ [] _ rfl ⟨fun k hk => by simp at hk, fun k => by simp⟩ (Filling.kept_nil bp)
  intro rest
  induction rest with
  | nil => exact fun _ _ _ _ h => h
  | cons i rest ih =>
    intro done s hsplit hcount h
    have hdone := notMem_done hsplit
    exact ih (done ++ [i]) _ (by rw [hsplit, List.append_assoc]; rfl) (hcount.fitItem hdone _)
      (h.fitItem harrange (by simp [hsplit]) fun hmem => hdone (hcount.mem_done _ hmem))

end Loads

end Utils
