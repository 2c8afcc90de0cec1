import Mathlib.Data.Finset.Max
import Mathlib.Data.List.Basic
import Mathlib.Data.List.Sort
import Mathlib.Order.Defs.LinearOrder
import Mathlib.Order.Interval.Set.Defs
import Mathlib.Tactic.Linarith

/-!
# Order statistics

The `k`-th entry of a sorted list is not below `lo` as soon as at most `k` entries are, and symmetrically from
above, in whatever sense the list is sorted (`middle_eq_false`). The two middle entries therefore lie between
`lo` and `hi` when fewer than half of the entries lie below `lo`, and fewer than half above `hi`
(`middle_mem_Icc`). The range of the good
entries is such a range when fewer than half of the entries are bad (`exists_goodRange`). Of four entries
with three good ones, the mean of the middle two moves by at most half of that range when the fourth one
changes (`middles_near`).
-/

namespace OrderStatistics

section Related

variable {α : Type*} {r : α → α → Prop} {xs : List α}

/-- What holds of whatever stands in front of an entry of which it holds does not hold of entry `k` when it
holds of `k` entries at most. -/
theorem getElem_eq_false_of_countP_le {p : α → Bool} (hdown : ∀ x y, r x y → p y = true → p x = true)
    (hs : xs.Pairwise r) {k : ℕ} (hk : k < xs.length) (h : xs.countP p ≤ k) : p xs[k] = false := by
  by_contra hp
  -- it would hold of the first `k + 1` entries
  have hall : ∀ x ∈ xs.take (k + 1), p x = true := by
    intro x hx
    obtain ⟨i, hi, rfl⟩ := List.mem_iff_getElem.mp hx
    rw [List.length_take] at hi
    rw [List.getElem_take]
    rcases Nat.lt_or_eq_of_le (show i ≤ k by omega) with hik | rfl
    · exact hdown _ _ (List.pairwise_iff_getElem.mp hs i k (by omega) hk hik) (Bool.not_eq_false _ ▸ hp)
    · exact Bool.not_eq_false _ ▸ hp
  have hcount : (xs.take (k + 1)).countP p = (xs.take (k + 1)).length := List.countP_eq_length.mpr hall
  have hle := (List.take_sublist (k + 1) xs).countP_le (p := p)
  rw [hcount, List.length_take] at hle
  omega

/-- The same from the other end. -/
theorem getElem_eq_false_of_countP_lt {p : α → Bool} (hup : ∀ x y, r x y → p x = true → p y = true)
    (hs : xs.Pairwise r) {k : ℕ} (hk : k < xs.length) (h : xs.countP p < xs.length - k) :
    p xs[k] = false := by
  by_contra hp
  -- it would hold of the entries from `k` on
  have hall : ∀ x ∈ xs.drop k, p x = true := by
    intro x hx
    obtain ⟨i, hi, rfl⟩ := List.mem_iff_getElem.mp hx
    rw [List.getElem_drop]
    rw [List.length_drop] at hi
    rcases Nat.eq_zero_or_pos i with rfl | hpos
    · exact Bool.not_eq_false _ ▸ hp
    · exact hup _ _ (List.pairwise_iff_getElem.mp hs k (k + i) hk (by omega) (by omega))
        (Bool.not_eq_false _ ▸ hp)
  have hcount : (xs.drop k).countP p = (xs.drop k).length := List.countP_eq_length.mpr hall
  have hle := (List.drop_sublist k xs).countP_le (p := p)
  rw [hcount, List.length_drop] at hle
  omega

/-- The middle entries are neither below nor above what fewer than half of the entries are. -/
theorem middle_eq_false {below above : α → Bool} (hdown : ∀ x y, r x y → below y = true → below x = true)
    (hup : ∀ x y, r x y → above x = true → above y = true) (hs : xs.Pairwise r)
    (hlo : 2 * xs.countP below < xs.length) (hhi : 2 * xs.countP above < xs.length) {k : ℕ}
    (hk : k < xs.length) (hmiddle : k = xs.length / 2 ∨ k = (xs.length - 1) / 2) :
    below xs[k] = false ∧ above xs[k] = false :=
  ⟨getElem_eq_false_of_countP_le hdown hs hk (by omega), getElem_eq_false_of_countP_lt hup hs hk (by omega)⟩

end Related

variable {α : Type*} [LinearOrder α]

/-- The middle entries lie in every range that fewer than half of the entries leave on either side. -/
theorem middle_mem_Icc {xs : List α} (hs : xs.Pairwise (· ≤ ·)) {lo hi : α}
    (hlo : 2 * xs.countP (· < lo) < xs.length) (hhi : 2 * xs.countP (hi < ·) < xs.length) {k : ℕ}
    (hk : k < xs.length) (hmiddle : k = xs.length / 2 ∨ k = (xs.length - 1) / 2) :
    xs[k] ∈ Set.Icc lo hi := by
  obtain ⟨hbelow, habove⟩ := middle_eq_false
    (fun x y hle hy => decide_eq_true (hle.trans_lt (of_decide_eq_true hy)))
    (fun x y hle hx => decide_eq_true ((of_decide_eq_true hx).trans_le hle)) hs hlo hhi hk hmiddle
  exact ⟨not_lt.mp (of_decide_eq_false hbelow), not_lt.mp (of_decide_eq_false habove)⟩

/-! ## Good entries and bad ones -/

variable {β : Type*} (bad : β → Prop) [DecidablePred bad] {xs : List β}

theorem exists_good (h : 2 * xs.countP (bad ·) < xs.length) : ∃ x ∈ xs, ¬bad x := by
  by_contra hnone
  have hall : xs.countP (bad ·) = xs.length := List.countP_eq_length.mpr fun x hx => by
    by_contra hgood
    exact hnone ⟨x, hx, by simpa using hgood⟩
  omega

/-- Only bad entries leave the range of the good ones. -/
theorem countP_lt_of_good (h : 2 * xs.countP (bad ·) < xs.length) {p : β → Bool}
    (hp : ∀ x ∈ xs, ¬bad x → p x = false) : 2 * xs.countP p < xs.length := by
  have hle : xs.countP p ≤ xs.countP (bad ·) := by
    refine List.countP_mono_left fun x hx hpx => ?_
    by_contra hgood
    exact absurd (hp x hx (by simpa using hgood)) (by simpa using hpx)
  omega

/-- Fewer than half of the entries lie below the smallest good one. -/
theorem exists_lower [DecidableEq β] (value : β → α) (h : 2 * xs.countP (bad ·) < xs.length) :
    ∃ lo ∈ xs, ¬bad lo ∧ 2 * xs.countP (value · < value lo) < xs.length := by
  have hgood : (xs.toFinset.filter (¬bad ·)).Nonempty := by
    obtain ⟨x, hx, hx'⟩ := exists_good bad h
    exact ⟨x, Finset.mem_filter.mpr ⟨List.mem_toFinset.mpr hx, hx'⟩⟩
  obtain ⟨lo, hlo, hmin⟩ := Finset.exists_min_image _ value hgood
  simp only [Finset.mem_filter, List.mem_toFinset] at hlo hmin
  exact ⟨lo, hlo.1, hlo.2, countP_lt_of_good bad h fun x hx hx' => by simpa using hmin x ⟨hx, hx'⟩⟩

/-- Fewer than half of the entries lie above the greatest good one. -/
theorem exists_upper [DecidableEq β] (value : β → α) (h : 2 * xs.countP (bad ·) < xs.length) :
    ∃ hi ∈ xs, ¬bad hi ∧ 2 * xs.countP (value hi < value ·) < xs.length :=
  exists_lower bad (OrderDual.toDual ∘ value) h

/-- Fewer than half of the entries leave the range of the good ones on either side. -/
theorem exists_goodRange [DecidableEq β] (value : β → α) (h : 2 * xs.countP (bad ·) < xs.length) :
    ∃ lo ∈ xs, ∃ hi ∈ xs, ¬bad lo ∧ ¬bad hi ∧ 2 * xs.countP (value · < value lo) < xs.length
      ∧ 2 * xs.countP (value hi < value ·) < xs.length := by
  obtain ⟨lo, hlo, hlo', hbelow⟩ := exists_lower bad value h
  obtain ⟨hi, hhi, hhi', habove⟩ := exists_upper bad value h
  exact ⟨lo, hlo, hi, hhi, hlo', hhi', hbelow, habove⟩

/-- The mean of the middle entries of three good numbers and at most one other lies between the means of
neighbouring good ones. -/
theorem middles_near [Field α] [IsStrictOrderedRing α] {xs others : List α} (hs : xs.Pairwise (· ≤ ·))
    {a b c : α} (hab : a ≤ b) (hbc : b ≤ c) (hothers : others.length ≤ 1)
    (hperm : xs.Perm (others ++ [a, b, c])) : ∃ y z, xs[xs.length / 2]? = some y
      ∧ xs[(xs.length - 1) / 2]? = some z ∧ (a + b) / 2 ≤ (y + z) / 2 ∧ (y + z) / 2 ≤ (b + c) / 2 := by
  have hgood : [a, b, c].Pairwise (· ≤ ·) := by simp [hab, hbc, hab.trans hbc]
  match others, hothers with
  | [], _ =>
    obtain rfl : xs = [a, b, c] := hperm.eq_of_pairwise' hs hgood
    exact ⟨b, b, by simp, by simp, by linarith, by linarith⟩
  | [x], _ =>
    obtain rfl : xs = [a, b, c].orderedInsert (· ≤ ·) x :=
      (hperm.trans (List.perm_orderedInsert _ _ _).symm).eq_of_pairwise' hs (hgood.orderedInsert x _)
    -- the place of the other number
    by_cases hxa : x ≤ a
    · exact ⟨b, a, by simp [hxa], by simp [hxa], by linarith, by linarith⟩
    by_cases hxb : x ≤ b
    · exact ⟨b, x, by simp [hxa, hxb], by simp [hxa, hxb], by linarith, by linarith⟩
    by_cases hxc : x ≤ c
    · exact ⟨x, b, by simp [hxa, hxb, hxc], by simp [hxa, hxb, hxc], by linarith, by linarith⟩
    · exact ⟨c, b, by simp [hxa, hxb, hxc], by simp [hxa, hxb, hxc], by linarith, by linarith⟩

end OrderStatistics
