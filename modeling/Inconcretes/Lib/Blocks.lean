import Mathlib.Algebra.BigOperators.Intervals
import Mathlib.Algebra.Order.BigOperators.Group.Finset

/-!
# Blocks behind each other

The sequence in which `0` stands `c 0` times, then `1` stands `c 1` times, and so on. A loop that goes through
some kinds and leaves each of them after its quota writes a prefix of this sequence, which has as many entries
of each kind as its quota and what the kinds before it leave allow (`count_take_blocks`).
-/

namespace Blocks

variable (c : ℕ → ℕ)

/-- The first `n` blocks. -/
def blocks (n : ℕ) : List ℕ := (List.range n).flatMap fun j => List.replicate (c j) j

theorem blocks_succ (n : ℕ) : blocks c (n + 1) = blocks c n ++ List.replicate (c n) n := by
  rw [blocks, List.range_succ, List.flatMap_append, List.flatMap_singleton]
  rfl

theorem length_blocks (n : ℕ) : (blocks c n).length = ∑ j ∈ Finset.range n, c j := by
  induction n with
  | zero => rfl
  | succ n ih => rw [blocks_succ, List.length_append, ih, List.length_replicate, Finset.sum_range_succ]

variable {c}

theorem lt_of_mem_blocks {n j : ℕ} (h : j ∈ blocks c n) : j < n := by
  obtain ⟨k, hk, hj⟩ := List.mem_flatMap.mp h
  exact List.eq_of_mem_replicate hj ▸ List.mem_range.mp hk

theorem pairwise_blocks (n : ℕ) : (blocks c n).Pairwise (· ≤ ·) := by
  induction n with
  | zero => exact List.Pairwise.nil
  | succ n ih =>
    rw [blocks_succ]
    refine List.pairwise_append.mpr ⟨ih, List.pairwise_replicate.mpr (Or.inr le_rfl), fun j hj k hk => ?_⟩
    rw [List.eq_of_mem_replicate hk]
    exact (lt_of_mem_blocks hj).le

/-- The entry at a position within the block `k`. -/
theorem getElem?_blocks {n k r : ℕ} (hk : k < n) (hr : r < c k) :
    (blocks c n)[(∑ j ∈ Finset.range k, c j) + r]? = some k := by
  induction n with
  | zero => exact absurd hk (Nat.not_lt_zero k)
  | succ n ih =>
    rw [blocks_succ]
    rcases Nat.lt_succ_iff_lt_or_eq.mp hk with hk | rfl
    · rw [List.getElem?_append_left]
      · exact ih hk
      · rw [length_blocks]
        have hle := Finset.sum_le_sum_of_subset (f := c) (Finset.range_mono hk)
        rw [Nat.succ_eq_add_one, Finset.sum_range_succ] at hle
        omega
    · rw [List.getElem?_append_right (by rw [length_blocks]; exact Nat.le_add_right _ _), length_blocks,
        Nat.add_sub_cancel_left, List.getElem?_replicate, if_pos hr]

/-- How often a kind stands among the first `m` entries. -/
theorem count_take_blocks {n j : ℕ} (hj : j < n) (m : ℕ) :
    ((blocks c n).take m).count j = min (c j) (m - ∑ i ∈ Finset.range j, c i) := by
  induction n with
  | zero => exact absurd hj (Nat.not_lt_zero j)
  | succ n ih =>
    rw [blocks_succ, List.take_append, List.count_append, length_blocks, List.take_replicate,
      List.count_replicate]
    rcases Nat.lt_succ_iff_lt_or_eq.mp hj with hj | rfl
    · rw [if_neg (by simpa using hj.ne'), ih hj, Nat.add_zero]
    · have hnone : ((blocks c j).take m).count j = 0 :=
        List.count_eq_zero.mpr fun hmem => absurd (lt_of_mem_blocks (List.mem_of_mem_take hmem)) (lt_irrefl j)
      rw [if_pos (beq_self_eq_true j), hnone, Nat.zero_add, Nat.min_comm]

end Blocks
