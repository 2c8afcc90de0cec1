import Mathlib.Algebra.BigOperators.Group.Finset.Piecewise
import Mathlib.Algebra.Order.BigOperators.Group.Finset

/-!
# Filling a buffer within quotas

Producers fill a buffer that is emptied from time to time. Each producer works in jobs, and a job of
producer `k` has at most `quota k` entries to put into the buffer. When a producer begins no job after it
has already worked since the buffer was last emptied, the buffer holds at most the sum of all quotas.
`Within` is the invariant of such a run, with one rule for each kind of step.
-/

namespace Quota

variable {ι : Type} [Fintype ι]

/-- The buffer has `filled` entries, producer `k` has `left k` entries to put, and it has been idle since
the last emptying unless `worked k`. -/
def Within (quota : ι → ℕ) (filled : ℕ) (left : ι → ℕ) (worked : ι → Prop) : Prop :=
  ∃ put : ι → ℕ, filled ≤ ∑ k, put k ∧ ∀ k, put k + left k ≤ quota k ∧ (¬worked k → put k = 0 ∧ left k = 0)

variable {quota : ι → ℕ} {filled : ℕ} {left : ι → ℕ} {worked : ι → Prop}

/-- The buffer is emptied. A producer in the middle of a job has worked from then on. -/
theorem within_empty (hquota : ∀ k, left k ≤ quota k) (hworked : ∀ k, ¬worked k → left k = 0) :
    Within quota 0 left worked :=
  ⟨fun _ => 0, Nat.zero_le _, fun k => ⟨(Nat.zero_add _).trans_le (hquota k), fun h => ⟨rfl, hworked k h⟩⟩⟩

/-- What is left of a job is within the quota. -/
theorem Within.left_le (h : Within quota filled left worked) (k : ι) : left k ≤ quota k := by
  obtain ⟨put, -, hput⟩ := h
  exact (Nat.le_add_left _ _).trans (hput k).1

/-- While a producer has something left, there is room. -/
theorem Within.filled_lt (h : Within quota filled left worked) {k : ι} (hleft : 0 < left k) :
    filled < ∑ k, quota k := by
  obtain ⟨put, hfilled, hput⟩ := h
  refine hfilled.trans_lt (Finset.sum_lt_sum (fun k _ => ?_) ⟨k, Finset.mem_univ k, ?_⟩)
  · exact (Nat.le_add_right _ _).trans (hput k).1
  · exact (Nat.lt_add_of_pos_right hleft).trans_le (hput k).1

theorem Within.mono {filled' : ℕ} (h : Within quota filled left worked) (hle : filled' ≤ filled) :
    Within quota filled' left worked := by
  obtain ⟨put, hfilled, hput⟩ := h
  exact ⟨put, hle.trans hfilled, hput⟩

variable [DecidableEq ι]

/-- A producer that has been idle begins a job. -/
theorem Within.begin (h : Within quota filled left worked) {k : ι} (hidle : ¬worked k) {n : ℕ}
    (hn : n ≤ quota k) {left' : ι → ℕ} {worked' : ι → Prop} (hleft : left' = Function.update left k n)
    (hworked : worked' = Function.update worked k True) : Within quota filled left' worked' := by
  subst hleft hworked
  obtain ⟨put, hfilled, hput⟩ := h
  refine ⟨put, hfilled, fun j => ?_⟩
  by_cases hj : j = k
  · subst hj
    rw [Function.update_self, Function.update_self, ((hput j).2 hidle).1, Nat.zero_add]
    exact ⟨hn, fun h => absurd trivial h⟩
  · rw [Function.update_of_ne hj, Function.update_of_ne hj]
    exact hput j

/-- A producer puts an entry. -/
theorem Within.put (h : Within quota filled left worked) {k : ι} {n : ℕ} (hn : left k = n + 1)
    {left' : ι → ℕ} (hleft : left' = Function.update left k n) :
    Within quota (filled + 1) left' worked := by
  subst hleft
  obtain ⟨put, hfilled, hput⟩ := h
  refine ⟨Function.update put k (put k + 1), ?_, fun j => ?_⟩
  · have hsum : ∑ j, put j = put k + ∑ j ∈ Finset.univ \ {k}, put j := by
      rw [← Finset.sum_update_of_mem (Finset.mem_univ k), Function.update_eq_self]
    rw [Finset.sum_update_of_mem (Finset.mem_univ k)]
    omega
  · by_cases hj : j = k
    · subst hj
      have hle := (hput j).1
      rw [Function.update_self, Function.update_self]
      refine ⟨by omega, fun hidle => ?_⟩
      have := ((hput j).2 hidle).2
      omega
    · rw [Function.update_of_ne hj, Function.update_of_ne hj]
      exact hput j

end Quota
