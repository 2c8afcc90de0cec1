import Mathlib.Algebra.Order.Ring.Nat
import Mathlib.Order.Monotone.Basic
import Mathlib.Tactic.Ring

/-!
# Integers as doubles

An unsigned integer that becomes a double is rounded to 53 binary digits: to the nearest such number, and
to the one with an even last digit halfway between two (`ofNat`). The conversion keeps the order
(`ofNat_mono`), but not distinctness.
-/

namespace Binary64

/-- The multiple of `2 ^ e` nearest to `n`, halfway between two the one with an even quotient. -/
def roundTo (e n : ℕ) : ℕ :=
  if 2 * (n % 2 ^ e) < 2 ^ e ∨ 2 * (n % 2 ^ e) = 2 ^ e ∧ n / 2 ^ e % 2 = 0 then n / 2 ^ e * 2 ^ e
  else (n / 2 ^ e + 1) * 2 ^ e

/-- The number of binary digits of `n` after the first 53. -/
def excess (n : ℕ) : ℕ := n.log2 + 1 - 53

/-- The double nearest to `n`. -/
def ofNat (n : ℕ) : ℕ := roundTo (excess n) n

theorem le_roundTo (e n : ℕ) : n / 2 ^ e * 2 ^ e ≤ roundTo e n := by
  unfold roundTo
  split
  · exact le_rfl
  · exact Nat.mul_le_mul_right _ (Nat.le_succ _)

theorem roundTo_le (e n : ℕ) : roundTo e n ≤ (n / 2 ^ e + 1) * 2 ^ e := by
  unfold roundTo
  split
  · exact Nat.mul_le_mul_right _ (Nat.le_succ _)
  · exact le_rfl

theorem roundTo_mono (e : ℕ) : Monotone (roundTo e) := by
  intro n m hle
  rcases (Nat.div_le_div_right hle : n / 2 ^ e ≤ m / 2 ^ e).lt_or_eq with hlt | heq
  · exact (roundTo_le e n).trans ((Nat.mul_le_mul_right _ hlt).trans (le_roundTo e m))
  · -- between the same two multiples of `2 ^ e`
    have hmod : n % 2 ^ e ≤ m % 2 ^ e := by
      have hn := Nat.div_add_mod n (2 ^ e)
      have hm := Nat.div_add_mod m (2 ^ e)
      rw [heq] at hn
      omega
    unfold roundTo
    rw [heq]
    split_ifs with hdown hup
    · exact le_rfl
    · exact Nat.mul_le_mul_right _ (Nat.le_succ _)
    · omega
    · exact le_rfl

/-- Rounding does not leave the powers of two around a number. -/
theorem ofNat_mem_Icc {n : ℕ} (hn : n ≠ 0) : 2 ^ n.log2 ≤ ofNat n ∧ ofNat n ≤ 2 ^ (n.log2 + 1) := by
  have hexcess : excess n ≤ n.log2 := by
    unfold excess
    omega
  obtain ⟨k, hk⟩ := Nat.exists_eq_add_of_le hexcess
  have hpow : 2 ^ n.log2 = 2 ^ k * 2 ^ excess n := by rw [← pow_add, Nat.add_comm, ← hk]
  have hpos : 0 < 2 ^ excess n := Nat.two_pow_pos _
  constructor
  · rw [hpow]
    refine (Nat.mul_le_mul_right _ ?_).trans (le_roundTo (excess n) n)
    rw [Nat.le_div_iff_mul_le hpos, ← hpow]
    exact Nat.log2_self_le hn
  · have hpow' : 2 ^ (n.log2 + 1) = 2 ^ (k + 1) * 2 ^ excess n := by rw [pow_succ, hpow]; ring
    rw [hpow']
    refine (roundTo_le (excess n) n).trans (Nat.mul_le_mul_right _ ?_)
    rw [Nat.succ_le_iff, Nat.div_lt_iff_lt_mul hpos, ← hpow']
    exact Nat.lt_log2_self

/-- Later times do not become earlier ones. -/
theorem ofNat_mono : Monotone ofNat := by
  intro n m hle
  rcases Nat.eq_zero_or_pos n with rfl | hn
  · exact Nat.zero_le _
  have hm : m ≠ 0 := (hn.trans_le hle).ne'
  have hlog : n.log2 ≤ m.log2 := (Nat.le_log2 hm).mpr ((Nat.log2_self_le hn.ne').trans hle)
  rcases hlog.lt_or_eq with hlt | heq
  · exact (ofNat_mem_Icc hn.ne').2.trans
      ((Nat.pow_le_pow_right two_pos hlt).trans (ofNat_mem_Icc hm).1)
  · have hsame : excess n = excess m := by rw [excess, excess, heq]
    rw [ofNat, ofNat, hsame]
    exact roundTo_mono _ hle

/-- A double that an unsigned integer becomes, with its value. -/
abbrev Integer := {x : ℕ // ∃ n, ofNat n = x}

/-- The conversion. -/
def toInteger (n : ℕ) : Integer := ⟨ofNat n, n, rfl⟩

theorem toInteger_mono : Monotone toInteger := ofNat_mono

/-- Two times of the year 2023, 100 ns apart. -/
example : ofNat 1700000000000000000 = ofNat 1700000000000000100 := by decide +kernel

end Binary64
