import Mathlib.Data.Int.ModEq
import Mathlib.Data.Nat.ModEq
import Mathlib.Order.Bounds.Basic

/-!
# Release points

The release points of a period `p` and an offset `o` are the numbers `o + k * p`. The last one up to `t` is
`lastRelease p o t`, and the next one follows a period later (`isLeast_nextRelease`).
-/

namespace Periodic

variable {p o t : ℕ}

/-- The last release point up to `t`. -/
def lastRelease (p o t : ℕ) : ℕ := o + (t - o) / p * p

theorem lastRelease_zero (p t : ℕ) : lastRelease p 0 t = t / p * p := by
  rw [lastRelease, Nat.zero_add, Nat.sub_zero]

theorem lastRelease_add_mod (h : o ≤ t) : lastRelease p o t + (t - o) % p = t := by
  have := Nat.div_add_mod' (t - o) p
  unfold lastRelease
  omega

theorem lastRelease_le (h : o ≤ t) : lastRelease p o t ≤ t := by
  have := lastRelease_add_mod (p := p) h
  omega

theorem lt_lastRelease_add (hp : 0 < p) (h : o ≤ t) : t < lastRelease p o t + p := by
  have := lastRelease_add_mod (p := p) h
  have := Nat.mod_lt (t - o) hp
  omega

theorem lastRelease_modEq : lastRelease p o t ≡ o [MOD p] := by
  rw [lastRelease, Nat.ModEq, Nat.add_mul_mod_self_right]

/-- Release points are a period apart or more. -/
theorem le_of_modEq {r s : ℕ} (hmod : r ≡ s [MOD p]) (h : r < s + p) : r ≤ s := by
  by_contra hlt
  obtain ⟨k, hk⟩ := (Nat.modEq_iff_dvd' (by omega : s ≤ r)).mp hmod.symm
  have hpos : 0 < k := Nat.pos_of_ne_zero fun h0 => by rw [h0] at hk; omega
  have := Nat.le_mul_of_pos_right p hpos
  omega

theorem isGreatest_lastRelease (hp : 0 < p) (h : o ≤ t) :
    IsGreatest {r | r ≤ t ∧ r ≡ o [MOD p]} (lastRelease p o t) := by
  refine ⟨⟨lastRelease_le h, lastRelease_modEq⟩, fun r hr => ?_⟩
  refine le_of_modEq (hr.2.trans lastRelease_modEq.symm) ?_
  exact lt_of_le_of_lt hr.1 (lt_lastRelease_add hp h)

theorem isLeast_nextRelease (hp : 0 < p) (h : o ≤ t) :
    IsLeast {r | t < r ∧ r ≡ o [MOD p]} (lastRelease p o t + p) := by
  refine ⟨⟨lt_lastRelease_add hp h, ?_⟩, fun r hr => ?_⟩
  · exact Nat.ModEq.trans (Nat.add_mod_right _ _) lastRelease_modEq
  · by_contra hlt
    have hle := le_of_modEq (hr.2.trans lastRelease_modEq.symm) (not_le.mp hlt)
    exact absurd (hr.1.trans_le (hle.trans (lastRelease_le h))) (lt_irrefl t)

/-- Within a period the last release point is the first one. -/
theorem lastRelease_eq {k : ℕ} (hlo : k * p + o ≤ t) (hhi : t < (k + 1) * p + o) :
    lastRelease p o t = k * p + o := by
  have hk : (t - o) / p = k := Nat.div_eq_of_lt_le (by omega) (by omega)
  rw [lastRelease, hk, Nat.add_comm]

/-- Counting the periods before the offset is taken off finds the same one when the remainder covers the
offset, and a later one otherwise. -/
theorem sub_div_eq_iff (hp : 0 < p) (h : o ≤ t) : (t - o) / p = t / p ↔ o ≤ t % p := by
  have hdiv := Nat.div_add_mod t p
  have hmod := Nat.mod_lt t hp
  constructor
  · intro heq
    have hsub := Nat.div_mul_le_self (t - o) p
    rw [heq, Nat.mul_comm] at hsub
    omega
  · intro hle
    refine Nat.div_eq_of_lt_le ?_ ?_
    · rw [Nat.mul_comm]
      omega
    · rw [Nat.succ_mul, Nat.mul_comm]
      omega

/-! ## Two periods -/

/-- Times within one period of a divisor have the same last multiple. -/
theorem lastRelease_congr {b t' : ℕ} (hb : b ∣ p) (h : t / b = t' / b) :
    lastRelease p 0 t = lastRelease p 0 t' := by
  obtain ⟨m, rfl⟩ := hb
  rw [lastRelease_zero, lastRelease_zero, ← Nat.div_div_eq_div_mul, ← Nat.div_div_eq_div_mul, h]

theorem lastRelease_of_dvd (h : p ∣ t) : lastRelease p 0 t = t := by
  rw [lastRelease_zero, Nat.div_mul_cancel h]

/-- In a period of a divisor that begins with a multiple, this is the last one. -/
theorem lastRelease_of_div_eq {b J : ℕ} (hbpos : 0 < b) (hb : b ∣ p) (hp : p ∣ J * b) (h : t / b = J) :
    lastRelease p 0 t = J * b := by
  rw [lastRelease_congr hb (h.trans (Nat.mul_div_cancel J hbpos).symm), lastRelease_of_dvd hp]

theorem mod_le_mod_of_dvd {q : ℕ} (h : q ∣ p) (t : ℕ) : t % q ≤ t % p := by
  rw [← Nat.mod_mod_of_dvd t h]
  exact Nat.mod_le _ _

/-- It is enough to compare the remainders of the period itself. -/
theorem dvd_of_mod_le_mod {q : ℕ} (h : p % q ≤ p % p) : q ∣ p := by
  rw [Nat.mod_self] at h
  exact Nat.dvd_of_mod_eq_zero (Nat.le_zero.mp h)

/-- The last multiple of one period is not after that of another one when the remainders are not before. -/
theorem lastRelease_le_iff {q : ℕ} : lastRelease p 0 t ≤ lastRelease q 0 t ↔ t % q ≤ t % p := by
  have hp := lastRelease_add_mod (p := p) (Nat.zero_le t)
  have hq := lastRelease_add_mod (p := q) (Nat.zero_le t)
  rw [Nat.sub_zero] at hp hq
  omega

end Periodic
