import Inconcretes.Utils.PeriodicTimer

/-!
# The round timeouts of `ivp1`

`main` starts its instances of the store one after the other within a period, and each of them after the
tasks of its processor. It asserts that the tasks and the store fit into a period, but leaves the start of the
instance out of the sum. `BFTKVS` divides half of what the offset leaves of the period among the rounds, with
unsigned numbers: an offset behind the end of the period leaves almost `2 ^ 64` nanoseconds. So the rounds
end within the period exactly when the tasks fit into what is left of it behind the start of the instance
(`Args.roundsFit_iff`).
-/

namespace Ivp1

open Achal Utils

/-- `MS_TO_NS(t)`. -/
def msToNs (t : Uint64) : Uint64 := t * 1000000

/-- The members of `config_t` that decide the round timeouts. -/
structure KvsTiming where
  periodNs : Uint64
  offsetNs : Uint64
  maxRounds : UInt8

namespace KvsTiming

variable (c : KvsTiming)

/-- `one_round_us`. -/
def oneRoundUs : Uint64 := (c.periodNs - c.offsetNs) / 2 / toUint64 c.maxRounds.toNat / 1000

/-- The time after which the last round has timed out. -/
def allRoundsNs : ℕ := c.maxRounds.toNat * c.oneRoundUs.val * 1000

/-- All rounds together last at most half of what the offset leaves of the period, so a job that is released
at the offset has timed out of them before the period ends. -/
structure RoundsFit : Prop where
  offset_lt : c.offsetNs < c.periodNs
  rounds_le : c.allRoundsNs ≤ (c.periodNs.val - c.offsetNs.val) / 2
  timedOut : ∀ k : ℕ, k * c.periodNs.val + c.offsetNs.val + c.allRoundsNs < (k + 1) * c.periodNs.val

variable {c}

/-- Only an offset behind the end of the period is in the way. -/
theorem roundsFit_iff_offset_lt : c.RoundsFit ↔ c.offsetNs < c.periodNs := by
  refine ⟨RoundsFit.offset_lt, fun h => ?_⟩
  have hlt : c.offsetNs.val < c.periodNs.val := h
  have hround : c.oneRoundUs.val
      = (c.periodNs.val - c.offsetNs.val) / 2 / c.maxRounds.toNat / 1000 := by
    have hmax := c.maxRounds.toNat_lt
    have hrounds : (toUint64 c.maxRounds.toNat).val = c.maxRounds.toNat := by
      show ((c.maxRounds.toNat : ℤ) % 2 ^ 64).toNat % 2 ^ 64 = _
      omega
    rw [oneRoundUs, Fin.div_val, Fin.div_val, Fin.div_val, Fin.sub_val_of_le h.le, hrounds]
    rfl
  have hle : c.allRoundsNs ≤ (c.periodNs.val - c.offsetNs.val) / 2 := by
    rw [allRoundsNs, hround, Nat.mul_assoc]
    calc c.maxRounds.toNat * ((c.periodNs.val - c.offsetNs.val) / 2 / c.maxRounds.toNat / 1000 * 1000)
        ≤ c.maxRounds.toNat * ((c.periodNs.val - c.offsetNs.val) / 2 / c.maxRounds.toNat) :=
          Nat.mul_le_mul_left _ (Nat.div_mul_le_self _ _)
      _ ≤ (c.periodNs.val - c.offsetNs.val) / 2 := Nat.mul_div_le _ _
  refine ⟨h, hle, fun k => ?_⟩
  rw [Nat.succ_mul]
  omega

end KvsTiming

/-- The arguments of `main` that enter into the configuration of the store. -/
structure Args where
  periodMs : Uint64
  numTasksPerCpu : ℤ
  ivpTaskWcetMs : Uint64
  kvsTaskWcetMs : Uint64
  numNmrInstances : ℤ

namespace Args

variable (a : Args)

/-- `num_tasks_per_cpu * ivp_task_wcet_ms`. -/
def tasksMs : Uint64 := toUint64 a.numTasksPerCpu * a.ivpTaskWcetMs

/-- `nmr_specific_offset_ns`. -/
def nmrSpecificOffsetNs (nmrId : ℕ) : Uint64 :=
  toUint64 nmrId * (msToNs a.periodMs / toUint64 a.numNmrInstances)

/-- `bft_kvs_config` of an instance, with `BFT_KVS_DEFAULT_NUM_ROUNDS` rounds. Without a result the assertion
has failed. -/
def kvsTiming (nmrId : ℕ) : Option KvsTiming :=
  if a.tasksMs + a.kvsTaskWcetMs ≤ a.periodMs then
    some {
      periodNs := msToNs a.periodMs
      offsetNs := a.nmrSpecificOffsetNs nmrId + msToNs a.tasksMs
      maxRounds := 2 }
  else none

/-- The start of an instance within the period. -/
def startNs (nmrId : ℕ) : ℕ := nmrId * ((msToNs a.periodMs).val / a.numNmrInstances.toNat)

variable {a} {nmrId : ℕ}

theorem startNs_le (hid : (nmrId : ℤ) < a.numNmrInstances) : a.startNs nmrId ≤ (msToNs a.periodMs).val := by
  have hle : nmrId ≤ a.numNmrInstances.toNat := by omega
  exact (Nat.mul_le_mul_right _ hle).trans (Nat.mul_div_le _ _)

/-- The start does not overflow. -/
theorem val_nmrSpecificOffsetNs (hid : (nmrId : ℤ) < a.numNmrInstances) (hint : a.numNmrInstances < 2 ^ 31) :
    (a.nmrSpecificOffsetNs nmrId).val = a.startNs nmrId := by
  have hnum : (toUint64 a.numNmrInstances).val = a.numNmrInstances.toNat := by
    show (a.numNmrInstances % 2 ^ 64).toNat % 2 ^ 64 = _
    omega
  have hnmr : (toUint64 nmrId).val = nmrId := by
    show ((nmrId : ℤ) % 2 ^ 64).toNat % 2 ^ 64 = _
    omega
  have hlt := lt_of_le_of_lt (startNs_le hid) (msToNs a.periodMs).isLt
  rw [nmrSpecificOffsetNs, Fin.val_mul, Fin.div_val, hnum, hnmr]
  exact Nat.mod_eq_of_lt hlt

/-- **When the round timeouts fit into the period.** Exactly when the tasks of a processor take less time than
the start of the instance leaves of the period (or so much that adding the start wraps). -/
theorem roundsFit_iff (a : Args) {nmrId : ℕ} (hid : (nmrId : ℤ) < a.numNmrInstances)
    (hint : a.numNmrInstances < 2 ^ 31) {c : KvsTiming} (hc : a.kvsTiming nmrId = some c) :
    c.RoundsFit ↔ (msToNs a.tasksMs).val < (msToNs a.periodMs).val - a.startNs nmrId
      ∨ 2 ^ 64 - a.startNs nmrId ≤ (msToNs a.tasksMs).val := by
  have hstart := startNs_le hid
  have htasks := (msToNs a.tasksMs).isLt
  have hperiod := (msToNs a.periodMs).isLt
  have hval := val_nmrSpecificOffsetNs hid hint
  rw [KvsTiming.roundsFit_iff_offset_lt]
  unfold kvsTiming at hc
  split at hc
  · obtain rfl := Option.some.inj hc
    show (a.nmrSpecificOffsetNs nmrId + msToNs a.tasksMs).val < (msToNs a.periodMs).val ↔ _
    rw [Fin.val_add, hval]
    omega
  · cases hc

/-- The second of two instances, whose tasks end before the period does. -/
theorem roundsFit_secondOfTwo :
    ∃ a : Args, 1 < a.numNmrInstances ∧ ∃ c, a.kvsTiming 1 = some c ∧ c.RoundsFit := by
  have htiming : ∃ c, (⟨10, 1, 2, 1, 2⟩ : Args).kvsTiming 1 = some c := ⟨_, rfl⟩
  obtain ⟨c, hc⟩ := htiming
  exact ⟨_, by decide, c, hc, (roundsFit_iff _ (by decide) (by decide) hc).mpr (Or.inl (by decide))⟩

/-- The third of three instances starts at 6.67 ms, and the tasks take 8 of the 10 ms. -/
theorem not_roundsFit_thirdOfThree :
    ∃ a : Args, 0 < a.kvsTaskWcetMs ∧ 2 < a.numNmrInstances ∧ ∃ c, a.kvsTiming 2 = some c ∧ ¬ c.RoundsFit :=
  ⟨⟨10, 1, 8, 2, 3⟩, by decide, by decide, _, rfl, fun h => absurd h.offset_lt (by decide)⟩

end Args

end Ivp1
