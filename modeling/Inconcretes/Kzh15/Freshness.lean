import Inconcretes.Kzh15.Task
import Inconcretes.Lib.Periodic

/-!
# Freshness constraints

A task that reads a label of another task does not accept a version from before the last release of the
task with the greater period. The writer publishes a version at every multiple of its period. When its
period divides that of the reader, or is greater, there is a multiple at or behind the constraint, so the
newest version is accepted. Otherwise the reader may have been released since, and rejects the newest version
as too old (`RunningTask.freshness_satisfiable_iff`).
-/

namespace KZH15

open Achal Periodic

namespace RunningTask

variable {t : RunningTask}

theorem val_releaseWithoutOffset (periodNs now : Uint64) :
    (now / periodNs * periodNs).val = lastRelease periodNs.val 0 now.val := by
  have hle := Nat.div_mul_le_self now.val periodNs.val
  rw [lastRelease_zero, Fin.val_mul, Fin.div_val, Nat.mod_eq_of_lt (lt_of_le_of_lt hle now.isLt)]

/-- A job publishes at the multiple of the period that follows its release. -/
theorem val_publishTime {now : Uint64}
    (h : lastRelease t.timePeriodNs.val 0 now.val + t.timePeriodNs.val < 2 ^ 64) :
    (t.release now).publishTime.val = lastRelease t.timePeriodNs.val 0 now.val + t.timePeriodNs.val := by
  have hval := val_releaseWithoutOffset t.timePeriodNs now
  rw [publishTime, Fin.val_add]
  show ((now / t.timePeriodNs * t.timePeriodNs).val + t.timePeriodNs.val) % 2 ^ 64 = _
  rw [hval, Nat.mod_eq_of_lt h]

/-- The constraint is the last release of the task with the greater period. -/
theorem val_noEarlierThan (reader : RunningTask) (i : ℕ) (now : Uint64) :
    ((reader.release now).noEarlierThan .rwInterTaskRead i now).val
      = if reader.timePeriodNs < reader.freshnessConstraints i then
          lastRelease (reader.freshnessConstraints i).val 0 now.val
        else lastRelease reader.timePeriodNs.val 0 now.val := by
  rw [noEarlierThan]
  show (if Access.rwInterTaskRead = Access.rwInterTaskRead ∧ reader.freshnessConstraints i > reader.timePeriodNs
    then othersReleaseTimeWithoutOffset (reader.freshnessConstraints i) now
    else reader.myReleaseTimeWithoutOffset now).val = _
  split
  · rename_i h
    rw [if_pos h.2]
    exact val_releaseWithoutOffset _ _
  · rename_i h
    rw [if_neg fun hlt => h ⟨rfl, hlt⟩]
    exact val_releaseWithoutOffset _ _

/-- The constraint on label `i` accepts the newest version of it, when the writer publishes one at every
multiple of its period (`val_publishTime`). -/
def Satisfiable (reader : RunningTask) (i : ℕ) (now : Uint64) : Prop :=
  ∀ newest : ℕ, IsGreatest {time | time ≤ now.val ∧ (reader.freshnessConstraints i).val ∣ time} newest →
    ((reader.release now).noEarlierThan .rwInterTaskRead i now).val ≤ newest

theorem isGreatest_multiple {p : ℕ} (hp : 0 < p) (t : ℕ) :
    IsGreatest {time | time ≤ t ∧ p ∣ time} (lastRelease p 0 t) := by
  have hset : {time | time ≤ t ∧ p ∣ time} = {time | time ≤ t ∧ time ≡ 0 [MOD p]} := by
    ext time
    rw [Set.mem_ofPred_eq, Set.mem_ofPred_eq, Nat.modEq_zero_iff_dvd]
  rw [hset]
  exact isGreatest_lastRelease hp (Nat.zero_le t)

/-- At one time: the writer is slower, or it has been released no later than the reader. -/
theorem satisfiable_iff {reader : RunningTask} {i : ℕ} (hw : 0 < reader.freshnessConstraints i) (now : Uint64) :
    reader.Satisfiable i now ↔ reader.timePeriodNs < reader.freshnessConstraints i
      ∨ now % reader.freshnessConstraints i ≤ now % reader.timePeriodNs := by
  have hgreatest := isGreatest_multiple (show 0 < (reader.freshnessConstraints i).val from hw) now.val
  have hsat : reader.Satisfiable i now
      ↔ ((reader.release now).noEarlierThan .rwInterTaskRead i now).val
        ≤ lastRelease (reader.freshnessConstraints i).val 0 now.val :=
    ⟨fun h => h _ hgreatest, fun h newest hnewest => h.trans (hnewest.unique hgreatest).ge⟩
  rw [hsat, val_noEarlierThan]
  split
  · rename_i hlt
    exact iff_of_true le_rfl (Or.inl hlt)
  · rename_i hge
    rw [lastRelease_le_iff]
    exact (or_iff_right hge).symm

/-- **When the freshness constraint can be met.** At a time `now`: the writer is slower than the reader, or has
been released no later. At all times: it is slower, or its period divides that of the reader. -/
theorem freshness_satisfiable_iff (reader : RunningTask) (i : ℕ) (hw : 0 < reader.freshnessConstraints i) :
    (∀ now, reader.Satisfiable i now ↔ reader.timePeriodNs < reader.freshnessConstraints i
        ∨ now % reader.freshnessConstraints i ≤ now % reader.timePeriodNs)
      ∧ ((∀ now, reader.Satisfiable i now) ↔ reader.timePeriodNs < reader.freshnessConstraints i
        ∨ (reader.freshnessConstraints i).val ∣ reader.timePeriodNs.val) := by
  refine ⟨satisfiable_iff hw, ?_⟩
  by_cases hlt : reader.timePeriodNs < reader.freshnessConstraints i
  · exact iff_of_true (fun now => (satisfiable_iff hw now).mpr (Or.inl hlt)) (Or.inl hlt)
  · simp only [satisfiable_iff hw, hlt, false_or]
    constructor
    · exact fun h => dvd_of_mod_le_mod (h reader.timePeriodNs)
    · exact fun h now => mod_le_mod_of_dvd h now.val

/-- A reader, and the period of the writer of what it reads. -/
def readerOf (readerNs writerNs : Uint64) : RunningTask :=
  .init ⟨readerNs, fun _ => [], fun _ => []⟩ fun _ => writerNs

/-- Periods of 10 ms and 5 ms. -/
theorem freshness_satisfiable_divisor : {now | (readerOf 10000000 5000000).Satisfiable 0 now} = Set.univ :=
  Set.eq_univ_of_forall
    ((freshness_satisfiable_iff (readerOf 10000000 5000000) 0 (by decide)).2.mpr (Or.inr (by decide)))

/-- Periods of 5 ms and 2 ms: at 5 ms the newest version is that of 4 ms, and the constraint is 5 ms. -/
theorem not_satisfiable_fiveTwo : ¬(readerOf 5000000 2000000).Satisfiable 0 5000000 := by
  intro h
  have hnewest := isGreatest_multiple (show 0 < 2000000 by norm_num) 5000000
  have hle := h _ hnewest
  rw [val_noEarlierThan] at hle
  exact absurd hle (by decide)

end RunningTask

end KZH15
