import Inconcretes.BftKvs.Node
import Inconcretes.Lib.Periodic

/-!
# Release points of periodic tasks

A task is released at the points `offset_ns + k * time_period_ns`. `PeriodicTask::my_release_time` finds the
last one, taking off the offset before it counts the periods. `PeriodicTimer::get_next_release` counts the
periods first and adds the offset to the next multiple of the period. Between a multiple of the period and
the release point behind it the timer therefore passes over this release point
(`PeriodicTask.onTime_iff`).
-/

namespace Utils

open Achal Periodic

/-- `SEC_TO_NS(1)`. -/
abbrev secToNs : Uint64 := 1000000000

/-- `TimeSpec`. -/
structure TimeSpec where
  tvSec : ℤ
  tvNsec : ℤ

/-- A signed number as `uint64_t`. -/
def toUint64 (i : ℤ) : Uint64 := Fin.ofNat (2 ^ 64) (i % 2 ^ 64).toNat

namespace TimeSpec

/-- `TS_TO_NS(ts)`. -/
def toNs (ts : TimeSpec) : Uint64 := toUint64 ts.tvSec * secToNs + toUint64 ts.tvNsec

/-- Seconds and nanoseconds of a time. -/
def ofNs (ns : Uint64) : TimeSpec := ⟨(ns / secToNs).val, (ns % secToNs).val⟩

theorem toUint64_natCast (a : Uint64) : toUint64 a.val = a := by
  have ha := a.isLt
  refine Fin.ext ?_
  show ((a.val : ℤ) % 2 ^ 64).toNat % 2 ^ 64 = a.val
  omega

theorem toNs_ofNs (ns : Uint64) : (ofNs ns).toNs = ns := by
  have hns := ns.isLt
  rw [toNs, ofNs, toUint64_natCast, toUint64_natCast]
  refine Fin.ext ?_
  show (ns.val / 1000000000 * 1000000000 % 2 ^ 64 + ns.val % 1000000000) % 2 ^ 64 = ns.val
  omega

theorem ofNs_normalised (ns : Uint64) : 0 ≤ (ofNs ns).tvNsec ∧ (ofNs ns).tvNsec < 1000000000 := by
  have hmod : (ns % secToNs).val < 1000000000 := Nat.mod_lt ns.val (by norm_num)
  exact ⟨Int.natCast_nonneg _, Int.ofNat_lt.mpr hmod⟩

end TimeSpec

/-- The members of `PeriodicTimer` that its constructor sets. -/
structure PeriodicTimer where
  timePeriodNs : Uint64
  offsetNs : Uint64

/-- `get_next_release(&now_ts, &next_ts, true)`. -/
def PeriodicTimer.getNextRelease (t : PeriodicTimer) (nowTs : TimeSpec) : TimeSpec :=
  TimeSpec.ofNs ((nowTs.toNs / t.timePeriodNs + 1) * t.timePeriodNs + t.offsetNs)

/-- The members of `PeriodicTask` that decide when it is released. -/
structure PeriodicTask where
  timePeriodNs : Uint64
  offsetNs : Uint64

namespace PeriodicTask

variable (t : PeriodicTask)

/-- `timer`. -/
def timer : PeriodicTimer := ⟨t.timePeriodNs, t.offsetNs⟩

/-- `my_release_time()` when the clock shows `now`. -/
def myReleaseTime (now : Uint64) : Uint64 :=
  t.offsetNs + (now - t.offsetNs) / t.timePeriodNs * t.timePeriodNs

/-- The timer finds the release point that follows `my_release_time()`, when both read the same clock. -/
structure OnTime (nowTs : TimeSpec) : Prop where
  least : IsLeast {r : ℕ | nowTs.toNs.val < r ∧ r ≡ t.offsetNs [MOD t.timePeriodNs]}
    (t.timer.getNextRelease nowTs).toNs
  task : (t.timer.getNextRelease nowTs).toNs = t.myReleaseTime nowTs.toNs + t.timePeriodNs
  normalised : 0 ≤ (t.timer.getNextRelease nowTs).tvNsec ∧ (t.timer.getNextRelease nowTs).tvNsec < 1000000000
  /-- A job that is released at one release point and ends before the next one is released there. -/
  job : ∀ k : ℕ, k * t.timePeriodNs.val + t.offsetNs.val ≤ nowTs.toNs.val →
    nowTs.toNs.val < (k + 1) * t.timePeriodNs.val + t.offsetNs.val →
      (t.timer.getNextRelease nowTs).toNs.val = (k + 1) * t.timePeriodNs.val + t.offsetNs.val

/-- No intermediate result of `get_next_release` overflows. -/
def Fits (now : Uint64) : Prop :=
  (now.val / t.timePeriodNs.val + 1) * t.timePeriodNs.val + t.offsetNs.val < 2 ^ 64

variable {t} {nowTs : TimeSpec}

theorem val_getNextRelease (hp : 0 < t.timePeriodNs) (h : t.Fits nowTs.toNs) :
    (t.timer.getNextRelease nowTs).toNs.val
      = (nowTs.toNs.val / t.timePeriodNs.val + 1) * t.timePeriodNs.val + t.offsetNs.val := by
  unfold Fits at h
  have hle : nowTs.toNs.val / t.timePeriodNs.val + 1
      ≤ (nowTs.toNs.val / t.timePeriodNs.val + 1) * t.timePeriodNs.val := Nat.le_mul_of_pos_right _ hp
  rw [PeriodicTimer.getNextRelease, TimeSpec.toNs_ofNs, timer, Fin.val_add, Fin.val_mul, Fin.val_add,
    Fin.div_val]
  show ((nowTs.toNs.val / t.timePeriodNs.val + 1) % 2 ^ 64 * t.timePeriodNs.val % 2 ^ 64 + t.offsetNs.val)
    % 2 ^ 64 = _
  rw [Nat.mod_eq_of_lt (by omega : nowTs.toNs.val / t.timePeriodNs.val + 1 < 2 ^ 64),
    Nat.mod_eq_of_lt (lt_of_le_of_lt (Nat.le_add_right _ _) h), Nat.mod_eq_of_lt h]

theorem val_myReleaseTime {now : Uint64} (h : t.offsetNs ≤ now) :
    (t.myReleaseTime now).val = lastRelease t.timePeriodNs.val t.offsetNs.val now.val := by
  have hle : lastRelease t.timePeriodNs.val t.offsetNs.val now.val ≤ now.val := lastRelease_le h
  have hnow := now.isLt
  unfold lastRelease at hle ⊢
  rw [myReleaseTime, Fin.val_add, Fin.val_mul, Fin.div_val, Fin.sub_val_of_le h,
    Nat.mod_eq_of_lt (by omega : (now.val - t.offsetNs.val) / t.timePeriodNs.val * t.timePeriodNs.val < 2 ^ 64),
    Nat.mod_eq_of_lt (by omega)]

/-- The timer finds the next release point when both count the same periods. -/
theorem val_getNextRelease_eq_iff (hp : 0 < t.timePeriodNs) (hnow : t.offsetNs ≤ nowTs.toNs)
    (hfits : t.Fits nowTs.toNs) :
    (t.timer.getNextRelease nowTs).toNs.val
        = lastRelease t.timePeriodNs.val t.offsetNs.val nowTs.toNs.val + t.timePeriodNs.val
      ↔ t.offsetNs ≤ nowTs.toNs % t.timePeriodNs := by
  have hp' : 0 < t.timePeriodNs.val := hp
  have hcond : t.offsetNs ≤ nowTs.toNs % t.timePeriodNs
      ↔ (nowTs.toNs.val - t.offsetNs.val) / t.timePeriodNs.val = nowTs.toNs.val / t.timePeriodNs.val :=
    (sub_div_eq_iff hp' hnow).symm
  rw [val_getNextRelease hp hfits, hcond, lastRelease, Nat.succ_mul]
  constructor
  · intro heq
    exact Nat.eq_of_mul_eq_mul_right hp' (by omega)
  · intro heq
    rw [heq]
    omega

/-- **When the timer is on time.** Exactly when the offset is no greater than the distance of `now` from the
last multiple of the period. -/
theorem onTime_iff (t : PeriodicTask) (nowTs : TimeSpec) (hp : 0 < t.timePeriodNs)
    (hnow : t.offsetNs ≤ nowTs.toNs) (hfits : t.Fits nowTs.toNs) :
    t.OnTime nowTs ↔ t.offsetNs ≤ nowTs.toNs % t.timePeriodNs := by
  have hleast := isLeast_nextRelease (show 0 < t.timePeriodNs.val from hp)
    (show t.offsetNs.val ≤ nowTs.toNs.val from hnow)
  rw [← val_getNextRelease_eq_iff hp hnow hfits]
  constructor
  · exact fun h => h.least.unique hleast
  · intro hnext
    refine ⟨?_, ?_, TimeSpec.ofNs_normalised _, fun k hlo hhi => ?_⟩
    · rw [hnext]
      exact hleast
    · have hlt := (t.timer.getNextRelease nowTs).toNs.isLt
      refine Fin.ext ?_
      rw [Fin.val_add, val_myReleaseTime hnow, ← hnext, Nat.mod_eq_of_lt hlt]
    · rw [hnext, lastRelease_eq hlo hhi, Nat.succ_mul]
      omega

/-- A job with period 10 and offset 3 that is released at 23 and ends at 25. -/
theorem onTime_beforeMultiple : (⟨10, 3⟩ : PeriodicTask).OnTime ⟨0, 25⟩ :=
  (onTime_iff ⟨10, 3⟩ ⟨0, 25⟩ (by decide) (by decide) (by unfold Fits; decide)).mpr (by decide)

/-- The same job ends at 31, and its next release point, 33, is skipped. -/
theorem not_onTime_behindMultiple :
    ((⟨10, 3⟩ : PeriodicTask).timer.getNextRelease ⟨0, 31⟩).toNs = 43
      ∧ ¬(⟨10, 3⟩ : PeriodicTask).OnTime ⟨0, 31⟩ := by
  have hnext : ((⟨10, 3⟩ : PeriodicTask).timer.getNextRelease ⟨0, 31⟩).toNs = 43 := by decide
  refine ⟨hnext, fun h => ?_⟩
  have := h.job 2 (by decide) (by decide)
  rw [hnext] at this
  exact absurd this (by decide)

end PeriodicTask

end Utils
