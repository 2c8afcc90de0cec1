import Inconcretes.Utils.PeriodicTimer
import Mathlib.Algebra.BigOperators.Group.Finset.Basic
import Mathlib.Algebra.Order.Field.Basic
import Mathlib.Tactic.FieldSimp
import Mathlib.Tactic.Ring

/-!
# The loop of a periodic task

`PeriodicTask::release` waits for a release point, runs the job, measures it and waits again, until the task
has run `max_jobs` jobs. It runs at most one job for each release point and never one early. It misses none as
long as it always waits again earlier than the next one by more than the offset (`PeriodicTask.next_spec`),
which a job that ends before the next release may fail to do. The statistics at the end are those of all jobs
(`release_measured`), and the inter-arrival times that the jobs read add up to the time that has passed
(`sum_interArrivalNs`).
-/

namespace Utils

open Achal Periodic

/-! ## Differences of times -/

/-- `timespecsub(tsp, usp, vsp)`. -/
def timespecsub (tsp usp : TimeSpec) : TimeSpec :=
  let sec := tsp.tvSec - usp.tvSec
  let nsec := tsp.tvNsec - usp.tvNsec
  if nsec < 0 then ⟨sec - 1, nsec + 1000000000⟩ else ⟨sec, nsec⟩

theorem TimeSpec.toNs_eq (ts : TimeSpec) :
    (ts.toNs.val : ℤ) = (ts.tvSec * 1000000000 + ts.tvNsec) % 2 ^ 64 := by
  have hsec : ((toUint64 ts.tvSec).val : ℤ) = ts.tvSec % 2 ^ 64 := by
    show (((ts.tvSec % 2 ^ 64).toNat % 2 ^ 64 : ℕ) : ℤ) = _
    omega
  have hnsec : ((toUint64 ts.tvNsec).val : ℤ) = ts.tvNsec % 2 ^ 64 := by
    show (((ts.tvNsec % 2 ^ 64).toNat % 2 ^ 64 : ℕ) : ℤ) = _
    omega
  rw [toNs, Fin.val_add, Fin.val_mul]
  push_cast
  rw [hsec, hnsec]
  have hns : ((secToNs.val : ℕ) : ℤ) = 1000000000 := rfl
  rw [hns]
  omega

/-- The difference in nanoseconds is that of the times, with the wrap of `uint64_t`. -/
theorem toNs_timespecsub (tsp usp : TimeSpec) : (timespecsub tsp usp).toNs = tsp.toNs - usp.toNs := by
  have hdiff : (timespecsub tsp usp).tvSec * 1000000000 + (timespecsub tsp usp).tvNsec
      = tsp.tvSec * 1000000000 + tsp.tvNsec - (usp.tvSec * 1000000000 + usp.tvNsec) := by
    unfold timespecsub
    dsimp only
    split
    · ring
    · ring
  have hl := TimeSpec.toNs_eq (timespecsub tsp usp)
  have ht := TimeSpec.toNs_eq tsp
  have hu := TimeSpec.toNs_eq usp
  rw [hdiff] at hl
  refine Fin.ext ?_
  rw [Fin.val_sub]
  have := tsp.toNs.isLt
  have := usp.toNs.isLt
  omega

/-! ## The loop -/

/-- `timespecisset(tsp)`. -/
def TimeSpec.isSet (ts : TimeSpec) : Bool := ts.tvSec ≠ 0 || ts.tvNsec ≠ 0

/-- The members of `PeriodicTimer` that change. -/
structure Activations where
  lastInterArrivalNs : Uint64
  lastActivationTs : TimeSpec

/-- After the constructor, or after `reset()`. -/
def Activations.initial : Activations := ⟨0, ⟨0, 0⟩⟩

/-- `update_stats()` when the clock shows `now`. -/
def Activations.updateStats (a : Activations) (now : TimeSpec) : Activations :=
  if a.lastActivationTs.isSet = false then { a with lastActivationTs := now }
  else ⟨(timespecsub now a.lastActivationTs).toNs, now⟩

/-- What a task reads from the clock: in `get_next_release` and in `update_stats` before its job `k`, and in
front of and behind this job. -/
structure Readings where
  waits : ℕ → Uint64
  wakes : ℕ → Uint64
  starts : ℕ → Uint64
  finishes : ℕ → Uint64

/-- `MAX_NUM_JOBS`. -/
abbrev maxNumJobs : Uint64 := 180000

/-- `std::numeric_limits<double>::max()`. -/
def greatestDouble : ℕ := (2 ^ 53 - 1) * 2 ^ 971

section Loop

variable (F : Type) [Field F] [LinearOrder F]

/-- The members of `PeriodicTask` that change. -/
structure Loop where
  numJobs : Uint64
  bcetMeasuredMs : F
  acetMeasuredMs : F
  wcetMeasuredMs : F
  etsMs : ℕ → F
  timer : Activations

/-- After the constructor. -/
def Loop.initial : Loop F := ⟨0, (greatestDouble : F), 0, 0, fun _ => 0, Activations.initial⟩

variable {F}

/-- `TS_TO_MS(&diff_ts)`. -/
def toMs (ns : Uint64) : F := (ns.val : F) / ((1000000 : ℕ) : F)

variable (R : Readings)

/-- The body of the loop, around a job that counts itself. Without a result the assertion has failed. -/
def Loop.body (collectEts : Bool) (l : Loop F) : Option (Loop F) :=
  let k := l.numJobs.val
  let numJobs := l.numJobs + 1
  let diffMs : F := toMs (timespecsub (TimeSpec.ofNs (R.finishes k)) (TimeSpec.ofNs (R.starts k))).toNs
  if numJobs ≤ maxNumJobs then some {
    numJobs
    acetMeasuredMs := (l.acetMeasuredMs * ((numJobs - 1).val : F) + diffMs) / (numJobs.val : F)
    bcetMeasuredMs := min l.bcetMeasuredMs diffMs
    wcetMeasuredMs := max l.wcetMeasuredMs diffMs
    etsMs := if collectEts then Function.update l.etsMs (numJobs - 1).val diffMs else l.etsMs
    timer := l.timer.updateStats (TimeSpec.ofNs (R.wakes (k + 1))) }
  else none

theorem Loop.numJobs_body {collectEts : Bool} {l l' : Loop F} (hlt : l.numJobs.val + 1 < 2 ^ 64)
    (h : l.body R collectEts = some l') : l'.numJobs.val = l.numJobs.val + 1 := by
  unfold body at h
  dsimp only at h
  split at h
  · obtain rfl := Option.some.inj h
    exact Nat.mod_eq_of_lt hlt
  · cases h

/-- `while(!terminate())`. -/
def Loop.run (maxJobs : Uint64) (collectEts : Bool) (l : Loop F) : Option (Loop F) :=
  if maxJobs ≤ l.numJobs then some l
  else match _h : l.body R collectEts with
    | none => none
    | some l' => Loop.run maxJobs collectEts l'
termination_by maxJobs.val - l.numJobs.val
decreasing_by
  have hmax := maxJobs.isLt
  have hlt : ¬maxJobs.val ≤ l.numJobs.val := ‹¬maxJobs ≤ l.numJobs›
  have := Loop.numJobs_body R (by omega) _h
  omega

/-- `release(release_ts)` from the first activation on. -/
def release (maxJobs : Uint64) (collectEts : Bool) : Option (Loop F) :=
  let l := Loop.initial F
  { l with timer := l.timer.updateStats (TimeSpec.ofNs (R.wakes 0)) }.run R maxJobs collectEts

/-! ## Statistics -/

variable {R}

/-- The activations up to job `k`. -/
def activations (R : Readings) : ℕ → Activations
  | 0 => Activations.initial.updateStats (TimeSpec.ofNs (R.wakes 0))
  | k + 1 => (activations R k).updateStats (TimeSpec.ofNs (R.wakes (k + 1)))

/-- The execution time of job `k`. -/
def execTimeMs (R : Readings) (k : ℕ) : F := toMs (R.finishes k - R.starts k)

/-- The statistics are those of the first `n` jobs. -/
structure Loop.Measured (R : Readings) (collectEts : Bool) (n : ℕ) (l : Loop F) : Prop where
  numJobs : l.numJobs.val = n
  acet : l.acetMeasuredMs * n = ∑ k ∈ Finset.range n, execTimeMs R k
  bcet : (∀ k < n, l.bcetMeasuredMs ≤ execTimeMs R k)
    ∧ (n = 0 ∧ l.bcetMeasuredMs = (greatestDouble : F) ∨ ∃ k < n, l.bcetMeasuredMs = execTimeMs R k)
  wcet : (∀ k < n, execTimeMs R k ≤ l.wcetMeasuredMs)
    ∧ (n = 0 ∧ l.wcetMeasuredMs = 0 ∨ ∃ k < n, l.wcetMeasuredMs = execTimeMs R k)
  ets : collectEts = true → ∀ k < n, l.etsMs k = execTimeMs R k
  timer : l.timer = activations R n

theorem Loop.Measured.initial (R : Readings) (collectEts : Bool) : Loop.Measured R collectEts 0
    { Loop.initial F with timer := (Loop.initial F).timer.updateStats (TimeSpec.ofNs (R.wakes 0)) } where
  numJobs := rfl
  acet := by simp
  bcet := ⟨nofun, Or.inl ⟨rfl, rfl⟩⟩
  wcet := ⟨nofun, Or.inl ⟨rfl, rfl⟩⟩
  ets _ := nofun
  timer := rfl

variable [IsStrictOrderedRing F]

theorem execTimeMs_nonneg (R : Readings) (k : ℕ) : (0 : F) ≤ execTimeMs R k := by
  unfold execTimeMs toMs
  positivity

/-- No execution time reaches the greatest double. -/
theorem execTimeMs_le (R : Readings) (k : ℕ) : (execTimeMs R k : F) ≤ (greatestDouble : F) := by
  have hval := (R.finishes k - R.starts k).isLt
  have hgreat : ∀ {a e : ℕ}, 1 ≤ a → 64 ≤ e → 2 ^ 64 ≤ a * 2 ^ e := fun ha he =>
    (Nat.pow_le_pow_right two_pos he).trans (Nat.le_mul_of_pos_left _ ha)
  calc execTimeMs R k ≤ ((R.finishes k - R.starts k).val : F) :=
        div_le_self (Nat.cast_nonneg _) (Nat.one_le_cast.mpr (by norm_num))
    _ ≤ (greatestDouble : F) := Nat.cast_le.mpr (hval.le.trans (hgreat (by norm_num) (by norm_num)))

/-- One job. -/
theorem Loop.Measured.body {collectEts : Bool} {n : ℕ} {l : Loop F} (h : l.Measured R collectEts n)
    (hn : n < 180000) : ∃ l', l.body R collectEts = some l' ∧ l'.Measured R collectEts (n + 1) := by
  have hnext : (l.numJobs + 1).val = n + 1 := by
    rw [Fin.val_add, h.numJobs]
    exact Nat.mod_eq_of_lt (by simp; omega)
  have hone : (1 : Uint64) ≤ l.numJobs + 1 := by
    show 1 ≤ (l.numJobs + 1).val
    omega
  have hprev : (l.numJobs + 1 - 1).val = n := by
    rw [Fin.sub_val_of_le hone, hnext]
    rfl
  have hle : l.numJobs + 1 ≤ maxNumJobs := by
    show (l.numJobs + 1).val ≤ 180000
    omega
  have hdiff : (toMs (timespecsub (TimeSpec.ofNs (R.finishes l.numJobs.val))
      (TimeSpec.ofNs (R.starts l.numJobs.val))).toNs : F) = execTimeMs R n := by
    rw [toNs_timespecsub, TimeSpec.toNs_ofNs, TimeSpec.toNs_ofNs, h.numJobs, execTimeMs]
  refine ⟨_, if_pos hle, ?_⟩
  constructor
  case numJobs => exact hnext
  case acet =>
    dsimp only
    have hne : ((n + 1 : ℕ) : F) ≠ 0 := Nat.cast_ne_zero.mpr n.succ_ne_zero
    rw [hdiff, hprev, hnext, div_mul_cancel₀ _ hne, h.acet, Finset.sum_range_succ]
  case bcet =>
    dsimp only
    rw [hdiff]
    refine ⟨fun k hk => ?_, Or.inr ?_⟩
    · rcases Nat.lt_succ_iff_lt_or_eq.mp hk with hk | rfl
      · exact (min_le_left _ _).trans (h.bcet.1 k hk)
      · exact min_le_right _ _
    · rcases h.bcet.2 with ⟨-, hfirst⟩ | ⟨k, hk, hbest⟩
      · exact ⟨n, n.lt_succ_self, min_eq_right (hfirst ▸ execTimeMs_le R n)⟩
      · rcases min_choice l.bcetMeasuredMs (execTimeMs R n) with hold | hnew
        · exact ⟨k, hk.trans n.lt_succ_self, hold.trans hbest⟩
        · exact ⟨n, n.lt_succ_self, hnew⟩
  case wcet =>
    dsimp only
    rw [hdiff]
    refine ⟨fun k hk => ?_, Or.inr ?_⟩
    · rcases Nat.lt_succ_iff_lt_or_eq.mp hk with hk | rfl
      · exact (h.wcet.1 k hk).trans (le_max_left _ _)
      · exact le_max_right _ _
    · rcases h.wcet.2 with ⟨-, hfirst⟩ | ⟨k, hk, hworst⟩
      · exact ⟨n, n.lt_succ_self, max_eq_right (hfirst ▸ execTimeMs_nonneg R n)⟩
      · rcases max_choice l.wcetMeasuredMs (execTimeMs R n) with hold | hnew
        · exact ⟨k, hk.trans n.lt_succ_self, hold.trans hworst⟩
        · exact ⟨n, n.lt_succ_self, hnew⟩
  case ets =>
    intro hcollect k hk
    dsimp only
    rw [if_pos hcollect, hprev, hdiff]
    rcases Nat.lt_succ_iff_lt_or_eq.mp hk with hk | rfl
    · rw [Function.update_of_ne hk.ne, h.ets hcollect k hk]
    · exact Function.update_self _ _ _
  case timer =>
    dsimp only
    rw [h.timer, h.numJobs]
    rfl

/-- The jobs up to `max_jobs`. -/
theorem Loop.Measured.run {maxJobs : Uint64} {collectEts : Bool} (hmax : maxJobs ≤ maxNumJobs) {n : ℕ}
    {l : Loop F} (h : l.Measured R collectEts n) (hn : n ≤ maxJobs.val) :
    ∃ l', l.run R maxJobs collectEts = some l' ∧ l'.Measured R collectEts maxJobs.val := by
  have hmax : maxJobs.val ≤ 180000 := hmax
  generalize hleft : maxJobs.val - n = left
  induction left generalizing n l with
  | zero =>
    obtain rfl : n = maxJobs.val := by omega
    exact ⟨l, by rw [Loop.run, if_pos (Fin.le_def.mpr h.numJobs.ge)], h⟩
  | succ left ih =>
    obtain ⟨l', hbody, hl'⟩ := h.body (by omega)
    obtain ⟨l'', hrun, hl''⟩ := ih hl' (by omega) (by omega)
    refine ⟨l'', ?_, hl''⟩
    have hgo : ¬maxJobs ≤ l.numJobs := by
      rw [Fin.le_def, h.numJobs]
      omega
    rw [Loop.run, if_neg hgo]
    split
    · rename_i hnone
      rw [hbody] at hnone
      cases hnone
    · rename_i hsome
      rw [hbody] at hsome
      rw [← Option.some.inj hsome, hrun]

/-- With too many jobs the assertion fails. -/
theorem Loop.Measured.run_none {maxJobs : Uint64} {collectEts : Bool} (hmax : maxNumJobs < maxJobs) {n : ℕ}
    {l : Loop F} (h : l.Measured R collectEts n) (hn : n ≤ 180000) : l.run R maxJobs collectEts = none := by
  have hmax : 180000 < maxJobs.val := hmax
  have hgo : ¬maxJobs ≤ l.numJobs := by
    rw [Fin.le_def, h.numJobs]
    omega
  generalize hleft : 180000 - n = left
  induction left generalizing n l with
  | zero =>
    have hfail : l.body R collectEts = none := by
      refine if_neg fun hle => ?_
      have hle : (l.numJobs.val + 1) % 2 ^ 64 ≤ 180000 := hle
      rw [h.numJobs] at hle
      omega
    rw [Loop.run, if_neg hgo]
    split
    · rfl
    · rename_i hsome
      rw [hfail] at hsome
      cases hsome
  | succ left ih =>
    obtain ⟨l', hbody, hl'⟩ := h.body (by omega)
    have hgo' : ¬maxJobs ≤ l'.numJobs := by
      rw [Fin.le_def, hl'.numJobs]
      omega
    rw [Loop.run, if_neg hgo]
    split
    · rfl
    · rename_i hsome
      rw [hbody] at hsome
      rw [← Option.some.inj hsome]
      exact ih hl' (by omega) hgo' (by omega)

/-- **The statistics of a task.** A task with at most `MAX_NUM_JOBS` jobs ends after exactly `max_jobs` jobs,
with the least, the mean and the greatest of their execution times, and with all of them if it collects
them; with more jobs its assertion fails. -/
theorem release_measured (R : Readings) (maxJobs : Uint64) (collectEts : Bool) :
    (maxJobs ≤ maxNumJobs → ∃ l : Loop F, release R maxJobs collectEts = some l
        ∧ l.Measured R collectEts maxJobs.val)
      ∧ (maxNumJobs < maxJobs → release (F := F) R maxJobs collectEts = none) :=
  ⟨fun hmax => (Loop.Measured.initial R collectEts).run hmax (Nat.zero_le _),
    fun hmax => (Loop.Measured.initial R collectEts).run_none hmax (Nat.zero_le _)⟩

/-- A task with period 10 and offset 3 is activated at 24 and at 34, misses the release point 43, and is
activated at 54. -/
def oneMissed : Readings where
  waits k := [15, 25, 41].getD k 0
  wakes k := [24, 34, 54].getD k 0
  starts k := [24, 34, 54].getD k 0
  finishes k := [25, 41, 55].getD k 0

theorem release_measured_oneMissed :
    ∃ l : Loop ℚ, release oneMissed 3 true = some l ∧ l.Measured oneMissed true 3 :=
  (release_measured oneMissed 3 true).1 (by decide)

end Loop

/-! ## Release points -/

namespace PeriodicTask

variable {t : PeriodicTask} {R : Readings} {n k : ℕ}

/-- The release point that the task waits for before job `k`. -/
def next (t : PeriodicTask) (R : Readings) (k : ℕ) : Uint64 :=
  (t.timer.getNextRelease (TimeSpec.ofNs (R.waits k))).toNs

/-- Up to job `n` the clock does not go back, no sleep ends early, and no time overflows. -/
structure Clocked (t : PeriodicTask) (R : Readings) (n : ℕ) : Prop where
  fits : ∀ k ≤ n, t.Fits (R.waits k)
  wake : ∀ k ≤ n, t.next R k ≤ R.wakes k
  start : ∀ k ≤ n, R.wakes k ≤ R.starts k
  finish : ∀ k ≤ n, R.starts k ≤ R.finishes k
  wait : ∀ k < n, R.finishes k ≤ R.waits (k + 1)

theorem val_next (hp : 0 < t.timePeriodNs) (h : t.Clocked R n) (hk : k ≤ n) : (t.next R k).val
    = ((R.waits k).val / t.timePeriodNs.val + 1) * t.timePeriodNs.val + t.offsetNs.val := by
  have hfits := h.fits k hk
  rw [← TimeSpec.toNs_ofNs (R.waits k)] at hfits
  rw [next, val_getNextRelease hp hfits, TimeSpec.toNs_ofNs]

/-- The first release point is a period after the start of the clock or later. -/
theorem Clocked.wakes_pos (hp : 0 < t.timePeriodNs) (h : t.Clocked R 0) : 0 < (R.wakes 0).val := by
  have hwake : (t.next R 0).val ≤ (R.wakes 0).val := h.wake 0 le_rfl
  have hp' : 0 < t.timePeriodNs.val := hp
  rw [val_next hp h le_rfl, Nat.succ_mul] at hwake
  omega

/-- A task waits again when its last release point has passed. -/
theorem Clocked.next_le_waits (h : t.Clocked R n) (hk : k < n) : (t.next R k).val ≤ (R.waits (k + 1)).val :=
  (h.wake k hk.le).trans ((h.start k hk.le).trans ((h.finish k hk.le).trans (h.wait k hk)))

/-- The loop runs at most one job for each release point. -/
theorem next_add_le (hp : 0 < t.timePeriodNs) (h : t.Clocked R n) (hk : k < n) :
    (t.next R k).val + t.timePeriodNs.val ≤ (t.next R (k + 1)).val := by
  have hp' : 0 < t.timePeriodNs.val := hp
  have hwaits := h.next_le_waits hk
  rw [val_next hp h hk.le] at hwaits ⊢
  rw [val_next hp h hk]
  have hperiods : (R.waits k).val / t.timePeriodNs.val + 1
      ≤ (R.waits (k + 1)).val / t.timePeriodNs.val := by
    rw [Nat.le_div_iff_mul_le hp']
    omega
  have hmul := Nat.mul_le_mul_right t.timePeriodNs.val hperiods
  rw [Nat.succ_mul ((R.waits (k + 1)).val / t.timePeriodNs.val)]
  omega

/-- The release points that a task waits for follow each other by a period as long as it waits again earlier
than the next one by more than the offset. -/
theorem next_succ_eq_iff (hp : 0 < t.timePeriodNs) (h : t.Clocked R n) (hk : k < n) :
    (t.next R (k + 1)).val = (t.next R k).val + t.timePeriodNs.val
      ↔ (R.waits (k + 1)).val + t.offsetNs.val < (t.next R k).val + t.timePeriodNs.val := by
  have hp' : 0 < t.timePeriodNs.val := hp
  have hwaits := h.next_le_waits hk
  rw [val_next hp h hk.le] at hwaits ⊢
  rw [val_next hp h hk, Nat.succ_mul ((R.waits (k + 1)).val / t.timePeriodNs.val)]
  generalize (R.waits k).val / t.timePeriodNs.val + 1 = m at hwaits ⊢
  constructor
  · intro heq
    have hdiv := Nat.div_add_mod' (R.waits (k + 1)).val t.timePeriodNs.val
    have hmod := Nat.mod_lt (R.waits (k + 1)).val hp'
    omega
  · intro hlt
    have hdiv : (R.waits (k + 1)).val / t.timePeriodNs.val = m :=
      Nat.div_eq_of_lt_le (by omega) (by rw [Nat.succ_mul]; omega)
    rw [hdiv]
    omega

/-- **When a task misses no release.** The release points that a task waits for in a run belong to its
offset and lie a period or more apart. They are consecutive exactly when the task always waits again earlier
than the next of them by more than the offset. -/
theorem next_spec (hp : 0 < t.timePeriodNs) (h : t.Clocked R n) :
    (∀ k ≤ n, (t.next R k).val ≡ t.offsetNs.val [MOD t.timePeriodNs.val])
      ∧ (∀ k < n, (t.next R k).val + t.timePeriodNs.val ≤ (t.next R (k + 1)).val)
      ∧ ((∀ k ≤ n, (t.next R k).val = (t.next R 0).val + k * t.timePeriodNs.val)
        ↔ ∀ k < n, (R.waits (k + 1)).val + t.offsetNs.val
          < (t.next R 0).val + (k + 1) * t.timePeriodNs.val) := by
  refine ⟨fun k hk => ?_, fun k hk => next_add_le hp h hk, ?_⟩
  · rw [val_next hp h hk, Nat.ModEq, Nat.add_comm, Nat.add_mul_mod_self_right]
  constructor
  · intro hall k hk
    have hiff := next_succ_eq_iff hp h hk
    rw [hall k hk.le, hall (k + 1) hk] at hiff
    have hlt := hiff.mp (by rw [Nat.succ_mul]; omega)
    rw [Nat.succ_mul]
    omega
  · intro hall k hk
    induction k with
    | zero => omega
    | succ k ih =>
      have hk' := ih (by omega)
      have hlt := hall k hk
      rw [Nat.succ_mul] at hlt ⊢
      have hnext := (next_succ_eq_iff hp h hk).mpr (by rw [hk']; omega)
      omega

theorem next_spec_oneMissed :
    (∀ k ≤ 2, ((⟨10, 3⟩ : PeriodicTask).next oneMissed k).val ≡ 3 [MOD 10])
      ∧ ¬∀ k ≤ 2, ((⟨10, 3⟩ : PeriodicTask).next oneMissed k).val = 23 + k * 10 := by
  have hclocked : (⟨10, 3⟩ : PeriodicTask).Clocked oneMissed 2 :=
    ⟨by unfold Fits; decide, by decide +kernel, by decide, by decide, by decide⟩
  have hspec := next_spec (by decide) hclocked
  exact ⟨hspec.1, fun hall => absurd (hspec.2.2.mp hall) (by decide +kernel)⟩

/-- In its job, a task finds the release point that it has waited for. -/
theorem myReleaseTime_eq_next (hp : 0 < t.timePeriodNs) (h : t.Clocked R n) (hk : k ≤ n) {now : Uint64}
    (hfrom : t.next R k ≤ now) (hto : now.val < (t.next R k).val + t.timePeriodNs.val) :
    t.myReleaseTime now = t.next R k := by
  have hfrom : (t.next R k).val ≤ now.val := hfrom
  have hval := val_next hp h hk
  refine Fin.ext ?_
  rw [val_myReleaseTime (show t.offsetNs.val ≤ now.val by omega), hval]
  exact lastRelease_eq (by omega) (by rw [Nat.succ_mul]; omega)

end PeriodicTask

/-! ## Inter-arrival times -/

section Activations

variable {t : PeriodicTask} {R : Readings}

/-- `timer->last_inter_arrival_ns` in job `k`. -/
def interArrivalNs (R : Readings) (k : ℕ) : Uint64 := (activations R k).lastInterArrivalNs

theorem isSet_ofNs {ns : Uint64} (h : ns ≠ 0) : (TimeSpec.ofNs ns).isSet = true := by
  rw [← Bool.not_eq_false]
  intro hclear
  refine h ?_
  rw [TimeSpec.isSet, Bool.or_eq_false_iff] at hclear
  have hzero : TimeSpec.ofNs ns = ⟨0, 0⟩ := by
    generalize TimeSpec.ofNs ns = ts at hclear ⊢
    cases ts
    simpa using hclear
  rw [← TimeSpec.toNs_ofNs ns, hzero]
  rfl

theorem lastActivationTs_activations (k : ℕ) :
    (activations R k).lastActivationTs = TimeSpec.ofNs (R.wakes k) := by
  cases k with
  | zero => rfl
  | succ k =>
    rw [activations, Activations.updateStats]
    split <;> rfl

/-- The first job reads 0, the others the time between the last two activations. -/
theorem interArrivalNs_succ {k : ℕ} (h : R.wakes k ≠ 0) :
    interArrivalNs R (k + 1) = R.wakes (k + 1) - R.wakes k := by
  rw [interArrivalNs, activations, Activations.updateStats, lastActivationTs_activations k,
    if_neg (by rw [isSet_ofNs h]; exact Bool.true_eq_false_eq_False), toNs_timespecsub,
    TimeSpec.toNs_ofNs, TimeSpec.toNs_ofNs]

/-- **Inter-arrival times add up.** When the first sleep does not end early and the clock does not go back, the
inter-arrival times that the jobs of a task read add up to the time since its first activation, however many
release points it has missed. -/
theorem sum_interArrivalNs (hp : 0 < t.timePeriodNs) (h : t.Clocked R 0) (n : ℕ)
    (hmono : ∀ k < n, R.wakes k ≤ R.wakes (k + 1)) :
    ∑ k ∈ Finset.range (n + 1), (interArrivalNs R k).val + (R.wakes 0).val = (R.wakes n).val := by
  have hpos := h.wakes_pos hp
  induction n with
  | zero =>
    have hfirst : interArrivalNs R 0 = 0 := rfl
    simp [hfirst]
  | succ n ih =>
    have hbefore := ih fun k hk => hmono k (hk.trans n.lt_succ_self)
    have hle : R.wakes n ≤ R.wakes (n + 1) := hmono n n.lt_succ_self
    have hval : (R.wakes n).val ≤ (R.wakes (n + 1)).val := hle
    have hposn : 0 < (R.wakes n).val := by omega
    have hne : R.wakes n ≠ 0 := Fin.pos_iff_ne_zero.mp hposn
    rw [Finset.sum_range_succ, interArrivalNs_succ hne, Fin.sub_val_of_le hle]
    omega

theorem sum_interArrivalNs_oneMissed :
    ∑ k ∈ Finset.range 3, (interArrivalNs oneMissed k).val + 24 = 54 :=
  sum_interArrivalNs (t := ⟨10, 3⟩) (by decide)
    ⟨by unfold PeriodicTask.Fits; decide, by decide +kernel, by decide, by decide, by decide⟩ 2 (by decide)

end Activations

end Utils
