import Inconcretes.Applications.InvertedPendulum
import Inconcretes.BftKvs.Fusing
import Inconcretes.Utils.ReleaseLoop

/-!
# Pendulums on a host

`ivp1` puts several tasks on a processor, one released behind the other, and they share one instance of
`BFTKVS`. Their keys are the same: a task recognises its own versions by their times alone, since it
publishes for its next release. So the tasks stay apart as long as each of them has ended before the next one
is released (`Schedule.OnTime`).

A job reads with one `try_read` per entry and writes with one `try_write` per entry, each with a clock of its
own. `Host.job_spec` says what it leaves, and `Host.period_spec` what the jobs of a period leave.
-/

namespace Applications

open Achal Utils

/-! ## Texts and keys -/

/-- The texts of numbers, as strings of the store. A text need not keep its number, but what it reads as is kept
by its own text. -/
structure Texts where
  stod : Str → Except StodError ℚ
  toString : ℚ → Str
  sin : ℚ → ℚ
  cos : ℚ → ℚ
  stod_toString : ∀ x, ∃ y, stod (toString x) = .ok y ∧ stod (toString y) = .ok y
  nul_notMem : ∀ x, 0 ∉ toString x

namespace Texts

variable (T : Texts)

/-- What the tasks compute with. -/
def numbers : Numbers ℚ Str where
  toString := T.toString
  stod v := (T.stod v).toOption
  sin := T.sin
  cos := T.cos

/-- What `median_of_doubles` computes with. -/
abbrev doubles : Doubles := Doubles.exact T.stod T.toString

/-- A text that `std::to_string` returns. -/
def IsText (v : Str) : Prop := ∃ x, T.toString x = v

variable {T}

theorem numbers_stod {v : Str} {x : ℚ} : T.numbers.stod v = some x ↔ T.stod v = .ok x := toOption_eq_some

/-- A text reads as a number, which its own text keeps. -/
theorem IsText.exists_stod {v : Str} (h : T.IsText v) :
    ∃ x, T.stod v = .ok x ∧ T.stod (T.toString x) = .ok x := by
  obtain ⟨x, rfl⟩ := h
  exact T.stod_toString x

end Texts

/-- The bytes of a name. -/
def ascii (s : String) : Str := s.toList.map fun c => UInt8.ofNat c.toNat

/-- The key of an entry. -/
def Entry.name : Entry → Str
  | dAF => ascii "D:AF"
  | dAP => ascii "D:AP"
  | dAV => ascii "D:AV"
  | dCF => ascii "D:CF"
  | dCM => ascii "D:CM"
  | dCP => ascii "D:CP"
  | dCV => ascii "D:CV"
  | dG => ascii "D:G"
  | dLF => ascii "D:LF"
  | dM => ascii "D:M"
  | dPF => ascii "D:PF"
  | dRL => ascii "D:RL"
  | dTS => ascii "D:TS"
  | dTT => ascii "D:TT"
  | iI => ascii "I:I"
  | iKD => ascii "I:KD"
  | iKI => ascii "I:KI"
  | iKP => ascii "I:KP"
  | iPE => ascii "I:PE"

namespace Entry

theorem mem_all (e : Entry) : e ∈ all := by cases e <;> decide

theorem nodup_names : (all.map name).Nodup := by decide +kernel

theorem name_injective : Function.Injective name := fun e e' h =>
  List.inj_on_of_nodup_map nodup_names e.mem_all e'.mem_all h

theorem nul_notMem_name (e : Entry) : 0 ∉ e.name := by cases e <;> decide

end Entry

/-! ## Releases -/

/-- The releases of the tasks on a processor. The release of a task in period `k` is `release k`, counted from
the period in which all of them start. -/
structure Schedule (m : ℕ) where
  periodNs : Uint64
  offsetNs : Fin m → Uint64
  first : ℕ
  strictMono : StrictMono offsetNs
  /-- Each task is released once before any of them is released again. -/
  spread : ∀ i j, (offsetNs i).val < (offsetNs j).val + periodNs.val

namespace Schedule

variable {m : ℕ} (s : Schedule m)

def release (k : ℕ) (i : Fin m) : ℕ := (s.first + k) * s.periodNs.val + (s.offsetNs i).val

/-- A clock in a job of period `k`: the task has been released, and the tasks behind it have not. -/
structure OnTime (k : ℕ) (i : Fin m) (now : Uint64) : Prop where
  released : s.release k i ≤ now.val
  beforeNext : now.val < s.release (k + 1) i
  beforeOthers : ∀ j, i < j → now.val < s.release k j

variable {s} {k k' : ℕ} {i j : Fin m} {now : Uint64}

theorem release_succ : s.release (k + 1) i = s.release k i + s.periodNs.val := by
  rw [release, release, ← Nat.add_assoc, Nat.succ_mul]
  omega

theorem release_lt_of_lt (h : k < k') : s.release k i < s.release k' j := by
  have hspread := s.spread i j
  induction k', h using Nat.le_induction with
  | base =>
    show s.release k i < s.release (k + 1) j
    rw [release_succ, release, release]
    omega
  | succ k' _ ih =>
    rw [release_succ]
    omega

theorem release_le_iff : s.release k i ≤ s.release k j ↔ i ≤ j := by
  rw [release, release, Nat.add_le_add_iff_left]
  exact s.strictMono.le_iff_le

/-- Different releases are at different times. -/
theorem release_inj (h : s.release k i = s.release k' j) : k = k' ∧ i = j := by
  have hk : k = k' := by
    rcases Nat.lt_trichotomy k k' with hlt | heq | hgt
    · exact absurd h (release_lt_of_lt hlt).ne
    · exact heq
    · exact absurd h (release_lt_of_lt hgt).ne'
  subst hk
  exact ⟨rfl, le_antisymm (release_le_iff.mp h.le) (release_le_iff.mp h.ge)⟩

/-- On time, a job sees the releases up to its own. -/
theorem OnTime.release_le_iff (h : s.OnTime k i now) (hk : k' ≤ k) :
    s.release k' j ≤ now.val ↔ s.release k' j ≤ s.release k i := by
  refine ⟨fun hle => ?_, fun hle => hle.trans h.released⟩
  rcases Nat.lt_or_eq_of_le hk with hlt | rfl
  · exact (release_lt_of_lt hlt).le
  · by_contra hlater
    have hij : i < j := not_le.mp fun hji => hlater (Schedule.release_le_iff.mpr hji)
    exact absurd (h.beforeOthers j hij) (not_lt.mpr hle)

/-- A release as a time of the store. -/
def time (s : Schedule m) (k : ℕ) (i : Fin m) : Uint64 := Fin.ofNat (2 ^ 64) (s.release k i)

theorem val_time (hfits : s.release k i < 2 ^ 64) : (s.time k i).val = s.release k i := Nat.mod_eq_of_lt hfits

/-- The task of a schedule. -/
def task (s : Schedule m) (i : Fin m) : PeriodicTask := ⟨s.periodNs, s.offsetNs i⟩

theorem OnTime.val_myReleaseTime (h : s.OnTime k i now) :
    ((s.task i).myReleaseTime now).val = s.release k i := by
  have hoffset : s.offsetNs i ≤ now := (Nat.le_add_left _ _).trans h.released
  rw [PeriodicTask.val_myReleaseTime hoffset]
  refine Periodic.lastRelease_eq h.released ?_
  exact h.beforeNext

/-- A job publishes for the next release. -/
theorem OnTime.publishing_eq (h : s.OnTime k i now) :
    (s.task i).myReleaseTime now + s.periodNs = s.time (k + 1) i := by
  refine Fin.ext ?_
  rw [Fin.val_add, h.val_myReleaseTime, ← release_succ]
  rfl

/-- It reads from the last release on. -/
theorem OnTime.published_eq (h : s.OnTime (k + 1) i now) :
    (s.task i).myReleaseTime now - s.periodNs = s.time k i := by
  have hrelease := h.val_myReleaseTime
  have hnow := ((s.task i).myReleaseTime now).isLt
  rw [release_succ] at hrelease
  refine Fin.ext ?_
  rw [val_time (by omega)]
  have hle : s.periodNs ≤ (s.task i).myReleaseTime now := by
    show s.periodNs.val ≤ ((s.task i).myReleaseTime now).val
    omega
  rw [Fin.sub_val_of_le hle]
  omega

/-- **When the loops of a processor keep to the schedule.** The tasks start in the same period, and each job
ends before a task behind it is released and before the next multiple of the period. Then every clock that
job `k` of a task reads is on time in period `k`, and before the next release of every task. -/
theorem onTime_of_clocked {R : Fin m → Readings} {n : ℕ} (hp : 0 < s.periodNs)
    (hclocked : ∀ i, (s.task i).Clocked (R i) n)
    (hfirst : ∀ i, ((s.task i).next (R i) 0).val = s.release 0 i)
    (hperiod : ∀ i, ∀ k < n, ((R i).waits (k + 1)).val < (s.first + k + 1) * s.periodNs.val)
    (hothers : ∀ i j, i < j → ∀ k < n, ((R i).finishes k).val < s.release k j) (hk : k < n)
    (hstart : (R i).starts k ≤ now) (hfinish : now ≤ (R i).finishes k) :
    s.OnTime k i now ∧ ∀ j, now.val < s.release (k + 1) j := by
  have hrelease : ((s.task i).next (R i) k).val = s.release k i := by
    have hall := (PeriodicTask.next_spec hp (hclocked i)).2.2.mpr fun k hk => by
      have hends := hperiod i k hk
      rw [hfirst, release, Nat.add_zero]
      show ((R i).waits (k + 1)).val + (s.offsetNs i).val
        < s.first * s.periodNs.val + (s.offsetNs i).val + (k + 1) * s.periodNs.val
      rw [show s.first + k + 1 = s.first + (k + 1) from Nat.add_assoc _ _ _, Nat.add_mul] at hends
      omega
    rw [hall k hk.le, hfirst, release, release, Nat.add_zero, Nat.add_mul]
    show s.first * s.periodNs.val + (s.offsetNs i).val + k * s.periodNs.val = _
    omega
  have hwake := (hclocked i).wake k hk.le
  have hstarted := (hclocked i).start k hk.le
  have hended := (hclocked i).wait k hk
  have hnext : ∀ j, now.val < s.release (k + 1) j := fun j => by
    have hends := hperiod i k hk
    have hnow : now.val ≤ ((R i).waits (k + 1)).val := hfinish.trans hended
    rw [release]
    show now.val < (s.first + (k + 1)) * s.periodNs.val + (s.offsetNs j).val
    rw [← Nat.add_assoc]
    omega
  refine ⟨⟨?_, hnext i, fun j hj => ?_⟩, hnext⟩
  · rw [← hrelease]
    exact hwake.trans (hstarted.trans hstart)
  · exact lt_of_le_of_lt (show now.val ≤ ((R i).finishes k).val from hfinish) (hothers i j hj k hk)

/-- Two tasks with period 10, released at 12 and at 15. -/
def twoTasks : Schedule 2 where
  periodNs := 10
  offsetNs i := if i = 0 then 2 else 5
  first := 1
  strictMono := by unfold StrictMono; decide
  spread := by decide

/-- Their clocks: they start on the dot and run for 2 and for 3. -/
def twoTasksReadings (i : Fin 2) : Readings where
  waits k := if k = 0 then 5 else Fin.ofNat _ (10 * k + if i = 0 then 4 else 8)
  wakes k := Fin.ofNat _ (10 * k + if i = 0 then 12 else 15)
  starts k := Fin.ofNat _ (10 * k + if i = 0 then 12 else 15)
  finishes k := Fin.ofNat _ (10 * k + if i = 0 then 14 else 18)

theorem onTime_of_clocked_twoTasks : twoTasks.OnTime 1 1 27 ∧ ∀ j, 27 < twoTasks.release 2 j := by
  have hfits : ∀ i, ∀ k ≤ 2, (twoTasks.task i).Fits ((twoTasksReadings i).waits k) := by
    unfold PeriodicTask.Fits
    decide +kernel
  have hclocked : ∀ i, (twoTasks.task i).Clocked (twoTasksReadings i) 2 := fun i =>
    ⟨hfits i, by revert i; decide +kernel, by revert i; decide +kernel, by revert i; decide +kernel,
      by revert i; decide +kernel⟩
  exact onTime_of_clocked (by decide) hclocked (by decide +kernel) (by decide +kernel) (by decide +kernel)
    Nat.one_lt_two (by decide +kernel) (by decide +kernel)

end Schedule

/-! ## A host -/

/-- `successful_reads`, `failed_reads`, `successful_batch_reads` and `failed_batch_reads`, or those of the
writes. -/
structure Counters where
  successful : ℕ
  failed : ℕ
  successfulBatch : ℕ
  failedBatch : ℕ
  deriving DecidableEq

/-- The update of the statistics with `read_status` or `write_status`. -/
def Counters.add (c : Counters) (status : ℕ × ℕ) : Counters where
  successful := c.successful + status.1
  failed := c.failed + status.2
  successfulBatch := if status.2 = 0 then c.successfulBatch + 1 else c.successfulBatch
  failedBatch := if status.2 = 0 then c.failedBatch else c.failedBatch + 1

/-- The successes and failures of a batch. -/
def status (results : List Bool) : ℕ × ℕ := (results.count true, results.count false)

/-- A task with its statistics. -/
structure Task where
  sim : IvPSim ℚ Str
  reads : Counters
  writes : Counters

/-- An instance of the store and the tasks that use it. -/
structure Host (P : Params) (m : ℕ) where
  kvs : BFTKVS P
  /-- The writes accepted since the last job of the store. -/
  accepted : List Ktv
  tasks : Fin m → Task

/-- What a job gets from the clock and its timer. -/
structure JobClocks where
  publishing : Uint64
  published : Uint64
  read : Entry → Uint64
  write : Entry → Uint64
  lastInterArrivalNs : Uint64

variable {P : Params} {m : ℕ} (T : Texts)

/-- `kvs->try_write(it->first, publishing_time, it->second)` for all entries, with the results. Without a
result an assertion has failed. -/
def tryWriteAll (clock : Entry → Uint64) : List (Entry × Uint64 × Str) → BFTKVS P × List Ktv →
    Option ((BFTKVS P × List Ktv) × List Bool)
  | [], r => some (r, [])
  | (e, time, value) :: writes, (kvs, accepted) => do
    let (b, kvs) ← kvs.tryWrite (clock e) ⟨e.name, time, value⟩
    let (r, results) ← tryWriteAll clock writes
      (kvs, if b then accepted ++ [⟨e.name, time, value⟩] else accepted)
    return (r, b :: results)

namespace Task

variable (t : Task) (c : JobClocks) (store : Store)

/-- `try_read` of an entry. -/
def tryRead (e : Entry) (time : Uint64) (value : Str) : Bool × Str :=
  store.tryReadInto e.name time (c.read e) value

/-- What a job gets from outside. -/
def input : JobInput Str where
  publishingClock := c.publishing
  publishedClock := c.published
  tryRead e time value := (tryRead c store e time value).2
  lastInterArrivalNs := c.lastInterArrivalNs

/-- `published_time`. -/
def publishedTime : Uint64 := t.sim.myReleaseTime c.published - t.sim.timePeriodNs

/-- `read_status`. The first job reads nothing and counts all entries as read. -/
def readStatus : ℕ × ℕ :=
  if t.sim.numJobs = 0 then (Entry.all.length, 0)
  else status (Entry.all.map fun e => (tryRead c store e (t.publishedTime c) (t.sim.state e)).1)

end Task

namespace Host

/-- `job()` of a task. Without a result there was an exception or an assertion has failed. -/
def job (i : Fin m) (c : JobClocks) (h : Host P m) : Option (Host P m) := do
  let t := h.tasks i
  let store := h.kvs.ledger.store
  let (sim, writes) ← t.sim.job T.numbers (Task.input c store)
  let ((kvs, accepted), results) ← tryWriteAll c.write writes (h.kvs, h.accepted)
  return {
    kvs, accepted
    tasks := Function.update h.tasks i {
      sim
      reads := t.reads.add (t.readStatus c store)
      writes := t.writes.add (status results) } }

/-- The jobs that the tasks run within a period. -/
def period (clocks : Fin m → JobClocks) (h : Host P m) : Option (Host P m) :=
  (List.finRange m).foldlM (fun h i => h.job T i (clocks i)) h

/-- What `main` sets up. -/
structure IsNew (s : Schedule m) (h : Host P m) : Prop where
  kvs : h.kvs = BFTKVS.init
  accepted : h.accepted = []
  sim : ∀ i, IvPSim.new T.numbers s.periodNs (s.offsetNs i) = some (h.tasks i).sim
  reads : ∀ i, (h.tasks i).reads = ⟨0, 0, 0, 0⟩
  writes : ∀ i, (h.tasks i).writes = ⟨0, 0, 0, 0⟩

end Host

/-! ## What a job computes -/

namespace IvPSim

section Advance

variable {F V : Type} [Field F] [DecidableEq F] (N : Numbers F V)

/-- The entries that a job starts from. -/
def readState (sim : IvPSim F V) (i : JobInput V) : Entry → V :=
  if sim.numJobs = 0 then sim.state
  else fun e => i.tryRead e (sim.myReleaseTime i.publishedClock - sim.timePeriodNs) (sim.state e)

/-- The entries that it writes. -/
def advance (timePeriodNs : Uint64) (dt : F) (state : Entry → V) : Option (Entry → V) := do
  let state ← Dynamics.integrateForwardRungeKutta4 N state
  let _ ← N.stod (state .dAP)
  computeActrCmds N timePeriodNs dt state

theorem job_eq (sim : IvPSim F V) (i : JobInput V) :
    sim.job N i = (advance N sim.timePeriodNs (nsToSec i.lastInterArrivalNs * sim.multiplier)
        (sim.readState i)).map fun state =>
      ({ sim with numJobs := sim.numJobs + 1, state },
        Entry.all.map fun e => (e, sim.myReleaseTime i.publishingClock + sim.timePeriodNs, state e)) := by
  rw [job, advance, ← readState]
  cases hstate : Dynamics.integrateForwardRungeKutta4 N (sim.readState i) with
  | none => rfl
  | some state =>
    simp only [Option.bind_eq_bind, Option.bind_some]
    cases N.stod (state .dAP) with
    | none => rfl
    | some x => cases computeActrCmds N sim.timePeriodNs _ state <;> rfl

end Advance

end IvPSim

section Advance

variable {T} {state : Entry → Str}

theorem Texts.isText_update (h : ∀ e, T.IsText (state e)) (e : Entry) {v : Str} (hv : T.IsText v) (e' : Entry) :
    T.IsText (Function.update state e v e') := by
  by_cases he : e' = e
  · rw [he, Function.update_self]
    exact hv
  · rw [Function.update_of_ne he]
    exact h e'

theorem Texts.stod_of_isText (h : ∀ e, T.IsText (state e)) :
    ∃ x : Entry → ℚ, ∀ e, T.numbers.stod (state e) = some (x e) := by
  choose x hx _ using fun e => (h e).exists_stod
  exact ⟨x, fun e => Texts.numbers_stod.mpr (hx e)⟩

/-- The plant finds numbers in texts, and leaves texts. -/
theorem integrate_isText (h : ∀ e, T.IsText (state e)) :
    ∃ state', Dynamics.integrateForwardRungeKutta4 T.numbers state = some state'
      ∧ ∀ e, T.IsText (state' e) := by
  obtain ⟨x, hx⟩ := Texts.stod_of_isText h
  have htext : ∀ q, T.IsText (T.numbers.toString q) := fun q => ⟨q, rfl⟩
  simp only [Dynamics.integrateForwardRungeKutta4, Dynamics.read, hx, Option.bind_eq_bind, Option.bind_some,
    Option.pure_def, Function.update_of_ne, ne_eq, reduceCtorEq, not_false_eq_true]
  refine ⟨_, rfl, ?_⟩
  refine Texts.isText_update (Texts.isText_update (Texts.isText_update (Texts.isText_update
    (Texts.isText_update (Texts.isText_update h _ ?_) _ ?_) _ ?_) _ ?_) _ ?_) _ ?_
  all_goals first | exact htext _ | exact h _

/-- So does the controller. -/
theorem compute_isText (h : ∀ e, T.IsText (state e)) (timePeriodNs : Uint64) (dt : ℚ) :
    ∃ state', computeActrCmds T.numbers timePeriodNs dt state = some state' ∧ ∀ e, T.IsText (state' e) := by
  obtain ⟨x, hx⟩ := Texts.stod_of_isText h
  simp only [computeActrCmds, hx, Option.bind_eq_bind, Option.bind_some, Option.pure_def]
  exact ⟨_, rfl, Texts.isText_update h _ ⟨_, rfl⟩⟩

theorem IvPSim.advance_isText (h : ∀ e, T.IsText (state e)) (timePeriodNs : Uint64) (dt : ℚ) :
    ∃ state', IvPSim.advance T.numbers timePeriodNs dt state = some state' ∧ ∀ e, T.IsText (state' e) := by
  obtain ⟨moved, hmoved, htext⟩ := integrate_isText h
  obtain ⟨x, hx⟩ := Texts.stod_of_isText htext
  obtain ⟨state', hstate', htext'⟩ := compute_isText htext timePeriodNs dt
  refine ⟨state', ?_, htext'⟩
  rw [IvPSim.advance, hmoved, Option.bind_eq_bind, Option.bind_some, hx, Option.bind_eq_bind, Option.bind_some,
    hstate']

/-! ### States that read alike -/

/-- The texts of two states read as the same numbers. -/
def Texts.Alike (T : Texts) (state state' : Entry → Str) : Prop := ∀ e, T.stod (state e) = T.stod (state' e)

theorem Texts.Alike.update {state' : Entry → Str} (h : T.Alike state state') (e : Entry) {v v' : Str}
    (hv : T.stod v = T.stod v') : T.Alike (Function.update state e v) (Function.update state' e v') := by
  intro e'
  by_cases he : e' = e
  · rw [he, Function.update_self, Function.update_self]
    exact hv
  · rw [Function.update_of_ne he, Function.update_of_ne he]
    exact h e'

end Advance

/-! ## What a job leaves -/

section Job

variable {T} {s : Schedule m} {k : ℕ} {i : Fin m}

/-- What the accepted writes of a job are. -/
def published (time : Uint64) (state : Entry → Str) : List Ktv := Entry.all.map fun e => ⟨e.name, time, state e⟩

theorem length_published (time : Uint64) (state : Entry → Str) :
    (published time state).length = Entry.all.length := List.length_map _

/-- Writes in time are all accepted while there is room. -/
theorem tryWriteAll_spec {clock : Entry → Uint64} {writes : List (Entry × Uint64 × Str)} {kvs : BFTKVS P}
    {accepted : List Ktv} {r : BFTKVS P × List Ktv} {results : List Bool}
    (h : tryWriteAll clock writes (kvs, accepted) = some (r, results)) (hbuffered : kvs.Buffered accepted)
    (htime : ∀ x ∈ writes, clock x.1 < x.2.1) (hroom : accepted.length + writes.length ≤ P.NT) :
    r.1.tree = kvs.tree ∧ r.1.ledger = kvs.ledger ∧ r.1.Buffered r.2
      ∧ r.2 = accepted ++ writes.map (fun x => ⟨x.1.name, x.2.1, x.2.2⟩)
      ∧ results = List.replicate writes.length true := by
  induction writes generalizing kvs accepted results with
  | nil =>
    obtain ⟨rfl, rfl⟩ := Prod.mk.inj (Option.some.inj h)
    exact ⟨rfl, rfl, hbuffered, (List.append_nil _).symm, rfl⟩
  | cons x writes ih =>
    obtain ⟨e, time, value⟩ := x
    rw [List.length_cons] at hroom
    simp only [tryWriteAll, Option.bind_eq_bind, Option.bind_eq_some_iff] at h
    obtain ⟨⟨b, kvs'⟩, hwrite, ⟨r', results'⟩, hrest, heq⟩ := h
    obtain ⟨rfl, rfl⟩ := Prod.mk.inj (Option.some.inj heq)
    have hlength : kvs.unpublished.length.val = accepted.length := hbuffered.holds.1
    obtain rfl : b = true :=
      BFTKVS.accepted_of_tryWrite hwrite (htime _ List.mem_cons_self) (by omega)
    have hkeep : kvs'.tree = kvs.tree ∧ kvs'.ledger = kvs.ledger := by
      rcases BFTKVS.tryWrite_cases hwrite with ⟨hfalse, -⟩ | ⟨-, -, -, rfl⟩
      · cases hfalse
      · exact ⟨rfl, rfl⟩
    obtain ⟨htree, hledger, hbuffered', haccepted, hresults⟩ := ih hrest (hbuffered.tryWrite hwrite)
      (fun x hx => htime x (List.mem_cons_of_mem _ hx)) (by simp; omega)
    refine ⟨htree.trans hkeep.1, hledger.trans hkeep.2, hbuffered', ?_, ?_⟩
    · rw [haccepted]
      simp
    · rw [hresults]
      rfl

/-- All clocks of a job are on time. -/
structure JobClocks.OnTime (c : JobClocks) (s : Schedule m) (k : ℕ) (i : Fin m) : Prop where
  publishing : s.OnTime k i c.publishing
  published : s.OnTime k i c.published
  read : ∀ e, s.OnTime k i (c.read e)
  write : ∀ e, s.OnTime k i (c.write e)

/-- The task is that of the schedule. -/
structure Task.Scheduled (t : Task) (s : Schedule m) (i : Fin m) : Prop where
  timePeriodNs : t.sim.timePeriodNs = s.periodNs
  offsetNs : t.sim.offsetNs = s.offsetNs i

/-- The job of a task on a store. -/
structure Task.Runs (T : Texts) (store : Store) (c : JobClocks) (t t' : Task) : Prop where
  state : IvPSim.advance T.numbers t.sim.timePeriodNs (nsToSec c.lastInterArrivalNs * t.sim.multiplier)
    (t.sim.readState (Task.input c store)) = some t'.sim.state
  sim : t'.sim = { t.sim with numJobs := t.sim.numJobs + 1, state := t'.sim.state }
  reads : t'.reads = t.reads.add (t.readStatus c store)
  writes : t'.writes = t.writes.add (Entry.all.length, 0)

theorem status_replicate_true (n : ℕ) : status (List.replicate n true) = (n, 0) := by
  simp [status, List.count_replicate]

theorem Task.Runs.scheduled {store : Store} {c : JobClocks} {t t' : Task} (h : t.Runs T store c t')
    (hs : t.Scheduled s i) : t'.Scheduled s i := by
  constructor <;> rw [h.sim]
  · exact hs.timePeriodNs
  · exact hs.offsetNs

/-- A job on time, with its reads and writes in one piece. -/
theorem Host.job_eq {c : JobClocks} {h : Host P m} (hc : c.OnTime s k i) (hs : (h.tasks i).Scheduled s i) :
    h.job T i c = (IvPSim.advance T.numbers (h.tasks i).sim.timePeriodNs
        (nsToSec c.lastInterArrivalNs * (h.tasks i).sim.multiplier)
        ((h.tasks i).sim.readState (Task.input c h.kvs.ledger.store))).bind fun state =>
      (tryWriteAll c.write (Entry.all.map fun e => (e, s.time (k + 1) i, state e)) (h.kvs, h.accepted)).map
        fun r => {
          kvs := r.1.1
          accepted := r.1.2
          tasks := Function.update h.tasks i {
            sim := { (h.tasks i).sim with numJobs := (h.tasks i).sim.numJobs + 1, state }
            reads := (h.tasks i).reads.add ((h.tasks i).readStatus c h.kvs.ledger.store)
            writes := (h.tasks i).writes.add (status r.2) } } := by
  have hpublishing : (h.tasks i).sim.myReleaseTime c.publishing + (h.tasks i).sim.timePeriodNs
      = s.time (k + 1) i := by
    rw [IvPSim.myReleaseTime, hs.timePeriodNs, hs.offsetNs]
    exact hc.publishing.publishing_eq
  rw [Host.job, IvPSim.job_eq, show (Task.input c h.kvs.ledger.store).publishingClock = c.publishing from rfl,
    hpublishing]
  show Option.bind (Option.map _ (IvPSim.advance T.numbers _ (nsToSec c.lastInterArrivalNs * _) _)) _ = _
  cases IvPSim.advance T.numbers (h.tasks i).sim.timePeriodNs
      (nsToSec c.lastInterArrivalNs * (h.tasks i).sim.multiplier)
      ((h.tasks i).sim.readState (Task.input c h.kvs.ledger.store)) with
  | none => rfl
  | some state =>
    simp only [Option.map_some, Option.bind_some]
    cases tryWriteAll c.write (Entry.all.map fun e => (e, s.time (k + 1) i, state e)) (h.kvs, h.accepted) <;>
      rfl

/-- A job writes before the time for which it publishes. -/
theorem JobClocks.OnTime.write_lt {c : JobClocks} (hc : c.OnTime s k i) (hfits : s.release (k + 1) i < 2 ^ 64)
    (state : Entry → Str) :
    ∀ x ∈ Entry.all.map fun e => (e, s.time (k + 1) i, state e), c.write x.1 < x.2.1 := by
  intro x hx
  obtain ⟨e, -, rfl⟩ := List.mem_map.mp hx
  show (c.write e).val < (s.time (k + 1) i).val
  rw [Schedule.val_time hfits]
  exact (hc.write e).beforeNext

/-- What a job of a host leaves. -/
theorem Host.job_spec {c : JobClocks} {h h' : Host P m} (hjob : h.job T i c = some h') (hc : c.OnTime s k i)
    (hs : (h.tasks i).Scheduled s i) (hfits : s.release (k + 1) i < 2 ^ 64)
    (hbuffered : h.kvs.Buffered h.accepted) (hroom : h.accepted.length + Entry.all.length ≤ P.NT) :
    h'.kvs.tree = h.kvs.tree ∧ h'.kvs.ledger = h.kvs.ledger ∧ h'.kvs.Buffered h'.accepted
      ∧ h'.accepted = h.accepted ++ published (s.time (k + 1) i) (h'.tasks i).sim.state
      ∧ (h.tasks i).Runs T h.kvs.ledger.store c (h'.tasks i)
      ∧ ∀ j ≠ i, h'.tasks j = h.tasks j := by
  rw [Host.job_eq hc hs, Option.bind_eq_some_iff] at hjob
  obtain ⟨state, hstate, hrest⟩ := hjob
  obtain ⟨⟨r, results⟩, hwrites, rfl⟩ := Option.map_eq_some_iff.mp hrest
  obtain ⟨htree, hledger, hbuffered', haccepted, hresults⟩ :=
    tryWriteAll_spec hwrites hbuffered (hc.write_lt hfits state) (by rw [List.length_map]; exact hroom)
  refine ⟨htree, hledger, hbuffered', ?_, ?_, fun j hj => Function.update_of_ne hj ..⟩
  · dsimp only
    rw [Function.update_self, haccepted, List.map_map]
    rfl
  · dsimp only
    rw [Function.update_self]
    refine ⟨hstate, rfl, rfl, ?_⟩
    rw [hresults, List.length_map, status_replicate_true]

/-- What the jobs of some tasks leave. -/
theorem Host.jobs_spec {clocks : Fin m → JobClocks} {is : List (Fin m)} (hnodup : is.Nodup) {h h' : Host P m}
    (hjobs : is.foldlM (fun h i => h.job T i (clocks i)) h = some h')
    (hclocks : ∀ i, (clocks i).OnTime s k i) (hs : ∀ i, (h.tasks i).Scheduled s i)
    (hfits : ∀ i, s.release (k + 1) i < 2 ^ 64) (hbuffered : h.kvs.Buffered h.accepted)
    (hroom : h.accepted.length + is.length * Entry.all.length ≤ P.NT) :
    h'.kvs.tree = h.kvs.tree ∧ h'.kvs.ledger = h.kvs.ledger ∧ h'.kvs.Buffered h'.accepted
      ∧ h'.accepted = h.accepted ++ is.flatMap (fun i => published (s.time (k + 1) i) (h'.tasks i).sim.state)
      ∧ (∀ i ∈ is, (h.tasks i).Runs T h.kvs.ledger.store (clocks i) (h'.tasks i))
      ∧ ∀ j ∉ is, h'.tasks j = h.tasks j := by
  induction is generalizing h with
  | nil =>
    obtain rfl := Option.some.inj hjobs
    exact ⟨rfl, rfl, hbuffered, (List.append_nil _).symm, nofun, fun _ _ => rfl⟩
  | cons i is ih =>
    obtain ⟨hi, hnodup⟩ := List.nodup_cons.mp hnodup
    rw [List.length_cons, Nat.succ_mul] at hroom
    rw [List.foldlM_cons] at hjobs
    obtain ⟨h₁, hjob, hrest⟩ := Option.bind_eq_some_iff.mp hjobs
    obtain ⟨htree, hledger, hbuffered₁, haccepted, hruns, hothers⟩ :=
      Host.job_spec hjob (hclocks i) (hs i) (hfits i) hbuffered (by omega)
    have hs₁ : ∀ j, (h₁.tasks j).Scheduled s j := fun j => by
      by_cases hj : j = i
      · exact hj ▸ hruns.scheduled (hs i)
      · exact hothers j hj ▸ hs j
    have hroom₁ : h₁.accepted.length + is.length * Entry.all.length ≤ P.NT := by
      rw [haccepted, List.length_append, length_published]
      omega
    obtain ⟨htree', hledger', hbuffered', haccepted', hruns', hothers'⟩ := ih hnodup hrest hs₁ hbuffered₁ hroom₁
    refine ⟨htree'.trans htree, hledger'.trans hledger, hbuffered', ?_, ?_, ?_⟩
    · rw [haccepted', haccepted, List.flatMap_cons, hothers' i hi, List.append_assoc]
    · intro j hj
      rcases List.mem_cons.mp hj with rfl | hj
      · rw [hothers' j hi]
        exact hruns
      · have hne : j ≠ i := fun heq => hi (heq ▸ hj)
        have := hruns' j hj
        rwa [hledger, hothers j hne] at this
    · intro j hj
      rw [List.mem_cons, not_or] at hj
      rw [hothers' j hj.2, hothers j hj.1]

/-- **What a period leaves at a host.** -/
theorem Host.period_spec {clocks : Fin m → JobClocks} {h h' : Host P m} (hperiod : h.period T clocks = some h')
    (hclocks : ∀ i, (clocks i).OnTime s k i) (hs : ∀ i, (h.tasks i).Scheduled s i)
    (hfits : ∀ i, s.release (k + 1) i < 2 ^ 64) (hbuffered : h.kvs.Buffered []) (haccepted : h.accepted = [])
    (hroom : m * Entry.all.length ≤ P.NT) :
    h'.kvs.tree = h.kvs.tree ∧ h'.kvs.ledger = h.kvs.ledger ∧ h'.kvs.Buffered h'.accepted
      ∧ h'.accepted
        = (List.finRange m).flatMap (fun i => published (s.time (k + 1) i) (h'.tasks i).sim.state)
      ∧ ∀ i, (h.tasks i).Runs T h.kvs.ledger.store (clocks i) (h'.tasks i) := by
  obtain ⟨htree, hledger, hbuffered', haccepted', hruns, -⟩ := Host.jobs_spec (List.nodup_finRange m) hperiod
    hclocks hs hfits (haccepted.symm ▸ hbuffered) (by simpa [haccepted] using hroom)
  rw [haccepted, List.nil_append] at haccepted'
  exact ⟨htree, hledger, hbuffered', haccepted', fun i => hruns i (List.mem_finRange i)⟩

/-! ## When a job returns -/

end Job

end Applications
