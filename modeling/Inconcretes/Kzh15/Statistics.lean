import Inconcretes.Applications.PendulumHost
import Inconcretes.Kzh15.Capacity
import Inconcretes.Kzh15.Freshness
import Mathlib.Data.Bool.Count

/-!
# The statistics of the tasks

A `KZH15Task` counts the calls that fail in its jobs, and the jobs in which one fails. `Replica` is a processor
with these statistics, and with the writes that its store has accepted since its last job. The jobs of the tasks
are interleaved call by call.

`Benchmark` fixes the tasks of a run. When every task whose period begins in a period of the store runs its job
in it, all writes are accepted, the values of the labels stay what they are, and the statistics are those of the
jobs one by one, however they are interleaved (`Benchmark.Progress`).
-/

namespace KZH15

open Achal Periodic Applications

/-! ## Counting -/

/-- `num_jobs_to_ignore`. -/
def KZH15Task.numJobsToIgnore (t : KZH15Task) : ℕ := 2000000000 / t.timePeriodNs.val

/-- The lists whose labels a job reads. -/
def readAccesses : List Access := [.roRead, .rwIntraTaskRead, .rwInterTaskRead]

/-- The reads of a job. -/
def KZH15Task.numReads (t : KZH15Task) : ℕ :=
  (t.keys .roRead).length + (t.keys .rwInterTaskRead).length + (t.keys .rwIntraTaskRead).length

/-- The reads of a job that find nothing. -/
def KZH15Task.missed (t : KZH15Task) (found : Access → ℕ → Bool) : ℕ :=
  ([.roRead, .rwInterTaskRead, .rwIntraTaskRead].map fun a =>
    (List.range (t.keys a).length).countP fun i => !found a i).sum

/-- The statistics of a task. -/
structure Statistics where
  numJobs : ℕ
  /-- `read_status_1` to `read_status_3`. -/
  readStatus : Access → ℕ × ℕ
  /-- `write_status_1` to `write_status_4`. -/
  writeStatus : Access → ℕ × ℕ
  reads : Counters
  writes : Counters

/-- `INC_SUCCESS(stat)` or `INC_FAILURE(stat)`. -/
def incStatus (stat : ℕ × ℕ) (success : Bool) : ℕ × ℕ :=
  if success then (stat.1 + 1, stat.2) else (stat.1, stat.2 + 1)

/-- The update of the statistics with the statuses of several batches. -/
def addStatuses (c : Counters) (stats : List (ℕ × ℕ)) : Counters where
  successful := c.successful + (stats.map Prod.fst).sum
  failed := c.failed + (stats.map Prod.snd).sum
  successfulBatch := if ∀ stat ∈ stats, stat.2 = 0 then c.successfulBatch + 1 else c.successfulBatch
  failedBatch := if ∀ stat ∈ stats, stat.2 = 0 then c.failedBatch else c.failedBatch + 1

namespace Statistics

/-- The statistics of a new task. -/
def init : Statistics := ⟨0, fun _ => (0, 0), fun _ => (0, 0), ⟨0, 0, 0, 0⟩, ⟨0, 0, 0, 0⟩⟩

/-- A call has returned. -/
def returned (s : Statistics) (success : Bool) : KZH15Task.Operation → Statistics
  | .tryRead a _ =>
    { s with readStatus := Function.update s.readStatus a (incStatus (s.readStatus a) success) }
  | .tryWrite a _ =>
    { s with writeStatus := Function.update s.writeStatus a (incStatus (s.writeStatus a) success) }

/-- What `job()` does between its reads and its writes. -/
def closeReads (s : Statistics) (t : KZH15Task) : Statistics :=
  -- with `<=`, one job more than `num_jobs_to_ignore` is ignored
  let readStatus := if s.numJobs ≤ t.numJobsToIgnore then fun a => ((t.keys a).length, 0) else s.readStatus
  { s with
    reads := addStatuses s.reads
      [readStatus .roRead, readStatus .rwInterTaskRead, readStatus .rwIntraTaskRead]
    readStatus := fun _ => (0, 0) }

/-- What `job()` does after its writes. -/
def closeWrites (s : Statistics) : Statistics :=
  { s with
    writes := addStatuses s.writes [s.writeStatus .woWritten, s.writeStatus .rwInterTaskWritten,
      s.writeStatus .rwIntraTaskWritten, s.writeStatus .roRead]
    writeStatus := fun _ => (0, 0)
    numJobs := s.numJobs + 1 }

/-- What `job()` does before its next call. It is `reading` at its begin and after a read. -/
def goOn (s : Statistics) (t : KZH15Task) (reading : Bool) (rest : List KZH15Task.Operation) : Statistics :=
  -- also in a job without reads
  let s := if reading && rest.all KZH15Task.Operation.isWrite then s.closeReads t else s
  if rest.isEmpty then s.closeWrites else s

end Statistics

/-! ## Replicas -/

/-- What the call `op` of task `k` returns. -/
def Cpu.returns {P : Params} {n : ℕ} (s : Cpu P n) (k : Fin n) (clock now : Uint64) :
    KZH15Task.Operation → Bool
  | .tryRead a i => ((s.tasks k).keys a)[i]?.any fun key =>
      (s.kvs.ledger.store.tryRead key ((s.tasks k).noEarlierThan a i clock) now).isSome
  | .tryWrite a i => ((s.tasks k).tuple a i).any fun w => (s.kvs.tryWrite now w).any Prod.fst

/-- A processor with the writes accepted since the last job of its store and the statistics of its tasks. -/
structure Replica (P : Params) (n : ℕ) where
  cpu : Cpu P n
  accepted : List Ktv
  statistics : Fin n → Statistics

namespace Replica

variable {S : Shape} {P : Params} {n : ℕ}

/-- A new processor. -/
def init (tasks : Fin n → KZH15Task) (constraints : Fin n → ℕ → Uint64) : Replica P n where
  cpu := Cpu.init tasks constraints
  accepted := []
  statistics _ := Statistics.init

/-- The writes accepted after an event. -/
def acceptedAfter (r : Replica P n) : Event S P n → List Ktv
  | .kvsJob .. => []
  | .release .. => r.accepted
  | .proceed k clock now =>
    r.accepted ++ ((r.cpu.written (.proceed k clock now : Event S P n)).filter fun w =>
      (r.cpu.kvs.tryWrite now w).any Prod.fst).toList

/-- The statistics after an event. -/
def statisticsAfter (r : Replica P n) : Event S P n → Fin n → Statistics
  | .kvsJob .. => r.statistics
  | .release k _ =>
    let t := (r.cpu.tasks k).toKZH15Task
    Function.update r.statistics k ((r.statistics k).goOn t true t.job)
  | .proceed k clock now =>
    match (r.cpu.tasks k).pending with
    | [] => r.statistics
    | op :: rest => Function.update r.statistics k
        (((r.statistics k).returned (r.cpu.returns k clock now op) op).goOn (r.cpu.tasks k).toKZH15Task
          (!op.isWrite) rest)

/-- One event. Without a result an assertion has failed. -/
def exec (crc : List UInt8 → UInt32) (pid : Fin S.degree) (r : Replica P n) (e : Event S P n) :
    Option (Replica P n) := do
  let cpu ← r.cpu.exec crc pid e
  return { cpu, accepted := r.acceptedAfter e, statistics := r.statisticsAfter e }

/-- An event of a task in period `J` of the store: the clock shows a time in it. The job of a task begins when
its period does. -/
def InPeriod (basePeriodNs J : ℕ) (r : Replica P n) : Event S P n → Prop
  | .kvsJob .. => False
  | .release k now => now.val / basePeriodNs = J ∧ (r.cpu.tasks k).timePeriodNs.val ∣ J * basePeriodNs
  | .proceed _ clock now => clock.val / basePeriodNs = J ∧ now.val / basePeriodNs = J

/-- The tasks run in period `J` of the store. -/
inductive Works (crc : List UInt8 → UInt32) (pid : Fin S.degree) (basePeriodNs J : ℕ) (r : Replica P n) :
    Replica P n → Prop
  | refl : Works crc pid basePeriodNs J r r
  | tail {r₁ r₂ : Replica P n} (e : Event S P n) (h : Works crc pid basePeriodNs J r r₁)
    (henabled : r₁.cpu.Enabled e) (hperiod : r₁.InPeriod basePeriodNs J e)
    (hexec : r₁.exec crc pid e = some r₂) : Works crc pid basePeriodNs J r r₂

/-- The tasks whose periods begin with period `J` of the store have run their jobs, and no others. -/
def Rests (basePeriodNs J : ℕ) (r : Replica P n) : Prop :=
  ∀ k, (r.cpu.tasks k).pending = []
    ∧ ((r.cpu.tasks k).worked = true ↔ (r.cpu.tasks k).timePeriodNs.val ∣ J * basePeriodNs)

end Replica

/-! ## Benchmarks -/

/-- The tasks of a run. Each label has a value that it keeps, and is written by one task, which the freshness
constraints of the others name by its period. All periods are multiples of that of the store, which has room
for a job of each task. -/
structure Benchmark (P : Params) (n : ℕ) where
  tasks : Fin n → KZH15Task
  constraints : Fin n → ℕ → Uint64
  basePeriodNs : ℕ
  value : Str → Str
  basePeriodNs_pos : 0 < basePeriodNs
  period_pos : ∀ k, 0 < (tasks k).timePeriodNs.val
  dvd_period : ∀ k, basePeriodNs ∣ (tasks k).timePeriodNs.val
  fits : ∀ k, (tasks k).Fits P
  values_eq : ∀ k a, (tasks k).values a = ((tasks k).keys a).map value
  nulFree : ∀ k a, ∀ key ∈ (tasks k).keys a, 0 ∉ key ∧ 0 ∉ value key
  room : ∑ k, (tasks k).keysWritten.length ≤ P.NT
  eq_of_written : ∀ k k' key, key ∈ (tasks k).keysWritten → key ∈ (tasks k').keysWritten → k = k'
  intraTask : ∀ k, ∀ key ∈ (tasks k).keys .rwIntraTaskRead, key ∈ (tasks k).keysWritten
  interTask : ∀ k i key, ((tasks k).keys .rwInterTaskRead)[i]? = some key →
    ∃ w, key ∈ (tasks w).keysWritten ∧ constraints k i = (tasks w).timePeriodNs

namespace Benchmark

variable {P : Params} {n : ℕ} (B : Benchmark P n)

/-- The period of task `k`. -/
def period (k : Fin n) : ℕ := (B.tasks k).timePeriodNs.val

/-- The period of the task that writes a label which task `k` reads. -/
def writerPeriod (k : Fin n) (a : Access) (i : ℕ) : ℕ :=
  if a = .rwInterTaskRead then (B.constraints k i).val else B.period k

/-- The begin of period `J` of the store. -/
def start (J : ℕ) : ℕ := J * B.basePeriodNs

/-- No task is released within a period of the store. -/
theorem lastRelease_start {J t p : ℕ} (hp : B.basePeriodNs ∣ p) (h : t / B.basePeriodNs = J) :
    lastRelease p 0 t = lastRelease p 0 (B.start J) :=
  lastRelease_congr hp (h.trans (Nat.mul_div_cancel J B.basePeriodNs_pos).symm)

/-- What task `k` writes under a key when it is released in period `J`. -/
def publication (J : ℕ) (k : Fin n) (key : Str) : Ktv :=
  ⟨key, Fin.ofNat (2 ^ 64) (B.start J + B.period k), B.value key⟩

/-- The constraint of a read in period `J`. -/
def noEarlierThan (J : ℕ) (k : Fin n) (a : Access) (i : ℕ) : ℕ :=
  if a = .rwInterTaskRead ∧ B.period k < (B.constraints k i).val then
    lastRelease (B.constraints k i).val 0 (B.start J)
  else B.start J

/-- What the calls of task `k` return when `found` tells which reads find a version. -/
def outcome (found : Fin n → Access → ℕ → Bool) (k : Fin n) : KZH15Task.Operation → Bool
  | .tryRead a i => found k a i
  | .tryWrite .. => true

/-- The rest of a job, as the statistics see it. -/
def play (outcome : KZH15Task.Operation → Bool) (t : KZH15Task) :
    List KZH15Task.Operation → Statistics → Statistics
  | [], s => s
  | op :: rest, s => play outcome t rest ((s.returned (outcome op) op).goOn t (!op.isWrite) rest)

/-- The statistics after a job. -/
def afterJob (outcome : KZH15Task.Operation → Bool) (t : KZH15Task) (s : Statistics) : Statistics :=
  play outcome t t.job (s.goOn t true t.job)

/-- A store from which the reads in period `J` find what `found` tells: the values of the labels. -/
def Serves (J : ℕ) (found : Fin n → Access → ℕ → Bool) (store : Store) : Prop :=
  ∀ k, B.period k ∣ B.start J → ∀ a ∈ readAccesses, ∀ i key, ((B.tasks k).keys a)[i]? = some key →
    ∀ noEarlierThan now : Uint64, noEarlierThan.val = B.noEarlierThan J k a i →
      now.val / B.basePeriodNs = J →
      store.tryRead key noEarlierThan now = if found k a i then some (B.value key) else none

/-! ## A job alone -/

section Job

variable {f : KZH15Task.Operation → Bool} {t : KZH15Task}

/-- The calls of a part of a job have returned. -/
def tally (f : KZH15Task.Operation → Bool) (ops : List KZH15Task.Operation) (s : Statistics) : Statistics :=
  ops.foldl (fun s op => s.returned (f op) op) s

theorem tally_append (ops ops' : List KZH15Task.Operation) (s : Statistics) :
    tally f (ops ++ ops') s = tally f ops' (tally f ops s) := List.foldl_append

theorem addStatuses_eq (c : Counters) (stats : List (ℕ × ℕ)) :
    addStatuses c stats = c.add ((stats.map Prod.fst).sum, (stats.map Prod.snd).sum) := by
  have hzero : (∀ stat ∈ stats, stat.2 = 0) ↔ (stats.map Prod.snd).sum = 0 := by
    rw [List.sum_eq_zero_iff_forall_eq_nat, List.forall_mem_map]
  simp only [addStatuses, Counters.add, hzero]

theorem incStatus_eq (stat : ℕ × ℕ) (success : Bool) : incStatus stat success = stat + status [success] := by
  cases success <;> rfl

theorem status_cons (b : Bool) (results : List Bool) : status (b :: results) = status [b] + status results := by
  cases b <;> simp [status, Nat.add_comm 1]

theorem tally_tryRead (a : Access) (is : List ℕ) (s : Statistics) :
    tally f (is.map (.tryRead a)) s = { s with
      readStatus := Function.update s.readStatus a
        (s.readStatus a + status (is.map fun i => f (.tryRead a i))) } := by
  induction is generalizing s with
  | nil => exact congrArg (Statistics.mk _ · _ _ _) (Function.update_eq_self a s.readStatus).symm
  | cons i is ih =>
    rw [List.map_cons, tally, List.foldl_cons, ← tally, ih, List.map_cons, status_cons, ← add_assoc,
      ← incStatus_eq]
    simp only [Statistics.returned, Function.update_self, Function.update_idem]

theorem tally_tryWrite (a : Access) (is : List ℕ) (s : Statistics) :
    tally f (is.map (.tryWrite a)) s = { s with
      writeStatus := Function.update s.writeStatus a
        (s.writeStatus a + status (is.map fun i => f (.tryWrite a i))) } := by
  induction is generalizing s with
  | nil => exact congrArg (Statistics.mk _ _ · _ _) (Function.update_eq_self a s.writeStatus).symm
  | cons i is ih =>
    rw [List.map_cons, tally, List.foldl_cons, ← tally, ih, List.map_cons, status_cons, ← add_assoc,
      ← incStatus_eq]
    simp only [Statistics.returned, Function.update_self, Function.update_idem]

/-- Until the last read has returned, the statistics only count. -/
theorem play_reads {reads writes : List KZH15Task.Operation} (hreads : ∀ op ∈ reads, op.isWrite = false)
    (s : Statistics) : play f t (reads ++ writes) (s.goOn t true (reads ++ writes))
      = play f t writes ((tally f reads s).goOn t true writes) := by
  induction reads generalizing s with
  | nil => rfl
  | cons op reads ih =>
    obtain ⟨hop, hrest⟩ := List.forall_mem_cons.mp hreads
    have hskip : s.goOn t true (op :: reads ++ writes) = s := by
      simp [Statistics.goOn, hop]
    rw [hskip, List.cons_append, play, hop, Bool.not_false, ih hrest]
    rfl

theorem play_writes {writes : List KZH15Task.Operation} (hwrites : ∀ op ∈ writes, op.isWrite = true)
    (s : Statistics) : play f t writes (s.goOn t false writes) = (tally f writes s).closeWrites := by
  induction writes generalizing s with
  | nil => rfl
  | cons op writes ih =>
    obtain ⟨hop, hrest⟩ := List.forall_mem_cons.mp hwrites
    have hskip : s.goOn t false (op :: writes) = s := by
      simp [Statistics.goOn]
    rw [hskip, play, hop, Bool.not_true, ih hrest]
    rfl

/-- The reads of a job, then its writes. -/
theorem afterJob_eq (s : Statistics) : afterJob f t s
    = (tally f (t.tryWriteBatch .woWritten ++ (t.tryWriteBatch .rwInterTaskWritten
        ++ (t.tryWriteBatch .rwIntraTaskWritten ++ t.tryWriteBatch .roRead)))
      ((tally f (t.tryReadBatch .roRead ++ (t.tryReadBatch .rwIntraTaskRead
        ++ t.tryReadBatch .rwInterTaskRead)) s).closeReads t)).closeWrites := by
  have hread : ∀ a, ∀ op ∈ t.tryReadBatch a, op.isWrite = false := by
    simp [KZH15Task.tryReadBatch, KZH15Task.Operation.isWrite]
  have hwrite : ∀ a, ∀ op ∈ t.tryWriteBatch a, op.isWrite = true := by
    simp [KZH15Task.tryWriteBatch, KZH15Task.Operation.isWrite]
  have hreads : ∀ op ∈ t.tryReadBatch .roRead ++ (t.tryReadBatch .rwIntraTaskRead
      ++ t.tryReadBatch .rwInterTaskRead), op.isWrite = false := by
    simp only [List.forall_mem_append]
    exact ⟨hread _, hread _, hread _⟩
  have hwrites : ∀ op ∈ t.tryWriteBatch .woWritten ++ (t.tryWriteBatch .rwInterTaskWritten
      ++ (t.tryWriteBatch .rwIntraTaskWritten ++ t.tryWriteBatch .roRead)), op.isWrite = true := by
    simp only [List.forall_mem_append]
    exact ⟨hwrite _, hwrite _, hwrite _, hwrite _⟩
  have hclose : ∀ s : Statistics, ∀ writes : List KZH15Task.Operation, (∀ op ∈ writes, op.isWrite = true) →
      s.goOn t true writes = (s.closeReads t).goOn t false writes := by
    intro s writes hall
    rw [Statistics.goOn, List.all_eq_true.mpr hall]
    rfl
  rw [afterJob, KZH15Task.job]
  simp only [List.append_assoc]
  rw [← List.append_assoc, ← List.append_assoc, List.append_assoc (t.tryReadBatch .roRead), play_reads hreads,
    hclose _ _ hwrites, play_writes hwrites]

theorem tally_reads {s : Statistics} (h : s.readStatus = fun _ => (0, 0)) :
    tally f (t.tryReadBatch .roRead ++ (t.tryReadBatch .rwIntraTaskRead ++ t.tryReadBatch .rwInterTaskRead)) s
      = { s with readStatus := fun a => if a ∈ readAccesses then
            status ((List.range (t.keys a).length).map fun i => f (.tryRead a i)) else (0, 0) } := by
  simp only [tally_append, KZH15Task.tryReadBatch, tally_tryRead, h]
  refine congrArg (Statistics.mk _ · _ _ _) (funext fun a => ?_)
  cases a <;> simp [Function.update, readAccesses]

theorem tally_writes {s : Statistics} (h : s.writeStatus = fun _ => (0, 0)) :
    tally f (t.tryWriteBatch .woWritten ++ (t.tryWriteBatch .rwInterTaskWritten
        ++ (t.tryWriteBatch .rwIntraTaskWritten ++ t.tryWriteBatch .roRead))) s
      = { s with writeStatus := fun a => if a ∈ writtenAccesses then
            status ((List.range (t.keys a).length).map fun i => f (.tryWrite a i)) else (0, 0) } := by
  simp only [tally_append, KZH15Task.tryWriteBatch, tally_tryWrite, h]
  refine congrArg (Statistics.mk _ _ · _ _) (funext fun a => ?_)
  cases a <;> simp [Function.update, writtenAccesses]

/-- The reads of one list that find nothing. -/
theorem status_range (m : ℕ) (found : ℕ → Bool) : status ((List.range m).map found)
    = (m - (List.range m).countP fun i => !found i, (List.range m).countP fun i => !found i) := by
  have hfalse : ((List.range m).map found).count false = (List.range m).countP fun i => !found i := by
    rw [List.count, List.countP_map]
    exact List.countP_congr fun i _ => by simp
  have hboth := List.count_true_add_count_false ((List.range m).map found)
  rw [List.length_map, List.length_range, hfalse] at hboth
  rw [status, hfalse, Prod.mk.injEq]
  exact ⟨by omega, rfl⟩

/-- What a job adds to the statistics when all its writes are accepted. -/
theorem afterJob_outcome {found : Fin n → Access → ℕ → Bool} {k : Fin n} {s : Statistics}
    (hread : s.readStatus = fun _ => (0, 0)) (hwrite : s.writeStatus = fun _ => (0, 0)) :
    let missed := if s.numJobs ≤ t.numJobsToIgnore then 0 else t.missed (found k)
    afterJob (outcome found k) t s = {
      numJobs := s.numJobs + 1
      readStatus := fun _ => (0, 0)
      writeStatus := fun _ => (0, 0)
      reads := s.reads.add (t.numReads - missed, missed)
      writes := s.writes.add (t.keysWritten.length, 0) } := by
  intro missed
  have hle : ∀ a, ((List.range (t.keys a).length).countP fun i => !found k a i) ≤ (t.keys a).length :=
    fun a => (List.countP_le_length).trans List.length_range.le
  have hreads : ((tally (outcome found k) (t.tryReadBatch .roRead ++ (t.tryReadBatch .rwIntraTaskRead
      ++ t.tryReadBatch .rwInterTaskRead)) s).closeReads t)
        = { s with reads := s.reads.add (t.numReads - missed, missed), readStatus := fun _ => (0, 0) } := by
    rw [tally_reads hread]
    simp only [Statistics.closeReads, addStatuses_eq]
    by_cases hignore : s.numJobs ≤ t.numJobsToIgnore
    · simp [missed, hignore, KZH15Task.numReads, Nat.add_assoc]
    · have hro := hle .roRead
      have hinter := hle .rwInterTaskRead
      have hintra := hle .rwIntraTaskRead
      simp only [missed, hignore, if_false, readAccesses, outcome, status_range, KZH15Task.missed,
        KZH15Task.numReads]
      congr 2
      simp
      omega
  rw [afterJob_eq, hreads, tally_writes]
  · simp [Statistics.closeWrites, addStatuses_eq, outcome, writtenAccesses, status_replicate_true,
      KZH15Task.keysWritten]
  · exact hwrite

end Job

/-! ## A job among others -/

theorem mem_job {t : KZH15Task} {op : KZH15Task.Operation} : op ∈ t.job
    ↔ (∃ a ∈ readAccesses, ∃ i < (t.keys a).length, op = .tryRead a i)
      ∨ ∃ a ∈ writtenAccesses, ∃ i < (t.keys a).length, op = .tryWrite a i := by
  simp only [KZH15Task.job, KZH15Task.tryReadBatch, KZH15Task.tryWriteBatch, readAccesses, writtenAccesses,
    List.mem_append, List.mem_map, List.mem_range, List.mem_cons, List.not_mem_nil, or_false, or_assoc,
    exists_eq_or_imp, exists_eq_left, eq_comm (a := op)]

theorem mem_keysWritten {t : KZH15Task} {key : Str} :
    key ∈ t.keysWritten ↔ ∃ a ∈ writtenAccesses, key ∈ t.keys a := by
  simp [KZH15Task.keysWritten, writtenAccesses]

variable {B} in
/-- The label and its value are C strings. -/
theorem nulFree_of_written {k : Fin n} {key : Str} (h : key ∈ (B.tasks k).keysWritten) :
    0 ∉ key ∧ 0 ∉ B.value key := by
  obtain ⟨a, -, hkey⟩ := mem_keysWritten.mp h
  exact B.nulFree k a key hkey

/-- What is true of task `k` in period `J`, when it began the period with statistics `s₀`. -/
structure TaskProgress (J : ℕ) (found : Fin n → Access → ℕ → Bool) (k : Fin n) (s₀ : Statistics)
    (accepted : List Ktv) (t : RunningTask) (s : Statistics) : Prop where
  task : t.toKZH15Task = B.tasks k
  constraints : t.freshnessConstraints = B.constraints k
  idle : t.worked = false → t.pending = [] ∧ s = s₀
  due : t.worked = true → B.period k ∣ B.start J ∧ t.releaseTime.val = B.start J
  calls : ∀ op ∈ t.pending, op ∈ (B.tasks k).job
  /-- What is left of the job leads to the statistics that the job would have alone. -/
  statistics : t.worked = true →
    play (outcome found k) (B.tasks k) t.pending s = afterJob (outcome found k) (B.tasks k) s₀
  /-- What has not been written is still to be. -/
  complete : t.worked = true → ∀ key ∈ (B.tasks k).keysWritten, B.publication J k key ∈ accepted
    ∨ ∃ a i, .tryWrite a i ∈ t.pending ∧ ((B.tasks k).keys a)[i]? = some key

namespace TaskProgress

variable {B} {J : ℕ} {found : Fin n → Access → ℕ → Bool} {k : Fin n} {s₀ s : Statistics}
  {accepted accepted' : List Ktv} {t : RunningTask}

theorem mono (h : B.TaskProgress J found k s₀ accepted t s) (hsub : accepted ⊆ accepted') :
    B.TaskProgress J found k s₀ accepted' t s :=
  { h with complete := fun hworked key hkey => (h.complete hworked key hkey).imp_left fun hmem => hsub hmem }

/-- A task whose period begins is released. -/
theorem release (h : B.TaskProgress J found k s₀ accepted t s) (hidle : t.worked = false)
    (hdue : B.period k ∣ B.start J) {now : Uint64} (hnow : now.val / B.basePeriodNs = J) :
    B.TaskProgress J found k s₀ accepted (t.release now)
      (s.goOn t.toKZH15Task true t.toKZH15Task.job) where
  task := h.task
  constraints := h.constraints
  idle := nofun
  due _ := by
    refine ⟨hdue, ?_⟩
    have hval : (t.release now).releaseTime.val = lastRelease t.timePeriodNs.val 0 now.val :=
      RunningTask.val_releaseWithoutOffset t.timePeriodNs now
    rw [hval, h.task]
    exact lastRelease_of_div_eq B.basePeriodNs_pos (B.dvd_period k) hdue hnow
  calls op hop := h.task ▸ hop
  statistics _ := by rw [(h.idle hidle).2, h.task, afterJob, RunningTask.release, h.task]
  complete _ key hkey := by
    right
    obtain ⟨a, ha, hkey⟩ := mem_keysWritten.mp hkey
    obtain ⟨i, hi⟩ := List.mem_iff_getElem?.mp hkey
    refine ⟨a, i, ?_, hi⟩
    have hjob : (t.release now).pending = (B.tasks k).job := congrArg KZH15Task.job h.task
    rw [hjob]
    exact mem_job.mpr (Or.inr ⟨a, ha, i, (List.getElem?_eq_some_iff.mp hi).1, rfl⟩)

theorem worked_of_pending (h : B.TaskProgress J found k s₀ accepted t s) (hpending : t.pending ≠ []) :
    t.worked = true := by
  by_contra hidle
  exact hpending (h.idle (by simpa using hidle)).1

/-- A call returns. A write has been accepted. -/
theorem call (h : B.TaskProgress J found k s₀ accepted t s) {op : KZH15Task.Operation}
    {rest : List KZH15Task.Operation} (hop : t.pending = op :: rest) (hsub : accepted ⊆ accepted')
    (hwritten : ∀ a i key, op = .tryWrite a i → ((B.tasks k).keys a)[i]? = some key →
      B.publication J k key ∈ accepted') :
    B.TaskProgress J found k s₀ accepted' { t with pending := rest }
      ((s.returned (outcome found k op) op).goOn t.toKZH15Task (!op.isWrite) rest) where
  task := h.task
  constraints := h.constraints
  idle hidle := absurd (h.worked_of_pending (hop ▸ List.cons_ne_nil op rest)) (by simpa using hidle)
  due := h.due
  calls op' hop' := h.calls op' (hop ▸ List.mem_cons_of_mem _ hop')
  statistics hworked := by
    rw [← h.statistics hworked, hop, h.task]
    rfl
  complete hworked key hkey := by
    rcases h.complete hworked key hkey with hmem | ⟨a, i, hmem, hi⟩
    · exact Or.inl (hsub hmem)
    · rcases List.mem_cons.mp (hop ▸ hmem) with heq | hmem
      · exact Or.inl (hwritten a i key heq.symm hi)
      · exact Or.inr ⟨a, i, hmem, hi⟩

/-- The constraint that a read passes to the store. -/
theorem val_noEarlierThan (h : B.TaskProgress J found k s₀ accepted t s) (hworked : t.worked = true)
    {a : Access} {i : ℕ} {clock : Uint64} (hclock : clock.val / B.basePeriodNs = J)
    (hdvd : a = .rwInterTaskRead → B.basePeriodNs ∣ (B.constraints k i).val) :
    (t.noEarlierThan a i clock).val = B.noEarlierThan J k a i := by
  have htask : t.timePeriodNs.val = B.period k := by rw [h.task]; rfl
  rw [RunningTask.noEarlierThan, noEarlierThan, h.constraints]
  refine (apply_ite Fin.val _ _ _).trans ?_
  by_cases ha : a = .rwInterTaskRead ∧ B.period k < (B.constraints k i).val
  · rw [if_pos ⟨ha.1, show t.timePeriodNs.val < _ from htask ▸ ha.2⟩, if_pos ha,
      RunningTask.othersReleaseTimeWithoutOffset, RunningTask.val_releaseWithoutOffset]
    exact B.lastRelease_start (hdvd ha.1) hclock
  · rw [if_neg ha, if_neg fun hlate => ha ⟨hlate.1, htask ▸ hlate.2⟩]
    exact (h.due hworked).2

/-- A write passes the publication of its label to the store. -/
theorem tuple_eq (h : B.TaskProgress J found k s₀ accepted t s) (hworked : t.worked = true) {a : Access}
    {i : ℕ} {key : Str} (hkey : ((B.tasks k).keys a)[i]? = some key) :
    t.tuple a i = some (B.publication J k key) := by
  have hvalue : (t.values a)[i]? = some (B.value key) := by
    rw [h.task, B.values_eq, List.getElem?_map, hkey]
    rfl
  have htime : t.publishTime = (B.publication J k key).time := by
    refine Fin.ext ?_
    rw [RunningTask.publishTime, Fin.val_add, (h.due hworked).2, h.task]
    rfl
  rw [RunningTask.tuple, h.task, hkey, ← h.task, hvalue, htime]
  rfl

/-- A read leaves the values of the labels as they are. -/
theorem tryRead_eq (h : B.TaskProgress J found k s₀ accepted t s) {store : Store} {a : Access} {i : ℕ}
    {key : Str} (hkey : ((B.tasks k).keys a)[i]? = some key) {clock now : Uint64}
    (hread : ∀ value, store.tryRead key (t.noEarlierThan a i clock) now = some value → value = B.value key) :
    t.tryRead store a i clock now = some t := by
  have hvalue : (t.values a)[i]? = some (B.value key) := by
    rw [h.task, B.values_eq, List.getElem?_map, hkey]
    rfl
  have hsame : (store.tryReadInto key (t.noEarlierThan a i clock) now (B.value key)).2 = B.value key := by
    rw [Store.tryReadInto]
    split
    · rename_i value hfound
      exact hread value hfound
    · rfl
  have hkey' : (t.keys a)[i]? = some key := by rw [h.task, hkey]
  obtain ⟨hi, hget⟩ := List.getElem?_eq_some_iff.mp hvalue
  rw [RunningTask.tryRead, hkey', hvalue]
  dsimp only [Option.bind_eq_bind, Option.bind_some]
  rw [hsame, ← hget, List.set_getElem_self, Function.update_eq_self]
  rfl

end TaskProgress

/-! ## A period of a replica -/

/-- What is true of a replica in period `J`, which was `r₀` when the period began. -/
structure Progress (J : ℕ) (found : Fin n → Access → ℕ → Bool) (r₀ r : Replica P n) : Prop where
  tree : r.cpu.kvs.tree = r₀.cpu.kvs.tree
  ledger : r.cpu.kvs.ledger = r₀.cpu.kvs.ledger
  inv : r.cpu.Inv fun k => (B.tasks k).keysWritten.length
  buffered : r.cpu.kvs.Buffered r.accepted
  tasks : ∀ k, B.TaskProgress J found k (r₀.statistics k) r.accepted (r.cpu.tasks k) (r.statistics k)
  sound : ∀ w ∈ r.accepted, ∃ k, (r.cpu.tasks k).worked = true
    ∧ ∃ key ∈ (B.tasks k).keysWritten, w = B.publication J k key

namespace Progress

variable {B} {S : Shape} {J : ℕ} {found : Fin n → Access → ℕ → Bool} {r₀ r : Replica P n}
  (crc : List UInt8 → UInt32) (pid : Fin S.degree)

/-- A task is released. -/
theorem release (h : B.Progress J found r₀ r) {k : Fin n} {now : Uint64}
    (henabled : r.cpu.Enabled (.release k now : Event S P n))
    (hperiod : r.InPeriod B.basePeriodNs J (.release k now : Event S P n)) :
    ∃ r', r.exec crc pid (.release k now) = some r' ∧ B.Progress J found r₀ r' := by
  obtain ⟨hpending, hidle⟩ := henabled
  obtain ⟨hnow, hdue⟩ := hperiod
  obtain ⟨cpu, hexec, hinv⟩ := h.inv.release crc pid (k := k) now hidle
  obtain rfl := Option.some.inj hexec
  rw [(h.tasks k).task] at hdue
  have hrelease := (h.tasks k).release hidle hdue hnow
  refine ⟨_, rfl, h.tree, h.ledger, hinv, h.buffered, fun j => ?_, fun w hw => ?_⟩
  · dsimp only [Replica.statisticsAfter, Replica.acceptedAfter]
    by_cases hj : j = k
    · subst hj
      rw [Function.update_self, Function.update_self]
      exact hrelease
    · rw [Function.update_of_ne hj, Function.update_of_ne hj]
      exact h.tasks j
  · obtain ⟨j, hworked, hmem⟩ := h.sound w hw
    refine ⟨j, ?_, hmem⟩
    dsimp only
    by_cases hj : j = k
    · subst hj
      rw [Function.update_self]
      rfl
    · rw [Function.update_of_ne hj]
      exact hworked

/-- A call returns that has changed no more than the buffer. -/
theorem returned (h : B.Progress J found r₀ r) {k : Fin n} {op : KZH15Task.Operation}
    {rest : List KZH15Task.Operation} (hop : (r.cpu.tasks k).pending = op :: rest) {clock now : Uint64}
    {kvs : BFTKVS P} {accepted : List Ktv}
    (hperform : r.cpu.perform k rest clock now op
      = some ⟨kvs, Function.update r.cpu.tasks k { r.cpu.tasks k with pending := rest }⟩)
    (hreturns : r.cpu.returns k clock now op = outcome found k op)
    (haccepted : r.acceptedAfter (.proceed k clock now : Event S P n) = accepted)
    (htree : kvs.tree = r.cpu.kvs.tree) (hledger : kvs.ledger = r.cpu.kvs.ledger)
    (hbuffered : kvs.Buffered accepted) (hsub : r.accepted ⊆ accepted)
    (hwritten : ∀ a i key, op = .tryWrite a i → ((B.tasks k).keys a)[i]? = some key →
      B.publication J k key ∈ accepted)
    (hnew : ∀ w ∈ accepted, w ∈ r.accepted ∨ ∃ key ∈ (B.tasks k).keysWritten, w = B.publication J k key) :
    ∃ r', r.exec crc pid (.proceed k clock now : Event S P n) = some r' ∧ B.Progress J found r₀ r' := by
  have hpending : (r.cpu.tasks k).pending ≠ [] := hop ▸ List.cons_ne_nil op rest
  have hworked := (h.tasks k).worked_of_pending hpending
  have hcall := (h.tasks k).call hop hsub hwritten
  have hstill : ∀ j, (r.cpu.tasks j).worked = true →
      (Function.update r.cpu.tasks k { r.cpu.tasks k with pending := rest } j).worked = true := by
    intro j hj
    by_cases hjk : j = k
    · subst hjk
      rw [Function.update_self]
      exact hj
    · rw [Function.update_of_ne hjk]
      exact hj
  have hcpu : r.cpu.exec crc pid (.proceed k clock now : Event S P n)
      = some ⟨kvs, Function.update r.cpu.tasks k { r.cpu.tasks k with pending := rest }⟩ := by
    rw [Cpu.exec, hop]
    exact hperform
  obtain ⟨cpu, hexec, hinv⟩ := h.inv.proceed crc pid (k := k) clock now hpending
  obtain rfl := Option.some.inj (hcpu.symm.trans hexec)
  -- the other tasks keep what they have, since nothing leaves the buffer
  refine ⟨_, by rw [Replica.exec, hcpu]; rfl, htree.trans h.tree, hledger.trans h.ledger, hinv,
    haccepted ▸ hbuffered, fun j => ?_, fun w hw => ?_⟩
  · dsimp only [Replica.statisticsAfter]
    rw [hop, haccepted]
    dsimp only
    rw [hreturns]
    by_cases hj : j = k
    · subst hj
      rw [Function.update_self, Function.update_self]
      exact hcall
    · rw [Function.update_of_ne hj, Function.update_of_ne hj]
      exact (h.tasks j).mono hsub
  · rcases hnew w (haccepted ▸ hw) with hw | hw
    · obtain ⟨j, hj, hmem⟩ := h.sound w hw
      exact ⟨j, hstill j hj, hmem⟩
    · exact ⟨k, hstill k hworked, hw⟩

/-- A read finds what the store serves. -/
theorem tryRead (h : B.Progress J found r₀ r) (hserves : B.Serves J found r₀.cpu.kvs.ledger.store)
    {k : Fin n} {a : Access} {i : ℕ} {rest : List KZH15Task.Operation}
    (hop : (r.cpu.tasks k).pending = .tryRead a i :: rest) (ha : a ∈ readAccesses)
    (hi : i < ((B.tasks k).keys a).length) {clock now : Uint64} (hclock : clock.val / B.basePeriodNs = J)
    (hnow : now.val / B.basePeriodNs = J) :
    r.cpu.returns k clock now (.tryRead a i) = found k a i
      ∧ ∃ r', r.exec crc pid (.proceed k clock now : Event S P n) = some r' ∧ B.Progress J found r₀ r' := by
  have hworked := (h.tasks k).worked_of_pending (hop ▸ List.cons_ne_nil _ rest)
  obtain ⟨key, hkey⟩ : ∃ key, ((B.tasks k).keys a)[i]? = some key := ⟨_, List.getElem?_eq_getElem hi⟩
  have hread : r.cpu.kvs.ledger.store.tryRead key ((r.cpu.tasks k).noEarlierThan a i clock) now
      = if found k a i then some (B.value key) else none := by
    rw [h.ledger]
    refine hserves k ((h.tasks k).due hworked).1 a ha i key hkey _ now ?_ hnow
    refine (h.tasks k).val_noEarlierThan hworked hclock fun hinter => ?_
    subst hinter
    obtain ⟨w, -, hw⟩ := B.interTask k i key hkey
    exact hw ▸ B.dvd_period w
  have hreturns : r.cpu.returns k clock now (.tryRead a i) = found k a i := by
    rw [Cpu.returns, (h.tasks k).task, hkey, Option.any_some, hread]
    cases found k a i <;> rfl
  have hsame : (r.cpu.tasks k).tryRead r.cpu.kvs.ledger.store a i clock now = some (r.cpu.tasks k) :=
    (h.tasks k).tryRead_eq hkey fun value hvalue => by
      rw [hread] at hvalue
      split at hvalue
      · exact (Option.some.inj hvalue).symm
      · cases hvalue
  have hperform : r.cpu.perform k rest clock now (.tryRead a i)
      = some ⟨r.cpu.kvs, Function.update r.cpu.tasks k { r.cpu.tasks k with pending := rest }⟩ := by
    rw [Cpu.perform, hsame]
    rfl
  have haccepted : r.acceptedAfter (.proceed k clock now : Event S P n) = r.accepted := by
    rw [Replica.acceptedAfter, Cpu.written, hop]
    exact List.append_nil _
  refine ⟨hreturns, h.returned crc pid hop hperform hreturns haccepted rfl rfl h.buffered
    (List.Subset.refl _) (fun a' i' key' heq => ?_) fun w hw => Or.inl hw⟩
  cases heq

/-- A write is accepted. -/
theorem tryWrite (h : B.Progress J found r₀ r) (hfits : ∀ k, B.start J + B.period k < 2 ^ 64)
    {k : Fin n} {a : Access} {i : ℕ} {rest : List KZH15Task.Operation}
    (hop : (r.cpu.tasks k).pending = .tryWrite a i :: rest) (ha : a ∈ writtenAccesses)
    (hi : i < ((B.tasks k).keys a).length) {clock now : Uint64} (hnow : now.val / B.basePeriodNs = J) :
    r.cpu.returns k clock now (.tryWrite a i) = true
      ∧ ∃ r', r.exec crc pid (.proceed k clock now : Event S P n) = some r' ∧ B.Progress J found r₀ r' := by
  have hworked := (h.tasks k).worked_of_pending (hop ▸ List.cons_ne_nil _ rest)
  obtain ⟨key, hkey⟩ : ∃ key, ((B.tasks k).keys a)[i]? = some key := ⟨_, List.getElem?_eq_getElem hi⟩
  have htuple := (h.tasks k).tuple_eq hworked hkey
  have hwritten : r.cpu.written (.proceed k clock now : Event S P n) = some (B.publication J k key) := by
    rw [Cpu.written, hop]
    exact htuple
  obtain ⟨hw, hroom⟩ := h.inv.written_fits B.room hwritten
  -- the period of the store is not over, and the version is for the end of the task's period
  have htime : now < (B.publication J k key).time := by
    have hlt := Nat.lt_mul_of_div_lt (Nat.lt_succ_of_le hnow.le) B.basePeriodNs_pos
    have hle := Nat.le_of_dvd (B.period_pos k) (B.dvd_period k)
    show now.val < (B.start J + B.period k) % 2 ^ 64
    rw [Nat.mod_eq_of_lt (hfits k), start, period]
    rw [Nat.succ_mul] at hlt
    omega
  obtain ⟨kvs, hwrite⟩ := BFTKVS.tryWrite_accepts htime hw hroom
  obtain ⟨htree, hledger⟩ : kvs.tree = r.cpu.kvs.tree ∧ kvs.ledger = r.cpu.kvs.ledger := by
    rcases BFTKVS.tryWrite_cases hwrite with ⟨hfalse, -⟩ | ⟨-, -, -, rfl⟩
    · cases hfalse
    · exact ⟨rfl, rfl⟩
  have hreturns : r.cpu.returns k clock now (.tryWrite a i) = true := by
    rw [Cpu.returns, htuple, Option.any_some, hwrite]
    rfl
  have hperform : r.cpu.perform k rest clock now (.tryWrite a i)
      = some ⟨kvs, Function.update r.cpu.tasks k { r.cpu.tasks k with pending := rest }⟩ := by
    rw [Cpu.perform, htuple]
    dsimp only [Option.bind_eq_bind, Option.bind_some]
    rw [hwrite]
    rfl
  have haccepted : r.acceptedAfter (.proceed k clock now : Event S P n)
      = r.accepted ++ [B.publication J k key] := by
    rw [Replica.acceptedAfter, hwritten, Option.filter_some, hwrite]
    rfl
  have hkeys : key ∈ (B.tasks k).keysWritten :=
    mem_keysWritten.mpr ⟨a, ha, List.mem_of_getElem? hkey⟩
  refine ⟨hreturns, h.returned crc pid hop hperform hreturns haccepted htree hledger
    (h.buffered.tryWrite hwrite) (List.subset_append_left _ _) ?_ fun w hw => ?_⟩
  · rintro a' i' key' heq hkey'
    obtain ⟨rfl, rfl⟩ := KZH15Task.Operation.tryWrite.inj heq
    obtain rfl := Option.some.inj (hkey.symm.trans hkey')
    exact List.mem_append_right _ List.mem_cons_self
  · rcases List.mem_append.mp hw with hw | hw
    · exact Or.inl hw
    · exact Or.inr ⟨key, hkeys, List.mem_singleton.mp hw⟩

/-- What the next call of a task returns, and that it returns. -/
theorem proceed (h : B.Progress J found r₀ r) (hserves : B.Serves J found r₀.cpu.kvs.ledger.store)
    (hfits : ∀ k, B.start J + B.period k < 2 ^ 64) {k : Fin n} {op : KZH15Task.Operation}
    {rest : List KZH15Task.Operation} (hop : (r.cpu.tasks k).pending = op :: rest) {clock now : Uint64}
    (hclock : clock.val / B.basePeriodNs = J) (hnow : now.val / B.basePeriodNs = J) :
    r.cpu.returns k clock now op = outcome found k op
      ∧ ∃ r', r.exec crc pid (.proceed k clock now : Event S P n) = some r' ∧ B.Progress J found r₀ r' := by
  rcases mem_job.mp ((h.tasks k).calls op (hop ▸ List.mem_cons_self)) with
    ⟨a, ha, i, hi, rfl⟩ | ⟨a, ha, i, hi, rfl⟩
  · exact h.tryRead crc pid hserves hop ha hi hclock hnow
  · exact h.tryWrite crc pid hfits hop ha hi hnow

/-- The tasks run. -/
theorem works {crc : List UInt8 → UInt32} {pid : Fin S.degree} (h : B.Progress J found r₀ r)
    (hserves : B.Serves J found r₀.cpu.kvs.ledger.store)
    (hfits : ∀ k, B.start J + B.period k < 2 ^ 64) {r' : Replica P n}
    (hworks : r.Works crc pid B.basePeriodNs J r') : B.Progress J found r₀ r' := by
  induction hworks with
  | refl => exact h
  | tail e hbefore henabled hperiod hexec ih =>
    cases e with
    | kvsJob => exact hperiod.elim
    | release k now =>
      obtain ⟨r₂, hr₂, hprogress⟩ := ih.release crc pid henabled hperiod
      rwa [← Option.some.inj (hr₂.symm.trans hexec)]
    | proceed k clock now =>
      obtain ⟨op, rest, hop⟩ := List.exists_cons_of_ne_nil henabled
      obtain ⟨-, r₂, hr₂, hprogress⟩ :=
        ih.proceed crc pid hserves hfits hop hperiod.1 hperiod.2
      rwa [← Option.some.inj (hr₂.symm.trans hexec)]

end Progress

/-! ## Between periods -/

/-- What is true of a replica between two periods. -/
structure Idle (r : Replica P n) : Prop where
  inv : r.cpu.Inv fun k => (B.tasks k).keysWritten.length
  buffered : r.cpu.kvs.Buffered []
  accepted : r.accepted = []
  task : ∀ k, (r.cpu.tasks k).toKZH15Task = B.tasks k
  constraints : ∀ k, (r.cpu.tasks k).freshnessConstraints = B.constraints k
  pending : ∀ k, (r.cpu.tasks k).pending = []
  worked : ∀ k, (r.cpu.tasks k).worked = false

/-- What the tasks write that are released in period `J`. -/
def publications (J : ℕ) : List Ktv :=
  ((List.finRange n).filter fun k => B.period k ∣ B.start J).flatMap fun k =>
    (B.tasks k).keysWritten.map (B.publication J k)

variable {B} {S : Shape} {J : ℕ} {found : Fin n → Access → ℕ → Bool} {r₀ r : Replica P n}

theorem mem_publications {w : Ktv} : w ∈ B.publications J
    ↔ ∃ k, B.period k ∣ B.start J ∧ ∃ key ∈ (B.tasks k).keysWritten, w = B.publication J k key := by
  simp [publications, eq_comm (a := w)]

theorem Idle.progress (h : B.Idle r) : B.Progress J found r r where
  tree := rfl
  ledger := rfl
  inv := h.inv
  buffered := h.accepted ▸ h.buffered
  tasks k := {
    task := h.task k
    constraints := h.constraints k
    idle := fun _ => ⟨h.pending k, rfl⟩
    due := fun hworked => absurd hworked (by simp [h.worked k])
    calls := by simp [h.pending k]
    statistics := fun hworked => absurd hworked (by simp [h.worked k])
    complete := fun hworked => absurd hworked (by simp [h.worked k]) }
  sound := by simp [h.accepted]

section Rests

variable (h : B.Progress J found r₀ r) (hrests : r.Rests B.basePeriodNs J)

include h hrests

theorem Progress.worked_iff (k : Fin n) : (r.cpu.tasks k).worked = true ↔ B.period k ∣ B.start J := by
  have hdue := (hrests k).2
  rwa [(h.tasks k).task] at hdue

/-- All replicas have accepted the same writes. -/
theorem Progress.mem_accepted_iff {w : Ktv} : w ∈ r.accepted ↔ w ∈ B.publications J := by
  rw [mem_publications]
  constructor
  · intro hw
    obtain ⟨k, hworked, hmem⟩ := h.sound w hw
    exact ⟨k, (h.worked_iff hrests k).mp hworked, hmem⟩
  · rintro ⟨k, hdue, key, hkey, rfl⟩
    rcases (h.tasks k).complete ((h.worked_iff hrests k).mpr hdue) key hkey with hmem | ⟨a, i, hmem, -⟩
    · exact hmem
    · rw [(hrests k).1] at hmem
      exact absurd hmem List.not_mem_nil

/-- The job of the store. -/
theorem Progress.idle (crc : List UInt8 → UInt32) (pid : Fin S.degree) {i : JobInput S P}
    {o : FuseOrder Str} {freqOrder : Str → Uint64 → IterOrder Str ℕ} {r' : Replica P n}
    (hexec : r.exec crc pid (.kvsJob i o freqOrder) = some r') : B.Idle r' := by
  obtain ⟨cpu, hcpu, hinv⟩ := h.inv.kvsJob crc pid i o freqOrder
  obtain rfl := Option.some.inj hcpu
  obtain rfl := Option.some.inj hexec
  exact {
    inv := hinv
    buffered := BFTKVS.buffered_job crc pid _ r.cpu.kvs
    accepted := rfl
    task := fun k => (h.tasks k).task
    constraints := fun k => (h.tasks k).constraints
    pending := fun k => (hrests k).1
    worked := fun k => by
      show (!(r.cpu.tasks k).pending.isEmpty) = false
      rw [(hrests k).1]
      rfl }

end Rests

end Benchmark

end KZH15
