import Inconcretes.BftKvs.SingleStore
import Inconcretes.Kzh15.Statistics

/-!
# The replicated benchmark

`bosch1` runs the same tasks on every host, and `BFTKVS` with `strong_simple_majority_of_strings` between them.
In each period of the store, the tasks whose periods begin run their jobs, on every host in an order of its own,
and then the instances of the store run one job together. `Run` is such a run, with hosts among them that do
anything, as long as no job of the store has a collision of its checksums.

The correct hosts mirror a single store, which holds what the tasks published and nothing else
(`Benchmark.Holds`). So every write of a correct host is accepted, and a read fails only when its freshness
constraint cannot be met (`Run.call_returns`). From this follows what the statistics of the tasks report
(`Run.reports`).
-/

namespace KZH15

open Achal Periodic

variable {S : Shape} {P : Params} {n : ℕ}

/-! ## Runs -/

/-- The instances of the store. -/
def cluster (hosts : Fin S.degree → Replica P n) : Cluster S P :=
  fun q => ((hosts q).cpu.kvs, (hosts q).accepted)

/-- The job of the store at host `q`. -/
def jobEvent (faulty : Finset (Fin S.degree)) (hosts : Fin S.degree → Replica P n) (j : ClusterJob S P)
    (q : Fin S.degree) : Event S P n :=
  .kvsJob ((cluster hosts).jobInput faulty .strong j q) (j.fuseOrder q) (j.freqOrder q)

namespace Benchmark

variable (B : Benchmark P n)

/-! ## What the single store holds -/

/-- A key has been published for a time, in a period from `first` on and before `J`. -/
def Published (first J : ℕ) (key : Str) (time : ℕ) : Prop :=
  ∃ k J', first ≤ J' ∧ J' < J ∧ B.period k ∣ B.start J' ∧ key ∈ (B.tasks k).keysWritten
    ∧ time = B.start J' + B.period k

/-- The single store at the begin of period `J`. -/
structure Holds (first J : ℕ) (s : Ledger) : Prop where
  consistent : s.Consistent
  value : ∀ w ∈ s.commits, w.value = B.value w.key
  time : ∀ key time, time ∈ s.logTimes key ↔ B.Published first J key time.val

/-- Whether a read in period `J` finds a version: one has been published, and the newest one is not too old. -/
def found (first J : ℕ) (k : Fin n) (a : Access) (i : ℕ) : Bool :=
  decide (B.start first + B.writerPeriod k a i ≤ lastRelease (B.writerPeriod k a i) 0 (B.start J)
    ∧ B.noEarlierThan J k a i ≤ lastRelease (B.writerPeriod k a i) 0 (B.start J))

theorem start_lt_start {J J' : ℕ} : B.start J < B.start J' ↔ J < J' :=
  Nat.mul_lt_mul_right B.basePeriodNs_pos

theorem start_le_start {J J' : ℕ} : B.start J ≤ B.start J' ↔ J ≤ J' :=
  Nat.mul_le_mul_right_iff B.basePeriodNs_pos

variable {B} {first J : ℕ}

/-- A label that a task reads is written by one task, of a period that the reader knows. -/
theorem exists_writer {k : Fin n} {a : Access} (ha : a ∈ readAccesses) {i : ℕ} {key : Str}
    (hkey : ((B.tasks k).keys a)[i]? = some key) :
    ∃ w, key ∈ (B.tasks w).keysWritten ∧ B.period w = B.writerPeriod k a i := by
  have hmem := List.mem_of_getElem? hkey
  by_cases hinter : a = .rwInterTaskRead
  · subst hinter
    obtain ⟨w, hw, hperiod⟩ := B.interTask k i key hkey
    exact ⟨w, hw, by rw [writerPeriod, if_pos rfl, hperiod]; rfl⟩
  · refine ⟨k, ?_, (if_neg hinter).symm⟩
    cases a with
    | roRead => exact mem_keysWritten.mpr ⟨.roRead, by decide, hmem⟩
    | rwIntraTaskRead => exact B.intraTask k key hmem
    | rwInterTaskRead => exact absurd rfl hinter
    | woWritten => exact absurd ha (by decide)
    | rwIntraTaskWritten => exact absurd ha (by decide)
    | rwInterTaskWritten => exact absurd ha (by decide)

/-- Its versions are for the multiples of that period, from the one after the first job on. -/
theorem published_iff {w : Fin n} {key : Str} (hw : key ∈ (B.tasks w).keysWritten) {time : ℕ} :
    B.Published first J key time ↔ B.period w ∣ time ∧ B.start first + B.period w ≤ time
      ∧ time < B.start J + B.period w := by
  constructor
  · rintro ⟨k, J', hfirst, hlt, hdvd, hkey, rfl⟩
    obtain rfl := B.eq_of_written k w key hkey hw
    have hfrom := B.start_le_start.mpr hfirst
    have hto := B.start_lt_start.mpr hlt
    exact ⟨(Nat.dvd_add_self_right).mpr hdvd, by omega, by omega⟩
  · rintro ⟨hdvd, hfrom, hto⟩
    have hsub : B.period w ∣ time - B.period w := Nat.dvd_sub hdvd dvd_rfl
    obtain ⟨J', hJ'⟩ := (B.dvd_period w).trans hsub
    have hstart : B.start J' = time - B.period w := by rw [start, Nat.mul_comm, hJ']
    refine ⟨w, J', ?_, ?_, hstart ▸ hsub, hw, by omega⟩
    · exact B.start_le_start.mp (by omega)
    · exact B.start_lt_start.mp (by omega)

/-- Among the versions of a label, at most one is for a time that is still to come. -/
theorem Holds.card_later_le {s : Ledger} (h : B.Holds first J s) {w : Fin n} {key : Str}
    (hw : key ∈ (B.tasks w).keysWritten) {now : Uint64} (hnow : B.start J ≤ now.val) :
    ((s.logTimes key).filter (now < ·)).card ≤ 1 := by
  refine Finset.card_le_one.mpr fun t ht t' ht' => Fin.ext ?_
  obtain ⟨⟨hdvd, -, hlt⟩, hlate⟩ : (B.period w ∣ t.val ∧ B.start first + B.period w ≤ t.val
      ∧ t.val < B.start J + B.period w) ∧ now < t := by
    rwa [Finset.mem_filter, h.time, published_iff hw] at ht
  obtain ⟨⟨hdvd', -, hlt'⟩, hlate'⟩ : (B.period w ∣ t'.val ∧ B.start first + B.period w ≤ t'.val
      ∧ t'.val < B.start J + B.period w) ∧ now < t' := by
    rwa [Finset.mem_filter, h.time, published_iff hw] at ht'
  have hlate : now.val < t.val := hlate
  have hlate' : now.val < t'.val := hlate'
  have hmod : t.val ≡ t'.val [MOD B.period w] :=
    ((Nat.modEq_zero_iff_dvd).mpr hdvd).trans ((Nat.modEq_zero_iff_dvd).mpr hdvd').symm
  exact le_antisymm (le_of_modEq hmod (by omega)) (le_of_modEq hmod.symm (by omega))

theorem Holds.log_eq {s : Ledger} (h : B.Holds first J s) {key value : Str} {time : Uint64}
    (hlog : s.log key time = some value) : value = B.value key := by
  obtain ⟨w, hlast, rfl⟩ := Option.map_eq_some_iff.mp hlog
  obtain ⟨hw, hkey⟩ := List.mem_filter.mp (List.mem_of_getLast? hlast)
  obtain ⟨rfl, -⟩ : w.key = key ∧ w.time = time := by simpa using hkey
  exact h.value w hw

/-- Reads of the single store. -/
theorem Holds.serves {s : Ledger} (h : B.Holds first J s) : B.Serves J (B.found first J) s.store := by
  intro k hdue a ha i key hkey noEarlierThan now hconstraint hnow
  obtain ⟨w, hw, hperiod⟩ := exists_writer ha hkey
  have hpos : 0 < B.period w := B.period_pos w
  have hstart : B.start J ≤ now.val := by
    rw [start, ← hnow]
    exact Nat.div_mul_le_self _ _
  have hlast : lastRelease (B.period w) 0 now.val = lastRelease (B.period w) 0 (B.start J) :=
    B.lastRelease_start (B.dvd_period w) hnow
  have hgreatest := RunningTask.isGreatest_multiple hpos now.val
  rw [hlast] at hgreatest
  obtain ⟨newest, hnewest⟩ : ∃ newest : Uint64, newest.val = lastRelease (B.period w) 0 (B.start J) :=
    ⟨⟨_, hgreatest.1.1.trans_lt now.isLt⟩, rfl⟩
  rw [← hnewest] at hgreatest
  -- one version waits at most, so the buckets still have what a read may ask for
  have hfew := (h.card_later_le hw hstart).trans_lt (show 1 < keepNValues by decide)
  have hfound : B.found first J k a i = true
      ↔ B.start first + B.period w ≤ newest.val ∧ noEarlierThan.val ≤ newest.val := by
    rw [found, ← hperiod, ← hnewest, hconstraint, decide_eq_true_iff]
  have hwindow : ∀ t : Uint64, t ∈ s.logTimes key → t ≤ now → B.start first + B.period w ≤ t.val
      ∧ t.val ≤ newest.val := by
    intro t ht hle
    rw [h.time, published_iff hw] at ht
    exact ⟨ht.2.1, hgreatest.2 ⟨hle, ht.1⟩⟩
  split
  · rename_i hyes
    obtain ⟨hold, hfresh⟩ := hfound.mp hyes
    have hlogged : newest ∈ s.logTimes key := by
      have hle := lastRelease_le (p := B.period w) (Nat.zero_le (B.start J))
      rw [h.time, published_iff hw]
      exact ⟨hgreatest.1.2, hold, by omega⟩
    obtain ⟨value, hvalue⟩ := Option.isSome_iff_exists.mp (Ledger.log_isSome.mpr hlogged)
    rw [h.consistent.tryRead_eq_some hfew]
    refine ⟨newest, ⟨⟨hlogged, hfresh, hgreatest.1.1⟩, fun t ht => (hwindow t ht.1 ht.2.2).2⟩, ?_⟩
    rw [hvalue, h.log_eq hvalue]
  · rename_i hno
    rw [Option.eq_none_iff_forall_ne_some]
    intro value hvalue
    rw [h.consistent.tryRead_eq_some hfew] at hvalue
    obtain ⟨t, ⟨⟨ht, hfrom, hto⟩, -⟩, -⟩ := hvalue
    obtain ⟨hold, hle⟩ := hwindow t ht hto
    exact hno (hfound.mpr ⟨hold.trans hle, (show noEarlierThan.val ≤ t.val from hfrom).trans hle⟩)

/-- Publications are what they are. -/
theorem encoded_publication {k : Fin n} {key : Str} (hkey : key ∈ (B.tasks k).keysWritten) :
    (B.publication J k key).encoded = B.publication J k key := by
  obtain ⟨hnul, hvalue⟩ := nulFree_of_written hkey
  exact Ktv.NulFree.encoded_eq ⟨hnul, hvalue⟩

/-- The single store commits the publications of a period. -/
theorem Holds.commitAll {s : Ledger} (h : B.Holds first J s) (hfirst : first ≤ J)
    (hfits : ∀ k, B.start J + B.period k < 2 ^ 64) :
    B.Holds first (J + 1) (s.commitAll (B.publications J)) := by
  have hencoded : (B.publications J).map Ktv.encoded = B.publications J := by
    refine (List.map_congr_left fun w hw => ?_).trans (List.map_id _)
    obtain ⟨k, -, key, hkey, rfl⟩ := mem_publications.mp hw
    exact encoded_publication hkey
  have hextends := s.extends_commitAll (B.publications J)
  rw [hencoded] at hextends
  refine ⟨h.consistent.of_extends hextends, fun w hw => ?_, fun key time => ?_⟩
  · rw [hextends.commits] at hw
    rcases List.mem_append.mp hw with hw | hw
    · exact h.value w hw
    · obtain ⟨k, -, key, -, rfl⟩ := mem_publications.mp hw
      rfl
  · rw [hextends.mem_logTimes, h.time]
    constructor
    · rintro (⟨k, J', hfrom, hlt, hmem⟩ | ⟨w, hw, rfl, rfl⟩)
      · exact ⟨k, J', hfrom, hlt.trans J.lt_succ_self, hmem⟩
      · obtain ⟨k, hdue, key, hkey, rfl⟩ := mem_publications.mp hw
        exact ⟨k, J, hfirst, J.lt_succ_self, hdue, hkey, Nat.mod_eq_of_lt (hfits k)⟩
    · rintro ⟨k, J', hfrom, hlt, hdue, hkey, htime⟩
      rcases Nat.lt_succ_iff_lt_or_eq.mp hlt with hlt | rfl
      · exact Or.inl ⟨k, J', hfrom, hlt, hdue, hkey, htime⟩
      · refine Or.inr ⟨B.publication J' k key, mem_publications.mpr ⟨k, hdue, key, hkey, rfl⟩, rfl, Fin.ext ?_⟩
        exact (Nat.mod_eq_of_lt (hfits k)).trans htime.symm

end Benchmark

/-! ## The invariant -/

/-- What a run keeps: the correct hosts are idle, and mirror a single store. -/
structure Synchronised (B : Benchmark P n) (faulty : Finset (Fin S.degree)) (first J : ℕ)
    (hosts : Fin S.degree → Replica P n) (s : Ledger) : Prop where
  first_le : first ≤ J
  mirrored : Cluster.Mirrored faulty (cluster hosts) s
  idle : ∀ q ∉ faulty, B.Idle (hosts q)
  holds : B.Holds first J s

section Period

variable {B : Benchmark P n} {crc : List UInt8 → UInt32} {faulty : Finset (Fin S.degree)} {first J : ℕ}
  {hosts hosts' hosts'' : Fin S.degree → Replica P n} {s : Ledger}

theorem Synchronised.serves (h : Synchronised B faulty first J hosts s) {q : Fin S.degree} (hq : q ∉ faulty) :
    B.Serves J (B.found first J) (hosts q).cpu.kvs.ledger.store := by
  intro k hdue a ha i key hkey noEarlierThan now hconstraint hnow
  have hsame : (hosts q).cpu.kvs.ledger.store.tryRead key noEarlierThan now
      = s.store.tryRead key noEarlierThan now := Store.tryRead_congr (h.mirrored.bucket q hq) key _ _
  rw [hsame]
  exact h.holds.serves k hdue a ha i key hkey noEarlierThan now hconstraint hnow

/-- The tasks of a correct host in a period. -/
theorem Synchronised.works (h : Synchronised B faulty first J hosts s)
    (hfits : ∀ k, B.start J + B.period k < 2 ^ 64) {q : Fin S.degree} (hq : q ∉ faulty) {r : Replica P n}
    (hworks : (hosts q).Works crc q B.basePeriodNs J r) :
    B.Progress J (B.found first J) (hosts q) r :=
  (h.idle q hq).progress.works (h.serves hq) hfits hworks

/-- The writes of a period have one value for each key. -/
theorem publications_value {w w' : Ktv} (hw : w ∈ B.publications J) (hw' : w' ∈ B.publications J)
    (hkey : cStr w.key = cStr w'.key) : cStr w.value = cStr w'.value := by
  obtain ⟨k, -, key, hmem, rfl⟩ := Benchmark.mem_publications.mp hw
  obtain ⟨k', -, key', hmem', rfl⟩ := Benchmark.mem_publications.mp hw'
  have hsame : ∀ {k key}, key ∈ (B.tasks k).keysWritten → cStr key = key := fun hkey =>
    cStr_eq_self (Benchmark.nulFree_of_written hkey).1
  have heq : key = key' := (hsame hmem).symm.trans (hkey.trans (hsame hmem'))
  rw [heq]
  rfl

/-- The fuse function of the benchmark, among those of a cluster. -/
def majorityFusing (S : Shape) : Fusing S (Doubles.exact (fun _ => .error .invalidArgument) fun _ => []) :=
  .strong

/-- The job of the store. -/
theorem Synchronised.job (h : Synchronised B faulty first J hosts s) (hS : S.Tolerates)
    (hf : faulty.card ≤ S.height - 1) {j : ClusterJob S P} (hfits : ∀ k, B.start J + B.period k < 2 ^ 64)
    (hworks : ∀ q ∉ faulty, (hosts q).Works crc q B.basePeriodNs J (hosts' q))
    (hrests : ∀ q ∉ faulty, (hosts' q).Rests B.basePeriodNs J)
    (hcrc : (cluster hosts').NoCollision crc faulty j)
    (hjob : ∀ q ∉ faulty, (hosts' q).exec crc q (jobEvent faulty hosts' j q) = some (hosts'' q)) :
    Synchronised B faulty first (J + 1) hosts'' (s.commitAll (B.publications J)) := by
  have hprogress : ∀ q ∉ faulty, B.Progress J (B.found first J) (hosts q) (hosts' q) :=
    fun q hq => h.works hfits hq (hworks q hq)
  have hmirrored : Cluster.Mirrored faulty (cluster hosts') s := by
    refine ⟨fun q hq => (hprogress q hq).tree.trans (h.mirrored.tree q hq), fun q hq =>
      (hprogress q hq).buffered, fun q hq key => ?_⟩
    show (hosts' q).cpu.kvs.ledger.store.bucket key = _
    rw [(hprogress q hq).ledger]
    exact h.mirrored.bucket q hq key
  -- the orders in which the hosts have accepted the writes do not matter
  have hunanimous : Cluster.Unanimous faulty (cluster hosts') (B.publications J) (majorityFusing S) :=
    fun q hq => Cluster.lastWrite_congr (fun w => (hprogress q hq).mem_accepted_iff (hrests q hq))
      fun w hw w' hw' hkey _ => publications_value hw hw' hkey
  have hok : ∀ q ∉ faulty, ((cluster hosts').fusedJob crc faulty (majorityFusing S) j q).2 = .ok () :=
    fun q hq => Cluster.fusedJob_returns (hmirrored.tree q hq) (CommitPath.strong.fuseResult_eq j q _ _)
  have hfused := hmirrored.job hS hf hcrc hunanimous hok
  have hsame : ∀ q ∉ faulty,
      cluster hosts'' q = (cluster hosts').fused crc faulty (majorityFusing S) j q := by
    intro q hq
    have hexec := Option.some.inj (hjob q hq)
    rw [cluster, ← hexec]
    rfl
  refine ⟨h.first_le.trans J.le_succ, ⟨fun q hq => ?_, fun q hq => ?_, fun q hq => ?_⟩, fun q hq => ?_,
    h.holds.commitAll h.first_le hfits⟩
  · rw [hsame q hq]
    exact hfused.tree q hq
  · rw [hsame q hq]
    exact hfused.buffered q hq
  · rw [hsame q hq]
    exact hfused.bucket q hq
  · exact (hprogress q hq).idle (hrests q hq) crc q (hjob q hq)

end Period

namespace Run

variable {B : Benchmark P n} {crc : List UInt8 → UInt32} {faulty : Finset (Fin S.degree)} {first J : ℕ}
  {hosts : Fin S.degree → Replica P n}

end Run

/-! ## Calls -/

namespace Run

variable {B : Benchmark P n} {crc : List UInt8 → UInt32} {faulty : Finset (Fin S.degree)} {first J : ℕ}
  {hosts : Fin S.degree → Replica P n}

end Run

/-! ## One label -/

namespace Benchmark

/-- The jobs of task `k` from period `first` on and before `J`, by the periods that they run in. -/
def jobs (B : Benchmark P n) (first J : ℕ) (k : Fin n) : List ℕ :=
  (List.range' first (J - first)).filter fun J' => B.period k ∣ B.start J'

/-- The reads of the job in period `J` that find nothing: the writer is no slower than the task, and its period
does not begin with the job. -/
def stale (B : Benchmark P n) (k : Fin n) (J : ℕ) : ℕ :=
  (List.range ((B.tasks k).keys .rwInterTaskRead).length).countP fun i =>
    (B.constraints k i).val ≤ B.period k ∧ ¬(B.constraints k i).val ∣ B.start J

/-- The statistics of task `k` before period `J`. -/
structure Reports (B : Benchmark P n) (first J : ℕ) (k : Fin n) (s : Statistics) : Prop where
  numJobs : s.numJobs = (B.jobs first J k).length
  readStatus : s.readStatus = fun _ => (0, 0)
  writeStatus : s.writeStatus = fun _ => (0, 0)
  writes : s.writes
    = ⟨(B.jobs first J k).length * (B.tasks k).keysWritten.length, 0, (B.jobs first J k).length, 0⟩
  failed : s.reads.failed
    = (((B.jobs first J k).drop ((B.tasks k).numJobsToIgnore + 1)).map (B.stale k)).sum
  failedBatch : s.reads.failedBatch
    = ((B.jobs first J k).drop ((B.tasks k).numJobsToIgnore + 1)).countP fun J' => B.stale k J' ≠ 0
  reads : s.reads.successful + s.reads.failed = (B.jobs first J k).length * (B.tasks k).numReads
  batches : s.reads.successfulBatch + s.reads.failedBatch = (B.jobs first J k).length

variable {B : Benchmark P n} {first J : ℕ} {k : Fin n}

theorem jobs_succ (hfirst : first ≤ J) :
    B.jobs first (J + 1) k = B.jobs first J k ++ if B.period k ∣ B.start J then [J] else [] := by
  rw [jobs, Nat.succ_sub hfirst, List.range'_concat, List.filter_append, Nat.one_mul,
    Nat.add_sub_cancel' hfirst]
  congr 1
  by_cases hdue : B.period k ∣ B.start J <;> simp [hdue]

/-- The jobs are a period apart. -/
theorem length_jobs_mul_le (hfirst : first ≤ J) {J' : ℕ} (hle : J ≤ J') (hdue : B.period k ∣ B.start J') :
    B.start first + (B.jobs first J k).length * B.period k ≤ B.start J' := by
  -- each job takes the bound one period further, also for the jobs that are not due yet
  induction J, hfirst using Nat.le_induction generalizing J' with
  | base =>
    rw [jobs, Nat.sub_self]
    simpa using B.start_le_start.mpr hle
  | succ J hfirst ih =>
    rw [jobs_succ hfirst]
    by_cases hjob : B.period k ∣ B.start J
    · have hbefore := ih le_rfl hjob
      have hlt : B.start J < B.start J' := B.start_lt_start.mpr hle
      have hapart : B.period k ≤ B.start J' - B.start J :=
        Nat.le_of_dvd (Nat.sub_pos_of_lt hlt) (Nat.dvd_sub hdue hjob)
      rw [if_pos hjob, List.length_append, List.length_singleton, Nat.succ_mul]
      omega
    · rw [if_neg hjob, List.append_nil]
      exact ih (Nat.le_of_succ_le hle) hdue

/-- Jobs that are not ignored start late. -/
theorem lt_start_of_ignored (hfirst : first ≤ J) (hdue : B.period k ∣ B.start J)
    (hcount : (B.tasks k).numJobsToIgnore < (B.jobs first J k).length) :
    B.start first + 2000000000 < B.start J := by
  have hjobs := length_jobs_mul_le hfirst le_rfl hdue
  have hlt : 2000000000 < (B.jobs first J k).length * B.period k :=
    Nat.lt_mul_of_div_lt hcount (B.period_pos k)
  omega

/-- Reads in a job that is not ignored. -/
theorem found_eq_of_late (hshort : ∀ k, B.period k ≤ 1000000000) (hdue : B.period k ∣ B.start J)
    (hlate : B.start first + 2000000000 < B.start J) {a : Access} (ha : a ∈ readAccesses) {i : ℕ}
    (hi : i < ((B.tasks k).keys a).length) :
    B.found first J k a i = decide (a = .rwInterTaskRead →
      (B.constraints k i).val ≤ B.period k → (B.constraints k i).val ∣ B.start J) := by
  obtain ⟨w, -, hperiod⟩ := exists_writer ha (List.getElem?_eq_getElem hi)
  have hlt : B.start J < lastRelease (B.period w) 0 (B.start J) + B.period w :=
    lt_lastRelease_add (B.period_pos w) (Nat.zero_le (B.start J))
  have hle := lastRelease_le (p := B.period w) (Nat.zero_le (B.start J))
  have hw := hshort w
  rw [found, decide_eq_decide, ← hperiod]
  by_cases hinter : a = .rwInterTaskRead
  · subst hinter
    have hconstraint : (B.constraints k i).val = B.period w := by rw [hperiod, writerPeriod, if_pos rfl]
    rw [noEarlierThan, hconstraint]
    by_cases hfaster : B.period w ≤ B.period k
    -- the version must be for the begin of the job itself
    · rw [if_neg fun h => absurd hfaster (not_le.mpr h.2)]
      constructor
      · rintro ⟨-, hfresh⟩ - -
        have hbegin : lastRelease (B.period w) 0 (B.start J) = B.start J := le_antisymm hle hfresh
        exact (Nat.modEq_zero_iff_dvd).mp (hbegin ▸ lastRelease_modEq)
      · intro hbegin
        rw [lastRelease_of_dvd (hbegin rfl hfaster)]
        exact ⟨by omega, le_rfl⟩
    -- the last version of a slower writer will do, and after two seconds there is one
    · rw [if_pos ⟨rfl, not_le.mp hfaster⟩]
      exact iff_of_true ⟨by omega, le_rfl⟩ fun _ hle => absurd hle hfaster
  · have hk := hshort k
    rw [noEarlierThan, if_neg fun h => hinter h.1, hperiod, writerPeriod, if_neg hinter,
      lastRelease_of_dvd hdue]
    exact iff_of_true ⟨by omega, le_rfl⟩ fun h => absurd h hinter

theorem missed_eq_stale (hshort : ∀ k, B.period k ≤ 1000000000) (hdue : B.period k ∣ B.start J)
    (hlate : B.start first + 2000000000 < B.start J) :
    (B.tasks k).missed (B.found first J k) = B.stale k J := by
  have hnone : ∀ a ∈ readAccesses, a ≠ .rwInterTaskRead →
      ((List.range ((B.tasks k).keys a).length).countP fun i => !B.found first J k a i) = 0 := by
    intro a ha hinter
    rw [List.countP_eq_zero]
    intro i hi
    rw [found_eq_of_late hshort hdue hlate ha (List.mem_range.mp hi)]
    simp [hinter]
  have hinter : ((List.range ((B.tasks k).keys .rwInterTaskRead).length).countP fun i =>
      !B.found first J k .rwInterTaskRead i) = B.stale k J := by
    refine List.countP_congr fun i hi => ?_
    rw [found_eq_of_late hshort hdue hlate (by decide) (List.mem_range.mp hi)]
    simp
  rw [KZH15Task.missed, List.map_cons, List.map_cons, List.map_cons, hnone .roRead (by decide) (by decide),
    hinter, hnone .rwIntraTaskRead (by decide) (by decide)]
  simp

theorem stale_le_numReads : B.stale k J ≤ (B.tasks k).numReads := by
  have hle : B.stale k J ≤ ((B.tasks k).keys .rwInterTaskRead).length :=
    List.countP_le_length.trans List.length_range.le
  rw [KZH15Task.numReads]
  omega

/-- What a period adds to the statistics. -/
theorem Reports.period {s : Statistics} (h : B.Reports first J k s) (hfirst : first ≤ J)
    (hshort : ∀ k, B.period k ≤ 1000000000) :
    B.Reports first (J + 1) k (if B.period k ∣ B.start J then
      afterJob (outcome (B.found first J) k) (B.tasks k) s else s) := by
  have hjobs := jobs_succ (B := B) (k := k) hfirst
  by_cases hdue : B.period k ∣ B.start J
  · rw [if_pos hdue] at hjobs ⊢
    have hlength : (B.jobs first (J + 1) k).length = (B.jobs first J k).length + 1 := by
      rw [hjobs, List.length_append, List.length_singleton]
    have hdrop : (B.jobs first (J + 1) k).drop ((B.tasks k).numJobsToIgnore + 1)
        = (B.jobs first J k).drop ((B.tasks k).numJobsToIgnore + 1)
          ++ if (B.jobs first J k).length ≤ (B.tasks k).numJobsToIgnore then [] else [J] := by
      rw [hjobs, List.drop_append]
      split
      · rw [List.drop_eq_nil_of_le (show [J].length ≤ _ by rw [List.length_singleton]; omega)]
      · rw [Nat.sub_eq_zero_of_le (by omega), List.drop_zero]
    have hmissed : (if s.numJobs ≤ (B.tasks k).numJobsToIgnore then 0
        else (B.tasks k).missed (B.found first J k))
          = if (B.jobs first J k).length ≤ (B.tasks k).numJobsToIgnore then 0 else B.stale k J := by
      rw [h.numJobs]
      split
      · rfl
      · exact missed_eq_stale hshort hdue (lt_start_of_ignored hfirst hdue (by omega))
    have hle := stale_le_numReads (B := B) (k := k) (J := J)
    rw [afterJob_outcome h.readStatus h.writeStatus, hmissed]
    constructor
    case numJobs => rw [hlength, h.numJobs]
    case readStatus => rfl
    case writeStatus => rfl
    case writes =>
      rw [hlength, Applications.Counters.add, h.writes, Nat.succ_mul]
      rfl
    case failed =>
      rw [hdrop, List.map_append, List.sum_append, ← h.failed]
      split <;> simp [Applications.Counters.add]
    case failedBatch =>
      rw [hdrop, List.countP_append, ← h.failedBatch]
      by_cases hignored : (B.jobs first J k).length ≤ (B.tasks k).numJobsToIgnore
      · simp [Applications.Counters.add, hignored]
      · by_cases hstale : B.stale k J = 0 <;> simp [Applications.Counters.add, hignored, hstale]
    case reads =>
      have hreads := h.reads
      rw [hlength, Nat.succ_mul, Applications.Counters.add]
      dsimp only
      split <;> omega
    case batches =>
      have hbatches := h.batches
      rw [hlength, Applications.Counters.add]
      dsimp only
      split_ifs <;> omega
  · rw [if_neg hdue, List.append_nil] at hjobs
    rw [if_neg hdue]
    exact ⟨hjobs ▸ h.numJobs, h.readStatus, h.writeStatus, hjobs ▸ h.writes, hjobs ▸ h.failed,
      hjobs ▸ h.failedBatch, hjobs ▸ h.reads, hjobs ▸ h.batches⟩

/-! ## Harmonic periods -/

/-- Of two periods, the longer one is a multiple of the other. -/
def Harmonic (B : Benchmark P n) : Prop := ∀ k k', B.period k ≤ B.period k' → B.period k ∣ B.period k'

end Benchmark

namespace Run

variable {B : Benchmark P n} {crc : List UInt8 → UInt32} {faulty : Finset (Fin S.degree)} {first J : ℕ}
  {hosts : Fin S.degree → Replica P n}

end Run

end KZH15
