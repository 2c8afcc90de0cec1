import Inconcretes.Applications.PendulumHost
import Inconcretes.BftKvs.SingleStore

/-!
# The replicated pendulum

`ivp1` runs the same tasks on every host, and `BFTKVS` with `median_of_doubles` between them. In each period
the tasks of a host run at times of their own, with inter-arrival times of their own, and then the instances
of the store run one job together. `Loop` is such a run, with hosts among them that do anything, in which the
jobs return and no job of the store has a collision of its checksums.

All reads and all writes of the correct hosts succeed (`loop_counters`). What a correct host wrote is not what
it reads back: all correct hosts read the same entries, and each of these is the text of a number between those
that correct hosts wrote (`loop_resynchronises`). When their timers measure the same, the loop computes the
numbers that a single task computes without any store (`loop_alone`).

Numbers are exact, but their texts are not: what `std::to_string` prints is read back as another number.
-/

namespace Applications

open Achal Utils

variable {S : Shape} {P : Params} {m : ℕ}

/-- The hosts of an experiment. What stands there for a faulty host is of no use to anyone. -/
abbrev Hosts (S : Shape) (P : Params) (m : ℕ) := Fin S.degree → Host P m

namespace Hosts

/-- Their instances of the store. -/
def cluster (hosts : Hosts S P m) : Cluster S P := fun q => ((hosts q).kvs, (hosts q).accepted)

/-- The instances run a job. -/
def fused (T : Texts) (crc : List UInt8 → UInt32) (faulty : Finset (Fin S.degree)) (hosts : Hosts S P m)
    (order : Fin S.degree → FuseOrder ℚ) (j : ClusterJob S P) : Hosts S P m :=
  fun q => {
    kvs := (hosts.cluster.fusedJob crc faulty (F := T.doubles) (.median order) j q).1
    accepted := []
    tasks := (hosts q).tasks }

end Hosts

/-- A run of the experiment, with the clocks of each period. -/
inductive Loop (T : Texts) (s : Schedule m) (crc : List UInt8 → UInt32) (faulty : Finset (Fin S.degree)) :
    List (Fin S.degree → Fin m → JobClocks) → Hosts S P m → Prop
  | start {hosts : Hosts S P m} (h : ∀ q ∉ faulty, (hosts q).IsNew T s) : Loop T s crc faulty [] hosts
  | period {periods : List (Fin S.degree → Fin m → JobClocks)} {hosts hosts' : Hosts S P m}
    (clocks : Fin S.degree → Fin m → JobClocks) (order : Fin S.degree → FuseOrder ℚ) (j : ClusterJob S P)
    (h : Loop T s crc faulty periods hosts)
    (hclocks : ∀ q ∉ faulty, ∀ i, (clocks q i).OnTime s periods.length i)
    (hfits : ∀ i, s.release (periods.length + 1) i < 2 ^ 64)
    (hperiod : ∀ q ∉ faulty, (hosts q).period T (clocks q) = some (hosts' q))
    (hcrc : hosts'.cluster.NoCollision crc faulty j)
    (hok : ∀ q ∉ faulty, (hosts'.cluster.fusedJob crc faulty (F := T.doubles) (.median order) j q).2 = .ok ()) :
    Loop T s crc faulty (periods ++ [clocks]) (hosts'.fused T crc faulty order j)

/-! ## What the hosts publish -/

section Published

variable {T : Texts} {s : Schedule m} {k : ℕ}

/-- Every accepted write to a key and timestamp has this value, and there is one. -/
theorem lastWrite_of_forall {accepted : List Ktv} {w : Ktv} (hw : w ∈ accepted) (hfree : w.NulFree)
    (hall : ∀ w' ∈ accepted, cStr w'.key = w.key → w'.time = w.time → cStr w'.value = w.value) :
    Cluster.lastWrite accepted w.key w.time = some w.value := by
  have hmem : w ∈ accepted.filter fun w' => cStr w'.key = w.key ∧ w'.time = w.time :=
    List.mem_filter.mpr ⟨hw, by simp [cStr_eq_self hfree.key]⟩
  obtain ⟨last, hlast⟩ := Option.isSome_iff_exists.mp
    (List.getLast?_isSome.mpr (List.ne_nil_of_mem hmem))
  obtain ⟨hlastMem, hkey⟩ := List.mem_filter.mp (List.mem_of_getLast? hlast)
  obtain ⟨hkey, htime⟩ : cStr last.key = w.key ∧ last.time = w.time := by simpa using hkey
  rw [Cluster.lastWrite, hlast, Option.map_some, hall last hlastMem hkey htime]

theorem lastWrite_eq_none {accepted : List Ktv} {key : Str} {time : Uint64}
    (h : ∀ w ∈ accepted, cStr w.key = key → w.time ≠ time) : Cluster.lastWrite accepted key time = none := by
  rw [Cluster.lastWrite, Option.map_eq_none_iff, List.getLast?_eq_none_iff, List.filter_eq_nil_iff]
  intro w hw hmatch
  obtain ⟨hkey, htime⟩ : cStr w.key = key ∧ w.time = time := by simpa using hmatch
  exact h w hw hkey htime

/-- What the tasks of a host publish in a period. -/
theorem mem_published {states : Fin m → Entry → Str} {w : Ktv} :
    w ∈ (List.finRange m).flatMap (fun i => published (s.time (k + 1) i) (states i))
      ↔ ∃ i e, w = ⟨e.name, s.time (k + 1) i, states i e⟩ := by
  simp only [List.mem_flatMap, List.mem_finRange, true_and, published, List.mem_map]
  refine exists_congr fun i => exists_congr fun e => ?_
  rw [and_iff_right e.mem_all, eq_comm]

theorem time_inj (hfits : ∀ i, s.release k i < 2 ^ 64) {i j : Fin m} (h : s.time k i = s.time k j) : i = j := by
  have hval := congrArg Fin.val h
  rw [Schedule.val_time (hfits i), Schedule.val_time (hfits j)] at hval
  exact (Schedule.release_inj hval).2

variable {kvs : BFTKVS P} {accepted : List Ktv} {states : Fin m → Entry → Str}

/-- The number of an entry in the node that the host sends. -/
theorem vote_published (hbuffered : kvs.Buffered accepted)
    (haccepted : accepted = (List.finRange m).flatMap fun i => published (s.time (k + 1) i) (states i))
    (hfits : ∀ i, s.release (k + 1) i < 2 ^ 64) {i : Fin m} {e : Entry} {x : ℚ}
    (hx : T.stod (states i e) = .ok x) (htext : ∀ i e, T.IsText (states i e)) :
    T.doubles.vote kvs.unpublished e.name (s.time (k + 1) i) = some x := by
  have hmem : ∀ {w}, w ∈ accepted ↔ ∃ i e, w = ⟨e.name, s.time (k + 1) i, states i e⟩ := by
    rw [haccepted]
    exact mem_published
  have hfree : ∀ i e, 0 ∉ states i e := fun i e => by
    obtain ⟨y, hy⟩ := htext i e
    exact hy ▸ T.nul_notMem y
  refine Doubles.vote_of_vote (s := states i e) ?_ hx
  rw [Cluster.vote_eq_lastWrite hbuffered]
  refine lastWrite_of_forall (w := ⟨e.name, s.time (k + 1) i, states i e⟩) (hmem.mpr ⟨i, e, rfl⟩)
    ⟨e.nul_notMem_name, hfree i e⟩ fun w' hw' hkey htime => ?_
  obtain ⟨i', e', rfl⟩ := hmem.mp hw'
  rw [cStr_eq_self e'.nul_notMem_name] at hkey
  obtain rfl := Entry.name_injective hkey
  obtain rfl := time_inj hfits htime
  exact cStr_eq_self (hfree i' e')

/-- It has a number for nothing else. -/
theorem vote_published_eq_none (hbuffered : kvs.Buffered accepted)
    (haccepted : accepted = (List.finRange m).flatMap fun i => published (s.time (k + 1) i) (states i))
    {key : Str} {time : Uint64} (hother : ∀ i, time ≠ s.time (k + 1) i) :
    T.doubles.vote kvs.unpublished key time = none := by
  refine Doubles.vote_of_vote_none ?_
  rw [Cluster.vote_eq_lastWrite hbuffered]
  refine lastWrite_eq_none fun w hw _ htime => ?_
  rw [haccepted] at hw
  obtain ⟨i, e, rfl⟩ := mem_published.mp hw
  exact hother i htime.symm

end Published

/-! ## The invariant -/

/-- The statistics of a task whose `k` batches had no failure. -/
def Counters.allSuccessful (k : ℕ) : Counters := ⟨k * Entry.all.length, 0, k, 0⟩

theorem Counters.allSuccessful_add (k : ℕ) :
    (allSuccessful k).add (Entry.all.length, 0) = allSuccessful (k + 1) := by
  rw [add, allSuccessful, allSuccessful, Nat.succ_mul]
  rfl

/-- What the correct hosts have after `k` periods. -/
structure Synchronised (T : Texts) (s : Schedule m) (faulty : Finset (Fin S.degree)) (k : ℕ)
    (hosts : Hosts S P m) : Prop where
  alike : Cluster.Alike faulty hosts.cluster
  accepted : ∀ q ∉ faulty, (hosts q).accepted = []
  buffered : ∀ q ∉ faulty, (hosts q).kvs.Buffered []
  consistent : ∀ q ∉ faulty, (hosts q).kvs.ledger.Consistent
  fits : 0 < k → ∀ i, s.release k i < 2 ^ 64
  /-- The entries have been committed for all releases up to the next one, and for no other times. -/
  times : ∀ q ∉ faulty, ∀ e time, time ∈ (hosts q).kvs.ledger.logTimes (Entry.name e)
    ↔ ∃ k' i, 0 < k' ∧ k' ≤ k ∧ time = s.time k' i
  /-- For the next one, between the numbers of correct hosts. -/
  between : 0 < k → ∀ q ∉ faulty, ∀ e i, ∃ y, (hosts q).kvs.ledger.log (Entry.name e) (s.time k i)
      = some (T.toString y)
    ∧ (∃ p ∉ faulty, ∃ x ≤ y, T.stod (((hosts p).tasks i).sim.state e) = .ok x)
    ∧ ∃ p ∉ faulty, ∃ x ≥ y, T.stod (((hosts p).tasks i).sim.state e) = .ok x
  scheduled : ∀ q ∉ faulty, ∀ i, ((hosts q).tasks i).Scheduled s i
  numJobs : ∀ q ∉ faulty, ∀ i, ((hosts q).tasks i).sim.numJobs = k
  isText : ∀ q ∉ faulty, ∀ i e, T.IsText (((hosts q).tasks i).sim.state e)
  reads : ∀ q ∉ faulty, ∀ i, ((hosts q).tasks i).reads = Counters.allSuccessful k
  writes : ∀ q ∉ faulty, ∀ i, ((hosts q).tasks i).writes = Counters.allSuccessful k

namespace Synchronised

variable {T : Texts} {s : Schedule m} {faulty : Finset (Fin S.degree)} {k : ℕ} {hosts hosts' : Hosts S P m}

/-- Every release up to the next one is a time of the store. -/
theorem fits_of_le (h : Synchronised T s faulty k hosts) {k' : ℕ} (hpos : 0 < k') (hle : k' ≤ k) (i : Fin m) :
    s.release k' i < 2 ^ 64 := by
  have hk := h.fits (hpos.trans_le hle) i
  rcases Nat.lt_or_eq_of_le hle with hlt | rfl
  · exact (Schedule.release_lt_of_lt hlt).trans hk
  · exact hk

theorem val_time_pred (h : Synchronised T s faulty (k + 1) hosts) (i : Fin m) :
    (s.time k i).val = s.release k i :=
  Schedule.val_time ((Schedule.release_lt_of_lt (j := i) k.lt_succ_self).trans (h.fits k.succ_pos i))

/-- A read on time finds the version for the release of the task. -/
theorem tryRead_eq (h : Synchronised T s faulty (k + 1) hosts) (hm : m ≤ keepNValues) {q : Fin S.degree}
    (hq : q ∉ faulty) {i : Fin m} {now : Uint64} (hnow : s.OnTime (k + 1) i now) (e : Entry) :
    (hosts q).kvs.ledger.store.tryRead e.name (s.time k i) now
      = (hosts q).kvs.ledger.log e.name (s.time (k + 1) i) := by
  have hval : ∀ {k' j}, 0 < k' → k' ≤ k + 1 → (s.time k' j).val = s.release k' j := fun hpos hle =>
    Schedule.val_time (h.fits_of_le hpos hle _)
  -- only tasks behind this one have versions in the future
  have hfew : (((hosts q).kvs.ledger.logTimes e.name).filter (now < ·)).card < keepNValues := by
    have hsub : ((hosts q).kvs.ledger.logTimes e.name).filter (now < ·)
        ⊆ (Finset.univ.erase i).image (s.time (k + 1)) := by
      intro time htime
      obtain ⟨htime, hlater⟩ := Finset.mem_filter.mp htime
      obtain ⟨k', j, hpos, hle, rfl⟩ := (h.times q hq e time).mp htime
      have hlate : now.val < s.release k' j := by
        rw [← hval hpos hle]
        exact hlater
      obtain rfl : k' = k + 1 := by
        by_contra hne
        exact absurd (hlate.trans (Schedule.release_lt_of_lt (Nat.lt_of_le_of_ne hle hne)))
          (not_lt.mpr hnow.released)
      refine Finset.mem_image.mpr ⟨j, Finset.mem_erase.mpr ⟨?_, Finset.mem_univ j⟩, rfl⟩
      rintro rfl
      exact absurd hlate (not_lt.mpr hnow.released)
    have hcard := (Finset.card_le_card hsub).trans Finset.card_image_le
    rw [Finset.card_erase_of_mem (Finset.mem_univ i), Finset.card_univ, Fintype.card_fin] at hcard
    have := i.pos
    omega
  obtain ⟨y, hlog, -⟩ := h.between k.succ_pos q hq e i
  rw [hlog, (h.consistent q hq).tryRead_eq_some hfew]
  refine ⟨s.time (k + 1) i, ⟨⟨?_, ?_, ?_⟩, ?_⟩, hlog⟩
  · exact (h.times q hq e _).mpr ⟨k + 1, i, k.succ_pos, le_rfl, rfl⟩
  · show (s.time k i).val ≤ (s.time (k + 1) i).val
    rw [h.val_time_pred, hval k.succ_pos le_rfl]
    exact (Schedule.release_lt_of_lt k.lt_succ_self).le
  · show (s.time (k + 1) i).val ≤ now.val
    rw [hval k.succ_pos le_rfl]
    exact hnow.released
  · rintro time ⟨htime, -, hle⟩
    obtain ⟨k', j, hpos, hk', rfl⟩ := (h.times q hq e time).mp htime
    show (s.time k' j).val ≤ (s.time (k + 1) i).val
    rw [hval hpos hk', hval k.succ_pos le_rfl]
    refine (hnow.release_le_iff hk').mp ?_
    rw [← hval hpos hk']
    exact hle

/-- All correct hosts find the same. -/
theorem log_eq (h : Synchronised T s faulty (k + 1) hosts) (hm : m ≤ keepNValues) {p q : Fin S.degree}
    (hp : p ∉ faulty) (hq : q ∉ faulty) {i : Fin m} {now : Uint64} (hnow : s.OnTime (k + 1) i now) (e : Entry) :
    (hosts p).kvs.ledger.log e.name (s.time (k + 1) i)
      = (hosts q).kvs.ledger.log e.name (s.time (k + 1) i) := by
  have hstore : (hosts p).kvs.ledger.store = (hosts q).kvs.ledger.store := h.alike.store p hp q hq
  rw [← h.tryRead_eq hm hp hnow, ← h.tryRead_eq hm hq hnow, hstore]

/-- The first job starts from the entries of the constructor. -/
theorem readState_zero (h : Synchronised T s faulty 0 hosts) {q : Fin S.degree} (hq : q ∉ faulty) (i : Fin m)
    (c : JobClocks) :
    ((hosts q).tasks i).sim.readState (Task.input c (hosts q).kvs.ledger.store)
      = ((hosts q).tasks i).sim.state := if_pos (h.numJobs q hq i)

theorem tryRead_on_time (h : Synchronised T s faulty (k + 1) hosts) (hm : m ≤ keepNValues) {q : Fin S.degree}
    (hq : q ∉ faulty) {i : Fin m} {c : JobClocks} (hc : c.OnTime s (k + 1) i) (e : Entry) :
    ∃ v, (hosts q).kvs.ledger.log e.name (s.time (k + 1) i) = some v
      ∧ ∀ value, Task.tryRead c (hosts q).kvs.ledger.store e (((hosts q).tasks i).publishedTime c) value
        = (true, v) := by
  obtain ⟨y, hlog, -⟩ := h.between k.succ_pos q hq e i
  refine ⟨T.toString y, hlog, fun value => ?_⟩
  have hpublished : ((hosts q).tasks i).publishedTime c = s.time k i := by
    rw [Task.publishedTime, IvPSim.myReleaseTime, (h.scheduled q hq i).timePeriodNs,
      (h.scheduled q hq i).offsetNs]
    exact hc.published.published_eq
  rw [Task.tryRead, Store.tryReadInto, hpublished, h.tryRead_eq hm hq (hc.read e), hlog]

/-- A later job starts from the versions for its release. -/
theorem readState_succ (h : Synchronised T s faulty (k + 1) hosts) (hm : m ≤ keepNValues) {q : Fin S.degree}
    (hq : q ∉ faulty) {i : Fin m} {c : JobClocks} (hc : c.OnTime s (k + 1) i) (e : Entry) :
    (hosts q).kvs.ledger.log e.name (s.time (k + 1) i)
      = some (((hosts q).tasks i).sim.readState (Task.input c (hosts q).kvs.ledger.store) e) := by
  obtain ⟨v, hlog, hread⟩ := h.tryRead_on_time hm hq hc e
  rw [hlog, IvPSim.readState, if_neg (by rw [h.numJobs q hq i]; omega)]
  exact congrArg some (congrArg Prod.snd (hread _)).symm

/-- A job on time counts all its reads as successful. -/
theorem readStatus_eq (h : Synchronised T s faulty k hosts) (hm : m ≤ keepNValues) {q : Fin S.degree}
    (hq : q ∉ faulty) {i : Fin m} {c : JobClocks} (hc : c.OnTime s k i) :
    ((hosts q).tasks i).readStatus c (hosts q).kvs.ledger.store = (Entry.all.length, 0) := by
  rw [Task.readStatus]
  cases k with
  | zero => exact if_pos (h.numJobs q hq i)
  | succ k =>
    rw [if_neg (by rw [h.numJobs q hq i]; omega), ← status_replicate_true, ← List.map_const']
    congr 1
    refine List.map_congr_left fun e _ => ?_
    obtain ⟨v, -, hread⟩ := h.tryRead_on_time hm hq hc e
    exact congrArg Prod.fst (hread _)

/-- It starts from texts. -/
theorem isText_readState (h : Synchronised T s faulty k hosts) (hm : m ≤ keepNValues) {q : Fin S.degree}
    (hq : q ∉ faulty) {i : Fin m} {c : JobClocks} (hc : c.OnTime s k i) (e : Entry) :
    T.IsText (((hosts q).tasks i).sim.readState (Task.input c (hosts q).kvs.ledger.store) e) := by
  cases k with
  | zero =>
    rw [h.readState_zero hq]
    exact h.isText q hq i e
  | succ k =>
    obtain ⟨y, hlog, -⟩ := h.between k.succ_pos q hq e i
    exact ⟨y, Option.some.inj (hlog.symm.trans (h.readState_succ hm hq hc e))⟩

end Synchronised

/-! ## A period -/

/-- What the correct hosts have between the jobs of their tasks and the job of the store. -/
structure Published (T : Texts) (s : Schedule m) (faulty : Finset (Fin S.degree)) (k : ℕ)
    (hosts : Hosts S P m) : Prop where
  alike : Cluster.Alike faulty hosts.cluster
  buffered : ∀ q ∉ faulty, (hosts q).kvs.Buffered (hosts q).accepted
  accepted : ∀ q ∉ faulty, (hosts q).accepted
    = (List.finRange m).flatMap fun i => published (s.time (k + 1) i) ((hosts q).tasks i).sim.state
  consistent : ∀ q ∉ faulty, (hosts q).kvs.ledger.Consistent
  times : ∀ q ∉ faulty, ∀ e time, time ∈ (hosts q).kvs.ledger.logTimes (Entry.name e)
    ↔ ∃ k' i, 0 < k' ∧ k' ≤ k ∧ time = s.time k' i
  scheduled : ∀ q ∉ faulty, ∀ i, ((hosts q).tasks i).Scheduled s i
  numJobs : ∀ q ∉ faulty, ∀ i, ((hosts q).tasks i).sim.numJobs = k + 1
  isText : ∀ q ∉ faulty, ∀ i e, T.IsText (((hosts q).tasks i).sim.state e)
  reads : ∀ q ∉ faulty, ∀ i, ((hosts q).tasks i).reads = Counters.allSuccessful (k + 1)
  writes : ∀ q ∉ faulty, ∀ i, ((hosts q).tasks i).writes = Counters.allSuccessful (k + 1)

section Period

variable {T : Texts} {s : Schedule m} {crc : List UInt8 → UInt32} {faulty : Finset (Fin S.degree)} {k : ℕ}
  {hosts hosts' : Hosts S P m} {clocks : Fin S.degree → Fin m → JobClocks}

/-- The jobs of the tasks. -/
theorem Synchronised.published (h : Synchronised T s faulty k hosts) (hm : m ≤ keepNValues)
    (hroom : m * Entry.all.length ≤ P.NT) (hclocks : ∀ q ∉ faulty, ∀ i, (clocks q i).OnTime s k i)
    (hfits : ∀ i, s.release (k + 1) i < 2 ^ 64)
    (hperiod : ∀ q ∉ faulty, (hosts q).period T (clocks q) = some (hosts' q)) :
    Published T s faulty k hosts' := by
  have hspec : ∀ q (hq : q ∉ faulty), _ := fun q hq => Host.period_spec (hperiod q hq) (hclocks q hq)
    (h.scheduled q hq) hfits (h.buffered q hq) (h.accepted q hq) hroom
  have hruns : ∀ q ∉ faulty, ∀ i, ((hosts q).tasks i).Runs T (hosts q).kvs.ledger.store (clocks q i)
      ((hosts' q).tasks i) := fun q hq => (hspec q hq).2.2.2.2
  have hledger : ∀ q ∉ faulty, (hosts' q).kvs.ledger = (hosts q).kvs.ledger := fun q hq => (hspec q hq).2.1
  refine ⟨⟨fun q hq => ?_, fun p hp q hq => ?_⟩, fun q hq => (hspec q hq).2.2.1,
    fun q hq => (hspec q hq).2.2.2.1, fun q hq => ?_, fun q hq => ?_, fun q hq i => ?_, fun q hq i => ?_,
    fun q hq i e => ?_, fun q hq i => ?_, fun q hq i => ?_⟩
  · exact (hspec q hq).1.trans (h.alike.tree q hq)
  · show (hosts' p).kvs.ledger.store = (hosts' q).kvs.ledger.store
    rw [hledger p hp, hledger q hq]
    exact h.alike.store p hp q hq
  · rw [hledger q hq]
    exact h.consistent q hq
  · rw [hledger q hq]
    exact h.times q hq
  · exact (hruns q hq i).scheduled (h.scheduled q hq i)
  · rw [(hruns q hq i).sim]
    exact congrArg (· + 1) (h.numJobs q hq i)
  · obtain ⟨state, hstate, htext⟩ := IvPSim.advance_isText
      (h.isText_readState hm hq (hclocks q hq i)) ((hosts q).tasks i).sim.timePeriodNs
      (nsToSec (clocks q i).lastInterArrivalNs * ((hosts q).tasks i).sim.multiplier)
    rw [Option.some.inj ((hruns q hq i).state.symm.trans hstate)]
    exact htext e
  · rw [(hruns q hq i).reads, h.readStatus_eq hm hq (hclocks q hq i), h.reads q hq i,
      Counters.allSuccessful_add]
  · rw [(hruns q hq i).writes, h.writes q hq i, Counters.allSuccessful_add]

/-- What the median commits: every entry for every next release, and nothing for other times. -/
theorem Published.commits (h : Published T s faulty k hosts) (hS : S.Tolerates)
    (hf : faulty.card ≤ S.height - 1) (htwo : faulty.card ≤ 2) (hthree : 3 ≤ S.degree - faulty.card)
    (hfits : ∀ i, s.release (k + 1) i < 2 ^ 64) {j : ClusterJob S P}
    (hcrc : hosts.cluster.NoCollision crc faulty j) {q : Fin S.degree} (hq : q ∉ faulty) (o : FuseOrder ℚ) :
    let commits := medianCommits T.doubles o
      (S.interactiveConsistencyVector ((hosts.cluster.lockstep faulty j).result crc j.order q))
    (∀ w ∈ commits, ∃ i, w.time = s.time (k + 1) i)
      ∧ ∀ i e, ∃ y, (∀ v, ⟨Entry.name e, s.time (k + 1) i, v⟩ ∈ commits ↔ v = T.toString y)
        ∧ (∃ p ∉ faulty, ∃ x ≤ y, T.stod (((hosts p).tasks i).sim.state e) = .ok x)
        ∧ ∃ p ∉ faulty, ∃ x ≥ y, T.stod (((hosts p).tasks i).sim.state e) = .ok x := by
  intro commits
  have hmem : ∀ {w}, w ∈ commits ↔ T.doubles.median (T.doubles.votes
      (S.interactiveConsistencyVector ((hosts.cluster.lockstep faulty j).result crc j.order q)) w.key w.time)
      = some w.value := by
    intro w
    rw [← (Doubles.sortsAlike_exact T.stod T.toString _).median_perm
      (Doubles.visit_numbersOf_perm _ (o.nodes w.key w.time) w.key w.time)]
    exact mem_medianCommits
  constructor
  · intro w hw
    by_contra! hother
    have hvote : ∀ p ∉ faulty, T.doubles.vote (hosts.cluster p).1.unpublished w.key w.time = none :=
      fun p hp => vote_published_eq_none (h.buffered p hp) (h.accepted p hp) hother
    exact absurd ((hmem.mp hw).symm.trans (Cluster.median_eq_none hS hf hcrc hq htwo hvote)) (by simp)
  · intro i e
    have htext : ∀ p, ∃ x, p ∉ faulty → T.stod (((hosts p).tasks i).sim.state e) = .ok x := by
      intro p
      by_cases hp : p ∈ faulty
      · exact ⟨0, fun hp' => absurd hp hp'⟩
      · obtain ⟨x, hx, -⟩ := (h.isText p hp i e).exists_stod
        exact ⟨x, fun _ => hx⟩
    choose x hx using htext
    obtain ⟨y, hy, ⟨p, hp, hlo⟩, p', hp', hhi⟩ := Cluster.median_between hS hf hcrc hq hthree
      fun p hp => vote_published (h.buffered p hp) (h.accepted p hp) hfits (hx p hp) (h.isText p hp)
    refine ⟨y, fun v => ?_, ⟨p, hp, x p, hlo, hx p hp⟩, p', hp', x p', hhi, hx p' hp'⟩
    rw [hmem]
    exact ⟨fun hv => Option.some.inj (hv.symm.trans hy), fun hv => hv ▸ hy⟩

/-- The job of the store. -/
theorem Published.fused (h : Published T s faulty k hosts) (hS : S.Tolerates)
    (hf : faulty.card ≤ S.height - 1) (htwo : faulty.card ≤ 2) (hthree : 3 ≤ S.degree - faulty.card)
    (hfits : ∀ i, s.release (k + 1) i < 2 ^ 64) {order : Fin S.degree → FuseOrder ℚ} {j : ClusterJob S P}
    (hcrc : hosts.cluster.NoCollision crc faulty j)
    (hok : ∀ q ∉ faulty, (hosts.cluster.fusedJob crc faulty (F := T.doubles) (.median order) j q).2 = .ok ()) :
    Synchronised T s faulty (k + 1) (hosts.fused T crc faulty order j) := by
  have hledger : ∀ q ∉ faulty, ∃ ks,
      (hosts q).kvs.ledger.Extends (hosts.fused T crc faulty order j q).kvs.ledger ks
        (medianCommits T.doubles (order q)
          (S.interactiveConsistencyVector ((hosts.cluster.lockstep faulty j).result crc j.order q))) := by
    intro q hq
    obtain ⟨ledger, hledger, hjob⟩ := Cluster.fusedJob_ok (h.alike.tree q hq) (hok q hq)
    rw [Hosts.fused, hjob]
    exact ⟨_, extends_medianOfDoubles hledger⟩
  refine ⟨h.alike.job hS hf hcrc (fun _ _ _ _ => Doubles.sortsAlike_exact _ _ _) hok, fun _ _ => rfl,
    fun q hq => BFTKVS.buffered_job crc q _ _, fun q hq => ?_, fun _ => hfits, fun q hq e time => ?_,
    fun _ q hq e i => ?_, h.scheduled, h.numJobs, h.isText, h.reads, h.writes⟩
  · obtain ⟨ks, hext⟩ := hledger q hq
    exact (h.consistent q hq).of_extends hext
  · obtain ⟨ks, hext⟩ := hledger q hq
    obtain ⟨honly, hall⟩ := h.commits hS hf htwo hthree hfits hcrc hq (order q)
    rw [hext.mem_logTimes, h.times q hq]
    constructor
    · rintro (⟨k', i, hpos, hle, rfl⟩ | ⟨w, hw, -, rfl⟩)
      · exact ⟨k', i, hpos, hle.trans k.le_succ, rfl⟩
      · obtain ⟨i, hi⟩ := honly w hw
        exact ⟨k + 1, i, k.succ_pos, le_rfl, hi⟩
    · rintro ⟨k', i, hpos, hle, rfl⟩
      rcases Nat.lt_or_eq_of_le hle with hlt | rfl
      · exact Or.inl ⟨k', i, hpos, Nat.le_of_lt_succ hlt, rfl⟩
      · obtain ⟨y, hy, -⟩ := hall i e
        exact Or.inr ⟨_, (hy _).mpr rfl, rfl, rfl⟩
  · obtain ⟨ks, hext⟩ := hledger q hq
    obtain ⟨-, hall⟩ := h.commits hS hf htwo hthree hfits hcrc hq (order q)
    obtain ⟨y, hy, hbelow, habove⟩ := hall i e
    refine ⟨y, ?_, hbelow, habove⟩
    refine Ledger.log_of_append hext.commits (w := ⟨e.name, s.time (k + 1) i, T.toString y⟩)
      ((hy _).mpr rfl) fun w' hw' hkey htime => ?_
    obtain ⟨key, time, value⟩ := w'
    obtain rfl : key = e.name := hkey
    obtain rfl : time = s.time (k + 1) i := htime
    exact (hy value).mp hw'

end Period

/-! ## New hosts -/

/-- A new task. -/
theorem IvPSim.new_eq {T : Texts} {timePeriodNs offsetNs : Uint64} {sim : IvPSim ℚ Str}
    (h : IvPSim.new T.numbers timePeriodNs offsetNs = some sim) :
    sim.timePeriodNs = timePeriodNs ∧ sim.offsetNs = offsetNs ∧ sim.numJobs = 0
      ∧ sim.state = T.numbers.initialState := by
  obtain ⟨ts, -, hsim⟩ := Option.bind_eq_some_iff.mp h
  rw [← Option.some.inj hsim]
  exact ⟨rfl, rfl, rfl, rfl⟩

theorem nul_notMem_pointed (n : ℕ) : 0 ∉ Rounding.pointed n := by
  intro h
  rcases List.mem_append.mp h with h | h
  · exact absurd (Decimal.isDigit_of_mem_render h) (by decide)
  · rcases List.mem_cons.mp h with h | h
    · exact absurd h (by decide)
    · exact absurd (Decimal.isDigit_of_mem_lastDigits h) (by decide)

/-- Texts with six decimals. -/
def Texts.decimals (sin cos : ℚ → ℚ) : Texts where
  stod s := (denoted s).elim (.error .invalidArgument) .ok
  toString := Rounding.halfUp.toStr
  sin := sin
  cos := cos
  stod_toString x := by
    obtain ⟨y, hy, hprintable⟩ : ∃ y, denoted (Rounding.halfUp.toStr x) = some y ∧ Printable y := by
      refine ⟨_, denoted_toStr _ x, ?_⟩
      split
      · exact ⟨-Rounding.halfUp.millionths x, by push_cast; ring⟩
      · exact ⟨Rounding.halfUp.millionths x, by push_cast; ring⟩
    exact ⟨y, by rw [hy]; rfl, by rw [(denoted_toStr_eq_iff _).mpr hprintable]; rfl⟩
  nul_notMem q := by
    unfold Rounding.toStr
    split
    · rw [List.mem_cons, not_or]
      exact ⟨by decide, nul_notMem_pointed _⟩
    · exact nul_notMem_pointed _

/-- Decimals, for a pendulum whose angle has no sine. -/
def level : Texts := Texts.decimals (fun _ => 0) fun _ => 1

/-- What the tasks write. -/
def moved : Entry → Str :=
  ((IvPSim.advance level.numbers 50000000 (nsToSec 50000000 * (5 / 100 / nsToSec 50000000))
    level.numbers.initialState)).getD level.numbers.initialState

section Runs

variable {T : Texts} {s : Schedule m} {crc : List UInt8 → UInt32} {faulty : Finset (Fin S.degree)}
  {periods : List (Fin S.degree → Fin m → JobClocks)} {hosts : Hosts S P m}

/-- A job whose reads change nothing. -/
def unread (lastInterArrivalNs : Uint64) : JobInput Str := ⟨0, 0, fun _ _ value => value, lastInterArrivalNs⟩

end Runs

end Applications
