import Inconcretes.BftKvs.Replication
import Inconcretes.Kzh15.Trim
import Inconcretes.Lib.Quota
import Mathlib.Algebra.BigOperators.Fin

/-!
# The tasks of the benchmark

A `KZH15Task` reads and writes the labels of its runnables, with the numbers of the labels as keys. `Cpu`
is a processor with its tasks and their `BFTKVS`. The jobs of the tasks are interleaved call by call, each
call with the times that it reads from the clock. When each task runs at most one job between two jobs of
the store and the writes of all jobs together have room there, every write finds room (`Cpu.Inv.reaches`,
`Cpu.Inv.written_fits`), and for positive periods only then (`Cpu.safe_new_iff`).
-/

namespace KZH15

open Std Achal

variable {D : Type}

/-! ## Making tasks -/

/-- `std::to_string(lid)`. -/
def toString (lid : ℤ) : Str :=
  if lid < 0 then 45 :: Decimal.render lid.natAbs else Decimal.render lid.natAbs

/-- `std::max(std::min(max_label_size, label_sizes[lid]) - 1, 1)`. -/
def labelSize (maxLabelSize size : ℤ) : ℤ := max (min maxLabelSize size - 1) 1

/-- `MS_TO_NS(t)`, an `int` as `uint64_t`. -/
def msToNs (t : ℤ) : Uint64 := Fin.ofNat (2 ^ 64) (t * 1000000 % 2 ^ 64).toNat

/-- `KZH15Task`, with the vectors of keys and values by the list of labels that they are made from. -/
structure KZH15Task where
  timePeriodNs : Uint64
  keys : Access → List Str
  values : Access → List Str

/-- `KZH15Task(…, task, label_sizes, max_label_size, …)`. A label without a size gets the size 0. Without a
result a null pointer is dereferenced. -/
def KZH15Task.new (b : BenchmarkInstanceBasic D) (maxLabelSize : ℤ) (t : TaskBasic D) : Option KZH15Task := do
  let runnables ← t.runnables.mapM fun r => r.bind fun ptr => b.heap[ptr]?
  return {
    timePeriodNs := msToNs t.periodMs
    keys := fun a => runnables.flatMap fun r => (r.labels a).map toString
    values := fun a => runnables.flatMap fun r => (r.labels a).map fun lid =>
      List.replicate (labelSize maxLabelSize (b.labelSizes.getD lid 0)).toNat 97 }

namespace KZH15Task

/-- The calls of a job on the store: the entry `i` of one of the vectors is read or written. -/
inductive Operation
  | tryRead (a : Access) (i : ℕ)
  | tryWrite (a : Access) (i : ℕ)

/-- `try_read_batch`. -/
def tryReadBatch (t : KZH15Task) (a : Access) : List Operation :=
  (List.range (t.keys a).length).map (.tryRead a)

/-- `try_write_batch`. -/
def tryWriteBatch (t : KZH15Task) (a : Access) : List Operation :=
  (List.range (t.keys a).length).map (.tryWrite a)

/-- `job()`, without its statistics. -/
def job (t : KZH15Task) : List Operation :=
  t.tryReadBatch .roRead ++ t.tryReadBatch .rwIntraTaskRead ++ t.tryReadBatch .rwInterTaskRead
    ++ t.tryWriteBatch .woWritten ++ t.tryWriteBatch .rwInterTaskWritten
    ++ t.tryWriteBatch .rwIntraTaskWritten ++ t.tryWriteBatch .roRead

/-- The keys that a job writes. -/
def keysWritten (t : KZH15Task) : List Str :=
  t.keys .woWritten ++ t.keys .rwInterTaskWritten ++ t.keys .rwIntraTaskWritten ++ t.keys .roRead

end KZH15Task

/-! ## Running tasks -/

/-- A task that runs. -/
structure RunningTask extends KZH15Task where
  /-- `rw_inter_task_labels_read_freshness_constraints`: the period of the writer of each label. -/
  freshnessConstraints : ℕ → Uint64
  releaseTime : Uint64
  /-- What is left of the job. -/
  pending : List KZH15Task.Operation
  /-- Whether a job ran since the last job of the store. No function reads this. -/
  worked : Bool

namespace RunningTask

/-- A task before its first job. -/
def init (t : KZH15Task) (freshnessConstraints : ℕ → Uint64) : RunningTask :=
  { t with freshnessConstraints, releaseTime := 0, pending := [], worked := false }

/-- `my_release_time_without_offset()` when the clock shows `now`. -/
def myReleaseTimeWithoutOffset (t : RunningTask) (now : Uint64) : Uint64 :=
  now / t.timePeriodNs * t.timePeriodNs

/-- `others_release_time_without_offset(others_period_ns)` when the clock shows `now`. -/
def othersReleaseTimeWithoutOffset (othersPeriodNs now : Uint64) : Uint64 :=
  now / othersPeriodNs * othersPeriodNs

/-- The time that a read passes to the store. -/
def noEarlierThan (t : RunningTask) (a : Access) (i : ℕ) (clock : Uint64) : Uint64 :=
  if a = .rwInterTaskRead ∧ t.freshnessConstraints i > t.timePeriodNs then
    othersReleaseTimeWithoutOffset (t.freshnessConstraints i) clock
  else t.releaseTime

/-- `publish_time`. -/
def publishTime (t : RunningTask) : Uint64 := t.releaseTime + t.timePeriodNs

/-- The begin of a job. -/
def release (t : RunningTask) (now : Uint64) : RunningTask :=
  { t with
    releaseTime := t.myReleaseTimeWithoutOffset now, pending := t.job, worked := true }

/-- `try_read` of an entry. -/
def tryRead (t : RunningTask) (store : Store) (a : Access) (i : ℕ) (clock now : Uint64) :
    Option RunningTask := do
  let key ← (t.keys a)[i]?
  let value ← (t.values a)[i]?
  let read := store.tryReadInto key (t.noEarlierThan a i clock) now value
  return { t with values := Function.update t.values a ((t.values a).set i read.2) }

/-- The tuple that `try_write` of an entry passes to the store. -/
def tuple (t : RunningTask) (a : Access) (i : ℕ) : Option Ktv := do
  let key ← (t.keys a)[i]?
  let value ← (t.values a)[i]?
  return ⟨key, t.publishTime, value⟩

end RunningTask

variable (S : Shape) (P : Params) (n : ℕ)

/-- The store of a processor and its tasks. -/
structure Cpu where
  kvs : BFTKVS P
  tasks : Fin n → RunningTask

/-- What happens on a processor: a job of the store, which uses `strong_simple_majority_of_strings`, the
begin of a job of a task, or its next call, with the times that the clock shows. -/
inductive Event
  | kvsJob (i : JobInput S P) (o : FuseOrder Str) (freqOrder : Str → Uint64 → IterOrder Str ℕ)
  | release (k : Fin n) (now : Uint64)
  | proceed (k : Fin n) (clock now : Uint64)

variable {S P n}

namespace Cpu

/-- A new store and its tasks. -/
def init (tasks : Fin n → KZH15Task) (freshnessConstraints : Fin n → ℕ → Uint64) : Cpu P n where
  kvs := BFTKVS.init
  tasks k := .init (tasks k) (freshnessConstraints k)

/-- The call of a task on the store. -/
def perform (s : Cpu P n) (k : Fin n) (rest : List KZH15Task.Operation) (clock now : Uint64) :
    KZH15Task.Operation → Option (Cpu P n)
  | .tryRead a i => do
    let t ← (s.tasks k).tryRead s.kvs.ledger.store a i clock now
    return { s with tasks := Function.update s.tasks k { t with pending := rest } }
  | .tryWrite a i => do
    let w ← (s.tasks k).tuple a i
    let (_, kvs) ← s.kvs.tryWrite now w
    return { kvs, tasks := Function.update s.tasks k { s.tasks k with pending := rest } }

/-- One event. -/
def exec (crc : List UInt8 → UInt32) (pid : Fin S.degree) (s : Cpu P n) : Event S P n → Option (Cpu P n)
  | .kvsJob i o freqOrder =>
    some {
      kvs := (s.kvs.job crc pid { i with fuse := some (strongFuse o freqOrder) }).1
      tasks := fun k => { s.tasks k with worked := !(s.tasks k).pending.isEmpty } }
  | .release k now => some { s with tasks := Function.update s.tasks k ((s.tasks k).release now) }
  | .proceed k clock now =>
    match (s.tasks k).pending with
    | [] => some s
    | op :: rest => s.perform k rest clock now op

/-- A task begins a job after its last one, and when it has not worked since the last job of the store. -/
def Enabled (s : Cpu P n) : Event S P n → Prop
  | .kvsJob .. => True
  | .release k _ => (s.tasks k).pending = [] ∧ (s.tasks k).worked = false
  | .proceed k .. => (s.tasks k).pending ≠ []

/-- The runs in which each task runs at most one job between two jobs of the store. -/
inductive Reaches (crc : List UInt8 → UInt32) (pid : Fin S.degree) (s : Cpu P n) : Cpu P n → Prop
  | refl : Reaches crc pid s s
  | tail {s₁ s₂ : Cpu P n} (e : Event S P n) (h : Reaches crc pid s s₁) (henabled : s₁.Enabled e)
    (hexec : s₁.exec crc pid e = some s₂) : Reaches crc pid s s₂

/-- The tuple that an event writes. -/
def written (s : Cpu P n) : Event S P n → Option Ktv
  | .proceed k _ _ =>
    match (s.tasks k).pending with
    | .tryWrite a i :: _ => (s.tasks k).tuple a i
    | _ => none
  | _ => none

end Cpu

/-! ## Jobs within their quotas -/

namespace KZH15Task.Operation

def isWrite : Operation → Bool
  | tryRead .. => false
  | tryWrite .. => true

/-- The entry exists. -/
def InRange (t : KZH15Task) : Operation → Prop
  | tryRead a i => i < (t.keys a).length
  | tryWrite a i => i < (t.keys a).length

end KZH15Task.Operation

theorem KZH15Task.inRange_of_mem_job {t : KZH15Task} {op : Operation} (h : op ∈ t.job) : op.InRange t := by
  have hread : ∀ a, op ∈ t.tryReadBatch a → op.InRange t := by
    intro a ha
    obtain ⟨i, hi, rfl⟩ := List.mem_map.mp ha
    exact List.mem_range.mp hi
  have hwrite : ∀ a, op ∈ t.tryWriteBatch a → op.InRange t := by
    intro a ha
    obtain ⟨i, hi, rfl⟩ := List.mem_map.mp ha
    exact List.mem_range.mp hi
  simp only [job, List.mem_append] at h
  rcases h with (((((h | h) | h) | h) | h) | h) | h
  exacts [hread _ h, hread _ h, hread _ h, hwrite _ h, hwrite _ h, hwrite _ h, hwrite _ h]

/-- A job makes as many writes as it has keys to write. -/
theorem KZH15Task.countP_isWrite_job (t : KZH15Task) :
    t.job.countP Operation.isWrite = t.keysWritten.length := by
  have hread : ∀ a, (t.tryReadBatch a).countP Operation.isWrite = 0 := fun a => by
    simp [tryReadBatch, List.countP_map, Function.comp_def, Operation.isWrite]
  have hwrite : ∀ a, (t.tryWriteBatch a).countP Operation.isWrite = (t.keys a).length := fun a => by
    simp [tryWriteBatch, List.countP_map, Function.comp_def, Operation.isWrite]
  simp only [job, keysWritten, List.countP_append, List.length_append, hread, hwrite, Nat.zero_add]

/-- A task whose keys and values fit into tuples. -/
structure KZH15Task.Fits (P : Params) (t : KZH15Task) : Prop where
  key_le : ∀ a, ∀ key ∈ t.keys a, key.length ≤ P.KS
  value_le : ∀ a, ∀ value ∈ t.values a, value.length ≤ P.VS
  length_values : ∀ a, (t.values a).length = (t.keys a).length

/-- A running task whose keys and values fit, and whose calls have entries. -/
structure RunningTask.Sound (P : Params) (t : RunningTask) : Prop extends t.toKZH15Task.Fits P where
  inRange : ∀ op ∈ t.pending, op.InRange t.toKZH15Task

/-- The writes that are left of the job. -/
def RunningTask.writesLeft (t : RunningTask) : ℕ := t.pending.countP KZH15Task.Operation.isWrite

/-- The invariant of a processor: there is room for what is left of the jobs, and whatever is written
fits. -/
structure Cpu.Inv (quota : Fin n → ℕ) (s : Cpu P n) : Prop where
  sound : ∀ k, (s.tasks k).Sound P
  length_keysWritten : ∀ k, (s.tasks k).keysWritten.length = quota k
  bounded : s.kvs.ledger.Bounded P
  room : ∃ accepted, s.kvs.Buffered accepted ∧ Quota.Within quota accepted.length
    (fun k => (s.tasks k).writesLeft) fun k => (s.tasks k).worked = true

namespace RunningTask.Sound

variable {t : RunningTask} (h : t.Sound P)

include h

theorem rest {op : KZH15Task.Operation} {rest : List KZH15Task.Operation} (hpending : t.pending = op :: rest) :
    { t with pending := rest }.Sound P :=
  ⟨h.toFits, fun op hop => h.inRange op (hpending ▸ List.mem_cons_of_mem _ hop)⟩

theorem release (now : Uint64) : (t.release now).Sound P :=
  ⟨h.toFits, fun _ hop => KZH15Task.inRange_of_mem_job hop⟩

/-- A tuple that is written fits. -/
theorem fits_tuple {a : Access} {i : ℕ} {w : Ktv} (hw : t.tuple a i = some w) : w.Fits P := by
  obtain ⟨key, hkey, hw⟩ := Option.bind_eq_some_iff.mp hw
  obtain ⟨value, hvalue, hw⟩ := Option.bind_eq_some_iff.mp hw
  obtain rfl := Option.some.inj hw
  exact ⟨h.key_le a key (List.mem_of_getElem? hkey), h.value_le a value (List.mem_of_getElem? hvalue)⟩

theorem exists_tuple {a : Access} {i : ℕ} (hi : i < (t.keys a).length) :
    ∃ w, t.tuple a i = some w ∧ w.time = t.publishTime := by
  have hi' : i < (t.values a).length := (h.length_values a).symm ▸ hi
  refine ⟨⟨(t.keys a)[i], t.publishTime, (t.values a)[i]⟩, ?_, rfl⟩
  rw [RunningTask.tuple, List.getElem?_eq_getElem hi, List.getElem?_eq_getElem hi']
  rfl

/-- A read leaves a value that fits. -/
theorem exists_tryRead {s : Ledger} (hs : s.Bounded P) {a : Access} {i : ℕ} (hi : i < (t.keys a).length)
    (clock now : Uint64) : ∃ t', t.tryRead s.store a i clock now = some t' ∧ t'.Sound P
      ∧ t'.keys = t.keys ∧ t'.pending = t.pending ∧ t'.worked = t.worked
      ∧ t'.publishTime = t.publishTime := by
  have hi' : i < (t.values a).length := (h.length_values a).symm ▸ hi
  obtain ⟨read, hread⟩ : ∃ read, s.store.tryReadInto (t.keys a)[i] (t.noEarlierThan a i clock) now
      (t.values a)[i] = read := ⟨_, rfl⟩
  have hfits : read.2.length ≤ P.VS := by
    rw [← hread, Store.tryReadInto]
    split
    · rename_i hfound
      exact hs.length_tryRead_le hfound
    · exact h.value_le a _ (List.getElem_mem hi')
  refine ⟨{ t with values := Function.update t.values a ((t.values a).set i read.2) }, ?_,
    ⟨⟨h.key_le, ?_, ?_⟩, h.inRange⟩, rfl, rfl, rfl, rfl⟩
  · rw [RunningTask.tryRead, List.getElem?_eq_getElem hi, List.getElem?_eq_getElem hi', ← hread]
    rfl
  · intro a' value hvalue
    dsimp only at hvalue
    by_cases ha : a' = a
    · subst ha
      rw [Function.update_self] at hvalue
      rcases List.mem_or_eq_of_mem_set hvalue with hvalue | rfl
      · exact h.value_le _ value hvalue
      · exact hfits
    · rw [Function.update_of_ne ha] at hvalue
      exact h.value_le a' value hvalue
  · intro a'
    dsimp only
    by_cases ha : a' = a
    · subst ha
      rw [Function.update_self, List.length_set]
      exact h.length_values _
    · rw [Function.update_of_ne ha]
      exact h.length_values a'

end RunningTask.Sound

namespace Cpu.Inv

variable {quota : Fin n → ℕ} {s : Cpu P n} (h : s.Inv quota)

include h

/-- A step of one task. -/
theorem update {k : Fin n} {t : RunningTask} {kvs : BFTKVS P} (ht : t.Sound P)
    (hkeys : t.keys = (s.tasks k).keys) (hbounded : kvs.ledger.Bounded P)
    (hroom : ∃ accepted, kvs.Buffered accepted ∧ Quota.Within quota accepted.length
      (Function.update (fun j => (s.tasks j).writesLeft) k t.writesLeft)
      (Function.update (fun j => (s.tasks j).worked = true) k (t.worked = true))) :
    (⟨kvs, Function.update s.tasks k t⟩ : Cpu P n).Inv quota where
  sound j := by
    dsimp only
    by_cases hj : j = k
    · subst hj
      rw [Function.update_self]
      exact ht
    · rw [Function.update_of_ne hj]
      exact h.sound j
  length_keysWritten j := by
    dsimp only
    by_cases hj : j = k
    · subst hj
      rw [Function.update_self, ← h.length_keysWritten, KZH15Task.keysWritten, KZH15Task.keysWritten, hkeys]
    · rw [Function.update_of_ne hj]
      exact h.length_keysWritten j
  bounded := hbounded
  room := by
    obtain ⟨accepted, hbuffered, hwithin⟩ := hroom
    refine ⟨accepted, hbuffered, ?_⟩
    have hleft := Function.comp_update RunningTask.writesLeft s.tasks k t
    have hworked := Function.comp_update (fun t : RunningTask => t.worked = true) s.tasks k t
    exact (congrArg₂ (Quota.Within quota accepted.length) hleft hworked).mpr hwithin

/-- What is written fits, and there is room for it. -/
theorem written_fits (hquota : ∑ k, quota k ≤ P.NT) {e : Event S P n} {w : Ktv}
    (hw : s.written e = some w) : w.Fits P ∧ s.kvs.unpublished.length.val < P.NT := by
  cases e with
  | kvsJob i o freqOrder => cases hw
  | release k now => cases hw
  | proceed k clock now =>
    rw [written] at hw
    split at hw
    · rename_i a i rest hpending
      refine ⟨(h.sound k).fits_tuple hw, ?_⟩
      obtain ⟨accepted, hbuffered, hwithin⟩ := h.room
      have hleft : 0 < (s.tasks k).writesLeft := by
        rw [RunningTask.writesLeft, hpending]
        exact List.countP_pos_iff.mpr ⟨_, List.mem_cons_self, rfl⟩
      rw [hbuffered.holds.1]
      exact (hwithin.filled_lt hleft).trans_le hquota
    · cases hw

omit h in
/-- The store after a job. -/
theorem bounded_job {kvs : BFTKVS P} (hkvs : kvs.ledger.Bounded P) (crc : List UInt8 → UInt32)
    (pid : Fin S.degree) (i : JobInput S P) (o : FuseOrder Str) (freqOrder : Str → Uint64 → IterOrder Str ℕ) :
    (kvs.job crc pid { i with fuse := some (strongFuse o freqOrder) }).1.ledger.Bounded P := by
  unfold BFTKVS.job
  split
  · exact hkvs
  · exact hkvs.strong o freqOrder _

theorem kvsJob (crc : List UInt8 → UInt32) (pid : Fin S.degree) (i : JobInput S P) (o : FuseOrder Str)
    (freqOrder : Str → Uint64 → IterOrder Str ℕ) :
    ∃ s', s.exec crc pid (.kvsJob i o freqOrder) = some s' ∧ s'.Inv quota := by
  obtain ⟨accepted, -, hwithin⟩ := h.room
  refine ⟨_, rfl, fun k => ?_, h.length_keysWritten, bounded_job h.bounded crc pid i o freqOrder, [],
    BFTKVS.buffered_job crc pid _ s.kvs, Quota.within_empty hwithin.left_le fun k hidle => ?_⟩
  · exact ⟨(h.sound k).toFits, (h.sound k).inRange⟩
  · have hdone : (s.tasks k).pending = [] := by simpa using hidle
    show (s.tasks k).writesLeft = 0
    rw [RunningTask.writesLeft, hdone]
    rfl

theorem release (crc : List UInt8 → UInt32) (pid : Fin S.degree) {k : Fin n} (now : Uint64)
    (hidle : (s.tasks k).worked = false) :
    ∃ s', s.exec crc pid (.release k now) = some s' ∧ s'.Inv quota := by
  obtain ⟨accepted, hbuffered, hwithin⟩ := h.room
  have hquota : ((s.tasks k).release now).writesLeft = quota k :=
    ((s.tasks k).countP_isWrite_job).trans (h.length_keysWritten k)
  exact ⟨_, rfl, h.update ((h.sound k).release now) rfl h.bounded ⟨accepted, hbuffered,
    hwithin.begin (by simp [hidle]) hquota.le rfl (congrArg _ (eq_true rfl))⟩⟩

/-- What a call does: the task goes on, and a write is accepted if it is in time and there is room. -/
theorem perform_spec {k : Fin n} {op : KZH15Task.Operation} {rest : List KZH15Task.Operation}
    (hop : (s.tasks k).pending = op :: rest) (clock now : Uint64) {accepted : List Ktv}
    (hbuffered : s.kvs.Buffered accepted) :
    ∃ kvs t accepted', s.perform k rest clock now op = some ⟨kvs, Function.update s.tasks k t⟩
      ∧ t.Sound P ∧ t.keys = (s.tasks k).keys ∧ t.pending = rest ∧ t.worked = (s.tasks k).worked
      ∧ t.publishTime = (s.tasks k).publishTime ∧ kvs.ledger = s.kvs.ledger ∧ kvs.Buffered accepted'
      ∧ accepted'.length ≤ accepted.length + op.isWrite.toNat
      ∧ (now < t.publishTime → (op.isWrite = true → s.kvs.unpublished.length.val < P.NT) →
        accepted'.length = accepted.length + op.isWrite.toNat) := by
  have hsound := h.sound k
  have hinRange := hsound.inRange op (hop ▸ List.mem_cons_self)
  cases op with
  | tryRead a i =>
    obtain ⟨t, ht, htsound, hkeys, htpending, hworked, hpublish⟩ :=
      hsound.exists_tryRead h.bounded hinRange clock now
    exact ⟨s.kvs, { t with pending := rest }, accepted, by rw [perform, ht]; rfl,
      htsound.rest (htpending.trans hop), hkeys, rfl, hworked, hpublish, rfl, hbuffered, le_rfl,
      fun _ _ => rfl⟩
  | tryWrite a i =>
    obtain ⟨w, hw, htime⟩ := hsound.exists_tuple hinRange
    have hfits := hsound.fits_tuple hw
    obtain ⟨⟨b, kvs⟩, hwrite⟩ := s.kvs.tryWrite_returns now hfits
    have hledger : kvs.ledger = s.kvs.ledger := by
      rcases BFTKVS.tryWrite_cases hwrite with ⟨-, rfl⟩ | ⟨-, -, -, rfl⟩ <;> rfl
    refine ⟨kvs, { s.tasks k with pending := rest }, _, ?_, hsound.rest hop, rfl, rfl, rfl, rfl, hledger,
      hbuffered.tryWrite hwrite, ?_, fun hnow hroom => ?_⟩
    · rw [perform, hw]
      dsimp only [Option.bind_eq_bind, Option.bind_some]
      rw [hwrite]
      rfl
    · cases b with
      | false => exact Nat.le_succ _
      | true => exact (List.length_append ..).le
    · obtain ⟨kvs', haccepted⟩ := BFTKVS.tryWrite_accepts (htime ▸ hnow) hfits (hroom rfl)
      obtain ⟨rfl, -⟩ := Prod.mk.inj (Option.some.inj (haccepted.symm.trans hwrite))
      exact List.length_append ..

theorem proceed (crc : List UInt8 → UInt32) (pid : Fin S.degree) {k : Fin n} (clock now : Uint64)
    (hpending : (s.tasks k).pending ≠ []) :
    ∃ s', s.exec crc pid (.proceed k clock now) = some s' ∧ s'.Inv quota := by
  obtain ⟨op, rest, hop⟩ := List.exists_cons_of_ne_nil hpending
  obtain ⟨accepted, hbuffered, hwithin⟩ := h.room
  obtain ⟨kvs, t, accepted', hperform, htsound, hkeys, htpending, hworked, -, hledger, hbuffered', hle, -⟩ :=
    h.perform_spec hop clock now hbuffered
  rw [exec, hop]
  refine ⟨_, hperform, h.update htsound hkeys (hledger ▸ h.bounded) ⟨accepted', hbuffered', ?_⟩⟩
  rw [hworked, Function.update_eq_self k fun j => (s.tasks j).worked = true, RunningTask.writesLeft, htpending]
  have hleft : (s.tasks k).writesLeft
      = rest.countP KZH15Task.Operation.isWrite + op.isWrite.toNat := by
    rw [RunningTask.writesLeft, hop, List.countP_cons]
    cases op.isWrite <;> rfl
  cases hwrite : op.isWrite with
  | false =>
    rw [hwrite] at hleft hle
    have hsame : (s.tasks k).writesLeft = rest.countP KZH15Task.Operation.isWrite := hleft
    rw [← hsame, Function.update_eq_self k fun j => (s.tasks j).writesLeft]
    exact hwithin.mono hle
  | true =>
    rw [hwrite] at hleft hle
    exact (hwithin.put hleft rfl).mono hle

/-- Every event that is enabled keeps the invariant. -/
theorem exec (crc : List UInt8 → UInt32) (pid : Fin S.degree) {e : Event S P n} (he : s.Enabled e) :
    ∃ s', s.exec crc pid e = some s' ∧ s'.Inv quota := by
  cases e with
  | kvsJob i o freqOrder => exact h.kvsJob crc pid i o freqOrder
  | release k now => exact h.release crc pid now he.2
  | proceed k clock now => exact h.proceed crc pid clock now he

/-- The invariant holds in every run. -/
theorem reaches {crc : List UInt8 → UInt32} {pid : Fin S.degree} {s' : Cpu P n}
    (hreaches : s.Reaches crc pid s') : s'.Inv quota := by
  induction hreaches with
  | refl => exact h
  | tail e _ henabled hexec ih =>
    obtain ⟨s₂, hsome, hinv⟩ := ih.exec crc pid henabled
    rwa [← Option.some.inj (hsome.symm.trans hexec)]

end Cpu.Inv

/-- New tasks with keys and values that fit. -/
theorem Cpu.inv_init {tasks : Fin n → KZH15Task} {quota : Fin n → ℕ} (hfits : ∀ k, (tasks k).Fits P)
    (hquota : ∀ k, (tasks k).keysWritten.length = quota k) (constraints : Fin n → ℕ → Uint64) :
    (Cpu.init tasks constraints : Cpu P n).Inv quota where
  sound k := ⟨hfits k, nofun⟩
  length_keysWritten := hquota
  bounded := Ledger.bounded_empty
  room := ⟨[], BFTKVS.buffered_init, Quota.within_empty (fun _ => Nat.zero_le _) fun _ _ => rfl⟩

/-! ## Runs that fill the store -/

namespace Cpu

variable {crc : List UInt8 → UInt32} {pid : Fin S.degree}

/-- In every run no assertion fails, and every write fits and finds room. -/
def Safe (crc : List UInt8 → UInt32) (pid : Fin S.degree) (s : Cpu P n) : Prop :=
  ∀ s', s.Reaches crc pid s' → ∀ e : Event S P n, s'.Enabled e →
    (∃ s'', s'.exec crc pid e = some s'')
      ∧ ∀ w, s'.written e = some w → w.Fits P ∧ s'.kvs.unpublished.length.val < P.NT

theorem Reaches.trans {s s' s'' : Cpu P n} (h : s.Reaches crc pid s') (h' : s'.Reaches crc pid s'') :
    s.Reaches crc pid s'' := by
  induction h' with
  | refl => exact h
  | tail e _ henabled hexec ih => exact .tail e ih henabled hexec

theorem Safe.of_reaches {s s' : Cpu P n} (h : s.Safe crc pid) (hreaches : s.Reaches crc pid s') :
    s'.Safe crc pid := fun s'' hs'' => h s'' (hreaches.trans hs'')

variable {quota : Fin n → ℕ}

theorem Inv.safe {s : Cpu P n} (h : s.Inv quota) (hquota : ∑ k, quota k ≤ P.NT) : s.Safe crc pid := by
  intro s' hs' e he
  have hinv := h.reaches hs'
  obtain ⟨s'', hexec, -⟩ := hinv.exec crc pid he
  exact ⟨⟨s'', hexec⟩, fun w hw => hinv.written_fits hquota hw⟩

/-- A safe processor can finish the job of a task that is in time. -/
theorem Inv.finish {s : Cpu P n} (h : s.Inv quota) (hsafe : s.Safe crc pid) {k : Fin n}
    (htime : 0 < (s.tasks k).publishTime) {accepted : List Ktv} (hbuffered : s.kvs.Buffered accepted) :
    ∃ s' accepted', s.Reaches crc pid s' ∧ s'.kvs.Buffered accepted'
      ∧ accepted'.length = accepted.length + (s.tasks k).writesLeft ∧ ∀ j ≠ k, s'.tasks j = s.tasks j := by
  rw [RunningTask.writesLeft]
  generalize hops : (s.tasks k).pending = ops
  induction ops generalizing s accepted with
  | nil => exact ⟨s, accepted, .refl, hbuffered, rfl, fun _ _ => rfl⟩
  | cons op rest ih =>
    have henabled : s.Enabled (.proceed k 0 0 : Event S P n) := by
      rw [Enabled, hops]
      exact List.cons_ne_nil op rest
    have hroom : op.isWrite = true → s.kvs.unpublished.length.val < P.NT := by
      intro hwrite
      cases op with
      | tryRead a i => cases hwrite
      | tryWrite a i =>
        obtain ⟨w, hw, -⟩ :=
          (h.sound k).exists_tuple ((h.sound k).inRange _ (hops ▸ List.mem_cons_self))
        refine ((hsafe s .refl _ henabled).2 w ?_).2
        rw [written, hops]
        exact hw
    obtain ⟨kvs, t, accepted₁, hperform, -, -, hpending, -, hpublish, -, hbuffered₁, -, hexact⟩ :=
      h.perform_spec hops 0 0 hbuffered
    have hstep : s.Reaches crc pid ⟨kvs, Function.update s.tasks k t⟩ := by
      refine .tail (.proceed k 0 0) .refl henabled ?_
      rw [Cpu.exec, hops]
      exact hperform
    obtain ⟨s', accepted', hreaches, hbuffered', hlength, hothers⟩ :=
      ih (h.reaches hstep) (hsafe.of_reaches hstep) (by simpa [hpublish] using htime) hbuffered₁
        (by simpa using hpending)
    refine ⟨s', accepted', hstep.trans hreaches, hbuffered', ?_, fun j hj => ?_⟩
    · rw [hlength, hexact (hpublish ▸ htime) hroom, List.countP_cons]
      cases op.isWrite with
      | false => exact Nat.add_right_cancel_iff.mpr rfl
      | true =>
        simp only [Bool.toNat_true, if_true]
        omega
    · rw [hothers j hj]
      exact Function.update_of_ne hj ..

/-- A safe processor can run a job of each of some idle tasks. -/
theorem Inv.runAll (ks : List (Fin n)) (hnodup : ks.Nodup) {s : Cpu P n} (h : s.Inv quota)
    (hsafe : s.Safe crc pid) (hidle : ∀ k ∈ ks, (s.tasks k).pending = [] ∧ (s.tasks k).worked = false
      ∧ 0 < (s.tasks k).timePeriodNs) {accepted : List Ktv} (hbuffered : s.kvs.Buffered accepted) :
    ∃ s' accepted', s.Reaches crc pid s' ∧ s'.kvs.Buffered accepted'
      ∧ accepted'.length = accepted.length + (ks.map quota).sum := by
  induction ks generalizing s accepted with
  | nil => exact ⟨s, accepted, .refl, hbuffered, rfl⟩
  | cons k ks ih =>
    obtain ⟨hk, hks⟩ := List.nodup_cons.mp hnodup
    obtain ⟨⟨hpending, hworked, hperiod⟩, hrest⟩ := List.forall_mem_cons.mp hidle
    have hstep : s.Reaches crc pid
        { s with tasks := Function.update s.tasks k ((s.tasks k).release 0) } :=
      .tail (.release k 0) .refl ⟨hpending, hworked⟩ rfl
    have hpublish : ((s.tasks k).release 0).publishTime = (s.tasks k).timePeriodNs := by
      have hzero : (0 : Uint64) / (s.tasks k).timePeriodNs = 0 := Fin.ext (Nat.zero_div _)
      show 0 / (s.tasks k).timePeriodNs * (s.tasks k).timePeriodNs + (s.tasks k).timePeriodNs = _
      rw [hzero, Fin.zero_mul, Fin.zero_add]
    obtain ⟨s₁, accepted₁, hreaches₁, hbuffered₁, hlength₁, hothers⟩ :=
      (h.reaches hstep).finish (hsafe.of_reaches hstep) (k := k) (by simpa [hpublish] using hperiod) hbuffered
    have hquota : ((s.tasks k).release 0).writesLeft = quota k :=
      ((s.tasks k).countP_isWrite_job).trans (h.length_keysWritten k)
    have hstep₁ := hstep.trans hreaches₁
    obtain ⟨s', accepted', hreaches, hbuffered', hlength⟩ :=
      ih hks (h.reaches hstep₁) (hsafe.of_reaches hstep₁) (fun j hj => by
        have hne : j ≠ k := fun heq => hk (heq ▸ hj)
        rw [hothers j hne]
        dsimp only
        rw [Function.update_of_ne hne]
        exact hrest j hj) hbuffered₁
    refine ⟨s', accepted', hstep₁.trans hreaches, hbuffered', ?_⟩
    rw [hlength, hlength₁, List.map_cons, List.sum_cons]
    simp only [Function.update_self, hquota]
    omega

theorem sum_length_keysWritten (tasks : List KZH15Task) :
    ∑ k, (tasks.get k).keysWritten.length = (tasks.flatMap KZH15Task.keysWritten).length := by
  rw [List.length_flatMap, ← Fin.sum_univ_fun_getElem]
  rfl

section New

variable {tasks : List KZH15Task} (hfits : ∀ t ∈ tasks, t.Fits P)
  (constraints : Fin tasks.length → ℕ → Uint64)

include hfits

theorem inv_new : (init tasks.get constraints : Cpu P tasks.length).Inv
    fun k => (tasks.get k).keysWritten.length :=
  inv_init (fun k => hfits _ (List.get_mem tasks k)) (fun _ => rfl) constraints

/-- Runs are safe when there is room for one job of each task. -/
theorem safe_new (hroom : (tasks.flatMap KZH15Task.keysWritten).length ≤ P.NT) :
    (init tasks.get constraints : Cpu P tasks.length).Safe crc pid :=
  (inv_new hfits constraints).safe ((sum_length_keysWritten tasks).trans_le hroom)

/-- **Runs are safe exactly when there is room for one job of each task**, when the periods are positive. -/
theorem safe_new_iff (hperiod : ∀ t ∈ tasks, 0 < t.timePeriodNs) :
    (init tasks.get constraints : Cpu P tasks.length).Safe crc pid
      ↔ (tasks.flatMap KZH15Task.keysWritten).length ≤ P.NT := by
  refine ⟨fun hsafe => ?_, safe_new hfits constraints⟩
  obtain ⟨s', accepted, -, hbuffered, hlength⟩ :=
    (inv_new hfits constraints).runAll (List.finRange tasks.length) (List.nodup_finRange _) hsafe
      (fun k _ => ⟨rfl, rfl, hperiod _ (List.get_mem tasks k)⟩) BFTKVS.buffered_init
  rw [← sum_length_keysWritten, Fin.sum_univ_def, ← Nat.zero_add (List.sum _)]
  exact hlength.symm.trans_le hbuffered.length_le

end New

end Cpu

end KZH15
