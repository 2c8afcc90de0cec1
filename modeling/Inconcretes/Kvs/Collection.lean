import Inconcretes.Kvs.Redis
import Inconcretes.Lib.Binary64
import Inconcretes.Lib.SortedSet
import Mathlib.Data.Finset.Sort
import Mathlib.Data.List.Lex
import Mathlib.Logic.Function.Basic

/-!
# Garbage collection in Redis

The periodic job of `RedisKVS1` and `RedisKVS2` removes the lowest ranks of the sorted sets of its keys
until ten entries are left. Nothing in the code says which entries a reader may still ask for: the ten that
stay are those with the greatest publish times, also when these have not been reached. No read can tell
whether the jobs ran as long as fewer than ten values of the key wait for their publish times
(`tryRead_withoutJobs`). The sets stay small where the keys are known: `RedisKVS2` registers the keys that it
writes (`length_entries_run`), `RedisKVS1` has to be told.

The server is a parameter again, with two more commands and the ranks of its entries (`RankedRedis`). What
it holds is a sorted set for each key (`RankedRedis.sets`). Scores are doubles, so publish times and clocks
are rounded before they are compared.
-/

namespace Achal

namespace Memcmp

/-- The order of bytes. -/
scoped instance linearOrder : LinearOrder UInt8 where
  le_refl := UInt8.le_refl
  le_trans _ _ _ := UInt8.le_trans
  le_antisymm _ _ := UInt8.le_antisymm
  le_total := UInt8.le_total
  lt_iff_le_not_ge a b := by rw [UInt8.not_le, iff_and_self]; exact UInt8.le_of_lt
  toDecidableLE := inferInstance

end Memcmp

open Memcmp

/-- Sorted sets with ranks: by the scores, and among equal scores by the bytes of the members. -/
structure RankedRedis (Score : Type) [LinearOrder Score] extends Redis Score where
  /-- The entries of a key in the order of their ranks. -/
  ranks : Db → Str → List (Score ×ₗ Str)
  /-- `ZCOUNT key -inf +inf`. -/
  zcount : Db → Str → ℕ
  /-- `ZREMRANGEBYRANK key start stop`, both ends included. -/
  zremrangebyrank : Db → Str → ℕ → ℕ → Db
  mem_ranks : ∀ {db key time member}, toLex (time, member) ∈ ranks db key ↔ score db key member = some time
  ranks_ascending : ∀ db key, (ranks db key).Pairwise (· < ·)
  zrangebyscore_eq : ∀ db key lo hi, zrangebyscore db key lo hi
    = ((ranks db key).filter fun e => lo ≤ (ofLex e).1 ∧ (ofLex e).1 ≤ hi).map fun e => (ofLex e).2
  zcount_eq : ∀ db key, zcount db key = (ranks db key).length
  ranks_zremrangebyrank : ∀ db key start stop key', ranks (zremrangebyrank db key start stop) key'
    = if key = key' then (ranks db key).take start ++ (ranks db key).drop (max start (stop + 1))
      else ranks db key'

namespace RankedRedis

/-- A server that holds its sorted sets as such. -/
def inMemory {Score : Type} [LinearOrder Score] : RankedRedis Score where
  Db := Str → SortedSet Score Str
  empty _ := SortedSet.empty
  score db key member := (db key).score? member
  zadd db key member time := Function.update db key ((db key).add member time)
  zrangebyscore db key lo hi := (db key).range lo hi
  score_empty _ _ := rfl
  score_zadd db key member time key' member' := by
    refine Option.ext fun t => ?_
    by_cases hkey : key = key'
    · subst hkey
      rw [Function.update_self, SortedSet.score?_eq_some, SortedSet.mem_add]
      by_cases hmember : member = member'
      · subst hmember
        simp [eq_comm]
      · simp [hmember, Ne.symm hmember, SortedSet.score?_eq_some]
    · rw [Function.update_of_ne (Ne.symm hkey), if_neg fun h => hkey h.1]
  mem_zrangebyscore := by
    simp [SortedSet.range, SortedSet.score?_eq_some, and_assoc]
  zrangebyscore_ascending db key lo hi := by
    rw [SortedSet.range, List.pairwise_map]
    refine ((db key).ascending.filter _).imp_of_mem fun {e e'} he he' hlt time time' ht ht' => ?_
    have htime := SortedSet.eq_of_mem (List.mem_of_mem_filter he) (SortedSet.score?_eq_some.mp ht)
    have htime' := SortedSet.eq_of_mem (List.mem_of_mem_filter he') (SortedSet.score?_eq_some.mp ht')
    rw [← htime, ← htime']
    exact Prod.Lex.monotone_fst _ _ hlt.le
  ranks db key := (db key).entries
  zcount db key := (db key).entries.length
  zremrangebyrank db key start stop := Function.update db key ((db key).removeRange start stop)
  mem_ranks := SortedSet.score?_eq_some.symm
  ranks_ascending db key := (db key).ascending
  zrangebyscore_eq _ _ _ _ := rfl
  zcount_eq _ _ := rfl
  ranks_zremrangebyrank db key start stop key' := by
    by_cases hkey : key = key'
    · subst hkey
      rw [Function.update_self, if_pos rfl]
      rfl
    · rw [Function.update_of_ne (Ne.symm hkey), if_neg hkey]

variable {Score : Type} [LinearOrder Score] (S : RankedRedis Score)

/-- The sorted set of a key. -/
def sets (db : S.Db) (key : Str) : SortedSet Score Str where
  entries := S.ranks db key
  ascending := S.ranks_ascending db key
  nodup := by
    rw [List.Nodup, List.pairwise_map]
    refine (S.ranks_ascending db key).imp_of_mem fun {e e'} he he' hlt hmember => hlt.ne ?_
    -- a member has one score
    have hscore : S.score db key (ofLex e).2 = some (ofLex e).1 := S.mem_ranks.mp he
    have hscore' : S.score db key (ofLex e').2 = some (ofLex e').1 := S.mem_ranks.mp he'
    rw [hmember, hscore'] at hscore
    exact Prod.ext (Option.some.inj hscore).symm hmember

variable {S}

theorem mem_sets {db : S.Db} {key member : Str} {time : Score} :
    toLex (time, member) ∈ (S.sets db key).entries ↔ S.score db key member = some time := S.mem_ranks

@[simp] theorem sets_empty : S.sets S.empty = fun _ => SortedSet.empty := by
  refine funext fun key => SortedSet.ext_mem fun e => ?_
  obtain ⟨⟨t, m⟩, rfl⟩ := toLex.surjective e
  have hmem : toLex (t, m) ∈ S.ranks S.empty key ↔ S.score S.empty key m = some t := S.mem_ranks
  rw [S.score_empty] at hmem
  exact hmem.trans (iff_of_false (Option.some_ne_none t).symm List.not_mem_nil)

theorem sets_zadd (db : S.Db) (key member : Str) (time : Score) :
    S.sets (S.zadd db key member time)
      = Function.update (S.sets db) key ((S.sets db key).add member time) := by
  refine funext fun key' => SortedSet.ext_mem fun e => ?_
  obtain ⟨⟨t, m⟩, rfl⟩ := toLex.surjective e
  rw [mem_sets, S.score_zadd]
  by_cases hkey : key = key'
  · subst hkey
    rw [Function.update_self, SortedSet.mem_add, mem_sets]
    by_cases hmember : member = m
    · simp [hmember, eq_comm]
    · simp [hmember, Ne.symm hmember]
  · rw [if_neg fun h => hkey h.1, Function.update_of_ne (Ne.symm hkey), mem_sets]

theorem sets_zremrangebyrank (db : S.Db) (key : Str) (start stop : ℕ) :
    S.sets (S.zremrangebyrank db key start stop)
      = Function.update (S.sets db) key ((S.sets db key).removeRange start stop) := by
  refine funext fun key' => SortedSet.ext ?_
  refine (S.ranks_zremrangebyrank db key start stop key').trans ?_
  by_cases hkey : key = key'
  · subst hkey
    rw [if_pos rfl, Function.update_self]
    rfl
  · rw [if_neg hkey, Function.update_of_ne (Ne.symm hkey)]
    rfl

end RankedRedis

/-- A `uint64_t` as the score that it becomes. -/
def score (time : Uint64) : Binary64.Integer := Binary64.toInteger time.val

theorem score_mono : Monotone score := fun _ _ h => Binary64.toInteger_mono h

/-- The part of `RedisKVS1` and `RedisKVS2` that changes, with the state of their server. -/
structure RedisKVS (S : RankedRedis Binary64.Integer) where
  keys : Finset Str
  numJobs : Uint64
  db : S.Db

namespace RedisKVS

variable (S : RankedRedis Binary64.Integer)

/-- After the constructor, which empties the server. -/
def initial : RedisKVS S := ⟨∅, 0, S.empty⟩

variable {S}

/-- `try_write(key, publish_time, value)` when the clock shows `now`. Only `RedisKVS2` registers the key. -/
def tryWrite (registers : Bool) (kvs : RedisKVS S) (key : Str) (publishTime : Uint64) (value : Str)
    (now : Uint64) : Bool × RedisKVS S :=
  if publishTime ≤ now then (false, kvs)
  else (true, { kvs with
    keys := if registers then insert key kvs.keys else kvs.keys
    db := S.zadd kvs.db key value (score publishTime) })

/-- `add_new_keys(new_keys)`. -/
def addNewKeys (kvs : RedisKVS S) (newKeys : List Str) : RedisKVS S :=
  { kvs with keys := kvs.keys ∪ newKeys.toFinset }

/-- The body of the loop in `job`. The count is an `unsigned int`. -/
def collect (db : S.Db) (key : Str) : S.Db :=
  let count := S.zcount db key % 2 ^ 32
  if count > 10 then S.zremrangebyrank db key 0 (count - 10 - 1) else db

/-- `job()`. -/
def job (kvs : RedisKVS S) : RedisKVS S :=
  { kvs with
    db := (kvs.keys.sort (· ≤ ·)).foldl collect kvs.db
    numJobs := kvs.numJobs + 1 }

/-- A call from the application or from the timer. -/
inductive Call
  | tryWrite (now : Uint64) (key : Str) (publishTime : Uint64) (value : Str)
  | addNewKeys (newKeys : List Str)
  | job
  deriving DecidableEq

def call (registers : Bool) (kvs : RedisKVS S) : Call → RedisKVS S
  | .tryWrite now key publishTime value => (kvs.tryWrite registers key publishTime value now).2
  | .addNewKeys newKeys => kvs.addNewKeys newKeys
  | .job => kvs.job

variable (S) in
/-- An instance after a sequence of calls. -/
def run (registers : Bool) (calls : List Call) : RedisKVS S := calls.foldl (call registers) (initial S)

/-- The sorted sets of the server. -/
def sets (kvs : RedisKVS S) : Str → SortedSet Binary64.Integer Str := S.sets kvs.db

/-- What a server replies to `try_read`: the members with scores from `no_earlier_than` to the clock. -/
def withoutScore (kvs : RedisKVS S) (key : Str) (noEarlierThan now : Uint64) : List Str :=
  S.zrangebyscore kvs.db key (score noEarlierThan) (score now)

/-- What `try_read` takes from it. -/
def newest (kvs : RedisKVS S) (key : Str) (noEarlierThan now : Uint64) : Option Str :=
  (kvs.withoutScore key noEarlierThan now).getLast?

/-- `RedisKVS1::try_read(key, no_earlier_than, value)`. -/
def tryRead (kvs : RedisKVS S) (key : Str) (noEarlierThan : Uint64) (value : Str) (now : Uint64) :
    Bool × Str :=
  if noEarlierThan > now then (false, value)
  else match kvs.newest key noEarlierThan now with
    | none => (false, value)
    | some last => (true, last)

theorem newest_eq (kvs : RedisKVS S) (key : Str) (noEarlierThan now : Uint64) :
    kvs.newest key noEarlierThan now = (kvs.sets key).newest (score noEarlierThan) (score now) := by
  rw [newest, withoutScore, S.zrangebyscore_eq]
  rfl

/-! ## What was written -/

/-- The version of a key that a call writes. -/
def Call.version (key : Str) : Call → Option (Uint64 × Str)
  | .tryWrite now k publishTime value =>
    if k = key ∧ now < publishTime then some (publishTime, value) else none
  | .addNewKeys _ => none
  | .job => none

/-- The versions of a key for which `try_write` returned true. -/
def versions (calls : List Call) (key : Str) : List (Uint64 × Str) := calls.filterMap (·.version key)

/-- No value of a key is written again for an earlier time. -/
def Rising (calls : List Call) : Prop :=
  ∀ key, (versions calls key).Pairwise fun v v' => v.2 = v'.2 → v.1 ≤ v'.1

theorem versions_append (calls calls' : List Call) (key : Str) :
    versions (calls ++ calls') key = versions calls key ++ versions calls' key := List.filterMap_append

theorem versions_singleton (c : Call) (key : Str) :
    versions [c] key = (c.version key).toList := by
  cases h : c.version key <;> simp [versions, h]

/-- The calls without those of the timer. -/
def withoutJobs (calls : List Call) : List Call := calls.filter (· ≠ .job)

theorem versions_withoutJobs (calls : List Call) (key : Str) :
    versions (withoutJobs calls) key = versions calls key := by
  rw [withoutJobs, versions, versions, List.filterMap_filter]
  refine List.filterMap_congr fun c _ => ?_
  cases c <;> simp [Call.version]

variable {registers : Bool} {kvs : RedisKVS S} {calls : List Call} {key : Str} {now : Uint64}

theorem run_append (calls calls' : List Call) :
    run S registers (calls ++ calls') = calls'.foldl (call registers) (run S registers calls) :=
  List.foldl_append

/-- A set that is collected. -/
def trim (s : SortedSet Binary64.Integer Str) : SortedSet Binary64.Integer Str :=
  let count := s.entries.length % 2 ^ 32
  if count > 10 then s.removeRange 0 (count - 10 - 1) else s

theorem sets_collect (db : S.Db) (key : Str) :
    S.sets (collect db key) = Function.update (S.sets db) key (trim (S.sets db key)) := by
  have hcount : S.zcount db key = (S.sets db key).entries.length := S.zcount_eq db key
  unfold collect trim
  dsimp only
  rw [hcount]
  split
  · exact RankedRedis.sets_zremrangebyrank _ _ _ _
  · exact (Function.update_eq_self key (S.sets db)).symm

theorem sets_foldl_collect {keys : List Str} (hnodup : keys.Nodup) (db : S.Db) (key : Str) :
    S.sets (keys.foldl collect db) key = if key ∈ keys then trim (S.sets db key) else S.sets db key := by
  induction keys generalizing db with
  | nil => simp
  | cons k keys ih =>
    rw [List.nodup_cons] at hnodup
    rw [List.foldl_cons, ih hnodup.2, sets_collect]
    by_cases hk : key = k
    · subst hk
      simp [hnodup.1]
    · simp [hk]

/-- A job collects the known keys. -/
theorem sets_job (kvs : RedisKVS S) (key : Str) :
    kvs.job.sets key = if key ∈ kvs.keys then trim (kvs.sets key) else kvs.sets key := by
  rw [job, sets, sets]
  simpa using sets_foldl_collect (Finset.sort_nodup kvs.keys (· ≤ ·)) kvs.db key

/-- A call other than the job adds the version that it writes. -/
theorem sets_call {c : Call} (hjob : c ≠ .job) (kvs : RedisKVS S) (key : Str) :
    (call registers kvs c).sets key = match c.version key with
      | some v => (kvs.sets key).add v.2 (score v.1)
      | none => kvs.sets key := by
  cases c with
  | job => exact absurd rfl hjob
  | addNewKeys newKeys => rfl
  | tryWrite now k publishTime value =>
    rw [call, tryWrite, Call.version]
    by_cases hlate : publishTime ≤ now
    · rw [if_pos hlate, if_neg fun h => absurd h.2 (not_lt.mpr hlate)]
    · rw [if_neg hlate, sets, RankedRedis.sets_zadd]
      by_cases hk : k = key
      · subst hk
        simp [not_le.mp hlate, sets]
      · have hother : (if k = key ∧ now < publishTime then some (publishTime, value) else none) = none :=
          if_neg fun h => hk h.1
        rw [hother]
        exact Function.update_of_ne (Ne.symm hk) _ _

theorem trim_sublist (s : SortedSet Binary64.Integer Str) : (trim s).entries.Sublist s.entries := by
  unfold trim
  dsimp only
  split
  · rw [SortedSet.entries_removeRange_zero]
    exact List.drop_sublist _ _
  · exact List.Sublist.refl _

/-- The entries of a set are versions that were written. -/
theorem exists_version_of_mem {e : Binary64.Integer ×ₗ Str}
    (he : e ∈ ((run S registers calls).sets key).entries) :
    ∃ v ∈ versions calls key, e = toLex (score v.1, v.2) := by
  induction calls using List.reverseRecOn with
  | nil =>
    rw [run, List.foldl_nil, sets, initial, RankedRedis.sets_empty] at he
    exact absurd he List.not_mem_nil
  | append_singleton calls c ih =>
    rw [run_append, List.foldl_cons, List.foldl_nil] at he
    rw [versions_append, versions_singleton]
    have hold : e ∈ ((run S registers calls).sets key).entries →
        ∃ v ∈ versions calls key ++ (c.version key).toList, e = toLex (score v.1, v.2) := fun he =>
      let ⟨v, hv, heq⟩ := ih he
      ⟨v, List.mem_append_left _ hv, heq⟩
    by_cases hjob : c = .job
    · subst hjob
      refine hold ?_
      rw [call, sets_job] at he
      split at he
      · exact (trim_sublist _).subset he
      · exact he
    · rw [sets_call hjob] at he
      cases hversion : c.version key with
      | none => exact hversion ▸ hold (by rwa [hversion] at he)
      | some v =>
        rw [hversion] at he
        rcases SortedSet.mem_add.mp he with rfl | ⟨he, -⟩
        · exact ⟨v, by simp, rfl⟩
        · exact hversion ▸ hold he

/-! ## Reading behind the garbage collection -/

theorem Trimmed.trim {s s' : SortedSet Binary64.Integer Str} (h : SortedSet.Trimmed 10 s s') :
    SortedSet.Trimmed 10 s (trim s') := by
  unfold RedisKVS.trim
  dsimp only
  split
  · exact h.removeRange (by have := Nat.mod_le s'.entries.length (2 ^ 32); omega)
  · exact h

theorem Rising.init {c : Call} (h : Rising (calls ++ [c])) : Rising calls := by
  intro key
  have hkey := h key
  rw [versions_append] at hkey
  exact (List.pairwise_append.mp hkey).1

/-- The jobs of a run take away entries below ten others. -/
theorem trimmed_run (h : Rising calls) (key : Str) :
    SortedSet.Trimmed 10 ((run S registers (withoutJobs calls)).sets key)
      ((run S registers calls).sets key) := by
  induction calls using List.reverseRecOn with
  | nil => exact SortedSet.Trimmed.refl _ _
  | append_singleton calls c ih =>
    have hcalls := ih h.init
    rw [run_append, List.foldl_cons, List.foldl_nil, withoutJobs, List.filter_append, ← withoutJobs]
    by_cases hjob : c = .job
    · subst hjob
      rw [List.filter_cons_of_neg (by simp), List.filter_nil, List.append_nil, call, sets_job]
      split
      · exact Trimmed.trim hcalls
      · exact hcalls
    · rw [List.filter_cons_of_pos (by simpa using hjob), List.filter_nil, run_append, List.foldl_cons,
        List.foldl_nil, sets_call hjob, sets_call hjob]
      cases hversion : c.version key with
      | none => exact hcalls
      | some v =>
        refine hcalls.add fun u hu => ?_
        obtain ⟨w, hw, heq⟩ := exists_version_of_mem hu
        obtain ⟨rfl, hvalue⟩ := Prod.mk.inj (toLex_inj.mp heq)
        rw [versions_withoutJobs] at hw
        have hrising := h key
        rw [versions_append, versions_singleton, hversion, List.pairwise_append] at hrising
        exact score_mono (hrising.2.2 w hw v List.mem_cons_self hvalue.symm)

/-- Each entry stands for a version of its own. -/
theorem countP_entries_le (calls : List Call) (key : Str) (p : Binary64.Integer → Bool) :
    ((run S registers calls).sets key).entries.countP (fun e => p (ofLex e).1)
      ≤ (versions calls key).countP fun v => p (score v.1) := by
  have hnodup : (((run S registers calls).sets key).entries.filter fun e => p (ofLex e).1).Nodup :=
    (((run S registers calls).sets key).ascending.imp fun h => h.ne).filter _
  rw [List.countP_eq_length_filter, List.countP_eq_length_filter,
    ← List.length_map (fun v : Uint64 × Str => toLex (score v.1, v.2))]
  refine (hnodup.subperm fun e he => ?_).length_le
  obtain ⟨he, hbound⟩ := List.mem_filter.mp he
  obtain ⟨v, hv, rfl⟩ := exists_version_of_mem he
  exact List.mem_map.mpr ⟨v, List.mem_filter.mpr ⟨hv, hbound⟩, rfl⟩

theorem length_entries_le (calls : List Call) (key : Str) :
    ((run S registers calls).sets key).entries.length ≤ (versions calls key).length := by
  simpa using countP_entries_le calls key fun _ => true

/-- **Garbage collection is invisible** while fewer than ten values of the key wait for their publish times,
as long as no value is written again for an earlier time: a reader takes from the server what it takes
without any job, and `RedisKVS1` returns it. -/
theorem tryRead_withoutJobs (h : Rising calls)
    (hfew : (versions calls key).countP (fun v => score now < score v.1) < 10) (noEarlierThan : Uint64) :
    (run S registers calls).newest key noEarlierThan now
        = (run S registers (withoutJobs calls)).newest key noEarlierThan now
      ∧ ∀ value, (run S false calls).tryRead key noEarlierThan value now
        = (run S false (withoutJobs calls)).tryRead key noEarlierThan value now := by
  have hnewest (registers : Bool) : (run S registers calls).newest key noEarlierThan now
      = (run S registers (withoutJobs calls)).newest key noEarlierThan now := by
    rw [newest_eq, newest_eq, (trimmed_run h key).newest_eq
      ((countP_entries_le calls key (score now < ·)).trans_lt hfew)]
  refine ⟨hnewest registers, fun value => ?_⟩
  rw [tryRead, tryRead, hnewest false]

/-- A value for each of the times 1 to `n`, written when the clock shows 0. -/
def ahead (n : ℕ) : List Call :=
  (List.range n).map fun i => .tryWrite 0 [107] (Fin.ofNat _ (i + 1)) [UInt8.ofNat (97 + i)]

/-- Of fifteen values the job keeps those of the times 6 to 15. -/
theorem tryRead_withoutJobs_ahead :
    (run RankedRedis.inMemory true (ahead 15 ++ [.job])).newest [107] 3 6
        = (run RankedRedis.inMemory true (withoutJobs (ahead 15 ++ [.job]))).newest [107] 3 6
      ∧ ∀ value, (run RankedRedis.inMemory false (ahead 15 ++ [.job])).tryRead [107] 3 value 6
        = (run RankedRedis.inMemory false (withoutJobs (ahead 15 ++ [.job]))).tryRead [107] 3 value 6 := by
  refine tryRead_withoutJobs (fun key => ?_) (by decide +kernel) 3
  by_cases hkey : [107] = key
  · subst hkey
    decide +kernel
  · have hnone : versions (ahead 15 ++ [.job]) key = [] := by
      rw [versions, List.filterMap_eq_nil_iff]
      intro c hc
      rcases List.mem_append.mp hc with hc | hc
      · obtain ⟨i, -, rfl⟩ := List.mem_map.mp hc
        exact if_neg fun h => hkey h.1
      · rw [List.mem_singleton.mp hc]
        rfl
    rw [hnone]
    exact List.Pairwise.nil

/-! ## What a job can take away -/

theorem length_trim_le {s : SortedSet Binary64.Integer Str} (h : s.entries.length < 2 ^ 32) :
    (trim s).entries.length ≤ 10 := by
  unfold trim
  dsimp only
  rw [Nat.mod_eq_of_lt h]
  split
  · rw [SortedSet.entries_removeRange_zero, List.length_drop]
    omega
  · omega

theorem mem_keys_run : key ∈ (run S registers calls).keys ↔ registers = true ∧ versions calls key ≠ []
    ∨ ∃ newKeys, .addNewKeys newKeys ∈ calls ∧ key ∈ newKeys := by
  induction calls using List.reverseRecOn with
  | nil => simp [run, initial, versions]
  | append_singleton calls c ih =>
    rw [run_append, List.foldl_cons, List.foldl_nil, versions_append, versions_singleton]
    cases c with
    | job => simpa [call, job, Call.version] using ih
    | addNewKeys newKeys =>
      simp only [call, addNewKeys, Finset.mem_union, List.mem_toFinset, ih, Call.version]
      simp [or_and_right, exists_or, or_assoc]
    | tryWrite now k publishTime value =>
      rw [call, tryWrite]
      by_cases hlate : publishTime ≤ now
      · simpa [hlate, Call.version] using ih
      · by_cases hk : k = key
        · subst hk
          cases registers <;> simp [hlate, not_le.mp hlate, Call.version, ih]
        · cases registers <;> simp [hlate, hk, Ne.symm hk, Call.version, ih]

theorem length_call_le (registers : Bool) {c : Call} (hjob : c ≠ .job) (kvs : RedisKVS S) (key : Str) :
    ((call registers kvs c).sets key).entries.length
      ≤ (kvs.sets key).entries.length + (versions [c] key).length := by
  rw [sets_call hjob, versions_singleton]
  cases c.version key with
  | none => exact Nat.le_add_right _ _
  | some v => exact SortedSet.length_add_le _ _ _

theorem length_calls_le {after : List Call} (hafter : .job ∉ after) (kvs : RedisKVS S) (key : Str) :
    ((after.foldl (call registers) kvs).sets key).entries.length
      ≤ (kvs.sets key).entries.length + (versions after key).length := by
  induction after generalizing kvs with
  | nil => exact Nat.le_add_right _ _
  | cons c after ih =>
    rw [List.mem_cons, not_or] at hafter
    have hcall := length_call_le registers (Ne.symm hafter.1) kvs key
    have hrest := ih hafter.2 (call registers kvs c)
    rw [← List.singleton_append, versions_append, List.length_append]
    rw [List.singleton_append, List.foldl_cons]
    omega

/-- A key that nobody registers is never collected. -/
theorem sets_run_of_unknown (hunknown : key ∉ (run S registers calls).keys) :
    (run S registers calls).sets key = (run S registers (withoutJobs calls)).sets key := by
  induction calls using List.reverseRecOn with
  | nil => rfl
  | append_singleton calls c ih =>
    have hbefore : key ∉ (run S registers calls).keys := by
      rw [mem_keys_run] at hunknown ⊢
      rw [versions_append] at hunknown
      rintro (⟨hregisters, hwritten⟩ | ⟨newKeys, hadded, hmem⟩)
      · exact hunknown (Or.inl ⟨hregisters, fun hnil => hwritten (List.append_eq_nil_iff.mp hnil).1⟩)
      · exact hunknown (Or.inr ⟨newKeys, List.mem_append_left _ hadded, hmem⟩)
    rw [run_append, List.foldl_cons, List.foldl_nil, withoutJobs, List.filter_append, ← withoutJobs]
    by_cases hjob : c = .job
    · subst hjob
      rw [List.filter_cons_of_neg (by simp), List.filter_nil, List.append_nil, call, sets_job,
        if_neg hbefore, ih hbefore]
    · rw [List.filter_cons_of_pos (by simpa using hjob), List.filter_nil, run_append, List.foldl_cons,
        List.foldl_nil, sets_call hjob, sets_call hjob, ih hbefore]

/-- **How large the sets get.** In every run, the set of a key has at most ten entries more than the values
that have been written to it since the last job: of every key in `RedisKVS2`, and of those that
`add_new_keys` has named before in `RedisKVS1`. Of the others `RedisKVS1` never takes anything away. -/
theorem length_entries_run (before after : List Call) (hafter : .job ∉ after)
    (hcount : (versions before key).length < 2 ^ 32) :
    (registers = true ∨ (∃ newKeys, .addNewKeys newKeys ∈ before ∧ key ∈ newKeys) →
        ((run S registers (before ++ .job :: after)).sets key).entries.length
          ≤ 10 + (versions after key).length)
      ∧ (registers = false → (∀ newKeys, .addNewKeys newKeys ∈ before ++ after → key ∉ newKeys) →
        (run S registers (before ++ .job :: after)).sets key
          = (run S registers (withoutJobs (before ++ after))).sets key) := by
  constructor
  · intro hknown
    rw [run_append, List.foldl_cons]
    refine (length_calls_le hafter _ key).trans (Nat.add_le_add_right ?_ _)
    rw [call, sets_job]
    split_ifs with hkey
    · exact length_trim_le ((length_entries_le before key).trans_lt hcount)
    · -- nothing has been written to a key that is not known
      have hnone : versions before key = [] := by
        by_contra hwritten
        refine hkey (mem_keys_run.mpr ?_)
        exact hknown.imp (fun h => ⟨h, hwritten⟩) id
      refine (length_entries_le before key).trans ?_
      rw [hnone]
      exact Nat.zero_le _
  · intro hregisters hunknown
    have hwithout : withoutJobs (before ++ .job :: after) = withoutJobs (before ++ after) := by
      simp [withoutJobs]
    rw [← hwithout]
    refine sets_run_of_unknown fun hmem => ?_
    rcases mem_keys_run.mp hmem with ⟨h, -⟩ | ⟨newKeys, hadded, hkey⟩
    · exact absurd (hregisters.symm.trans h) Bool.false_ne_true
    · exact hunknown newKeys (by simpa using hadded) hkey

theorem length_entries_run_ahead :
    ((run RankedRedis.inMemory true (ahead 15 ++ .job :: ahead 2)).sets [107]).entries.length ≤ 12
      ∧ (run RankedRedis.inMemory false (ahead 15 ++ .job :: ahead 2)).sets [107]
        = (run RankedRedis.inMemory false (withoutJobs (ahead 15 ++ ahead 2))).sets [107] :=
  ⟨(length_entries_run (ahead 15) (ahead 2) (by decide +kernel) (by decide +kernel)).1 (Or.inl rfl),
    (length_entries_run (ahead 15) (ahead 2) (by decide +kernel) (by decide +kernel)).2 rfl
      (fun newKeys hmem => absurd hmem (by simp [ahead]))⟩

/-- **When a job is visible.** In every run, a job leaves what readers at a clock take from the server for a
known key exactly when fewer than ten entries of the key wait, or none is visible yet, or there are at most
ten. -/
theorem newest_job_iff (hkey : key ∈ (run S registers calls).keys)
    (hcount : (versions calls key).length < 2 ^ 32) :
    (∀ noEarlierThan ≤ now, (run S registers (calls ++ [.job])).newest key noEarlierThan now
        = (run S registers calls).newest key noEarlierThan now)
      ↔ ((run S registers calls).sets key).entries.countP (fun e => score now < (ofLex e).1) < 10
        ∨ (∀ e ∈ ((run S registers calls).sets key).entries, score now < (ofLex e).1)
        ∨ ((run S registers calls).sets key).entries.length ≤ 10 := by
  have hjob : (run S registers (calls ++ [.job])).sets key = trim ((run S registers calls).sets key) := by
    rw [run_append, List.foldl_cons, List.foldl_nil, call, sets_job, if_pos hkey]
  have htrimmed := Trimmed.trim (SortedSet.Trimmed.refl 10 ((run S registers calls).sets key))
  have hlength : ((run S registers calls).sets key).entries.length < 2 ^ 32 :=
    (length_entries_le calls key).trans_lt hcount
  simp only [newest_eq, hjob]
  generalize (run S registers calls).sets key = s at htrimmed hlength
  constructor
  · intro hsame
    by_contra! hvisible
    obtain ⟨hmany, ⟨e, he, hseen⟩, hlong⟩ := hvisible
    -- the ten entries that stay all wait
    have hentries : (trim s).entries = s.entries.drop (s.entries.length - 10) := by
      rw [trim, Nat.mod_eq_of_lt hlength, if_pos hlong, SortedSet.entries_removeRange_zero]
      congr 1
      omega
    have hwaiting : ∀ b ∈ (trim s).entries, score now < (ofLex b).1 := by
      have hcount := SortedSet.countP_drop_of_ascending s.ascending (p := fun e => score now < (ofLex e).1)
        (fun a b hab ha => decide_eq_true ((of_decide_eq_true ha).trans_le
          (Prod.Lex.monotone_fst _ _ hab.le))) (s.entries.length - 10)
      rw [← hentries] at hcount
      have hten : (trim s).entries.length = 10 := by
        rw [hentries, List.length_drop]
        omega
      have hall := List.countP_eq_length.mp (le_antisymm List.countP_le_length
        (hten.le.trans ((le_min hmany (by omega)).trans hcount)))
      exact fun b hb => of_decide_eq_true (hall b hb)
    have hread := hsame 0 (Fin.zero_le now)
    rw [SortedSet.newest_eq_none.mpr fun b hb _ => not_le.mpr (hwaiting b hb)] at hread
    exact SortedSet.newest_eq_none.mp hread.symm e he (Nat.zero_le _) hseen
  · rintro (hfew | hnone | hshort) noEarlierThan -
    · exact htrimmed.newest_eq (lt_of_le_of_lt ((trim_sublist s).countP_le) hfew)
    · rw [SortedSet.newest_eq_none.mpr fun e he _ => not_le.mpr (hnone e he),
        SortedSet.newest_eq_none.mpr fun e he _ => not_le.mpr (hnone e ((trim_sublist s).subset he))]
    · rw [trim, Nat.mod_eq_of_lt hlength, if_neg (not_lt.mpr hshort)]

/-- At the time 5, ten values wait, and the job takes the one of this time away. -/
theorem newest_job_iff_ahead :
    ¬∀ noEarlierThan ≤ 5, (run RankedRedis.inMemory true (ahead 15 ++ [.job])).newest [107] noEarlierThan 5
      = (run RankedRedis.inMemory true (ahead 15)).newest [107] noEarlierThan 5 :=
  (newest_job_iff (by decide +kernel) (by decide +kernel)).not.mpr (by decide +kernel)

/-! ## A server as a register -/

/-- `v` is the value of the last of these versions, and its time is not before `no_earlier_than`. -/
def IsNewest (vs : List (Uint64 × Str)) (noEarlierThan : Uint64) (v : Str) : Prop :=
  ∃ t, (t, v) ∈ vs ∧ score noEarlierThan ≤ score t
    ∧ ∀ w ∈ vs, (toLex (score w.1, w.2) : Binary64.Integer ×ₗ Str) ≤ toLex (score t, v)

/-- After these calls, the versions of a key that are visible at a clock are `vs`, and no later call has
moved one of them or pushed it out. -/
structure Serves (calls : List Call) (key : Str) (now : Uint64) (vs : List (Uint64 × Str)) : Prop where
  rising : Rising calls
  few : (versions calls key).countP (fun v => score now < score v.1) < 10
  settled : ∀ v ∈ versions calls key, ∀ w ∈ versions calls key, v.2 = w.2 → score v.1 ≤ score now →
    score w.1 ≤ score now
  visible : ∀ v, v ∈ vs ↔ v ∈ versions calls key ∧ score v.1 ≤ score now

/-- Without jobs, a value that was written keeps an entry, at a time at least as late. -/
theorem exists_entry_of_version (h : Rising calls) {v : Uint64 × Str}
    (hv : v ∈ versions calls key) :
    ∃ u, (toLex (u, v.2) : Binary64.Integer ×ₗ Str) ∈ ((run S registers (withoutJobs calls)).sets key).entries
      ∧ score v.1 ≤ u := by
  induction calls using List.reverseRecOn with
  | nil => exact absurd hv List.not_mem_nil
  | append_singleton calls c ih =>
    rw [withoutJobs, List.filter_append, ← withoutJobs]
    rw [versions_append, versions_singleton, List.mem_append] at hv
    by_cases hjob : c = .job
    · subst hjob
      rw [List.filter_cons_of_neg (by simp), List.filter_nil, List.append_nil]
      exact ih h.init (hv.resolve_right List.not_mem_nil)
    · rw [List.filter_cons_of_pos (by simpa using hjob), List.filter_nil, run_append, List.foldl_cons,
        List.foldl_nil, sets_call hjob]
      cases hversion : c.version key with
      | none =>
        rw [hversion] at hv
        exact ih h.init (hv.resolve_right List.not_mem_nil)
      | some w =>
        rw [hversion, Option.mem_toList, Option.some.injEq] at hv
        by_cases hsame : v.2 = w.2
        · refine ⟨score w.1, SortedSet.mem_add.mpr (Or.inl (by rw [hsame])), ?_⟩
          rcases hv with hv | rfl
          · have hrising := h key
            rw [versions_append, versions_singleton, hversion, List.pairwise_append] at hrising
            exact score_mono (hrising.2.2 v hv w List.mem_cons_self hsame)
          · exact le_rfl
        · obtain ⟨u, hu, hle⟩ := ih h.init (hv.resolve_right fun heq => hsame (by rw [heq]))
          exact ⟨u, SortedSet.mem_add.mpr (Or.inr ⟨hu, hsame⟩), hle⟩

/-- A server offers the last of the versions that it serves. -/
theorem newest_eq_some_iff {vs : List (Uint64 × Str)} (h : Serves calls key now vs) {noEarlierThan : Uint64}
    {v : Str} : (run S registers calls).newest key noEarlierThan now = some v
      ↔ IsNewest vs noEarlierThan v := by
  rw [newest_eq, (trimmed_run h.rising key).newest_eq
    ((countP_entries_le calls key (score now < ·)).trans_lt h.few), SortedSet.newest_eq_some]
  have hversion : ∀ e ∈ ((run S registers (withoutJobs calls)).sets key).entries,
      ∃ w ∈ versions calls key, e = toLex (score w.1, w.2) := fun e he => by
    simpa only [versions_withoutJobs] using exists_version_of_mem he
  -- the entry of a visible value is visible
  have hentry : ∀ w ∈ vs, ∃ u, (toLex (u, w.2) : Binary64.Integer ×ₗ Str)
      ∈ ((run S registers (withoutJobs calls)).sets key).entries ∧ score w.1 ≤ u ∧ u ≤ score now := by
    intro w hw
    obtain ⟨hw, hseen⟩ := (h.visible w).mp hw
    obtain ⟨u, hu, hle⟩ := exists_entry_of_version h.rising hw
    obtain ⟨x, hx, heq⟩ := hversion _ hu
    obtain ⟨rfl, hvalue⟩ := Prod.mk.inj (toLex_inj.mp heq)
    exact ⟨_, hu, hle, h.settled w hw x hx hvalue hseen⟩
  constructor
  · rintro ⟨u, hu, hfrom, hto, hmax⟩
    obtain ⟨⟨t, x⟩, hx, heq⟩ := hversion _ hu
    obtain ⟨rfl, rfl⟩ := Prod.mk.inj (toLex_inj.mp heq)
    refine ⟨t, (h.visible _).mpr ⟨hx, hto⟩, hfrom, fun w hw => ?_⟩
    obtain ⟨u', hu', hle, hseen⟩ := hentry w hw
    have hup : (toLex (score w.1, w.2) : Binary64.Integer ×ₗ Str) ≤ toLex (u', w.2) :=
      Prod.Lex.toLex_mono ⟨hle, le_rfl⟩
    refine hup.trans ?_
    rcases le_or_gt (score noEarlierThan) u' with hin | hbefore
    · exact hmax _ hu' hin hseen
    · exact (Prod.Lex.toLex_lt_toLex.mpr (Or.inl (hbefore.trans_le hfrom))).le
  · rintro ⟨t, ht, hfrom, hmax⟩
    obtain ⟨u, hu, hle, hseen⟩ := hentry _ ht
    obtain ⟨x, hx, heq⟩ := hversion _ hu
    obtain ⟨rfl, rfl⟩ := Prod.mk.inj (toLex_inj.mp heq)
    have hsame : score x.1 = score t := by
      refine le_antisymm ?_ hle
      exact Prod.Lex.monotone_fst _ _ (hmax x ((h.visible x).mpr ⟨hx, hseen⟩))
    refine ⟨score t, hsame ▸ hu, hfrom, hsame ▸ hseen, fun e he _ hto => ?_⟩
    obtain ⟨w, hw, rfl⟩ := hversion e he
    exact hmax w ((h.visible w).mpr ⟨hw, hto⟩)

end RedisKVS

end Achal
