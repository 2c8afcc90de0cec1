import Inconcretes.BftKvs.Node
import Inconcretes.Lib.TopMap
import Mathlib.Logic.Function.Basic

/-!
# The store

A key has a bucket, a map from timestamps to values in descending order. Every commit writes one
timestamp of one bucket and, when the bucket then holds more than `KVS_GB_KEEP_N_VALUES` entries, erases
the last one. `Ledger` pairs the store with the commits that led to it: the source keeps no such list, and
no function reads it.

`Ledger.Consistent` is the invariant of every run: each bucket is what the commits of its key leave in it,
hence the top of the log of that key (`Ledger.Consistent.get?_bucket`).
-/

namespace Achal

/-- `KVS_GB_KEEP_N_VALUES`. -/
abbrev keepNValues : ℕ := 20

/-- `std::map<uint64_t, std::string, std::greater<uint64_t>>`, of bounded size. -/
abbrev Bucket := TopMap keepNValues Uint64 Str

/-- The map from keys to buckets. -/
abbrev Store := Str → Option Bucket

namespace Store

def empty : Store := fun _ => none

/-- The bucket of a key, empty when the key is unknown. -/
def bucket (s : Store) (key : Str) : Bucket := (s key).getD TopMap.empty

def set (s : Store) (key : Str) (b : Bucket) : Store := Function.update s key (some b)

theorem set_same (s : Store) (key : Str) (b : Bucket) : s.set key b key = some b :=
  Function.update_self ..

theorem set_of_ne (s : Store) {key key' : Str} (b : Bucket) (h : key' ≠ key) :
    s.set key b key' = s key' := Function.update_of_ne h ..

theorem bucket_set (s : Store) (key key' : Str) (b : Bucket) :
    (s.set key b).bucket key' = if key = key' then b else s.bucket key' := by
  unfold bucket
  by_cases h : key = key'
  · rw [if_pos h, h, set_same]
    rfl
  · rw [if_neg h, set_of_ne _ _ (Ne.symm h)]

/-- What a store holds under a key is known from the bucket and from whether there is one. -/
theorem apply_eq {s s' : Store} {key : Str} (hknown : (s key).isSome ↔ (s' key).isSome)
    (hbucket : s.bucket key = s'.bucket key) : s key = s' key := by
  unfold bucket at hbucket
  cases h : s key with
  | none =>
    rw [h, Option.isSome_none] at hknown
    exact (Option.not_isSome_iff_eq_none.mp fun h' => nomatch hknown.mpr h').symm
  | some b =>
    rw [h, Option.isSome_some] at hknown
    obtain ⟨b', hb'⟩ := Option.isSome_iff_exists.mp (hknown.mp rfl)
    rw [h, hb', Option.getD_some, Option.getD_some] at hbucket
    rw [hb', hbucket]

/-- The loop of `try_read` over a bucket, greatest timestamp first. -/
def scan (noEarlierThan now : Uint64) : List (Uint64 × Str) → Option Str
  | [] => none
  | (time, value) :: es =>
    if time ≤ now ∧ noEarlierThan ≤ time then some value
    else if noEarlierThan > time then none
    else scan noEarlierThan now es

/-- `try_read(key, no_earlier_than, value)` when the clock shows `now`. -/
def tryRead (s : Store) (key : Str) (noEarlierThan now : Uint64) : Option Str :=
  if noEarlierThan > now then none
  else match s key with
    | none => none
    | some bucket => scan noEarlierThan now bucket.entries

/-- `try_read` with its out-parameter: the result, and `value` afterwards. -/
def tryReadInto (s : Store) (key : Str) (noEarlierThan now : Uint64) (value : Str) : Bool × Str :=
  match s.tryRead key noEarlierThan now with
  | some found => (true, found)
  | none => (false, value)

/-- The scan stops at the greatest timestamp up to `now`, if that is not too early. -/
theorem scan_eq_some {noEarlierThan now : Uint64} {es : List (Uint64 × Str)} (hs : Desc.Sorted es)
    {value : Str} :
    scan noEarlierThan now es = some value
      ↔ ∃ time, (time, value) ∈ es ∧ noEarlierThan ≤ time ∧ time ≤ now
        ∧ ∀ e ∈ es, e.1 ≤ now → e.1 ≤ time := by
  fun_induction scan noEarlierThan now es with
  | case1 => simp
  | case2 time first es h =>
    obtain ⟨hbelow, -⟩ := List.pairwise_cons.mp hs
    constructor
    · intro heq
      obtain rfl := Option.some.inj heq
      refine ⟨time, List.mem_cons_self, h.2, h.1, List.forall_mem_cons.mpr ⟨fun _ => le_rfl, ?_⟩⟩
      exact fun e he _ => (hbelow e he).le
    · rintro ⟨time', hmem, -, -, hmax⟩
      rcases List.mem_cons.mp hmem with heq | hmem
      · obtain ⟨-, rfl⟩ := Prod.mk.inj heq
        rfl
      · exact absurd (hmax _ List.mem_cons_self h.1) (not_le.mpr (hbelow _ hmem))
  | case3 time first es h hearly =>
    -- everything behind is earlier still
    obtain ⟨hbelow, -⟩ := List.pairwise_cons.mp hs
    refine ⟨nofun, ?_⟩
    rintro ⟨time', hmem, hfrom, -⟩
    rcases List.mem_cons.mp hmem with heq | hmem
    · obtain ⟨rfl, -⟩ := Prod.mk.inj heq
      exact absurd hfrom (not_le.mpr hearly)
    · exact absurd hfrom (not_le.mpr ((hbelow _ hmem).trans hearly))
  | case4 time first es h hearly ih =>
    obtain ⟨hbelow, hs⟩ := List.pairwise_cons.mp hs
    have hlate : ¬time ≤ now := fun hle => h ⟨hle, not_lt.mp hearly⟩
    rw [ih hs]
    refine exists_congr fun time' => ?_
    rw [List.forall_mem_cons, List.mem_cons]
    constructor
    · rintro ⟨hmem, hfrom, hto, hmax⟩
      exact ⟨Or.inr hmem, hfrom, hto, fun hle => absurd hle hlate, hmax⟩
    · rintro ⟨heq | hmem, hfrom, hto, -, hmax⟩
      · obtain ⟨rfl, -⟩ := Prod.mk.inj heq
        exact absurd hto hlate
      · exact ⟨hmem, hfrom, hto, hmax⟩

/-- A read finds the greatest timestamp up to `now` that its bucket holds, if that is not too early. -/
theorem tryRead_eq_some {s : Store} {key : Str} {noEarlierThan now : Uint64} {value : Str} :
    s.tryRead key noEarlierThan now = some value
      ↔ ∃ time, (s.bucket key).get? time = some value ∧ noEarlierThan ≤ time ∧ time ≤ now
        ∧ ∀ time', ((s.bucket key).get? time').isSome → time' ≤ now → time' ≤ time := by
  have hs := (s.bucket key).sorted
  have hscan : s.tryRead key noEarlierThan now = some value
      ↔ scan noEarlierThan now (s.bucket key).entries = some value := by
    unfold tryRead bucket
    by_cases hwindow : noEarlierThan > now
    · rw [if_pos hwindow]
      refine ⟨nofun, fun h => ?_⟩
      obtain ⟨time, -, hfrom, hto, -⟩ := (scan_eq_some hs).mp h
      exact absurd (hfrom.trans hto) (not_le.mpr hwindow)
    · rw [if_neg hwindow]
      cases s key <;> rfl
  rw [hscan, scan_eq_some hs]
  refine exists_congr fun time => ?_
  rw [← Desc.get?_eq_some hs]
  refine and_congr_right fun _ => and_congr_right fun _ => and_congr_right fun _ => ?_
  constructor
  · intro hmax time' hsome
    obtain ⟨value', hvalue'⟩ := Option.isSome_iff_exists.mp hsome
    exact hmax (time', value') ((Desc.get?_eq_some hs).mp hvalue')
  · rintro hmax ⟨time', value'⟩ hmem
    exact hmax time' (Option.isSome_iff_exists.mpr ⟨value', (Desc.get?_eq_some hs).mpr hmem⟩)

end Store

/-- A store with the commits made so far, oldest first. -/
structure Ledger where
  store : Store
  commits : List Ktv

namespace Ledger

def empty : Ledger := ⟨Store.empty, []⟩

/-- `auto &bucket = store[key]`: the bucket exists from now on. -/
def touch (s : Ledger) (key : Str) : Ledger :=
  { s with store := s.store.set key (s.store.bucket key) }

/-- `bucket[time] = value`, and the eviction behind it. -/
def commit (s : Ledger) (w : Ktv) : Ledger where
  store := s.store.set w.key ((s.store.bucket w.key).put w.time w.value)
  commits := s.commits ++ [w]

/-- The commits of one key. -/
def commitsOf (cs : List Ktv) (key : Str) : List (Uint64 × Str) :=
  (cs.filter (·.key = key)).map fun w => (w.time, w.value)

/-- The log of a key: the value committed last under a timestamp. -/
def log (s : Ledger) (key : Str) (time : Uint64) : Option Str :=
  ((s.commits.filter fun w => w.key = key ∧ w.time = time).getLast?).map Ktv.value

/-- The timestamps in the log of a key. -/
def logTimes (s : Ledger) (key : Str) : Finset Uint64 :=
  ((s.commits.filter (·.key = key)).map Ktv.time).toFinset

theorem commitsOf_append (cs cs' : List Ktv) (key : Str) :
    commitsOf (cs ++ cs') key = commitsOf cs key ++ commitsOf cs' key := by
  rw [commitsOf, List.filter_append, List.map_append]
  rfl

/-! ## What a commit path does -/

/-- From `s` to `s'` the keys `ks` were looked up and the commits `cs` made, and nothing else happened. -/
structure Extends (s s' : Ledger) (ks : List Str) (cs : List Ktv) : Prop where
  commits : s'.commits = s.commits ++ cs
  bucket : ∀ key, s'.store.bucket key = (s.store.bucket key).putAll (commitsOf cs key)
  known : ∀ key, (s'.store key).isSome ↔ (s.store key).isSome ∨ key ∈ ks

theorem Extends.refl (s : Ledger) : s.Extends s [] [] :=
  ⟨(List.append_nil _).symm, fun _ => rfl, fun _ => by simp⟩

theorem Extends.trans {s s' s'' : Ledger} {ks ks' : List Str} {cs cs' : List Ktv}
    (h : s.Extends s' ks cs) (h' : s'.Extends s'' ks' cs') : s.Extends s'' (ks ++ ks') (cs ++ cs') where
  commits := by rw [h'.commits, h.commits, List.append_assoc]
  bucket key := by rw [h'.bucket, h.bucket, commitsOf_append, TopMap.putAll_append]
  known key := by rw [h'.known, h.known, List.mem_append, or_assoc]

theorem Extends.keys_congr {s s' : Ledger} {ks ks' : List Str} {cs : List Ktv} (h : s.Extends s' ks cs)
    (hks : ∀ key, key ∈ ks ↔ key ∈ ks') : s.Extends s' ks' cs :=
  ⟨h.commits, h.bucket, fun key => by rw [h.known, hks]⟩

theorem extends_touch (s : Ledger) (key : Str) : s.Extends (s.touch key) [key] [] where
  commits := (List.append_nil _).symm
  bucket key' := by
    rw [touch, Store.bucket_set]
    split
    · rename_i h
      rw [h]
      rfl
    · rfl
  known key' := by
    rw [List.mem_singleton]
    by_cases h : key' = key
    · simp [touch, h, Store.set_same]
    · simp [touch, h, Store.set_of_ne]

theorem extends_commit (s : Ledger) (w : Ktv) : s.Extends (s.commit w) [w.key] [w] where
  commits := rfl
  bucket key := by
    rw [commit, Store.bucket_set, commitsOf]
    by_cases h : w.key = key
    · rw [if_pos h, List.filter_cons_of_pos (by simpa using h), h]
      rfl
    · rw [if_neg h, List.filter_cons_of_neg (by simpa using h)]
      rfl
  known key := by
    rw [List.mem_singleton]
    by_cases h : key = w.key
    · simp [commit, h, Store.set_same]
    · simp [commit, h, Store.set_of_ne]

/-- A loop of steps, each with its own keys and commits. -/
theorem Extends.foldl {α : Type*} {f : Ledger → α → Ledger} {ks : α → List Str} {cs : α → List Ktv}
    (h : ∀ (s : Ledger) x, s.Extends (f s x) (ks x) (cs x)) (xs : List α) (s : Ledger) :
    s.Extends (xs.foldl f s) (xs.flatMap ks) (xs.flatMap cs) := by
  induction xs generalizing s with
  | nil => exact Extends.refl s
  | cons x xs ih => exact (h s x).trans (ih (f s x))

/-- Equal stores, extended by the same commits in orders that leave the same buckets, stay equal. -/
theorem Extends.store_eq {s₁ s₂ s₁' s₂' : Ledger} {ks₁ ks₂ : List Str} {cs₁ cs₂ : List Ktv}
    (h₁ : s₁.Extends s₁' ks₁ cs₁) (h₂ : s₂.Extends s₂' ks₂ cs₂) (hstore : s₁.store = s₂.store)
    (hks : ∀ key, key ∈ ks₁ ↔ key ∈ ks₂)
    (hcs : ∀ (b : Bucket) key, b.putAll (commitsOf cs₁ key) = b.putAll (commitsOf cs₂ key)) :
    s₁'.store = s₂'.store := by
  funext key
  refine Store.apply_eq ?_ ?_
  · rw [h₁.known, h₂.known, hstore, hks]
  · rw [h₁.bucket, h₂.bucket, hstore, hcs]

/-! ## The top of the log -/

/-- Every bucket holds what the commits of its key left in it. -/
def Consistent (s : Ledger) : Prop :=
  ∀ key, s.store.bucket key = TopMap.empty.putAll (commitsOf s.commits key)

theorem consistent_empty : Consistent empty := fun _ => rfl

theorem Consistent.of_extends {s s' : Ledger} {ks : List Str} {cs : List Ktv} (h : s.Consistent)
    (hext : s.Extends s' ks cs) : s'.Consistent := fun key => by
  rw [hext.bucket, hext.commits, commitsOf_append, TopMap.putAll_append, ← h key]

/-- **The top of the log.** A consistent bucket has the logged value of a timestamp as long as fewer than
`KVS_GB_KEEP_N_VALUES` greater timestamps were logged, and nothing else. -/
theorem Consistent.get?_bucket {s : Ledger} (h : s.Consistent) (key : Str) (time : Uint64) :
    (s.store.bucket key).get? time
      = if ((s.logTimes key).filter (time < ·)).card < keepNValues then s.log key time else none := by
  have htimes : (commitsOf s.commits key).map Prod.fst = (s.commits.filter (·.key = key)).map Ktv.time := by
    rw [commitsOf, List.map_map]
    rfl
  have hlast : (((commitsOf s.commits key).filter (·.1 = time)).getLast?).map Prod.snd
      = s.log key time := by
    have hfilter : (s.commits.filter (·.key = key)).filter
          ((fun c : Uint64 × Str => decide (c.1 = time)) ∘ fun w => (w.time, w.value))
        = s.commits.filter fun w => w.key = key ∧ w.time = time := by
      rw [List.filter_filter]
      exact List.filter_congr fun w _ => by simp [Bool.and_comm]
    rw [commitsOf, List.filter_map, List.getLast?_map, Option.map_map, hfilter]
    rfl
  rw [h key, TopMap.get?_putAll_empty, htimes, hlast]
  rfl

/-! ## Reading -/

theorem log_isSome {s : Ledger} {key : Str} {time : Uint64} :
    (s.log key time).isSome ↔ time ∈ s.logTimes key := by
  rw [log, Option.isSome_map, List.getLast?_isSome, ne_eq, List.filter_eq_nil_iff, logTimes,
    List.mem_toFinset, List.mem_map]
  simp [and_assoc]

/-- The log ends with the commits made last. -/
theorem log_of_append {s : Ledger} {cs cs' : List Ktv} (hcommits : s.commits = cs ++ cs') {w : Ktv}
    (hw : w ∈ cs') (hall : ∀ w' ∈ cs', w'.key = w.key → w'.time = w.time → w'.value = w.value) :
    s.log w.key w.time = some w.value := by
  have hmem : w ∈ cs'.filter fun w' => w'.key = w.key ∧ w'.time = w.time :=
    List.mem_filter.mpr ⟨hw, by simp⟩
  obtain ⟨last, hlast⟩ := Option.isSome_iff_exists.mp (List.getLast?_isSome.mpr (List.ne_nil_of_mem hmem))
  obtain ⟨hlastMem, hmatch⟩ := List.mem_filter.mp (List.mem_of_getLast? hlast)
  obtain ⟨hkey, htime⟩ : last.key = w.key ∧ last.time = w.time := by simpa using hmatch
  rw [log, hcommits, List.filter_append, List.getLast?_append, hlast, Option.some_or, Option.map_some,
    hall last hlastMem hkey htime]

theorem Extends.mem_logTimes {s s' : Ledger} {ks : List Str} {cs : List Ktv} (h : s.Extends s' ks cs)
    {key : Str} {time : Uint64} :
    time ∈ s'.logTimes key ↔ time ∈ s.logTimes key ∨ ∃ w ∈ cs, w.key = key ∧ w.time = time := by
  rw [logTimes, logTimes, h.commits, List.mem_toFinset, List.mem_toFinset, List.filter_append, List.map_append,
    List.mem_append]
  simp [and_assoc]

/-- **Reading is exact.** While fewer than `KVS_GB_KEEP_N_VALUES` logged timestamps of the key lie in the
future, a read finds the value committed last under the greatest logged timestamp of its window. -/
theorem Consistent.tryRead_eq_some {s : Ledger} (h : s.Consistent) {key : Str}
    {noEarlierThan now : Uint64} (hfew : ((s.logTimes key).filter (now < ·)).card < keepNValues)
    {value : Str} :
    s.store.tryRead key noEarlierThan now = some value
      ↔ ∃ time, IsGreatest {t | t ∈ s.logTimes key ∧ noEarlierThan ≤ t ∧ t ≤ now} time
        ∧ s.log key time = some value := by
  -- a logged timestamp with no other one between it and `now` has not been evicted
  have hkept : ∀ time ∈ s.logTimes key, (∀ t ∈ s.logTimes key, t ≤ now → t ≤ time) →
      (s.store.bucket key).get? time = s.log key time := by
    intro time _ hmax
    rw [h.get?_bucket, if_pos]
    refine lt_of_le_of_lt (Finset.card_le_card fun t ht => ?_) hfew
    obtain ⟨ht, hlt⟩ := Finset.mem_filter.mp ht
    exact Finset.mem_filter.mpr ⟨ht, not_le.mp fun hle => absurd (hmax t ht hle) (not_le.mpr hlt)⟩
  have hlogged : ∀ {time}, ((s.store.bucket key).get? time).isSome → time ∈ s.logTimes key := by
    intro time hsome
    rw [h.get?_bucket] at hsome
    split at hsome
    · exact log_isSome.mp hsome
    · exact absurd hsome nofun
  rw [Store.tryRead_eq_some]
  refine exists_congr fun time => ?_
  constructor
  · rintro ⟨hget, hfrom, hto, hmax⟩
    have hmem : time ∈ s.logTimes key := hlogged (Option.isSome_iff_exists.mpr ⟨_, hget⟩)
    -- the greatest logged timestamp up to `now` is in the bucket, so it is `time`
    have hgreatest : ∀ t ∈ s.logTimes key, t ≤ now → t ≤ time := by
      intro t ht hle
      obtain ⟨g, hg, hgmax⟩ := ((s.logTimes key).filter (· ≤ now)).exists_max_image id
        ⟨t, Finset.mem_filter.mpr ⟨ht, hle⟩⟩
      obtain ⟨hg, hgnow⟩ := Finset.mem_filter.mp hg
      have hgkept := hkept g hg fun u hu hunow => hgmax u (Finset.mem_filter.mpr ⟨hu, hunow⟩)
      have hgsome : ((s.store.bucket key).get? g).isSome := by
        rw [hgkept]
        exact log_isSome.mpr hg
      exact (hgmax t (Finset.mem_filter.mpr ⟨ht, hle⟩)).trans (hmax g hgsome hgnow)
    refine ⟨⟨⟨hmem, hfrom, hto⟩, fun t ht => hgreatest t ht.1 ht.2.2⟩, ?_⟩
    rw [← hkept time hmem hgreatest, hget]
  · rintro ⟨⟨⟨hmem, hfrom, hto⟩, hupper⟩, hlog⟩
    have hgreatest : ∀ t ∈ s.logTimes key, t ≤ now → t ≤ time := by
      intro t ht hle
      by_cases htime : t ≤ time
      · exact htime
      · exact hupper ⟨ht, hfrom.trans (not_le.mp htime).le, hle⟩
    refine ⟨(hkept time hmem hgreatest).trans hlog, hfrom, hto, ?_⟩
    exact fun t hsome hle => hgreatest t (hlogged hsome) hle

end Ledger

end Achal
