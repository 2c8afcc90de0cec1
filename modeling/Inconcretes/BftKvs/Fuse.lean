import Inconcretes.BftKvs.Store
import Inconcretes.Lib.Decimal
import Inconcretes.Lib.UnorderedMap
import Inconcretes.Lib.Voting
import Mathlib.Data.List.Sort
import Mathlib.Data.Rat.Floor

/-!
# The fuse functions

A job ends with a fuse function that commits what the nodes agree on. `strong_simple_majority_of_strings`
and `median_of_doubles` collect the tuples of all nodes in nested hash maps from keys to timestamps to
nodes, a later tuple of a node over an earlier one, and then walk over these maps in whatever order they
have. Without a fuse function the job commits the tuples of the reduced root.
-/

namespace Achal

variable {P : Params} {β : Type*}

/-! ## Collecting the tuples -/

/-- What `std::stod` and `std::stoull` throw. -/
inductive StodError
  | invalidArgument
  | outOfRange
  deriving DecidableEq

/-- Blanks that both skip. -/
def isSpace (c : UInt8) : Bool := c = 32 || 9 ≤ c && c ≤ 13

theorem isSpace_of_isDigit {c : UInt8} (h : Decimal.isDigit c = true) :
    isSpace c = false ∧ c ≠ 45 ∧ c ≠ 43 := by
  simp only [Decimal.isDigit, isSpace, Bool.and_eq_true, Bool.or_eq_false_iff, Bool.and_eq_false_iff,
    decide_eq_true_eq, decide_eq_false_iff_not, UInt8.le_iff_toNat_le, ← UInt8.toNat_inj, ne_eq,
    UInt8.reduceToNat] at h ⊢
  omega

/-- From keys to timestamps to node numbers. -/
abbrev Votes (β : Type*) := UMap Str (UMap Uint64 (UMap ℕ β))

/-- `map[key][time][i] = value`. -/
def Votes.record (m : Votes β) (i : ℕ) (key : Str) (time : Uint64) (value : β) : Votes β :=
  m.upsert key fun times => (times.getD ∅).upsert time fun nodes => (nodes.getD ∅).upsert i fun _ => value

/-- The tuples of a node. A node whose length exceeds `NT` is skipped. -/
def EigNode.proposals (n : EigNode P) : List Ktv := if n.length.val > P.NT then [] else n.decode

theorem EigNode.length_value_le {n : EigNode P} {w : Ktv} (hw : w ∈ n.proposals) :
    w.value.length ≤ P.VS := by
  unfold proposals at hw
  split at hw
  · cases hw
  · obtain ⟨t, -, rfl⟩ := List.mem_map.mp hw
    exact t.length_value_read_le

/-- The tuples that the loops over nodes and tuples visit, in their order. -/
def ballots (nodes : List (EigNode P)) : List (ℕ × Ktv) :=
  nodes.zipIdx.flatMap fun x => x.1.proposals.map fun w => (x.2, w)

/-- `ktnv`. -/
def ktnv (nodes : List (EigNode P)) : Votes Str :=
  (ballots nodes).foldl (fun m b => m.record b.1 b.2.key b.2.time b.2.value) ∅

/-- The operations on doubles that `median_of_doubles` uses. -/
structure Doubles where
  Double : Type
  stod : Str → Except StodError Double
  sort : List Double → List Double
  sort_perm : ∀ xs, (sort xs).Perm xs
  /-- `(a + b) / 2`. -/
  middle : Double → Double → Double
  toStr : Double → Str

/-- Doubles without rounding. -/
abbrev Doubles.exact (stod : Str → Except StodError ℚ) (toStr : ℚ → Str) : Doubles where
  Double := ℚ
  stod := stod
  sort := List.insertionSort (· ≤ ·)
  sort_perm := List.perm_insertionSort (· ≤ ·)
  middle a b := (a + b) / 2
  toStr := toStr

/-- `std::stod` on decimals without a sign: digits, a fraction, an exponent. -/
def decimal (s : Str) : Except StodError ℚ :=
  let digits (s : Str) := (s.takeWhile Decimal.isDigit, s.dropWhile Decimal.isDigit)
  let (whole, rest) := digits s
  let (fraction, rest) := if rest.head? = some 46 then digits rest.tail else ([], rest)
  let exponent := if rest.head? = some 101 then (digits rest.tail).1 else []
  if whole ++ fraction = [] then .error .invalidArgument
  else
    let value := (Decimal.value (whole ++ fraction) * 10 ^ Decimal.value exponent : ℚ)
      / 10 ^ fraction.length
    if value < 2 ^ 1024 then .ok value else .error .outOfRange

/-- `std::to_string` of a number that is not negative, six digits behind the point. -/
def fixedPoint (q : ℚ) : Str :=
  let n := (q * 10 ^ 6 + 1 / 2).floor.toNat
  Decimal.render (n / 10 ^ 6) ++ 46 :: [5, 4, 3, 2, 1, 0].map fun i => Decimal.digit (n / 10 ^ i % 10)

/-- Doubles that are read and printed as decimals. -/
abbrev Doubles.decimals : Doubles := Doubles.exact decimal fixedPoint

example : decimal [49, 50, 46, 53] = .ok (25 / 2) := by decide +kernel

/-- One tuple in `median_of_doubles`: a string that is no number is ignored, a number out of range ends the
function. -/
def Doubles.record (F : Doubles) (m : Votes F.Double) (b : ℕ × Ktv) :
    Except StodError (Votes F.Double) :=
  match F.stod b.2.value with
  | .ok value => .ok (m.record b.1 b.2.key b.2.time value)
  | .error .invalidArgument => .ok m
  | .error .outOfRange => .error .outOfRange

/-! ## Committing -/

/-- The iteration orders of the nested maps. -/
structure FuseOrder (β : Type*) where
  keys : IterOrder Str (UMap Uint64 (UMap ℕ β))
  times : Str → IterOrder Uint64 (UMap ℕ β)
  nodes : Str → Uint64 → IterOrder ℕ β

/-- The walk over nested maps in the order of insertion, newest first. -/
def FuseOrder.newestFirst (β : Type*) : FuseOrder β :=
  ⟨IterOrder.newestFirst _ _, fun _ => IterOrder.newestFirst _ _, fun _ _ => IterOrder.newestFirst _ _⟩

/-- The loop over the timestamps of one key. -/
def commitTimes (elect : Uint64 → UMap ℕ β → Option Str) (key : Str)
    (entries : List (Σ _ : Uint64, UMap ℕ β)) (s : Ledger) : Ledger :=
  entries.foldl
    (fun s p2 =>
      match elect p2.1 p2.2 with
      | some value => s.commit ⟨key, p2.1, value⟩
      | none => s) s

/-- The loop over the keys. -/
def commitLoop (o : FuseOrder β) (elect : Str → Uint64 → UMap ℕ β → Option Str) (m : Votes β)
    (s : Ledger) : Ledger :=
  (o.keys.visit m).foldl
    (fun s p1 => commitTimes (elect p1.1) p1.1 ((o.times p1.1).visit p1.2) (s.touch p1.1)) s

/-- `freq`, and the first entry of it with more than `num_nodes / 2.0` votes. -/
def majority (numNodes : ℕ) (freqOrder : IterOrder Str ℕ) (values : List Str) : Option Str :=
  let freq : UMap Str ℕ := values.foldl (fun m v => m.upsert v fun o => o.getD 0 + 1) ∅
  ((freqOrder.visit freq).find? fun p4 => numNodes < 2 * p4.2).map Sigma.fst

/-- `strong_simple_majority_of_strings(store, nodes, num_nodes)`. -/
def strongSimpleMajorityOfStrings (o : FuseOrder Str) (freqOrder : Str → Uint64 → IterOrder Str ℕ)
    (nodes : List (EigNode P)) (s : Ledger) : Ledger :=
  commitLoop o
    (fun key time votes =>
      majority nodes.length (freqOrder key time) (((o.nodes key time).visit votes).map Sigma.snd))
    (ktnv nodes) s

/-- The median of at least three values. -/
def Doubles.median (F : Doubles) (values : List F.Double) : Option Str :=
  if h : values.length < 3 then none
  else
    have hlen : (F.sort values).length = values.length := (F.sort_perm values).length_eq
    some (F.toStr (F.middle ((F.sort values).get ⟨values.length / 2, by omega⟩)
      ((F.sort values).get ⟨(values.length - 1) / 2, by omega⟩)))

/-- `median_of_doubles(store, nodes, num_nodes)`. An exception leaves before anything is committed. -/
def medianOfDoubles (F : Doubles) (o : FuseOrder F.Double) (nodes : List (EigNode P)) (s : Ledger) :
    Except StodError Ledger := do
  let map ← (ballots nodes).foldlM F.record ∅
  return commitLoop o
    (fun key time votes => F.median (((o.nodes key time).visit votes).map Sigma.snd)) map s

/-- The commits of `job()` without a fuse function, from the reduced root. -/
def commitRoot (result : EigNode P) (s : Ledger) : Ledger :=
  if result.length.val ≤ P.NT then result.decode.foldl Ledger.commit s else s

/-! ## The bounded store over whole runs -/

/-- One execution of a commit path, with its inputs and iteration orders. -/
inductive FuseCall (P : Params) (F : Doubles)
  | strong (o : FuseOrder Str) (freqOrder : Str → Uint64 → IterOrder Str ℕ) (nodes : List (EigNode P))
  | median (o : FuseOrder F.Double) (nodes : List (EigNode P))
  | root (result : EigNode P)

/-- The ledger after a call; an exception has left it as it was. -/
def FuseCall.run {F : Doubles} (s : Ledger) : FuseCall P F → Ledger
  | .strong o freqOrder nodes => strongSimpleMajorityOfStrings o freqOrder nodes s
  | .median o nodes =>
    match medianOfDoubles F o nodes s with
    | .ok s' => s'
    | .error _ => s
  | .root result => commitRoot result s

namespace Ledger

/-- What the loop over the timestamps commits. -/
def timesCommits (elect : Uint64 → UMap ℕ β → Option Str) (key : Str)
    (entries : List (Σ _ : Uint64, UMap ℕ β)) : List Ktv :=
  entries.flatMap fun p2 => ((elect p2.1 p2.2).map fun value => ⟨key, p2.1, value⟩).toList

/-- What the loop over the keys commits. -/
def loopCommits (o : FuseOrder β) (elect : Str → Uint64 → UMap ℕ β → Option Str) (m : Votes β) :
    List Ktv :=
  (o.keys.visit m).flatMap fun p1 => timesCommits (elect p1.1) p1.1 ((o.times p1.1).visit p1.2)

theorem extends_commitTimes (s : Ledger) (elect : Uint64 → UMap ℕ β → Option Str) (key : Str)
    (entries : List (Σ _ : Uint64, UMap ℕ β)) :
    s.Extends (commitTimes elect key entries s)
      (entries.flatMap fun p2 => ((elect p2.1 p2.2).map fun _ => key).toList)
      (timesCommits elect key entries) := by
  refine Extends.foldl (fun s p2 => ?_) entries s
  cases elect p2.1 p2.2 with
  | none => exact Extends.refl s
  | some value => exact s.extends_commit _

theorem extends_commitLoop (s : Ledger) (o : FuseOrder β)
    (elect : Str → Uint64 → UMap ℕ β → Option Str) (m : Votes β) :
    s.Extends (commitLoop o elect m s) ((o.keys.visit m).map Sigma.fst) (loopCommits o elect m) := by
  refine (Extends.foldl (fun s p1 => (s.extends_touch p1.1).trans (extends_commitTimes _ _ _ _))
    (o.keys.visit m) s).keys_congr fun key => ?_
  -- the commits of a key look up no other key than the one touched
  rw [List.mem_flatMap, List.mem_map]
  refine exists_congr fun p1 => and_congr_right fun _ => ?_
  rw [List.singleton_append, List.mem_cons, List.mem_flatMap]
  constructor
  · rintro (rfl | ⟨p2, -, hp2⟩)
    · rfl
    · rw [Option.mem_toList, Option.map_eq_some_iff] at hp2
      exact hp2.choose_spec.2
  · exact fun h => Or.inl h.symm

theorem extends_commitRoot (s : Ledger) (result : EigNode P) :
    s.Extends (commitRoot result s) (result.proposals.map Ktv.key) result.proposals := by
  unfold commitRoot EigNode.proposals
  by_cases h : result.length.val ≤ P.NT
  · rw [if_pos h, if_neg (not_lt.mpr h)]
    have hloop := Extends.foldl (fun s w => s.extends_commit w) result.decode s
    rwa [List.flatMap_singleton', ← List.map_eq_flatMap] at hloop
  · rw [if_neg h, if_pos (not_le.mp h)]
    exact Extends.refl s

theorem Consistent.medianOfDoubles {s s' : Ledger} (h : s.Consistent) {F : Doubles}
    {o : FuseOrder F.Double} {nodes : List (EigNode P)}
    (hrun : Achal.medianOfDoubles F o nodes s = .ok s') : s'.Consistent := by
  unfold Achal.medianOfDoubles at hrun
  cases hmap : (ballots nodes).foldlM F.record (∅ : Votes F.Double) with
  | error e =>
    rw [hmap] at hrun
    exact absurd hrun nofun
  | ok map =>
    rw [hmap] at hrun
    obtain rfl := Except.ok.inj hrun
    exact h.of_extends (extends_commitLoop _ _ _ _)

/-- One call keeps every bucket consistent. -/
theorem Consistent.run {F : Doubles} {s : Ledger} (h : s.Consistent) (call : FuseCall P F) :
    (call.run s).Consistent := by
  cases call with
  | strong o freqOrder nodes =>
    rw [FuseCall.run, strongSimpleMajorityOfStrings]
    exact h.of_extends (extends_commitLoop _ _ _ _)
  | median o nodes =>
    rw [FuseCall.run]
    split
    · rename_i hrun
      exact h.medianOfDoubles hrun
    · exact h
  | root result => exact h.of_extends (s.extends_commitRoot result)

theorem Consistent.runAll {F : Doubles} (calls : List (FuseCall P F)) :
    (calls.foldl FuseCall.run Ledger.empty).Consistent :=
  List.foldlRecOn calls _ consistent_empty fun _ hs call _ => hs.run call

/-- **The store is the top of the log.** After every sequence of calls on the empty store, a bucket has
the value committed last under a timestamp as long as fewer than `KVS_GB_KEEP_N_VALUES` greater timestamps
were ever committed for its key, and nothing else. -/
theorem bucket_eq_top_of_log {F : Doubles} (calls : List (FuseCall P F)) (key : Str) (time : Uint64) :
    let s := calls.foldl FuseCall.run Ledger.empty
    (s.store.bucket key).get? time
      = if ((s.logTimes key).filter (time < ·)).card < keepNValues then s.log key time else none :=
  (Consistent.runAll calls).get?_bucket key time

/-- **Reading despite garbage collection.** After every sequence of calls on the empty store, while fewer
than `KVS_GB_KEEP_N_VALUES` timestamps ever committed for the key lie in the future, `try_read` succeeds
exactly when a timestamp committed for the key lies in the window. `value` is then what was committed last
for the greatest such timestamp, and it is unchanged otherwise. -/
theorem tryRead_eq_newest {F : Doubles} (calls : List (FuseCall P F)) (key : Str)
    (noEarlierThan now : Uint64) (value : Str)
    (hfew : (((calls.foldl FuseCall.run empty).logTimes key).filter (now < ·)).card < keepNValues) :
    let s := calls.foldl FuseCall.run empty
    let r := s.store.tryReadInto key noEarlierThan now value
    (r.1 = true ↔ ∃ time ∈ s.logTimes key, noEarlierThan ≤ time ∧ time ≤ now)
      ∧ (r.1 = true → ∃ time,
          IsGreatest {t | t ∈ s.logTimes key ∧ noEarlierThan ≤ t ∧ t ≤ now} time
            ∧ s.log key time = some r.2)
      ∧ (r.1 = false → r.2 = value) := by
  intro s r
  have hs : s.Consistent := Consistent.runAll calls
  have hread : ∀ found, s.store.tryRead key noEarlierThan now = some found
      ↔ ∃ time, IsGreatest {t | t ∈ s.logTimes key ∧ noEarlierThan ≤ t ∧ t ≤ now} time
        ∧ s.log key time = some found := fun _ => hs.tryRead_eq_some hfew
  cases hfound : s.store.tryRead key noEarlierThan now with
  | some found =>
    have hr : r = (true, found) := by
      show s.store.tryReadInto key noEarlierThan now value = _
      rw [Store.tryReadInto, hfound]
    obtain ⟨time, hgreatest, hlog⟩ := (hread found).mp hfound
    rw [hr]
    exact ⟨⟨fun _ => ⟨time, hgreatest.1⟩, fun _ => rfl⟩, fun _ => ⟨time, hgreatest, hlog⟩, nofun⟩
  | none =>
    have hr : r = (false, value) := by
      show s.store.tryReadInto key noEarlierThan now value = _
      rw [Store.tryReadInto, hfound]
    rw [hr]
    refine ⟨⟨nofun, ?_⟩, nofun, fun _ => rfl⟩
    -- a logged timestamp in the window would leave a greatest one to be found
    rintro ⟨time, htime⟩
    obtain ⟨g, hg, hgmax⟩ := ((s.logTimes key).filter fun t => noEarlierThan ≤ t ∧ t ≤ now).exists_max_image
      id ⟨time, Finset.mem_filter.mpr htime⟩
    have hgmem := Finset.mem_filter.mp hg
    obtain ⟨found, hlog⟩ := Option.isSome_iff_exists.mp (log_isSome.mpr hgmem.1)
    have hsome := (hread found).mpr ⟨g, ⟨hgmem, fun t ht => hgmax t (Finset.mem_filter.mpr ht)⟩, hlog⟩
    exact absurd (hfound.symm.trans hsome) nofun

/-- The value of time 5 hides the one of time 3, and the one of time 9 is not visible at 6. -/
theorem tryRead_eq_newest_threeVersions :
    let commitOne (time : Uint64) (value : UInt8) : FuseCall (oneTuple 1 1) Doubles.decimals :=
      .root ((Pod.zero : EigNode (oneTuple 1 1)).push ⟨[107], time, [value]⟩)
    let s := [commitOne 5 53, commitOne 9 57, commitOne 3 51].foldl FuseCall.run empty
    (s.store.tryReadInto [107] 2 6 []).1 = true
      ∧ ∃ time, IsGreatest {t | t ∈ s.logTimes [107] ∧ 2 ≤ t ∧ t ≤ 6} time
        ∧ s.log [107] time = some (s.store.tryReadInto [107] 2 6 []).2 := by
  intro commitOne s
  have hexact := tryRead_eq_newest [commitOne 5 53, commitOne 9 57, commitOne 3 51] [107] 2 6 []
    (by decide +kernel)
  have htrue := hexact.1.mpr ⟨5, by decide +kernel, by decide, by decide⟩
  exact ⟨htrue, hexact.2.1 htrue⟩

end Ledger

end Achal
