import Inconcretes.BftKvs.Printed
import Inconcretes.Kvs.Collection
import Inconcretes.Kvs.Interface
import Inconcretes.Lib.Voting

/-!
# Reading from several Redis servers

Each host of `RedisKVS2` writes to its own server and reads from all of them: `try_read` takes the newest
value of each server and fuses these values, as a majority or as a median. The servers never talk to each
other. When the correct ones hold the same versions up to a clock, a read at this clock is that of a single
register, whatever one faulty server replies (`read_eq_register`). When they do not, a majority still returns
only what a correct server holds, and two readers never return different values from four servers
(`read_majority_agree`).

A median gives up agreement: two readers to whom a faulty server replies differently return different
numbers, but before they are printed these lie between those of the correct servers and at most half as far
apart (`read_median_halves`). In both cases a faulty server that closes its connection stops the reader, and
with a median also one that replies with a string that is no number (`read_isOk_iff`).
-/

namespace Achal

/-- How a read of `RedisKVS2` ends when it does not return: the client of a server throws, or the fuse does
not return. -/
inductive ReadError
  | redis
  | fuse (e : FuseError)
  deriving DecidableEq

namespace RedisKVS2

/-- The loop over `all_clients` in `try_read`: `none` is a server whose client throws. -/
def pushCandidate (candidateValues : List Str) : Option (List Str) → Except ReadError (List Str)
  | none => .error .redis
  | some withoutScore => .ok (match withoutScore.getLast? with
    | none => candidateValues
    | some last => candidateValues ++ [last])

/-- `try_read(key, no_earlier_than, value)` when the servers of `all_clients` reply with these members. -/
def tryRead (F : Doubles) (useSimpleMedian : Bool) (replies : List (Option (List Str)))
    (noEarlierThan : Uint64) (value : Str) (now : Uint64) : Except ReadError (Bool × Str) :=
  if noEarlierThan > now then .ok (false, value)
  else match replies.foldlM pushCandidate [] with
    | .error e => .error e
    | .ok candidateValues => (fuseRedundantValues F candidateValues useSimpleMedian value).mapError .fuse

theorem foldlM_pushCandidate {replies : List (Option (List Str))} (h : ∀ r ∈ replies, r ≠ none)
    (candidateValues : List Str) : replies.foldlM pushCandidate candidateValues
      = .ok (candidateValues ++ replies.filterMap (·.bind List.getLast?)) := by
  induction replies generalizing candidateValues with
  | nil => simp [pure, Except.pure]
  | cons r replies ih =>
    obtain ⟨hr, hrest⟩ := List.forall_mem_cons.mp h
    obtain ⟨withoutScore, rfl⟩ := Option.ne_none_iff_exists'.mp hr
    rw [List.foldlM_cons, List.filterMap_cons]
    change replies.foldlM pushCandidate _ = _
    rw [ih hrest]
    cases hlast : withoutScore.getLast? <;> simp [hlast]

theorem foldlM_pushCandidate_error {replies : List (Option (List Str))} (h : none ∈ replies)
    (candidateValues : List Str) : replies.foldlM pushCandidate candidateValues = .error .redis := by
  induction replies generalizing candidateValues with
  | nil => exact absurd h List.not_mem_nil
  | cons r replies ih =>
    rw [List.foldlM_cons]
    cases r with
    | none => rfl
    | some withoutScore => exact ih (by simpa using h) _

/-- Without the median, the fuse finds the value of more than half of the candidates, if there are at least
two. -/
theorem fuseEqual_eq_some_iff {candidateValues : List Str} (hsize : candidateValues.length ≤ 4) {v : Str} :
    fuseEqual candidateValues = .ok (some v)
      ↔ 2 ≤ candidateValues.length ∧ candidateValues.length < 2 * candidateValues.count v := by
  match candidateValues with
  | [] | [_] => simp [fuseEqual]
  | [a, b] | [a, b, c] | [a, b, c, d] =>
    simp only [fuseEqual, List.count_cons, List.count_nil, beq_iff_eq, List.length_cons, List.length_nil]
    grind

theorem fuseEqual_isOk {candidateValues : List Str} (hsize : candidateValues.length ≤ 4) :
    ∃ fused, fuseEqual candidateValues = .ok fused := by
  match candidateValues with
  | [] | [_] | [_, _] | [_, _, _] | [_, _, _, _] => exact ⟨_, rfl⟩

end RedisKVS2

open Memcmp RedisKVS

/-! ## Servers and readers -/

/-- The servers of a system and the calls at their hosts. -/
structure Replicas (ι : Type) where
  servers : List ι
  faulty : Finset ι
  calls : ι → List RedisKVS.Call

namespace Replicas

variable {ι : Type} [DecidableEq ι] (R : Replicas ι) (S : RankedRedis Binary64.Integer) {F : Doubles}
  {allClients : List ι} {lies : ι → Option (List Str)} {key : Str} {noEarlierThan now : Uint64} {value v : Str}

/-- What a server replies to a reader: a faulty one anything. -/
def reply (lies : ι → Option (List Str)) (key : Str) (noEarlierThan now : Uint64) (p : ι) :
    Option (List Str) :=
  if p ∈ R.faulty then lies p
  else some ((run S true (R.calls p)).withoutScore key noEarlierThan now)

/-- A read of a host whose `all_clients` are the servers in some order, its own first. -/
def read (F : Doubles) (useSimpleMedian : Bool) (allClients : List ι) (lies : ι → Option (List Str))
    (key : Str) (noEarlierThan : Uint64) (value : Str) (now : Uint64) : Except ReadError (Bool × Str) :=
  RedisKVS2.tryRead F useSimpleMedian (allClients.map (R.reply S lies key noEarlierThan now)) noEarlierThan
    value now

/-- The candidate from a server, if it has one. -/
def candidate (lies : ι → Option (List Str)) (key : Str) (noEarlierThan now : Uint64) (p : ι) : Option Str :=
  (R.reply S lies key noEarlierThan now p).bind List.getLast?

def correct : List ι := R.servers.filter (· ∉ R.faulty)

variable {R S}

theorem mem_correct {p : ι} : p ∈ R.correct ↔ p ∈ R.servers ∧ p ∉ R.faulty := by simp [correct]

theorem candidate_of_correct {p : ι} (hp : p ∉ R.faulty) :
    R.candidate S lies key noEarlierThan now p = (run S true (R.calls p)).newest key noEarlierThan now := by
  rw [candidate, reply, if_neg hp]
  rfl

/-- A client throws for a faulty server alone. -/
theorem none_mem_replies_iff (hclients : allClients.Perm R.servers) :
    none ∈ allClients.map (R.reply S lies key noEarlierThan now)
      ↔ ∃ p ∈ R.servers, p ∈ R.faulty ∧ lies p = none := by
  rw [List.mem_map]
  refine exists_congr fun p => ?_
  rw [hclients.mem_iff, reply]
  split <;> simp_all

/-- When no client throws, a read fuses the candidates. -/
theorem read_eq (hclients : allClients.Perm R.servers)
    (hreply : ∀ p ∈ R.servers, p ∈ R.faulty → lies p ≠ none) (hwindow : noEarlierThan ≤ now)
    (useSimpleMedian : Bool) : R.read S F useSimpleMedian allClients lies key noEarlierThan value now
      = (fuseRedundantValues F (allClients.filterMap (R.candidate S lies key noEarlierThan now))
          useSimpleMedian value).mapError .fuse := by
  have hall : ∀ r ∈ allClients.map (R.reply S lies key noEarlierThan now), r ≠ none := by
    rintro r hr rfl
    obtain ⟨p, hp, hfaulty, hnone⟩ := (none_mem_replies_iff hclients).mp hr
    exact hreply p hp hfaulty hnone
  rw [read, RedisKVS2.tryRead, if_neg (not_lt.mpr hwindow), RedisKVS2.foldlM_pushCandidate hall,
    List.nil_append, List.filterMap_map]
  rfl

theorem read_error (hclients : allClients.Perm R.servers)
    (hreply : ∃ p ∈ R.servers, p ∈ R.faulty ∧ lies p = none) (hwindow : noEarlierThan ≤ now)
    (useSimpleMedian : Bool) :
    R.read S F useSimpleMedian allClients lies key noEarlierThan value now = .error .redis := by
  rw [read, RedisKVS2.tryRead, if_neg (not_lt.mpr hwindow),
    RedisKVS2.foldlM_pushCandidate_error ((none_mem_replies_iff hclients).mpr hreply)]

/-- A read that returns a value has fused the candidates. -/
theorem fuse_of_read (hclients : allClients.Perm R.servers) {useSimpleMedian : Bool}
    (hread : R.read S F useSimpleMedian allClients lies key noEarlierThan value now = .ok (true, v)) :
    noEarlierThan ≤ now
      ∧ (fuseRedundantValues F (allClients.filterMap (R.candidate S lies key noEarlierThan now))
          useSimpleMedian value).mapError ReadError.fuse = .ok (true, v) := by
  have hwindow : noEarlierThan ≤ now := by
    by_contra hlate
    rw [read, RedisKVS2.tryRead, if_pos (not_le.mp hlate)] at hread
    exact absurd (Prod.mk.inj (Except.ok.inj hread)).1 Bool.false_ne_true
  have hreply : ∀ p ∈ R.servers, p ∈ R.faulty → lies p ≠ none := by
    intro p hp hfaulty hnone
    rw [read_error hclients ⟨p, hp, hfaulty, hnone⟩ hwindow] at hread
    cases hread
  exact ⟨hwindow, (read_eq hclients hreply hwindow useSimpleMedian).symm.trans hread⟩

/-- **What stops a reader.** A read from at most four servers returns exactly when no client throws and, for
a median of at least three candidates, all of them are numbers. -/
theorem read_isOk_iff (hclients : allClients.Perm R.servers) (hsize : R.servers.length ≤ 4)
    (hwindow : noEarlierThan ≤ now) (useSimpleMedian : Bool) :
    (R.read S F useSimpleMedian allClients lies key noEarlierThan value now).isOk = true
      ↔ (∀ p ∈ R.servers, p ∈ R.faulty → lies p ≠ none)
        ∧ (useSimpleMedian = true →
          let candidateValues := allClients.filterMap (R.candidate S lies key noEarlierThan now)
          candidateValues.length ≤ 2 ∨ ∀ v ∈ candidateValues, ∃ x, F.stod v = .ok x) := by
  by_cases hreply : ∀ p ∈ R.servers, p ∈ R.faulty → lies p ≠ none
  · rw [read_eq hclients hreply hwindow, and_iff_right hreply]
    have hsmall := (List.length_filterMap_le (R.candidate S lies key noEarlierThan now) allClients).trans
      (hclients.length_eq.le.trans hsize)
    cases useSimpleMedian with
    | false =>
      obtain ⟨fused, hfused⟩ := RedisKVS2.fuseEqual_isOk hsmall
      rw [fuseRedundantValues, if_neg Bool.false_ne_true, hfused]
      exact iff_of_true rfl fun h => absurd h Bool.false_ne_true
    | true =>
      rw [forall_prop_of_true rfl, ← fuseRedundantValues_median_isOk_iff]
      cases fuseRedundantValues F _ true value <;> exact Iff.rfl
  · have hthrows : ∃ p ∈ R.servers, p ∈ R.faulty ∧ lies p = none := by
      by_contra! hnone
      exact hreply hnone
    rw [read_error hclients hthrows hwindow]
    exact iff_of_false Bool.false_ne_true fun h => hreply h.1

/-- The candidates of a reader: those of the correct servers, and at most one for each faulty one. -/
theorem candidates_perm (hclients : allClients.Perm R.servers) (lies : ι → Option (List Str)) (key : Str)
    (noEarlierThan now : Uint64) : ∃ others : List Str,
    (allClients.filterMap (R.candidate S lies key noEarlierThan now)).Perm (others
        ++ R.correct.filterMap fun p => (run S true (R.calls p)).newest key noEarlierThan now)
      ∧ others.length + R.correct.length ≤ R.servers.length := by
  refine ⟨(R.servers.filter (· ∈ R.faulty)).filterMap (R.candidate S lies key noEarlierThan now), ?_, ?_⟩
  · have hsplit := List.filter_append_perm (fun p => decide (p ∈ R.faulty)) R.servers
    have hcorrect : R.correct.filterMap (fun p => (run S true (R.calls p)).newest key noEarlierThan now)
        = R.correct.filterMap (R.candidate S lies key noEarlierThan now) :=
      List.filterMap_congr fun p hp => (candidate_of_correct (mem_correct.mp hp).2).symm
    rw [hcorrect, ← List.filterMap_append]
    refine (hclients.trans ?_).filterMap _
    simpa [correct] using hsplit.symm
  · have hlength := (List.filter_append_perm (fun p => decide (p ∈ R.faulty)) R.servers).length_eq
    rw [List.length_append] at hlength
    have hle := List.length_filterMap_le (R.candidate S lies key noEarlierThan now)
      (R.servers.filter fun p => decide (p ∈ R.faulty))
    simp only [correct, decide_not] at hlength ⊢
    omega

/-! ## Reading the same versions -/

theorem fuse_of_majority {candidateValues : List Str} (hsize : candidateValues.length ≤ 4)
    (hmajority : 2 ≤ candidateValues.length ∧ candidateValues.length < 2 * candidateValues.count v) :
    (fuseRedundantValues F candidateValues false value).mapError ReadError.fuse = .ok (true, v) := by
  rw [fuseRedundantValues, if_neg Bool.false_ne_true, (RedisKVS2.fuseEqual_eq_some_iff hsize).mpr hmajority]
  rfl

theorem fuse_of_few {candidateValues : List Str} (hfew : candidateValues.length ≤ 1) :
    (fuseRedundantValues F candidateValues false value).mapError ReadError.fuse = .ok (false, value) := by
  rw [fuseRedundantValues, if_neg Bool.false_ne_true]
  rcases candidateValues with - | ⟨v, - | ⟨w, rest⟩⟩
  · rfl
  · rfl
  · simp at hfew

theorem majority_of_fuse {candidateValues : List Str} (hsize : candidateValues.length ≤ 4)
    (hfuse : (fuseRedundantValues F candidateValues false value).mapError ReadError.fuse = .ok (true, v)) :
    2 ≤ candidateValues.length ∧ candidateValues.length < 2 * candidateValues.count v := by
  obtain ⟨fused, hfused⟩ := RedisKVS2.fuseEqual_isOk hsize
  rw [fuseRedundantValues, if_neg Bool.false_ne_true, hfused] at hfuse
  cases fused with
  | none => exact absurd (Prod.mk.inj (Except.ok.inj hfuse)).1 Bool.false_ne_true
  | some w =>
    obtain rfl := (Prod.mk.inj (Except.ok.inj hfuse)).2
    exact (RedisKVS2.fuseEqual_eq_some_iff hsize).mp hfused

/-- **The servers as one register.** Of at most four servers at least two are correct and at most one is
faulty, and the correct ones serve the same versions of a key up to the clock. Then a majority read returns
the value of the last of these versions, whatever a faulty server replies, and fails exactly when they all
lie before `no_earlier_than`. -/
theorem read_eq_register {vs : List (Uint64 × Str)} (hclients : allClients.Perm R.servers)
    (hsize : R.servers.length ≤ 4) (htwo : 2 ≤ R.correct.length)
    (hfaulty : R.servers.length ≤ R.correct.length + 1)
    (hserves : ∀ p ∈ R.correct, Serves (R.calls p) key now vs)
    (hreply : ∀ p ∈ R.servers, p ∈ R.faulty → lies p ≠ none) (hwindow : noEarlierThan ≤ now) :
    (∀ v, IsNewest vs noEarlierThan v →
        R.read S F false allClients lies key noEarlierThan value now = .ok (true, v))
      ∧ ((∀ v, ¬IsNewest vs noEarlierThan v) →
        R.read S F false allClients lies key noEarlierThan value now = .ok (false, value)) := by
  rw [read_eq hclients hreply hwindow]
  obtain ⟨others, hperm, hothers⟩ := candidates_perm hclients lies key noEarlierThan now
  have hlength := hperm.length_eq
  have hsmall := (List.length_filterMap_le (R.candidate S lies key noEarlierThan now) allClients).trans
    (hclients.length_eq.le.trans hsize)
  rw [List.length_append] at hlength
  constructor
  · intro v hv
    -- all correct servers offer `v`
    have hall : R.correct.filterMap (fun p => (run S true (R.calls p)).newest key noEarlierThan now)
        = List.replicate R.correct.length v := by
      rw [List.filterMap_congr (g := fun _ => some v) fun p hp => (newest_eq_some_iff (hserves p hp)).mpr hv]
      simp
    have hcount := (hperm.count_eq v).trans List.count_append
    rw [hall, List.length_replicate] at hlength
    rw [hall, List.count_replicate_self] at hcount
    exact fuse_of_majority hsmall ⟨by omega, by omega⟩
  · intro hnone
    have hall : R.correct.filterMap (fun p => (run S true (R.calls p)).newest key noEarlierThan now) = [] := by
      rw [List.filterMap_eq_nil_iff]
      intro p hp
      refine Option.eq_none_iff_forall_ne_some.mpr fun v hv => hnone v ?_
      exact (newest_eq_some_iff (hserves p hp)).mp hv
    rw [hall, List.length_nil] at hlength
    exact fuse_of_few (by omega)

/-- Four hosts that write `texts` for the time 5, the last one faulty. -/
def fourHosts (texts : ℕ → Str) : Replicas ℕ :=
  ⟨[0, 1, 2, 3], {3}, fun p => [.tryWrite 0 [107] 5 (texts p), .job]⟩

/-- The faulty server does not know the value of the others. -/
theorem read_eq_register_fourHosts :
    (fourHosts fun _ => [97]).read RankedRedis.inMemory Doubles.decimals false [1, 0, 2, 3]
        (fun _ => some [[98]]) [107] 2 [] 7
      = .ok (true, [97]) := by
  have hversions : ∀ p key, versions ((fourHosts fun _ => [97]).calls p) key
      = if [107] = key then [(5, [97])] else [] := by
    intro p key
    by_cases hkey : [107] = key <;> simp [fourHosts, versions, Call.version, hkey]
  have hserves : ∀ p ∈ (fourHosts fun _ => [97]).correct,
      Serves ((fourHosts fun _ => [97]).calls p) [107] 7 [(5, [97])] := by
    intro p _
    constructor
    case rising =>
      intro key
      rw [hversions]
      split <;> simp
    case few =>
      rw [hversions]
      decide +kernel
    case settled =>
      rw [hversions]
      decide +kernel
    case visible =>
      intro v
      rw [hversions, if_pos rfl, List.mem_singleton]
      refine ⟨?_, And.left⟩
      rintro rfl
      exact ⟨rfl, by decide +kernel⟩
  refine (read_eq_register (by decide) (by decide) (by decide) (by decide) hserves
    (fun _ _ _ => Option.some_ne_none _) (by decide)).1 [97] ?_
  exact ⟨5, List.mem_singleton_self _, by decide +kernel, by decide +kernel⟩

/-! ## Reading different versions -/

/-- A value that a majority read returns is the newest of a correct server, and if all correct servers have
one and there are four, of more than half of them. -/
theorem count_of_read (hsize : R.servers.length ≤ 4) (hfaulty : R.servers.length ≤ R.correct.length + 1)
    (hclients : allClients.Perm R.servers)
    (hread : R.read S F false allClients lies key noEarlierThan value now = .ok (true, v)) :
    let offered := R.correct.filterMap fun p => (run S true (R.calls p)).newest key noEarlierThan now
    0 < offered.count v ∧ (offered.length = R.correct.length → R.servers.length = 4 →
      R.correct.length < 2 * offered.count v) := by
  obtain ⟨others, hperm, hothers⟩ := candidates_perm (S := S) hclients lies key noEarlierThan now
  have hsmall := (List.length_filterMap_le (R.candidate S lies key noEarlierThan now) allClients).trans
    (hclients.length_eq.le.trans hsize)
  obtain ⟨htwo, hmajority⟩ := majority_of_fuse hsmall (fuse_of_read hclients hread).2
  have hlength := hperm.length_eq
  have hcount := (hperm.count_eq v).trans List.count_append
  have hone := List.count_le_length (a := v) (l := others)
  rw [List.length_append] at hlength
  constructor
  · omega
  · intro hall hfour
    omega

/-- **What a majority never returns.** Of at most four servers at most one is faulty. A value that a read
returns was written by the host of a correct server for a time in the window. If there are four servers and
all correct ones have a value, then two readers that both return a value return the same. -/
theorem read_majority_agree (hsize : R.servers.length ≤ 4)
    (hfaulty : R.servers.length ≤ R.correct.length + 1) (hclients : allClients.Perm R.servers)
    (hread : R.read S F false allClients lies key noEarlierThan value now = .ok (true, v)) :
    (∃ p ∈ R.correct, ∃ t, (t, v) ∈ versions (R.calls p) key ∧ score noEarlierThan ≤ score t
        ∧ score t ≤ score now)
      ∧ ∀ allClients' lies' value' v', R.servers.length = 4 → allClients'.Perm R.servers →
        (∀ p ∈ R.correct, ∃ w, (run S true (R.calls p)).newest key noEarlierThan now = some w) →
        R.read S F false allClients' lies' key noEarlierThan value' now = .ok (true, v') → v' = v := by
  obtain ⟨hpos, hmost⟩ := count_of_read hsize hfaulty hclients hread
  constructor
  · obtain ⟨p, hp, hnewest⟩ := List.mem_filterMap.mp (List.count_pos_iff.mp hpos)
    rw [newest_eq] at hnewest
    obtain ⟨u, hu, hfrom, hto, -⟩ := SortedSet.newest_eq_some.mp hnewest
    obtain ⟨⟨t, w⟩, hw, heq⟩ := exists_version_of_mem hu
    obtain ⟨rfl, rfl⟩ := Prod.mk.inj (toLex_inj.mp heq)
    exact ⟨p, hp, t, hw, hfrom, hto⟩
  · intro allClients' lies' value' v' hfour hclients' hoffer hread'
    have hall : (R.correct.filterMap fun p =>
        (run S true (R.calls p)).newest key noEarlierThan now).length = R.correct.length := by
      rw [List.length_filterMap_eq_countP, List.countP_eq_length]
      intro p hp
      obtain ⟨w, hw⟩ := hoffer p hp
      rw [hw]
      rfl
    have hmost' := (count_of_read hsize hfaulty hclients' hread').2 hall hfour
    -- two values cannot both have more than half
    have hgroup (w : Str) (l : List Str) : l.count w = Voting.groupSize id w l := by
      rw [List.count, Voting.groupSize]
      exact List.countP_congr fun u _ => by simp
    by_contra hne
    have hboth := Voting.groupSize_add_le id hne (R.correct.filterMap fun p =>
      (run S true (R.calls p)).newest key noEarlierThan now)
    rw [← hgroup, ← hgroup, hall] at hboth
    have hmost := hmost hall hfour
    omega

/-- Two correct servers outvote the third one at both readers, whatever the faulty one replies. -/
theorem read_majority_agree_fourHosts :
    (∃ p ∈ (fourHosts ([[97], [97], [98]].getD · [])).correct, ∃ t,
        (t, [97]) ∈ versions ((fourHosts ([[97], [97], [98]].getD · [])).calls p) [107]
          ∧ score 2 ≤ score t ∧ score t ≤ score 7)
      ∧ ∀ v, (fourHosts ([[97], [97], [98]].getD · [])).read RankedRedis.inMemory Doubles.decimals false
        [3, 2, 1, 0] (fun _ => some []) [107] 2 [] 7 = .ok (true, v) → v = [97] := by
  have hread : (fourHosts ([[97], [97], [98]].getD · [])).read RankedRedis.inMemory Doubles.decimals false
      [0, 1, 2, 3] (fun _ => some [[97]]) [107] 2 [] 7 = .ok (true, [97]) := by decide +kernel
  have hagree := read_majority_agree (by decide) (by decide) (by decide) hread
  have hoffer : ∀ p ∈ (fourHosts ([[97], [97], [98]].getD · [])).correct,
      ((run RankedRedis.inMemory true ((fourHosts ([[97], [97], [98]].getD · [])).calls p)).newest
        [107] 2 7).isSome = true := by
    decide +kernel
  exact ⟨hagree.1, fun v => hagree.2 [3, 2, 1, 0] (fun _ => some []) [] v rfl (by decide)
    fun p hp => Option.isSome_iff_exists.mp (hoffer p hp)⟩

/-! ## Medians -/

theorem mapM_stodOrThrow_ok {texts : List Str} {numbers : List F.Double}
    (h : texts.mapM F.stodOrThrow = .ok numbers) :
    numbers = texts.filterMap fun v => (F.stod v).toOption := by
  induction texts generalizing numbers with
  | nil => exact (Except.ok.inj h).symm
  | cons v texts ih =>
    rw [List.mapM_cons, Doubles.stodOrThrow] at h
    rw [List.filterMap_cons]
    cases hstod : F.stod v with
    | error e => rw [hstod] at h; cases h
    | ok x =>
      rw [hstod] at h
      cases hrest : texts.mapM F.stodOrThrow with
      | error e => rw [hrest] at h; cases h
      | ok rest =>
        rw [hrest] at h
        obtain rfl := Except.ok.inj h
        exact congrArg (x :: ·) (ih hrest)

theorem fuse_of_median {texts : List Str} {numbers : List F.Double} (hlong : ¬texts.length ≤ 2)
    (hok : texts.mapM F.stodOrThrow = .ok numbers) (hmedian : F.median numbers = some v) :
    (fuseRedundantValues F texts true value).mapError ReadError.fuse = .ok (true, v) := by
  rw [fuseRedundantValues, if_pos rfl, fuseMedian, if_neg hlong, hok]
  simp only [bind, Except.bind, pure, Except.pure, hmedian]
  rfl

variable {stod : Str → Except StodError ℚ} {toStr : ℚ → Str} {x : ι → ℚ} {a b c : ℚ} {r : Bool × Str}

/-- With the numbers `a`, `b` and `c` at the three correct servers, a median read returns a number between
the means of neighbouring ones. -/
theorem median_of_read (hsize : R.servers.length ≤ R.correct.length + 1)
    (hclients : allClients.Perm R.servers)
    (hoffer : ∀ p ∈ R.correct, ∃ text, (run S true (R.calls p)).newest key noEarlierThan now = some text
      ∧ stod text = .ok (x p))
    (hnumbers : (R.correct.map x).Perm [a, b, c]) (hab : a ≤ b) (hbc : b ≤ c) (hwindow : noEarlierThan ≤ now)
    (hread : R.read S (Doubles.exact stod toStr) true allClients lies key noEarlierThan value now = .ok r) :
    ∃ m, r = (true, toStr m) ∧ (a + b) / 2 ≤ m ∧ m ≤ (b + c) / 2 := by
  have hreply : ∀ p ∈ R.servers, p ∈ R.faulty → lies p ≠ none := by
    intro p hp hfaulty hnone
    rw [read_error hclients ⟨p, hp, hfaulty, hnone⟩ hwindow] at hread
    cases hread
  rw [read_eq hclients hreply hwindow] at hread
  obtain ⟨others, hperm, hothers⟩ := candidates_perm hclients lies key noEarlierThan now
  generalize allClients.filterMap (R.candidate S lies key noEarlierThan now) = texts at hread hperm
  -- the numbers of the correct servers
  have hcorrect : (R.correct.filterMap fun p =>
      (run S true (R.calls p)).newest key noEarlierThan now).filterMap (fun v => (stod v).toOption)
        = R.correct.map x := by
    rw [List.filterMap_filterMap, ← List.filterMap_eq_map]
    refine List.filterMap_congr fun p hp => ?_
    obtain ⟨text, htext, hx⟩ := hoffer p hp
    rw [htext, Option.bind_some, hx]
    rfl
  have hvalues := (hperm.filterMap fun v => (stod v).toOption).trans
    (List.filterMap_append ▸ (hcorrect ▸ hnumbers).append_left _)
  have hmany := hvalues.length_eq
  rw [List.length_append] at hmany
  have hlong : ¬texts.length ≤ 2 := by
    have hle := List.length_filterMap_le (fun v => (stod v).toOption) texts
    simp only [List.length_cons, List.length_nil] at hmany
    omega
  have hone : (others.filterMap fun v => (stod v).toOption).length ≤ 1 :=
    (List.length_filterMap_le _ _).trans (by omega)
  cases hok : texts.mapM (Doubles.exact stod toStr).stodOrThrow with
  | error e =>
    rw [fuseRedundantValues, if_pos rfl, fuseMedian, if_neg hlong, hok] at hread
    cases hread
  | ok values =>
    have heq := mapM_stodOrThrow_ok hok
    change values = texts.filterMap fun v => (stod v).toOption at heq
    rw [← heq] at hvalues hmany
    obtain ⟨y, z, hy, hz, hlo, hhi⟩ := OrderStatistics.middles_near
      (List.pairwise_insertionSort (· ≤ ·) values) hab hbc hone
      ((List.perm_insertionSort (· ≤ ·) values).trans hvalues)
    refine ⟨(y + z) / 2, ?_, hlo, hhi⟩
    have hmedian : (Doubles.exact stod toStr).median values = some (toStr ((y + z) / 2)) := by
      have hthree : ¬values.length < 3 := by
        simp only [List.length_cons, List.length_nil] at hmany
        omega
      rw [List.length_insertionSort] at hy hz
      obtain ⟨_, rfl⟩ := List.getElem?_eq_some_iff.mp hy
      obtain ⟨_, rfl⟩ := List.getElem?_eq_some_iff.mp hz
      rw [Doubles.median, dif_neg hthree]
      rfl
    exact Except.ok.inj (hread.symm.trans (fuse_of_median hlong hok hmedian))

/-- **The median keeps readers close.** Of at most four servers three are correct, with a number each. Reads
at two hosts, to whom a faulty server may reply differently, return the texts of numbers between those of the
correct servers and at most half as far apart as these. What the texts denote is less than two millionths
further apart. -/
theorem read_median_halves {E : Rounding} (hcorrect : R.correct.length = 3) (hsize : R.servers.length ≤ 4)
    (hoffer : ∀ p ∈ R.correct, ∃ text, (run S true (R.calls p)).newest key noEarlierThan now = some text
      ∧ stod text = .ok (x p)) {lo hi : ℚ} (hrange : ∀ p ∈ R.correct, x p ∈ Set.Icc lo hi)
    (hwindow : noEarlierThan ≤ now) (hclients : allClients.Perm R.servers)
    (hread : R.read S (Doubles.exact stod E.toStr) true allClients lies key noEarlierThan value now = .ok r)
    {allClients' : List ι} {lies' : ι → Option (List Str)} {value' : Str} {r' : Bool × Str}
    (hclients' : allClients'.Perm R.servers)
    (hread' : R.read S (Doubles.exact stod E.toStr) true allClients' lies' key noEarlierThan value' now
      = .ok r') :
    ∃ m m', r = (true, E.toStr m) ∧ r' = (true, E.toStr m') ∧ m ∈ Set.Icc lo hi ∧ m' ∈ Set.Icc lo hi
      ∧ |m - m'| ≤ (hi - lo) / 2
      ∧ ∃ y y', denoted r.2 = some y ∧ denoted r'.2 = some y' ∧ |y - y'| < (hi - lo) / 2 + 2 / 10 ^ 6 := by
  have hperm := List.perm_insertionSort (· ≤ ·) (R.correct.map x)
  have hsorted := List.pairwise_insertionSort (· ≤ ·) (R.correct.map x)
  have hlength := hperm.length_eq
  rw [List.length_map, hcorrect] at hlength
  obtain ⟨a, b, c, habc⟩ := List.length_eq_three.mp hlength
  rw [habc] at hperm hsorted
  have hbounds : ∀ y ∈ [a, b, c], lo ≤ y ∧ y ≤ hi := by
    intro y hy
    obtain ⟨p, hp, rfl⟩ := List.mem_map.mp (hperm.subset hy)
    exact hrange p hp
  simp only [List.pairwise_cons, List.mem_cons, List.not_mem_nil, or_false, forall_eq_or_imp, forall_eq]
    at hsorted hbounds
  obtain ⟨⟨hab, -⟩, hbc, -⟩ := hsorted
  obtain ⟨m, hr, hlo, hhi⟩ := median_of_read (by omega) hclients hoffer hperm.symm hab hbc hwindow hread
  obtain ⟨m', hr', hlo', hhi'⟩ :=
    median_of_read (by omega) hclients' hoffer hperm.symm hab hbc hwindow hread'
  obtain ⟨⟨hloa, -⟩, ⟨hlob, hbhi⟩, -, hchi⟩ := hbounds
  have hhalf : |m - m'| ≤ (hi - lo) / 2 := abs_le.mpr ⟨by linarith, by linarith⟩
  refine ⟨m, m', hr, hr', ⟨by linarith, by linarith⟩, ⟨by linarith, by linarith⟩, hhalf, ?_⟩
  obtain ⟨y, hy, hnear⟩ := exists_denoted_toStr E m
  obtain ⟨y', hy', hnear'⟩ := exists_denoted_toStr E m'
  refine ⟨y, y', by rw [hr, hy], by rw [hr', hy'], ?_⟩
  rw [abs_sub_comm] at hnear'
  calc |y - y'| ≤ |y - m| + |m - y'| := abs_sub_le _ _ _
    _ ≤ |y - m| + (|m - m'| + |m' - y'|) := by gcongr; exact abs_sub_le _ _ _
    _ < (hi - lo) / 2 + 2 / 10 ^ 6 := by linarith

/-- Between 1 and 4 the faulty server gets 3 returned at one host and 1.5 at another one. -/
theorem read_median_halves_fourHosts :
    ∃ m m' : ℚ, (true, Rounding.halfUp.toStr 3) = (true, Rounding.halfUp.toStr m)
      ∧ (true, Rounding.halfUp.toStr (3 / 2)) = (true, Rounding.halfUp.toStr m')
      ∧ m ∈ Set.Icc 1 4 ∧ m' ∈ Set.Icc 1 4 ∧ |m - m'| ≤ (4 - 1) / 2
      ∧ ∃ y y', denoted (Rounding.halfUp.toStr 3) = some y ∧ denoted (Rounding.halfUp.toStr (3 / 2)) = some y'
        ∧ |y - y'| < (4 - 1) / 2 + 2 / 10 ^ 6 := by
  have hread : (fourHosts ([[49], [50], [52]].getD · [])).read RankedRedis.inMemory
      (Doubles.exact decimal Rounding.halfUp.toStr) true [0, 1, 2, 3] (fun _ => some [[57]]) [107] 2 [] 7
        = .ok (true, Rounding.halfUp.toStr 3) := by decide +kernel
  have hread' : (fourHosts ([[49], [50], [52]].getD · [])).read RankedRedis.inMemory
      (Doubles.exact decimal Rounding.halfUp.toStr) true [1, 0, 2, 3] (fun _ => some [[48]]) [107] 2 [] 7
        = .ok (true, Rounding.halfUp.toStr (3 / 2)) := by decide +kernel
  exact read_median_halves (x := fun p => [1, 2, 4].getD p 0) (by decide) (by decide) (by decide +kernel)
    (by decide +kernel) (by decide) (by decide) hread (by decide) hread'

end Replicas

end Achal
