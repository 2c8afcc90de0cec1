import Inconcretes.BftKvs.Majority
import Inconcretes.BftKvs.Process
import Mathlib.Tactic.FinCases

/-!
# The replicated store

A cluster runs its jobs in lockstep: in every job each correct process runs `job()` on the frames that
`Lockstep` says it receives, and the roots of the lockstep are the buffers of the processes.
`rounds_eq_trees` is what joins the two: the tree that a process builds in its own rounds is the tree that
the protocol says it holds, so that what the protocol guarantees holds of every job.
-/

namespace Achal

variable {S : Shape} {P : Params}

/-- The rounds of one process, on the frames it receives in lockstep, build its tree of the protocol. -/
theorem rounds_eq_trees (R : Lockstep S (EigNode P)) (q : Fin S.degree) (m : ℕ) :
    BFTKVS.rounds q (fun l => R.received S.optimized l q) m ((Levels.clear _).set 0 0 (R.root q))
      = R.trees S.optimized m q := by
  induction m with
  | zero => rfl
  | succ m ih =>
    rw [BFTKVS.rounds, List.range_succ, List.foldl_append, ← BFTKVS.rounds, ih]
    rfl

/-- The state of all processes, each with the writes it accepted since its last job. What stands there for
a faulty process is of no use to anyone. -/
abbrev Cluster (S : Shape) (P : Params) := Fin S.degree → BFTKVS P × List Ktv

/-- Everything that a job of the cluster does not decide itself. -/
structure ClusterJob (S : Shape) (P : Params) where
  forged : ℕ → Fin S.degree → Fin S.degree → List (EigNode P)
  arrival : Arrival S
  order : Fin S.degree → ℕ → ℕ → IterOrder UInt32 ℕ
  fuseOrder : Fin S.degree → FuseOrder Str
  freqOrder : Fin S.degree → Str → Uint64 → IterOrder Str ℕ

/-- The commit paths that need no arithmetic on doubles. -/
inductive CommitPath
  | root
  | strong

/-- `update_fuse_function(strong_simple_majority_of_strings)`. -/
def strongFuse (o : FuseOrder Str) (freqOrder : Str → Uint64 → IterOrder Str ℕ) : FuseFunction P :=
  fun s nodes => .ok (strongSimpleMajorityOfStrings o freqOrder nodes s)

namespace CommitPath

/-- The fuse function of process `q`. -/
def fuse (j : ClusterJob S P) (q : Fin S.degree) : CommitPath → Option (FuseFunction P)
  | root => none
  | strong => some (strongFuse (j.fuseOrder q) (j.freqOrder q))

/-- What process `q` commits from a reduced tree. -/
def commit (j : ClusterJob S P) (q : Fin S.degree) (lv : Levels (EigNode P)) (s : Ledger) :
    CommitPath → Ledger
  | root => commitRoot lv.root s
  | strong =>
    strongSimpleMajorityOfStrings (j.fuseOrder q) (j.freqOrder q) (S.interactiveConsistencyVector lv) s

theorem fuseResult_eq (path : CommitPath) (j : ClusterJob S P) (q : Fin S.degree)
    (lv : Levels (EigNode P)) (s : Ledger) :
    BFTKVS.fuseResult S (path.fuse j q) lv s = .ok (path.commit j q lv s) := by
  cases path <;> rfl

/-- Equal stores stay equal when the vector and the root are equal. -/
theorem commit_store_congr (path : CommitPath) (j : ClusterJob S P) (p q : Fin S.degree)
    {lv lv' : Levels (EigNode P)} {s s' : Ledger} (hs : s.store = s'.store)
    (hvector : S.interactiveConsistencyVector lv = S.interactiveConsistencyVector lv')
    (hroot : lv.root = lv'.root) :
    (path.commit j p lv s).store = (path.commit j q lv' s').store := by
  cases path with
  | root =>
    rw [commit, commit, hroot]
    exact commitRoot_store_congr _ hs
  | strong =>
    rw [commit, commit, hvector]
    exact strong_store_congr _ hs

end CommitPath

namespace Cluster

variable (crc : List UInt8 → UInt32) (faulty : Finset (Fin S.degree)) (path : CommitPath)

/-- A new cluster. -/
def init : Cluster S P := fun _ => (BFTKVS.init, [])

/-- The protocol run of a job. -/
def lockstep (c : Cluster S P) (j : ClusterJob S P) : Lockstep S (EigNode P) where
  root q := (c q).1.unpublished
  faulty := faulty
  forged := j.forged
  arrival := j.arrival

/-- What the job of process `q` reads. -/
def jobInput (c : Cluster S P) (j : ClusterJob S P) (q : Fin S.degree) : JobInput S P where
  shouldDie := false
  frames l := (c.lockstep faulty j).received S.optimized l q
  order := j.order q
  fuse := path.fuse j q

/-- All processes run one job. -/
def job (c : Cluster S P) (j : ClusterJob S P) : Cluster S P :=
  fun q => (((c q).1.job crc q (c.jobInput faulty path j q)).1, [])

/-- The checksum tells the node values of the job apart. -/
def NoCollision (c : Cluster S P) (j : ClusterJob S P) : Prop :=
  (c.lockstep faulty j).NoCollision crc j.order

/-- The states of a cluster that accepts writes at any process and runs jobs in lockstep, in which the same
processes are faulty and no job has a collision. -/
inductive Reachable : Cluster S P → Prop
  | init : Reachable init
  | write {c : Cluster S P} (q : Fin S.degree) (now : Uint64) (w : Ktv) {r : BFTKVS P × List Ktv} :
    Reachable c → BFTKVS.call (S := S) crc q (c q) (.tryWrite now w) = some r →
    Reachable (Function.update c q r)
  | job {c : Cluster S P} (j : ClusterJob S P) :
    Reachable c → c.NoCollision crc faulty j → Reachable (c.job crc faulty path j)

variable {crc faulty path}

/-- A job on a clear tree commits what the protocol resolves, and leaves the tree clear. -/
theorem job_apply (c : Cluster S P) (j : ClusterJob S P) {q : Fin S.degree}
    (htree : (c q).1.tree = Levels.clear _) :
    (c.job crc faulty path j q).1.tree = Levels.clear _
      ∧ (c.job crc faulty path j q).1.ledger
        = path.commit j q ((c.lockstep faulty j).result crc j.order q) (c q).1.ledger := by
  have hrounds : BFTKVS.rounds q (c.jobInput faulty path j q).frames S.height (c q).1.snapshot.tree
      = (c.lockstep faulty j).trees S.optimized S.height q := by
    rw [← rounds_eq_trees, BFTKVS.snapshot, htree]
    rfl
  have hfuse : BFTKVS.fuseResult S (c.jobInput faulty path j q).fuse
        (S.reduce crc (c.jobInput faulty path j q).order
          (BFTKVS.rounds q (c.jobInput faulty path j q).frames S.height (c q).1.snapshot.tree))
        (c q).1.snapshot.ledger
      = .ok (path.commit j q ((c.lockstep faulty j).result crc j.order q) (c q).1.ledger) := by
    rw [hrounds]
    exact path.fuseResult_eq j q _ _
  unfold job BFTKVS.job
  rw [if_neg (by simp [jobInput])]
  dsimp only
  rw [hfuse]
  exact ⟨rfl, rfl⟩

/-- A write touches neither the tree nor the store. -/
theorem call_write {q : Fin S.degree} {now : Uint64} {w : Ktv} {r r' : BFTKVS P × List Ktv}
    (h : BFTKVS.call (S := S) crc q r (.tryWrite now w) = some r') :
    r'.1.tree = r.1.tree ∧ r'.1.ledger = r.1.ledger := by
  obtain ⟨⟨b, s'⟩, hwrite, rfl⟩ := Option.map_eq_some_iff.mp h
  rcases BFTKVS.tryWrite_cases hwrite with ⟨-, rfl⟩ | ⟨-, -, -, rfl⟩ <;> exact ⟨rfl, rfl⟩

/-- Between jobs all trees are clear, and the stores of the correct processes are equal. -/
structure Agreed (faulty : Finset (Fin S.degree)) (c : Cluster S P) : Prop where
  tree : ∀ q, (c q).1.tree = Levels.clear _
  store : ∀ p ∉ faulty, ∀ q ∉ faulty, (c p).1.ledger.store = (c q).1.ledger.store

theorem Agreed.job {c : Cluster S P} (h : Agreed faulty c) (hS : S.Tolerates)
    (hf : faulty.card ≤ S.height - 1) (j : ClusterJob S P) (hcrc : c.NoCollision crc faulty j) :
    Agreed faulty (c.job crc faulty path j) := by
  refine ⟨fun q => (c.job_apply j (h.tree q)).1, fun p hp q hq => ?_⟩
  rw [(c.job_apply j (h.tree p)).2, (c.job_apply j (h.tree q)).2]
  exact path.commit_store_congr j p q (h.store p hp q hq)
    ((c.lockstep faulty j).vector_agree hS hf hcrc hp hq)
    ((c.lockstep faulty j).result_agree hS hf hcrc hp hq List.nodup_nil (by simp))

theorem Agreed.write {c : Cluster S P} (h : Agreed faulty c) {q : Fin S.degree} {now : Uint64} {w : Ktv}
    {r : BFTKVS P × List Ktv}
    (hcall : BFTKVS.call (S := S) crc q (c q) (.tryWrite now w) = some r) :
    Agreed faulty (Function.update c q r) := by
  obtain ⟨htree, hledger⟩ := call_write hcall
  have hkeep : ∀ p, (Function.update c q r p).1.tree = (c p).1.tree
      ∧ (Function.update c q r p).1.ledger = (c p).1.ledger := by
    intro p
    by_cases hp : p = q
    · rw [hp, Function.update_self]
      exact ⟨htree, hledger⟩
    · rw [Function.update_of_ne hp]
      exact ⟨rfl, rfl⟩
  refine ⟨fun p => (hkeep p).1.trans (h.tree p), fun p hp p' hp' => ?_⟩
  rw [(hkeep p).2, (hkeep p').2]
  exact h.store p hp p' hp'

theorem agreed_of_reachable (hS : S.Tolerates) (hf : faulty.card ≤ S.height - 1) {c : Cluster S P}
    (hc : Reachable crc faulty path c) : Agreed faulty c := by
  induction hc with
  | init => exact ⟨fun _ => rfl, fun _ _ _ _ => rfl⟩
  | write q now w _ hcall ih => exact ih.write hcall
  | job j _ hcrc ih => exact ih.job hS hf j hcrc

/-- **Replicas agree.** In every state of every run, the correct processes have equal stores, and give
equal answers to `try_read`. -/
theorem stores_agree (S : Shape) (crc : List UInt8 → UInt32) (faulty : Finset (Fin S.degree))
    (path : CommitPath) (hS : S.Tolerates) (hf : faulty.card ≤ S.height - 1) {c : Cluster S P}
    (hc : Reachable crc faulty path c) {p q : Fin S.degree} (hp : p ∉ faulty) (hq : q ∉ faulty) :
    (c p).1.ledger.store = (c q).1.ledger.store
      ∧ ∀ key noEarlierThan now, (c p).1.ledger.store.tryRead key noEarlierThan now
        = (c q).1.ledger.store.tryRead key noEarlierThan now := by
  have hstore := (agreed_of_reachable hS hf hc).store p hp q hq
  exact ⟨hstore, fun key noEarlierThan now => by rw [hstore]⟩

/-- Nodes with room for one tuple, and one character in each field. -/
abbrev tiny : Params := oneTuple 1 1

/-- A write of `value` under the key `k`. -/
def oneWrite (value : UInt8) : Ktv := ⟨[0x6B], 5, [value]⟩

/-- Four processes that have accepted the same write. -/
def writtenCluster : Cluster Shape.four tiny :=
  fun _ => ({ BFTKVS.init with unpublished := (Pod.zero : EigNode tiny).push (oneWrite 0x76) },
    [oneWrite 0x76])

/-- A job in which process 3 claims another write towards process 0, none towards the others, and then
falls silent. -/
def forgingJob : ClusterJob Shape.four tiny where
  forged l _ q :=
    if l = 0 then [if q = 0 then (Pod.zero : EigNode tiny).push (oneWrite 0x77) else Pod.zero] else []
  arrival := Lockstep.equivocatingRun.arrival
  order _ _ _ := IterOrder.newestFirst _ _
  fuseOrder _ := ⟨IterOrder.newestFirst _ _, fun _ => IterOrder.newestFirst _ _,
    fun _ _ => IterOrder.newestFirst _ _⟩
  freqOrder _ _ _ := IterOrder.newestFirst _ _

theorem forgingJob_noCollision : writtenCluster.NoCollision crc32 {3} forgingJob := by
  refine Lockstep.noCollision_of_mem _ [Pod.zero, (Pod.zero : EigNode tiny).push (oneWrite 0x76),
    (Pod.zero : EigNode tiny).push (oneWrite 0x77)] ?_ ?_
  · decide +kernel
  · decide +kernel

theorem reachable_writtenCluster : Reachable crc32 {3} .strong writtenCluster := by
  have hwrite : ∀ {c : Cluster Shape.four tiny} (q : Fin 4), c q = (BFTKVS.init, []) →
      Reachable crc32 {3} .strong c → Reachable crc32 {3} .strong
        (Function.update c q (writtenCluster q)) := by
    intro c q hq hc
    refine hc.write q 4 (oneWrite 0x76) ?_
    rw [hq]
    rfl
  have hall := hwrite 3 rfl (hwrite 2 rfl (hwrite 1 rfl (hwrite 0 rfl Reachable.init)))
  convert hall using 1
  funext q
  fin_cases q <;> rfl

theorem stores_agree_forging :
    (writtenCluster.job crc32 {3} .strong forgingJob 0).1.ledger.store
        = (writtenCluster.job crc32 {3} .strong forgingJob 2).1.ledger.store
      ∧ ∀ key noEarlierThan now,
        (writtenCluster.job crc32 {3} .strong forgingJob 0).1.ledger.store.tryRead key noEarlierThan now
          = (writtenCluster.job crc32 {3} .strong forgingJob 2).1.ledger.store.tryRead key noEarlierThan
            now :=
  stores_agree Shape.four crc32 {3} .strong ⟨by decide, by decide⟩ (by decide)
    (reachable_writtenCluster.job forgingJob forgingJob_noCollision) (by decide) (by decide)

/-! ## Validity and integrity of commits -/

/-- The value of the last accepted write to a key and timestamp, as C strings keep them. -/
def lastWrite (accepted : List Ktv) (key : Str) (time : Uint64) : Option Str :=
  ((accepted.filter fun w => cStr w.key = key ∧ w.time = time).getLast?).map fun w => cStr w.value

/-- A node that holds the accepted writes votes for the last of them. -/
theorem vote_eq_lastWrite {s : BFTKVS P} {accepted : List Ktv} (h : s.Buffered accepted) (key : Str)
    (time : Uint64) : s.unpublished.vote key time = lastWrite accepted key time := by
  have hlen : ¬s.unpublished.length.val > P.NT := by
    rw [h.holds.1]
    exact not_lt.mpr h.length_le
  rw [EigNode.vote, EigNode.proposals, if_neg hlen, h.holds.decode_eq, List.filter_map,
    List.getLast?_map, Option.map_map]
  rfl

/-- The job uses `strong_simple_majority_of_strings`. -/
def UsesStrong (i : JobInput S P) : Prop := ∃ o freqOrder, i.fuse = some (strongFuse o freqOrder)

/-- With this fuse function every job ends with a clear tree. -/
theorem tree_clear_of_run {q : Fin S.degree} {calls : List (BFTKVS.Call S P)}
    (hstrong : ∀ i, BFTKVS.Call.job i ∈ calls → UsesStrong i) {r : BFTKVS P × List Ktv}
    (hrun : BFTKVS.run crc q calls = some r) : r.1.tree = Levels.clear _ := by
  refine BFTKVS.run_induction (fun r => r.1.tree = Levels.clear _) rfl ?_ hrun
  intro call hmem r r' htree hcall
  cases call with
  | tryWrite now w => exact (call_write hcall).1.trans htree
  | job i =>
    obtain ⟨o, freqOrder, hfuse⟩ := hstrong i hmem
    cases hcall
    unfold BFTKVS.job
    split
    · exact htree
    · dsimp only
      rw [hfuse]
      rfl

/-- In the vector of a correct process, a correct process votes for its last accepted write. -/
theorem supporters_eq (hS : S.Tolerates) (hf : faulty.card ≤ S.height - 1) {c : Cluster S P}
    (hbuffered : ∀ p ∉ faulty, (c p).1.Buffered (c p).2) (j : ClusterJob S P)
    (hcrc : c.NoCollision crc faulty j) {q : Fin S.degree} (hq : q ∉ faulty) (w : Ktv) :
    ∃ vote : Fin S.degree → Option Str,
      (∀ p ∉ faulty, vote p = lastWrite (c p).2 w.key w.time) ∧
      supporters (S.interactiveConsistencyVector ((c.lockstep faulty j).result crc j.order q)) w
        = (Finset.univ.filter fun p => vote p = some w.value).card := by
  refine ⟨fun p => ((c.lockstep faulty j).result crc j.order q 1 (S.node [p])).vote w.key w.time,
    fun p hp => ?_, ?_⟩
  · have hroot : (c.lockstep faulty j).result crc j.order q 1 (S.node [p]) = (c p).1.unpublished :=
      (c.lockstep faulty j).result_of_correct hS hf hcrc hp hq
    rw [← vote_eq_lastWrite (hbuffered p hp), ← hroot]
  · rw [supporters, S.interactiveConsistencyVector_eq, List.countP_map, List.countP_eq_length_filter,
      ← List.toFinset_card_of_nodup ((List.nodup_finRange _).filter _)]
    congr 1
    ext p
    simp

/-- What all correct processes vote for has their support. -/
theorem card_support_of_correct {vote : Fin S.degree → Option Str} {v : Str}
    (h : ∀ p ∉ faulty, vote p = some v) :
    S.degree - faulty.card ≤ (Finset.univ.filter fun p => vote p = some v).card := by
  have hsub : Finset.univ \ faulty ⊆ Finset.univ.filter fun p => vote p = some v := by
    intro p hp
    exact Finset.mem_filter.mpr ⟨Finset.mem_univ p, h p (Finset.mem_sdiff.mp hp).2⟩
  have hcard := Finset.card_le_card hsub
  rwa [Finset.card_sdiff_of_subset (Finset.subset_univ _), Finset.card_univ, Fintype.card_fin] at hcard

/-- What no correct process votes for has the support of faulty ones only. -/
theorem card_support_le_faulty {vote : Fin S.degree → Option Str} {v : Str}
    (h : ∀ p ∉ faulty, vote p ≠ some v) :
    (Finset.univ.filter fun p => vote p = some v).card ≤ faulty.card := by
  apply Finset.card_le_card
  intro p hp
  by_contra hp'
  exact h p hp' (Finset.mem_filter.mp hp).2

/-- **Validity and integrity.** `d ≥ 3f + 1` processes, at most `f` of them faulty, after any sequences of
calls, run a job with `h = f + 1` rounds. If the last write to a key and timestamp that every correct process
accepted since its last job has the same value, then every correct store has this value afterwards, unless
its bucket has `KVS_GB_KEEP_N_VALUES` greater timestamps. If no correct process has this last write, the
job commits it nowhere. -/
theorem commit_valid_integral (S : Shape) (f : ℕ) (hd : 3 * f + 1 ≤ S.degree) (hh : S.height = f + 1)
    (crc : List UInt8 → UInt32) (faulty : Finset (Fin S.degree)) (hf : faulty.card ≤ f)
    (calls : Fin S.degree → List (BFTKVS.Call S P)) (c : Cluster S P)
    (hrun : ∀ q ∉ faulty, BFTKVS.run crc q (calls q) = some (c q))
    (hstrong : ∀ q ∉ faulty, ∀ i, BFTKVS.Call.job i ∈ calls q → UsesStrong i) (j : ClusterJob S P)
    (hcrc : c.NoCollision crc faulty j) (w : Ktv) :
    let c' := c.job crc faulty .strong j
    ((∀ p ∉ faulty, lastWrite (c p).2 w.key w.time = some w.value) →
        ∀ q ∉ faulty, ((c' q).1.ledger.store.bucket w.key).get? w.time = some w.value
          ∨ keepNValues ≤ ((c' q).1.ledger.store.bucket w.key).entries.countP (w.time < ·.1))
      ∧ ((∀ p ∉ faulty, lastWrite (c p).2 w.key w.time ≠ some w.value) →
        ∀ q ∉ faulty, ∃ cs, (c' q).1.ledger.commits = (c q).1.ledger.commits ++ cs ∧ w ∉ cs) := by
  intro c'
  have hS : S.Tolerates := ⟨by omega, by omega⟩
  have hf' : faulty.card ≤ S.height - 1 := by omega
  have hbuffered : ∀ p ∉ faulty, (c p).1.Buffered (c p).2 := fun p hp =>
    BFTKVS.run_buffered (hrun p hp)
  have hledger : ∀ q ∉ faulty, ∃ ks cs, (c q).1.ledger.Extends (c' q).1.ledger ks cs
      ∧ ((cs.map fun w => (w.key, w.time)).Nodup)
      ∧ (w ∈ cs ↔ S.degree < 2 * supporters
          (S.interactiveConsistencyVector ((c.lockstep faulty j).result crc j.order q)) w) := by
    intro q hq
    rw [(c.job_apply j (tree_clear_of_run (hstrong q hq) (hrun q hq))).2]
    refine ⟨_, _, extends_strong _ _ _ _, Ledger.loopCommits_nodup _ _ _, ?_⟩
    rw [mem_strongCommits]
    simp [Shape.interactiveConsistencyVector]
  constructor
  · intro hall q hq
    obtain ⟨ks, cs, hext, hnodup, hmem⟩ := hledger q hq
    obtain ⟨vote, hvote, hsupp⟩ := supporters_eq hS hf' hbuffered j hcrc hq w
    -- the correct processes are more than half
    have hcorrect := card_support_of_correct fun p hp => (hvote p hp).trans (hall p hp)
    have hw : w ∈ cs := hmem.mpr (by omega)
    rw [hext.bucket]
    refine TopMap.get?_putAll_of_mem _ (Ledger.commitsOf_nodup hnodup _) ?_
    exact List.mem_map.mpr ⟨w, List.mem_filter.mpr ⟨hw, by simp⟩, rfl⟩
  · intro hnone q hq
    obtain ⟨ks, cs, hext, -, hmem⟩ := hledger q hq
    refine ⟨cs, hext.commits, fun hw => ?_⟩
    obtain ⟨vote, hvote, hsupp⟩ := supporters_eq hS hf' hbuffered j hcrc hq w
    -- the faulty processes are no majority
    have hfaulty := card_support_le_faulty fun p hp heq => hnone p hp ((hvote p hp).symm.trans heq)
    have := hmem.mp hw
    omega

theorem commit_valid_integral_forging :
    ((∀ p ∉ ({3} : Finset (Fin 4)), lastWrite (writtenCluster p).2 [0x6B] 5 = some [0x76]) →
        ∀ q ∉ ({3} : Finset (Fin 4)),
          ((writtenCluster.job crc32 {3} .strong forgingJob q).1.ledger.store.bucket [0x6B]).get? 5
              = some [0x76]
            ∨ keepNValues ≤ ((writtenCluster.job crc32 {3} .strong forgingJob q).1.ledger.store.bucket
              [0x6B]).entries.countP (5 < ·.1))
      ∧ ((∀ p ∉ ({3} : Finset (Fin 4)), lastWrite (writtenCluster p).2 [0x6B] 5 ≠ some [0x76]) →
        ∀ q ∉ ({3} : Finset (Fin 4)), ∃ cs,
          (writtenCluster.job crc32 {3} .strong forgingJob q).1.ledger.commits
            = (writtenCluster q).1.ledger.commits ++ cs ∧ oneWrite 0x76 ∉ cs) :=
  commit_valid_integral Shape.four 1 (by decide) rfl crc32 {3} (by decide)
    (fun _ => [.tryWrite 4 (oneWrite 0x76)]) writtenCluster (fun _ _ => rfl) (by simp) forgingJob
    forgingJob_noCollision (oneWrite 0x76)

end Cluster

end Achal
