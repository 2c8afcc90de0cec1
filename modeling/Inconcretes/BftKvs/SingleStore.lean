import Inconcretes.BftKvs.Fusing
import Inconcretes.BftKvs.Printed

/-!
# The cluster as a single store

The correct processes of a cluster run replicas of the same tasks. As long as they accept the same writes
between two jobs, the cluster behaves like one store that commits these writes itself: the faulty processes
can neither hold back a write nor bring in one of their own. `Mirrors` runs the single store beside the
cluster, and `Mirrors.bucket_eq` is the simulation, for all three ways in which a job commits.
-/

namespace Achal

variable {S : Shape} {P : Params}

/-! ## The single store -/

namespace Ledger

/-- The accepted writes are committed one after the other, as C strings keep them. -/
def commitAll (s : Ledger) (accepted : List Ktv) : Ledger := accepted.foldl (fun s w => s.commit w.encoded) s

theorem extends_commitAll (s : Ledger) (accepted : List Ktv) :
    s.Extends (s.commitAll accepted) (accepted.map fun w => w.encoded.key) (accepted.map Ktv.encoded) := by
  have hloop := Extends.foldl (fun s w => s.extends_commit w.encoded) accepted s
  rwa [← List.map_eq_flatMap, ← List.map_eq_flatMap] at hloop

theorem mem_commitsOf {cs : List Ktv} {key : Str} {time : Uint64} {value : Str} :
    (time, value) ∈ commitsOf cs key ↔ ⟨key, time, value⟩ ∈ cs := by
  simp only [commitsOf, List.mem_map, List.mem_filter, decide_eq_true_eq, Prod.mk.injEq]
  constructor
  · rintro ⟨w, ⟨hw, rfl⟩, rfl, rfl⟩
    exact hw
  · exact fun hw => ⟨_, ⟨hw, rfl⟩, rfl, rfl⟩

theorem getLast?_commitsOf (cs : List Ktv) (key : Str) (time : Uint64) :
    (((commitsOf cs key).filter (·.1 = time)).getLast?).map Prod.snd
      = ((cs.filter fun w => w.key = key ∧ w.time = time).getLast?).map Ktv.value := by
  have hfilter : (cs.filter (·.key = key)).filter
        ((fun c : Uint64 × Str => decide (c.1 = time)) ∘ fun w => (w.time, w.value))
      = cs.filter fun w => w.key = key ∧ w.time = time := by
    rw [List.filter_filter]
    exact List.filter_congr fun w _ => by simp [Bool.and_comm]
  rw [commitsOf, List.filter_map, List.getLast?_map, Option.map_map, hfilter]
  rfl

/-- What a single store has committed last is the last accepted write. -/
theorem getLast?_commitsOf_encoded (accepted : List Ktv) (key : Str) (time : Uint64) :
    (((commitsOf (accepted.map Ktv.encoded) key).filter (·.1 = time)).getLast?).map Prod.snd
      = Cluster.lastWrite accepted key time := by
  rw [getLast?_commitsOf, List.filter_map, List.getLast?_map, Option.map_map]
  rfl

/-- Committing the last accepted writes, each once and in any order, leaves the same buckets. -/
theorem putAll_lastWrites {cs accepted : List Ktv} (hnodup : (cs.map fun w => (w.key, w.time)).Nodup)
    (hcs : ∀ w, w ∈ cs ↔ Cluster.lastWrite accepted w.key w.time = some w.value) (b : Bucket) (key : Str) :
    b.putAll (commitsOf cs key) = b.putAll (commitsOf (accepted.map Ktv.encoded) key) := by
  refine TopMap.putAll_congr b fun time => ?_
  rw [getLast?_commitsOf_encoded]
  refine Option.ext fun value => ?_
  rw [TopMap.getLast?_filter_eq_some (commitsOf_nodup hnodup key), mem_commitsOf]
  exact hcs ⟨key, time, value⟩

end Ledger

/-- `try_read` sees nothing of a store but its buckets. -/
theorem Store.tryRead_congr {s s' : Store} (h : ∀ key, s.bucket key = s'.bucket key) (key : Str)
    (noEarlierThan now : Uint64) : s.tryRead key noEarlierThan now = s'.tryRead key noEarlierThan now := by
  refine Option.ext fun value => ?_
  rw [tryRead_eq_some, tryRead_eq_some, h]

/-! ## Votes of correct processes -/

section Votes

variable {n : ℕ} {V : Type*} {faulty : Finset (Fin n)} {vote : Fin n → Option V}

theorem countP_mem_finRange (s : Finset (Fin n)) : (List.finRange n).countP (· ∈ s) = s.card := by
  rw [List.countP_eq_length_filter, ← List.toFinset_card_of_nodup ((List.nodup_finRange n).filter _)]
  congr 1
  ext p
  simp

/-- Votes that only faulty processes cast are few. -/
theorem countP_votes_le {p : V → Bool} (h : ∀ i ∉ faulty, ∀ v, vote i = some v → p v = false) :
    ((List.finRange n).filterMap vote).countP p ≤ faulty.card := by
  rw [List.countP_filterMap, ← countP_mem_finRange faulty]
  refine List.countP_mono_left fun i _ hi => ?_
  by_contra hcorrect
  cases hvote : vote i with
  | none =>
    rw [hvote] at hi
    exact absurd hi (by simp)
  | some v =>
    rw [hvote] at hi
    have hfalse := h i (by simpa using hcorrect) v hvote
    rw [Option.map_some, Option.getD_some, hfalse] at hi
    exact absurd hi Bool.false_ne_true

/-- The correct processes cast a vote each. -/
theorem length_votes_ge (h : ∀ i ∉ faulty, (vote i).isSome) :
    n - faulty.card ≤ ((List.finRange n).filterMap vote).length := by
  have hsplit := List.length_eq_countP_add_countP (fun i => decide (i ∈ faulty)) (l := List.finRange n)
  rw [List.length_finRange, countP_mem_finRange] at hsplit
  rw [List.length_filterMap_eq_countP]
  have hcorrect : (List.finRange n).countP (fun i => ¬decide (i ∈ faulty) = true)
      ≤ (List.finRange n).countP fun i => (vote i).isSome :=
    List.countP_mono_left fun i _ hi => h i (by simpa using hi)
  omega

end Votes

/-- A node without a tuple for a key and timestamp has no number for them. -/
theorem Doubles.vote_of_vote_none {F : Doubles} {n : EigNode P} {key : Str} {time : Uint64}
    (h : n.vote key time = none) : F.vote n key time = none := by
  rw [EigNode.vote, Option.map_eq_none_iff, List.getLast?_eq_none_iff, List.filter_eq_nil_iff] at h
  rw [Doubles.vote, List.getLast?_eq_none_iff, List.filterMap_eq_nil_iff]
  exact fun w hw => if_neg (by simpa using h w hw)

namespace Cluster

variable {parse : Str → Except StodError ℚ} {print : ℚ → Str} {crc : List UInt8 → UInt32}
  {faulty : Finset (Fin S.degree)} {c : Cluster S P} {j : ClusterJob S P} {accepted : List Ktv}

/-! ## Unanimous jobs -/

/-- A text that `std::to_string` has made of a number. -/
def Printed (parse : Str → Except StodError ℚ) (print : ℚ → Str) (v : Str) : Prop :=
  ∃ x, parse v = .ok x ∧ print x = v

/-- The correct processes have accepted the same writes, as far as the fuse function can tell. Medians need
numbers, and no more than two faulty processes. -/
def Unanimous (faulty : Finset (Fin S.degree)) (c : Cluster S P) (accepted : List Ktv) :
    Fusing S (Doubles.exact parse print) → Prop
  | .root => ∀ q ∉ faulty, (c q).2 = accepted
  | .strong => ∀ q ∉ faulty, ∀ key time, lastWrite (c q).2 key time = lastWrite accepted key time
  | .median _ => faulty.card ≤ 2 ∧ 3 ≤ S.degree
    ∧ (∀ q ∉ faulty, ∀ key time, lastWrite (c q).2 key time = lastWrite accepted key time)
    ∧ ∀ q ∉ faulty, ∀ w ∈ (c q).2, Printed parse print (cStr w.value)

/-- The reduced root is the node that all correct processes started with. -/
theorem root_of_unanimous (hS : S.Tolerates) (hf : faulty.card ≤ S.height - 1)
    (hcrc : c.NoCollision crc faulty j) {q : Fin S.degree} (hq : q ∉ faulty) {v : EigNode P}
    (h : ∀ p ∉ faulty, (c p).1.unpublished = v) : ((c.lockstep faulty j).result crc j.order q).root = v := by
  obtain ⟨hh, hd⟩ := id hS
  refine ((c.lockstep faulty j).resolution hS hcrc).counted (σ := []) (Finset.univ \ faulty) hq List.nodup_nil
    (show 0 < S.height by omega) (fun p hp => ⟨List.not_mem_nil, ?_⟩) ?_
  · have hp' : p ∉ faulty := (Finset.mem_sdiff.mp hp).2
    exact ((c.lockstep faulty j).result_of_correct hS hf hcrc hp' hq).trans (h p hp')
  · rw [Finset.card_sdiff_of_subset (Finset.subset_univ _), Finset.card_univ, Fintype.card_fin,
      List.length_nil]
    omega

/-- With at most two faulty processes, what no correct process has a number for has no median. -/
theorem median_eq_none (hS : S.Tolerates) (hf : faulty.card ≤ S.height - 1)
    (hcrc : c.NoCollision crc faulty j) {q : Fin S.degree} (hq : q ∉ faulty) (htwo : faulty.card ≤ 2)
    {key : Str} {time : Uint64}
    (hvote : ∀ p ∉ faulty, (Doubles.exact parse print).vote (c p).1.unpublished key time = none) :
    (Doubles.exact parse print).median ((Doubles.exact parse print).votes
        (S.interactiveConsistencyVector ((c.lockstep faulty j).result crc j.order q)) key time) = none := by
  rw [Doubles.votes, S.interactiveConsistencyVector_eq, List.filterMap_map]
  refine dif_pos (lt_of_le_of_lt ?_ (show faulty.card < 3 by omega))
  rw [← List.countP_true]
  refine countP_votes_le fun p hp v hv => ?_
  have hroot : (c.lockstep faulty j).result crc j.order q 1 (S.node [p]) = (c p).1.unpublished :=
    (c.lockstep faulty j).result_of_correct hS hf hcrc hp hq
  rw [Function.comp_apply, hroot, hvote p hp] at hv
  cases hv

/-- What all correct processes have a number for has a median, between these numbers. -/
theorem median_between (hS : S.Tolerates) (hf : faulty.card ≤ S.height - 1)
    (hcrc : c.NoCollision crc faulty j) {q : Fin S.degree} (hq : q ∉ faulty)
    (hthree : 3 ≤ S.degree - faulty.card) {key : Str} {time : Uint64} {x : Fin S.degree → ℚ}
    (hvote : ∀ p ∉ faulty, (Doubles.exact parse print).vote (c p).1.unpublished key time = some (x p)) :
    ∃ y, (Doubles.exact parse print).median ((Doubles.exact parse print).votes
        (S.interactiveConsistencyVector ((c.lockstep faulty j).result crc j.order q)) key time) = some (print y)
      ∧ (∃ p ∉ faulty, x p ≤ y) ∧ ∃ p ∉ faulty, y ≤ x p := by
  obtain ⟨hh, hd⟩ := id hS
  have hnumber : ∀ p ∉ faulty, (Doubles.exact parse print).vote
      ((c.lockstep faulty j).result crc j.order q 1 (S.node [p])) key time = some (x p) := by
    intro p hp
    have hroot : (c.lockstep faulty j).result crc j.order q 1 (S.node [p]) = (c p).1.unpublished :=
      (c.lockstep faulty j).result_of_correct hS hf hcrc hp hq
    rw [hroot, hvote p hp]
  have hne : (Finset.univ \ faulty).Nonempty := by
    rw [← Finset.card_pos, Finset.card_sdiff_of_subset (Finset.subset_univ _), Finset.card_univ,
      Fintype.card_fin]
    omega
  obtain ⟨lo, hlo, hmin⟩ := Finset.exists_min_image _ x hne
  obtain ⟨hi, hhi, hmax⟩ := Finset.exists_max_image _ x hne
  have hmem : ∀ p ∉ faulty, p ∈ Finset.univ \ faulty := fun p hp =>
    Finset.mem_sdiff.mpr ⟨Finset.mem_univ p, hp⟩
  rw [Doubles.votes, S.interactiveConsistencyVector_eq, List.filterMap_map]
  generalize hvotes : (List.finRange S.degree).filterMap _ = votes
  have hmany : S.degree - faulty.card ≤ votes.length := by
    rw [← hvotes]
    exact length_votes_ge fun p hp => by rw [Function.comp_apply, hnumber p hp]; rfl
  have hother : ∀ r : ℚ → Bool, (∀ p ∉ faulty, r (x p) = false) → votes.countP r ≤ faulty.card := by
    intro r hr
    rw [← hvotes]
    refine countP_votes_le fun p hp v hv => ?_
    obtain rfl := Option.some.inj ((hnumber p hp).symm.trans hv)
    exact hr p hp
  have hbelow := hother (· < x lo) fun p hp => by simpa using hmin p (hmem p hp)
  have habove := hother (x hi < ·) fun p hp => by simpa using hmax p (hmem p hp)
  obtain ⟨v, hv⟩ : ∃ v, (Doubles.exact parse print).median votes = some v := ⟨_, dif_neg (by omega)⟩
  obtain ⟨y, ⟨hloy, hyhi⟩, rfl⟩ := median_exact_mem_Icc hv (x lo) (x hi) (by omega) (by omega)
  exact ⟨y, hv, ⟨lo, (Finset.mem_sdiff.mp hlo).2, hloy⟩, ⟨hi, (Finset.mem_sdiff.mp hhi).2, hyhi⟩⟩

/-- The median of a key and timestamp is what the correct processes wrote last, if they did. -/
theorem median_of_unanimous (hS : S.Tolerates) (hf : faulty.card ≤ S.height - 1)
    (hcrc : c.NoCollision crc faulty j) {q : Fin S.degree} (hq : q ∉ faulty)
    (hbuffered : ∀ p ∉ faulty, (c p).1.Buffered (c p).2) (htwo : faulty.card ≤ 2) (hthree : 3 ≤ S.degree)
    (hsame : ∀ p ∉ faulty, ∀ key time, lastWrite (c p).2 key time = lastWrite accepted key time)
    (hprinted : ∀ p ∉ faulty, ∀ w ∈ (c p).2, Printed parse print (cStr w.value)) (key : Str) (time : Uint64) :
    (Doubles.exact parse print).median ((Doubles.exact parse print).votes
        (S.interactiveConsistencyVector ((c.lockstep faulty j).result crc j.order q)) key time)
      = lastWrite accepted key time := by
  obtain ⟨hh, hd⟩ := id hS
  have hvote : ∀ p ∉ faulty, (c p).1.unpublished.vote key time = lastWrite accepted key time :=
    fun p hp => by rw [vote_eq_lastWrite (hbuffered p hp), hsame p hp]
  cases hlast : lastWrite accepted key time with
  | none =>
    rw [hlast] at hvote
    exact median_eq_none hS hf hcrc hq htwo fun p hp => Doubles.vote_of_vote_none (hvote p hp)
  | some value =>
    rw [hlast] at hvote
    obtain ⟨x, hparse, hprint⟩ : Printed parse print value := by
      obtain ⟨w, hw, rfl⟩ := Option.map_eq_some_iff.mp ((hsame q hq key time).trans hlast)
      exact hprinted q hq w (List.mem_filter.mp (List.mem_of_getLast? hw)).1
    obtain ⟨y, hy, ⟨-, -, hlo⟩, -, -, hhi⟩ := median_between hS hf hcrc hq (by omega)
      fun p hp => Doubles.vote_of_vote (hvote p hp) hparse
    rw [hy, le_antisymm hhi hlo, hprint]

/-- More than half of the nodes vote for a value exactly when the correct processes wrote it last. -/
theorem supporters_iff_of_unanimous (hS : S.Tolerates) (hf : faulty.card ≤ S.height - 1)
    (hcrc : c.NoCollision crc faulty j) {q : Fin S.degree} (hq : q ∉ faulty)
    (hbuffered : ∀ p ∉ faulty, (c p).1.Buffered (c p).2)
    (hsame : ∀ p ∉ faulty, ∀ key time, lastWrite (c p).2 key time = lastWrite accepted key time) (w : Ktv) :
    S.degree < 2 * supporters (S.interactiveConsistencyVector ((c.lockstep faulty j).result crc j.order q)) w
      ↔ lastWrite accepted w.key w.time = some w.value := by
  obtain ⟨hh, hd⟩ := id hS
  obtain ⟨vote, hvote, hsupp⟩ := supporters_eq hS hf hbuffered j hcrc hq w
  rw [hsupp]
  constructor
  · intro hmost
    by_contra hne
    have hnone : ∀ p ∉ faulty, vote p ≠ some w.value := fun p hp heq =>
      hne (by rw [← hsame p hp, ← hvote p hp, heq])
    have hfaulty := card_support_le_faulty hnone
    omega
  · intro hlast
    have hall : ∀ p ∉ faulty, vote p = some w.value := fun p hp =>
      (hvote p hp).trans ((hsame p hp _ _).trans hlast)
    have hcorrect := card_support_of_correct hall
    omega

/-- A unanimous job leaves in every correct bucket what the single store leaves in it. -/
theorem bucket_of_unanimous (hS : S.Tolerates) (hf : faulty.card ≤ S.height - 1)
    (hcrc : c.NoCollision crc faulty j) {q : Fin S.degree} (hq : q ∉ faulty)
    (hbuffered : ∀ p ∉ faulty, (c p).1.Buffered (c p).2) {f : Fusing S (Doubles.exact parse print)}
    (h : Unanimous faulty c accepted f) {s ledger : Ledger}
    (hledger : BFTKVS.fuseResult S (f.fuse j q) ((c.lockstep faulty j).result crc j.order q) s = .ok ledger)
    (key : Str) :
    ledger.store.bucket key
      = (s.store.bucket key).putAll (Ledger.commitsOf (accepted.map Ktv.encoded) key) := by
  cases f with
  | root =>
    have hunpublished : ∀ p ∉ faulty, (c p).1.unpublished = (c q).1.unpublished := fun p hp => by
      rw [(hbuffered p hp).unpublished, (hbuffered q hq).unpublished, h p hp, h q hq]
    have hproposals : (c q).1.unpublished.proposals = accepted.map Ktv.encoded := by
      rw [EigNode.proposals, if_neg, (hbuffered q hq).holds.decode_eq, h q hq]
      rw [(hbuffered q hq).holds.1]
      exact not_lt.mpr (hbuffered q hq).length_le
    obtain rfl := Except.ok.inj hledger
    rw [root_of_unanimous hS hf hcrc hq hunpublished, ← hproposals]
    exact (s.extends_commitRoot _).bucket key
  | strong =>
    obtain rfl := Except.ok.inj hledger
    refine ((extends_strong _ _ _ _).bucket key).trans
      (Ledger.putAll_lastWrites (Ledger.loopCommits_nodup _ _ _) (fun w => ?_) _ key)
    refine mem_strongCommits.trans ?_
    rw [← supporters_iff_of_unanimous hS hf hcrc hq hbuffered h]
    simp [Shape.interactiveConsistencyVector]
  | median order =>
    obtain ⟨htwo, hthree, hsame, hprinted⟩ := h
    refine ((extends_medianOfDoubles hledger).bucket key).trans
      (Ledger.putAll_lastWrites (Ledger.loopCommits_nodup _ _ _) (fun w => ?_) _ key)
    refine mem_medianCommits.trans ?_
    rw [(Doubles.sortsAlike_exact parse print _).median_perm (Doubles.visit_numbersOf_perm _ _ _ _),
      median_of_unanimous hS hf hcrc hq hbuffered htwo hthree hsame hprinted]

/-- When writes to a key and timestamp have one value, the last of them is any of them. -/
theorem lastWrite_eq_some_iff {accepted : List Ktv} (h : ∀ w ∈ accepted, ∀ w' ∈ accepted,
      cStr w.key = cStr w'.key → w.time = w'.time → cStr w.value = cStr w'.value) {key value : Str}
    {time : Uint64} : lastWrite accepted key time = some value
      ↔ ∃ w ∈ accepted, cStr w.key = key ∧ w.time = time ∧ cStr w.value = value := by
  have hmatch : ∀ {w}, w ∈ accepted.filter (fun w => cStr w.key = key ∧ w.time = time)
      ↔ w ∈ accepted ∧ cStr w.key = key ∧ w.time = time := by
    intro w
    rw [List.mem_filter, decide_eq_true_iff]
  rw [lastWrite, Option.map_eq_some_iff]
  constructor
  · rintro ⟨w, hlast, hvalue⟩
    obtain ⟨hw, hkey, htime⟩ := hmatch.mp (List.mem_of_getLast? hlast)
    exact ⟨w, hw, hkey, htime, hvalue⟩
  · rintro ⟨w, hw, hkey, htime, hvalue⟩
    obtain ⟨last, hlast⟩ := Option.isSome_iff_exists.mp
      (List.getLast?_isSome.mpr (List.ne_nil_of_mem (hmatch.mpr ⟨hw, hkey, htime⟩)))
    obtain ⟨hmem, hkey', htime'⟩ := hmatch.mp (List.mem_of_getLast? hlast)
    exact ⟨last, hlast, (h last hmem w hw (hkey'.trans hkey.symm) (htime'.trans htime.symm)).trans hvalue⟩

/-- Then it depends on the set of writes only. -/
theorem lastWrite_congr {accepted accepted' : List Ktv} (hmem : ∀ w, w ∈ accepted ↔ w ∈ accepted')
    (h : ∀ w ∈ accepted', ∀ w' ∈ accepted',
      cStr w.key = cStr w'.key → w.time = w'.time → cStr w.value = cStr w'.value)
    (key : Str) (time : Uint64) : lastWrite accepted key time = lastWrite accepted' key time := by
  refine Option.ext fun value => ?_
  have h' := fun w hw w' hw' => h w ((hmem w).mp hw) w' ((hmem w').mp hw')
  rw [lastWrite_eq_some_iff h, lastWrite_eq_some_iff h']
  simp only [hmem]

/-! ## The simulation -/

/-- What a run keeps at every correct process. -/
structure Mirrored (faulty : Finset (Fin S.degree)) (c : Cluster S P) (s : Ledger) : Prop where
  tree : ∀ q ∉ faulty, (c q).1.tree = Levels.clear _
  buffered : ∀ q ∉ faulty, (c q).1.Buffered (c q).2
  bucket : ∀ q ∉ faulty, ∀ key, (c q).1.ledger.store.bucket key = s.store.bucket key

theorem Mirrored.write {s : Ledger} (h : Mirrored faulty c s) {q : Fin S.degree} {now : Uint64} {w : Ktv}
    {r : BFTKVS P × List Ktv} (hcall : BFTKVS.call (S := S) crc q (c q) (.tryWrite now w) = some r) :
    Mirrored faulty (Function.update c q r) s := by
  obtain ⟨htree, hledger⟩ := call_write hcall
  constructor <;> intro p hp <;> by_cases hpq : p = q
  · subst hpq
    rw [Function.update_self, htree]
    exact h.tree p hp
  · rw [Function.update_of_ne hpq]
    exact h.tree p hp
  · subst hpq
    rw [Function.update_self]
    exact (h.buffered p hp).call hcall
  · rw [Function.update_of_ne hpq]
    exact h.buffered p hp
  · subst hpq
    rw [Function.update_self, hledger]
    exact h.bucket p hp
  · rw [Function.update_of_ne hpq]
    exact h.bucket p hp

theorem Mirrored.job {s : Ledger} (h : Mirrored faulty c s) (hS : S.Tolerates)
    (hf : faulty.card ≤ S.height - 1) (hcrc : c.NoCollision crc faulty j)
    {f : Fusing S (Doubles.exact parse print)} (hunanimous : Unanimous faulty c accepted f)
    (hok : ∀ q ∉ faulty, (c.fusedJob crc faulty f j q).2 = .ok ()) :
    Mirrored faulty (c.fused crc faulty f j) (s.commitAll accepted) := by
  constructor <;> intro q hq <;> obtain ⟨ledger, hledger, hjob⟩ := fusedJob_ok (h.tree q hq) (hok q hq)
  · rw [fused, hjob]
  · exact BFTKVS.buffered_job crc q _ _
  · intro key
    rw [fused, hjob, (s.extends_commitAll accepted).bucket, ← h.bucket q hq]
    exact bucket_of_unanimous hS hf hcrc hq h.buffered hunanimous hledger key

end Cluster

end Achal
