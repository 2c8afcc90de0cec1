import Inconcretes.EigTree.Crc32
import Inconcretes.EigTree.Reduce
import Inconcretes.Lib.Eig

/-!
# The lockstep protocol

The `h` rounds of a job, run in lockstep. In round `l` every process copies level `l` into its own block
of level `l + 1`, sends blocks of level `l`, and stores what its peers sent, in the order in which the
frames arrive. A correct process sends the blocks of its layout; a faulty one sends any blocks, different
ones to each receiver, or none. Faulty processes are followed too: they keep a tree of what they received,
only what they send is unconstrained.

`Lockstep.exchange` reads the trees as one exchange of labelled values, and `Lockstep.resolution` reads
`reduce()` as a rule that resolves it, so that agreement and validity come from `Eig.Resolution`.
-/

namespace Achal

open Voting

/-- The order in which the frames of a round arrive at a process, one from every peer. -/
structure Arrival (S : Shape) where
  order : ℕ → Fin S.degree → List (Fin S.degree)
  perm : ∀ l q, (order l q).Perm ((List.finRange S.degree).filter (· ≠ q))

/-- One job in lockstep: what the processes start with, and everything they do not control. -/
structure Lockstep (S : Shape) (T : Type*) where
  root : Fin S.degree → T
  faulty : Finset (Fin S.degree)
  /-- The blocks that a faulty sender puts on the wire: round, sender, receiver. A frame that breaks off
  within a block leaves the rest of its slot zero, as one does that ends in zeros there. -/
  forged : ℕ → Fin S.degree → Fin S.degree → List T
  arrival : Arrival S

namespace Shape

variable {S : Shape} {T : Type*}

/-- Store the frames of a round, each into the slots that the layout lists for its sender. -/
def receiveFrames (L : S.Layout) (l : ℕ) (frames : List (Fin S.degree × List T)) (lv : Levels T) :
    Levels T :=
  frames.foldl (fun lv f => lv.storeBlocks (l + 1) (L.receive l f.1) f.2) lv

/-- One round at process `pid`. -/
def playRound (L : S.Layout) (l : ℕ) (pid : Fin S.degree) (frames : List (Fin S.degree × List T))
    (lv : Levels T) : Levels T :=
  receiveFrames L l frames (S.copyCurrentLevel l pid lv)

theorem receiveFrames_of_ne (L : S.Layout) {l l' : ℕ} (frames : List (Fin S.degree × List T))
    (lv : Levels T) (h : l' ≠ l + 1) : receiveFrames L l frames lv l' = lv l' := by
  unfold receiveFrames
  induction frames generalizing lv with
  | nil => rfl
  | cons f frames ih =>
    rw [List.foldl_cons, ih]
    funext n
    exact Levels.storeBlocks_of_notMem _ _ fun h' => h h'.1

/-- Frames of other peers do not touch the slots of `p`. -/
theorem receiveFrames_other (L : S.Layout) {p : Fin S.degree} (σ : List (Fin S.degree))
    {frames : List (Fin S.degree × List T)} (lv : Levels T) (h : ∀ f ∈ frames, p ≠ f.1) :
    receiveFrames L σ.length frames lv (σ.length + 1) (S.node (p :: σ))
      = lv (σ.length + 1) (S.node (p :: σ)) := by
  unfold receiveFrames
  induction frames generalizing lv with
  | nil => rfl
  | cons f frames ih =>
    obtain ⟨hf, hfs⟩ := List.forall_mem_cons.mp h
    rw [List.foldl_cons, ih _ hfs, Levels.storeBlocks_of_notMem]
    exact fun h' => L.node_notMem_receive hf σ h'.2

/-- The complete frame of a peer ends up in its slots, wherever it stands among the frames. -/
theorem receiveFrames_peer (L : S.Layout) {p : Fin S.degree} {σ : List (Fin S.degree)}
    {frames : List (Fin S.degree × List T)} (hnodup : (frames.map Prod.fst).Nodup) (block : ℕ → T)
    (hmem : (p, (L.send σ.length p).map block) ∈ frames) (hsent : S.node σ ∈ L.send σ.length p)
    (lv : Levels T) :
    receiveFrames L σ.length frames lv (σ.length + 1) (S.node (p :: σ)) = block (S.node σ) := by
  induction frames generalizing lv with
  | nil => exact absurd hmem List.not_mem_nil
  | cons f frames ih =>
    obtain ⟨hf, hnodup⟩ := List.nodup_cons.mp hnodup
    rw [receiveFrames, List.foldl_cons, ← receiveFrames]
    rcases List.mem_cons.mp hmem with rfl | hmem
    · rw [receiveFrames_other L σ _ (fun g hg h => hf (List.mem_map.mpr ⟨g, hg, h.symm⟩)), L.aligned]
      exact Levels.storeBlocks_map (L.send_nodup _ _) (fun _ _ h => Nat.add_left_cancel h) block lv hsent
    · exact ih hnodup hmem _

end Shape

namespace Lockstep

variable {S : Shape} {T : Type*} [Pod T] (L : S.Layout) (R : Lockstep S T)

/-- What `p` sends to `q` in round `l`, when `p` holds the tree `lv`. -/
def frame (l : ℕ) (p q : Fin S.degree) (lv : Levels T) : List T :=
  if p ∈ R.faulty then R.forged l p q else (L.send l p).map (lv l)

/-- The trees after `m` rounds. A process sends after it has copied its own level. -/
def trees : ℕ → Fin S.degree → Levels T
  | 0, q => (Levels.clear T).set 0 0 (R.root q)
  | l + 1, q =>
    S.playRound L l q
      ((R.arrival.order l q).map fun p => (p, R.frame L l p q (S.copyCurrentLevel l p (trees l p))))
      (trees l q)

/-- The frames that arrive at `q` in round `l`. -/
def received (l : ℕ) (q : Fin S.degree) : List (Fin S.degree × List T) :=
  (R.arrival.order l q).map fun p => (p, R.frame L l p q (S.copyCurrentLevel l p (R.trees L l p)))

theorem trees_succ (l : ℕ) (q : Fin S.degree) :
    R.trees L (l + 1) q = S.playRound L l q (R.received L l q) (R.trees L l q) := rfl

theorem received_nodup (l : ℕ) (q : Fin S.degree) : ((R.received L l q).map Prod.fst).Nodup := by
  rw [received, List.map_map]
  show ((R.arrival.order l q).map id).Nodup
  rw [List.map_id, (R.arrival.perm l q).nodup_iff]
  exact (List.nodup_finRange _).filter _

theorem mem_received {l : ℕ} {p q : Fin S.degree} (h : p ≠ q) :
    (p, R.frame L l p q (S.copyCurrentLevel l p (R.trees L l p))) ∈ R.received L l q := by
  apply List.mem_map_of_mem
  rw [(R.arrival.perm l q).mem_iff, List.mem_filter]
  exact ⟨List.mem_finRange p, by simpa using h⟩

/-! ## One round -/

theorem trees_of_ne {l l' : ℕ} (q : Fin S.degree) (h : l' ≠ l + 1) :
    R.trees L (l + 1) q l' = R.trees L l q l' := by
  rw [trees_succ, Shape.playRound, Shape.receiveFrames_of_ne L _ _ h]
  funext n
  exact S.copyCurrentLevel_of_ne q _ n h

/-- A level is written in one round only. -/
theorem trees_stable {l m : ℕ} (q : Fin S.degree) (h : l ≤ m) : R.trees L m q l = R.trees L l q l := by
  induction m, h using Nat.le_induction with
  | base => rfl
  | succ m hm ih => rw [R.trees_of_ne L q (by omega), ih]

/-- Levels that no round has reached are zero. -/
theorem trees_clear {l m : ℕ} (q : Fin S.degree) (h : m < l) (n : ℕ) :
    R.trees L m q l n = Pod.zero := by
  induction m with
  | zero => exact Levels.set_of_ne _ _ fun h' => by omega
  | succ m ih => rw [R.trees_of_ne L q (by omega), ih (by omega)]

/-- The own block holds what the process had. -/
theorem trees_own (q : Fin S.degree) (σ : List (Fin S.degree)) :
    R.trees L (σ.length + 1) q (σ.length + 1) (S.node (q :: σ)) = R.trees L σ.length q σ.length (S.node σ) := by
  rw [trees_succ, Shape.playRound, Shape.receiveFrames_other, S.copyCurrentLevel_own]
  intro f hf hq
  obtain ⟨p, hp, rfl⟩ := List.mem_map.mp hf
  rw [(R.arrival.perm _ q).mem_iff, List.mem_filter] at hp
  exact absurd hq.symm (by simpa using hp.2)

/-- The block of a correct peer holds what the peer had. -/
theorem trees_peer {p q : Fin S.degree} (hpq : p ≠ q) (hp : p ∉ R.faulty) {σ : List (Fin S.degree)}
    (hsent : S.node σ ∈ L.send σ.length p) :
    R.trees L (σ.length + 1) q (σ.length + 1) (S.node (p :: σ)) = R.trees L σ.length p σ.length (S.node σ) := by
  have hmem := R.mem_received L (l := σ.length) hpq
  rw [frame, if_neg hp] at hmem
  rw [trees_succ, Shape.playRound,
    Shape.receiveFrames_peer L (R.received_nodup L _ q) _ hmem hsent, S.copyCurrentLevel_of_ne]
  omega

/-- The block of a faulty peer that sent complete frames holds what it forged. -/
theorem trees_forged {p q : Fin S.degree} (hpq : p ≠ q) (hp : p ∈ R.faulty) {σ : List (Fin S.degree)}
    {bytes : ℕ → T} (hbytes : R.forged σ.length p q = (L.send σ.length p).map bytes)
    (hsent : S.node σ ∈ L.send σ.length p) :
    R.trees L (σ.length + 1) q (σ.length + 1) (S.node (p :: σ)) = bytes (S.node σ) := by
  have hmem := R.mem_received L (l := σ.length) hpq
  rw [frame, if_pos hp, hbytes] at hmem
  rw [trees_succ, Shape.playRound,
    Shape.receiveFrames_peer L (R.received_nodup L _ q) _ hmem hsent]

/-! ## The rounds as an exchange of labelled values -/

/-- What `q` holds under a label after all rounds. -/
def held (q : Fin S.degree) (σ : List (Fin S.degree)) : T :=
  R.trees S.optimized S.height q σ.length (S.node σ)

theorem held_eq (q : Fin S.degree) {σ : List (Fin S.degree)} (h : σ.length ≤ S.height) :
    R.held q σ = R.trees S.optimized σ.length q σ.length (S.node σ) := by
  rw [held, R.trees_stable S.optimized q h]

theorem held_nil (q : Fin S.degree) : R.held q [] = R.root q := by
  rw [R.held_eq q (Nat.zero_le _)]
  exact Levels.set_same _ _ _ _

/-- The rounds relay values. -/
def exchange : Eig.Exchange (Fin S.degree) T where
  height := S.height
  faulty := R.faulty
  held := R.held
  relay := by
    intro p q σ hp _ hσ hl
    rw [R.held_eq q (by rw [List.length_cons]; omega), R.held_eq p hl.le, List.length_cons]
    by_cases hpq : p = q
    · subst hpq
      exact R.trees_own S.optimized p σ
    · exact R.trees_peer S.optimized hpq hp (S.mem_sendBufferOptimized.mpr hσ)

variable (crc : List UInt8 → UInt32) (order : Fin S.degree → ℕ → ℕ → IterOrder UInt32 ℕ)

/-- The tree of `q` after `reduce()`. -/
def result (q : Fin S.degree) : Levels T := S.reduce crc (order q) (R.trees S.optimized S.height q)

/-- The node values of the run: everything a correct process holds before or after `reduce()`. -/
def values : Set T :=
  {v | ∃ q ∉ R.faulty, ∃ l ≤ S.height, ∃ n < S.numNodes l,
    v = R.trees S.optimized S.height q l n ∨ v = R.result crc order q l n}

/-- The checksum tells the node values of the run apart. -/
def NoCollision : Prop := Set.InjOn (Shape.checksum crc) (R.values crc order)

variable {crc order}

/-- It does when the values are among finitely many that it tells apart. -/
theorem noCollision_of_mem (vs : List T) (hvs : (vs.map (Shape.checksum crc)).Nodup)
    (hmem : ∀ q ∉ R.faulty, ∀ l ≤ S.height, ∀ n < S.numNodes l,
      R.trees S.optimized S.height q l n ∈ vs ∧ R.result crc order q l n ∈ vs) :
    R.NoCollision crc order := by
  have hvalues : ∀ v ∈ R.values crc order, v ∈ vs := by
    rintro v ⟨q, hq, l, hl, n, hn, rfl | rfl⟩
    · exact (hmem q hq l hl n hn).1
    · exact (hmem q hq l hl n hn).2
  exact fun v hv v' hv' heq => List.inj_on_of_nodup_map hvs (hvalues v hv) (hvalues v' hv') heq

open Classical in
/-- Without collisions a correct process counts exactly. -/
theorem result_eq_exactVote (hS : S.Tolerates) (hcrc : R.NoCollision crc order) {q : Fin S.degree}
    (hq : q ∉ R.faulty) {σ : List (Fin S.degree)} (hσ : σ.Nodup) (hl : σ.length < S.height) :
    R.result crc order q σ.length (S.node σ)
      = exactVote (S.degree - S.height - σ.length) Pod.zero
          (Shape.votes (R.result crc order q) σ) := by
  rw [result, hS.reduce_eq_voteBy crc (order q) _ hσ hl, ← result]
  refine voteBy_eq_exactVote (hcrc.mono ?_)
  intro v hv
  obtain ⟨x, -, rfl⟩ := List.mem_map.mp hv
  exact ⟨q, hq, σ.length + 1, hl, S.node (x :: σ), S.node_lt (x :: σ), Or.inr rfl⟩

open Classical in
/-- `reduce()` resolves the exchange. -/
noncomputable def resolution (hS : S.Tolerates) (hcrc : R.NoCollision crc order) :
    Eig.Resolution R.exchange (fun l => S.degree - S.height - l) where
  value q σ := R.result crc order q σ.length (S.node σ)
  leaf := by
    intro q σ _ _ hl
    rw [hl, result, S.reduce_leaf crc (order q) _ (show S.height ≤ R.exchange.height from le_rfl), ← hl]
    rfl
  counted := by
    intro q σ v s hq hσ hl hsupport hcard
    have hlen := Shape.length_votes (R.result crc order q) hσ
    have hcount : s.card ≤ (Shape.votes (R.result crc order q) σ).count v := by
      rw [Shape.votes, List.count, List.countP_map, List.countP_eq_length_filter]
      refine le_trans (Finset.card_le_card fun x hx => ?_) (List.toFinset_card_le _)
      obtain ⟨hxσ, hxv⟩ := hsupport x hx
      simp only [List.mem_toFinset, List.mem_filter, List.mem_finRange, true_and, Function.comp_apply,
        decide_eq_true_eq, beq_iff_eq]
      exact ⟨hxσ, hxv⟩
    have hstrict := hS.strict (show σ.length < S.height from hl)
    rw [R.result_eq_exactVote hS hcrc hq hσ hl]
    exact exactVote_of_count (by omega) (by omega)
  determined := by
    intro q q' σ hq hq' hσ hl hsame
    rw [R.result_eq_exactVote hS hcrc hq hσ hl, R.result_eq_exactVote hS hcrc hq' hσ hl]
    congr 1
    apply List.map_congr_left
    intro x hx
    exact hsame x (by simpa using (List.mem_filter.mp hx).2)

theorem room (hS : S.Tolerates) (hf : R.faulty.card ≤ S.height - 1) :
    ∀ l < R.exchange.height,
      (S.degree - S.height - l) + l + R.exchange.faulty.card < Fintype.card (Fin S.degree) := by
  intro l hl
  obtain ⟨hh, hd⟩ := hS
  have hl' : l < S.height := hl
  have hf' : R.exchange.faulty.card ≤ S.height - 1 := hf
  rw [Fintype.card_fin]
  omega

/-- A correct process resolves a label with a correct newest relayer to what that relayer held. -/
theorem result_of_correct (hS : S.Tolerates) (hf : R.faulty.card ≤ S.height - 1)
    (hcrc : R.NoCollision crc order) {p q : Fin S.degree} (hp : p ∉ R.faulty) (hq : q ∉ R.faulty) :
    R.result crc order q 1 (S.node [p]) = R.root p := by
  have hh : 1 ≤ S.height := hS.1
  have hval := (R.resolution hS hcrc).value_of_correct (R.room hS hf) hp hq (List.nodup_singleton p)
    (show ([] : List (Fin S.degree)).length < S.height by rw [List.length_nil]; omega)
  exact hval.trans (R.held_nil p)

/-- Correct processes resolve a label of faulty relayers alike. -/
theorem result_agree (hS : S.Tolerates) (hf : R.faulty.card ≤ S.height - 1)
    (hcrc : R.NoCollision crc order) {p q : Fin S.degree} (hp : p ∉ R.faulty) (hq : q ∉ R.faulty)
    {σ : List (Fin S.degree)} (hσ : σ.Nodup) (hall : ∀ x ∈ σ, x ∈ R.faulty) :
    R.result crc order p σ.length (S.node σ) = R.result crc order q σ.length (S.node σ) := by
  have hfh : R.exchange.faulty.card < R.exchange.height := by
    have hh : 1 ≤ S.height := hS.1
    have hf' : R.exchange.faulty.card ≤ S.height - 1 := hf
    show R.exchange.faulty.card < S.height
    omega
  exact (R.resolution hS hcrc).value_agree (R.room hS hf) hfh hp hq hσ hall

theorem vector_agree (hS : S.Tolerates) (hf : R.faulty.card ≤ S.height - 1)
    (hcrc : R.NoCollision crc order) {p q : Fin S.degree} (hp : p ∉ R.faulty) (hq : q ∉ R.faulty) :
    S.interactiveConsistencyVector (R.result crc order p)
      = S.interactiveConsistencyVector (R.result crc order q) := by
  rw [S.interactiveConsistencyVector_eq, S.interactiveConsistencyVector_eq]
  apply List.map_congr_left
  intro x _
  by_cases hx : x ∈ R.faulty
  · exact R.result_agree hS hf hcrc hp hq (List.nodup_singleton x) (by simpa using hx)
  · rw [R.result_of_correct hS hf hcrc hx hp, R.result_of_correct hS hf hcrc hx hq]

/-! ## Agreement and validity -/

/-- **Agreement.** With at most `h - 1` faulty processes and no checksum collision in the run, any two
correct processes end with the same interactive consistency vector and the same root. -/
theorem agreement (S : Shape) (crc : List UInt8 → UInt32) (R : Lockstep S T)
    (order : Fin S.degree → ℕ → ℕ → IterOrder UInt32 ℕ) (hS : S.Tolerates)
    (hf : R.faulty.card ≤ S.height - 1) (hcrc : R.NoCollision crc order) {p q : Fin S.degree}
    (hp : p ∉ R.faulty) (hq : q ∉ R.faulty) :
    S.interactiveConsistencyVector (R.result crc order p)
        = S.interactiveConsistencyVector (R.result crc order q)
      ∧ (R.result crc order p).root = (R.result crc order q).root :=
  ⟨R.vector_agree hS hf hcrc hp hq, R.result_agree hS hf hcrc hp hq List.nodup_nil (by simp)⟩

/-- Four processes with one byte each. Process 3 tells every peer something else, and process 0 nothing
in the second round. -/
def equivocatingRun : Lockstep Shape.four UInt8 where
  root q := UInt8.ofNat (q + 1)
  faulty := {3}
  forged l _ q := if l = 1 ∧ q = 0 then [] else [UInt8.ofNat (10 * q), UInt8.ofNat (l + q), 9]
  arrival := ⟨fun l q => ((List.finRange 4).filter (· ≠ q)).rotate l, fun l _ => List.rotate_perm _ l⟩

theorem agreement_equivocating :
    Shape.four.interactiveConsistencyVector
        (equivocatingRun.result crc32 (fun _ _ _ => IterOrder.newestFirst _ _) 0)
        = Shape.four.interactiveConsistencyVector
          (equivocatingRun.result crc32 (fun _ _ _ => IterOrder.newestFirst _ _) 2)
      ∧ (equivocatingRun.result crc32 (fun _ _ _ => IterOrder.newestFirst _ _) 0).root
        = (equivocatingRun.result crc32 (fun _ _ _ => IterOrder.newestFirst _ _) 2).root :=
  agreement Shape.four crc32 equivocatingRun _ ⟨by decide, by decide⟩ (by decide)
    (crc32_byte_injective.injOn) (by decide) (by decide)

/-- **Validity.** Under the same assumptions, the entry of a correct process `p` in the vector of a
correct process `q` is the root that `p` started with. -/
theorem validity (S : Shape) (crc : List UInt8 → UInt32) (R : Lockstep S T)
    (order : Fin S.degree → ℕ → ℕ → IterOrder UInt32 ℕ) (hS : S.Tolerates)
    (hf : R.faulty.card ≤ S.height - 1) (hcrc : R.NoCollision crc order) {p q : Fin S.degree}
    (hp : p ∉ R.faulty) (hq : q ∉ R.faulty) :
    (S.interactiveConsistencyVector (R.result crc order q))[p.val]? = some (R.root p) := by
  rw [S.interactiveConsistencyVector_eq, List.getElem?_map]
  simp only [List.getElem?_eq_getElem (show p.val < (List.finRange S.degree).length by simp),
    List.getElem_finRange, Option.map_some]
  exact congrArg some (R.result_of_correct hS hf hcrc hp hq)

theorem validity_equivocating :
    (Shape.four.interactiveConsistencyVector
      (equivocatingRun.result crc32 (fun _ _ _ => IterOrder.newestFirst _ _) 2))[0]? = some (1 : UInt8) :=
  validity Shape.four crc32 equivocatingRun _ ⟨by decide, by decide⟩ (by decide)
    (crc32_byte_injective.injOn) (p := 0) (by decide) (by decide)

end Lockstep

end Achal
