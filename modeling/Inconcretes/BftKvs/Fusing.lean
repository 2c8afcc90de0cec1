import Inconcretes.BftKvs.Median
import Inconcretes.BftKvs.Replication

/-!
# Clusters with any fuse function

The fuse function of a cluster may be `median_of_doubles` as well, and `update_fuse_function` may change it
between jobs. Correct processes still end every job with equal stores: they reduce to the same vector, and
a median depends on the numbers of a key and timestamp, not on the order in which the hash maps list them, when
`std::sort` can put them in one order only (`Doubles.SortsAlike`). The exception of `std::stod` that
`median_of_doubles` lets pass leaves the job at all correct processes or at none
(`Cluster.fused_stores_agree`).
-/

namespace Achal

variable {S : Shape} {P : Params} {F : Doubles}

/-- `std::sort` leaves one result for these numbers, in whatever order it gets them. -/
def Doubles.SortsAlike (F : Doubles) (xs : List F.Double) : Prop := ∀ ys, ys.Perm xs → F.sort ys = F.sort xs

/-- It does when none of them is nan, and different ones do not compare equal as `0.0` and `-0.0` do. -/
theorem Doubles.Ordered.sortsAlike (D : F.Ordered) {xs : List F.Double} (hnan : ∀ x ∈ xs, D.le x x = true)
    (hne : ∀ x ∈ xs, ∀ y ∈ xs, D.le x y = true → D.le y x = true → x = y) : F.SortsAlike xs := by
  intro ys hperm
  have hx : ∀ {x}, x ∈ F.sort xs ↔ x ∈ xs := (F.sort_perm xs).mem_iff
  have hy : ∀ {y}, y ∈ F.sort ys ↔ y ∈ xs := ((F.sort_perm ys).trans hperm).mem_iff
  refine List.Perm.eq_of_pairwise (fun a b ha hb => hne a (hy.mp ha) b (hx.mp hb))
    (D.sort_sorted ys fun y hmem => hnan y (hperm.mem_iff.mp hmem)) (D.sort_sorted xs hnan) ?_
  exact ((F.sort_perm ys).trans hperm).trans (F.sort_perm xs).symm

theorem Doubles.sortsAlike_exact (stod : Str → Except StodError ℚ) (toStr : ℚ → Str) (xs : List ℚ) :
    (Doubles.exact stod toStr).SortsAlike xs :=
  (orderedExact stod toStr).sortsAlike (fun x _ => decide_eq_true (le_refl (x : ℚ)))
    fun _ _ _ _ hxy hyx => le_antisymm (of_decide_eq_true hxy) (of_decide_eq_true hyx)

theorem Doubles.SortsAlike.median_perm {xs ys : List F.Double} (hys : F.SortsAlike ys) (h : xs.Perm ys) :
    F.median xs = F.median ys := by
  have hlen := h.length_eq
  unfold median
  by_cases hfew : xs.length < 3
  · rw [dif_pos hfew, dif_pos (hlen ▸ hfew)]
  · rw [dif_neg hfew, dif_neg (hlen ▸ hfew)]
    simp only [List.get_of_eq (hys xs h), hlen]

/-- Whether `median_of_doubles` throws depends on the nodes alone. -/
theorem medianOfDoubles_throws (o₁ o₂ : FuseOrder F.Double) (nodes : List (EigNode P)) (s₁ s₂ : Ledger) :
    (medianOfDoubles F o₁ nodes s₁).map (fun _ => ()) = (medianOfDoubles F o₂ nodes s₂).map fun _ => () := by
  unfold medianOfDoubles
  cases (ballots nodes).foldlM F.record ∅ <;> rfl

/-- Equal stores stay equal, or `median_of_doubles` throws at both. -/
theorem medianOfDoubles_congr {nodes : List (EigNode P)}
    (hF : ∀ key time, F.SortsAlike (F.votes nodes key time))
    (o₁ o₂ : FuseOrder F.Double) {s₁ s₂ : Ledger} (h : s₁.store = s₂.store) :
    (medianOfDoubles F o₁ nodes s₁).map Ledger.store = (medianOfDoubles F o₂ nodes s₂).map Ledger.store := by
  have hthrows := medianOfDoubles_throws o₁ o₂ nodes s₁ s₂
  cases hs₁' : medianOfDoubles F o₁ nodes s₁ with
  | error e =>
    rw [hs₁'] at hthrows
    cases hs₂' : medianOfDoubles F o₂ nodes s₂ with
    | error e' =>
      rw [hs₂'] at hthrows
      exact congrArg Except.error (Except.error.inj hthrows)
    | ok s₂' =>
      rw [hs₂'] at hthrows
      cases hthrows
  | ok s₁' =>
    rw [hs₁'] at hthrows
    cases hs₂' : medianOfDoubles F o₂ nodes s₂ with
    | error e' =>
      rw [hs₂'] at hthrows
      cases hthrows
    | ok s₂' =>
      have hcommits : ∀ w, w ∈ medianCommits F o₁ nodes ↔ w ∈ medianCommits F o₂ nodes := by
        intro w
        rw [mem_medianCommits, mem_medianCommits,
          (hF w.key w.time).median_perm (F.visit_numbersOf_perm nodes (o₁.nodes w.key w.time) w.key w.time),
          (hF w.key w.time).median_perm (F.visit_numbersOf_perm nodes (o₂.nodes w.key w.time) w.key w.time)]
      refine congrArg Except.ok ((extends_medianOfDoubles hs₁').store_eq (extends_medianOfDoubles hs₂') h
        (fun key => ?_) fun b key => ?_)
      · rw [o₁.keys.mem_visit_keys, o₂.keys.mem_visit_keys]
      · exact Ledger.putAll_commitsOf_congr (Ledger.loopCommits_nodup _ _ _)
          (Ledger.loopCommits_nodup _ _ _) hcommits b key

/-- The ways in which the jobs of a cluster commit. -/
inductive Fusing (S : Shape) (F : Doubles)
  | root
  | strong
  | median (order : Fin S.degree → FuseOrder F.Double)

namespace Fusing

/-- The fuse function of process `q`. -/
def fuse (j : ClusterJob S P) (q : Fin S.degree) : Fusing S F → Option (FuseFunction P)
  | root => CommitPath.root.fuse j q
  | strong => CommitPath.strong.fuse j q
  | median order => some fun s nodes => medianOfDoubles F (order q) nodes s

/-- A median needs numbers that sort alike, for each key and timestamp. -/
def SortsAlike (nodes : List (EigNode P)) : Fusing S F → Prop
  | median _ => ∀ key time, F.SortsAlike (F.votes nodes key time)
  | _ => True

/-- The stores of equal votes and roots stay equal, or the job throws at both. -/
theorem fuseResult_congr (f : Fusing S F) (j : ClusterJob S P) (p q : Fin S.degree)
    {lv lv' : Levels (EigNode P)} {s s' : Ledger} (hs : s.store = s'.store)
    (hvector : S.interactiveConsistencyVector lv = S.interactiveConsistencyVector lv')
    (hroot : lv.root = lv'.root) (hF : f.SortsAlike (S.interactiveConsistencyVector lv)) :
    (BFTKVS.fuseResult S (f.fuse j p) lv s).map Ledger.store
      = (BFTKVS.fuseResult S (f.fuse j q) lv' s').map Ledger.store := by
  have hpath : ∀ path : CommitPath, (BFTKVS.fuseResult S (path.fuse j p) lv s).map Ledger.store
      = (BFTKVS.fuseResult S (path.fuse j q) lv' s').map Ledger.store := by
    intro path
    rw [path.fuseResult_eq, path.fuseResult_eq]
    exact congrArg Except.ok (path.commit_store_congr j p q hs hvector hroot)
  cases f with
  | root => exact hpath .root
  | strong => exact hpath .strong
  | median order =>
    show (medianOfDoubles F (order p) (S.interactiveConsistencyVector lv) s).map Ledger.store
      = (medianOfDoubles F (order q) (S.interactiveConsistencyVector lv') s').map Ledger.store
    rw [← hvector]
    exact medianOfDoubles_congr hF (order p) (order q) hs

end Fusing

namespace Cluster

variable (crc : List UInt8 → UInt32) (faulty : Finset (Fin S.degree))

/-- The job of process `q`, and the exception that leaves it. -/
def fusedJob (c : Cluster S P) (f : Fusing S F) (j : ClusterJob S P) (q : Fin S.degree) :
    BFTKVS P × Except StodError Unit :=
  (c q).1.job crc q { c.jobInput faulty .root j q with fuse := f.fuse j q }

/-- All processes run one job. -/
def fused (c : Cluster S P) (f : Fusing S F) (j : ClusterJob S P) : Cluster S P :=
  fun q => ((c.fusedJob crc faulty f j q).1, [])

/-- The numbers that the correct processes take medians of sort alike. -/
def SortsAlike (c : Cluster S P) (f : Fusing S F) (j : ClusterJob S P) : Prop :=
  ∀ q ∉ faulty, f.SortsAlike (S.interactiveConsistencyVector ((c.lockstep faulty j).result crc j.order q))

/-- Between jobs the correct processes have clear trees and equal stores. -/
structure Alike (c : Cluster S P) : Prop where
  tree : ∀ q ∉ faulty, (c q).1.tree = Levels.clear _
  store : ∀ p ∉ faulty, ∀ q ∉ faulty, (c p).1.ledger.store = (c q).1.ledger.store

variable {crc faulty} {c : Cluster S P} {f : Fusing S F} {j : ClusterJob S P} {q : Fin S.degree}

/-- A job on a clear tree ends as the fuse function does on what the protocol resolves. -/
theorem fusedJob_eq (htree : (c q).1.tree = Levels.clear _) :
    c.fusedJob crc faulty f j q
      = match BFTKVS.fuseResult S (f.fuse j q) ((c.lockstep faulty j).result crc j.order q) (c q).1.ledger with
        | .ok ledger => (⟨Pod.zero, Levels.clear _, ledger, (c q).1.numJobs + 1⟩, .ok ())
        | .error e => (⟨Pod.zero, (c.lockstep faulty j).result crc j.order q, (c q).1.ledger, (c q).1.numJobs⟩,
            .error e) := by
  have hrounds : BFTKVS.rounds q (c.jobInput faulty .root j q).frames S.height (c q).1.snapshot.tree
      = (c.lockstep faulty j).trees S.optimized S.height q := by
    rw [← rounds_eq_trees, BFTKVS.snapshot, htree]
    rfl
  unfold fusedJob BFTKVS.job
  rw [if_neg (by simp [jobInput])]
  dsimp only
  rw [hrounds]
  rfl

/-- A job that returns has committed what the fuse function does. -/
theorem fusedJob_ok (htree : (c q).1.tree = Levels.clear _)
    (hok : (c.fusedJob crc faulty f j q).2 = .ok ()) :
    ∃ ledger, BFTKVS.fuseResult S (f.fuse j q) ((c.lockstep faulty j).result crc j.order q) (c q).1.ledger
        = .ok ledger
      ∧ (c.fusedJob crc faulty f j q).1 = ⟨Pod.zero, Levels.clear _, ledger, (c q).1.numJobs + 1⟩ := by
  rw [fusedJob_eq htree] at hok ⊢
  cases hresult : BFTKVS.fuseResult S (f.fuse j q) ((c.lockstep faulty j).result crc j.order q)
      (c q).1.ledger with
  | ok ledger => exact ⟨ledger, rfl, rfl⟩
  | error e =>
    rw [hresult] at hok
    cases hok

/-- The job returns when the fuse function does. -/
theorem fusedJob_returns (htree : (c q).1.tree = Levels.clear _) {ledger : Ledger}
    (hledger : BFTKVS.fuseResult S (f.fuse j q) ((c.lockstep faulty j).result crc j.order q) (c q).1.ledger
      = .ok ledger) : (c.fusedJob crc faulty f j q).2 = .ok () := by
  rw [fusedJob_eq htree, hledger]

/-- Correct processes fuse alike. -/
theorem Alike.fuseResult_eq (h : Alike faulty c) (hS : S.Tolerates) (hf : faulty.card ≤ S.height - 1)
    (hcrc : c.NoCollision crc faulty j) (hF : c.SortsAlike crc faulty f j) {p : Fin S.degree} (hp : p ∉ faulty)
    (hq : q ∉ faulty) :
    (BFTKVS.fuseResult S (f.fuse j p) ((c.lockstep faulty j).result crc j.order p)
        (c p).1.ledger).map Ledger.store
      = (BFTKVS.fuseResult S (f.fuse j q) ((c.lockstep faulty j).result crc j.order q)
        (c q).1.ledger).map Ledger.store :=
  f.fuseResult_congr j p q (h.store p hp q hq) ((c.lockstep faulty j).vector_agree hS hf hcrc hp hq)
    ((c.lockstep faulty j).result_agree hS hf hcrc hp hq List.nodup_nil (by simp)) (hF p hp)

theorem Alike.job (h : Alike faulty c) (hS : S.Tolerates) (hf : faulty.card ≤ S.height - 1)
    (hcrc : c.NoCollision crc faulty j) (hF : c.SortsAlike crc faulty f j)
    (hok : ∀ q ∉ faulty, (c.fusedJob crc faulty f j q).2 = .ok ()) :
    Alike faulty (c.fused crc faulty f j) := by
  refine ⟨fun q hq => ?_, fun p hp q hq => ?_⟩
  · obtain ⟨ledger, -, hjob⟩ := fusedJob_ok (h.tree q hq) (hok q hq)
    rw [fused, hjob]
  · obtain ⟨ledger, hledger, hjob⟩ := fusedJob_ok (h.tree p hp) (hok p hp)
    obtain ⟨ledger', hledger', hjob'⟩ := fusedJob_ok (h.tree q hq) (hok q hq)
    have hsame := h.fuseResult_eq hS hf hcrc hF hp hq
    rw [hledger, hledger'] at hsame
    rw [fused, fused, hjob, hjob']
    exact Except.ok.inj hsame

theorem Alike.write (h : Alike faulty c) {now : Uint64} {w : Ktv} {r : BFTKVS P × List Ktv}
    (hcall : BFTKVS.call (S := S) crc q (c q) (.tryWrite now w) = some r) :
    Alike faulty (Function.update c q r) := by
  obtain ⟨htree, hledger⟩ := call_write hcall
  have hkeep : ∀ p, (Function.update c q r p).1.tree = (c p).1.tree
      ∧ (Function.update c q r p).1.ledger = (c p).1.ledger := by
    intro p
    by_cases hp : p = q
    · rw [hp, Function.update_self]
      exact ⟨htree, hledger⟩
    · rw [Function.update_of_ne hp]
      exact ⟨rfl, rfl⟩
  refine ⟨fun p hp => (hkeep p).1.trans (h.tree p hp), fun p hp p' hp' => ?_⟩
  rw [(hkeep p).2, (hkeep p').2]
  exact h.store p hp p' hp'

end Cluster

end Achal
