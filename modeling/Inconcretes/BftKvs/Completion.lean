import Inconcretes.BftKvs.Link
import Inconcretes.EigTree.Protocol
import Inconcretes.Lib.Footprint

/-!
# The receive handlers of one round

A round copies the own level and then waits for one receive handler for each entry of `server`. They
complete in any order, each when the frame of its peer is there, and move it from `server_buffer[pid]` into
the tree. The handler of a peer reads and writes the valid slots of this peer in the next level and no
other cell of the tree, so the handlers of a round commute.
-/

namespace Achal

namespace Link

variable {S : Shape} {T : Type*} [Pod T] (l : ℕ)

/-- A node of the tree as a cell. -/
def cell (i : ℕ × ℕ) (lv : Levels T) : T := lv i.1 i.2

omit [Pod T] in
theorem levels_ext (lv lv' : Levels T) (h : ∀ i, cell i lv = cell i lv') : lv = lv' := by
  funext l n
  exact h (l, n)

/-- The cells of the block of `p` in level `l + 1`. -/
def blockCells (p : Fin S.degree) : Set (ℕ × ℕ) :=
  {i | i.1 = l + 1 ∧ p * S.numNodes l ≤ i.2 ∧ i.2 < (p + 1) * S.numNodes l}

/-- The cells of the valid slots of `p` in level `l + 1`. -/
def slotCells (p : Fin S.degree) : Set (ℕ × ℕ) := {i | i.1 = l + 1 ∧ i.2 ∈ S.receiveBufferOptimized l p}

/-- The handler of `async_read` for `p` completes, when `server_buffer[p]` holds `buffer p`. -/
def complete (buffer : Fin S.degree → List UInt8) (lv : Levels T) (p : Fin S.degree) : Levels T :=
  (onRead p l ⟨lv, buffer p, .exactly 0⟩).levels

/-- A round of process `pid` whose receive handlers complete in the given order. -/
def completeAll (pid : Fin S.degree) (buffer : Fin S.degree → List UInt8) (order : List (Fin S.degree))
    (lv : Levels T) : Levels T :=
  order.foldl (complete l buffer) (S.copyCurrentLevel l pid lv)

/-! ## The cells of a handler -/

/-- Moving bytes into slots reads and writes these slots only. -/
theorem local_foldl_sgetn {X : Set (ℕ × ℕ)} {slots : List ℕ} (hslots : ∀ n ∈ slots, (l + 1, n) ∈ X)
    (buffer : List UInt8) :
    Footprint.Local cell X fun lv : Levels T => (slots.foldl (sgetn l) (lv, buffer)).1 := by
  induction slots generalizing buffer with
  | nil => exact Footprint.local_id cell X
  | cons n slots ih =>
    obtain ⟨hn, hslots⟩ := List.forall_mem_cons.mp hslots
    have hset : Footprint.Local cell X fun lv : Levels T =>
        lv.set (l + 1) n (Pod.overlay buffer (lv (l + 1) n)) := by
      constructor
      · intro lv i hi
        exact Levels.set_of_ne _ _ fun h => hi (by rwa [← h.1, ← h.2] at hn)
      · intro lv lv' h i hi
        have hn' : lv (l + 1) n = lv' (l + 1) n := h (l + 1, n) hn
        have hi' : lv i.1 i.2 = lv' i.1 i.2 := h i hi
        simp only [cell, Levels.set, hn', hi']
    exact (ih hslots (buffer.drop (Pod.size T))).comp hset

theorem local_complete (buffer : Fin S.degree → List UInt8) (p : Fin S.degree) :
    Footprint.Local cell (slotCells l p) fun lv : Levels T => complete l buffer lv p :=
  local_foldl_sgetn l (X := slotCells l p) (fun _ hn => And.intro rfl hn) (buffer p)

/-- The cells of `p` are valid nodes of its block. -/
theorem valid_of_mem_slotCells {p : Fin S.degree} {i : ℕ × ℕ} (h : i ∈ slotCells l p) :
    S.valid (l + 1) i.2 = true ∧ i ∈ blockCells l p := by
  obtain ⟨hl, hn⟩ := h
  obtain ⟨hrange, hvalid⟩ := List.mem_filter.mp hn
  obtain ⟨hlo, hhi⟩ := List.mem_range'_1.mp hrange
  exact ⟨hvalid, hl, hlo, by rw [Nat.succ_mul]; exact hhi⟩

theorem local_complete_block (buffer : Fin S.degree → List UInt8) (p : Fin S.degree) :
    Footprint.Local cell (blockCells l p) fun lv : Levels T => complete l buffer lv p :=
  (local_complete l buffer p).mono fun _ hi => (valid_of_mem_slotCells l hi).2

theorem disjoint_blockCells {p q : Fin S.degree} (h : p ≠ q) : Disjoint (blockCells l p) (blockCells l q) := by
  refine Set.disjoint_left.mpr ?_
  rintro ⟨l', n⟩ ⟨-, hp⟩ ⟨-, hq⟩
  have hdiv : n / S.numNodes l = p := Nat.div_eq_of_lt_le hp.1 hp.2
  have hdiv' : n / S.numNodes l = q := Nat.div_eq_of_lt_le hq.1 hq.2
  exact h (Fin.ext (hdiv ▸ hdiv'))

omit [Pod T] in
/-- The copy of the own level stays within the own block. -/
theorem cell_copyCurrentLevel {pid : Fin S.degree} (lv : Levels T) {i : ℕ × ℕ}
    (h : i ∉ blockCells l pid) : cell i (S.copyCurrentLevel l pid lv) = cell i lv := by
  refine if_neg fun hin => h ?_
  rw [← Nat.succ_mul] at hin
  exact hin

/-! ## A round of handlers -/

section Round

variable {pid : Fin S.degree} (buffer : Fin S.degree → List UInt8) {order : List (Fin S.degree)}

/-- Outside the blocks of the peers the handlers leave what the copy has left. -/
theorem cell_completeAll {i : ℕ × ℕ} (h : ∀ p ∈ order, i ∉ blockCells l p) (lv : Levels T) :
    cell i (completeAll l pid buffer order lv) = cell i (S.copyCurrentLevel l pid lv) :=
  Footprint.foldl_frame (local_complete_block l buffer) h _

/-- The level that is being sent is written by no handler. -/
theorem completeAll_sent (lv : Levels T) : completeAll l pid buffer order lv l = lv l := by
  funext n
  have hout : ∀ p : Fin S.degree, (l, n) ∉ blockCells l p := fun p hp => absurd hp.1 (by simp)
  have hround : cell (l, n) (completeAll l pid buffer order lv)
      = cell (l, n) (S.copyCurrentLevel l pid lv) := cell_completeAll l buffer (fun p _ => hout p) lv
  exact hround.trans (cell_copyCurrentLevel l lv (hout pid))

/-- The own block holds what the process had. -/
theorem completeAll_own (h : pid ∉ order) (lv : Levels T) {i : ℕ} (hi : i < S.numNodes l) :
    completeAll l pid buffer order lv (l + 1) (pid * S.numNodes l + i) = lv l i := by
  have hown : (l + 1, pid * S.numNodes l + i) ∈ blockCells l pid := by
    refine ⟨rfl, Nat.le_add_right _ _, ?_⟩
    rw [Nat.succ_mul]
    exact Nat.add_lt_add_left hi _
  have hround : cell (l + 1, pid * S.numNodes l + i) (completeAll l pid buffer order lv)
      = cell (l + 1, pid * S.numNodes l + i) (S.copyCurrentLevel l pid lv) := by
    refine cell_completeAll l buffer (fun p hp => ?_) lv
    have hne : pid ≠ p := fun heq => h (heq ▸ hp)
    exact Set.disjoint_left.mp (disjoint_blockCells l hne) hown
  refine hround.trans ?_
  rw [cell, Shape.copyCurrentLevel, if_pos ⟨rfl, by simp, by simpa using hi⟩, Nat.add_sub_cancel_left]

/-- The block of a peer holds what its handler alone makes of it. -/
theorem completeAll_peer (hnodup : order.Nodup) {p : Fin S.degree} (hp : p ∈ order) (hne : p ≠ pid)
    (lv : Levels T) {i : ℕ × ℕ} (hi : i ∈ blockCells l p) :
    cell i (completeAll l pid buffer order lv) = cell i (complete l buffer lv p) := by
  have hop := local_complete_block (T := T) l buffer
  have hround := Footprint.foldl_own hop (fun _ _ => disjoint_blockCells l) hnodup hp
    (S.copyCurrentLevel l pid lv) hi
  refine hround.trans ((hop p).own _ _ (fun j hj => ?_) i hi)
  exact cell_copyCurrentLevel l lv (Set.disjoint_left.mp (disjoint_blockCells l hne) hj)

end Round

/-! ## Frames of the expected length -/

/-- Bytes of the expected length are blocks for the slots of the peer. -/
theorem complete_eq_storeBlocks {buffer : Fin S.degree → List UInt8} {p : Fin S.degree}
    (h : (buffer p).length = frameSize p l T) (lv : Levels T) :
    complete l buffer lv p
      = lv.storeBlocks (l + 1) (S.receiveBufferOptimized l p)
          (Pod.split T (S.receiveBufferOptimized l p).length (buffer p)) := by
  have hlen := Pod.length_split (T := T) (S.receiveBufferOptimized l p).length (buffer p)
  have hbytes := Pod.flatMap_bytes_split (T := T) h
  have := foldl_sgetn l hlen.symm lv []
  rw [List.append_nil, hbytes] at this
  rw [complete, onRead, this]

/-- With such frames a round of handlers is a round of the lockstep protocol. -/
theorem completeAll_eq_playRound (pid : Fin S.degree) {buffer : Fin S.degree → List UInt8}
    {order : List (Fin S.degree)} (h : ∀ p ∈ order, (buffer p).length = frameSize p l T) (lv : Levels T) :
    completeAll l pid buffer order lv
      = S.playRound S.optimized l pid
          (order.map fun p => (p, Pod.split T (S.receiveBufferOptimized l p).length (buffer p))) lv := by
  rw [completeAll, Shape.playRound, Shape.receiveFrames, List.foldl_map]
  exact List.foldl_ext _ _ _ fun lv p hp => complete_eq_storeBlocks l (h p hp) lv

/-! ## The order of completion -/

/-- **The order of arrival is irrelevant.** Two rounds in which the handlers of the same peers complete in
different orders leave the same tree, whatever bytes arrived. A handler changes valid nodes of the block of
its peer only, and the copy nodes of the own block only. So at the end of the round the level that is
being sent is as it was, the own block holds it, and the block of a peer is what its handler alone makes of
it. -/
theorem arrival_order_irrelevant (S : Shape) (T : Type*) [Pod T] (l : ℕ) (pid : Fin S.degree)
    (buffer : Fin S.degree → List UInt8) (lv : Levels T) {order order' : List (Fin S.degree)}
    (h : order.Perm ((List.finRange S.degree).filter (· ≠ pid)))
    (h' : order'.Perm ((List.finRange S.degree).filter (· ≠ pid))) :
    completeAll l pid buffer order lv = completeAll l pid buffer order' lv
      ∧ (∀ p, ∀ lv : Levels T, ∀ l' n, complete l buffer lv p l' n ≠ lv l' n →
          S.valid (l + 1) n = true
            ∧ l' = l + 1 ∧ p * S.numNodes l ≤ n ∧ n < (p + 1) * S.numNodes l)
      ∧ (∀ lv : Levels T, ∀ l' n, S.copyCurrentLevel l pid lv l' n ≠ lv l' n →
          l' = l + 1 ∧ pid * S.numNodes l ≤ n ∧ n < (pid + 1) * S.numNodes l)
      ∧ completeAll l pid buffer order lv l = lv l
      ∧ (∀ i < S.numNodes l, completeAll l pid buffer order lv (l + 1) (pid * S.numNodes l + i) = lv l i)
      ∧ ∀ p ≠ pid, ∀ n, p * S.numNodes l ≤ n → n < (p + 1) * S.numNodes l →
          completeAll l pid buffer order lv (l + 1) n = complete l buffer lv p (l + 1) n := by
  have hmem : ∀ p, p ∈ order ↔ p ≠ pid := fun p => by simp [h.mem_iff]
  have hnodup : order.Nodup := h.nodup_iff.mpr ((List.nodup_finRange _).filter _)
  refine ⟨?_, ?_, ?_, completeAll_sent l buffer lv, ?_, ?_⟩
  · exact Footprint.foldl_perm levels_ext (local_complete_block l buffer)
      (fun _ _ => disjoint_blockCells l) (h.trans h'.symm) _
  · intro p lv l' n hne
    by_contra hout
    have hslot : (l', n) ∉ slotCells l p := fun hin => hout (valid_of_mem_slotCells l hin)
    exact hne ((local_complete l buffer p).frame lv (l', n) hslot)
  · intro lv l' n hne
    by_contra hout
    exact hne (cell_copyCurrentLevel l lv (i := (l', n)) hout)
  · exact fun i hi => completeAll_own l buffer (fun hpid => (hmem pid).mp hpid rfl) lv hi
  · exact fun p hp n hlo hhi =>
      completeAll_peer l buffer hnodup ((hmem p).mpr hp) hp lv (i := (l + 1, n)) ⟨rfl, hlo, hhi⟩

/-- Process 0 of four in round 1, with frames that differ in every byte. -/
theorem arrival_order_irrelevant_four :
    completeAll 1 (0 : Fin Shape.four.degree) (fun p => [UInt8.ofNat p, 7, UInt8.ofNat (p + 9)])
        [1, 2, 3] (Levels.clear UInt8)
      = completeAll 1 (0 : Fin Shape.four.degree) (fun p => [UInt8.ofNat p, 7, UInt8.ofNat (p + 9)])
        [3, 1, 2] (Levels.clear UInt8) :=
  (arrival_order_irrelevant Shape.four UInt8 1 0 _ _ (by decide) (by decide)).1

end Link

end Achal
