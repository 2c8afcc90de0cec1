import Inconcretes.EigTree.Shape
import Inconcretes.Lib.Pod
import Mathlib.Combinatorics.Enumerative.DoubleCounting
import Mathlib.Data.List.Range
import Mathlib.Logic.Equiv.Basic

/-!
# Contents of an EIG tree and its send and receive buffers

A process sends the blocks of level `l` in ascending order of their slots, and the receiver stores them
into the slots of level `l + 1` that it lists for the sender. The plain exchange lists whole levels; the
optimized one lists, on the sender's side, the nodes with a child of the sender, and on the receiver's
side the valid slots of the sender. `Layout.aligned` is what makes a frame readable: the k-th slot of the
receiver is the child that prepends the sender to the k-th node sent.
-/

namespace Achal

/-- `levels[l][n]`. -/
abbrev Levels (T : Type*) := ℕ → ℕ → T

namespace Levels

variable {T : Type*}

def set (lv : Levels T) (l n : ℕ) (v : T) : Levels T :=
  fun l' n' => if l' = l ∧ n' = n then v else lv l' n'

/-- `clear()`: all bytes of all levels are zero. -/
def clear (T : Type*) [Pod T] : Levels T := fun _ _ => Pod.zero

/-- `*root()`. -/
def root (lv : Levels T) : T := lv 0 0

theorem set_same (lv : Levels T) (l n : ℕ) (v : T) : lv.set l n v l n = v := if_pos ⟨rfl, rfl⟩

theorem set_of_ne (lv : Levels T) {l n l' n' : ℕ} (v : T) (h : ¬(l' = l ∧ n' = n)) :
    lv.set l n v l' n' = lv l' n' := if_neg h

/-- Store blocks into slots of level `l`, as many as there are of both. -/
def storeBlocks (l : ℕ) (slots : List ℕ) (blocks : List T) (lv : Levels T) : Levels T :=
  (slots.zip blocks).foldl (fun lv sb => lv.set l sb.1 sb.2) lv

theorem foldl_set_apply (l : ℕ) (sbs : List (ℕ × T)) (lv : Levels T) (l' n : ℕ) :
    sbs.foldl (fun lv sb => lv.set l sb.1 sb.2) lv l' n
      = if l' = l then (((sbs.filter (·.1 = n)).getLast?).map Prod.snd).getD (lv l' n) else lv l' n := by
  induction sbs generalizing lv with
  | nil => simp
  | cons sb sbs ih =>
    rw [List.foldl_cons, ih]
    by_cases hl : l' = l
    · rw [if_pos hl, if_pos hl]
      by_cases hn : sb.1 = n
      · rw [List.filter_cons_of_pos (by simpa using hn)]
        cases hlast : (sbs.filter (·.1 = n)).getLast? with
        | none =>
          rw [List.getLast?_eq_none_iff.mp hlast, hl, ← hn, set_same]
          rfl
        | some e => rw [List.getLast?_cons, hlast]; rfl
      · rw [List.filter_cons_of_neg (by simpa using hn), set_of_ne]
        exact fun h => hn h.2.symm
    · rw [if_neg hl, if_neg hl, set_of_ne]
      exact fun h => hl h.1

/-- What a slot holds after a store: its last block, or what it held before. -/
theorem storeBlocks_apply (l : ℕ) (slots : List ℕ) (blocks : List T) (lv : Levels T) (l' n : ℕ) :
    lv.storeBlocks l slots blocks l' n
      = if l' = l then
          (((((slots.zip blocks).filter (·.1 = n)).getLast?).map Prod.snd).getD (lv l' n))
        else lv l' n :=
  foldl_set_apply l _ lv l' n

theorem storeBlocks_of_notMem {l : ℕ} {slots : List ℕ} {l' n : ℕ} (blocks : List T) (lv : Levels T)
    (h : ¬(l' = l ∧ n ∈ slots)) : lv.storeBlocks l slots blocks l' n = lv l' n := by
  rw [storeBlocks_apply]
  by_cases hl : l' = l
  · rw [if_pos hl, List.filter_eq_nil_iff.mpr]
    · rfl
    · rintro ⟨s, b⟩ hsb heq
      have hs : s = n := by simpa using heq
      exact h ⟨hl, hs ▸ (List.of_mem_zip hsb).1⟩
  · rw [if_neg hl]

/-- A complete frame puts every block into its own slot. -/
theorem storeBlocks_map {l : ℕ} {is : List ℕ} (hnodup : is.Nodup) {slot : ℕ → ℕ}
    (hslot : Function.Injective slot) (block : ℕ → T) (lv : Levels T) {i : ℕ} (hi : i ∈ is) :
    lv.storeBlocks l (is.map slot) (is.map block) l (slot i) = block i := by
  have hzip : (is.map slot).zip (is.map block) = is.map fun j => (slot j, block j) := by
    rw [List.zip_map']
  have hfilter : (is.map fun j => (slot j, block j)).filter (fun sb => decide (sb.1 = slot i))
      = [(slot i, block i)] := by
    rw [List.filter_map]
    have : is.filter ((fun sb : ℕ × T => decide (sb.1 = slot i)) ∘ fun j => (slot j, block j))
        = is.filter (· = i) :=
      List.filter_congr fun j _ => by simp [hslot.eq_iff]
    rw [this, List.filter_eq i, List.count_eq_one_of_mem hnodup hi]
    rfl
  rw [storeBlocks_apply, if_pos rfl, hzip, hfilter]
  rfl

end Levels

namespace Shape

variable (S : Shape) {T : Type*}

/-- `interactive_consistency_vector()`: the nodes of level 1. -/
def interactiveConsistencyVector (lv : Levels T) : List T := (List.range S.degree).map (lv 1)

/-- `copy_current_level(l, pid)`: level `l` over the own block of level `l + 1`. -/
def copyCurrentLevel (l : ℕ) (pid : Fin S.degree) (lv : Levels T) : Levels T :=
  fun l' n =>
    if l' = l + 1 ∧ pid * S.numNodes l ≤ n ∧ n < pid * S.numNodes l + S.numNodes l then
      lv l (n - pid * S.numNodes l)
    else lv l' n

/-- `send_buffer(l)`: the blocks of the whole level, by slot. -/
def sendBuffer (l : ℕ) : List ℕ := List.range (S.numNodes l)

/-- `receive_buffer(l, pid)`, `num_nodes[l]` slots from there. -/
def receiveBuffer (l : ℕ) (pid : Fin S.degree) : List ℕ :=
  List.range' (pid * S.numNodes l) (S.numNodes l)

/-- `buffer_length(l)`. -/
def bufferLength (T : Type*) [Pod T] (l : ℕ) : ℕ := S.numNodes l * Pod.size T

/-- `send_buffer_optimized(l, pid, send_bufs)`: the nodes of level `l` that have a child of `pid`. -/
def sendBufferOptimized (l : ℕ) (pid : Fin S.degree) : List ℕ :=
  (List.range (S.numNodes l)).filter fun i => (S.children l i).any fun c => c / S.numNodes l == pid

/-- `buffer_length_optimized(l, pid)`. -/
def bufferLengthOptimized (T : Type*) [Pod T] (l : ℕ) (pid : Fin S.degree) : ℕ :=
  (List.range (S.numNodes l)).foldl
    (fun result i =>
      if (S.children l i).any (fun c => c / S.numNodes l == pid) then result + Pod.size T else result) 0

/-- `receive_buffer_optimized(l, pid)`: the valid slots of `pid` in level `l + 1`. -/
def receiveBufferOptimized (l : ℕ) (pid : Fin S.degree) : List ℕ :=
  (List.range' (pid * S.numNodes l) (S.numNodes l)).filter (S.valid (l + 1))

/-- The slots of level 1 are the labels of one relayer. -/
theorem interactiveConsistencyVector_eq (lv : Levels T) :
    S.interactiveConsistencyVector lv = (List.finRange S.degree).map fun p => lv 1 (S.node [p]) := by
  have hrange : List.range S.degree = (List.finRange S.degree).map Fin.val := by simp
  rw [interactiveConsistencyVector, hrange, List.map_map]
  apply List.map_congr_left
  intro p _
  simp [node]

/-! ## Copying the own level -/

theorem copyCurrentLevel_of_ne {l l' : ℕ} (pid : Fin S.degree) (lv : Levels T) (n : ℕ)
    (h : l' ≠ l + 1) : S.copyCurrentLevel l pid lv l' n = lv l' n := if_neg fun h' => h h'.1

theorem copyCurrentLevel_own (pid : Fin S.degree) (σ : List (Fin S.degree)) (lv : Levels T) :
    S.copyCurrentLevel σ.length pid lv (σ.length + 1) (S.node (pid :: σ)) = lv σ.length (S.node σ) := by
  have := S.node_lt σ
  rw [copyCurrentLevel, node_cons, if_pos ⟨rfl, by omega, by omega⟩, Nat.add_sub_cancel_left]

theorem copyCurrentLevel_other {pid p : Fin S.degree} (h : p ≠ pid) (σ : List (Fin S.degree))
    (lv : Levels T) :
    S.copyCurrentLevel σ.length pid lv (σ.length + 1) (S.node (p :: σ))
      = lv (σ.length + 1) (S.node (p :: σ)) := by
  apply if_neg
  rintro ⟨-, hlo, hhi⟩
  refine h (Fin.ext ?_)
  have hdiv : S.node (p :: σ) / S.numNodes σ.length = pid :=
    Nat.div_eq_of_lt_le hlo (by rw [Nat.succ_mul]; exact hhi)
  rw [← S.node_cons_div p σ, hdiv]

/-! ## The optimized frames -/

/-- The sender lists the nodes whose label does not name it yet. -/
theorem mem_sendBufferOptimized {pid : Fin S.degree} {σ : List (Fin S.degree)} :
    S.node σ ∈ S.sendBufferOptimized σ.length pid ↔ (pid :: σ).Nodup := by
  rw [sendBufferOptimized, List.mem_filter, List.mem_range, List.any_eq_true]
  constructor
  · rintro ⟨-, c, hc, hdiv⟩
    by_cases hσ : σ.Nodup
    · obtain ⟨x, hx, rfl⟩ := (S.mem_children_node hσ).mp hc
      have hxp : x = pid := Fin.ext (by simpa [node_cons_div] using hdiv)
      exact hxp ▸ hx
    · have hinv : S.valid σ.length (S.node σ) = false := by
        rw [← Bool.not_eq_true, S.valid_node]
        exact hσ
      rw [S.children_of_invalid hinv] at hc
      exact absurd hc List.not_mem_nil
  · intro h
    have hσ := (List.nodup_cons.mp h).2
    exact ⟨S.node_lt σ, S.node (pid :: σ), (S.mem_children_node hσ).mpr ⟨pid, h, rfl⟩,
      by simp [node_cons_div]⟩

/-- The k-th slot of the receiver is the child of the k-th node of the sender. -/
theorem receiveBufferOptimized_eq (l : ℕ) (pid : Fin S.degree) :
    S.receiveBufferOptimized l pid
      = (S.sendBufferOptimized l pid).map fun i => pid * S.numNodes l + i := by
  rw [receiveBufferOptimized, sendBufferOptimized, List.range'_eq_map_range, List.filter_map]
  congr 1
  apply List.filter_congr
  intro i hi
  obtain ⟨σ, rfl, rfl⟩ := S.exists_node (List.mem_range.mp hi)
  have hsend : S.node σ ∈ S.sendBufferOptimized σ.length pid ↔ (pid :: σ).Nodup :=
    S.mem_sendBufferOptimized
  rw [sendBufferOptimized, List.mem_filter] at hsend
  have hvalid := S.valid_node (pid :: σ)
  rw [List.length_cons, node_cons] at hvalid
  rw [Function.comp_apply, Bool.eq_iff_iff, hvalid, ← hsend]
  exact ⟨And.right, fun h => ⟨hi, h⟩⟩

/-- The length that the sender computes with the receiver's id is the size of its own blocks. -/
theorem bufferLengthOptimized_eq (T : Type*) [Pod T] (l : ℕ) (pid : Fin S.degree) :
    S.bufferLengthOptimized T l pid = (S.sendBufferOptimized l pid).length * Pod.size T := by
  have hloop : ∀ (p : ℕ → Bool) (is : List ℕ) (acc : ℕ),
      is.foldl (fun result i => if p i then result + Pod.size T else result) acc
        = acc + (is.filter p).length * Pod.size T := by
    intro p is
    induction is with
    | nil => intro acc; simp
    | cons i is ih =>
      intro acc
      rw [List.foldl_cons, ih]
      by_cases hi : p i
      · rw [if_pos hi, List.filter_cons_of_pos hi, List.length_cons, Nat.succ_mul]
        omega
      · rw [if_neg hi, List.filter_cons_of_neg hi]
  rw [bufferLengthOptimized, sendBufferOptimized, hloop, Nat.zero_add]

/-- Swapping two processes in the labels turns the nodes without the one into the nodes without the
other. -/
theorem length_sendBufferOptimized_le (l : ℕ) (p q : Fin S.degree) :
    (S.sendBufferOptimized l p).length ≤ (S.sendBufferOptimized l q).length := by
  have hnodup : ∀ r, (S.sendBufferOptimized l r).Nodup := fun r => List.nodup_range.filter _
  rw [← List.toFinset_card_of_nodup (hnodup p), ← List.toFinset_card_of_nodup (hnodup q)]
  refine Finset.card_le_card_of_forall_subsingleton
    (fun i j => ∃ σ : List (Fin S.degree), σ.length = l ∧ S.node σ = i
      ∧ S.node (σ.map (Equiv.swap p q)) = j) ?_ ?_
  · intro i hi
    have hmem := List.mem_toFinset.mp hi
    obtain ⟨σ, rfl, rfl⟩ := S.exists_node (List.mem_range.mp (List.mem_filter.mp hmem).1)
    have hσ := (S.mem_sendBufferOptimized.mp hmem).map (Equiv.swap p q).injective
    rw [List.map_cons, Equiv.swap_apply_left] at hσ
    refine ⟨_, List.mem_toFinset.mpr ?_, σ, rfl, rfl, rfl⟩
    rw [← List.length_map (Equiv.swap p q)]
    exact S.mem_sendBufferOptimized.mpr hσ
  · rintro j - i ⟨-, σ, hσ, rfl, hj⟩ i' ⟨-, τ, hτ, rfl, hj'⟩
    have hmap := S.node_injective (by rw [List.length_map, List.length_map, hσ, hτ]) (hj.trans hj'.symm)
    rw [List.map_injective_iff.mpr (Equiv.swap p q).injective hmap]

theorem length_sendBufferOptimized_eq (l : ℕ) (p q : Fin S.degree) :
    (S.sendBufferOptimized l p).length = (S.sendBufferOptimized l q).length :=
  le_antisymm (S.length_sendBufferOptimized_le l p q) (S.length_sendBufferOptimized_le l q p)

/-- **Sender and receiver agree on a frame.** The `k`-th block of the sender is a node exactly when the
`k`-th slot of the receiver is the child of that node, and the length that any process computes is that of
the blocks of every sender and of the slots of every receiver. -/
theorem frame_layout_agrees (T : Type*) [Pod T] (l : ℕ) (p q : Fin S.degree) :
    (∀ k i : ℕ, (S.sendBufferOptimized l p)[k]? = some i
        ↔ (S.receiveBufferOptimized l p)[k]? = some (p * S.numNodes l + i))
      ∧ S.bufferLengthOptimized T l q = (S.sendBufferOptimized l p).length * Pod.size T
      ∧ S.bufferLengthOptimized T l q = (S.receiveBufferOptimized l p).length * Pod.size T := by
  have hblocks : S.bufferLengthOptimized T l q = (S.sendBufferOptimized l p).length * Pod.size T := by
    rw [bufferLengthOptimized_eq, S.length_sendBufferOptimized_eq l q p]
  refine ⟨fun k i => ?_, hblocks, ?_⟩
  · rw [receiveBufferOptimized_eq, List.getElem?_map, Option.map_eq_some_iff]
    constructor
    · exact fun h => ⟨i, h, rfl⟩
    · rintro ⟨j, hj, heq⟩
      rwa [Nat.add_left_cancel heq] at hj
  · rw [hblocks, receiveBufferOptimized_eq, List.length_map]

/-! ## Layouts -/

/-- Which nodes of a level a process sends, and into which slots its peers put them. -/
structure Layout where
  send : ℕ → Fin S.degree → List ℕ
  receive : ℕ → Fin S.degree → List ℕ
  send_lt : ∀ {l pid i}, i ∈ send l pid → i < S.numNodes l
  send_nodup : ∀ l pid, (send l pid).Nodup
  aligned : ∀ l pid, receive l pid = (send l pid).map fun i => pid * S.numNodes l + i

/-- The frames of `BFTKVS::job`. -/
def optimized : S.Layout where
  send := S.sendBufferOptimized
  receive := S.receiveBufferOptimized
  send_lt h := List.mem_range.mp (List.mem_filter.mp h).1
  send_nodup _ _ := List.nodup_range.filter _
  aligned := S.receiveBufferOptimized_eq

/-- Whole levels. -/
def plain : S.Layout where
  send l _ := S.sendBuffer l
  receive := S.receiveBuffer
  send_lt h := List.mem_range.mp h
  send_nodup _ _ := List.nodup_range
  aligned _ _ := List.range'_eq_map_range

namespace Layout

variable {S} (L : S.Layout)

theorem mem_receive {l : ℕ} {pid : Fin S.degree} {n : ℕ} :
    n ∈ L.receive l pid ↔ ∃ i ∈ L.send l pid, n = pid * S.numNodes l + i := by
  rw [L.aligned, List.mem_map]
  exact exists_congr fun i => and_congr_right fun _ => eq_comm

/-- The slots of one peer are not slots of another. -/
theorem node_notMem_receive {p pid : Fin S.degree} (h : p ≠ pid) (σ : List (Fin S.degree)) :
    S.node (p :: σ) ∉ L.receive σ.length pid := by
  rw [mem_receive]
  rintro ⟨i, hi, heq⟩
  refine h (Fin.ext ?_)
  rw [← S.node_cons_div p σ, heq, Nat.add_comm, Nat.mul_comm,
    Nat.add_mul_div_left _ _ (Nat.zero_lt_of_lt (S.node_lt σ)), Nat.div_eq_of_lt (L.send_lt hi),
    Nat.zero_add]

end Layout

end Shape

end Achal
