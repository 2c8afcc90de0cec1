import Inconcretes.BftKvs.Node
import Inconcretes.EigTree.Crc32
import Inconcretes.EigTree.Reduce

/-!
# Equal values and equal checksums

`reduce()` is meant to count equal children, and it counts children with equal CRC-32. The two differ
when a group of colliding children exceeds the threshold and the last child of the group does not have
the value that counting selects. `countsEqualValues_iff` says that nothing else makes them differ: over all
contents of the leaves, `reduce()` counts equal values exactly when no collision decides a vote among the
values that exact counting gives the nodes.

A collision is easy to make, since CRC-32 is linear: `collidingLeaves` differs from a fault-free tree in
the leaf of one relayer, and that leaf is adopted against two equal children.
-/

namespace Achal

open Voting

namespace Shape

variable (S : Shape) {T : Type*} [Pod T] [DecidableEq T]

/-- Every valid inner node of the tree holds the value that more than `d - h - l` of its children hold,
and zero when there is none. -/
def CountsEqualValues (lv : Levels T) : Prop :=
  ∀ l < S.height, ∀ n < S.numNodes l, S.valid l n = true →
    CountsTo (S.degree - S.height - l) Pod.zero ((S.children l n).map (lv (l + 1))) (lv l n)

/-- The values of the nodes `k` levels above the leaves, counted exactly. -/
def exactAbove (leaves : ℕ → T) : ℕ → ℕ → T
  | 0, n => leaves n
  | k + 1, n =>
    let l := S.height - (k + 1)
    exactVote (S.degree - S.height - l) Pod.zero ((S.children l n).map (exactAbove leaves k))

/-- The values of level `l`, counted exactly from the leaves. -/
def exactValue (leaves : ℕ → T) (l : ℕ) : ℕ → T := S.exactAbove leaves (S.height - l)

/-- A node with exactly counted children is counted exactly. -/
def Follows (leaves : ℕ → T) (lv : Levels T) : Prop :=
  ∀ l < S.height, ∀ n < S.numNodes l, S.valid l n = true →
    (S.children l n).map (lv (l + 1)) = (S.children l n).map (S.exactValue leaves (l + 1)) →
    lv l n = S.exactValue leaves l n

/-- No checksum collision among the exactly counted children of a valid node decides its vote. -/
def CollisionsHarmless (crc : List UInt8 → UInt32) (leaves : ℕ → T) : Prop :=
  ∀ l < S.height, ∀ n < S.numNodes l, S.valid l n = true →
    Harmless (checksum crc) (S.degree - S.height - l) Pod.zero
      ((S.children l n).map (S.exactValue leaves (l + 1)))

theorem exactValue_leaf (leaves : ℕ → T) : S.exactValue leaves S.height = leaves := by
  rw [exactValue, Nat.sub_self]
  rfl

theorem exactValue_inner (leaves : ℕ → T) {l : ℕ} (hl : l < S.height) (n : ℕ) :
    S.exactValue leaves l n
      = exactVote (S.degree - S.height - l) Pod.zero
          ((S.children l n).map (S.exactValue leaves (l + 1))) := by
  obtain ⟨k, hk⟩ : ∃ k, S.height - l = k + 1 := ⟨S.height - (l + 1), by omega⟩
  have hl' : S.height - (k + 1) = l := by omega
  have hk' : S.height - (l + 1) = k := by omega
  rw [exactValue, exactValue, hk, hk', exactAbove, hl']

variable {S}

theorem Tolerates.children_lt (hS : S.Tolerates) {l n : ℕ} (hl : l < S.height) (hn : n < S.numNodes l)
    (hv : S.valid l n = true) {A : Type*} (val : ℕ → A) :
    ((S.children l n).map val).length < 2 * (S.degree - S.height - l + 1) := by
  obtain ⟨σ, rfl, rfl⟩ := S.exists_node hn
  rw [List.length_map, S.length_children_node ((S.valid_node σ).mp hv)]
  exact hS.strict hl

omit [DecidableEq T] in
/-- `reduce_eq_voteBy` over slots. -/
theorem Tolerates.reduce_slot (hS : S.Tolerates) (crc : List UInt8 → UInt32)
    (order : ℕ → ℕ → IterOrder UInt32 ℕ) (lv : Levels T) {l n : ℕ} (hl : l < S.height)
    (hn : n < S.numNodes l) (hv : S.valid l n = true) :
    S.reduce crc order lv l n
      = voteBy (checksum crc) (S.degree - S.height - l) Pod.zero
          ((S.children l n).map (S.reduce crc order lv (l + 1))) := by
  obtain ⟨σ, rfl, rfl⟩ := S.exists_node hn
  have hσ := (S.valid_node σ).mp hv
  rw [hS.reduce_eq_voteBy crc order lv hσ hl, map_children_eq_votes _ hσ]

/-- From the leaves down, every valid node holds its exactly counted value. -/
theorem reduce_eq_exactValue (crc : List UInt8 → UInt32) (order : ℕ → ℕ → IterOrder UInt32 ℕ)
    (lv : Levels T) (hexact : S.Follows (lv S.height) (S.reduce crc order lv))
    {σ : List (Fin S.degree)} (hσ : σ.Nodup) (hl : σ.length ≤ S.height) :
    S.reduce crc order lv σ.length (S.node σ) = S.exactValue (lv S.height) σ.length (S.node σ) := by
  refine S.label_induction (fun σ hσ hlen => ?_) (fun σ hσ hlt ih => ?_) hσ hl
  · rw [hlen, S.exactValue_leaf, S.reduce_leaf crc order lv le_rfl]
  · refine hexact _ hlt _ (S.node_lt σ) ((S.valid_node σ).mpr hσ) ?_
    apply List.map_congr_left
    intro c hc
    obtain ⟨x, hx, rfl⟩ := (S.mem_children_node hσ).mp hc
    exact ih x hx

theorem map_children_reduce (crc : List UInt8 → UInt32) (order : ℕ → ℕ → IterOrder UInt32 ℕ)
    (lv : Levels T) (hexact : S.Follows (lv S.height) (S.reduce crc order lv)) {l n : ℕ}
    (hl : l < S.height) (hn : n < S.numNodes l) (hv : S.valid l n = true) :
    (S.children l n).map (S.reduce crc order lv (l + 1))
      = (S.children l n).map (S.exactValue (lv S.height) (l + 1)) := by
  obtain ⟨σ, rfl, rfl⟩ := S.exists_node hn
  have hσ := (S.valid_node σ).mp hv
  apply List.map_congr_left
  intro c hc
  obtain ⟨x, hx, rfl⟩ := (S.mem_children_node hσ).mp hc
  exact reduce_eq_exactValue crc order lv hexact hx hl

/-- **When reduction counts equal values.** For every content of the leaves, at the tolerated sizes:
exactly when no collision decides a vote. -/
theorem countsEqualValues_iff (S : Shape) (hS : S.Tolerates) (crc : List UInt8 → UInt32)
    (order : ℕ → ℕ → IterOrder UInt32 ℕ) (lv : Levels T) :
    S.CountsEqualValues (S.reduce crc order lv) ↔ S.CollisionsHarmless crc (lv S.height) := by
  constructor
  · intro hcounts l hl n hn hv
    have hexact : S.Follows (lv S.height) (S.reduce crc order lv) := by
      intro l hl n hn hv hchildren
      rw [S.exactValue_inner _ hl, ← hchildren]
      exact (countsTo_iff (hS.children_lt hl hn hv _)).mp (hcounts l hl n hn hv)
    have hvote := (countsTo_iff (hS.children_lt hl hn hv _)).mp (hcounts l hl n hn hv)
    rw [hS.reduce_slot crc order lv hl hn hv] at hvote
    rw [← map_children_reduce crc order lv hexact hl hn hv]
    exact (voteBy_eq_iff (hS.children_lt hl hn hv _)).mp hvote
  · intro hharmless l hl n hn hv
    have hexact : S.Follows (lv S.height) (S.reduce crc order lv) := by
      intro l hl n hn hv hchildren
      rw [S.exactValue_inner _ hl, hS.reduce_slot crc order lv hl hn hv, hchildren]
      exact (voteBy_eq_iff (hS.children_lt hl hn hv _)).mpr (hharmless l hl n hn hv)
    rw [countsTo_iff (hS.children_lt hl hn hv _), hS.reduce_slot crc order lv hl hn hv,
      map_children_reduce crc order lv hexact hl hn hv]
    exact (voteBy_eq_iff (hS.children_lt hl hn hv _)).mpr (hharmless l hl n hn hv)

/-! ## A forged relay -/

/-- A node of the sizes that the tests use, with the key `k` and the value `v` at the time `time`. -/
def stamped (time : Uint64) : EigNode (oneTuple 7 15) :=
  (Pod.zero : EigNode (oneTuple 7 15)).push ⟨[0x6B], time, [0x76]⟩

/-- Four processes, two rounds. Every leaf holds the node stamped 1, but for what process 3 relays about
process 0: the same node, with the polynomial of CRC-32 added to its time. -/
def collidingLeaves : Levels (EigNode (oneTuple 7 15)) :=
  fun _ n => if n = four.node [3, 0] then stamped 0x1DB710640 else stamped 1

theorem countsEqualValues_iff_collidingLeaves :
    four.CountsEqualValues
        (four.reduce crc32 (fun _ _ => IterOrder.newestFirst _ _) collidingLeaves)
      ↔ four.CollisionsHarmless crc32 (collidingLeaves four.height) :=
  countsEqualValues_iff four ⟨by decide, by decide⟩ crc32 _ collidingLeaves

/-- Node 0 of level 1 has two children stamped 1, and two is more than `4 - 2 - 1`; it adopts the third. -/
theorem not_countsEqualValues_collidingLeaves :
    four.Tolerates ∧ ¬four.CountsEqualValues
      (four.reduce crc32 (fun _ _ => IterOrder.newestFirst _ _) collidingLeaves) := by
  refine ⟨⟨by decide, by decide⟩, fun h => ?_⟩
  have hnode := (h 1 (by decide) 0 (by decide) (by decide)).1 (stamped 1)
  rw [show four.reduce crc32 (fun _ _ => IterOrder.newestFirst _ _) collidingLeaves (1 + 1)
    = collidingLeaves 2 from funext (four.reduce_leaf crc32 _ collidingLeaves le_rfl)] at hnode
  have hcount : four.degree - four.height - 1
      < ((four.children 1 0).map (collidingLeaves 2)).count (stamped 1) := by decide +kernel
  have hadopted : four.reduce crc32 (fun _ _ => IterOrder.newestFirst _ _) collidingLeaves 1 0
      ≠ stamped 1 := by decide +kernel
  exact hadopted (hnode hcount)

end Shape

end Achal
