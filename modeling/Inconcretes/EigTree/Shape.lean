import Mathlib.Data.List.FinRange
import Mathlib.Data.List.Nodup
import Mathlib.Tactic.Ring

/-!
# The shape of an EIG tree

`EIGTree(d, h)` keeps the nodes of level `l` in one array of `d ^ l` slots. The base-`d` digits of a slot
number are the label of the node, most significant digit first, and the most significant digit is the
newest relayer: the children of node `n` are the slots `i * num_nodes[l] + n`. A slot is valid when no
process occurs twice in its label.

`Shape.node` turns a label into its slot. Slots are only ever read through it: every slot of a level is
`node σ` for one label `σ` of that length (`Shape.exists_node`), it is valid exactly when `σ` has no
duplicates (`Shape.valid_node`), and its children are the slots of the labels `x :: σ`
(`Shape.children_node`).

Slot numbers are natural numbers. The constructor counts through the slots of each level with an `int`, so its
loops only end on trees whose levels have at most `2 ^ 31` slots, and there no counter wraps.
-/

namespace Achal

/-- The arguments of the constructor `EIGTree(uint32_t d, uint32_t h)`, with its assertion. -/
structure Shape where
  degree : ℕ
  height : ℕ
  height_le : height ≤ degree
  degree_lt : degree < 2 ^ 32

namespace Shape

/-- Four processes and two rounds, the smallest tree of the tests. -/
abbrev four : Shape := ⟨4, 2, by decide, by decide⟩

instance instNeZeroFour : NeZero four.degree := ⟨by decide⟩

variable (S : Shape)

/-- `num_nodes[l]`. -/
def numNodes : ℕ → ℕ
  | 0 => 1
  | l + 1 => numNodes l * S.degree

/-- The loop that converts a node number to its labels: `i` digits of `temp` are left, `labels` marks
the digits seen so far, and `valid` turns false when a digit was seen before. -/
def scanLabels : ℕ → ℕ → (ℕ → Bool) → Bool → (ℕ → Bool) × Bool
  | 0, _, labels, valid => (labels, valid)
  | i + 1, temp, labels, valid =>
    let c := temp / S.numNodes i
    scanLabels i (temp % S.numNodes i) (Function.update labels c true) (valid && !labels c)

/-- The marks the constructor holds after the digit loop for node `n` of level `l`. -/
def labels (l n : ℕ) : ℕ → Bool := (S.scanLabels l n (fun _ => false) true).1

/-- `valid[l][n]`. -/
def valid (l n : ℕ) : Bool := (S.scanLabels l n (fun _ => false) true).2

/-- `children[l][n]`. -/
def children (l n : ℕ) : List ℕ :=
  if S.valid l n then
    ((List.range S.degree).filter fun i => !S.labels l n i).map fun i => i * S.numNodes l + n
  else []

/-! ## Labels and slots -/

/-- The slot of a label, newest relayer first. -/
def node : List (Fin S.degree) → ℕ
  | [] => 0
  | p :: σ => p * S.numNodes σ.length + node σ

@[simp] theorem numNodes_zero : S.numNodes 0 = 1 := rfl

theorem numNodes_succ (l : ℕ) : S.numNodes (l + 1) = S.numNodes l * S.degree := rfl

theorem node_cons (p : Fin S.degree) (σ : List (Fin S.degree)) :
    S.node (p :: σ) = p * S.numNodes σ.length + S.node σ := rfl

theorem node_lt (σ : List (Fin S.degree)) : S.node σ < S.numNodes σ.length := by
  induction σ with
  | nil => simp [node]
  | cons p σ ih =>
    rw [node_cons, List.length_cons, numNodes_succ]
    calc p * S.numNodes σ.length + S.node σ
        < p * S.numNodes σ.length + S.numNodes σ.length := Nat.add_lt_add_left ih _
      _ = (p + 1) * S.numNodes σ.length := by ring
      _ ≤ S.degree * S.numNodes σ.length := Nat.mul_le_mul_right _ p.isLt
      _ = S.numNodes σ.length * S.degree := Nat.mul_comm _ _

/-- The newest relayer is the leading digit. -/
theorem node_cons_div (p : Fin S.degree) (σ : List (Fin S.degree)) :
    S.node (p :: σ) / S.numNodes σ.length = p := by
  rw [node_cons, Nat.add_comm, Nat.mul_comm,
    Nat.add_mul_div_left _ _ (Nat.zero_lt_of_lt (S.node_lt σ)), Nat.div_eq_of_lt (S.node_lt σ),
    Nat.zero_add]

/-- The parent is what remains without the leading digit. -/
theorem node_cons_mod (p : Fin S.degree) (σ : List (Fin S.degree)) :
    S.node (p :: σ) % S.numNodes σ.length = S.node σ := by
  rw [node_cons, Nat.add_comm, Nat.mul_comm, Nat.add_mul_mod_self_left,
    Nat.mod_eq_of_lt (S.node_lt σ)]

/-- Every slot of a level is the slot of a label. -/
theorem exists_node {l n : ℕ} (hn : n < S.numNodes l) : ∃ σ, σ.length = l ∧ S.node σ = n := by
  induction l generalizing n with
  | zero => exact ⟨[], rfl, (Nat.lt_one_iff.mp hn).symm⟩
  | succ l ih =>
    rw [numNodes_succ] at hn
    have hpos : 0 < S.numNodes l := Nat.pos_of_mul_pos_right (Nat.zero_lt_of_lt hn)
    obtain ⟨σ, rfl, hσ⟩ := ih (Nat.mod_lt n hpos)
    refine ⟨⟨n / S.numNodes σ.length, Nat.div_lt_of_lt_mul hn⟩ :: σ, rfl, ?_⟩
    rw [node_cons, hσ]
    exact Nat.div_add_mod' n _

theorem node_injective {σ τ : List (Fin S.degree)} (hl : σ.length = τ.length)
    (h : S.node σ = S.node τ) : σ = τ := by
  induction σ generalizing τ with
  | nil => exact (List.length_eq_zero_iff.mp hl.symm).symm
  | cons p σ ih =>
    cases τ with
    | nil => exact absurd hl (by simp)
    | cons q τ =>
      have hl' : σ.length = τ.length := by simpa using hl
      have hdiv : (p : ℕ) = q := by rw [← S.node_cons_div p σ, h, hl', S.node_cons_div]
      have hmod : S.node σ = S.node τ := by rw [← S.node_cons_mod p σ, h, hl', S.node_cons_mod]
      rw [Fin.ext hdiv, ih hl' hmod]

/-! ## What the constructor computes -/

/-- The digit loop marks the digits of the label, and finds the duplicates. -/
theorem scanLabels_node (σ : List (Fin S.degree)) (labels : ℕ → Bool) (valid : Bool) :
    (∀ c : Fin S.degree, (S.scanLabels σ.length (S.node σ) labels valid).1 c
        = (labels c || decide (c ∈ σ)))
      ∧ ((S.scanLabels σ.length (S.node σ) labels valid).2 = true
        ↔ valid = true ∧ σ.Nodup ∧ ∀ x ∈ σ, labels x = false) := by
  induction σ generalizing labels valid with
  | nil => simp [scanLabels]
  | cons p σ ih =>
    rw [List.length_cons, scanLabels, node_cons_div, node_cons_mod]
    obtain ⟨hmark, hvalid⟩ := ih (Function.update labels p true) (valid && !labels p)
    have hupd : ∀ c : Fin S.degree, Function.update labels (p : ℕ) true c = (labels c || decide (c = p)) := by
      intro c
      by_cases h : c = p
      · subst h
        simp
      · rw [Function.update_of_ne (fun h' => h (Fin.ext h'))]
        simp [h]
    constructor
    · intro c
      rw [hmark c, hupd c, Bool.or_assoc]
      simp [List.mem_cons]
    · rw [hvalid, List.nodup_cons]
      simp only [hupd, Bool.and_eq_true, Bool.not_eq_true', Bool.or_eq_false_iff,
        decide_eq_false_iff_not, List.mem_cons, forall_eq_or_imp]
      constructor
      · rintro ⟨⟨hv, hp⟩, hnd, hall⟩
        exact ⟨hv, ⟨fun hmem => (hall p hmem).2 rfl, hnd⟩, hp, fun x hx => (hall x hx).1⟩
      · rintro ⟨hv, ⟨hmem, hnd⟩, hp, hall⟩
        exact ⟨⟨hv, hp⟩, hnd, fun x hx => ⟨hall x hx, fun h => hmem (h ▸ hx)⟩⟩

theorem labels_node (σ : List (Fin S.degree)) (c : Fin S.degree) :
    S.labels σ.length (S.node σ) c = decide (c ∈ σ) := by
  rw [labels, (S.scanLabels_node σ _ _).1 c, Bool.false_or]

/-- A slot is valid exactly when its label names no process twice. -/
theorem valid_node (σ : List (Fin S.degree)) : S.valid σ.length (S.node σ) = true ↔ σ.Nodup := by
  rw [valid, (S.scanLabels_node σ _ _).2]
  simp

/-- The children of a valid slot prepend one more relayer to its label, in ascending order. -/
theorem children_node {σ : List (Fin S.degree)} (hσ : σ.Nodup) :
    S.children σ.length (S.node σ)
      = ((List.finRange S.degree).filter (· ∉ σ)).map fun x => S.node (x :: σ) := by
  have hrange : List.range S.degree = (List.finRange S.degree).map Fin.val := by simp
  rw [children, if_pos ((S.valid_node σ).mpr hσ), hrange, List.filter_map, List.map_map]
  congr 1
  apply List.filter_congr
  intro c _
  rw [Function.comp_apply, labels_node, decide_not]

theorem mem_children_node {σ : List (Fin S.degree)} (hσ : σ.Nodup) {c : ℕ} :
    c ∈ S.children σ.length (S.node σ) ↔ ∃ x, (x :: σ).Nodup ∧ S.node (x :: σ) = c := by
  simp only [S.children_node hσ, List.mem_map, List.mem_filter, List.mem_finRange, true_and,
    decide_eq_true_eq, List.nodup_cons, hσ, and_true]

/-- From the labels of one length down to the shorter ones. -/
@[elab_as_elim]
theorem label_induction {m : ℕ} {motive : List (Fin S.degree) → Prop}
    (level : ∀ σ, σ.Nodup → σ.length = m → motive σ)
    (inner : ∀ σ, σ.Nodup → σ.length < m → (∀ x, (x :: σ).Nodup → motive (x :: σ)) → motive σ)
    {σ : List (Fin S.degree)} (hσ : σ.Nodup) (hl : σ.length ≤ m) : motive σ := by
  -- on the distance to the level
  obtain ⟨k, hk⟩ : ∃ k, σ.length + k = m := ⟨_, Nat.add_sub_cancel' hl⟩
  induction k generalizing σ with
  | zero => exact level σ hσ hk
  | succ k ih =>
    refine inner σ hσ (by omega) fun x hx => ih hx ?_ ?_
    · rw [List.length_cons]
      omega
    · rw [List.length_cons]
      omega

theorem children_of_invalid {l n : ℕ} (h : S.valid l n = false) : S.children l n = [] := by
  rw [children, h]
  rfl

/-- A valid slot of level `l` has `d - l` children. -/
theorem length_children_node {σ : List (Fin S.degree)} (hσ : σ.Nodup) :
    (S.children σ.length (S.node σ)).length = S.degree - σ.length := by
  rw [S.children_node hσ, List.length_map]
  have hsplit := List.length_eq_length_filter_add (l := List.finRange S.degree) (fun x => decide (x ∈ σ))
  have hin : ((List.finRange S.degree).filter fun x => decide (x ∈ σ)).length = σ.length := by
    refine (List.Perm.length_eq ((List.perm_ext_iff_of_nodup ?_ hσ).mpr fun x => ?_))
    · exact (List.nodup_finRange _).filter _
    · simp
  rw [hin, List.length_finRange] at hsplit
  simp only [← decide_not] at hsplit
  omega

end Shape

end Achal
