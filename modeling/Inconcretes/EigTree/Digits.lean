import Inconcretes.EigTree.Shape
import Mathlib.Data.List.Perm.Subperm
import Mathlib.Data.Nat.Factorial.BigOperators

/-!
# The tree in terms of digits

Nothing outside of the constructor knows labels: a slot is a number, and its label is what its digits spell.
This module says what the constructor makes in terms of these digits. The digits of `node σ` are `σ` from the
back (`digits_node`). So the children of a level are the valid slots of the next level, each in one list, and
level `l` has `d! / (d - l)!` of them (`wellShaped`).
-/

namespace Achal

namespace Shape

variable (S : Shape)

/-- The `l` digits of `n` in base `d`, the least significant first. -/
def digits (l n : ℕ) : List ℕ := (List.range l).map fun i => n / S.degree ^ i % S.degree

/-- The valid slots of a level. -/
def validSlots (l : ℕ) : List ℕ := (List.range (S.numNodes l)).filter fun n => S.valid l n

theorem numNodes_eq_pow (l : ℕ) : S.numNodes l = S.degree ^ l := by
  induction l with
  | zero => rfl
  | succ l ih => rw [numNodes_succ, ih, pow_succ]

theorem mem_validSlots {l n : ℕ} : n ∈ S.validSlots l ↔ n < S.numNodes l ∧ S.valid l n = true := by
  rw [validSlots, List.mem_filter, List.mem_range]

theorem nodup_validSlots (l : ℕ) : (S.validSlots l).Nodup := List.nodup_range.filter _

/-- The valid slots are those of the labels without duplicates. -/
theorem mem_validSlots_iff {l n : ℕ} : n ∈ S.validSlots l ↔ ∃ σ, σ.length = l ∧ σ.Nodup ∧ S.node σ = n := by
  rw [mem_validSlots]
  constructor
  · rintro ⟨hn, hv⟩
    obtain ⟨σ, rfl, rfl⟩ := S.exists_node hn
    exact ⟨σ, rfl, (S.valid_node σ).mp hv, rfl⟩
  · rintro ⟨σ, rfl, hσ, rfl⟩
    exact ⟨S.node_lt σ, (S.valid_node σ).mpr hσ⟩

/-! ## Digits and labels -/

/-- A digit behind the leading one does not depend on it. -/
theorem digit_node_cons (p : Fin S.degree) (σ : List (Fin S.degree)) {i : ℕ} (hi : i < σ.length) :
    S.node (p :: σ) / S.degree ^ i % S.degree = S.node σ / S.degree ^ i % S.degree := by
  obtain ⟨k, hk⟩ := Nat.exists_eq_add_of_lt hi
  have hpow : p * S.numNodes σ.length = S.degree ^ i * (p * S.degree ^ k * S.degree) := by
    rw [numNodes_eq_pow, hk]
    ring
  rw [node_cons, hpow, Nat.mul_add_div (Nat.pow_pos p.pos), Nat.mul_comm _ S.degree, Nat.mul_add_mod]

theorem digits_node (σ : List (Fin S.degree)) :
    S.digits σ.length (S.node σ) = (σ.map Fin.val).reverse := by
  induction σ with
  | nil => rfl
  | cons p σ ih =>
    have hlast : S.node (p :: σ) / S.degree ^ σ.length % S.degree = p := by
      rw [← numNodes_eq_pow, node_cons_div, Nat.mod_eq_of_lt p.isLt]
    have hinit : (List.range σ.length).map (fun i => S.node (p :: σ) / S.degree ^ i % S.degree)
        = S.digits σ.length (S.node σ) :=
      List.map_congr_left fun i hi => S.digit_node_cons p σ (List.mem_range.mp hi)
    rw [List.length_cons, digits, List.range_succ, List.map_append, hinit, ih, List.map_singleton, hlast,
      List.map_cons, List.reverse_cons]

theorem nodup_digits_iff (σ : List (Fin S.degree)) :
    (S.digits σ.length (S.node σ)).Nodup ↔ σ.Nodup := by
  rw [digits_node, List.nodup_reverse, List.nodup_map_iff Fin.val_injective]

theorem mem_digits_iff (σ : List (Fin S.degree)) (x : Fin S.degree) :
    (x : ℕ) ∈ S.digits σ.length (S.node σ) ↔ x ∈ σ := by
  rw [digits_node, List.mem_reverse, List.mem_map_of_injective Fin.val_injective]

/-! ## Children -/

theorem mem_children_iff {σ : List (Fin S.degree)} (hσ : σ.Nodup) {c : ℕ} :
    c ∈ S.children σ.length (S.node σ)
      ↔ c < S.numNodes (σ.length + 1) ∧ c % S.numNodes σ.length = S.node σ
        ∧ c / S.numNodes σ.length ∉ S.digits σ.length (S.node σ) := by
  rw [S.mem_children_node hσ]
  constructor
  · rintro ⟨x, hx, rfl⟩
    refine ⟨S.node_lt (x :: σ), S.node_cons_mod x σ, ?_⟩
    rw [S.node_cons_div, mem_digits_iff]
    exact (List.nodup_cons.mp hx).1
  · rintro ⟨hc, hmod, hdiv⟩
    obtain ⟨τ, hτ, rfl⟩ := S.exists_node hc
    obtain ⟨x, τ, rfl⟩ := List.exists_cons_of_length_eq_add_one hτ
    have hlength : τ.length = σ.length := Nat.succ_injective hτ
    rw [← hlength, S.node_cons_mod] at hmod
    obtain rfl := S.node_injective hlength hmod
    rw [S.node_cons_div, mem_digits_iff] at hdiv
    exact ⟨x, List.nodup_cons.mpr ⟨hdiv, hσ⟩, rfl⟩

/-- The children of a slot are in ascending order. -/
theorem pairwise_children (l n : ℕ) : (S.children l n).Pairwise (· < ·) := by
  rw [children]
  split_ifs with hv
  · rw [List.pairwise_map]
    refine (List.pairwise_lt_range.filter _).imp_of_mem fun {i j} hi _ hij => ?_
    have hpos : 0 < S.numNodes l := by
      rw [numNodes_eq_pow]
      exact Nat.pow_pos ((Nat.zero_le i).trans_lt (List.mem_range.mp (List.mem_of_mem_filter hi)))
    exact Nat.add_lt_add_right (Nat.mul_lt_mul_of_pos_right hij hpos) n
  · exact List.Pairwise.nil

/-- The lists of children of a level have the valid slots of the next one, each of them once. -/
theorem perm_children (l : ℕ) : ((S.validSlots l).flatMap (S.children l)).Perm (S.validSlots (l + 1)) := by
  refine (List.perm_ext_iff_of_nodup ?_ (S.nodup_validSlots _)).mpr fun c => ?_
  · refine List.nodup_flatMap.mpr ⟨fun n _ => (S.pairwise_children l n).imp ne_of_lt, ?_⟩
    refine (S.nodup_validSlots l).imp_of_mem fun {n m} hn hm hne c hcn hcm => hne ?_
    obtain ⟨σ, rfl, hσ, rfl⟩ := S.mem_validSlots_iff.mp hn
    obtain ⟨τ, hlength, hτ, rfl⟩ := S.mem_validSlots_iff.mp hm
    rw [← hlength] at hcm
    rw [← ((S.mem_children_iff hσ).mp hcn).2.1, ← ((S.mem_children_iff hτ).mp hcm).2.1, hlength]
  · rw [List.mem_flatMap, mem_validSlots_iff]
    constructor
    · rintro ⟨n, hn, hc⟩
      obtain ⟨σ, rfl, hσ, rfl⟩ := S.mem_validSlots_iff.mp hn
      obtain ⟨x, hx, rfl⟩ := (S.mem_children_node hσ).mp hc
      exact ⟨x :: σ, rfl, hx, rfl⟩
    · rintro ⟨τ, hτ, hnodup, rfl⟩
      obtain ⟨x, σ, rfl⟩ := List.exists_cons_of_length_eq_add_one hτ
      obtain rfl : σ.length = l := Nat.succ_injective hτ
      have hσ : σ.Nodup := hnodup.of_cons
      exact ⟨S.node σ, S.mem_validSlots_iff.mpr ⟨σ, rfl, hσ, rfl⟩,
        (S.mem_children_node hσ).mpr ⟨x, hnodup, rfl⟩⟩

theorem length_validSlots (l : ℕ) : (S.validSlots l).length = S.degree.descFactorial l := by
  induction l with
  | zero => rfl
  | succ l ih =>
    have hlengths : (S.validSlots l).map (fun n => (S.children l n).length)
        = (S.validSlots l).map fun _ => S.degree - l := by
      refine List.map_congr_left fun n hn => ?_
      obtain ⟨σ, rfl, hσ, rfl⟩ := S.mem_validSlots_iff.mp hn
      exact S.length_children_node hσ
    rw [← (S.perm_children l).length_eq, List.length_flatMap, hlengths, List.map_const', List.sum_replicate,
      ih, Nat.nsmul_eq_mul, Nat.descFactorial_succ, Nat.mul_comm]

/-! ## A level -/

/-- The lists of children of level `l`: they partition the valid slots of the next level, and those of a valid
slot `n` are the `d - l` numbers that put a new digit in front of the digits of `n`, in ascending order. -/
structure ChildrenShaped (l : ℕ) : Prop where
  partition : ((S.validSlots l).flatMap (S.children l)).Perm (S.validSlots (l + 1))
  length_eq : ∀ n ∈ S.validSlots l, (S.children l n).length = S.degree - l
  ascending : ∀ n ∈ S.validSlots l, (S.children l n).Pairwise (· < ·)
  child : ∀ n ∈ S.validSlots l, ∀ c ∈ S.children l n,
    c < S.numNodes (l + 1) ∧ c % S.numNodes l = n ∧ c / S.numNodes l ∉ S.digits l n

/-- What the constructor makes of a level. -/
structure WellShaped (l : ℕ) : Prop where
  valid_iff : ∀ n < S.numNodes l, S.valid l n = true ↔ (S.digits l n).Nodup
  children_shaped : l < S.height → S.ChildrenShaped l
  children_of_invalid : ∀ n < S.numNodes l, S.valid l n = false → S.children l n = []
  length_validSlots : (S.validSlots l).length = S.degree.factorial / (S.degree - l).factorial

theorem childrenShaped (l : ℕ) : S.ChildrenShaped l where
  partition := S.perm_children l
  length_eq n hn := by
    obtain ⟨σ, rfl, hσ, rfl⟩ := S.mem_validSlots_iff.mp hn
    exact S.length_children_node hσ
  ascending n _ := S.pairwise_children l n
  child n hn c hc := by
    obtain ⟨σ, rfl, hσ, rfl⟩ := S.mem_validSlots_iff.mp hn
    exact (S.mem_children_iff hσ).mp hc

/-- **The shape of the tree**, for every size. -/
theorem wellShaped (S : Shape) (l : ℕ) (hl : l ≤ S.height) : S.WellShaped l where
  valid_iff n hn := by
    obtain ⟨σ, rfl, rfl⟩ := S.exists_node hn
    rw [S.valid_node, S.nodup_digits_iff]
  children_shaped _ := S.childrenShaped l
  children_of_invalid _ _ hv := S.children_of_invalid hv
  length_validSlots := by
    rw [S.length_validSlots l, Nat.descFactorial_eq_div (hl.trans S.height_le)]

theorem wellShaped_leaves : four.WellShaped 2 := wellShaped four 2 (by decide)

end Shape

end Achal
