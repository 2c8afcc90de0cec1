import Mathlib.Algebra.BigOperators.Group.List.Basic
import Mathlib.Data.List.Flatten

/-!
# Nested loops that join lists

For each of some keys a loop over rows, and over the keys of each row, appends the value of a row that has the
key. What it appends lines up with the keys exactly when each of them stands once in all the rows together.
-/

namespace Join

variable {α β κ : Type} [DecidableEq κ] (keys : α → List κ) (value : α → β) (rows : List α)

/-- The values that the loops append for a key. -/
def matched (k : κ) : List β :=
  rows.flatMap fun r => (keys r).flatMap fun k' => if k = k' then [value r] else []

/-- The values that the loops append for some keys. -/
def joined (ks : List κ) : List β := ks.flatMap (matched keys value rows)

/-- A key is matched as often as the rows have it. -/
theorem length_matched [BEq κ] [LawfulBEq κ] (k : κ) :
    (matched keys value rows k).length = (rows.flatMap keys).count k := by
  have hrow : ∀ (ks : List κ) (v : β),
      (ks.flatMap fun k' => if k = k' then [v] else []).length = ks.count k := by
    intro ks v
    induction ks with
    | nil => rfl
    | cons k' ks ih =>
      rw [List.flatMap_cons, List.length_append, ih, List.count_cons, Nat.add_comm]
      by_cases heq : k = k'
      · simp [heq]
      · simp [heq, Ne.symm heq]
  rw [matched, List.length_flatMap, List.count_flatMap]
  exact congrArg List.sum (List.map_congr_left fun r _ => hrow (keys r) (value r))

variable {keys value rows}

theorem mem_matched {k : κ} {v : β} :
    v ∈ matched keys value rows k ↔ ∃ r ∈ rows, k ∈ keys r ∧ v = value r := by
  simp only [matched, List.mem_flatMap]
  refine exists_congr fun r => and_congr_right fun _ => ?_
  constructor
  · rintro ⟨k', hk', hv⟩
    split at hv
    · rename_i heq
      exact ⟨heq ▸ hk', List.mem_singleton.mp hv⟩
    · exact absurd hv List.not_mem_nil
  · rintro ⟨hk, rfl⟩
    exact ⟨k, hk, by rw [if_pos rfl]; exact List.mem_singleton_self _⟩

section Covered

variable [BEq κ] [LawfulBEq κ] {ks : List κ}

/-- As many values as keys: no key stands in the rows twice. -/
theorem length_joined_eq_iff (hks : ∀ k ∈ ks, k ∈ rows.flatMap keys) :
    (joined keys value rows ks).length = ks.length ↔ ∀ k ∈ ks, (rows.flatMap keys).count k = 1 := by
  induction ks with
  | nil => exact iff_of_true rfl nofun
  | cons k ks ih =>
    obtain ⟨hk, hks⟩ := List.forall_mem_cons.mp hks
    have hpos : 0 < (rows.flatMap keys).count k := List.count_pos_iff.mpr hk
    have hle : ks.length ≤ (joined keys value rows ks).length := by
      rw [joined, List.length_flatMap]
      refine (List.length_map ..).symm.trans_le (List.length_le_sum_of_one_le _ fun n hn => ?_)
      obtain ⟨k', hk', rfl⟩ := List.mem_map.mp hn
      rw [length_matched]
      exact List.count_pos_iff.mpr (hks k' hk')
    have hlength : (joined keys value rows (k :: ks)).length
        = (rows.flatMap keys).count k + (joined keys value rows ks).length := by
      rw [joined, List.flatMap_cons, List.length_append, length_matched]
      rfl
    rw [List.forall_mem_cons, ← ih hks, hlength, List.length_cons]
    omega

/-- When each key stands in the rows once, entry `i` is the value of the row that has key `i`. -/
theorem getElem?_joined (hone : ∀ k ∈ ks, (rows.flatMap keys).count k = 1) {i : ℕ} {k : κ}
    (hk : ks[i]? = some k) {r : α} (hr : r ∈ rows) (hkey : k ∈ keys r) :
    (joined keys value rows ks)[i]? = some (value r) := by
  induction ks generalizing i with
  | nil => exact absurd hk nofun
  | cons k₀ ks ih =>
    obtain ⟨hk₀, hks⟩ := List.forall_mem_cons.mp hone
    obtain ⟨v, hv⟩ := List.length_eq_one_iff.mp ((length_matched keys value rows k₀).trans hk₀)
    rw [joined, List.flatMap_cons, hv]
    cases i with
    | zero =>
      obtain rfl := Option.some.inj hk
      have hmem : value r ∈ matched keys value rows k₀ := mem_matched.mpr ⟨r, hr, hkey, rfl⟩
      rw [hv, List.mem_singleton] at hmem
      exact congrArg some hmem.symm
    | succ i => exact ih hks hk

end Covered

end Join
