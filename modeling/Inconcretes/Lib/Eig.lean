import Mathlib.Data.Fintype.Card
import Mathlib.Data.Finset.Card

/-!
# Exponential information gathering

Processes relay values for `height` rounds. A label lists the relayers of a value, newest first, no
process twice: `held q (p :: σ)` is what `q` was told by `p` about the value `p` held under `σ`. After
the rounds every process resolves its labels from the leaves down.

The two results are the classical ones. A label whose newest relayer is correct resolves everywhere to
what that relayer held (`Resolution.value_of_correct`), and every label that names faulty relayers only
resolves to the same value at all correct processes (`Resolution.value_agree`), because each of its
extensions meets a correct relayer before the leaves.
-/

namespace Eig

variable {P V : Type*} [Fintype P] [DecidableEq P]

/-- What the processes hold after the rounds. A correct relayer tells every correct process the value
it holds itself; nothing is known about the rest. -/
structure Exchange (P V : Type*) where
  height : ℕ
  faulty : Finset P
  held : P → List P → V
  relay : ∀ {p q : P} {σ : List P}, p ∉ faulty → q ∉ faulty → (p :: σ).Nodup → σ.length < height →
    held q (p :: σ) = held p σ

/-- A rule that resolves labels bottom up. Leaves keep what is held. At an inner label of length `l` a
value supported by more than `thr l` extensions wins, and the outcome depends on the extensions only. -/
structure Resolution (E : Exchange P V) (thr : ℕ → ℕ) where
  value : P → List P → V
  leaf : ∀ {q : P} {σ : List P}, q ∉ E.faulty → σ.Nodup → σ.length = E.height →
    value q σ = E.held q σ
  counted : ∀ {q : P} {σ : List P} {v : V} (s : Finset P), q ∉ E.faulty → σ.Nodup →
    σ.length < E.height → (∀ x ∈ s, x ∉ σ ∧ value q (x :: σ) = v) → thr σ.length < s.card →
    value q σ = v
  determined : ∀ {q q' : P} {σ : List P}, q ∉ E.faulty → q' ∉ E.faulty → σ.Nodup →
    σ.length < E.height → (∀ x ∉ σ, value q (x :: σ) = value q' (x :: σ)) → value q σ = value q' σ

/-- At least `n - |σ| - f` correct processes can extend the label `σ`. -/
theorem card_correct_extensions (faulty : Finset P) (σ : List P) :
    Fintype.card P ≤ (Finset.univ \ (σ.toFinset ∪ faulty)).card + σ.length + faulty.card := by
  have hle : (σ.toFinset ∪ faulty).card ≤ σ.length + faulty.card :=
    (Finset.card_union_le _ _).trans (Nat.add_le_add_right σ.toFinset_card_le _)
  have hsub := Finset.le_card_sdiff (σ.toFinset ∪ faulty) (Finset.univ : Finset P)
  rw [Finset.card_univ] at hsub
  omega

namespace Resolution

variable {E : Exchange P V} {thr : ℕ → ℕ} (R : Resolution E thr)

/-- **Validity.** A label with a correct newest relayer resolves to what that relayer held. -/
theorem value_of_correct
    (hthr : ∀ l < E.height, thr l + l + E.faulty.card < Fintype.card P)
    {p q : P} {σ : List P} (hp : p ∉ E.faulty) (hq : q ∉ E.faulty) (hσ : (p :: σ).Nodup)
    (hl : σ.length < E.height) : R.value q (p :: σ) = E.held p σ := by
  -- backward induction over the levels, on the distance to the leaves
  obtain ⟨k, hk⟩ : ∃ k, σ.length + 1 + k = E.height := ⟨E.height - (σ.length + 1), by omega⟩
  induction k generalizing p σ with
  | zero =>
    rw [R.leaf hq hσ (by simpa using hk), E.relay hp hq hσ hl]
  | succ k ih =>
    refine R.counted (Finset.univ \ ((p :: σ).toFinset ∪ E.faulty)) hq hσ
      (by rw [List.length_cons]; omega) ?_ ?_
    · intro x hx
      simp only [Finset.mem_sdiff, Finset.mem_univ, true_and, Finset.mem_union, List.mem_toFinset,
        not_or] at hx
      refine ⟨hx.1, ?_⟩
      -- a correct extension resolves to what it was told, and it was told by the correct `p`
      rw [ih hx.2 (List.nodup_cons.mpr ⟨hx.1, hσ⟩) (by rw [List.length_cons]; omega)
        (by rw [List.length_cons]; omega), E.relay hp hx.2 hσ hl]
    · have hcard := card_correct_extensions E.faulty (p :: σ)
      have hroom := hthr (p :: σ).length (by rw [List.length_cons]; omega)
      omega

omit [Fintype P] in
/-- Distinct faulty relayers are at most as many as there are faulty processes. -/
theorem length_le_of_faulty {faulty : Finset P} {σ : List P} (hσ : σ.Nodup)
    (hall : ∀ x ∈ σ, x ∈ faulty) : σ.length ≤ faulty.card := by
  rw [← List.toFinset_card_of_nodup hσ]
  exact Finset.card_le_card fun x hx => hall x (List.mem_toFinset.mp hx)

/-- **Agreement.** A label of faulty relayers only resolves alike at all correct processes. -/
theorem value_agree
    (hthr : ∀ l < E.height, thr l + l + E.faulty.card < Fintype.card P)
    (hf : E.faulty.card < E.height) {q q' : P} {σ : List P} (hq : q ∉ E.faulty)
    (hq' : q' ∉ E.faulty) (hσ : σ.Nodup) (hall : ∀ x ∈ σ, x ∈ E.faulty) :
    R.value q σ = R.value q' σ := by
  -- on the number of faulty processes that the label does not name yet
  induction hk : E.faulty.card - σ.length using Nat.strong_induction_on generalizing σ with
  | _ k ih =>
    have hlen := length_le_of_faulty hσ hall
    refine R.determined hq hq' hσ (by omega) fun x hx => ?_
    have hxσ := List.nodup_cons.mpr ⟨hx, hσ⟩
    by_cases hxf : x ∈ E.faulty
    · have hall' : ∀ y ∈ x :: σ, y ∈ E.faulty := by
        intro y hy
        rcases List.mem_cons.mp hy with rfl | hy
        · exact hxf
        · exact hall y hy
      have hlen' := length_le_of_faulty hxσ hall'
      rw [List.length_cons] at hlen'
      exact ih _ (by rw [List.length_cons]; omega) hxσ hall' rfl
    · rw [R.value_of_correct hthr hxf hq hxσ (by omega),
        R.value_of_correct hthr hxf hq' hxσ (by omega)]

end Resolution

end Eig
