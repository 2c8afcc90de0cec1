import Mathlib.Data.List.Perm.Basic
import Mathlib.Data.Set.Disjoint
import Mathlib.Data.Set.Lattice
import Mathlib.Order.CompletePartialOrder

/-!
# Operations with a footprint

A state is read through its cells. An operation is local to a set of cells when it changes no other cell
and when what it leaves in these depends on nothing but them. Operations with disjoint footprints commute:
a run of them ends alike in every order, and a cell holds what the one operation that owns it made of it.
-/

namespace Footprint

variable {ι σ α κ : Type*}

/-- The operation `f` reads and writes the cells `X` only. -/
structure Local (cell : ι → σ → α) (X : Set ι) (f : σ → σ) : Prop where
  frame : ∀ s, ∀ i ∉ X, cell i (f s) = cell i s
  own : ∀ s t, (∀ i ∈ X, cell i s = cell i t) → ∀ i ∈ X, cell i (f s) = cell i (f t)

variable {cell : ι → σ → α} {X Y : Set ι} {f g : σ → σ}

theorem local_id (cell : ι → σ → α) (X : Set ι) : Local cell X id where
  frame _ _ _ := rfl
  own _ _ h := h

theorem Local.mono (hf : Local cell X f) (h : X ⊆ Y) : Local cell Y f where
  frame s i hi := hf.frame s i fun hX => hi (h hX)
  own s t hst i hi := by
    by_cases hX : i ∈ X
    · exact hf.own s t (fun j hj => hst j (h hj)) i hX
    · rw [hf.frame s i hX, hf.frame t i hX, hst i hi]

theorem Local.comp (hg : Local cell X g) (hf : Local cell X f) : Local cell X (g ∘ f) where
  frame s i hi := by rw [Function.comp_apply, hg.frame _ i hi, hf.frame s i hi]
  own s t hst := hg.own (f s) (f t) (hf.own s t hst)

/-- Operations with disjoint footprints commute. -/
theorem Local.comm (hext : ∀ s t, (∀ i, cell i s = cell i t) → s = t) (hf : Local cell X f)
    (hg : Local cell Y g) (hXY : Disjoint X Y) (s : σ) : f (g s) = g (f s) := by
  apply hext
  intro i
  by_cases hX : i ∈ X
  · have hY : ∀ j ∈ X, j ∉ Y := fun j hj => Set.disjoint_left.mp hXY hj
    rw [hg.frame (f s) i (hY i hX)]
    exact hf.own (g s) s (fun j hj => hg.frame s j (hY j hj)) i hX
  · rw [hf.frame (g s) i hX]
    by_cases hY : i ∈ Y
    · have hX' : ∀ j ∈ Y, j ∉ X := fun j hj => Set.disjoint_right.mp hXY hj
      exact (hg.own (f s) s (fun j hj => hf.frame s j (hX' j hj)) i hY).symm
    · rw [hg.frame s i hY, hg.frame (f s) i hY, hf.frame s i hX]

/-! ## Runs of operations -/

variable {op : κ → σ → σ} {own : κ → Set ι}

/-- A cell that no operation of the run owns stays as it is. -/
theorem foldl_frame (hop : ∀ k, Local cell (own k) (op k)) {ks : List κ} {i : ι}
    (hi : ∀ k ∈ ks, i ∉ own k) (s : σ) : cell i (ks.foldl (fun s k => op k s) s) = cell i s := by
  induction ks generalizing s with
  | nil => rfl
  | cons k ks ih =>
    obtain ⟨hk, hks⟩ := List.forall_mem_cons.mp hi
    rw [List.foldl_cons, ih hks, (hop k).frame s i hk]

/-- A cell holds what its owner made of it, wherever the owner stands in the run. -/
theorem foldl_own (hop : ∀ k, Local cell (own k) (op k))
    (hdisj : ∀ k k', k ≠ k' → Disjoint (own k) (own k')) {ks : List κ} (hks : ks.Nodup) {k : κ}
    (hk : k ∈ ks) (s : σ) {i : ι} (hi : i ∈ own k) :
    cell i (ks.foldl (fun s k => op k s) s) = cell i (op k s) := by
  induction ks generalizing s with
  | nil => exact absurd hk List.not_mem_nil
  | cons k' ks ih =>
    obtain ⟨hk', hks⟩ := List.nodup_cons.mp hks
    rw [List.foldl_cons]
    rcases List.mem_cons.mp hk with rfl | hmem
    · refine foldl_frame hop (fun j hj hij => ?_) _
      have hne : k ≠ j := fun h => hk' (h ▸ hj)
      exact Set.disjoint_left.mp (hdisj k j hne) hi hij
    · have hne : k ≠ k' := fun h => hk' (h ▸ hmem)
      rw [ih hks hmem]
      refine (hop k).own _ _ (fun j hj => (hop k').frame s j ?_) i hi
      exact Set.disjoint_left.mp (hdisj k k' hne) hj

/-- The order of a run does not matter. -/
theorem foldl_perm (hext : ∀ s t, (∀ i, cell i s = cell i t) → s = t)
    (hop : ∀ k, Local cell (own k) (op k)) (hdisj : ∀ k k', k ≠ k' → Disjoint (own k) (own k'))
    {ks ks' : List κ} (h : ks.Perm ks') (s : σ) :
    ks.foldl (fun s k => op k s) s = ks'.foldl (fun s k => op k s) s := by
  refine h.foldl_eq' (fun k _ k' _ s => ?_) s
  by_cases hk : k = k'
  · rw [hk]
  · exact ((hop k).comm hext (hop k') (hdisj k k' hk) s).symm

end Footprint
