import Mathlib.Algebra.BigOperators.Group.List.Basic
import Mathlib.Algebra.Order.Monoid.Unbundled.Basic
import Mathlib.Data.Multiset.Count

/-!
# Packing weights into bins

Weights are put into bins of one capacity, one after the other. `Runs` says that they can be put in order into
a bin that is open and some further ones, with no way back to an earlier bin. To put a weight wherever it fits
loses nothing (`Runs.stay`), so putting greedily decides `Runs`, and `Runs` is a partition of the list
(`runs_iff_blocks`).

The addition may round: all that is asked of it is that zero is neutral and that a sum grows with its
arguments. What is in a bin is therefore summed from left to right.

An algorithm that keeps all bins open and takes an empty one only when no other fits (`AnyFit`) puts whatever
can be put in order: compared with any way to put the weights in order it has either more empty bins, or as
many and a bin with no more in it than the one that is open there (`Behind`).
-/

namespace Packing

variable {W : Type} [AddZeroClass W] [LinearOrder W]

/-- The weights fit, in order, into a bin that holds `sum` and `left` empty ones. -/
inductive Runs (cap : W) : ℕ → W → List W → Prop
  | nil (left : ℕ) (sum : W) : Runs cap left sum []
  | put {left : ℕ} {sum w : W} {ws : List W} (hfits : sum + w ≤ cap) (h : Runs cap left (sum + w) ws) :
    Runs cap left sum (w :: ws)
  | next {left : ℕ} {sum w : W} {ws : List W} (hfits : w ≤ cap) (h : Runs cap left w ws) :
    Runs cap (left + 1) sum (w :: ws)

namespace Runs

variable {cap : W}

theorem of_append {left : ℕ} {sum : W} {ws ws' : List W} (h : Runs cap left sum (ws ++ ws')) :
    Runs cap left sum ws := by
  induction ws generalizing left sum with
  | nil => exact nil left sum
  | cons w ws ih =>
    cases h with
    | put hfits h => exact put hfits (ih h)
    | next hfits h => exact .next hfits (ih h)

theorem succ {left : ℕ} {sum : W} {ws : List W} (h : Runs cap left sum ws) : Runs cap (left + 1) sum ws := by
  induction h with
  | nil left sum => exact nil _ sum
  | put hfits _ ih => exact put hfits ih
  | next hfits _ ih => exact .next hfits ih

variable [AddRightMono W]

theorem anti {left : ℕ} {sum sum' : W} {ws : List W} (h : Runs cap left sum ws) (hle : sum' ≤ sum) :
    Runs cap left sum' ws := by
  induction h generalizing sum' with
  | nil left sum => exact nil left sum'
  | put hfits _ ih => exact put ((add_le_add_left hle _).trans hfits) (ih (add_le_add_left hle _))
  | next hfits h _ => exact .next hfits h

/-- An empty bin is worth any open one. -/
theorem waste {left : ℕ} {sum : W} {ws : List W} (h : Runs cap left sum ws) (hsum : 0 ≤ sum) (sum' : W) :
    Runs cap (left + 1) sum' ws := by
  cases h with
  | nil => exact nil _ sum'
  | put hfits h => exact .next ((le_add_of_nonneg_left hsum).trans hfits) (h.anti (le_add_of_nonneg_left hsum))
  | next hfits h => exact .next hfits h.succ

/-- A weight that fits into the open bin is put there. -/
theorem stay {left : ℕ} {sum w : W} {ws : List W} (h : Runs cap left sum (w :: ws)) (hw : 0 ≤ w) :
    Runs cap left (sum + w) ws := by
  cases h with
  | put _ h => exact h
  | next _ h => exact h.waste hw _

omit [AddRightMono W] in
/-- A weight that does not fit into the open bin is put into the next one. -/
theorem leave {left : ℕ} {sum w : W} {ws : List W} (h : Runs cap left sum (w :: ws))
    (hlt : cap < sum + w) : ∃ left', left = left' + 1 ∧ w ≤ cap ∧ Runs cap left' w ws := by
  cases h with
  | put hfits _ => exact absurd hfits (not_le.mpr hlt)
  | @next left' _ _ _ hfits h => exact ⟨left', rfl, hfits, h⟩

/-- Greedily: into the open bin when the weight fits there. -/
theorem cons_iff_of_le {left : ℕ} {sum w : W} {ws : List W} (hw : 0 ≤ w) (hfits : sum + w ≤ cap) :
    Runs cap left sum (w :: ws) ↔ Runs cap left (sum + w) ws := ⟨fun h => h.stay hw, put hfits⟩

omit [AddRightMono W] in
/-- Greedily: into the next bin when the weight does not fit into the open one. -/
theorem cons_iff_of_lt {left : ℕ} {sum w : W} {ws : List W} (hlt : cap < sum + w) (hfits : w ≤ cap) :
    Runs cap (left + 1) sum (w :: ws) ↔ Runs cap left w ws := by
  refine ⟨fun h => ?_, next hfits⟩
  obtain ⟨left', hleft, -, h⟩ := h.leave hlt
  exact Nat.succ_injective hleft ▸ h

variable [AddLeftMono W]

omit [AddRightMono W] in
/-- A sum does not fall. -/
theorem le_foldl {ws : List W} (hws : ∀ w ∈ ws, 0 ≤ w) (sum : W) : sum ≤ ws.foldl (· + ·) sum := by
  induction ws generalizing sum with
  | nil => exact le_rfl
  | cons w ws ih =>
    obtain ⟨hw, hws⟩ := List.forall_mem_cons.mp hws
    exact (le_add_of_nonneg_right hw).trans (ih hws (sum + w))

omit [AddRightMono W] in
/-- The weights behind each other that go into one bin. -/
theorem append {left : ℕ} {sum : W} {ws ws' : List W} (hws : ∀ w ∈ ws, 0 ≤ w)
    (hcap : ws.foldl (· + ·) sum ≤ cap) (h : Runs cap left (ws.foldl (· + ·) sum) ws') :
    Runs cap left sum (ws ++ ws') := by
  induction ws generalizing sum with
  | nil => exact h
  | cons w ws ih =>
    obtain ⟨-, hws⟩ := List.forall_mem_cons.mp hws
    exact put ((le_foldl hws (sum + w)).trans hcap) (ih hws hcap h)

/-- The weights of each block go into a bin of their own. -/
theorem flatten {blocks : List (List W)} (hnonneg : ∀ w ∈ blocks.flatten, 0 ≤ w)
    (hblocks : ∀ b ∈ blocks, b.foldl (· + ·) 0 ≤ cap) {left : ℕ} (hlength : blocks.length ≤ left) (sum : W) :
    Runs cap left sum blocks.flatten := by
  induction blocks generalizing left sum with
  | nil => exact nil left sum
  | cons b blocks ih =>
    obtain ⟨left, rfl⟩ := Nat.exists_eq_add_of_le' (Nat.zero_lt_of_lt hlength)
    obtain ⟨hb, hblocks⟩ := List.forall_mem_cons.mp hblocks
    obtain ⟨hnonneg, hrest⟩ := List.forall_mem_append.mp hnonneg
    have hempty : Runs cap left 0 (b ++ blocks.flatten) :=
      append hnonneg hb (ih hrest hblocks (Nat.le_of_succ_le_succ hlength) _)
    exact hempty.waste le_rfl sum

end Runs

section Blocks

variable [AddLeftMono W] [AddRightMono W] {cap : W}

/-- The weights in the open bin, and those in each of the others. -/
theorem runs_iff_rest {left : ℕ} {sum : W} {ws : List W} (hws : ∀ w ∈ ws, 0 ≤ w) (hsum : sum ≤ cap) :
    Runs cap left sum ws ↔ ∃ b blocks, b ++ List.flatten blocks = ws ∧ blocks.length ≤ left
      ∧ b.foldl (· + ·) sum ≤ cap ∧ ∀ b' ∈ blocks, b'.foldl (· + ·) 0 ≤ cap := by
  constructor
  · intro h
    induction h with
    | nil left sum => exact ⟨[], [], rfl, Nat.zero_le _, hsum, nofun⟩
    | @put left sum w ws hfits _ ih =>
      obtain ⟨b, blocks, rfl, hlength, hb, hblocks⟩ := ih (List.forall_mem_cons.mp hws).2 hfits
      exact ⟨w :: b, blocks, rfl, hlength, hb, hblocks⟩
    | @next left sum w ws hfits _ ih =>
      obtain ⟨b, blocks, rfl, hlength, hb, hblocks⟩ := ih (List.forall_mem_cons.mp hws).2 hfits
      refine ⟨[], (w :: b) :: blocks, rfl, Nat.succ_le_succ hlength, hsum, ?_⟩
      exact List.forall_mem_cons.mpr ⟨by rwa [List.foldl_cons, zero_add], hblocks⟩
  · rintro ⟨b, blocks, rfl, hlength, hb, hblocks⟩
    obtain ⟨hnonneg, hrest⟩ := List.forall_mem_append.mp hws
    exact Runs.append hnonneg hb (Runs.flatten hrest hblocks hlength _)

/-- Weights fit in order into some bins when they are the concatenation of as many blocks at most, each within
the capacity. -/
theorem runs_iff_blocks {left : ℕ} {ws : List W} (hws : ∀ w ∈ ws, 0 ≤ w) :
    Runs cap left 0 ws ↔ ∃ blocks : List (List W), blocks.flatten = ws ∧ blocks.length ≤ left + 1
      ∧ ∀ b ∈ blocks, b.foldl (· + ·) 0 ≤ cap := by
  rcases le_or_gt 0 cap with hcap | hcap
  · rw [runs_iff_rest hws hcap]
    constructor
    · rintro ⟨b, blocks, rfl, hlength, hb, hblocks⟩
      exact ⟨b :: blocks, rfl, Nat.succ_le_succ hlength, List.forall_mem_cons.mpr ⟨hb, hblocks⟩⟩
    · rintro ⟨blocks, rfl, hlength, hblocks⟩
      cases blocks with
      | nil => exact ⟨[], [], rfl, Nat.zero_le _, hcap, nofun⟩
      | cons b blocks =>
        obtain ⟨hb, hblocks⟩ := List.forall_mem_cons.mp hblocks
        exact ⟨b, blocks, rfl, Nat.le_of_succ_le_succ hlength, hb, hblocks⟩
  · -- nothing is within a negative capacity
    constructor
    · intro h
      cases h with
      | nil => exact ⟨[], rfl, Nat.zero_le _, nofun⟩
      | put hfits _ =>
        rw [zero_add] at hfits
        exact absurd (hfits.trans_lt hcap) (not_lt_of_ge (hws _ List.mem_cons_self))
      | next hfits _ => exact absurd (hfits.trans_lt hcap) (not_lt_of_ge (hws _ List.mem_cons_self))
    · rintro ⟨blocks, rfl, -, hblocks⟩
      cases blocks with
      | nil => exact .nil _ _
      | cons b blocks =>
        have hsum : 0 ≤ b.foldl (· + ·) 0 := Runs.le_foldl (fun w hw => hws w (List.mem_append_left _ hw)) 0
        exact absurd ((hblocks b List.mem_cons_self).trans_lt hcap) (not_lt_of_ge hsum)

end Blocks

/-! ## Any fit -/

/-- A weight is put into some bin that it fits, an empty one only when it fits no other. -/
def AnyFit (cap : W) (loads : Multiset W) (w : W) (loads' : Multiset W) : Prop :=
  ∃ b rest, loads = b ::ₘ rest ∧ b + w ≤ cap ∧ loads' = (b + w) ::ₘ rest
    ∧ (b = 0 → ∀ c ∈ loads, 0 < c → cap < c + w)

/-- There are more empty bins than `left`, or as many and a bin that holds something but no more than `sum`. -/
def Behind (loads : Multiset W) (left : ℕ) (sum : W) : Prop :=
  left + 1 ≤ loads.count 0 ∨ left ≤ loads.count 0 ∧ ∃ c ∈ loads, 0 < c ∧ c ≤ sum

variable {cap : W} {loads loads' : Multiset W} {left : ℕ} {sum w : W}

theorem Behind.exists_fits [AddRightMono W] {ws : List W} (h : Behind loads left sum) (hsum : 0 ≤ sum)
    (hruns : Runs cap left sum (w :: ws)) : ∃ b ∈ loads, b + w ≤ cap := by
  have hzero : 0 < loads.count 0 → w ≤ cap → ∃ b ∈ loads, b + w ≤ cap := fun hpos hw =>
    ⟨0, Multiset.count_pos.mp hpos, by rwa [zero_add]⟩
  cases hruns with
  | put hfits _ =>
    rcases h with h | ⟨-, c, hc, -, hle⟩
    · exact hzero (Nat.zero_lt_of_lt h) ((le_add_of_nonneg_left hsum).trans hfits)
    · exact ⟨c, hc, (add_le_add_left hle w).trans hfits⟩
  | next hfits _ =>
    rcases h with h | ⟨h, -⟩
    · exact hzero (Nat.zero_lt_of_lt h) hfits
    · exact hzero (Nat.zero_lt_of_lt h) hfits

/-- A step that takes an empty bin leaves the weight alone in a bin, and one that does not keeps the empty
bins. -/
theorem AnyFit.cases [AddRightMono W] (h : AnyFit cap loads w loads') (hw : 0 < w)
    (hloads : ∀ c ∈ loads, 0 ≤ c) :
    loads.count 0 = loads'.count 0 + 1 ∧ w ∈ loads' ∧ (∀ c ∈ loads, 0 < c → cap < c + w)
      ∨ loads.count 0 = loads'.count 0
        ∧ ∀ c ∈ loads, 0 < c → ∃ c' ∈ loads', 0 < c' ∧ (c' = c ∨ c' = c + w) := by
  obtain ⟨b, rest, rfl, -, rfl, hopen⟩ := h
  have hb := hloads b (Multiset.mem_cons_self b rest)
  have hgrown : 0 < b + w := hw.trans_le (le_add_of_nonneg_left hb)
  rw [Multiset.count_cons_of_ne hgrown.ne]
  rcases hb.eq_or_lt with rfl | hpos
  · exact Or.inl ⟨Multiset.count_cons_self 0 rest, by simp, hopen rfl⟩
  · refine Or.inr ⟨Multiset.count_cons_of_ne hpos.ne rest, fun c hc hc0 => ?_⟩
    rcases Multiset.mem_cons.mp hc with rfl | hc
    · exact ⟨c + w, Multiset.mem_cons_self _ _, hgrown, Or.inr rfl⟩
    · exact ⟨c, Multiset.mem_cons_of_mem hc, hc0, Or.inl rfl⟩

/-- A weight of zero changes nothing. -/
theorem AnyFit.eq_of_zero (h : AnyFit cap loads 0 loads') : loads' = loads := by
  obtain ⟨b, rest, rfl, -, rfl, -⟩ := h
  rw [add_zero]

/-- One weight, put into the open bin or into the next one. -/
theorem Behind.step [AddLeftMono W] [AddRightMono W] {ws : List W} (h : Behind loads left sum)
    (hloads : ∀ c ∈ loads, 0 ≤ c) (hw : 0 ≤ w) (hfit : AnyFit cap loads w loads')
    (hruns : Runs cap left sum (w :: ws)) (hsum : 0 ≤ sum) :
    ∃ left' sum', Behind loads' left' sum' ∧ 0 ≤ sum' ∧ Runs cap left' sum' ws := by
  cases hruns with
  | put hfits hrest =>
    refine ⟨left, sum + w, ?_, add_nonneg hsum hw, hrest⟩
    rcases hw.eq_or_lt with rfl | hpos
    · rwa [hfit.eq_of_zero, add_zero]
    rcases hfit.cases hpos hloads with ⟨hcount, hmem, hfull⟩ | ⟨hcount, hkept⟩
    · rcases h with h | ⟨-, c, hc, hc0, hle⟩
      · exact Or.inr ⟨by omega, w, hmem, hpos, le_add_of_nonneg_left hsum⟩
      · exact absurd ((add_le_add_left hle w).trans hfits) (not_le.mpr (hfull c hc hc0))
    · rcases h with h | ⟨h, c, hc, hc0, hle⟩
      · exact Or.inl (hcount ▸ h)
      · obtain ⟨c', hc', hc0', rfl | rfl⟩ := hkept c hc hc0
        · exact Or.inr ⟨hcount ▸ h, c', hc', hc0', hle.trans (le_add_of_nonneg_right hw)⟩
        · exact Or.inr ⟨hcount ▸ h, c + w, hc', hc0', add_le_add_left hle w⟩
  | @next left' _ _ _ hfits hrest =>
    refine ⟨left', w, ?_, hw, hrest⟩
    rcases hw.eq_or_lt with rfl | hpos
    · rw [hfit.eq_of_zero]
      rcases h with h | ⟨h, -⟩
      · exact Or.inl (by omega)
      · exact Or.inl h
    rcases hfit.cases hpos hloads with ⟨hcount, hmem, -⟩ | ⟨hcount, -⟩
    · rcases h with h | ⟨h, -⟩
      · exact Or.inl (by omega)
      · exact Or.inr ⟨by omega, w, hmem, hpos, le_rfl⟩
    · rcases h with h | ⟨h, -⟩
      · exact Or.inl (by omega)
      · exact Or.inl (by omega)

end Packing
