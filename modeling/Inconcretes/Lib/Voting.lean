import Mathlib.Data.List.Basic
import Mathlib.Data.Set.Function

/-!
# Voting over a threshold

Ballots are grouped by a key. A ballot carries a vote when its group has more than `thr` members, and
`voteBy` answers with the last such ballot. Grouping by the ballot itself is exact counting; grouping
by a digest is not, and `voteBy_eq_iff` says when the two agree.
-/

namespace Voting

variable {V K : Type*} [DecidableEq K]

/-- The number of ballots in the group of the key `g`. -/
def groupSize (key : V → K) (g : K) (vs : List V) : ℕ := vs.countP (fun w => key w = g)

/-- The last ballot whose group has more than `thr` members, `dflt` when there is none. -/
def voteBy (key : V → K) (thr : ℕ) (dflt : V) (vs : List V) : V :=
  ((vs.filter fun v => thr < groupSize key (key v) vs).getLast?).getD dflt

/-- Two disjoint groups fit into the ballots. -/
theorem groupSize_add_le (key : V → K) {g g' : K} (h : g ≠ g') (vs : List V) :
    groupSize key g vs + groupSize key g' vs ≤ vs.length := by
  unfold groupSize
  induction vs with
  | nil => simp
  | cons v vs ih =>
    simp only [List.countP_cons, List.length_cons, decide_eq_true_eq]
    by_cases hg : key v = g
    · have hg' : key v ≠ g' := fun h' => h (hg.symm.trans h')
      rw [if_pos hg, if_neg hg']
      omega
    · rw [if_neg hg]
      split <;> omega

/-- More than half of the ballots: at most one group is over the threshold. -/
theorem group_unique {key : V → K} {thr : ℕ} {vs : List V} (hs : vs.length < 2 * (thr + 1)) {g g' : K}
    (hg : thr < groupSize key g vs) (hg' : thr < groupSize key g' vs) : g = g' := by
  by_contra hne
  have := groupSize_add_le key hne vs
  omega

theorem groupSize_pos_iff {key : V → K} {g : K} {vs : List V} :
    0 < groupSize key g vs ↔ ∃ v ∈ vs, key v = g := by
  unfold groupSize
  rw [List.countP_pos_iff]
  simp

/-- With one group over the threshold, the vote is the last ballot of that group. -/
theorem voteBy_of_group {key : V → K} {thr : ℕ} {dflt : V} {vs : List V}
    (hs : vs.length < 2 * (thr + 1)) {g : K} (hg : thr < groupSize key g vs) :
    voteBy key thr dflt vs = ((vs.filter (key · = g)).getLast?).getD dflt := by
  unfold voteBy
  congr 2
  apply List.filter_congr
  intro v _
  rw [decide_eq_decide]
  constructor
  · intro hv
    exact group_unique hs hv hg
  · rintro rfl
    exact hg

theorem voteBy_default {key : V → K} {thr : ℕ} {dflt : V} {vs : List V}
    (h : ∀ v ∈ vs, groupSize key (key v) vs ≤ thr) : voteBy key thr dflt vs = dflt := by
  unfold voteBy
  rw [List.filter_eq_nil_iff.mpr]
  · rfl
  · intro v hv
    simpa using h v hv

/-- A vote that is not the default is a ballot whose group is over the threshold. -/
theorem voteBy_cases (key : V → K) (thr : ℕ) (dflt : V) (vs : List V) :
    (∃ v ∈ vs, thr < groupSize key (key v) vs ∧ voteBy key thr dflt vs = v) ∨
      ((∀ v ∈ vs, groupSize key (key v) vs ≤ thr) ∧ voteBy key thr dflt vs = dflt) := by
  by_cases h : ∀ v ∈ vs, groupSize key (key v) vs ≤ thr
  · exact Or.inr ⟨h, voteBy_default h⟩
  · left
    obtain ⟨v, hv, hbig⟩ : ∃ v ∈ vs, thr < groupSize key (key v) vs := by simpa using h
    have hne : vs.filter (fun v => thr < groupSize key (key v) vs) ≠ [] := by
      intro h0
      have : v ∈ vs.filter (fun v => thr < groupSize key (key v) vs) := by
        rw [List.mem_filter]
        exact ⟨hv, by simpa using hbig⟩
      rw [h0] at this
      exact absurd this List.not_mem_nil
    refine ⟨_, ?_, ?_, by rw [voteBy, List.getLast?_eq_some_getLast hne, Option.getD_some]⟩
    · exact (List.mem_filter.mp (List.getLast_mem hne)).1
    · simpa using (List.mem_filter.mp (List.getLast_mem hne)).2

/-! ## Exact counting -/

variable [DecidableEq V]

/-- Exact counting: the ballot itself is its key. -/
abbrev exactVote (thr : ℕ) (dflt : V) (vs : List V) : V := voteBy id thr dflt vs

theorem groupSize_id (v : V) (vs : List V) : groupSize id v vs = vs.count v := by
  unfold groupSize
  rw [List.count]
  exact List.countP_congr fun w _ => by simp

/-- A value held by more than `thr` ballots, more than half of them, wins. -/
theorem exactVote_of_count {thr : ℕ} {dflt v : V} {vs : List V} (hs : vs.length < 2 * (thr + 1))
    (hv : thr < vs.count v) : exactVote thr dflt vs = v := by
  rw [← groupSize_id] at hv
  rcases voteBy_cases id thr dflt vs with ⟨w, -, hw, heq⟩ | ⟨hnone, -⟩
  · rw [exactVote, heq]
    exact group_unique hs hw hv
  · obtain ⟨w, hw, rfl⟩ := groupSize_pos_iff.mp (Nat.zero_lt_of_lt hv)
    exact absurd hv (Nat.not_lt.mpr (hnone w hw))

/-- Without such a value the vote is the default. -/
theorem exactVote_default {thr : ℕ} {dflt : V} {vs : List V} (h : ∀ v, vs.count v ≤ thr) :
    exactVote thr dflt vs = dflt :=
  voteBy_default fun v _ => by
    rw [groupSize_id]
    exact h v

/-- A digest that separates the ballots counts exactly. -/
theorem voteBy_eq_exactVote {key : V → K} {thr : ℕ} {dflt : V} {vs : List V}
    (hinj : Set.InjOn key {v | v ∈ vs}) : voteBy key thr dflt vs = exactVote thr dflt vs := by
  have hgroup : ∀ v ∈ vs, groupSize key (key v) vs = groupSize id v vs := by
    intro v hv
    unfold groupSize
    apply List.countP_congr
    intro w hw
    simp only [decide_eq_true_eq]
    exact ⟨fun h => hinj hw hv h, fun h => congrArg key h⟩
  unfold exactVote voteBy
  congr 2
  apply List.filter_congr
  intro v hv
  rw [hgroup v hv]
  rfl

/-- What exact counting asks of the outcome `x`. -/
def CountsTo (thr : ℕ) (dflt : V) (vs : List V) (x : V) : Prop :=
  (∀ v, thr < vs.count v → x = v) ∧ ((∀ v, vs.count v ≤ thr) → x = dflt)

theorem countsTo_iff {thr : ℕ} {dflt x : V} {vs : List V} (hs : vs.length < 2 * (thr + 1)) :
    CountsTo thr dflt vs x ↔ x = exactVote thr dflt vs := by
  by_cases h : ∃ v, thr < vs.count v
  · obtain ⟨v, hv⟩ := h
    rw [exactVote_of_count hs hv]
    constructor
    · exact fun hx => hx.1 v hv
    · rintro rfl
      have hx : exactVote thr dflt vs = x := exactVote_of_count hs hv
      exact ⟨fun w hw => hx.symm.trans (exactVote_of_count hs hw),
        fun hnone => absurd hv (not_lt.mpr (hnone x))⟩
  · have hnone : ∀ v, vs.count v ≤ thr := fun v => not_lt.mp fun hv => h ⟨v, hv⟩
    rw [exactVote_default hnone]
    constructor
    · exact fun hx => hx.2 hnone
    · rintro rfl
      exact ⟨fun v hv => absurd hv (not_lt.mpr (hnone v)), fun _ => rfl⟩

/-- No collision decides the vote: where a group of equal keys has more than `thr` members, its last
ballot has more than `thr` equals of its own, or is the default that counting would give anyway. -/
def Harmless (key : V → K) (thr : ℕ) (dflt : V) (vs : List V) : Prop :=
  ∀ w, (vs.filter (key · = key w)).getLast? = some w → thr < groupSize key (key w) vs →
    thr < vs.count w ∨ w = dflt ∧ ∀ v, vs.count v ≤ thr

theorem count_le_groupSize (key : V → K) (v : V) (vs : List V) :
    vs.count v ≤ groupSize key (key v) vs := by
  rw [← groupSize_id]
  exact List.countP_mono_left fun w _ hw => by simpa using congrArg key (by simpa using hw)

/-- **Voting by a digest is exact counting** precisely when no collision decides the vote. -/
theorem voteBy_eq_iff {key : V → K} {thr : ℕ} {dflt : V} {vs : List V}
    (hs : vs.length < 2 * (thr + 1)) :
    voteBy key thr dflt vs = exactVote thr dflt vs ↔ Harmless key thr dflt vs := by
  rcases voteBy_cases key thr dflt vs with ⟨u, hu, hbig, -⟩ | ⟨hsmall, heq⟩
  · -- one group is over the threshold, and its last ballot `w` is the vote
    have hmem : u ∈ vs.filter (key · = key u) := List.mem_filter.mpr ⟨hu, by simp⟩
    obtain ⟨w, hw⟩ : ∃ w, (vs.filter (key · = key u)).getLast? = some w :=
      ⟨_, List.getLast?_eq_some_getLast (List.ne_nil_of_mem hmem)⟩
    have hkey : key w = key u := by simpa using (List.mem_filter.mp (List.mem_of_getLast? hw)).2
    rw [voteBy_of_group hs hbig, hw, Option.getD_some]
    rw [← hkey] at hw hbig
    have huniq : ∀ w', (vs.filter (key · = key w')).getLast? = some w' →
        thr < groupSize key (key w') vs → w' = w := by
      intro w' hw' hbig'
      rw [group_unique hs hbig' hbig, hw] at hw'
      exact (Option.some.inj hw').symm
    constructor
    · intro hexact w' hw' hbig'
      rw [huniq w' hw' hbig']
      by_cases h : ∃ v, thr < vs.count v
      · obtain ⟨v, hv⟩ := h
        rw [exactVote_of_count hs hv] at hexact
        exact Or.inl (hexact ▸ hv)
      · have hnone : ∀ v, vs.count v ≤ thr := fun v => not_lt.mp fun hv => h ⟨v, hv⟩
        exact Or.inr ⟨hexact.trans (exactVote_default hnone), hnone⟩
    · intro hharmless
      rcases hharmless w hw hbig with hcount | ⟨rfl, hnone⟩
      · exact (exactVote_of_count hs hcount).symm
      · exact (exactVote_default hnone).symm
  · -- no group is over the threshold, so no value is
    have hnone : ∀ v, vs.count v ≤ thr := by
      intro v
      rcases Nat.eq_zero_or_pos (vs.count v) with hzero | hpos
      · omega
      · exact (count_le_groupSize key v vs).trans (hsmall v (List.count_pos_iff.mp hpos))
    rw [heq, exactVote_default hnone]
    refine ⟨fun _ w hw hbig => absurd hbig (not_lt.mpr (hsmall w ?_)), fun _ => rfl⟩
    exact (List.mem_filter.mp (List.mem_of_getLast? hw)).1

end Voting
