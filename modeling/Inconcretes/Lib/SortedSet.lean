import Inconcretes.Lib.Versions
import Mathlib.Data.List.Nodup
import Mathlib.Data.List.Sort
import Mathlib.Data.Prod.Lex

/-!
# Sorted sets

A sorted set holds members with a score each, in the order of the scores, and among equal scores in the
order of the members. Adding a member that it holds moves the member to its new score.

Taking away entries of the lowest ranks, down to a number of entries that stay, leaves a set that may miss
entries, but only below that many others (`Trimmed`). Later additions keep this as long as they move no
member down (`Trimmed.add`). While fewer entries than that lie above a window, nobody sees the difference
at the upper end of the window (`Trimmed.newest_eq`).
-/

/-- Members with scores, each member once. -/
structure SortedSet (σ μ : Type*) [LinearOrder σ] [LinearOrder μ] where
  entries : List (σ ×ₗ μ)
  ascending : entries.Pairwise (· < ·)
  nodup : (entries.map fun e => (ofLex e).2).Nodup

namespace SortedSet

variable {σ μ : Type*} [LinearOrder σ] [LinearOrder μ] {s s' : SortedSet σ μ} {e : σ ×ₗ μ} {k : ℕ}
  {lo hi : σ} {m : μ}

@[ext] theorem ext (h : s.entries = s'.entries) : s = s' := by
  cases s
  cases s'
  cases h
  rfl

/-- A set is known by its entries. -/
theorem ext_mem (h : ∀ e, e ∈ s.entries ↔ e ∈ s'.entries) : s = s' :=
  ext (s.ascending.eq_of_mem_iff s'.ascending h)

def empty : SortedSet σ μ := ⟨[], List.Pairwise.nil, List.nodup_nil⟩

/-- The score of a member. -/
def score? (s : SortedSet σ μ) (m : μ) : Option σ :=
  (s.entries.find? fun e => (ofLex e).2 = m).map fun e => (ofLex e).1

theorem eq_of_mem {t u : σ} (ht : toLex (t, m) ∈ s.entries) (hu : toLex (u, m) ∈ s.entries) : t = u :=
  (Prod.mk.inj (toLex_inj.mp (List.inj_on_of_nodup_map s.nodup ht hu rfl))).1

theorem score?_eq_some {t : σ} : s.score? m = some t ↔ toLex (t, m) ∈ s.entries := by
  rw [score?, Option.map_eq_some_iff]
  constructor
  · rintro ⟨e, hfind, rfl⟩
    obtain rfl : (ofLex e).2 = m := by simpa using List.find?_some hfind
    exact List.mem_of_find?_eq_some hfind
  · intro hmem
    obtain ⟨e, hfind⟩ : ∃ e, (s.entries.find? fun e => (ofLex e).2 = m) = some e :=
      Option.isSome_iff_exists.mp (List.find?_isSome.mpr ⟨_, hmem, by simp⟩)
    obtain rfl : (ofLex e).2 = m := by simpa using List.find?_some hfind
    exact ⟨e, hfind, eq_of_mem (List.mem_of_find?_eq_some hfind) hmem⟩

/-- The entries of the other members. -/
def others (s : SortedSet σ μ) (m : μ) : List (σ ×ₗ μ) := s.entries.filter fun e => (ofLex e).2 ≠ m

theorem mem_others : e ∈ s.others m ↔ e ∈ s.entries ∧ (ofLex e).2 ≠ m := by simp [others]

/-- The member gets the score, whether it was there before or not. -/
def add (s : SortedSet σ μ) (m : μ) (t : σ) : SortedSet σ μ where
  entries := (s.others m).orderedInsert (· ≤ ·) (toLex (t, m))
  ascending := by
    have hlt : ∀ e ∈ s.others m, e ≠ toLex (t, m) := fun e he heq => (mem_others.mp he).2 (by rw [heq]; rfl)
    have hle : (s.others m).Pairwise (· ≤ ·) := (s.ascending.filter _).imp fun h => h.le
    have hnodup : ((s.others m).orderedInsert (· ≤ ·) (toLex (t, m))).Nodup :=
      (List.perm_orderedInsert _ _ _).nodup_iff.mpr (List.nodup_cons.mpr
        ⟨fun hmem => hlt _ hmem rfl, (s.ascending.filter _).imp fun h => h.ne⟩)
    exact (hle.orderedInsert (toLex (t, m)) _).imp₂ (fun _ _ hle hne => lt_of_le_of_ne hle hne) hnodup
  nodup := by
    have hperm := (List.perm_orderedInsert (· ≤ ·) (toLex (t, m)) (s.others m)).map
      fun e : σ ×ₗ μ => (ofLex e).2
    refine hperm.nodup_iff.mpr (List.nodup_cons.mpr ⟨fun hmem => ?_, ?_⟩)
    · obtain ⟨e, he, heq⟩ := List.mem_map.mp hmem
      exact (mem_others.mp he).2 heq
    · exact s.nodup.sublist (List.filter_sublist.map _)

theorem mem_add {t : σ} : e ∈ (s.add m t).entries ↔ e = toLex (t, m) ∨ e ∈ s.entries ∧ (ofLex e).2 ≠ m := by
  rw [add, List.mem_orderedInsert, mem_others]

theorem sublist_removeRange {α : Type*} (l : List α) (start stop : ℕ) :
    (l.take start ++ l.drop (max start (stop + 1))).Sublist l := by
  have hdrop : (l.drop (max start (stop + 1))).Sublist (l.drop start) := by
    rw [← Nat.add_sub_cancel' (le_max_left start (stop + 1)), ← List.drop_drop]
    exact List.drop_sublist _ _
  have happend := (List.Sublist.refl (l.take start)).append hdrop
  rwa [List.take_append_drop] at happend

theorem perm_add (s : SortedSet σ μ) (m : μ) (t : σ) :
    (s.add m t).entries.Perm (toLex (t, m) :: s.others m) := List.perm_orderedInsert _ _ _

theorem length_add_le (s : SortedSet σ μ) (m : μ) (t : σ) :
    (s.add m t).entries.length ≤ s.entries.length + 1 := by
  rw [(perm_add s m t).length_eq, List.length_cons]
  exact Nat.succ_le_succ (List.length_filter_le _ _)

/-- The entries without those of a range of ranks, both ends included. -/
def removeRange (s : SortedSet σ μ) (start stop : ℕ) : SortedSet σ μ where
  entries := s.entries.take start ++ s.entries.drop (max start (stop + 1))
  ascending := s.ascending.sublist (sublist_removeRange _ _ _)
  nodup := s.nodup.sublist ((sublist_removeRange _ _ _).map _)

theorem entries_removeRange_zero (s : SortedSet σ μ) (stop : ℕ) :
    (s.removeRange 0 stop).entries = s.entries.drop (stop + 1) := by
  change s.entries.take 0 ++ s.entries.drop (max 0 (stop + 1)) = _
  rw [List.take_zero, List.nil_append, max_eq_right (Nat.zero_le _)]

/-- The members with scores of the window, both ends included. -/
def range (s : SortedSet σ μ) (lo hi : σ) : List μ :=
  (s.entries.filter fun e => lo ≤ (ofLex e).1 ∧ (ofLex e).1 ≤ hi).map fun e => (ofLex e).2

/-- The last member of the window. -/
def newest (s : SortedSet σ μ) (lo hi : σ) : Option μ := (s.range lo hi).getLast?

/-! ## The last member of a window -/

theorem newest_eq_some : s.newest lo hi = some m ↔ ∃ t, toLex (t, m) ∈ s.entries ∧ lo ≤ t ∧ t ≤ hi
    ∧ ∀ e ∈ s.entries, lo ≤ (ofLex e).1 → (ofLex e).1 ≤ hi → e ≤ toLex (t, m) := by
  have hlast (e : σ ×ₗ μ) := Versions.getLast?_eq_some_iff (s.ascending.filter
    fun e => decide (lo ≤ (ofLex e).1 ∧ (ofLex e).1 ≤ hi)) (a := e)
  simp only [List.mem_filter, decide_eq_true_eq, not_lt, and_imp, and_assoc] at hlast
  rw [newest, range, List.getLast?_map, Option.map_eq_some_iff]
  simp only [hlast]
  constructor
  · rintro ⟨e, ⟨he, hlo, hhi, hmax⟩, rfl⟩
    exact ⟨(ofLex e).1, he, hlo, hhi, hmax⟩
  · rintro ⟨t, he, hlo, hhi, hmax⟩
    exact ⟨toLex (t, m), ⟨he, hlo, hhi, hmax⟩, rfl⟩

theorem newest_eq_none :
    s.newest lo hi = none ↔ ∀ e ∈ s.entries, lo ≤ (ofLex e).1 → ¬(ofLex e).1 ≤ hi := by
  simp [newest, range]

/-! ## Sets without their lowest entries -/

/-- `s'` has the entries of `s` except for some that lie below `k` others of `s'`. -/
structure Trimmed (k : ℕ) (s s' : SortedSet σ μ) : Prop where
  subset : ∀ e ∈ s'.entries, e ∈ s.entries
  above : ∀ e ∈ s.entries, e ∉ s'.entries → k ≤ s'.entries.countP (e < ·)

theorem Trimmed.refl (k : ℕ) (s : SortedSet σ μ) : Trimmed k s s :=
  ⟨fun _ => id, fun _ he hne => absurd he hne⟩

/-- Of an ascending list without its first elements, as many satisfy an upward closed property as before,
or all. -/
theorem countP_drop_of_ascending {l : List (σ ×ₗ μ)} (h : l.Pairwise (· < ·)) {p : σ ×ₗ μ → Bool}
    (hup : ∀ a b, a < b → p a = true → p b = true) (j : ℕ) :
    min (l.countP p) (l.length - j) ≤ (l.drop j).countP p := by
  induction l generalizing j with
  | nil => simp
  | cons a l ih =>
    rw [List.pairwise_cons] at h
    cases j with
    | zero => exact min_le_left _ _
    | succ j =>
      rw [List.drop_succ_cons, List.length_cons, Nat.succ_sub_succ]
      by_cases ha : p a = true
      · have hall : (l.drop j).countP p = (l.drop j).length :=
          List.countP_eq_length.mpr fun b hb => hup a b (h.1 b (List.mem_of_mem_drop hb)) ha
        rw [hall, List.length_drop]
        exact min_le_right _ _
      · rw [List.countP_cons_of_neg ha]
        exact ih h.2 j

/-- Taking away the entries of the lowest ranks. -/
theorem Trimmed.removeRange (h : Trimmed k s s') {j : ℕ} (hlen : j + 1 + k ≤ s'.entries.length) :
    Trimmed k s (s'.removeRange 0 j) := by
  have hentries := s'.entries_removeRange_zero j
  have hmany (e : σ ×ₗ μ) (habove : k ≤ s'.entries.countP (e < ·)) :
      k ≤ (s'.removeRange 0 j).entries.countP (e < ·) := by
    rw [hentries]
    exact (le_min habove (by omega)).trans (countP_drop_of_ascending s'.ascending
      (fun a b hab hea => decide_eq_true ((of_decide_eq_true hea).trans hab)) (j + 1))
  refine ⟨fun e he => h.subset e ?_, fun e he hne => ?_⟩
  · rw [hentries] at he
    exact List.mem_of_mem_drop he
  · by_cases hkept : e ∈ s'.entries
    · -- `e` was among the lowest
      have hsplit := s'.ascending
      rw [← List.take_append_drop (j + 1) s'.entries, List.pairwise_append] at hsplit
      rw [← List.take_append_drop (j + 1) s'.entries, List.mem_append, ← hentries] at hkept
      have hall : (s'.removeRange 0 j).entries.countP (e < ·) = (s'.removeRange 0 j).entries.length :=
        List.countP_eq_length.mpr fun b hb => by
          rw [hentries] at hb
          simpa using hsplit.2.2 e (hkept.resolve_right hne) b hb
      rw [hall, hentries, List.length_drop]
      omega
    · exact hmany e (h.above e he hkept)

/-- A member that does not move down leaves as many entries above `e` as before. -/
theorem countP_le_add {t : σ} (hup : ∀ u, toLex (u, m) ∈ s.entries → u ≤ t) (e : σ ×ₗ μ) :
    s.entries.countP (e < ·) ≤ (s.add m t).entries.countP (e < ·) := by
  have hone : (s.entries.filter fun e => !decide ((ofLex e).2 ≠ m)).length ≤ 1 := by
    have hcount := List.nodup_iff_count_le_one.mp s.nodup m
    rw [List.count_eq_countP, List.countP_map, List.countP_eq_length_filter] at hcount
    convert hcount using 4
    simp [beq_eq_decide]
  rw [(perm_add s m t).countP_eq, List.countP_cons,
    s.entries.countP_eq_countP_filter_add _ fun e => decide ((ofLex e).2 ≠ m), ← others,
    Nat.add_le_add_iff_left]
  split_ifs with habove
  · exact List.countP_le_length.trans hone
  · refine (List.countP_eq_zero.mpr fun a ha => ?_).le
    obtain ⟨hin, hmember⟩ := List.mem_filter.mp ha
    obtain rfl : (ofLex a).2 = m := by simpa using hmember
    intro hlt
    refine habove (decide_eq_true ((of_decide_eq_true hlt).trans_le ?_))
    exact Prod.Lex.toLex_mono ⟨hup (ofLex a).1 hin, le_rfl⟩

/-- Adding a member to both sets, to a score that is not below the one it has. -/
theorem Trimmed.add (h : Trimmed k s s') {t : σ} (hup : ∀ u, toLex (u, m) ∈ s.entries → u ≤ t) :
    Trimmed k (s.add m t) (s'.add m t) := by
  refine ⟨fun e he => ?_, fun e he hne => ?_⟩
  · rw [mem_add] at he ⊢
    exact he.imp_right fun hold => ⟨h.subset e hold.1, hold.2⟩
  · rw [mem_add] at he hne
    push Not at hne
    obtain ⟨hmem, hother⟩ := he.resolve_left hne.1
    have habove := h.above e hmem fun hkept => hother (hne.2 hkept)
    exact habove.trans (countP_le_add (fun u hu => hup u (h.subset _ hu)) e)

/-- While fewer than `k` entries lie above a window, the entries that are missing are not its last ones. -/
theorem Trimmed.newest_eq (h : Trimmed k s s') (hfew : s'.entries.countP (fun e => hi < (ofLex e).1) < k) :
    s'.newest lo hi = s.newest lo hi := by
  -- an entry of the window that is missing has a kept one of the window above it
  have hkept : ∀ e ∈ s.entries, lo ≤ (ofLex e).1 → (ofLex e).1 ≤ hi → e ∉ s'.entries →
      ∃ b ∈ s'.entries, e < b ∧ lo ≤ (ofLex b).1 ∧ (ofLex b).1 ≤ hi := by
    intro e he hlo hhi hne
    by_contra! hnone
    refine absurd (h.above e he hne) (not_le.mpr (hfew.trans_le' ?_))
    refine List.countP_mono_left fun b hb hlt => ?_
    have hlt := of_decide_eq_true hlt
    exact decide_eq_true (hnone b hb hlt (hlo.trans (Prod.Lex.monotone_fst _ _ hlt.le)))
  cases hlast : s'.newest lo hi with
  | none =>
    rw [newest_eq_none] at hlast
    refine (newest_eq_none.mpr fun e he hlo hhi => ?_).symm
    by_cases hmem : e ∈ s'.entries
    · exact hlast e hmem hlo hhi
    · obtain ⟨b, hb, -, hblo, hbhi⟩ := hkept e he hlo hhi hmem
      exact hlast b hb hblo hbhi
  | some m =>
    obtain ⟨t, hmem, hlo, hhi, hmax⟩ := newest_eq_some.mp hlast
    refine (newest_eq_some.mpr ⟨t, h.subset _ hmem, hlo, hhi, fun e he hle hge => ?_⟩).symm
    by_cases hin : e ∈ s'.entries
    · exact hmax e hin hle hge
    · obtain ⟨b, hb, hlt, hblo, hbhi⟩ := hkept e he hle hge hin
      exact hlt.le.trans (hmax b hb hblo hbhi)

end SortedSet
