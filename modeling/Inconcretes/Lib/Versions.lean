import Mathlib.Data.List.Induction
import Mathlib.Data.Set.Finite.Lemmas
import Mathlib.Order.Bounds.Basic

/-!
# Timestamped versions

A register keeps versions under timestamps, and a read at the time `now` asks for the newest version up to
`now`. Reads come after all clock readings seen so far, so a version that another one has followed by the
latest of these can never be asked for again (`Newest.not_superseded`); every other version is the answer
of some read (`exists_newest`). A store that is only ever overwritten holds, under each key, what was put
there last (`get_foldl_put`).
-/

namespace Versions

variable {κ : Type*} [LinearOrder κ] {times clocks : Set κ} {now t : κ}

/-- `t` is the greatest of the timestamps up to `now`. -/
def Newest (times : Set κ) (now t : κ) : Prop := IsGreatest {u | u ∈ times ∧ u ≤ now} t

/-- A version that is followed by another one already visible at one of the clock readings. -/
def Superseded (times clocks : Set κ) (t : κ) : Prop := ∃ u ∈ times, t < u ∧ ∃ c ∈ clocks, u ≤ c

theorem Newest.mem (h : Newest times now t) : t ∈ times := h.1.1

theorem Newest.le_now (h : Newest times now t) : t ≤ now := h.1.2

theorem Newest.le {u : κ} (h : Newest times now t) (hu : u ∈ times) (hnow : u ≤ now) : u ≤ t :=
  h.2 ⟨hu, hnow⟩

theorem Newest.not_superseded (h : Newest times now t) (hnow : ∀ c ∈ clocks, c ≤ now) :
    ¬Superseded times clocks t := by
  rintro ⟨u, hu, hlt, c, hc, hle⟩
  exact absurd (h.le hu (hle.trans (hnow c hc))) (not_le.mpr hlt)

/-- The greatest time of a window that ends now is not superseded. -/
theorem not_superseded_of_isGreatest {start : κ} (h : IsGreatest {u | u ∈ times ∧ start ≤ u ∧ u ≤ now} t)
    (hnow : ∀ c ∈ clocks, c ≤ now) : ¬Superseded times clocks t := by
  have hnewest : Newest times now t := by
    refine ⟨⟨h.1.1, h.1.2.2⟩, fun u hu => ?_⟩
    by_contra hlt
    exact hlt (h.2 ⟨hu.1, h.1.2.1.trans (not_le.mp hlt).le, hu.2⟩)
  exact hnewest.not_superseded hnow

/-- The least time of a read after all clock readings that can see `t`. -/
theorem exists_read (hclocks : clocks.Finite) (t : κ) :
    ∃ now, t ≤ now ∧ (∀ c ∈ clocks, c ≤ now) ∧ (now = t ∨ now ∈ clocks) := by
  obtain ⟨m, hm, hle⟩ := Set.exists_max_image _ id (hclocks.insert t) ⟨t, Set.mem_insert t clocks⟩
  exact ⟨m, hle t (Set.mem_insert t clocks), fun c hc => hle c (Set.mem_insert_of_mem t hc), hm⟩

/-- A version that is not superseded is the newest one for some read after all clock readings. -/
theorem exists_newest (hclocks : clocks.Finite) (ht : t ∈ times) (h : ¬Superseded times clocks t) :
    ∃ now, Newest times now t ∧ ∀ c ∈ clocks, c ≤ now := by
  obtain ⟨now, htnow, hnow, hcases⟩ := exists_read hclocks t
  refine ⟨now, ⟨⟨ht, htnow⟩, fun u hu => ?_⟩, hnow⟩
  by_contra hlt
  rcases hcases with rfl | hmem
  · exact hlt hu.2
  · exact h ⟨u, hu.1, not_le.mp hlt, now, hmem, hu.2⟩

/-- The last element of an ascending list is the one that none follows. -/
theorem getLast?_eq_some_iff {α : Type*} {r : α → α → Prop} [Std.Asymm r] {l : List α}
    (h : l.Pairwise r) {a : α} : l.getLast? = some a ↔ a ∈ l ∧ ∀ b ∈ l, ¬r a b := by
  induction l using List.reverseRecOn with
  | nil => simp
  | append_singleton init last _ =>
    have hlast : ∀ b ∈ init, r b last := fun b hb =>
      (List.pairwise_append.mp h).2.2 b hb last List.mem_cons_self
    rw [List.getLast?_concat, Option.some.injEq]
    constructor
    · rintro rfl
      refine ⟨List.mem_concat_self, fun b hb hlt => ?_⟩
      rcases List.mem_append.mp hb with hinit | hsame
      · exact Std.Asymm.asymm _ _ hlt (hlast b hinit)
      · rw [List.mem_singleton.mp hsame] at hlt
        exact Std.Asymm.asymm _ _ hlt hlt
    · rintro ⟨ha, hgreatest⟩
      rcases List.mem_append.mp ha with hinit | hsame
      · exact absurd (hlast a hinit) (hgreatest last List.mem_concat_self)
      · exact (List.mem_singleton.mp hsame).symm

/-- A store after a sequence of overwriting calls. -/
theorem get_foldl_put {Db K V W : Type*} [DecidableEq K] (get : Db → K → Option V) (put : Db → W → Db)
    (key : W → K) (val : W → V) {db : Db} (hempty : ∀ k, get db k = none) {ws : List W}
    (hput : ∀ w ∈ ws, ∀ db k, get (put db w) k = if key w = k then some (val w) else get db k) (k : K) :
    get (ws.foldl put db) k = ((ws.filter (key · = k)).getLast?).map val := by
  induction ws using List.reverseRecOn with
  | nil => exact hempty k
  | append_singleton ws w ih =>
    rw [List.foldl_append, List.foldl_cons, List.foldl_nil, hput w (by simp), List.filter_append]
    by_cases hkey : key w = k
    · rw [if_pos hkey, List.filter_cons_of_pos (by simpa using hkey), List.filter_nil,
        List.getLast?_concat]
      rfl
    · rw [if_neg hkey, List.filter_cons_of_neg (by simpa using hkey), List.filter_nil, List.append_nil,
        ih fun v hv => hput v (List.mem_append_left _ hv)]

end Versions
