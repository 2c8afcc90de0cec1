import Mathlib.Data.Nat.Digits.Lemmas
import Mathlib.Data.List.TakeWhile
import Mathlib.Tactic.Ring

/-!
# Decimal text

Numbers are rendered in ASCII, most significant digit first and without leading zeros, and read back from
the digits in front of a text. Rendering and reading are inverse (`value_render`), and the rendered text
ends where its digits end (`takeWhile_render_append`). A number with a fixed number of digits behind the
point is written as two such texts (`value_render_lastDigits`).
-/

namespace Decimal

/-- The characters `0` to `9`. -/
def isDigit (c : UInt8) : Bool := 48 ≤ c && c ≤ 57

/-- The digit `d`, for `d < 10`. -/
def digit (d : ℕ) : UInt8 := UInt8.ofNat (48 + d)

/-- The decimal text of a number. -/
def render (n : ℕ) : List UInt8 := if n = 0 then [48] else (Nat.digits 10 n).reverse.map digit

/-- The number that a text of digits stands for. -/
def value (ds : List UInt8) : ℕ := ds.foldl (fun n c => 10 * n + (c.toNat - 48)) 0

theorem toNat_digit {d : ℕ} (h : d < 10) : (digit d).toNat = 48 + d := by
  rw [digit, UInt8.toNat_ofNat']
  omega

theorem isDigit_digit {d : ℕ} (h : d < 10) : isDigit (digit d) = true := by
  have := toNat_digit h
  simp only [isDigit, Bool.and_eq_true, decide_eq_true_eq, UInt8.le_iff_toNat_le, this]
  constructor
  · show 48 ≤ 48 + d
    omega
  · show 48 + d ≤ 57
    omega

theorem isDigit_of_mem_render {n : ℕ} {c : UInt8} (h : c ∈ render n) : isDigit c = true := by
  unfold render at h
  split at h
  · rw [List.mem_singleton.mp h]
    rfl
  · obtain ⟨d, hd, rfl⟩ := List.mem_map.mp h
    exact isDigit_digit (Nat.digits_lt_base (by omega) (List.mem_reverse.mp hd))

theorem render_ne_nil (n : ℕ) : render n ≠ [] := by
  unfold render
  split
  · simp
  · rename_i h
    simpa [Nat.digits_ne_nil_iff_ne_zero] using h

theorem length_render_le {n k : ℕ} (hk : 0 < k) (h : n < 10 ^ k) : (render n).length ≤ k := by
  unfold render
  split
  · exact hk
  · rw [List.length_map, List.length_reverse]
    exact (Nat.digits_length_le_iff (by omega) n).mpr h

theorem value_concat (ds : List UInt8) (c : UInt8) : value (ds ++ [c]) = 10 * value ds + (c.toNat - 48) := by
  rw [value, List.foldl_append]
  rfl

theorem value_map_digit {ds : List ℕ} (h : ∀ d ∈ ds, d < 10) :
    value (ds.reverse.map digit) = Nat.ofDigits 10 ds := by
  induction ds with
  | nil => rfl
  | cons d ds ih =>
    obtain ⟨hd, hds⟩ := List.forall_mem_cons.mp h
    rw [List.reverse_cons, List.map_append, List.map_singleton, value_concat, ih hds, toNat_digit hd,
      Nat.ofDigits_cons]
    omega

/-- What is rendered reads back. -/
theorem value_render (n : ℕ) : value (render n) = n := by
  unfold render
  split
  · rename_i h
    rw [h]
    rfl
  · rw [value_map_digit fun d hd => Nat.digits_lt_base (by omega) hd, Nat.ofDigits_digits]

theorem render_injective : Function.Injective render :=
  Function.LeftInverse.injective value_render

theorem takeWhile_render (n : ℕ) : (render n).takeWhile isDigit = render n :=
  List.takeWhile_eq_self_iff.mpr fun _ hc => isDigit_of_mem_render hc

/-- The digits of a text that begins with a rendered number and goes on with something else. -/
theorem takeWhile_render_append (n : ℕ) {c : UInt8} (hc : isDigit c = false) (rest : List UInt8) :
    (render n ++ c :: rest).takeWhile isDigit = render n := by
  rw [List.takeWhile_append_of_pos fun _ hd => isDigit_of_mem_render hd,
    List.takeWhile_cons_of_neg (by simp [hc]), List.append_nil]

/-- A greater number has no shorter text. -/
theorem length_render_mono {n m : ℕ} (h : n ≤ m) : (render n).length ≤ (render m).length := by
  unfold render
  by_cases hm : m = 0
  · rw [if_pos hm, if_pos (by omega)]
  · rw [if_neg hm]
    split
    · rw [List.length_map, List.length_reverse]
      exact List.length_pos_iff.mpr (Nat.digits_ne_nil_iff_ne_zero.mpr hm)
    · rw [List.length_map, List.length_map, List.length_reverse, List.length_reverse]
      exact Nat.le_length_digits_le 10 n m h

/-! ## A fixed number of digits -/

/-- The last `k` digits of a number. -/
def lastDigits (k n : ℕ) : List UInt8 := (List.range k).reverse.map fun i => digit (n / 10 ^ i % 10)

theorem length_lastDigits (k n : ℕ) : (lastDigits k n).length = k := by
  rw [lastDigits, List.length_map, List.length_reverse, List.length_range]

theorem lastDigits_succ (k n : ℕ) : lastDigits (k + 1) n = digit (n / 10 ^ k % 10) :: lastDigits k n := by
  rw [lastDigits, List.range_succ, List.reverse_append, List.map_append]
  rfl

theorem isDigit_of_mem_lastDigits {k n : ℕ} {c : UInt8} (h : c ∈ lastDigits k n) : isDigit c = true := by
  obtain ⟨i, -, rfl⟩ := List.mem_map.mp h
  exact isDigit_digit (Nat.mod_lt _ (by omega))

theorem value_append (ds es : List UInt8) : value (ds ++ es) = value ds * 10 ^ es.length + value es := by
  induction es using List.reverseRecOn with
  | nil => simp [value]
  | append_singleton es e ih =>
    rw [← List.append_assoc, value_concat, ih, value_concat, List.length_append, List.length_singleton]
    ring

theorem value_lastDigits (k n : ℕ) : value (lastDigits k n) = n % 10 ^ k := by
  induction k with
  | zero => simp [lastDigits, value, Nat.mod_one]
  | succ k ih =>
    have hone : value [digit (n / 10 ^ k % 10)] = n / 10 ^ k % 10 := by
      simp [value, toNat_digit (Nat.mod_lt (n / 10 ^ k) (by omega : 0 < 10))]
    rw [lastDigits_succ, ← List.singleton_append, value_append, hone, ih, length_lastDigits,
      Nat.mod_pow_succ]
    ring

theorem value_render_lastDigits (k n : ℕ) : value (render (n / 10 ^ k) ++ lastDigits k n) = n := by
  rw [value_append, value_render, value_lastDigits, length_lastDigits]
  exact Nat.div_add_mod' n (10 ^ k)

end Decimal
