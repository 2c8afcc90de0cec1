import Mathlib.Data.List.Infix
import Mathlib.Order.Monotone.Basic

/-!
# A byte stream in portions

A reader gets a stream in portions, and takes them whole, or exactly as many elements as it wants. The
lemmas say what it has then, and that it does the same when some of the last portions are still missing.
The second part is about the positions of the frames in a stream of frames.
-/

namespace Portions

variable {α : Type*}

/-- Take whole portions, behind the elements `b`, until there are `k` elements; and the portions left. -/
def fill (k : ℕ) : List α → List (List α) → Option (List α × List (List α))
  | _, [] => none
  | b, seg :: segs => if (b ++ seg).length < k then fill k (b ++ seg) segs else some (b ++ seg, segs)

/-- What is left of the portions behind the next `n` elements. -/
def skip : List (List α) → ℕ → Option (List (List α))
  | segs, 0 => some segs
  | [], _ + 1 => none
  | seg :: segs, n + 1 =>
    if n + 1 < seg.length then some (seg.drop (n + 1) :: segs) else skip segs (n + 1 - seg.length)

variable {k : ℕ}

/-! ## Taking elements from portions -/

theorem fill_spec {b : List α} {segs : List (List α)} {got : List α} {segs' : List (List α)}
    (h : fill k b segs = some (got, segs')) :
    got ++ segs'.flatten = b ++ segs.flatten ∧ k ≤ got.length := by
  fun_induction fill k b segs with
  | case1 b => exact absurd h nofun
  | case2 b seg segs hshort ih =>
    obtain ⟨hgot, hlen⟩ := ih h
    exact ⟨by rw [hgot, List.flatten_cons, List.append_assoc], hlen⟩
  | case3 b seg segs hlong =>
    obtain ⟨rfl, rfl⟩ := Prod.mk.inj (Option.some.inj h)
    exact ⟨by rw [List.flatten_cons, List.append_assoc], not_lt.mp hlong⟩

theorem fill_none {b : List α} {segs : List (List α)} (hb : b.length < k) (h : fill k b segs = none) :
    (b ++ segs.flatten).length < k := by
  fun_induction fill k b segs with
  | case1 b => simpa using hb
  | case2 b seg segs hshort ih =>
    rw [List.flatten_cons, ← List.append_assoc]
    exact ih hshort h
  | case3 b seg segs hlong => exact absurd h nofun

/-- Only the last portion reaches beyond. -/
theorem length_fill {b : List α} {segs : List (List α)} {got : List α} {segs' : List (List α)} {m : ℕ}
    (hb : b.length < k) (hsegs : ∀ seg ∈ segs, seg.length < m)
    (h : fill k b segs = some (got, segs')) :
    got.length < k + m ∧ ∀ seg ∈ segs', seg.length < m := by
  fun_induction fill k b segs with
  | case1 b => exact absurd h nofun
  | case2 b seg segs hshort ih => exact ih hshort (List.forall_mem_cons.mp hsegs).2 h
  | case3 b seg segs hlong =>
    obtain ⟨rfl, rfl⟩ := Prod.mk.inj (Option.some.inj h)
    obtain ⟨hseg, hsegs⟩ := List.forall_mem_cons.mp hsegs
    refine ⟨?_, hsegs⟩
    rw [List.length_append]
    omega

/-- The portions that it takes, and `n` more. -/
theorem fill_take {b : List α} {segs : List (List α)} {got : List α} {segs' : List (List α)}
    (h : fill k b segs = some (got, segs')) :
    ∃ m, ∀ n, fill k b (segs.take (m + n)) = some (got, segs'.take n) := by
  fun_induction fill k b segs with
  | case1 b => exact absurd h nofun
  | case2 b seg segs hshort ih =>
    obtain ⟨m, hm⟩ := ih h
    refine ⟨m + 1, fun n => ?_⟩
    rw [Nat.add_right_comm, List.take_succ_cons, fill, if_pos hshort, hm]
  | case3 b seg segs hlong =>
    obtain ⟨rfl, rfl⟩ := Prod.mk.inj (Option.some.inj h)
    refine ⟨1, fun n => ?_⟩
    rw [Nat.add_comm, List.take_succ_cons, fill, if_neg hlong]

theorem fill_of_take {b : List α} {segs : List (List α)} {got : List α} {segs₁ : List (List α)} {n : ℕ}
    (h : fill k b (segs.take n) = some (got, segs₁)) :
    ∃ segs' j, fill k b segs = some (got, segs') ∧ segs₁ = segs'.take j := by
  fun_induction fill k b segs generalizing n with
  | case1 b =>
    rw [List.take_nil] at h
    exact absurd h nofun
  | case2 b seg segs hshort ih =>
    cases n with
    | zero => exact absurd h nofun
    | succ n =>
      rw [List.take_succ_cons, fill, if_pos hshort] at h
      exact ih h
  | case3 b seg segs hlong =>
    cases n with
    | zero => exact absurd h nofun
    | succ n =>
      rw [List.take_succ_cons, fill, if_neg hlong] at h
      obtain ⟨rfl, rfl⟩ := Prod.mk.inj (Option.some.inj h)
      exact ⟨segs, n, rfl, rfl⟩

theorem skip_spec {segs segs' : List (List α)} {n : ℕ} (h : skip segs n = some segs') :
    segs.flatten.take n ++ segs'.flatten = segs.flatten ∧ n ≤ segs.flatten.length := by
  fun_induction skip segs n with
  | case1 segs =>
    obtain rfl := Option.some.inj h
    exact ⟨rfl, Nat.zero_le _⟩
  | case2 n => exact absurd h nofun
  | case3 seg segs n hlt =>
    obtain rfl := Option.some.inj h
    rw [List.flatten_cons, List.length_append, List.take_append_of_le_length hlt.le, List.flatten_cons,
      ← List.append_assoc, List.take_append_drop]
    exact ⟨rfl, by omega⟩
  | case4 seg segs n hge ih =>
    obtain ⟨hflat, hlen⟩ := ih h
    rw [List.flatten_cons, List.length_append, List.take_append,
      List.take_of_length_le (not_lt.mp hge), List.append_assoc, hflat]
    exact ⟨rfl, by omega⟩

theorem skip_none {segs : List (List α)} {n : ℕ} (h : skip segs n = none) :
    segs.flatten.length < n := by
  fun_induction skip segs n with
  | case1 segs => exact absurd h nofun
  | case2 n => exact Nat.succ_pos n
  | case3 seg segs n hlt => exact absurd h nofun
  | case4 seg segs n hge ih =>
    have := ih h
    rw [List.flatten_cons, List.length_append]
    omega

theorem length_skip {segs segs' : List (List α)} {n m : ℕ} (hsegs : ∀ seg ∈ segs, seg.length < m)
    (h : skip segs n = some segs') : ∀ seg ∈ segs', seg.length < m := by
  fun_induction skip segs n with
  | case1 segs =>
    obtain rfl := Option.some.inj h
    exact hsegs
  | case2 n => exact absurd h nofun
  | case3 seg segs n hlt =>
    obtain rfl := Option.some.inj h
    obtain ⟨hseg, hsegs⟩ := List.forall_mem_cons.mp hsegs
    exact List.forall_mem_cons.mpr ⟨((List.drop_suffix _ _).length_le).trans_lt hseg, hsegs⟩
  | case4 seg segs n hge ih => exact ih (List.forall_mem_cons.mp hsegs).2 h

/-- The portions that it drops, at most one of them in part, and `k` more. -/
theorem skip_take {segs segs' : List (List α)} {n : ℕ} (h : skip segs n = some segs') :
    ∃ m c, c ≤ 1 ∧ ∀ k, skip (segs.take (m + k)) n = some (segs'.take (c + k)) := by
  fun_induction skip segs n with
  | case1 segs =>
    obtain rfl := Option.some.inj h
    exact ⟨0, 0, Nat.zero_le _, fun k => by rw [skip]⟩
  | case2 n => exact absurd h nofun
  | case3 seg segs n hlt =>
    obtain rfl := Option.some.inj h
    refine ⟨1, 1, le_rfl, fun k => ?_⟩
    rw [Nat.add_comm, List.take_succ_cons, List.take_succ_cons, skip, if_pos hlt]
  | case4 seg segs n hge ih =>
    obtain ⟨m, c, hc, hm⟩ := ih h
    refine ⟨m + 1, c, hc, fun k => ?_⟩
    rw [Nat.add_right_comm, List.take_succ_cons, skip, if_neg hge, hm]

theorem skip_of_take {segs segs₁ : List (List α)} {n m : ℕ} (h : skip (segs.take m) n = some segs₁) :
    ∃ segs' k, skip segs n = some segs' ∧ segs₁ = segs'.take k := by
  fun_induction skip segs n generalizing m with
  | case1 segs =>
    rw [skip] at h
    exact ⟨segs, m, rfl, (Option.some.inj h).symm⟩
  | case2 n =>
    rw [List.take_nil] at h
    exact absurd h nofun
  | case3 seg segs n hlt =>
    cases m with
    | zero => exact absurd h nofun
    | succ m =>
      rw [List.take_succ_cons, skip, if_pos hlt] at h
      exact ⟨_, m + 1, rfl, (Option.some.inj h).symm⟩
  | case4 seg segs n hge ih =>
    cases m with
    | zero => exact absurd h nofun
    | succ m =>
      rw [List.take_succ_cons, skip, if_neg hge] at h
      exact ih h

/-! ## Frames -/

/-- The first `n` frames. -/
def stream (frame : ℕ → List α) (n : ℕ) : List α := (List.range n).flatMap frame

/-- The position of frame `n`. -/
def offset (frame : ℕ → List α) (n : ℕ) : ℕ := (stream frame n).length

variable (frame : ℕ → List α)

theorem stream_succ (n : ℕ) : stream frame (n + 1) = stream frame n ++ frame n := by
  rw [stream, List.range_succ, List.flatMap_append, List.flatMap_singleton, stream]

theorem offset_succ (n : ℕ) : offset frame (n + 1) = offset frame n + (frame n).length := by
  rw [offset, stream_succ, List.length_append, offset]

theorem stream_mono {m n : ℕ} (h : m ≤ n) : stream frame m <+: stream frame n := by
  induction n, h using Nat.le_induction with
  | base => exact List.prefix_rfl
  | succ n _ ih => exact ih.trans (stream_succ frame n ▸ List.prefix_append _ _)

theorem offset_mono : Monotone (offset frame) := fun _ _ h => (stream_mono frame h).length_le

/-- Behind the first `i` frames comes frame `i`. -/
theorem drop_offset {i n : ℕ} (h : i < n) : (stream frame n).drop (offset frame i)
    = frame i ++ (stream frame n).drop (offset frame (i + 1)) := by
  obtain ⟨rest, hrest⟩ := stream_mono frame (Nat.succ_le_of_lt h)
  rw [← hrest, offset, offset, List.drop_left, stream_succ, List.append_assoc, List.drop_left]

/-! ## What a reader holds -/

/-- `b` is what has been taken from position `pos` on, when `taken` elements have been taken in all. -/
def TakenFrom (s : List α) (taken pos : ℕ) (b : List α) : Prop := taken = pos + b.length ∧ b <+: s.drop pos

namespace TakenFrom

variable {s : List α} {taken pos : ℕ} {b : List α}

theorem nil (s : List α) (pos : ℕ) : TakenFrom s pos pos [] := ⟨rfl, List.nil_prefix⟩

theorem mono (h : TakenFrom s taken pos b) {s' : List α} (hs : s <+: s') : TakenFrom s' taken pos b :=
  ⟨h.1, h.2.trans (hs.drop pos)⟩

/-- Take `n` more. -/
theorem append (h : TakenFrom s taken pos b) {n : ℕ} (hn : n ≤ (s.drop taken).length) :
    TakenFrom s (taken + n) pos (b ++ (s.drop taken).take n) := by
  refine ⟨?_, ?_⟩
  · rw [List.length_append, List.length_take, min_eq_left hn, h.1, Nat.add_assoc]
  · have htaken : s.drop taken = (s.drop pos).drop b.length := by rw [List.drop_drop, h.1]
    conv_lhs => rw [List.prefix_iff_eq_take.mp h.2, htaken, ← List.take_add]
    exact List.take_prefix _ _

/-- Drop from the front. -/
theorem drop {x y : List α} (h : TakenFrom s taken pos (x ++ y)) : TakenFrom s taken (pos + x.length) y := by
  refine ⟨by rw [h.1, List.length_append, Nat.add_assoc], ?_⟩
  have hdrop := h.2.drop x.length
  rwa [List.drop_left, List.drop_drop] at hdrop

/-- When enough has been taken, it begins with what the stream has there. -/
theorem exists_eq_append (h : TakenFrom s taken pos b) {x rest : List α} (hs : s.drop pos = x ++ rest)
    (hlen : x.length ≤ b.length) : ∃ y, b = x ++ y := by
  obtain ⟨y, hy⟩ := List.prefix_of_prefix_length_le (List.prefix_append x rest) (hs ▸ h.2) hlen
  exact ⟨y, hy.symm⟩

end TakenFrom

end Portions
