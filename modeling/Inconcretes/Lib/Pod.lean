import Mathlib.Data.Nat.Digits.Lemmas
import Mathlib.Data.Vector.Basic

/-!
# Trivially copyable values and their bytes

A `Pod` value is its object representation: `Pod.size` bytes, every pattern of which is a value. The
operations that a program performs on the raw memory of such a value (clear it, copy bytes over its
beginning, digest it) are stated on the bytes. Integers are stored little-endian.
-/

/-! ## Little-endian integers -/

/-- The `w` bytes of `n`, least significant first. -/
def leBytes (w n : ℕ) : List UInt8 := (Nat.digitsAppend 256 w n).map UInt8.ofNat

/-- The number with the bytes `bs`, least significant first. -/
def leNat (bs : List UInt8) : ℕ := Nat.ofDigits 256 (bs.map UInt8.toNat)

theorem map_toNat_lt (bs : List UInt8) : ∀ x ∈ bs.map UInt8.toNat, x < 256 := by
  intro x hx
  obtain ⟨b, -, rfl⟩ := List.mem_map.mp hx
  exact b.toNat_lt

theorem leNat_lt (bs : List UInt8) : leNat bs < 256 ^ bs.length := by
  have := Nat.ofDigits_lt_base_pow_length (b := 256) (by norm_num) (map_toNat_lt bs)
  rwa [List.length_map] at this

theorem length_leBytes {w n : ℕ} (hn : n < 256 ^ w) : (leBytes w n).length = w := by
  rw [leBytes, List.length_map, Nat.length_digitsAppend (by norm_num) w hn]

theorem leNat_leBytes {w n : ℕ} (hn : n < 256 ^ w) : leNat (leBytes w n) = n := by
  have hmap : ((Nat.digitsAppend 256 w n).map UInt8.ofNat).map UInt8.toNat
      = Nat.digitsAppend 256 w n := by
    rw [List.map_map]
    conv_rhs => rw [← List.map_id (Nat.digitsAppend 256 w n)]
    apply List.map_congr_left
    intro x hx
    have hx' : x < 256 := Nat.lt_of_mem_digitsAppend (by norm_num) w x hx
    simpa using Nat.mod_eq_of_lt hx'
  rw [leNat, leBytes, hmap]
  exact (Nat.setInvOn_digitsAppend_ofDigits (by norm_num) w).2 hn

theorem leBytes_leNat (bs : List UInt8) : leBytes bs.length (leNat bs) = bs := by
  have hmem : bs.map UInt8.toNat ∈ {L : List ℕ | L.length = bs.length ∧ ∀ x ∈ L, x < 256} :=
    ⟨List.length_map _, map_toNat_lt bs⟩
  rw [leBytes, leNat, (Nat.setInvOn_digitsAppend_ofDigits (by norm_num) bs.length).1 hmem,
    List.map_map]
  conv_rhs => rw [← List.map_id bs]
  exact List.map_congr_left fun b _ => UInt8.ofNat_toNat

/-! ## Values as bytes -/

/-- A type whose values are exactly the patterns of `size` bytes. -/
class Pod (T : Type*) where
  size : ℕ
  bytes : T → List UInt8
  ofBytes : List UInt8 → T
  length_bytes : ∀ x, (bytes x).length = size
  ofBytes_bytes : ∀ x, ofBytes (bytes x) = x
  bytes_ofBytes : ∀ bs, bs.length = size → bytes (ofBytes bs) = bs

namespace Pod

attribute [simp] length_bytes ofBytes_bytes

variable {T : Type*} [Pod T]

theorem bytes_injective : Function.Injective (bytes : T → List UInt8) :=
  Function.LeftInverse.injective ofBytes_bytes

/-- `memset(&x, 0, sizeof(T))`. -/
def zero : T := ofBytes (List.replicate (size T) 0)

theorem bytes_zero : bytes (zero : T) = List.replicate (size T) 0 :=
  bytes_ofBytes _ (List.length_replicate ..)

/-- Copy `bs` over the first bytes of `x`, as much of it as fits. -/
def overlay (bs : List UInt8) (x : T) : T :=
  ofBytes (bs.take (size T) ++ (bytes x).drop bs.length)

theorem bytes_overlay (bs : List UInt8) (x : T) :
    bytes (overlay bs x) = bs.take (size T) ++ (bytes x).drop bs.length :=
  bytes_ofBytes _ (by rw [List.length_append, List.length_take, List.length_drop, length_bytes]; omega)

/-- Copying all bytes of a value leaves this value. -/
theorem overlay_append (x : T) (bs : List UInt8) (y : T) : overlay (bytes x ++ bs) y = x := by
  apply bytes_injective
  rw [bytes_overlay, List.take_left' (length_bytes x), List.drop_of_length_le, List.append_nil]
  rw [length_bytes, List.length_append, length_bytes]
  exact Nat.le_add_right _ _

/-- Copying nothing changes nothing. -/
theorem overlay_nil (x : T) : overlay [] x = x := by
  apply bytes_injective
  rw [bytes_overlay, List.take_nil, List.nil_append, List.length_nil, List.drop_zero]

/-! ## Compound values -/

variable {U : Type*} [Pod U]

/-- The representation of an equivalent type. -/
abbrev ofEquiv {T : Type*} (e : T ≃ U) : Pod T where
  size := size U
  bytes x := bytes (e x)
  ofBytes bs := e.symm (ofBytes bs)
  length_bytes x := length_bytes (e x)
  ofBytes_bytes x := by rw [ofBytes_bytes, e.symm_apply_apply]
  bytes_ofBytes bs h := by rw [e.apply_symm_apply, bytes_ofBytes bs h]

/-- Two members, one after the other. -/
instance : Pod (T × U) where
  size := size T + size U
  bytes x := bytes x.1 ++ bytes x.2
  ofBytes bs := (ofBytes (bs.take (size T)), ofBytes (bs.drop (size T)))
  length_bytes x := by rw [List.length_append, length_bytes, length_bytes]
  ofBytes_bytes x := by
    rw [List.take_left' (length_bytes x.1), List.drop_left' (length_bytes x.1), ofBytes_bytes,
      ofBytes_bytes]
  bytes_ofBytes bs h := by
    rw [bytes_ofBytes _ (by rw [List.length_take]; omega),
      bytes_ofBytes _ (by rw [List.length_drop]; omega), List.take_append_drop]

theorem zero_prod : (zero : T × U) = (zero, zero) := by
  apply bytes_injective
  rw [bytes_zero]
  show List.replicate (size T + size U) 0 = bytes (zero : T) ++ bytes (zero : U)
  rw [bytes_zero, bytes_zero, List.replicate_add]

/-- The values whose bytes stand one after the other in `bs`. -/
def split (T : Type*) [Pod T] : ℕ → List UInt8 → List T
  | 0, _ => []
  | n + 1, bs => ofBytes (bs.take (size T)) :: split T n (bs.drop (size T))

theorem length_split (n : ℕ) (bs : List UInt8) : (split T n bs).length = n := by
  induction n generalizing bs with
  | zero => rfl
  | succ n ih => rw [split, List.length_cons, ih]

theorem length_flatMap_bytes (xs : List T) : (xs.flatMap bytes).length = xs.length * size T := by
  induction xs with
  | nil => simp
  | cons x xs ih => rw [List.flatMap_cons, List.length_append, length_bytes, ih, List.length_cons]; ring

theorem split_flatMap_bytes (xs : List T) : split T xs.length (xs.flatMap bytes) = xs := by
  induction xs with
  | nil => rfl
  | cons x xs ih =>
    rw [List.length_cons, List.flatMap_cons, split, List.take_left' (length_bytes x),
      List.drop_left' (length_bytes x), ofBytes_bytes, ih]

theorem flatMap_bytes_split {n : ℕ} {bs : List UInt8} (h : bs.length = n * size T) :
    (split T n bs).flatMap bytes = bs := by
  induction n generalizing bs with
  | zero => simpa [split] using (List.length_eq_zero_iff.mp (by simpa using h)).symm
  | succ n ih =>
    rw [Nat.succ_mul] at h
    rw [split, List.flatMap_cons, ih (by rw [List.length_drop]; omega),
      bytes_ofBytes _ (by rw [List.length_take]; omega), List.take_append_drop]

/-- An array. -/
instance (n : ℕ) : Pod (List.Vector T n) where
  size := n * size T
  bytes x := x.toList.flatMap bytes
  ofBytes bs := ⟨split T n bs, length_split n bs⟩
  length_bytes x := by rw [length_flatMap_bytes, x.toList_length]
  ofBytes_bytes x := by
    refine List.Vector.eq _ _ ?_
    have h := split_flatMap_bytes x.toList
    rwa [x.toList_length] at h
  bytes_ofBytes bs h := flatMap_bytes_split h

theorem zero_vector (n : ℕ) : (zero : List.Vector T n) = List.Vector.replicate n zero := by
  apply bytes_injective
  rw [bytes_zero]
  show List.replicate (n * size T) 0 = (List.replicate n (zero : T)).flatMap bytes
  induction n with
  | zero => simp
  | succ n ih =>
    rw [List.replicate_succ, List.flatMap_cons, ← ih, bytes_zero, Nat.succ_mul, Nat.add_comm,
      List.replicate_add]

/-- An unsigned integer of `w` bytes. -/
abbrev fin (w n : ℕ) (h : n = 256 ^ w) : Pod (Fin n) where
  size := w
  bytes x := leBytes w x
  ofBytes bs := ⟨leNat bs % n, Nat.mod_lt _ (h ▸ Nat.pow_pos (by norm_num))⟩
  length_bytes x := length_leBytes (h ▸ x.isLt)
  ofBytes_bytes x := Fin.ext (by
    rw [leNat_leBytes (h ▸ x.isLt)]
    exact Nat.mod_eq_of_lt x.isLt)
  bytes_ofBytes bs hbs := by
    have hlt : leNat bs < n := by rw [h, ← hbs]; exact leNat_lt bs
    show leBytes w (leNat bs % n) = bs
    rw [Nat.mod_eq_of_lt hlt, ← hbs, leBytes_leNat]

instance : Pod (Fin (2 ^ 32)) := fin 4 _ (by norm_num)

instance : Pod (Fin (2 ^ 64)) := fin 8 _ (by norm_num)

theorem leNat_replicate_zero (n : ℕ) : leNat (List.replicate n 0) = 0 := by
  induction n with
  | zero => rfl
  | succ n ih =>
    rw [leNat, List.replicate_succ, List.map_cons, Nat.ofDigits_cons, ← leNat, ih]
    rfl

theorem zero_uint32 : (zero : Fin (2 ^ 32)) = 0 :=
  Fin.ext (by
    show leNat (List.replicate 4 0) % 2 ^ 32 = 0
    rw [leNat_replicate_zero]
    rfl)

end Pod

/-- A single byte. -/
instance : Pod UInt8 where
  size := 1
  bytes b := [b]
  ofBytes bs := bs.headD 0
  length_bytes _ := rfl
  ofBytes_bytes _ := rfl
  bytes_ofBytes bs h := by
    obtain ⟨b, rfl⟩ := List.length_eq_one_iff.mp h
    rfl
