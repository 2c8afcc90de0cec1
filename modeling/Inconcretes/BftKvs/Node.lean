import Inconcretes.Lib.Pod
import Mathlib.Data.List.GetD
import Mathlib.Data.List.TakeWhile

/-!
# Tuples and nodes

`tuple<KS, VS>` holds a key, a value and a time in fixed character arrays, and `eig_node<NT, KS, VS>` up to
`NT` tuples. Both are modelled with all their bytes, the padding of the compiler included, because the tree
copies and digests whole objects.

A node that starts out cleared and is filled by `push` holds exactly the writes pushed
(`EigNode.Holds`): `strcpy` writes only a prefix of each field, and what follows the terminator is still
zero.
-/

namespace Achal

/-- `uint32_t`. -/
abbrev Uint32 := Fin (2 ^ 32)

/-- `uint64_t`. -/
abbrev Uint64 := Fin (2 ^ 64)

instance instNeZeroUint64 : NeZero (2 ^ 64) := ⟨by norm_num⟩

/-- `std::string`. -/
abbrev Str := List UInt8

/-- `char[n]`. -/
abbrev CharArray (n : ℕ) := List.Vector UInt8 n

/-! ## C strings -/

/-- The characters before the first NUL. -/
def cStr (s : List UInt8) : Str := s.takeWhile (· ≠ 0)

/-- `strcpy(dst, src.c_str())`. -/
def strcpy {n : ℕ} (dst : CharArray n) (src : Str) : CharArray n := Pod.overlay (cStr src ++ [0]) dst

/-- `a[n] = '\0'` for an array of `n + 1` characters. -/
def terminate {n : ℕ} (a : CharArray (n + 1)) : CharArray (n + 1) := a.set (Fin.last n) 0

theorem nul_notMem_cStr (s : List UInt8) : 0 ∉ cStr s := fun h => by
  simpa using List.mem_takeWhile_imp h

theorem length_cStr_le (s : List UInt8) : (cStr s).length ≤ s.length := List.takeWhile_sublist _ |>.length_le

theorem cStr_append {s : Str} (h : 0 ∉ s) (rest : List UInt8) : cStr (s ++ rest) = s ++ cStr rest :=
  List.takeWhile_append_of_pos fun b hb => by
    simpa using fun h0 : b = 0 => h (h0 ▸ hb)

theorem cStr_eq_self {s : Str} (h : 0 ∉ s) : cStr s = s := by
  have happ := cStr_append h []
  rwa [List.append_nil, show cStr [] = [] from rfl, List.append_nil] at happ

theorem cStr_append_zero {s : Str} (h : 0 ∉ s) (rest : List UInt8) : cStr (s ++ 0 :: rest) = s := by
  rw [cStr_append h, cStr, List.takeWhile_cons_of_neg (by simp), List.append_nil]

theorem bytes_charArray {n : ℕ} (a : CharArray n) : Pod.bytes a = a.toList := by
  show a.toList.flatMap (fun b => [b]) = a.toList
  rw [List.flatMap_singleton']

/-- A string copied into a cleared array is followed by zeros only. -/
theorem toList_strcpy_zero {n : ℕ} {s : Str} (hs : (cStr s).length ≤ n) :
    (strcpy (Pod.zero : CharArray (n + 1)) s).toList
      = cStr s ++ 0 :: List.replicate (n - (cStr s).length) 0 := by
  have hsize : Pod.size (CharArray (n + 1)) = n + 1 := Nat.mul_one _
  rw [← bytes_charArray, strcpy, Pod.bytes_overlay, Pod.bytes_zero, hsize,
    List.take_of_length_le (by simpa using hs), List.drop_replicate, List.append_assoc,
    List.length_append, List.length_singleton, Nat.add_sub_add_right]
  rfl

/-- Terminating the array does not shorten the string. -/
theorem cStr_terminate_strcpy {n : ℕ} {s : Str} (hs : s.length ≤ n) :
    cStr (terminate (strcpy (Pod.zero : CharArray (n + 1)) s)).toList = cStr s := by
  have hle := (length_cStr_le s).trans hs
  rw [terminate, List.Vector.toList_set, toList_strcpy_zero hle, Fin.val_last,
    List.set_append_right _ _ hle]
  cases n - (cStr s).length with
  | zero => exact cStr_append_zero (nul_notMem_cStr s) _
  | succ k => exact cStr_append_zero (nul_notMem_cStr s) _

/-- What a terminated array holds fits into it. -/
theorem length_cStr_terminate_le {n : ℕ} (a : CharArray (n + 1)) : (cStr (terminate a).toList).length ≤ n := by
  by_contra hlong
  have hlen : (terminate a).toList.length = n + 1 := (terminate a).toList_length
  have hmem : (0 : UInt8) ∈ cStr (terminate a).toList := by
    have hall : cStr (terminate a).toList = (terminate a).toList :=
      (List.takeWhile_prefix _).eq_of_length
        (le_antisymm (length_cStr_le _) (hlen.trans_le (Nat.lt_of_not_le hlong)))
    rw [hall, terminate, List.Vector.toList_set, Fin.val_last]
    exact List.mem_set (by rw [a.toList_length]; exact n.lt_succ_self) 0
  exact nul_notMem_cStr _ hmem

/-! ## The structures -/

/-- The template arguments of `BFTKVS`. The loops over tuples count in `int`. -/
structure Params where
  NT : ℕ
  KS : ℕ
  VS : ℕ
  NT_lt : NT < 2 ^ 31

/-- Room for one tuple. -/
abbrev oneTuple (KS VS : ℕ) : Params := ⟨1, KS, VS, by decide⟩

variable {P : Params}

/-- `struct tuple<KS, VS>`. -/
structure Tuple (P : Params) where
  key : CharArray (P.KS + 1)
  value : CharArray (P.VS + 1)
  /-- Bytes that align `time`. -/
  padding : CharArray ((8 - (P.KS + 1 + (P.VS + 1)) % 8) % 8)
  time : Uint64
  deriving DecidableEq

/-- `struct eig_node<NT, KS, VS>`. -/
structure EigNode (P : Params) where
  length : Uint32
  /-- Bytes that align `tuples`. -/
  padding : CharArray 4
  tuples : List.Vector (Tuple P) P.NT
  deriving DecidableEq

def Tuple.equivProd (P : Params) : Tuple P ≃ CharArray (P.KS + 1) × CharArray (P.VS + 1) ×
    CharArray ((8 - (P.KS + 1 + (P.VS + 1)) % 8) % 8) × Uint64 where
  toFun t := (t.key, t.value, t.padding, t.time)
  invFun x := ⟨x.1, x.2.1, x.2.2.1, x.2.2.2⟩
  left_inv _ := rfl
  right_inv _ := rfl

instance : Pod (Tuple P) := Pod.ofEquiv (Tuple.equivProd P)

def EigNode.equivProd (P : Params) :
    EigNode P ≃ Uint32 × CharArray 4 × List.Vector (Tuple P) P.NT where
  toFun n := (n.length, n.padding, n.tuples)
  invFun x := ⟨x.1, x.2.1, x.2.2⟩
  left_inv _ := rfl
  right_inv _ := rfl

instance : Pod (EigNode P) := Pod.ofEquiv (EigNode.equivProd P)

theorem Tuple.zero_key : (Pod.zero : Tuple P).key = Pod.zero := by
  have h : (Tuple.equivProd P).symm Pod.zero = (Pod.zero : Tuple P) := rfl
  rw [← h, Pod.zero_prod]
  rfl

theorem Tuple.zero_value : (Pod.zero : Tuple P).value = Pod.zero := by
  have h : (Tuple.equivProd P).symm Pod.zero = (Pod.zero : Tuple P) := rfl
  rw [← h, Pod.zero_prod, Pod.zero_prod]
  rfl

theorem EigNode.zero_length : (Pod.zero : EigNode P).length = 0 := by
  have h : (EigNode.equivProd P).symm Pod.zero = (Pod.zero : EigNode P) := rfl
  rw [← h, Pod.zero_prod]
  exact Pod.zero_uint32

theorem EigNode.zero_tuples : (Pod.zero : EigNode P).tuples = List.Vector.replicate P.NT Pod.zero := by
  have h : (EigNode.equivProd P).symm Pod.zero = (Pod.zero : EigNode P) := rfl
  rw [← h, Pod.zero_prod, Pod.zero_prod, ← Pod.zero_vector]
  rfl

/-! ## Reading and filling a node -/

/-- A key with a time and a value. -/
structure Ktv where
  key : Str
  time : Uint64
  value : Str
  deriving DecidableEq

/-- A write within the sizes of a tuple. -/
structure Ktv.Fits (P : Params) (w : Ktv) : Prop where
  key_le : w.key.length ≤ P.KS
  value_le : w.value.length ≤ P.VS

/-- A write whose strings contain no NUL byte. -/
structure Ktv.NulFree (w : Ktv) : Prop where
  key : 0 ∉ w.key
  value : 0 ∉ w.value

/-- What C strings keep of a write. -/
def Ktv.encoded (w : Ktv) : Ktv := ⟨cStr w.key, w.time, cStr w.value⟩

theorem Ktv.NulFree.encoded_eq {w : Ktv} (h : w.NulFree) : w.encoded = w := by
  rw [encoded, cStr_eq_self h.key, cStr_eq_self h.value]

/-- What the fuse functions read from a tuple, after they have terminated its strings. -/
def Tuple.read (t : Tuple P) : Ktv where
  key := cStr (terminate t.key).toList
  time := t.time
  value := cStr (terminate t.value).toList

theorem Tuple.length_value_read_le (t : Tuple P) : t.read.value.length ≤ P.VS :=
  length_cStr_terminate_le t.value

/-- `strcpy(t.key, key.c_str())`, `t.time = publish_time`, `strcpy(t.value, value.c_str())`. -/
def Tuple.write (t : Tuple P) (w : Ktv) : Tuple P :=
  { t with key := strcpy t.key w.key, time := w.time, value := strcpy t.value w.value }

/-- What is written into a cleared tuple reads back. -/
theorem Tuple.read_write {w : Ktv} (hw : w.Fits P) :
    ((Pod.zero : Tuple P).write w).read = w.encoded := by
  rw [read, write, zero_key, zero_value]
  simp only [cStr_terminate_strcpy hw.key_le, cStr_terminate_strcpy hw.value_le]
  rfl

namespace EigNode

/-- The tuples in use, for a node whose length has been checked. -/
def decode (n : EigNode P) : List Ktv := (n.tuples.toList.take n.length).map Tuple.read

/-- Write a tuple behind the last one, `tuples[length++]`. -/
def push (n : EigNode P) (w : Ktv) : EigNode P :=
  { n with
    length := n.length + 1
    tuples := ⟨n.tuples.toList.set n.length ((n.tuples.toList.getD n.length Pod.zero).write w),
      by rw [List.length_set, n.tuples.toList_length]⟩ }

/-- The node holds the writes `ws`, and zeros behind them. -/
def Holds (n : EigNode P) (ws : List Ktv) : Prop :=
  n.length.val = ws.length ∧ ∃ used : List (Tuple P), used.map Tuple.read = ws.map Ktv.encoded ∧
    n.tuples.toList = used ++ List.replicate (P.NT - ws.length) Pod.zero

theorem holds_zero : Holds (Pod.zero : EigNode P) [] := by
  refine ⟨by rw [zero_length]; rfl, [], rfl, ?_⟩
  rw [zero_tuples]
  rfl

theorem Holds.decode_eq {n : EigNode P} {ws : List Ktv} (h : n.Holds ws) :
    n.decode = ws.map Ktv.encoded := by
  obtain ⟨hlen, used, hused, htuples⟩ := h
  have hlenUsed : used.length = ws.length := by simpa using congrArg List.length hused
  rw [decode, htuples, hlen, ← hlenUsed, List.take_left, hused]

/-- One more write, while there is room. -/
theorem Holds.push {n : EigNode P} {ws : List Ktv} (h : n.Holds ws) (hroom : ws.length < P.NT) {w : Ktv}
    (hw : w.Fits P) : (n.push w).Holds (ws ++ [w]) := by
  obtain ⟨hlen, used, hused, htuples⟩ := h
  have hlenUsed : used.length = ws.length := by simpa using congrArg List.length hused
  have hsplit : List.replicate (P.NT - ws.length) (Pod.zero : Tuple P)
      = Pod.zero :: List.replicate (P.NT - (ws.length + 1)) Pod.zero := by
    rw [← List.replicate_succ]
    congr 1
    omega
  have hslot : n.tuples.toList.getD n.length Pod.zero = Pod.zero := by
    rw [htuples, hlen, ← hlenUsed, List.getD_append_right _ _ _ _ le_rfl, Nat.sub_self, hlenUsed, hsplit]
    rfl
  refine ⟨?_, used ++ [(Pod.zero : Tuple P).write w], ?_, ?_⟩
  · -- the counter does not wrap
    have hNT := P.NT_lt
    show (n.length + 1).val = _
    rw [Fin.val_add_one_of_lt' (by omega), hlen, List.length_append, List.length_singleton]
  · rw [List.map_append, hused, List.map_singleton, Tuple.read_write hw, List.map_append,
      List.map_singleton]
  · show n.tuples.toList.set n.length _ = _
    rw [hslot, htuples, hlen, ← hlenUsed, List.set_append_right _ _ le_rfl, Nat.sub_self, hlenUsed,
      hsplit, List.set_cons_zero, List.length_append, List.length_singleton, List.append_assoc]
    rfl

end EigNode

end Achal
