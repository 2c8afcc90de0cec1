import Inconcretes.EigTree.Buffers
import Mathlib.Data.List.Infix

/-!
# One connection of a process

In every round a process reads one frame from each peer: the delimiter, then the blocks that the peer
sends. It reads in two steps. `async_read_until` fills `server_buffer` until it contains the delimiter,
and may read further than that; its handler drops everything up to the delimiter and asks `async_read` for
as many bytes as are still missing, a difference of two `size_t`. The second handler moves the buffer into
the slots of the peer. Neither handler looks at the error code, so both also run after a cancellation.

`server_buffer` and the byte stream live as long as the connection.
-/

namespace Achal

/-- `delim`. -/
def delim : List UInt8 := List.replicate 31 0x3D

/-- Conversion of a difference to `size_t`. -/
def toSize (i : ℤ) : ℕ := (i % 2 ^ 64).toNat

/-- The number of bytes up to the end of the first delimiter. -/
def findDelim : List UInt8 → Option ℕ
  | [] => none
  | b :: bs => if delim.isPrefixOf (b :: bs) then some delim.length else (findDelim bs).map (· + 1)

/-- What a round waits for on the connection. -/
inductive Phase
  | idle
  | untilDelim
  | exactly (missing : ℕ)
  | done
  deriving DecidableEq

/-- The tree, and `server_buffer[pid]` with the pending operation on it. -/
structure Link (T : Type*) where
  levels : Levels T
  buffer : List UInt8
  phase : Phase

namespace Link

variable {S : Shape} {T : Type*} [Pod T] (p : Fin S.degree) (l : ℕ)

/-- The size of the slots that a frame of round `l` fills, `len`. -/
def frameSize (T : Type*) [Pod T] : ℕ := (S.receiveBufferOptimized l p).length * Pod.size T

/-- One `sgetn` into slot `i`: as many bytes as there are, at most a whole node. -/
def sgetn (acc : Levels T × List UInt8) (i : ℕ) : Levels T × List UInt8 :=
  (acc.1.set (l + 1) i (Pod.overlay acc.2 (acc.1 (l + 1) i)), acc.2.drop (Pod.size T))

/-- The handler of `async_read`. -/
def onRead (s : Link T) : Link T :=
  let r := (S.receiveBufferOptimized l p).foldl (sgetn l) (s.levels, s.buffer)
  { levels := r.1, buffer := r.2, phase := .done }

/-- `async_read` with `transfer_exactly(missing)`. -/
def asyncRead (missing : ℕ) (s : Link T) : Link T :=
  if missing = 0 then onRead p l s else { s with phase := .exactly missing }

/-- The handler of `async_read_until`: `consume(n)`, then `async_read`. -/
def onReadUntil (n : ℕ) (s : Link T) : Link T :=
  let buffer := s.buffer.drop n
  asyncRead p l (toSize ((frameSize p l T : ℤ) - buffer.length)) { s with buffer := buffer }

/-- `async_read_until`, which completes without reading when the delimiter is already there. -/
def asyncReadUntil (s : Link T) : Link T :=
  match findDelim s.buffer with
  | some n => onReadUntil p l n s
  | none => { s with phase := .untilDelim }

/-- The pending operation reads some bytes. -/
def read (bytes : List UInt8) (s : Link T) : Link T :=
  match s.phase with
  | .untilDelim => asyncReadUntil p l { s with buffer := s.buffer ++ bytes }
  | .exactly missing =>
    asyncRead p l (missing - bytes.length) { s with buffer := s.buffer ++ bytes }
  | _ => s

/-- The pending operation is cancelled: its handler runs, with `n = 0` bytes up to the delimiter. -/
def cancel (s : Link T) : Link T :=
  match s.phase with
  | .untilDelim => onReadUntil p l 0 s
  | .exactly _ => onRead p l s
  | _ => s

/-! ## Frames -/

/-- The blocks that the peer sends in round `l` when it holds `lv`. -/
def payload (lv : Levels T) : List T := (S.sendBufferOptimized l p).map (lv l)

/-- The frame on the wire. -/
def frame (lv : Levels T) : List UInt8 := delim ++ (payload p l lv).flatMap Pod.bytes

theorem length_payload (lv : Levels T) :
    ((payload p l lv).flatMap Pod.bytes).length = frameSize p l T := by
  rw [Pod.length_flatMap_bytes, payload, List.length_map, frameSize, S.receiveBufferOptimized_eq,
    List.length_map]

theorem length_frame (lv : Levels T) : (frame p l lv).length = delim.length + frameSize p l T := by
  rw [frame, List.length_append, length_payload]

theorem delim_length_pos : 0 < delim.length := by decide

theorem findDelim_of_short {bs : List UInt8} (h : bs.length < delim.length) : findDelim bs = none := by
  induction bs with
  | nil => rfl
  | cons b bs ih =>
    have hno : ¬delim.isPrefixOf (b :: bs) = true := fun hpre =>
      absurd (List.isPrefixOf_iff_prefix.mp hpre).length_le (not_le.mpr h)
    rw [findDelim, if_neg hno, ih (by rw [List.length_cons] at h; omega)]
    rfl

theorem findDelim_append (bs : List UInt8) : findDelim (delim ++ bs) = some delim.length := by
  have hcons : delim ++ bs = 0x3D :: (List.replicate 30 0x3D ++ bs) := rfl
  rw [hcons, findDelim, ← hcons, if_pos (List.isPrefixOf_iff_prefix.mpr (List.prefix_append _ _))]

theorem toSize_sub {len n : ℕ} (hlen : len < 2 ^ 64) (hn : n ≤ len) : toSize ((len : ℤ) - n) = len - n := by
  unfold toSize
  omega

/-- More bytes than the frame has: the difference wraps. -/
theorem toSize_wrap {len n : ℕ} (hn : len < n) (hn' : n < 2 ^ 64) :
    toSize ((len : ℤ) - n) = 2 ^ 64 + len - n := by
  unfold toSize
  omega

/-! ## The handlers on complete and on missing frames -/

/-- The blocks of a complete frame go into their slots, and the bytes behind them stay. -/
theorem foldl_sgetn {slots : List ℕ} {blocks : List T} (hlen : slots.length = blocks.length)
    (lv : Levels T) (rest : List UInt8) :
    slots.foldl (sgetn l) (lv, blocks.flatMap Pod.bytes ++ rest)
      = (lv.storeBlocks (l + 1) slots blocks, rest) := by
  induction slots generalizing blocks lv with
  | nil =>
    rw [List.length_eq_zero_iff.mp hlen.symm]
    rfl
  | cons i slots ih =>
    cases blocks with
    | nil => exact absurd hlen (by simp)
    | cons b blocks =>
      rw [List.foldl_cons, sgetn, List.flatMap_cons, List.append_assoc, Pod.overlay_append,
        List.drop_left' (Pod.length_bytes b), ih (by simpa using hlen)]
      rfl

/-- An empty buffer leaves the slots as they are. -/
theorem foldl_sgetn_nil (slots : List ℕ) (lv : Levels T) :
    slots.foldl (sgetn l) (lv, []) = (lv, []) := by
  induction slots with
  | nil => rfl
  | cons i slots ih =>
    have hset : lv.set (l + 1) i (lv (l + 1) i) = lv := by
      funext l' n
      unfold Levels.set
      split
      · rename_i h
        rw [h.1, h.2]
      · rfl
    rw [List.foldl_cons, sgetn, Pod.overlay_nil, hset, List.drop_nil, ih]

theorem onRead_payload {s : Link T} {lv : Levels T} {rest : List UInt8}
    (h : s.buffer = (payload p l lv).flatMap Pod.bytes ++ rest) :
    onRead p l s = ⟨s.levels.storeBlocks (l + 1) (S.receiveBufferOptimized l p) (payload p l lv), rest,
      .done⟩ := by
  have hlen : (S.receiveBufferOptimized l p).length = (payload p l lv).length := by
    rw [payload, List.length_map, S.receiveBufferOptimized_eq, List.length_map]
  rw [onRead, h, foldl_sgetn l hlen]

theorem onRead_nil {s : Link T} (h : s.buffer = []) : onRead p l s = ⟨s.levels, [], .done⟩ := by
  rw [onRead, h, foldl_sgetn_nil]

theorem asyncReadUntil_short {s : Link T} (h : s.buffer.length < delim.length) :
    asyncReadUntil p l s = { s with phase := .untilDelim } := by
  rw [asyncReadUntil, findDelim_of_short h]

theorem asyncReadUntil_delim {s : Link T} {rest : List UInt8} (h : s.buffer = delim ++ rest) :
    asyncReadUntil p l s
      = asyncRead p l (toSize ((frameSize p l T : ℤ) - rest.length)) { s with buffer := rest } := by
  rw [asyncReadUntil, h, findDelim_append]
  simp only [onReadUntil, h, List.drop_left]

end Link

end Achal
