import Inconcretes.BftKvs.Link
import Inconcretes.Lib.Portions

/-!
# Frames in portions

The stream of a correct peer becomes readable in portions. `async_read_until` takes a whole portion at a
time, `async_read` no more than it misses. When is every frame decoded as soon as it has arrived?
`decodes_iff` answers: exactly when in every round the portion that completes the delimiter ends within the
frame. Otherwise the difference of the two sizes wraps, and the round waits for some `2 ^ 64` bytes.
-/

namespace Achal

open Portions

namespace Link

variable {S : Shape} {T : Type*} [Pod T] (p : Fin S.degree)

/-- Read portions in round `l` until the round is done or nothing is left. -/
def deliver (l : ℕ) : List (List UInt8) → Link T → Link T × List (List UInt8)
  | [], s => (s, [])
  | seg :: segs, s =>
    match s.phase with
    | .untilDelim => deliver l segs (read p l seg s)
    | .exactly missing =>
      if missing < seg.length then (read p l (seg.take missing) s, seg.drop missing :: segs)
      else deliver l segs (read p l seg s)
    | _ => (s, seg :: segs)

/-- A frame that the peer sends: the round, and the tree it holds then. -/
structure Sent (T : Type*) where
  level : ℕ
  tree : Levels T

/-- With these portions, every round whose frame has arrived completes, has put the payload into the slots
of the peer and has left the bytes behind the frame, and no difference of sizes wraps. -/
def Decodes : List (Sent T) → List (List UInt8) → Link T → Prop
  | [], _, _ => True
  | r :: rs, segs, s =>
    let out := deliver p r.level segs (asyncReadUntil p r.level s)
    let arrived := s.buffer ++ segs.flatten
    (∀ missing, out.1.phase = .exactly missing →
        out.1.buffer.length + missing = frameSize p r.level T)
      ∧ ((frame p r.level r.tree).length ≤ arrived.length →
        out.1.phase = .done
          ∧ out.1.levels = s.levels.storeBlocks (r.level + 1) (S.receiveBufferOptimized r.level p)
            (payload p r.level r.tree)
          ∧ out.1.buffer ++ out.2.flatten = arrived.drop (frame p r.level r.tree).length
          ∧ Decodes rs out.2 out.1)

/-- In every round, given the size of its slots, the portion that completes the delimiter ends within the
frame. -/
def FirstReadsFit : List ℕ → List (List UInt8) → Prop
  | [], _ => True
  | len :: lens, segs =>
    match fill delim.length [] segs with
    | none => True
    | some (got, segs) =>
      got.length ≤ delim.length + len ∧
        match skip segs (delim.length + len - got.length) with
        | none => True
        | some segs => FirstReadsFit lens segs

/-- Fewer portions fit as well. -/
theorem FirstReadsFit.take {lens : List ℕ} {segs : List (List UInt8)} (h : FirstReadsFit lens segs)
    (n : ℕ) : FirstReadsFit lens (segs.take n) := by
  induction lens generalizing segs n with
  | nil => trivial
  | cons len lens ih =>
    rw [FirstReadsFit] at h ⊢
    cases hfill : fill delim.length [] (segs.take n) with
    | none => trivial
    | some out =>
      obtain ⟨got, segs₁⟩ := out
      obtain ⟨segs', k, hfill', rfl⟩ := fill_of_take hfill
      rw [hfill'] at h
      refine ⟨h.1, ?_⟩
      cases hskip : skip (segs'.take k) (delim.length + len - got.length) with
      | none => trivial
      | some segs₂ =>
        obtain ⟨segs'', k', hskip', rfl⟩ := skip_of_take hskip
        have h2 := h.2
        rw [hskip'] at h2
        exact ih h2 k'

/-! ## One round -/

variable {p}

/-- The first step of a round consumes portions up to the one that completes the delimiter. -/
theorem deliver_untilDelim (l : ℕ) (segs : List (List UInt8)) (lv : Levels T) {b : List UInt8}
    (hshort : b.length < delim.length) :
    deliver p l segs ⟨lv, b, .untilDelim⟩ = match fill delim.length b segs with
      | none => (⟨lv, b ++ segs.flatten, .untilDelim⟩, [])
      | some (got, segs') => deliver p l segs' (asyncReadUntil p l ⟨lv, got, .untilDelim⟩) := by
  induction segs generalizing b with
  | nil => simp [deliver, fill]
  | cons seg segs ih =>
    simp only [deliver, read, fill]
    by_cases hfill : (b ++ seg).length < delim.length
    · rw [if_pos hfill, asyncReadUntil_short p l hfill, ih hfill]
      simp only [List.flatten_cons, List.append_assoc]
    · rw [if_neg hfill]

/-- A round that begins with an empty buffer. -/
theorem deliver_start (l : ℕ) (segs : List (List UInt8)) {s : Link T} (hbuffer : s.buffer = []) :
    deliver p l segs (asyncReadUntil p l s) = match fill delim.length [] segs with
      | none => (⟨s.levels, segs.flatten, .untilDelim⟩, [])
      | some (got, segs') => deliver p l segs' (asyncReadUntil p l ⟨s.levels, got, .untilDelim⟩) := by
  have hshort : s.buffer.length < delim.length := by
    rw [hbuffer]
    exact delim_length_pos
  rw [asyncReadUntil_short p l hshort, hbuffer]
  exact deliver_untilDelim l segs s.levels delim_length_pos

theorem deliver_done (l : ℕ) (segs : List (List UInt8)) {s : Link T} (hphase : s.phase = .done) :
    deliver p l segs s = (s, segs) := by
  cases segs with
  | nil => rfl
  | cons seg segs => rw [deliver, hphase]

/-- The second step takes exactly the bytes that are missing. -/
theorem deliver_exactly (l : ℕ) (segs : List (List UInt8)) {s : Link T} {missing : ℕ}
    (hphase : s.phase = .exactly missing) (hpos : 0 < missing) :
    deliver p l segs s = match skip segs missing with
      | none => ({ s with
          buffer := s.buffer ++ segs.flatten
          phase := .exactly (missing - segs.flatten.length) }, [])
      | some segs' => (onRead p l { s with buffer := s.buffer ++ segs.flatten.take missing }, segs') := by
  obtain ⟨n, rfl⟩ : ∃ n, missing = n + 1 := ⟨missing - 1, by omega⟩
  clear hpos
  induction segs generalizing s n with
  | nil => simp [deliver, skip, ← hphase]
  | cons seg segs ih =>
    rw [deliver, hphase, skip]
    simp only [read, hphase]
    by_cases hlt : n + 1 < seg.length
    · rw [if_pos hlt, if_pos hlt, List.length_take, min_eq_left hlt.le, Nat.sub_self, asyncRead,
        if_pos rfl, List.flatten_cons, List.take_append_of_le_length hlt.le]
    · rw [if_neg hlt, if_neg hlt]
      rcases Nat.eq_or_lt_of_le (not_lt.mp hlt) with heq | hgt
      · rw [← heq, Nat.sub_self, asyncRead, if_pos rfl, deliver_done l segs rfl, skip, List.flatten_cons,
          List.take_left]
      · obtain ⟨m, hm⟩ : ∃ m, n + 1 - seg.length = m + 1 := ⟨n - seg.length, by omega⟩
        rw [hm, asyncRead, if_neg (Nat.succ_ne_zero m), ih _ rfl, List.flatten_cons, List.length_append,
          List.take_append, List.take_of_length_le hgt.le, hm]
        cases skip segs (m + 1) with
        | none =>
          simp only [List.append_assoc, Nat.sub_add_eq, hm]
        | some segs' =>
          simp only [List.append_assoc]
          rfl

/-- After the portion that completes the delimiter: what is in the buffer behind it. -/
theorem exists_behind_delim {lv : Levels T} {l : ℕ} {segs segs' : List (List UInt8)} {got rest : List UInt8}
    (hstream : segs.flatten <+: frame p l lv ++ rest) (hfill : fill delim.length [] segs = some (got, segs')) :
    ∃ x, got = delim ++ x ∧ x ++ segs'.flatten <+: (payload p l lv).flatMap Pod.bytes ++ rest := by
  obtain ⟨hflat, hlen⟩ := fill_spec hfill
  rw [List.nil_append] at hflat
  rw [← hflat, frame, List.append_assoc] at hstream
  obtain ⟨x, rfl⟩ := List.prefix_of_prefix_length_le (List.prefix_append _ _)
    ((List.prefix_append got _).trans hstream) hlen
  refine ⟨x, rfl, ?_⟩
  rw [List.append_assoc] at hstream
  exact (List.prefix_append_right_inj _).mp hstream

/-- As many bytes as the slots take are the payload. -/
theorem eq_payload {lv : Levels T} {l : ℕ} {b rest : List UInt8}
    (hb : b <+: (payload p l lv).flatMap Pod.bytes ++ rest) (hlen : b.length = frameSize p l T) :
    b = (payload p l lv).flatMap Pod.bytes := by
  have hlen' : b.length = ((payload p l lv).flatMap Pod.bytes).length := by rw [hlen, length_payload]
  exact (List.prefix_of_prefix_length_le hb (List.prefix_append _ _) hlen'.le).eq_of_length hlen'

/-- The portion that completes the delimiter fits: the second step asks for what is missing. -/
theorem deliver_behind_delim {l : ℕ} {segs segs' : List (List UInt8)} {x : List UInt8} {s : Link T}
    (hbuffer : s.buffer = []) (hsize : frameSize p l T < 2 ^ 64)
    (hfill : fill delim.length [] segs = some (delim ++ x, segs')) (hx : x.length ≤ frameSize p l T) :
    deliver p l segs (asyncReadUntil p l s)
      = deliver p l segs' (asyncRead p l (frameSize p l T - x.length) ⟨s.levels, x, .untilDelim⟩) := by
  rw [deliver_start l segs hbuffer, hfill]
  show deliver p l segs' (asyncReadUntil p l ⟨s.levels, delim ++ x, .untilDelim⟩) = _
  rw [asyncReadUntil_delim p l rfl, toSize_sub hsize hx]

/-- A round that fits, on the portions of a frame. -/
theorem deliver_fit {lv : Levels T} {l : ℕ} {segs segs' : List (List UInt8)} {got rest : List UInt8}
    {s : Link T} (hbuffer : s.buffer = []) (hsize : frameSize p l T < 2 ^ 64)
    (hstream : segs.flatten <+: frame p l lv ++ rest) (hfill : fill delim.length [] segs = some (got, segs'))
    (hfit : got.length ≤ delim.length + frameSize p l T) :
    match skip segs' (delim.length + frameSize p l T - got.length) with
    | none => ∃ missing, (deliver p l segs (asyncReadUntil p l s)).1.phase = .exactly missing
        ∧ (deliver p l segs (asyncReadUntil p l s)).1.buffer.length + missing = frameSize p l T
        ∧ segs.flatten.length < delim.length + frameSize p l T
    | some segs'' => deliver p l segs (asyncReadUntil p l s)
          = (⟨s.levels.storeBlocks (l + 1) (S.receiveBufferOptimized l p) (payload p l lv), [], .done⟩,
            segs'')
        ∧ segs.flatten = frame p l lv ++ segs''.flatten := by
  obtain ⟨x, rfl, hx⟩ := exists_behind_delim hstream hfill
  obtain ⟨hflat, -⟩ := fill_spec hfill
  rw [List.nil_append] at hflat
  rw [List.length_append] at hfit
  have hxlen : x.length ≤ frameSize p l T := by omega
  have hmissing : delim.length + frameSize p l T - (delim ++ x).length = frameSize p l T - x.length := by
    rw [List.length_append]
    omega
  rw [hmissing, deliver_behind_delim hbuffer hsize hfill hxlen]
  rcases Nat.eq_zero_or_pos (frameSize p l T - x.length) with hzero | hpos
  · -- the first step has read the whole frame
    have hpayload : x = (payload p l lv).flatMap Pod.bytes :=
      eq_payload ((List.prefix_append x _).trans hx) (by omega)
    have hbuf : x = (payload p l lv).flatMap Pod.bytes ++ [] := by rw [List.append_nil, ← hpayload]
    rw [hzero, skip, asyncRead, if_pos rfl, onRead_payload p l hbuf, deliver_done l segs' rfl, ← hflat,
      frame, ← hpayload]
    exact ⟨rfl, rfl⟩
  · rw [asyncRead, if_neg (by omega), deliver_exactly l segs' rfl hpos]
    cases hskip : skip segs' (frameSize p l T - x.length) with
    | none =>
      have hshort := skip_none hskip
      refine ⟨_, rfl, ?_, ?_⟩
      · show (x ++ segs'.flatten).length + _ = _
        rw [List.length_append]
        omega
      · rw [← hflat, List.length_append, List.length_append]
        omega
    | some segs'' =>
      obtain ⟨htake, hlen⟩ := skip_spec hskip
      -- the bytes taken complete the payload
      rw [← htake, ← List.append_assoc] at hx
      have hpayload : x ++ segs'.flatten.take (frameSize p l T - x.length)
          = (payload p l lv).flatMap Pod.bytes := by
        refine eq_payload ((List.prefix_append _ _).trans hx) ?_
        rw [List.length_append, List.length_take]
        omega
      have hbuf : x ++ segs'.flatten.take (frameSize p l T - x.length)
          = (payload p l lv).flatMap Pod.bytes ++ [] := by rw [hpayload, List.append_nil]
      refine ⟨by rw [onRead_payload p l hbuf], ?_⟩
      rw [← hflat, ← htake, frame, ← hpayload]
      simp only [List.append_assoc]

/-- A portion that reaches beyond the frame: the difference wraps, and the round is not done although the
frame has arrived. -/
theorem deliver_wrap {lv : Levels T} {l : ℕ} {segs : List (List UInt8)} {got rest : List UInt8}
    {s : Link T} (hbuffer : s.buffer = []) (hsegs : ∀ seg ∈ segs, seg.length < 2 ^ 64)
    (hstream : segs.flatten <+: frame p l lv ++ rest) (hfill : fill delim.length [] segs = some (got, []))
    (hover : delim.length + frameSize p l T < got.length) :
    (deliver p l segs (asyncReadUntil p l s)).1.phase ≠ .done
      ∧ (frame p l lv).length ≤ segs.flatten.length := by
  obtain ⟨x, rfl, -⟩ := exists_behind_delim hstream hfill
  obtain ⟨hflat, -⟩ := fill_spec hfill
  obtain ⟨hlen, -⟩ := length_fill (b := []) delim_length_pos hsegs hfill
  rw [List.nil_append, List.flatten_nil, List.append_nil] at hflat
  rw [List.length_append] at hover hlen
  constructor
  · rw [deliver_start l segs hbuffer, hfill]
    show (asyncReadUntil p l ⟨s.levels, delim ++ x, .untilDelim⟩).phase ≠ .done
    rw [asyncReadUntil_delim p l rfl, toSize_wrap (by omega) (by omega), asyncRead, if_neg (by omega)]
    exact Phase.noConfusion
  · rw [← hflat, length_frame, List.length_append]
    omega

/-- A round that does not get its delimiter. -/
theorem deliver_none {l : ℕ} {segs : List (List UInt8)} {s : Link T} (hbuffer : s.buffer = [])
    (hfill : fill delim.length [] segs = none) :
    (deliver p l segs (asyncReadUntil p l s)).1.phase = .untilDelim
      ∧ segs.flatten.length < delim.length := by
  constructor
  · rw [deliver_start l segs hbuffer, hfill]
  · exact fill_none (b := []) delim_length_pos hfill

/-! ## All rounds -/

/-- The rounds whose portions fit decode. -/
theorem decodes_of_fit {rs : List (Sent T)} {segs : List (List UInt8)} {s : Link T}
    (hbuffer : s.buffer = []) (hsize : ∀ r ∈ rs, frameSize p r.level T < 2 ^ 64)
    (hstream : segs.flatten <+: rs.flatMap fun r => frame p r.level r.tree)
    (hfit : FirstReadsFit (rs.map fun r => frameSize p r.level T) segs) : Decodes p rs segs s := by
  induction rs generalizing segs s with
  | nil => trivial
  | cons r rs ih =>
    rw [List.map_cons, FirstReadsFit] at hfit
    rw [List.flatMap_cons] at hstream
    rw [Decodes, hbuffer, List.nil_append]
    cases hfill : fill delim.length [] segs with
    | none =>
      obtain ⟨hphase, hshort⟩ := deliver_none (p := p) (l := r.level) hbuffer hfill
      refine ⟨fun missing h => Phase.noConfusion (hphase.symm.trans h), fun harrived => ?_⟩
      rw [length_frame] at harrived
      omega
    | some out =>
      obtain ⟨got, segs'⟩ := out
      rw [hfill] at hfit
      obtain ⟨hlen, hrest⟩ := hfit
      have hround := deliver_fit hbuffer (hsize r List.mem_cons_self) hstream hfill hlen
      cases hskip : skip segs' (delim.length + frameSize p r.level T - got.length) with
      | none =>
        rw [hskip] at hround
        obtain ⟨missing, hphase, hmissing, hshort⟩ := hround
        refine ⟨fun missing' h => ?_, fun harrived => ?_⟩
        · rw [← Phase.exactly.inj (hphase.symm.trans h), hmissing]
        · rw [length_frame] at harrived
          omega
      | some segs'' =>
        rw [hskip] at hround hrest
        obtain ⟨hdeliver, hflat⟩ := hround
        rw [hflat, List.prefix_append_right_inj] at hstream
        rw [hdeliver, hflat]
        exact ⟨fun _ h => Phase.noConfusion h, fun _ => ⟨rfl, rfl, List.drop_left.symm,
          ih rfl (fun r hr => hsize r (List.mem_cons_of_mem _ hr)) hstream hrest⟩⟩

/-- After a round that is done, the later rounds decode. -/
theorem Decodes.rest {r : Sent T} {rs : List (Sent T)} {segs segs'' : List (List UInt8)} {s out : Link T}
    (h : Decodes p (r :: rs) segs s) (hbuffer : s.buffer = [])
    (hround : deliver p r.level segs (asyncReadUntil p r.level s) = (out, segs''))
    (hflat : segs.flatten = frame p r.level r.tree ++ segs''.flatten) : Decodes p rs segs'' out := by
  rw [Decodes, hbuffer, List.nil_append, hround, hflat] at h
  refine (h.2 ?_).2.2.2
  rw [List.length_append]
  exact Nat.le_add_right _ _

/-- A round that decodes fits: otherwise it is not done after the portion that completes its delimiter. -/
theorem Decodes.length_le {r : Sent T} {rs : List (Sent T)} {segs : List (List UInt8)}
    {got rest : List UInt8} {s : Link T} (h : Decodes p (r :: rs) segs s) (hbuffer : s.buffer = [])
    (hsegs : ∀ seg ∈ segs, seg.length < 2 ^ 64) (hstream : segs.flatten <+: frame p r.level r.tree ++ rest)
    (hfill : fill delim.length [] segs = some (got, [])) :
    got.length ≤ delim.length + frameSize p r.level T := by
  by_contra hover
  obtain ⟨hphase, harrived⟩ := deliver_wrap hbuffer hsegs hstream hfill (not_le.mp hover)
  rw [Decodes, hbuffer, List.nil_append] at h
  exact hphase (h.2 harrived).1

/-- Rounds that decode, whatever has arrived, fit. -/
theorem fit_of_decodes {rs : List (Sent T)} {segs : List (List UInt8)} {s : Link T}
    (hbuffer : s.buffer = []) (hsize : ∀ r ∈ rs, frameSize p r.level T < 2 ^ 64)
    (hsegs : ∀ seg ∈ segs, seg.length < 2 ^ 64)
    (hstream : segs.flatten <+: rs.flatMap fun r => frame p r.level r.tree)
    (hdecodes : ∀ n, Decodes p rs (segs.take n) s) :
    FirstReadsFit (rs.map fun r => frameSize p r.level T) segs := by
  induction rs generalizing segs s with
  | nil => trivial
  | cons r rs ih =>
    rw [List.map_cons, FirstReadsFit]
    rw [List.forall_mem_cons] at hsize
    have hsofar : ∀ n, (segs.take n).flatten <+: frame p r.level r.tree
        ++ rs.flatMap fun r => frame p r.level r.tree := fun n =>
      (List.take_prefix n segs).flatten.trans hstream
    cases hfill : fill delim.length [] segs with
    | none => trivial
    | some out =>
      obtain ⟨got, segs'⟩ := out
      obtain ⟨m, hm⟩ := fill_take hfill
      have hlen : got.length ≤ delim.length + frameSize p r.level T :=
        (hdecodes m).length_le hbuffer (fun seg hseg => hsegs seg (List.mem_of_mem_take hseg))
          (hsofar m) (hm 0)
      refine ⟨hlen, ?_⟩
      cases hskip : skip segs' (delim.length + frameSize p r.level T - got.length) with
      | none => trivial
      | some segs'' =>
        obtain ⟨c, d, hd, hcd⟩ := skip_take hskip
        have hwhole := deliver_fit hbuffer hsize.1 hstream hfill hlen
        rw [hskip] at hwhole
        obtain ⟨t, ht, hrest⟩ : ∃ t : Link T, t.buffer = [] ∧ ∀ k, Decodes p rs (segs''.take (d + k)) t := by
          refine ⟨⟨s.levels.storeBlocks (r.level + 1) (S.receiveBufferOptimized r.level p)
            (payload p r.level r.tree), [], .done⟩, rfl, fun k => ?_⟩
          have hround := deliver_fit hbuffer hsize.1 (hsofar _) (hm (c + k)) hlen
          rw [hcd] at hround
          exact (hdecodes (m + (c + k))).rest hbuffer hround.1 hround.2
        have hstream' : segs''.flatten <+: rs.flatMap fun r => frame p r.level r.tree := by
          rw [hwhole.2] at hstream
          exact (List.prefix_append_right_inj _).mp hstream
        refine ih ht hsize.2 (length_skip (length_fill (b := []) delim_length_pos hsegs hfill).2 hskip)
          hstream' fun n => ?_
        rcases Nat.lt_or_ge n d with hn | hn
        · -- nothing of the next round has arrived
          obtain rfl : n = 0 := by omega
          refine decodes_of_fit ht hsize.2 List.nil_prefix ?_
          cases rs.map fun r => frameSize p r.level T <;> trivial
        · obtain ⟨k, rfl⟩ := Nat.exists_eq_add_of_le hn
          exact hrest k

/-- **When frames decode.** Every frame is decoded as soon as it has arrived, if and only if in every
round the portion that completes the delimiter ends within the frame. (The slots of a level are in one
array, and a read returns the number of its bytes, so both are a `size_t`.) -/
theorem decodes_iff (rs : List (Sent T)) (segs : List (List UInt8)) (lv : Levels T)
    (hsize : ∀ r ∈ rs, frameSize p r.level T < 2 ^ 64) (hsegs : ∀ seg ∈ segs, seg.length < 2 ^ 64)
    (hstream : segs.flatten <+: rs.flatMap fun r => frame p r.level r.tree) :
    (∀ n, Decodes p rs (segs.take n) ⟨lv, [], .idle⟩)
      ↔ FirstReadsFit (rs.map fun r => frameSize p r.level T) segs :=
  ⟨fit_of_decodes rfl hsize hsegs hstream, fun hfit n => decodes_of_fit rfl hsize
    ((List.take_prefix n segs).flatten.trans hstream) (hfit.take n)⟩

/-- The frames of two rounds of one job, each in one portion. -/
theorem decodes_iff_frameByFrame :
    FirstReadsFit [1, 3] [delim ++ [0x78], delim ++ [0x78, 0x78, 0x78]]
      ∧ ∀ n, Decodes (T := UInt8) (S := Shape.four) 1 [⟨0, fun _ _ => 0x78⟩, ⟨1, fun _ _ => 0x78⟩]
        ([delim ++ [0x78], delim ++ [0x78, 0x78, 0x78]].take n) ⟨fun _ _ => 0, [], .idle⟩ := by
  have hfit : FirstReadsFit [1, 3] [delim ++ [0x78], delim ++ [0x78, 0x78, 0x78]] :=
    ⟨by decide +kernel, by decide +kernel, trivial⟩
  exact ⟨hfit, (decodes_iff [⟨0, fun _ _ => 0x78⟩, ⟨1, fun _ _ => 0x78⟩]
    [delim ++ [0x78], delim ++ [0x78, 0x78, 0x78]] (fun _ _ => 0) (by decide +kernel)
    (by decide +kernel) (by decide +kernel)).mpr hfit⟩

/-- Both frames in one portion: the first round waits for bytes that it already has. -/
theorem not_decodes_framesTogether :
    ¬∀ n, Decodes (T := UInt8) (S := Shape.four) 1 [⟨0, fun _ _ => 0x78⟩, ⟨1, fun _ _ => 0x78⟩]
      ([delim ++ [0x78] ++ delim ++ [0x78, 0x78, 0x78]].take n) ⟨fun _ _ => 0, [], .idle⟩ := by
  intro h
  exact absurd ((h 1).2 (by decide +kernel)).1 (by decide +kernel)

end Link

end Achal
