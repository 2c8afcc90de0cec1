import Inconcretes.BftKvs.Link
import Inconcretes.Lib.Portions

/-!
# Late frames

Process `p` sends one frame in every round of every job. Process `q` plays its own rounds: it may be late
or early, the timer may cancel its reads at any time, and `should_die` may let it skip whole jobs. The
frames carry no number, and a round takes the first delimiter that it finds.

`intact_of_orderly` says when this goes well. As long as a round reads only while everything before its
frame has been read, and its payload only behind the delimiter, the slots of `p` hold the payload of that
very round or are zero. But the handler of a cancelled read goes on and reads the delimiter as payload
(`cancelledEvents`), and a round after one without its frame takes the late frame for its own
(`lateEvents`).
-/

namespace Achal

open Portions

/-- What `p` has sent and `q` has read on their connection, in frames and in bytes, the rounds that `q` has
begun or skipped, and the connection at `q`. -/
structure Wire (T : Type*) where
  sent : ℕ
  taken : ℕ
  rounds : ℕ
  link : Link T

/-- What happens next. `own` is what `q` proposes if a job begins, and `blocks` what `q` has received from
another peer `r`. -/
inductive Event (S : Shape) (T : Type*)
  | send
  | skip
  | start (own : T)
  | read (n : ℕ)
  | cancel
  | peer (r : Fin S.degree) (blocks : List T)

namespace Wire

variable {S : Shape} {T : Type*} [Pod T] (p q : Fin S.degree) (content : ℕ → Levels T)

/-- The frame of the round with this number, counted through all jobs; `p` holds `content i` then. -/
def frameAt (i : ℕ) : List UInt8 := Link.frame p (i % S.height) (content i)

/-- Where this frame begins. -/
def position (i : ℕ) : ℕ := offset (frameAt p content) i

def init : Wire T := ⟨0, 0, 0, ⟨Levels.clear T, [], .idle⟩⟩

/-- No round is going on. -/
def Between (s : Wire T) : Prop := s.link.phase = .idle ∨ s.link.phase = .done

instance (s : Wire T) : Decidable s.Between := inferInstanceAs (Decidable (_ ∨ _))

/-- The number of the round that is going on, or over. -/
def round (s : Wire T) : ℕ := s.rounds - 1

/-- The tree in round `l`, before the read: a job begins with a clear tree, and the own level is copied. -/
def startLevels (l : ℕ) (own : T) (lv : Levels T) : Levels T :=
  S.copyCurrentLevel l q (if l = 0 then (Levels.clear T).set 0 0 own else lv)

/-- The next round, up to the read. -/
def nextRound (own : T) (s : Wire T) : Wire T :=
  let levels := startLevels q (s.rounds % S.height) own s.link.levels
  { s with rounds := s.rounds + 1, link := { s.link with levels := levels } }

/-- The bytes that `p` has sent. -/
def sentBytes (s : Wire T) : List UInt8 := stream (frameAt p content) s.sent

/-- Those of them that have not been read. -/
def unread (s : Wire T) : List UInt8 := (s.sentBytes p content).drop s.taken

/-- The most that the pending operation can read. -/
def readable (s : Wire T) : ℕ :=
  match s.link.phase with
  | .untilDelim => (s.unread p content).length
  | .exactly missing => min missing (s.unread p content).length
  | _ => 0

/-- One step, where it is possible. -/
def step (s : Wire T) : Event S T → Option (Wire T)
  | .send => some { s with sent := s.sent + 1 }
  | .skip =>
    if s.Between ∧ s.rounds % S.height = 0 then
      some { s with rounds := s.rounds + S.height, link := { s.link with phase := .idle } }
    else none
  | .start own =>
    if s.Between ∧ 0 < S.height then
      let t := s.nextRound q own
      some { t with link := Link.asyncReadUntil p (t.round % S.height) t.link }
    else none
  | .read n =>
    if n ≤ s.readable p content then
      some { s with
        taken := s.taken + n
        link := Link.read p (s.round % S.height) ((s.unread p content).take n) s.link }
    else none
  | .cancel => some { s with link := Link.cancel p (s.round % S.height) s.link }
  | .peer r blocks =>
    if r = p then none
    else
      let l := s.round % S.height
      let levels := s.link.levels.storeBlocks (l + 1) (S.receiveBufferOptimized l r) blocks
      some { s with link := { s.link with levels := levels } }

/-- A run all of whose steps are allowed. -/
def run (allowed : Wire T → Event S T → Bool) : List (Event S T) → Wire T → Option (Wire T)
  | [], s => some s
  | e :: es, s => if allowed s e then (step p q content s e).bind (run allowed es) else none

/-- The valid slots of `p` in level `l + 1`. -/
def slots (l : ℕ) (lv : Levels T) : List T := (S.receiveBufferOptimized l p).map (lv (l + 1))

/-- A round that is over has left its payload, or nothing. -/
def Intact (s : Wire T) : Prop :=
  s.link.phase = .done →
    slots p (s.round % S.height) s.link.levels
        = Link.payload p (s.round % S.height) (content s.round)
      ∨ ∀ b ∈ slots p (s.round % S.height) s.link.levels, b = Pod.zero

/-- A round reads only when everything before its frame has been read, and the payload only behind the
delimiter. It times out only when nothing of its payload has been read, or all of it. It does not begin
with bytes of earlier frames. -/
def orderly (s : Wire T) : Event S T → Bool
  | .start _ => s.link.buffer = [] ∨ position p content s.rounds + s.link.buffer.length ≤ s.taken
  | .read _ =>
    position p content s.round ≤ s.taken
      ∧ (s.link.phase = .untilDelim ∨ position p content s.round + delim.length ≤ s.taken)
  | .cancel =>
    s.taken ≤ position p content s.round
      ∨ s.taken = position p content s.round + delim.length
      ∨ position p content (s.round + 1) ≤ s.taken
  | _ => true

/-! ## The slots of one peer -/

/-- All slots of `p` in level `l + 1` are zero. -/
def Clean (l : ℕ) (lv : Levels T) : Prop := ∀ b ∈ slots p l lv, b = Pod.zero

variable {p q}

theorem exists_of_mem_receive {l i : ℕ} (hi : i ∈ S.receiveBufferOptimized l p) :
    ∃ σ : List (Fin S.degree), σ.length = l ∧ i = S.node (p :: σ) := by
  rw [S.receiveBufferOptimized_eq, List.mem_map] at hi
  obtain ⟨j, hj, rfl⟩ := hi
  obtain ⟨σ, rfl, rfl⟩ := S.exists_node (S.optimized.send_lt hj)
  exact ⟨σ, rfl, (S.node_cons p σ).symm⟩

omit [Pod T] in
theorem slots_congr {l : ℕ} {lv lv' : Levels T}
    (h : ∀ σ : List (Fin S.degree), σ.length = l →
      lv (l + 1) (S.node (p :: σ)) = lv' (l + 1) (S.node (p :: σ))) :
    slots p l lv = slots p l lv' := by
  apply List.map_congr_left
  intro i hi
  obtain ⟨σ, hσ, rfl⟩ := exists_of_mem_receive hi
  exact h σ hσ

omit [Pod T] in
theorem slots_storeBlocks (l : ℕ) (lv lv' : Levels T) :
    slots p l (lv.storeBlocks (l + 1) (S.receiveBufferOptimized l p) (Link.payload p l lv'))
      = Link.payload p l lv' := by
  rw [slots, Link.payload, S.receiveBufferOptimized_eq, List.map_map]
  apply List.map_congr_left
  intro i hi
  exact Levels.storeBlocks_map (S.optimized.send_nodup l p) (fun _ _ h => Nat.add_left_cancel h) (lv' l)
    lv hi

omit [Pod T] in
theorem slots_storeBlocks_of_ne {l l' : ℕ} (h : l' ≠ l) (is : List ℕ) (blocks : List T) (lv : Levels T) :
    slots p l' (lv.storeBlocks (l + 1) is blocks) = slots p l' lv :=
  slots_congr fun _ _ => Levels.storeBlocks_of_notMem _ _ fun h' => h (Nat.succ_injective h'.1)

omit [Pod T] in
/-- Other peers have other slots. -/
theorem slots_peer {r : Fin S.degree} (hr : r ≠ p) (l l' : ℕ) (blocks : List T) (lv : Levels T) :
    slots p l' (lv.storeBlocks (l + 1) (S.receiveBufferOptimized l r) blocks) = slots p l' lv := by
  refine slots_congr fun σ hσ => Levels.storeBlocks_of_notMem _ _ ?_
  rintro ⟨hl, hmem⟩
  obtain rfl : σ.length = l := hσ.trans (Nat.succ_injective hl)
  exact S.optimized.node_notMem_receive hr.symm σ hmem

omit [Pod T] in
/-- So has the process itself. -/
theorem slots_copyCurrentLevel (hq : p ≠ q) (l l' : ℕ) (lv : Levels T) :
    slots p l' (S.copyCurrentLevel l q lv) = slots p l' lv := by
  apply slots_congr
  intro σ hσ
  by_cases hl : l' = l
  · subst hl hσ
    exact S.copyCurrentLevel_other hq σ lv
  · exact S.copyCurrentLevel_of_ne q lv _ fun h => hl (Nat.succ_injective h)

theorem Clean.storeBlocks {l l' : ℕ} {lv : Levels T} (h : Clean p l' lv) (hne : l' ≠ l) (is : List ℕ)
    (blocks : List T) : Clean p l' (lv.storeBlocks (l + 1) is blocks) := by
  rw [Clean, slots_storeBlocks_of_ne hne]
  exact h

theorem clean_clear (l : ℕ) (own : T) : Clean p l ((Levels.clear T).set 0 0 own) := by
  intro b hb
  obtain ⟨i, -, rfl⟩ := List.mem_map.mp hb
  exact Levels.set_of_ne _ _ fun h => absurd h.1 (Nat.succ_ne_zero l)

theorem clean_startLevels (hq : p ≠ q) {l : ℕ} (own : T) {lv : Levels T}
    (h : l ≠ 0 → ∀ l', l ≤ l' → Clean p l' lv) (l' : ℕ) (hl : l ≤ l') :
    Clean p l' (startLevels q l own lv) := by
  rw [Clean, startLevels, slots_copyCurrentLevel hq]
  by_cases hzero : l = 0
  · rw [if_pos hzero]
    exact clean_clear l' own
  · rw [if_neg hzero]
    exact h hzero l' hl

/-! ## Positions in the stream -/

variable {content}

theorem position_succ (i : ℕ) : position p content (i + 1)
    = position p content i + delim.length + Link.frameSize p (i % S.height) T := by
  rw [position, offset_succ, frameAt, Link.length_frame, position, Nat.add_assoc]

theorem position_lt {i j : ℕ} (h : i < j) : position p content i < position p content j := by
  have hmono : position p content (i + 1) ≤ position p content j := offset_mono _ h
  have hpos := Link.delim_length_pos
  rw [position_succ] at hmono
  omega

theorem lt_sent {s : Wire T} {i : ℕ} (h : position p content i < position p content s.sent) : i < s.sent := by
  by_contra hle
  exact absurd (offset_mono (frameAt p content) (not_lt.mp hle)) (not_le.mpr h)

theorem drop_position {s : Wire T} {i : ℕ} (h : i < s.sent) :
    (s.sentBytes p content).drop (position p content i)
      = delim ++ ((Link.payload p (i % S.height) (content i)).flatMap Pod.bytes
        ++ (s.sentBytes p content).drop (position p content (i + 1))) := by
  rw [sentBytes, position, drop_offset _ h, frameAt, Link.frame, List.append_assoc, position]

theorem drop_behind_delim {s : Wire T} {i : ℕ} (h : i < s.sent) :
    (s.sentBytes p content).drop (position p content i + delim.length)
      = (Link.payload p (i % S.height) (content i)).flatMap Pod.bytes
        ++ (s.sentBytes p content).drop (position p content (i + 1)) := by
  rw [← List.drop_drop, drop_position h, List.drop_left]

/-! ## The invariant -/

variable (p content)

/-- `q` holds the bytes from position `pos` on. -/
def Holds (s : Wire T) (pos : ℕ) : Prop := TakenFrom (s.sentBytes p content) s.taken pos s.link.buffer

/-- Before a round: `q` holds the bytes from its frame on, or it is behind. -/
def Settled (s : Wire T) : Prop :=
  s.Holds p content (position p content s.rounds)
    ∨ s.taken < position p content s.rounds + s.link.buffer.length

/-- During a round: the slots that it and later rounds fill are zero. -/
def Pending (s : Wire T) : Prop :=
  (0 < S.height ∧ 0 < s.rounds) ∧ ∀ l, s.round % S.height ≤ l → Clean p l s.link.levels

/-- The round that is over is intact, and the slots that later rounds fill are zero. -/
def Over (s : Wire T) : Prop :=
  0 < s.rounds ∧ (∀ l, s.round % S.height < l → Clean p l s.link.levels)
    ∧ (slots p (s.round % S.height) s.link.levels
        = Link.payload p (s.round % S.height) (content s.round)
      ∨ Clean p (s.round % S.height) s.link.levels)

/-- In each phase the connection holds the bytes of the round, or none and its frame is out of reach. -/
def Inv (s : Wire T) : Prop :=
  s.taken ≤ position p content s.sent ∧ match s.link.phase with
    | .idle => s.rounds % S.height = 0 ∧ s.Settled p content
    | .untilDelim => s.Pending p ∧
      (s.Holds p content (position p content s.round) ∧ s.link.buffer.length < delim.length
        ∨ s.link.buffer = [] ∧ s.taken < position p content s.round)
    | .exactly missing => s.Pending p ∧
      (s.Holds p content (position p content s.round + delim.length)
          ∧ (s.link.buffer.length ≤ Link.frameSize p (s.round % S.height) T →
            missing = Link.frameSize p (s.round % S.height) T - s.link.buffer.length)
        ∨ s.link.buffer = [] ∧ s.taken < position p content s.round + delim.length)
    | .done => s.Over p content ∧ s.Settled p content

variable {p content}

theorem Inv.intact {s : Wire T} (h : s.Inv p content) : s.Intact p content := by
  intro hdone
  rw [Inv, hdone] at h
  exact h.2.1.2.2

/-- The position behind the round. -/
theorem position_rounds {s : Wire T} (h : 0 < s.rounds) : position p content s.rounds
    = position p content s.round + delim.length + Link.frameSize p (s.round % S.height) T := by
  rw [← position_succ, round, Nat.sub_add_cancel h]

/-- The handler of `async_read` has the whole payload. -/
theorem inv_onRead_payload {s : Wire T} (htaken : s.taken ≤ position p content s.sent)
    (hpending : s.Pending p) (hholds : s.Holds p content (position p content s.round + delim.length))
    (hsize : Link.frameSize p (s.round % S.height) T ≤ s.link.buffer.length) :
    Inv p content { s with link := Link.onRead p (s.round % S.height) s.link } := by
  have hlt : position p content s.round < position p content s.sent := by
    have := hholds.1
    have := Link.delim_length_pos
    omega
  have hsent := lt_sent hlt
  have hdrop : (s.sentBytes p content).drop (position p content s.round + delim.length) = _ :=
    drop_behind_delim hsent
  obtain ⟨rest, hbuffer⟩ := hholds.exists_eq_append hdrop (by rw [Link.length_payload]; exact hsize)
  refine ⟨htaken, ?_⟩
  rw [Link.onRead_payload p _ hbuffer]
  refine ⟨⟨hpending.1.2, fun l hl => (hpending.2 l hl.le).storeBlocks (Nat.ne_of_gt hl) _ _,
    .inl (slots_storeBlocks _ _ _)⟩, .inl ?_⟩
  rw [Holds, hbuffer] at hholds
  have hrest := hholds.drop
  rw [Link.length_payload, ← position_rounds hpending.1.2] at hrest
  exact hrest

/-- The handler of `async_read` has nothing. -/
theorem inv_onRead_nil {s : Wire T} (htaken : s.taken ≤ position p content s.sent)
    (hpending : s.Pending p) (hbuffer : s.link.buffer = [])
    (hlate : s.taken < position p content s.rounds) :
    Inv p content { s with link := Link.onRead p (s.round % S.height) s.link } := by
  refine ⟨htaken, ?_⟩
  rw [Link.onRead_nil p _ hbuffer]
  exact ⟨⟨hpending.1.2, fun l hl => hpending.2 l hl.le, .inr (hpending.2 _ le_rfl)⟩, .inr hlate⟩

/-! ## What the operations do -/

/-- `async_read` asked for what is missing. -/
theorem inv_asyncRead {s : Wire T} (htaken : s.taken ≤ position p content s.sent)
    (hpending : s.Pending p) (hholds : s.Holds p content (position p content s.round + delim.length))
    {missing : ℕ} (hmissing : s.link.buffer.length ≤ Link.frameSize p (s.round % S.height) T →
      missing = Link.frameSize p (s.round % S.height) T - s.link.buffer.length) :
    Inv p content { s with link := Link.asyncRead p (s.round % S.height) missing s.link } := by
  rw [Link.asyncRead]
  by_cases hzero : missing = 0
  · rw [if_pos hzero]
    exact inv_onRead_payload htaken hpending hholds (by omega)
  · rw [if_neg hzero]
    exact ⟨htaken, hpending, .inl ⟨hholds, hmissing⟩⟩

/-- `async_read` without the delimiter, and nothing to read. -/
theorem inv_asyncRead_late {s : Wire T} (htaken : s.taken ≤ position p content s.sent)
    (hpending : s.Pending p) (hbuffer : s.link.buffer = [])
    (hlate : s.taken < position p content s.round + delim.length) (missing : ℕ) :
    Inv p content { s with link := Link.asyncRead p (s.round % S.height) missing s.link } := by
  rw [Link.asyncRead]
  by_cases hzero : missing = 0
  · rw [if_pos hzero]
    refine inv_onRead_nil htaken hpending hbuffer ?_
    rw [position_rounds hpending.1.2]
    omega
  · rw [if_neg hzero]
    exact ⟨htaken, hpending, .inr ⟨hbuffer, hlate⟩⟩

/-- `async_read_until` over the bytes of the round. -/
theorem inv_asyncReadUntil {s : Wire T} (htaken : s.taken ≤ position p content s.sent)
    (hsize : Link.frameSize p (s.round % S.height) T < 2 ^ 64) (hpending : s.Pending p)
    (hholds : s.Holds p content (position p content s.round)) :
    Inv p content { s with link := Link.asyncReadUntil p (s.round % S.height) s.link } := by
  rcases Nat.lt_or_ge s.link.buffer.length delim.length with hshort | hlong
  · rw [Link.asyncReadUntil_short p _ hshort]
    exact ⟨htaken, hpending, .inl ⟨hholds, hshort⟩⟩
  · have hlt : position p content s.round < position p content s.sent := by
      have := hholds.1
      have := Link.delim_length_pos
      omega
    obtain ⟨rest, hbuffer⟩ := hholds.exists_eq_append (drop_position (lt_sent hlt)) hlong
    rw [Holds, hbuffer] at hholds
    rw [Link.asyncReadUntil_delim p _ hbuffer]
    exact inv_asyncRead (s := { s with link := { s.link with buffer := rest } }) htaken hpending
      hholds.drop (Link.toSize_sub hsize)

/-- `async_read_until` when the frame is out of reach. -/
theorem inv_asyncReadUntil_late {s : Wire T} (htaken : s.taken ≤ position p content s.sent)
    (hpending : s.Pending p) (hbuffer : s.link.buffer = [])
    (hlate : s.taken < position p content s.round) :
    Inv p content { s with link := Link.asyncReadUntil p (s.round % S.height) s.link } := by
  rw [Link.asyncReadUntil_short p _ (by rw [hbuffer]; exact Link.delim_length_pos)]
  exact ⟨htaken, hpending, .inr ⟨hbuffer, hlate⟩⟩

/-! ## What the steps do -/

theorem inv_init : (init : Wire T).Inv p content :=
  ⟨Nat.zero_le _, Nat.zero_mod _, .inl (TakenFrom.nil _ _)⟩

/-- The invariant holds on when `p` sends more, and when slots of other processes change. -/
theorem Inv.mono {s : Wire T} (h : s.Inv p content) {sent : ℕ} (hsent : s.sent ≤ sent) {lv : Levels T}
    (hslots : ∀ l, slots p l lv = slots p l s.link.levels) :
    Inv p content { s with sent := sent, link := { s.link with levels := lv } } := by
  have hbytes : s.sentBytes p content
      <+: sentBytes p content { s with sent := sent, link := { s.link with levels := lv } } :=
    stream_mono _ hsent
  have hclean : ∀ l, Clean p l s.link.levels → Clean p l lv := by
    intro l hl
    rw [Clean, hslots]
    exact hl
  have hpending : s.Pending p →
      Pending p { s with sent := sent, link := { s.link with levels := lv } } :=
    fun hp => ⟨hp.1, fun l hl => hclean l (hp.2 l hl)⟩
  obtain ⟨htaken, hphase⟩ := h
  refine ⟨htaken.trans (offset_mono _ hsent), ?_⟩
  show match s.link.phase with | .idle => _ | .untilDelim => _ | .exactly missing => _ | .done => _
  cases hlink : s.link.phase with
  | idle =>
    rw [hlink] at hphase
    exact ⟨hphase.1, hphase.2.imp_left fun hholds => hholds.mono hbytes⟩
  | untilDelim =>
    rw [hlink] at hphase
    exact ⟨hpending hphase.1, hphase.2.imp_left fun hholds => ⟨hholds.1.mono hbytes, hholds.2⟩⟩
  | exactly missing =>
    rw [hlink] at hphase
    exact ⟨hpending hphase.1, hphase.2.imp_left fun hholds => ⟨hholds.1.mono hbytes, hholds.2⟩⟩
  | done =>
    rw [hlink] at hphase
    obtain ⟨⟨hrounds, hlater, hround⟩, hsettled⟩ := hphase
    refine ⟨⟨hrounds, fun l hl => hclean l (hlater l hl), ?_⟩,
      hsettled.imp_left fun hholds => hholds.mono hbytes⟩
    exact hround.imp (fun heq => (hslots _).trans heq) (hclean _)

/-- A job goes on: the next round is a later one. -/
theorem mod_lt_succ_mod {r h : ℕ} (hh : 0 < h) (hne : (r + 1) % h ≠ 0) : r % h < (r + 1) % h := by
  rw [← Nat.mod_add_mod] at hne ⊢
  rcases (Nat.succ_le_of_lt (Nat.mod_lt r hh)).lt_or_eq with hlt | heq
  · rw [Nat.mod_eq_of_lt hlt]
    exact Nat.lt_succ_self _
  · rw [← Nat.succ_eq_add_one, heq, Nat.mod_self] at hne
    exact absurd rfl hne

/-- Between rounds, in both phases. -/
theorem Inv.settled {s : Wire T} (h : s.Inv p content) (hbetween : s.Between) : s.Settled p content := by
  rcases hbetween with hphase | hphase <;> rw [Inv, hphase] at h <;> exact h.2.2

theorem Inv.skip {s : Wire T} (h : s.Inv p content) (hbetween : s.Between)
    (hjob : s.rounds % S.height = 0) :
    Inv p content { s with rounds := s.rounds + S.height, link := { s.link with phase := .idle } } := by
  refine ⟨h.1, by rw [Nat.add_mod_right]; exact hjob, ?_⟩
  rcases Nat.eq_zero_or_pos S.height with hzero | hpos
  · rw [hzero]
    exact h.settled hbetween
  · refine .inr ?_
    have hlt : position p content s.rounds < position p content (s.rounds + S.height) :=
      position_lt (Nat.lt_add_of_pos_right hpos)
    show s.taken < position p content (s.rounds + S.height) + s.link.buffer.length
    rcases h.settled hbetween with hholds | hlate
    · rw [hholds.1]
      omega
    · omega

theorem Inv.start (hq : p ≠ q) (hsize : ∀ l < S.height, Link.frameSize p l T < 2 ^ 64) {s : Wire T}
    (h : s.Inv p content) (hbetween : s.Between) (hheight : 0 < S.height) (own : T)
    (horderly : s.link.buffer = [] ∨ position p content s.rounds + s.link.buffer.length ≤ s.taken) :
    Inv p content { s.nextRound q own with
      link := Link.asyncReadUntil p ((s.nextRound q own).round % S.height) (s.nextRound q own).link } := by
  have hclean : ∀ l, s.rounds % S.height ≤ l →
      Clean p l (startLevels q (s.rounds % S.height) own s.link.levels) := by
    refine clean_startLevels hq own fun hround l hl => ?_
    rcases hbetween with hphase | hphase
    · rw [Inv, hphase] at h
      exact absurd h.2.1 hround
    · -- the round before is one of the same job
      rw [Inv, hphase] at h
      obtain ⟨-, ⟨hrounds, hlater, -⟩, -⟩ := h
      refine hlater l (lt_of_lt_of_le ?_ hl)
      obtain ⟨r, hr⟩ : ∃ r, s.rounds = r + 1 := ⟨s.rounds - 1, by omega⟩
      rw [hr] at hround ⊢
      rw [round, hr, Nat.add_sub_cancel]
      exact mod_lt_succ_mod hheight hround
  have hpending : (s.nextRound q own).Pending p := ⟨⟨hheight, Nat.succ_pos _⟩, hclean⟩
  rcases h.settled hbetween with hholds | hlate
  · exact inv_asyncReadUntil (s := s.nextRound q own) h.1 (hsize _ (Nat.mod_lt _ hheight)) hpending hholds
  · have hbuffer : s.link.buffer = [] := horderly.resolve_right (by omega)
    rw [hbuffer] at hlate
    exact inv_asyncReadUntil_late (s := s.nextRound q own) h.1 hpending hbuffer hlate

theorem Inv.cancel {s : Wire T} (h : s.Inv p content)
    (horderly : s.taken ≤ position p content s.round
      ∨ s.taken = position p content s.round + delim.length
      ∨ position p content (s.round + 1) ≤ s.taken) :
    Inv p content { s with link := Link.cancel p (s.round % S.height) s.link } := by
  have hdelim := Link.delim_length_pos
  have hnext : position p content (s.round + 1) = _ := position_succ s.round
  have h' := h
  obtain ⟨htaken, hphase⟩ := h
  unfold Link.cancel
  cases hlink : s.link.phase with
  | idle => exact h'
  | done => exact h'
  | untilDelim =>
    rw [hlink] at hphase
    obtain ⟨hpending, hbytes⟩ := hphase
    -- nothing of the round has been read
    have hbuffer : s.link.buffer = [] ∧ s.taken < position p content s.round + delim.length := by
      rcases hbytes with ⟨hholds, hshort⟩ | ⟨hbuffer, hlate⟩
      · have := hholds.1
        exact ⟨List.eq_nil_iff_length_eq_zero.mpr (by omega), by omega⟩
      · exact ⟨hbuffer, by omega⟩
    exact inv_asyncRead_late (s := { s with link := { s.link with buffer := s.link.buffer.drop 0 } })
      htaken hpending hbuffer.1 hbuffer.2 _
  | exactly missing =>
    rw [hlink] at hphase
    obtain ⟨hpending, hbytes⟩ := hphase
    have hrounds : position p content s.rounds = _ := position_rounds hpending.1.2
    rcases hbytes with ⟨hholds, hmissing⟩ | ⟨hbuffer, hlate⟩
    · have := hholds.1
      rcases Nat.lt_or_ge s.link.buffer.length (Link.frameSize p (s.round % S.height) T) with hlt | hge
      · -- only the delimiter has been read
        exact inv_onRead_nil htaken hpending (List.eq_nil_iff_length_eq_zero.mpr (by omega)) (by omega)
      · exact inv_onRead_payload htaken hpending hholds hge
    · exact inv_onRead_nil htaken hpending hbuffer (by omega)

theorem Inv.read (hsize : ∀ l < S.height, Link.frameSize p l T < 2 ^ 64) {s : Wire T}
    (h : s.Inv p content) {n : ℕ} (hn : n ≤ s.readable p content)
    (horderly : position p content s.round ≤ s.taken
      ∧ (s.link.phase = .untilDelim ∨ position p content s.round + delim.length ≤ s.taken)) :
    Inv p content { s with
      taken := s.taken + n
      link := Link.read p (s.round % S.height) ((s.unread p content).take n) s.link } := by
  have h' := h
  obtain ⟨htaken, hphase⟩ := h
  have htaken' : n ≤ (s.unread p content).length → s.taken + n ≤ position p content s.sent := by
    intro hle
    have hlen : (s.unread p content).length = position p content s.sent - s.taken := List.length_drop
    omega
  rw [readable] at hn
  unfold Link.read
  cases hlink : s.link.phase with
  | idle =>
    rw [hlink, Nat.le_zero] at hn
    subst hn
    exact h'
  | done =>
    rw [hlink, Nat.le_zero] at hn
    subst hn
    exact h'
  | untilDelim =>
    rw [hlink] at hphase hn
    obtain ⟨hpending, ⟨hholds, -⟩ | ⟨-, hlate⟩⟩ := hphase
    · exact inv_asyncReadUntil (s := { s with
          taken := s.taken + n
          link := { s.link with buffer := s.link.buffer ++ (s.unread p content).take n } })
        (htaken' hn) (hsize _ (Nat.mod_lt _ hpending.1.1)) hpending (hholds.append hn)
    · omega
  | exactly missing =>
    rw [hlink] at hphase hn horderly
    have hunread : n ≤ (s.unread p content).length := hn.trans (min_le_right _ _)
    have hlen : ((s.unread p content).take n).length = n := List.length_take_of_le hunread
    obtain ⟨hpending, ⟨hholds, hmissing⟩ | ⟨-, hlate⟩⟩ := hphase
    · refine inv_asyncRead (s := { s with
          taken := s.taken + n
          link := { s.link with buffer := s.link.buffer ++ (s.unread p content).take n } })
        (htaken' hunread) hpending (hholds.append hunread) fun hle => ?_
      change (s.link.buffer ++ (s.unread p content).take n).length ≤ _ at hle
      show missing - ((s.unread p content).take n).length = Link.frameSize p (s.round % S.height) T
        - (s.link.buffer ++ (s.unread p content).take n).length
      rw [List.length_append, hlen] at hle ⊢
      have := hmissing ((Nat.le_add_right _ _).trans hle)
      omega
    · exact absurd (horderly.2.resolve_left Phase.noConfusion) (not_le.mpr hlate)

/-- A step of an orderly run. -/
theorem Inv.step (hq : p ≠ q) (hsize : ∀ l < S.height, Link.frameSize p l T < 2 ^ 64) {s s' : Wire T}
    (h : s.Inv p content) {e : Event S T} (horderly : orderly p content s e)
    (hstep : step p q content s e = some s') : s'.Inv p content := by
  cases e with
  | send =>
    cases hstep
    exact h.mono (Nat.le_succ _) fun _ => rfl
  | skip =>
    obtain ⟨⟨hbetween, hjob⟩, hs'⟩ := Option.ite_none_right_eq_some.mp hstep
    cases hs'
    exact h.skip hbetween hjob
  | start own =>
    obtain ⟨⟨hbetween, hheight⟩, hs'⟩ := Option.ite_none_right_eq_some.mp hstep
    cases hs'
    exact h.start hq hsize hbetween hheight own (of_decide_eq_true horderly)
  | read n =>
    obtain ⟨hn, hs'⟩ := Option.ite_none_right_eq_some.mp hstep
    cases hs'
    exact h.read hsize hn (of_decide_eq_true horderly)
  | cancel =>
    cases hstep
    exact h.cancel (of_decide_eq_true horderly)
  | peer r blocks =>
    obtain ⟨hr, hs'⟩ := Option.ite_none_left_eq_some.mp hstep
    cases hs'
    exact h.mono le_rfl fun l => slots_peer hr _ l blocks _

/-- A whole orderly run. -/
theorem Inv.run (hq : p ≠ q) (hsize : ∀ l < S.height, Link.frameSize p l T < 2 ^ 64)
    {es : List (Event S T)} {s s' : Wire T} (h : s.Inv p content)
    (hrun : run p q content (orderly p content) es s = some s') : s'.Inv p content := by
  induction es generalizing s with
  | nil =>
    cases hrun
    exact h
  | cons e es ih =>
    obtain ⟨horderly, hbind⟩ := Option.ite_none_right_eq_some.mp hrun
    obtain ⟨t, hstep, hrest⟩ := Option.bind_eq_some_iff.mp hbind
    exact ih (h.step hq hsize horderly hstep) hrest

/-- **No late frame is taken for a current one.** In every run whose steps are orderly, a round that is
over has left exactly its payload in the slots of `p`, or has left them zero. (The slots of a level are
in one array, so their size is a `size_t`.) -/
theorem intact_of_orderly (S : Shape) {p q : Fin S.degree} (hq : p ≠ q) (content : ℕ → Levels T)
    (hsize : ∀ l < S.height, Link.frameSize p l T < 2 ^ 64) (es : List (Event S T)) {s : Wire T}
    (hrun : run p q content (orderly p content) es init = some s) : s.Intact p content :=
  (inv_init.run hq hsize hrun).intact

/-- `p` holds the same byte everywhere. -/
def sameTree (_ : ℕ) : Levels UInt8 := fun _ _ => 0x78

/-- A read beyond the frame, which only the timer ends, a round on time, two rounds without their frames
and a skipped job. -/
def overtakenEvents : List (Event Shape.four UInt8) :=
  [.send, .start 1, .send, .read 34, .cancel, .start 1, .peer 2 [5, 6, 7], .read 32, .start 2, .cancel,
    .send, .cancel, .start 2, .cancel, .cancel, .skip, .start 3, .cancel, .cancel]

theorem intact_of_orderly_overtaken :
    ∃ s, run 1 0 sameTree (orderly 1 sameTree) overtakenEvents init = some s
      ∧ Intact (S := Shape.four) 1 sameTree s := by
  have hrun : (run 1 0 sameTree (orderly 1 sameTree) overtakenEvents init).isSome = true := by
    decide +kernel
  exact ⟨_, (Option.some_get hrun).symm, intact_of_orderly Shape.four (by decide) sameTree (by decide +kernel)
    overtakenEvents (Option.some_get hrun).symm⟩

/-- The frame arrives after the read of the delimiter has been cancelled, and before the read that its
handler begins is. -/
def cancelledEvents : List (Event Shape.four UInt8) := [.start 1, .cancel, .send, .read 1]

/-- The round leaves one byte of the delimiter. -/
theorem not_intact_cancelledRead :
    ¬∀ (es : List (Event Shape.four UInt8)) (s : Wire UInt8),
      run 1 0 sameTree (fun _ _ => true) es init = some s →
        Intact (S := Shape.four) 1 sameTree s := by
  intro h
  have hrun : (run 1 0 sameTree (fun _ _ => true) cancelledEvents init).isSome = true := by decide +kernel
  exact absurd (h cancelledEvents _ (Option.some_get hrun).symm (by decide +kernel +revert))
    (by decide +kernel +revert)

/-- The frame of round 0 arrives in round 1, and the one of round 1 behind it. -/
def lateEvents : List (Event Shape.four UInt8) :=
  [.start 1, .cancel, .cancel, .send, .start 1, .read 32, .send, .read 2]

-- round 1 leaves the payload of round 0 and two bytes of the next delimiter
example : (run 1 0 sameTree (fun _ _ => true) lateEvents init).map
    (fun s => (s.link.phase, slots (S := Shape.four) 1 1 s.link.levels))
      = some (.done, [0x78, 0x3D, 0x3D]) := by decide +kernel

end Wire

end Achal
