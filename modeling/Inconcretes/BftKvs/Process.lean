import Inconcretes.BftKvs.Fuse
import Inconcretes.EigTree.Protocol

/-!
# One process

`BFTKVS` collects accepted writes in `unpublished` and runs jobs. A job copies `unpublished` into the root
of the tree and clears it, plays the rounds, reduces the tree, runs the fuse function and clears the tree.
A job for which `should_die` returns true only clears `unpublished`. Both are modelled one at a time, with
the frames that complete in each round, and with the clock, as inputs.

Every path that resets `unpublished` clears all of its bytes, and `try_write` only appends, so the node is
a function of the writes accepted since (`BFTKVS.Buffered`).
-/

namespace Achal

variable (S : Shape) (P : Params)

/-- `fuse_function_t`, with the iteration orders that a call meets. -/
abbrev FuseFunction := Ledger → List (EigNode P) → Except StodError Ledger

/-- The state of a `BFTKVS`, apart from its connections. -/
structure BFTKVS where
  unpublished : EigNode P
  tree : Levels (EigNode P)
  ledger : Ledger
  numJobs : ℕ

/-- What a job reads from outside: the answer of `should_die`, the frames that complete in each round in
the order in which they do, the iteration orders of `reduce()`, and the fuse function if there is one. -/
structure JobInput where
  shouldDie : Bool
  frames : ℕ → List (Fin S.degree × List (EigNode P))
  order : ℕ → ℕ → IterOrder UInt32 ℕ
  fuse : Option (FuseFunction P)

variable {S P}

namespace BFTKVS

/-- The state that the constructor leaves. -/
def init : BFTKVS P where
  unpublished := Pod.zero
  tree := Levels.clear _
  ledger := Ledger.empty
  numJobs := 0

/-- `try_write(key, publish_time, value)` when the clock shows `now`. Without a result an assertion has
failed. -/
def tryWrite (s : BFTKVS P) (now : Uint64) (w : Ktv) : Option (Bool × BFTKVS P) :=
  if w.time ≤ now then some (false, s)
  else if P.KS < w.key.length then none
  else if P.VS < w.value.length then none
  else if P.NT ≤ s.unpublished.length.val then some (false, s)
  else some (true, { s with unpublished := s.unpublished.push w })

/-- `*tree.root() = unpublished`, and `unpublished` is cleared. -/
def snapshot (s : BFTKVS P) : BFTKVS P :=
  { s with tree := s.tree.set 0 0 s.unpublished, unpublished := Pod.zero }

/-- The rounds `0` to `m - 1` of process `pid`. -/
def rounds (pid : Fin S.degree) (frames : ℕ → List (Fin S.degree × List (EigNode P))) (m : ℕ)
    (lv : Levels (EigNode P)) : Levels (EigNode P) :=
  (List.range m).foldl (fun lv l => S.playRound S.optimized l pid (frames l) lv) lv

/-- The commits of a job: the fuse function on the interactive consistency vector, or the reduced root. -/
def fuseResult (S : Shape) (fuse : Option (FuseFunction P)) (lv : Levels (EigNode P)) (s : Ledger) :
    Except StodError Ledger :=
  match fuse with
  | some f => f s (S.interactiveConsistencyVector lv)
  | none => .ok (commitRoot lv.root s)

/-- `job()` of process `pid`. An exception of the fuse function leaves the job where it is. -/
def job (crc : List UInt8 → UInt32) (pid : Fin S.degree) (i : JobInput S P) (s : BFTKVS P) :
    BFTKVS P × Except StodError Unit :=
  if i.shouldDie then
    ({ s with unpublished := Pod.zero, numJobs := s.numJobs + 1 }, .ok ())
  else
    let s := s.snapshot
    let lv := S.reduce crc i.order (rounds pid i.frames S.height s.tree)
    match fuseResult S i.fuse lv s.ledger with
    | .ok ledger =>
      ({ s with tree := Levels.clear _, ledger := ledger, numJobs := s.numJobs + 1 }, .ok ())
    | .error e => ({ s with tree := lv }, .error e)

/-! ## Sequences of calls -/

/-- A call on a process. -/
inductive Call (S : Shape) (P : Params)
  | tryWrite (now : Uint64) (w : Ktv)
  | job (i : JobInput S P)

/-- One call, with the writes accepted since the last job. -/
def call (crc : List UInt8 → UInt32) (pid : Fin S.degree) :
    BFTKVS P × List Ktv → Call S P → Option (BFTKVS P × List Ktv)
  | (s, accepted), .tryWrite now w =>
    (s.tryWrite now w).map fun r => (r.2, if r.1 then accepted ++ [w] else accepted)
  | (s, _), .job i => some ((s.job crc pid i).1, [])

/-- A sequence of calls on a new process. -/
def run (crc : List UInt8 → UInt32) (pid : Fin S.degree) (calls : List (Call S P)) :
    Option (BFTKVS P × List Ktv) :=
  calls.foldlM (call crc pid) (init, [])

theorem run_append (crc : List UInt8 → UInt32) (pid : Fin S.degree) (calls : List (Call S P))
    (c : Call S P) : run crc pid (calls ++ [c]) = (run crc pid calls).bind fun r => call crc pid r c := by
  rw [run, List.foldlM_append, ← run]
  simp

/-- An invariant of every call holds after every sequence of calls. -/
theorem run_induction {crc : List UInt8 → UInt32} {pid : Fin S.degree} {calls : List (Call S P)}
    (Inv : BFTKVS P × List Ktv → Prop) (hinit : Inv (init, []))
    (hcall : ∀ c ∈ calls, ∀ r r', Inv r → call crc pid r c = some r' → Inv r')
    {r : BFTKVS P × List Ktv} (hrun : run crc pid calls = some r) : Inv r := by
  induction calls using List.reverseRecOn generalizing r with
  | nil => exact Option.some.inj hrun ▸ hinit
  | append_singleton calls c ih =>
    rw [run_append, Option.bind_eq_some_iff] at hrun
    obtain ⟨r₀, hr₀, hlast⟩ := hrun
    exact hcall c (by simp) r₀ r (ih (fun c hc => hcall c (by simp [hc])) hr₀) hlast

/-! ## One call -/

/-- What a `try_write` that returns has done. -/
theorem tryWrite_cases {s s' : BFTKVS P} {now : Uint64} {w : Ktv} {b : Bool}
    (h : s.tryWrite now w = some (b, s')) : b = false ∧ s' = s ∨
      b = true ∧ w.Fits P ∧ s.unpublished.length.val < P.NT
        ∧ s' = { s with unpublished := s.unpublished.push w } := by
  unfold tryWrite at h
  by_cases htime : w.time ≤ now
  · rw [if_pos htime] at h
    cases h
    exact Or.inl ⟨rfl, rfl⟩
  · rw [if_neg htime] at h
    by_cases hkey : P.KS < w.key.length
    · rw [if_pos hkey] at h
      cases h
    · rw [if_neg hkey] at h
      by_cases hvalue : P.VS < w.value.length
      · rw [if_pos hvalue] at h
        cases h
      · rw [if_neg hvalue] at h
        by_cases hfull : P.NT ≤ s.unpublished.length.val
        · rw [if_pos hfull] at h
          cases h
          exact Or.inl ⟨rfl, rfl⟩
        · rw [if_neg hfull] at h
          cases h
          exact Or.inr ⟨rfl, ⟨not_lt.mp hkey, not_lt.mp hvalue⟩, not_le.mp hfull, rfl⟩

/-- No assertion fails on a write within the sizes. -/
theorem tryWrite_returns (s : BFTKVS P) (now : Uint64) {w : Ktv} (hw : w.Fits P) :
    ∃ r, s.tryWrite now w = some r := by
  unfold tryWrite
  rw [if_neg (not_lt.mpr hw.key_le), if_neg (not_lt.mpr hw.value_le)]
  split_ifs <;> exact ⟨_, rfl⟩

/-- A write in time is accepted while there is room. -/
theorem tryWrite_accepts {s : BFTKVS P} {now : Uint64} {w : Ktv} (htime : now < w.time) (hw : w.Fits P)
    (hroom : s.unpublished.length.val < P.NT) : ∃ s', s.tryWrite now w = some (true, s') := by
  unfold tryWrite
  rw [if_neg (not_le.mpr htime), if_neg (not_lt.mpr hw.key_le), if_neg (not_lt.mpr hw.value_le),
    if_neg (not_le.mpr hroom)]
  exact ⟨_, rfl⟩

/-- A write in time that returns is accepted while there is room. -/
theorem accepted_of_tryWrite {s s' : BFTKVS P} {now : Uint64} {w : Ktv} {b : Bool}
    (h : s.tryWrite now w = some (b, s')) (htime : now < w.time) (hroom : s.unpublished.length.val < P.NT) :
    b = true := by
  unfold tryWrite at h
  rw [if_neg (not_le.mpr htime)] at h
  split at h
  · cases h
  · split at h
    · cases h
    · rw [if_neg (not_le.mpr hroom)] at h
      exact (Prod.mk.inj (Option.some.inj h)).1.symm

/-- However a job ends, `unpublished` is cleared. -/
theorem job_unpublished (crc : List UInt8 → UInt32) (pid : Fin S.degree) (i : JobInput S P)
    (s : BFTKVS P) : (s.job crc pid i).1.unpublished = Pod.zero := by
  unfold job
  split
  · rfl
  · dsimp only
    split <;> rfl

/-! ## The buffer -/

/-- `unpublished` is what the accepted writes make of a cleared node. -/
structure Buffered (s : BFTKVS P) (accepted : List Ktv) : Prop where
  unpublished : s.unpublished = accepted.foldl EigNode.push Pod.zero
  fits : ∀ w ∈ accepted, w.Fits P
  length_le : accepted.length ≤ P.NT

/-- A cleared node, filled with writes that fit. -/
theorem holds_push {accepted : List Ktv} (hfits : ∀ w ∈ accepted, w.Fits P)
    (hlen : accepted.length ≤ P.NT) : (accepted.foldl EigNode.push (Pod.zero : EigNode P)).Holds accepted := by
  induction accepted using List.reverseRecOn with
  | nil => exact EigNode.holds_zero
  | append_singleton ws w ih =>
    rw [List.length_append, List.length_singleton] at hlen
    rw [List.foldl_append]
    exact (ih (fun x hx => hfits x (by simp [hx])) (by omega)).push (by omega) (hfits w (by simp))

theorem Buffered.holds {s : BFTKVS P} {accepted : List Ktv} (h : s.Buffered accepted) :
    s.unpublished.Holds accepted := by
  rw [h.unpublished]
  exact holds_push h.fits h.length_le

theorem buffered_init : (init : BFTKVS P).Buffered [] := ⟨rfl, nofun, Nat.zero_le _⟩

theorem Buffered.tryWrite {s s' : BFTKVS P} {accepted : List Ktv} {now : Uint64} {w : Ktv} {b : Bool}
    (h : s.Buffered accepted) (hwrite : s.tryWrite now w = some (b, s')) :
    s'.Buffered (if b then accepted ++ [w] else accepted) := by
  rcases tryWrite_cases hwrite with ⟨rfl, rfl⟩ | ⟨rfl, hw, hroom, rfl⟩
  · exact h
  · refine ⟨?_, ?_, ?_⟩
    · rw [if_pos rfl, List.foldl_append, ← h.unpublished]
      rfl
    · intro x hx
      rcases List.mem_append.mp hx with hx | hx
      · exact h.fits x hx
      · exact List.mem_singleton.mp hx ▸ hw
    · have hlen : s.unpublished.length.val = accepted.length := h.holds.1
      rw [if_pos rfl, List.length_append, List.length_singleton]
      omega

theorem buffered_job (crc : List UInt8 → UInt32) (pid : Fin S.degree) (i : JobInput S P) (s : BFTKVS P) :
    (s.job crc pid i).1.Buffered [] := ⟨s.job_unpublished crc pid i, by simp, Nat.zero_le _⟩

/-- One call keeps the buffer a function of the accepted writes. -/
theorem Buffered.call {crc : List UInt8 → UInt32} {pid : Fin S.degree} {c : Call S P}
    {r r' : BFTKVS P × List Ktv} (h : r.1.Buffered r.2) (hcall : BFTKVS.call crc pid r c = some r') :
    r'.1.Buffered r'.2 := by
  obtain ⟨s, accepted⟩ := r
  cases c with
  | tryWrite now w =>
    obtain ⟨⟨b, s'⟩, hwrite, rfl⟩ := Option.map_eq_some_iff.mp hcall
    exact h.tryWrite hwrite
  | job i =>
    cases hcall
    exact buffered_job crc pid i s

theorem run_buffered {crc : List UInt8 → UInt32} {pid : Fin S.degree} {calls : List (Call S P)}
    {r : BFTKVS P × List Ktv} (hrun : run crc pid calls = some r) : r.1.Buffered r.2 :=
  run_induction (fun r => r.1.Buffered r.2) buffered_init
    (fun _ _ _ _ h hcall => h.call hcall) hrun

/-- Every sequence of calls returns, when its writes are within the sizes. -/
theorem run_returns (crc : List UInt8 → UInt32) (pid : Fin S.degree) {calls : List (Call S P)}
    (hfits : ∀ now w, Call.tryWrite now w ∈ calls → w.Fits P) : ∃ r, run crc pid calls = some r := by
  induction calls using List.reverseRecOn with
  | nil => exact ⟨_, rfl⟩
  | append_singleton calls c ih =>
    obtain ⟨⟨s, accepted⟩, hr⟩ := ih fun now w hmem => hfits now w (by simp [hmem])
    rw [run_append, hr, Option.bind_some]
    cases c with
    | tryWrite now w =>
      obtain ⟨r, hwrite⟩ := s.tryWrite_returns now (hfits now w (by simp))
      exact ⟨_, by rw [BFTKVS.call, hwrite]; rfl⟩
    | job i => exact ⟨_, rfl⟩

/-- The writes accepted in a sequence of calls are among its calls. -/
theorem mem_of_accepted {crc : List UInt8 → UInt32} {pid : Fin S.degree} {calls : List (Call S P)}
    {r : BFTKVS P × List Ktv} (hrun : run crc pid calls = some r) :
    ∀ w ∈ r.2, ∃ now, Call.tryWrite now w ∈ calls := by
  refine run_induction (fun r => ∀ w ∈ r.2, ∃ now, Call.tryWrite now w ∈ calls) (by simp) ?_ hrun
  rintro c hc ⟨s, accepted⟩ r' h hcall
  cases c with
  | tryWrite now w =>
    obtain ⟨⟨b, s'⟩, -, rfl⟩ := Option.map_eq_some_iff.mp hcall
    intro x hx
    cases b with
    | false => exact h x hx
    | true =>
      rcases List.mem_append.mp hx with hx | hx
      · exact h x hx
      · exact ⟨now, List.mem_singleton.mp hx ▸ hc⟩
  | job i =>
    cases hcall
    simp

/-- The root of the next job is the buffer. -/
theorem root_snapshot (s : BFTKVS P) : s.snapshot.tree.root = s.unpublished :=
  Levels.set_same s.tree 0 0 s.unpublished

/-- **No accepted write is lost.** After any sequence of calls whose writes have no NUL byte and are within
the sizes, `unpublished` has at most `NT` tuples, a rejected write leaves it as it is, and the next job
snapshots exactly the writes accepted since the last one, in order. A process with the same accepted
writes, whatever the two have gone through before, snapshots the same bytes. -/
theorem snapshot_faithful (crc : List UInt8 → UInt32) (pid pid' : Fin S.degree)
    (calls calls' : List (Call S P))
    (hwrites : ∀ now w, Call.tryWrite now w ∈ calls → w.NulFree ∧ w.Fits P)
    (hwrites' : ∀ now w, Call.tryWrite now w ∈ calls' → w.NulFree ∧ w.Fits P) :
    ∃ s accepted s' accepted', run crc pid calls = some (s, accepted)
      ∧ run crc pid' calls' = some (s', accepted')
      ∧ s.unpublished.length.val ≤ P.NT
      ∧ (∀ now w r, s.tryWrite now w = some (false, r) → r.unpublished = s.unpublished)
      ∧ s.snapshot.tree.root.decode = accepted
      ∧ (accepted = accepted' → Pod.bytes s.snapshot.tree.root = Pod.bytes s'.snapshot.tree.root) := by
  obtain ⟨⟨s, accepted⟩, hrun⟩ := run_returns crc pid fun now w h => (hwrites now w h).2
  obtain ⟨⟨s', accepted'⟩, hrun'⟩ := run_returns crc pid' fun now w h => (hwrites' now w h).2
  have hs := run_buffered hrun
  have hs' := run_buffered hrun'
  refine ⟨s, accepted, s', accepted', hrun, hrun', ?_, ?_, ?_, ?_⟩
  · rw [hs.holds.1]
    exact hs.length_le
  · intro now w r hfalse
    rcases tryWrite_cases hfalse with ⟨-, rfl⟩ | ⟨htrue, -⟩
    · rfl
    · exact absurd htrue Bool.false_ne_true
  · rw [root_snapshot, hs.holds.decode_eq]
    conv_rhs => rw [← List.map_id accepted]
    apply List.map_congr_left
    intro w hw
    obtain ⟨now, hmem⟩ := mem_of_accepted hrun w hw
    exact (hwrites now w hmem).1.encoded_eq
  · rintro rfl
    rw [root_snapshot, root_snapshot, hs.unpublished, hs'.unpublished]

/-- Room for two tuples. The third write comes too late, the fourth finds no room. -/
def fillingCalls : List (Call Shape.four ⟨2, 7, 15, by decide⟩) :=
  [.tryWrite 4 ⟨[0x6B], 5, [0x76]⟩, .tryWrite 4 ⟨[0x6B, 0x32], 5, []⟩, .tryWrite 6 ⟨[0x6B], 6, [0x76]⟩,
    .tryWrite 6 ⟨[0x6B], 7, [0x76]⟩]

/-- The same after a longer write and a skipped job. -/
def refillingCalls : List (Call Shape.four ⟨2, 7, 15, by decide⟩) :=
  .tryWrite 1 ⟨[0x6B, 0x65, 0x79], 2, [0x76, 0x61, 0x6C]⟩
    :: .job ⟨true, fun _ => [], fun _ _ => IterOrder.newestFirst _ _, none⟩ :: fillingCalls

theorem snapshot_faithful_filling :
    ∃ s accepted s' accepted', run crc32 0 fillingCalls = some (s, accepted)
      ∧ run crc32 1 refillingCalls = some (s', accepted')
      ∧ s.unpublished.length.val ≤ 2
      ∧ (∀ now w r, s.tryWrite now w = some (false, r) → r.unpublished = s.unpublished)
      ∧ s.snapshot.tree.root.decode = accepted
      ∧ (accepted = accepted' → Pod.bytes s.snapshot.tree.root = Pod.bytes s'.snapshot.tree.root) := by
  refine snapshot_faithful crc32 0 1 fillingCalls refillingCalls (fun now w h => ?_) fun now w h => ?_
  · simp only [fillingCalls, List.mem_cons, List.not_mem_nil, or_false, Call.tryWrite.injEq] at h
    rcases h with ⟨-, rfl⟩ | ⟨-, rfl⟩ | ⟨-, rfl⟩ | ⟨-, rfl⟩ <;>
      exact ⟨⟨by decide, by decide⟩, ⟨by decide, by decide⟩⟩
  · simp only [refillingCalls, fillingCalls, List.mem_cons, List.not_mem_nil, or_false,
      Call.tryWrite.injEq, reduceCtorEq, false_or] at h
    rcases h with ⟨-, rfl⟩ | ⟨-, rfl⟩ | ⟨-, rfl⟩ | ⟨-, rfl⟩ | ⟨-, rfl⟩ <;>
      exact ⟨⟨by decide, by decide⟩, ⟨by decide, by decide⟩⟩

end BFTKVS

end Achal
