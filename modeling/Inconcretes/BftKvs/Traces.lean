import Inconcretes.BftKvs.Median

/-!
# What proposals leave in the store

Both fuse functions look up the bucket of every proposed key with `store[key]` before they count the
proposals for its timestamps, and this lookup creates the bucket. So a key that a single node proposes
enters the store, with no value under it, unless it is there already (`noTrace_iff`).
-/

namespace Achal

variable {P : Params} {β : Type*} {F : Doubles}

namespace Ledger

/-- The commits made from `s` to `s'`. -/
def madeSince (s s' : Ledger) : List Ktv := s'.commits.drop s.commits.length

/-- From `s` to `s'` only keys with a commit became known, and only their buckets changed. -/
structure NoTrace (s s' : Ledger) : Prop where
  known : ∀ key, (s'.store key).isSome ↔ (s.store key).isSome ∨ ∃ w ∈ s.madeSince s', w.key = key
  unchanged : ∀ key, (∀ w ∈ s.madeSince s', w.key ≠ key) → s'.store key = s.store key

theorem Extends.madeSince_eq {s s' : Ledger} {ks : List Str} {cs : List Ktv} (h : s.Extends s' ks cs) :
    s.madeSince s' = cs := by
  rw [madeSince, h.commits, List.drop_left]

/-- A commit path leaves no trace of a key without commit when it looks up no new one. -/
theorem Extends.noTrace_iff_known {s s' : Ledger} {ks : List Str} {cs : List Ktv} (h : s.Extends s' ks cs)
    (hcs : ∀ w ∈ cs, w.key ∈ ks) :
    s.NoTrace s' ↔ ∀ key ∈ ks, (s.store key).isSome ∨ ∃ w ∈ cs, w.key = key := by
  constructor
  · intro hno key hkey
    rw [← h.madeSince_eq]
    exact (hno.known key).mp ((h.known key).mpr (Or.inr hkey))
  · intro hall
    have hknown : ∀ key, (s'.store key).isSome
        ↔ (s.store key).isSome ∨ ∃ w ∈ s.madeSince s', w.key = key := by
      intro key
      rw [h.madeSince_eq, h.known]
      constructor
      · exact fun hkey => hkey.elim Or.inl (hall key)
      · exact fun hkey => hkey.imp_right fun ⟨w, hw, heq⟩ => heq ▸ hcs w hw
    refine ⟨hknown, fun key hkey => Store.apply_eq ?_ ?_⟩
    · rw [hknown]
      exact or_iff_left fun ⟨w, hw, heq⟩ => hkey w hw heq
    · rw [h.madeSince_eq] at hkey
      rw [h.bucket, commitsOf, List.filter_eq_nil_iff.mpr fun w hw => by simpa using hkey w hw]
      rfl

end Ledger

/-! ## The keys of the fuse functions -/

/-- A commit looks up a key of the nested map. -/
theorem key_mem_of_loopCommits {o : FuseOrder β} {elect : Str → Uint64 → UMap ℕ β → Option Str}
    {m : Votes β} {w : Ktv} (hw : w ∈ Ledger.loopCommits o elect m) :
    w.key ∈ (o.keys.visit m).map Sigma.fst := by
  obtain ⟨times, htimes, -⟩ := Ledger.mem_loopCommits.mp hw
  rw [o.keys.mem_visit_keys, htimes]
  rfl

theorem mem_strongKeys {o : FuseOrder Str} {nodes : List (EigNode P)} {key : Str} :
    key ∈ (o.keys.visit (ktnv nodes)).map Sigma.fst ↔ ∃ n ∈ nodes, ∃ w ∈ n.proposals, w.key = key := by
  rw [o.keys.mem_visit_keys, ktnv_eq_recordAll, Votes.isSome_lookup_recordAll]
  constructor
  · rintro ⟨b', hb', rfl⟩
    obtain ⟨b, hb, rfl⟩ := List.mem_map.mp hb'
    obtain ⟨n, hn, hw⟩ := mem_ballots.mp ⟨b, hb, rfl⟩
    exact ⟨n, hn, b.2, hw, rfl⟩
  · rintro ⟨n, hn, w, hw, rfl⟩
    obtain ⟨b, hb, rfl⟩ := mem_ballots.mpr ⟨n, hn, hw⟩
    exact ⟨(b, b.2.value), List.mem_map_of_mem hb, rfl⟩

theorem mem_medianKeys {o : FuseOrder F.Double} {nodes : List (EigNode P)} {key : Str} :
    key ∈ (o.keys.visit (Votes.recordAll (F.numbers (ballots nodes)))).map Sigma.fst
      ↔ ∃ n ∈ nodes, ∃ w ∈ n.proposals, w.key = key ∧ ∃ x, F.stod w.value = .ok x := by
  rw [o.keys.mem_visit_keys, Votes.isSome_lookup_recordAll]
  constructor
  · rintro ⟨⟨b, x⟩, hb, rfl⟩
    obtain ⟨hb, hx⟩ := Doubles.mem_numbers.mp hb
    obtain ⟨n, hn, hw⟩ := mem_ballots.mp ⟨b, hb, rfl⟩
    exact ⟨n, hn, b.2, hw, rfl, x, hx⟩
  · rintro ⟨n, hn, w, hw, rfl, x, hx⟩
    obtain ⟨b, hb, rfl⟩ := mem_ballots.mpr ⟨n, hn, hw⟩
    exact ⟨(b, x), Doubles.mem_numbers.mpr ⟨hb, hx⟩, rfl⟩

/-! ## When no trace is left -/

/-- Every key that a node proposes is known or gets a value. -/
theorem noTrace_strong_iff (o : FuseOrder Str) (freqOrder : Str → Uint64 → IterOrder Str ℕ)
    (nodes : List (EigNode P)) (s : Ledger) :
    s.NoTrace (strongSimpleMajorityOfStrings o freqOrder nodes s)
      ↔ ∀ n ∈ nodes, ∀ w ∈ n.proposals, (s.store w.key).isSome
          ∨ ∃ time value, nodes.length < 2 * supporters nodes ⟨w.key, time, value⟩ := by
  have hcommitted : ∀ key, (∃ w ∈ strongCommits o freqOrder nodes, w.key = key)
      ↔ ∃ time value, nodes.length < 2 * supporters nodes ⟨key, time, value⟩ := by
    intro key
    constructor
    · rintro ⟨w, hw, rfl⟩
      exact ⟨w.time, w.value, mem_strongCommits.mp hw⟩
    · rintro ⟨time, value, h⟩
      exact ⟨⟨key, time, value⟩, mem_strongCommits.mpr h, rfl⟩
  rw [(extends_strong o freqOrder nodes s).noTrace_iff_known fun w hw => key_mem_of_loopCommits hw]
  simp only [mem_strongKeys, hcommitted]
  constructor
  · exact fun h n hn w hw => h w.key ⟨n, hn, w, hw, rfl⟩
  · rintro h key ⟨n, hn, w, hw, rfl⟩
    exact h n hn w hw

/-- Every key that a node proposes with a number is known or has a timestamp with three numbers. -/
theorem noTrace_median_iff {o : FuseOrder F.Double} {nodes : List (EigNode P)} {s s' : Ledger}
    (hrun : medianOfDoubles F o nodes s = .ok s') :
    s.NoTrace s' ↔ ∀ n ∈ nodes, ∀ w ∈ n.proposals, (∃ x, F.stod w.value = .ok x) →
      (s.store w.key).isSome ∨ ∃ time, 3 ≤ (F.votes nodes w.key time).length := by
  have hcommitted : ∀ key, (∃ w ∈ medianCommits F o nodes, w.key = key)
      ↔ ∃ time, 3 ≤ (F.votes nodes key time).length := by
    intro key
    simp only [← exists_mem_medianCommits_iff (o := o)]
    constructor
    · rintro ⟨w, hw, rfl⟩
      exact ⟨w.time, w.value, hw⟩
    · rintro ⟨time, value, h⟩
      exact ⟨⟨key, time, value⟩, h, rfl⟩
  rw [(extends_medianOfDoubles hrun).noTrace_iff_known fun w hw => key_mem_of_loopCommits hw]
  simp only [mem_medianKeys, hcommitted]
  constructor
  · exact fun h n hn w hw hx => h w.key ⟨n, hn, w, hw, rfl, hx⟩
  · rintro h key ⟨n, hn, w, hw, rfl, hx⟩
    exact h n hn w hw hx

/-- **When unsupported proposals leave no trace.** Exactly when every key that a node proposes is in the
store already or gets a value by this call: a strong majority for one of its timestamps, or, for
`median_of_doubles`, which looks at proposals that are numbers only, three nodes with a number. -/
theorem noTrace_iff (F : Doubles) (nodes : List (EigNode P)) (s : Ledger) :
    (∀ o freqOrder, s.NoTrace (strongSimpleMajorityOfStrings o freqOrder nodes s)
        ↔ ∀ n ∈ nodes, ∀ w ∈ n.proposals, (s.store w.key).isSome
          ∨ ∃ time value, nodes.length < 2 * supporters nodes ⟨w.key, time, value⟩)
      ∧ ∀ o s', medianOfDoubles F o nodes s = .ok s' → (s.NoTrace s'
        ↔ ∀ n ∈ nodes, ∀ w ∈ n.proposals, (∃ x, F.stod w.value = .ok x) →
          (s.store w.key).isSome ∨ ∃ time, 3 ≤ (F.votes nodes w.key time).length) :=
  ⟨fun o freqOrder => noTrace_strong_iff o freqOrder nodes s, fun _ _ hrun => noTrace_median_iff hrun⟩

/-- Node `i` of four proposes key `k` with value `1`, if it is among the proposing ones. -/
def proposingAmongFour (proposing : List ℕ) : List (EigNode (oneTuple 1 1)) :=
  (List.range 4).map fun i =>
    if i ∈ proposing then (Pod.zero : EigNode (oneTuple 1 1)).push ⟨[107], 5, [49]⟩ else Pod.zero

/-- Three nodes are enough for either function. -/
theorem noTrace_threeOfFour :
    Ledger.empty.NoTrace (strongSimpleMajorityOfStrings (FuseOrder.newestFirst Str)
        (fun _ _ => IterOrder.newestFirst Str ℕ) (proposingAmongFour [0, 1, 2]) Ledger.empty)
      ∧ ∀ s', medianOfDoubles Doubles.decimals (FuseOrder.newestFirst ℚ) (proposingAmongFour [0, 1, 2])
          Ledger.empty = .ok s' → Ledger.empty.NoTrace s' := by
  have hiff := noTrace_iff Doubles.decimals (proposingAmongFour [0, 1, 2]) Ledger.empty
  have hkey : ∀ n ∈ proposingAmongFour [0, 1, 2], ∀ w ∈ n.proposals, w.key = [107] := by decide +kernel
  constructor
  · refine (hiff.1 _ _).mpr fun n hn w hw => Or.inr ⟨5, [49], ?_⟩
    rw [hkey n hn w hw]
    decide +kernel
  · intro s' hs'
    refine (hiff.2 _ s' hs').mpr fun n hn w hw _ => Or.inr ⟨5, ?_⟩
    rw [hkey n hn w hw]
    decide +kernel

/-- One node is enough to get its key into the store, without a value. -/
theorem not_noTrace_oneOfFour :
    ¬Ledger.empty.NoTrace (strongSimpleMajorityOfStrings (FuseOrder.newestFirst Str)
        (fun _ _ => IterOrder.newestFirst Str ℕ) (proposingAmongFour [3]) Ledger.empty)
      ∧ ∃ s', medianOfDoubles Doubles.decimals (FuseOrder.newestFirst ℚ) (proposingAmongFour [3])
          Ledger.empty = .ok s' ∧ ¬Ledger.empty.NoTrace s' := by
  constructor
  · intro h
    have hsome : ((strongSimpleMajorityOfStrings (FuseOrder.newestFirst Str)
        (fun _ _ => IterOrder.newestFirst Str ℕ) (proposingAmongFour [3]) Ledger.empty).store
        [107]).isSome = true := by decide +kernel
    rw [h.unchanged [107] (by decide +kernel)] at hsome
    cases hsome
  · have hbound : (medianOfDoubles Doubles.decimals (FuseOrder.newestFirst ℚ) (proposingAmongFour [3])
        Ledger.empty).map (fun s' => ((s'.store [107]).isSome, s'.commits)) = .ok (true, []) := by
      decide +kernel
    cases hrun : medianOfDoubles Doubles.decimals (FuseOrder.newestFirst ℚ) (proposingAmongFour [3])
        Ledger.empty with
    | error e =>
      rw [hrun] at hbound
      cases hbound
    | ok s' =>
      rw [hrun] at hbound
      obtain ⟨hsome, hcommits⟩ := Prod.mk.inj (Except.ok.inj hbound)
      refine ⟨s', rfl, fun h => ?_⟩
      rw [h.unchanged [107] (by rw [Ledger.madeSince, hcommits]; exact nofun)] at hsome
      cases hsome

end Achal
