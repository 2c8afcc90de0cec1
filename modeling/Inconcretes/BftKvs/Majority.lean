import Inconcretes.BftKvs.Fuse

/-!
# What a strong majority commits

A node votes for the value of its last tuple with a key and a timestamp. Whatever the iteration orders,
`strong_simple_majority_of_strings` commits a value exactly when more than half of the nodes vote for it
(`mem_strongCommits`), and each key and timestamp at most once (`loopCommits_nodup`), so that equal stores
stay equal (`strong_store_congr`).
-/

namespace Achal

open Voting

variable {P : Params} {β : Type*}

/-! ## The vote of a node -/

/-- The value of the last tuple with this key and timestamp. -/
def EigNode.vote (n : EigNode P) (key : Str) (time : Uint64) : Option Str :=
  ((n.proposals.filter fun w => w.key = key ∧ w.time = time).getLast?).map Ktv.value

/-- The number of nodes that vote for a value. -/
def supporters (nodes : List (EigNode P)) (w : Ktv) : ℕ :=
  nodes.countP fun n => n.vote w.key w.time = some w.value

/-- `map[key][time]`, without creating it. -/
def Votes.nodesOf (m : Votes β) (key : Str) (time : Uint64) : UMap ℕ β :=
  ((m.lookup key).bind fun times => times.lookup time).getD ∅

theorem Votes.nodesOf_record (m : Votes β) (i : ℕ) (key : Str) (time : Uint64) (value : β) (key' : Str)
    (time' : Uint64) :
    (m.record i key time value).nodesOf key' time'
      = if key = key' ∧ time = time' then (m.nodesOf key' time').upsert i fun _ => value
        else m.nodesOf key' time' := by
  unfold nodesOf record
  rw [UMap.lookup_upsert]
  by_cases hkey : key = key'
  · rw [if_pos hkey, Option.bind_some, UMap.lookup_upsert]
    have hnone : ((m.lookup key').getD ∅).lookup time'
        = (m.lookup key').bind fun times => times.lookup time' := by
      cases m.lookup key' with
      | none => exact AList.lookup_empty _
      | some times => rfl
    by_cases htime : time = time'
    · rw [if_pos htime, if_pos ⟨hkey, htime⟩, Option.getD_some, hnone]
    · rw [if_neg htime, if_neg (fun h => htime h.2), hnone]
  · rw [if_neg hkey, if_neg (fun h => hkey h.1)]

/-- `map[key][time][i] = value` for one tuple after the other. -/
def Votes.recordAll (bs : List ((ℕ × Ktv) × β)) : Votes β :=
  bs.foldl (fun m b => m.record b.1.1 b.1.2.key b.1.2.time b.2) ∅

theorem Votes.nodesOf_foldl (bs : List ((ℕ × Ktv) × β)) (m : Votes β) (key : Str) (time : Uint64) :
    (bs.foldl (fun m b => m.record b.1.1 b.1.2.key b.1.2.time b.2) m).nodesOf key time
      = (bs.filter fun b => b.1.2.key = key ∧ b.1.2.time = time).foldl
          (fun nodes b => nodes.upsert b.1.1 fun _ => b.2) (m.nodesOf key time) := by
  induction bs generalizing m with
  | nil => rfl
  | cons b bs ih =>
    rw [List.foldl_cons, ih, nodesOf_record]
    by_cases h : b.1.2.key = key ∧ b.1.2.time = time
    · rw [if_pos h, List.filter_cons_of_pos (by simpa using h), List.foldl_cons]
    · rw [if_neg h, List.filter_cons_of_neg (by simpa using h)]

/-- A node has the value of its last tuple with this key and timestamp. -/
theorem Votes.lookup_recordAll (bs : List ((ℕ × Ktv) × β)) (key : Str) (time : Uint64) (i : ℕ) :
    ((recordAll bs).nodesOf key time).lookup i
      = (((bs.filter (·.1.1 = i)).filter fun b => b.1.2.key = key ∧ b.1.2.time = time).getLast?).map
          Prod.snd := by
  rw [recordAll, nodesOf_foldl]
  have hlast := UMap.lookup_foldl_last (fun b : (ℕ × Ktv) × β => b.1.1) Prod.snd
    (bs.filter fun b => b.1.2.key = key ∧ b.1.2.time = time) ((∅ : Votes β).nodesOf key time) i
  rw [hlast, show ((∅ : Votes β).nodesOf key time).lookup i = none from AList.lookup_empty i,
    Option.or_none, List.filter_comm]

theorem Votes.isSome_lookup_record (m : Votes β) (i : ℕ) (key : Str) (time : Uint64) (value : β)
    (key' : Str) :
    ((m.record i key time value).lookup key').isSome ↔ key = key' ∨ (m.lookup key').isSome := by
  rw [record, UMap.lookup_upsert]
  by_cases h : key = key'
  · simp [h]
  · simp [h]

/-- The nested map has the keys of the tuples recorded in it. -/
theorem Votes.isSome_lookup_recordAll (bs : List ((ℕ × Ktv) × β)) (key : Str) :
    ((recordAll bs).lookup key).isSome ↔ ∃ b ∈ bs, b.1.2.key = key := by
  have hfold : ∀ m : Votes β,
      ((bs.foldl (fun m b => m.record b.1.1 b.1.2.key b.1.2.time b.2) m).lookup key).isSome
        ↔ (∃ b ∈ bs, b.1.2.key = key) ∨ (m.lookup key).isSome := by
    induction bs with
    | nil => simp
    | cons b bs ih =>
      intro m
      rw [List.foldl_cons, ih, isSome_lookup_record, List.exists_mem_cons_iff, or_left_comm, or_assoc]
  rw [recordAll, hfold, AList.lookup_empty]
  simp

/-- Every tuple of a node is visited. -/
theorem mem_ballots {nodes : List (EigNode P)} {w : Ktv} :
    (∃ b ∈ ballots nodes, b.2 = w) ↔ ∃ n ∈ nodes, w ∈ n.proposals := by
  simp only [ballots, List.mem_flatMap, List.mem_map]
  constructor
  · rintro ⟨-, ⟨x, hx, w, hw, rfl⟩, rfl⟩
    exact ⟨x.1, List.fst_mem_of_mem_zipIdx hx, hw⟩
  · rintro ⟨n, hn, hw⟩
    obtain ⟨i, hi, rfl⟩ := List.mem_iff_getElem.mp hn
    have hx : (nodes[i], i) ∈ nodes.zipIdx :=
      List.mk_mem_zipIdx_iff_getElem?.mpr (List.getElem?_eq_getElem hi)
    exact ⟨(i, w), ⟨(nodes[i], i), hx, w, hw, rfl⟩, rfl⟩

/-- The ballots of one node. -/
theorem ballots_filter (nodes : List (EigNode P)) (i : ℕ) :
    (ballots nodes).filter (·.1 = i)
      = (((nodes[i]?).map EigNode.proposals).getD []).map fun w => (i, w) := by
  have hshift : ∀ k, ((nodes.zipIdx k).flatMap fun x => x.1.proposals.map fun w => (x.2, w)).filter
        (·.1 = i)
      = if k ≤ i then (((nodes[i - k]?).map EigNode.proposals).getD []).map fun w => (i, w) else [] := by
    induction nodes with
    | nil => simp
    | cons n nodes ih =>
      intro k
      rw [List.zipIdx_cons, List.flatMap_cons, List.filter_append, ih, List.filter_map]
      rcases Nat.lt_trichotomy k i with hlt | rfl | hgt
      · rw [if_pos hlt.le, if_pos (by omega), List.filter_eq_nil_iff.mpr (fun w _ => by simp; omega),
          show i - k = (i - (k + 1)) + 1 by omega, List.getElem?_cons_succ]
        rfl
      · rw [if_pos le_rfl, if_neg (by omega), Nat.sub_self, List.append_nil,
          List.filter_eq_self.mpr (fun w _ => by simp)]
        rfl
      · rw [if_neg (by omega), if_neg (by omega), List.filter_eq_nil_iff.mpr (fun w _ => by simp; omega)]
        rfl
  have h := hshift 0
  rwa [if_pos (Nat.zero_le i), Nat.sub_zero] at h

theorem ktnv_eq_recordAll (nodes : List (EigNode P)) :
    ktnv nodes = Votes.recordAll ((ballots nodes).map fun b => (b, b.2.value)) := by
  rw [ktnv, Votes.recordAll, List.foldl_map]

/-- `ktnv[key][time][i]` is the vote of node `i`. -/
theorem lookup_ktnv (nodes : List (EigNode P)) (key : Str) (time : Uint64) (i : ℕ) :
    ((ktnv nodes).nodesOf key time).lookup i = (nodes[i]?).bind fun n => n.vote key time := by
  rw [ktnv_eq_recordAll, Votes.lookup_recordAll, List.filter_map,
    show (fun b : (ℕ × Ktv) × Str => decide (b.1.1 = i)) ∘ (fun b : ℕ × Ktv => (b, b.2.value))
      = fun b => decide (b.1 = i) from rfl, ballots_filter]
  cases nodes[i]? with
  | none => rfl
  | some n =>
    rw [Option.map_some, Option.getD_some, Option.bind_some, EigNode.vote, List.map_map, List.filter_map,
      List.getLast?_map, Option.map_map]
    rfl

/-- The votes of a key and timestamp, in any order. -/
theorem visit_ktnv_perm (nodes : List (EigNode P)) (o : IterOrder ℕ Str) (key : Str) (time : Uint64) :
    ((o.visit ((ktnv nodes).nodesOf key time)).map Sigma.snd).Perm
      (nodes.filterMap fun n => n.vote key time) := o.visit_perm_filterMap (lookup_ktnv nodes key time)

/-- Counting them counts the supporters. -/
theorem count_ktnv (nodes : List (EigNode P)) (o : IterOrder ℕ Str) (w : Ktv) :
    ((o.visit ((ktnv nodes).nodesOf w.key w.time)).map Sigma.snd).countP (· = w.value)
      = supporters nodes w := by
  rw [(visit_ktnv_perm nodes o w.key w.time).countP_eq, List.countP_filterMap, supporters]
  refine List.countP_congr fun n _ => ?_
  cases n.vote w.key w.time <;> simp

theorem length_votes_le (nodes : List (EigNode P)) (o : IterOrder ℕ Str) (key : Str) (time : Uint64) :
    (o.visit ((ktnv nodes).nodesOf key time)).length ≤ nodes.length := by
  have hlen := (visit_ktnv_perm nodes o key time).length_eq
  rw [List.length_map] at hlen
  exact hlen ▸ List.length_filterMap_le _ nodes

/-! ## The majority -/

/-- More than half of the nodes decide, and the order of `freq` does not matter. -/
theorem majority_eq_some {n : ℕ} (o : IterOrder Str ℕ) {values : List Str} (hlen : values.length ≤ n)
    {value : Str} : majority n o values = some value ↔ n < 2 * values.countP (· = value) := by
  have hfreq : ∀ e : Σ _ : Str, ℕ, e ∈ o.visit (values.foldl
      (fun (m : UMap Str ℕ) v => m.upsert v fun o => o.getD 0 + 1) ∅)
        ↔ e.2 = values.countP (· = e.1) ∧ 0 < e.2 := by
    intro e
    have hlookup := UMap.lookup_foldl_count id values e.1
    simp only [id_eq] at hlookup
    rw [o.mem_visit, hlookup]
    split
    · simp only [reduceCtorEq, false_iff, not_and]
      omega
    · rw [Option.some.injEq]
      exact ⟨fun h => ⟨h.symm, by omega⟩, fun h => h.1.symm⟩
  have huniq : ∀ v v', n < 2 * values.countP (· = v) → n < 2 * values.countP (· = v') → v = v' := by
    intro v v' hv hv'
    have hgroup : ∀ w, n < 2 * values.countP (· = w) → n / 2 < groupSize id w values := by
      intro w hw
      show n / 2 < values.countP (· = w)
      omega
    exact group_unique (by omega) (hgroup v hv) (hgroup v' hv')
  rw [majority, Option.map_eq_some_iff]
  constructor
  · rintro ⟨e, he, rfl⟩
    have hbig : n < 2 * e.2 := by simpa using List.find?_some he
    rwa [((hfreq e).mp (List.mem_of_find?_eq_some he)).1] at hbig
  · intro hbig
    have hsome : ((o.visit (values.foldl
        (fun (m : UMap Str ℕ) v => m.upsert v fun o => o.getD 0 + 1) ∅)).find?
          fun p4 => n < 2 * p4.2).isSome := by
      rw [List.find?_isSome]
      exact ⟨⟨value, values.countP (· = value)⟩,
        (hfreq _).mpr ⟨rfl, show 0 < values.countP (· = value) by omega⟩, by simpa using hbig⟩
    obtain ⟨e, he⟩ := Option.isSome_iff_exists.mp hsome
    have hbig' : n < 2 * e.2 := by simpa using List.find?_some he
    rw [((hfreq e).mp (List.mem_of_find?_eq_some he)).1] at hbig'
    exact ⟨e, he, huniq _ _ hbig' hbig⟩

/-! ## What is committed -/

namespace Ledger

theorem mem_loopCommits {o : FuseOrder β} {elect : Str → Uint64 → UMap ℕ β → Option Str} {m : Votes β}
    {w : Ktv} : w ∈ loopCommits o elect m ↔ ∃ times, m.lookup w.key = some times ∧
      ∃ nodes, times.lookup w.time = some nodes ∧ elect w.key w.time nodes = some w.value := by
  simp only [loopCommits, timesCommits, List.mem_flatMap, Option.mem_toList, Option.map_eq_some_iff]
  constructor
  · rintro ⟨p1, h1, p2, h2, value, hv, rfl⟩
    exact ⟨p1.2, o.keys.mem_visit.mp h1, p2.2, (o.times p1.1).mem_visit.mp h2, hv⟩
  · rintro ⟨times, h1, nodes, h2, hv⟩
    exact ⟨⟨w.key, times⟩, o.keys.mem_visit.mpr h1, ⟨w.time, nodes⟩, (o.times w.key).mem_visit.mpr h2,
      w.value, hv, rfl⟩

/-- No timestamp of a key is committed twice in one call. -/
theorem loopCommits_nodup (o : FuseOrder β) (elect : Str → Uint64 → UMap ℕ β → Option Str)
    (m : Votes β) : ((loopCommits o elect m).map fun w => (w.key, w.time)).Nodup := by
  rw [loopCommits, List.map_flatMap, List.nodup_flatMap]
  constructor
  · intro p1 _
    rw [timesCommits, List.map_flatMap, List.nodup_flatMap]
    constructor
    · intro p2 _
      cases elect p1.1 p2.1 p2.2 <;> simp
    · refine (List.pairwise_map.mp ((o.times p1.1).visit_keys_nodup p1.2)).imp fun hne => ?_
      rw [Function.onFun, List.disjoint_left]
      intro kt hkt hkt'
      simp only [List.mem_map, Option.mem_toList, Option.map_eq_some_iff] at hkt hkt'
      obtain ⟨_, ⟨_, _, rfl⟩, rfl⟩ := hkt
      obtain ⟨_, ⟨_, _, rfl⟩, heq⟩ := hkt'
      exact hne (Prod.ext_iff.mp heq).2.symm
  · refine (List.pairwise_map.mp (o.keys.visit_keys_nodup m)).imp fun hne => ?_
    rw [Function.onFun, List.disjoint_left]
    intro kt hkt hkt'
    simp only [timesCommits, List.mem_map, List.mem_flatMap, Option.mem_toList,
      Option.map_eq_some_iff] at hkt hkt'
    obtain ⟨_, ⟨_, _, _, _, rfl⟩, rfl⟩ := hkt
    obtain ⟨_, ⟨_, _, _, _, rfl⟩, heq⟩ := hkt'
    exact hne (Prod.ext_iff.mp heq).1.symm

/-- Then the commits of one key have distinct timestamps. -/
theorem commitsOf_nodup {cs : List Ktv} (hnodup : (cs.map fun w => (w.key, w.time)).Nodup) (key : Str) :
    ((commitsOf cs key).map Prod.fst).Nodup := by
  rw [commitsOf, List.map_map, List.Nodup, List.pairwise_map]
  refine List.Pairwise.imp_of_mem ?_ ((List.pairwise_map.mp hnodup).filter _)
  intro w w' hw hw' hne heq
  have hkey : w.key = key := by simpa using (List.mem_filter.mp hw).2
  have hkey' : w'.key = key := by simpa using (List.mem_filter.mp hw').2
  exact hne (Prod.ext (hkey.trans hkey'.symm) heq)

/-- The same commits in another order, no timestamp twice, leave the same bucket. -/
theorem putAll_commitsOf_congr {cs cs' : List Ktv} (hnodup : (cs.map fun w => (w.key, w.time)).Nodup)
    (hnodup' : (cs'.map fun w => (w.key, w.time)).Nodup) (hmem : ∀ w, w ∈ cs ↔ w ∈ cs') (b : Bucket)
    (key : Str) : b.putAll (commitsOf cs key) = b.putAll (commitsOf cs' key) := by
  have hperm : cs.Perm cs' := (List.perm_ext_iff_of_nodup hnodup.of_map hnodup'.of_map).mpr hmem
  exact TopMap.putAll_perm b ((hperm.filter _).map _) (commitsOf_nodup hnodup key)

end Ledger

/-! ## Strong simple majority -/

/-- The decision of `strong_simple_majority_of_strings` on one key and timestamp. -/
def strongDecide (o : FuseOrder Str) (freqOrder : Str → Uint64 → IterOrder Str ℕ)
    (nodes : List (EigNode P)) (key : Str) (time : Uint64) (votes : UMap ℕ Str) : Option Str :=
  majority nodes.length (freqOrder key time) (((o.nodes key time).visit votes).map Sigma.snd)

/-- What `strong_simple_majority_of_strings` commits. -/
def strongCommits (o : FuseOrder Str) (freqOrder : Str → Uint64 → IterOrder Str ℕ)
    (nodes : List (EigNode P)) : List Ktv :=
  Ledger.loopCommits o (strongDecide o freqOrder nodes) (ktnv nodes)

theorem extends_strong (o : FuseOrder Str) (freqOrder : Str → Uint64 → IterOrder Str ℕ)
    (nodes : List (EigNode P)) (s : Ledger) :
    s.Extends (strongSimpleMajorityOfStrings o freqOrder nodes s)
      ((o.keys.visit (ktnv nodes)).map Sigma.fst) (strongCommits o freqOrder nodes) :=
  s.extends_commitLoop o (strongDecide o freqOrder nodes) (ktnv nodes)

/-- **The commits of a strong majority**: what more than half of the nodes vote for. -/
theorem mem_strongCommits {o : FuseOrder Str} {freqOrder : Str → Uint64 → IterOrder Str ℕ}
    {nodes : List (EigNode P)} {w : Ktv} :
    w ∈ strongCommits o freqOrder nodes ↔ nodes.length < 2 * supporters nodes w := by
  rw [strongCommits, Ledger.mem_loopCommits]
  have hdecide : strongDecide o freqOrder nodes w.key w.time ((ktnv nodes).nodesOf w.key w.time)
      = some w.value ↔ nodes.length < 2 * supporters nodes w := by
    rw [strongDecide, majority_eq_some _ (by
      rw [List.length_map]
      exact length_votes_le nodes _ _ _), count_ktnv]
  rw [← hdecide]
  constructor
  · rintro ⟨times, htimes, votes, hvotes, hv⟩
    rwa [Votes.nodesOf, htimes, Option.bind_some, hvotes, Option.getD_some]
  · intro hv
    -- a vote without an entry would have no supporters
    cases hlookup : ((ktnv nodes).lookup w.key).bind fun times => times.lookup w.time with
    | none =>
      have hpos := hdecide.mp hv
      rw [← count_ktnv nodes (o.nodes w.key w.time), Votes.nodesOf, hlookup] at hpos
      have hempty : ((o.nodes w.key w.time).visit ((none : Option (UMap ℕ Str)).getD ∅)) = [] :=
        ((o.nodes w.key w.time).perm _).eq_nil
      rw [hempty] at hpos
      exact absurd hpos (by simp)
    | some votes =>
      obtain ⟨times, htimes, hvotes⟩ := Option.bind_eq_some_iff.mp hlookup
      rw [Votes.nodesOf, hlookup, Option.getD_some] at hv
      exact ⟨times, htimes, votes, hvotes, hv⟩

/-- Equal stores stay equal, whatever the iteration orders. -/
theorem strong_store_congr {o₁ o₂ : FuseOrder Str} {f₁ f₂ : Str → Uint64 → IterOrder Str ℕ}
    (nodes : List (EigNode P)) {s₁ s₂ : Ledger} (h : s₁.store = s₂.store) :
    (strongSimpleMajorityOfStrings o₁ f₁ nodes s₁).store
      = (strongSimpleMajorityOfStrings o₂ f₂ nodes s₂).store := by
  refine (extends_strong o₁ f₁ nodes s₁).store_eq (extends_strong o₂ f₂ nodes s₂) h (fun key => ?_)
    fun b key => ?_
  · rw [o₁.keys.mem_visit_keys, o₂.keys.mem_visit_keys]
  · exact Ledger.putAll_commitsOf_congr (Ledger.loopCommits_nodup _ _ _)
      (Ledger.loopCommits_nodup _ _ _)
      (fun w => by rw [← strongCommits, ← strongCommits, mem_strongCommits, mem_strongCommits]) b key

/-- The same root committed to equal stores. -/
theorem commitRoot_store_congr (result : EigNode P) {s₁ s₂ : Ledger} (h : s₁.store = s₂.store) :
    (commitRoot result s₁).store = (commitRoot result s₂).store :=
  (s₁.extends_commitRoot result).store_eq (s₂.extends_commitRoot result) h (fun _ => Iff.rfl)
    fun _ _ => rfl

/-! ## The sizes of stored values -/

/-- A consistent store whose values fit into tuples. -/
structure Ledger.Bounded (P : Params) (s : Ledger) : Prop where
  consistent : s.Consistent
  value_le : ∀ w ∈ s.commits, w.value.length ≤ P.VS

theorem Ledger.bounded_empty : Ledger.empty.Bounded P := ⟨consistent_empty, nofun⟩

/-- Further commits of such values keep it one. -/
theorem Ledger.Bounded.extends {s s' : Ledger} {ks : List Str} {cs : List Ktv} (h : s.Bounded P)
    (hext : s.Extends s' ks cs) (hcs : ∀ w ∈ cs, w.value.length ≤ P.VS) : s'.Bounded P := by
  refine ⟨h.consistent.of_extends hext, fun w hw => ?_⟩
  rw [hext.commits] at hw
  exact (List.mem_append.mp hw).elim (h.value_le w) (hcs w)

theorem Ledger.Bounded.length_get?_le {s : Ledger} (h : s.Bounded P) {key : Str} {time : Uint64}
    {value : Str} (hget : (s.store.bucket key).get? time = some value) : value.length ≤ P.VS := by
  rw [h.consistent.get?_bucket] at hget
  split at hget
  · obtain ⟨w, hlast, rfl⟩ := Option.map_eq_some_iff.mp hget
    exact h.value_le w (List.mem_filter.mp (List.mem_of_getLast? hlast)).1
  · cases hget

/-- What is read from the store can be written back. -/
theorem Ledger.Bounded.length_tryRead_le {s : Ledger} (h : s.Bounded P) {key : Str}
    {noEarlierThan now : Uint64} {value : Str} (hread : s.store.tryRead key noEarlierThan now = some value) :
    value.length ≤ P.VS := by
  obtain ⟨time, hget, -⟩ := Store.tryRead_eq_some.mp hread
  exact h.length_get?_le hget

/-- The values that a strong majority commits were proposed. -/
theorem Ledger.Bounded.strong {s : Ledger} (h : s.Bounded P) (o : FuseOrder Str)
    (freqOrder : Str → Uint64 → IterOrder Str ℕ) (nodes : List (EigNode P)) :
    (strongSimpleMajorityOfStrings o freqOrder nodes s).Bounded P := by
  refine h.extends (extends_strong o freqOrder nodes s) fun w hw => ?_
  have hsupport : 0 < supporters nodes w := by
    have := mem_strongCommits.mp hw
    omega
  obtain ⟨n, -, hvote⟩ := List.countP_pos_iff.mp hsupport
  obtain ⟨v, hlast, hvalue⟩ := Option.map_eq_some_iff.mp (of_decide_eq_true hvote)
  rw [← hvalue]
  exact EigNode.length_value_le (List.mem_filter.mp (List.mem_of_getLast? hlast)).1

end Achal
