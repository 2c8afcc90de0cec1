import Inconcretes.BftKvs.Majority
import Inconcretes.Lib.OrderStatistics
import Mathlib.Algebra.Order.Field.Basic

/-!
# What a median commits

`median_of_doubles` ignores the strings that are no numbers and lets the exception for numbers out of range
pass (`medianOfDoubles_isOk_iff`). Of the others it commits the median as soon as three nodes propose a
number for a key and a timestamp, however many nodes there are. The median lies between numbers of correct
nodes when fewer than half of the proposing nodes are faulty (`medianOfDoubles_between`). Three proposals
guarantee that for one faulty node, and for no more (`robustMedian_iff`).
-/

namespace Achal

open OrderStatistics

variable {P : Params} (F : Doubles)

/-! ## Collecting the numbers -/

theorem toOption_eq_some {ε α : Type*} {r : Except ε α} {x : α} : r.toOption = some x ↔ r = .ok x := by
  cases r <;> simp [Except.toOption]

/-- The tuples whose values are numbers, with the numbers. -/
def Doubles.numbers (bs : List (ℕ × Ktv)) : List ((ℕ × Ktv) × F.Double) :=
  bs.filterMap fun b => (F.stod b.2.value).toOption.map fun x => (b, x)

variable {F}

theorem Doubles.mem_numbers {bs : List (ℕ × Ktv)} {b : ℕ × Ktv} {x : F.Double} :
    (b, x) ∈ F.numbers bs ↔ b ∈ bs ∧ F.stod b.2.value = .ok x := by
  rw [numbers, List.mem_filterMap]
  constructor
  · rintro ⟨c, hc, hx⟩
    obtain ⟨y, hy, heq⟩ := Option.map_eq_some_iff.mp hx
    obtain ⟨rfl, rfl⟩ := Prod.mk.inj heq
    exact ⟨hc, toOption_eq_some.mp hy⟩
  · rintro ⟨hb, hx⟩
    exact ⟨b, hb, by rw [toOption_eq_some.mpr hx]; rfl⟩

theorem Doubles.foldlM_record_ok {bs : List (ℕ × Ktv)}
    (h : ∀ b ∈ bs, F.stod b.2.value ≠ .error .outOfRange) (m : Votes F.Double) :
    bs.foldlM F.record m
      = .ok ((F.numbers bs).foldl (fun m b => m.record b.1.1 b.1.2.key b.1.2.time b.2) m) := by
  induction bs generalizing m with
  | nil => rfl
  | cons b bs ih =>
    obtain ⟨hb, hbs⟩ := List.forall_mem_cons.mp h
    rw [List.foldlM_cons, record, numbers, List.filterMap_cons]
    cases hstod : F.stod b.2.value with
    | ok x => exact ih hbs _
    | error e =>
      cases e with
      | invalidArgument => exact ih hbs m
      | outOfRange => exact absurd hstod hb

theorem Doubles.foldlM_record_error {bs : List (ℕ × Ktv)}
    (h : ∃ b ∈ bs, F.stod b.2.value = .error .outOfRange) (m : Votes F.Double) :
    bs.foldlM F.record m = .error .outOfRange := by
  induction bs generalizing m with
  | nil =>
    obtain ⟨b, hb, -⟩ := h
    exact absurd hb List.not_mem_nil
  | cons b bs ih =>
    have hrest : F.stod b.2.value ≠ .error .outOfRange → ∃ c ∈ bs, F.stod c.2.value = .error .outOfRange := by
      intro hne
      obtain ⟨c, hc, hrange⟩ := h
      rcases List.mem_cons.mp hc with rfl | hc
      · exact absurd hrange hne
      · exact ⟨c, hc, hrange⟩
    rw [List.foldlM_cons, record]
    cases hstod : F.stod b.2.value with
    | ok x => exact ih (hrest (hstod ▸ nofun)) _
    | error e =>
      cases e with
      | invalidArgument => exact ih (hrest (hstod ▸ nofun)) _
      | outOfRange => rfl

/-- What `median_of_doubles` commits when it returns. -/
def medianCommits (F : Doubles) (o : FuseOrder F.Double) (nodes : List (EigNode P)) : List Ktv :=
  Ledger.loopCommits o
    (fun key time votes => F.median (((o.nodes key time).visit votes).map Sigma.snd))
    (Votes.recordAll (F.numbers (ballots nodes)))

/-- **When the median returns.** Exactly when no tuple of a node with an admissible length holds a number
out of range. -/
theorem medianOfDoubles_isOk_iff (o : FuseOrder F.Double) (nodes : List (EigNode P)) (s : Ledger) :
    (medianOfDoubles F o nodes s).isOk = true
      ↔ ∀ n ∈ nodes, ∀ w ∈ n.proposals, F.stod w.value ≠ .error .outOfRange := by
  have hballots : (∀ b ∈ ballots nodes, F.stod b.2.value ≠ .error .outOfRange)
      ↔ ∀ n ∈ nodes, ∀ w ∈ n.proposals, F.stod w.value ≠ .error .outOfRange := by
    constructor
    · intro h n hn w hw
      obtain ⟨b, hb, rfl⟩ := mem_ballots.mpr ⟨n, hn, hw⟩
      exact h b hb
    · intro h b hb
      obtain ⟨n, hn, hw⟩ := mem_ballots.mp ⟨b, hb, rfl⟩
      exact h n hn b.2 hw
  rw [← hballots, medianOfDoubles]
  constructor
  · intro hok b hb hrange
    rw [Doubles.foldlM_record_error ⟨b, hb, hrange⟩] at hok
    exact absurd hok nofun
  · intro h
    rw [Doubles.foldlM_record_ok h]
    rfl

theorem extends_medianOfDoubles {o : FuseOrder F.Double} {nodes : List (EigNode P)} {s s' : Ledger}
    (hrun : medianOfDoubles F o nodes s = .ok s') :
    s.Extends s' ((o.keys.visit (Votes.recordAll (F.numbers (ballots nodes)))).map Sigma.fst)
      (medianCommits F o nodes) := by
  by_cases hrange : ∀ b ∈ ballots nodes, F.stod b.2.value ≠ .error .outOfRange
  · rw [medianOfDoubles, Doubles.foldlM_record_ok hrange] at hrun
    obtain rfl := Except.ok.inj hrun
    exact s.extends_commitLoop _ _ _
  · have hexists : ∃ b ∈ ballots nodes, F.stod b.2.value = .error .outOfRange := by
      simpa using hrange
    rw [medianOfDoubles, Doubles.foldlM_record_error hexists] at hrun
    exact absurd hrun nofun

theorem extends_median {o : FuseOrder F.Double} {nodes : List (EigNode P)} {s s' : Ledger}
    (hrun : medianOfDoubles F o nodes s = .ok s') :
    s'.commits = s.commits ++ medianCommits F o nodes := (extends_medianOfDoubles hrun).commits

/-! ## The proposals behind a commit -/

/-- Node `i` proposes the number `x` for a key and a timestamp. -/
def Doubles.Proposes (F : Doubles) (nodes : List (EigNode P)) (i : ℕ) (key : Str) (time : Uint64)
    (x : F.Double) : Prop :=
  ∃ n, nodes[i]? = some n ∧ ∃ w ∈ n.proposals, w.key = key ∧ w.time = time ∧ F.stod w.value = .ok x

/-- The number of node `i` in `map[key][time]`. -/
def Doubles.numbersOf (F : Doubles) (nodes : List (EigNode P)) (key : Str) (time : Uint64) :
    UMap ℕ F.Double :=
  (Votes.recordAll (F.numbers (ballots nodes))).nodesOf key time

theorem Doubles.proposes_of_lookup {nodes : List (EigNode P)} {key : Str} {time : Uint64} {i : ℕ}
    {x : F.Double} (h : (F.numbersOf nodes key time).lookup i = some x) :
    F.Proposes nodes i key time x := by
  rw [numbersOf, Votes.lookup_recordAll] at h
  obtain ⟨⟨⟨j, w⟩, y⟩, hlast, rfl⟩ := Option.map_eq_some_iff.mp h
  obtain ⟨hmem, hkt⟩ := List.mem_filter.mp (List.mem_of_getLast? hlast)
  obtain ⟨hmem, hj⟩ := List.mem_filter.mp hmem
  obtain ⟨hballot, hstod⟩ := mem_numbers.mp hmem
  obtain rfl : j = i := by simpa using hj
  obtain ⟨hkey, htime⟩ : w.key = key ∧ w.time = time := by simpa using hkt
  have hnode : (j, w) ∈ (ballots nodes).filter (·.1 = j) := List.mem_filter.mpr ⟨hballot, by simp⟩
  rw [ballots_filter, List.mem_map] at hnode
  obtain ⟨w', hw', heq⟩ := hnode
  obtain ⟨-, rfl⟩ := Prod.mk.inj heq
  cases hn : nodes[j]? with
  | none =>
    rw [hn] at hw'
    exact absurd hw' List.not_mem_nil
  | some n =>
    rw [hn] at hw'
    exact ⟨n, hn, w', hw', hkey, htime, hstod⟩

/-- A commit is the median of the numbers that the nodes have for its key and timestamp. -/
theorem mem_medianCommits {o : FuseOrder F.Double} {nodes : List (EigNode P)} {w : Ktv} :
    w ∈ medianCommits F o nodes
      ↔ F.median (((o.nodes w.key w.time).visit (F.numbersOf nodes w.key w.time)).map Sigma.snd)
        = some w.value := by
  rw [medianCommits, Ledger.mem_loopCommits]
  constructor
  · rintro ⟨times, htimes, votes, hvotes, hv⟩
    rwa [Doubles.numbersOf, Votes.nodesOf, htimes, Option.bind_some, hvotes, Option.getD_some]
  · intro hv
    cases hlookup : ((Votes.recordAll (F.numbers (ballots nodes))).lookup w.key).bind
        fun times => times.lookup w.time with
    | none =>
      -- no proposal, no median
      rw [Doubles.numbersOf, Votes.nodesOf, hlookup] at hv
      have hempty : (o.nodes w.key w.time).visit ((none : Option (UMap ℕ F.Double)).getD ∅) = [] :=
        ((o.nodes w.key w.time).perm _).eq_nil
      rw [hempty] at hv
      cases hv
    | some votes =>
      obtain ⟨times, htimes, hvotes⟩ := Option.bind_eq_some_iff.mp hlookup
      rw [Doubles.numbersOf, Votes.nodesOf, hlookup, Option.getD_some] at hv
      exact ⟨times, htimes, votes, hvotes, hv⟩

/-- The last number of a node for a key and a timestamp. -/
def Doubles.vote (F : Doubles) (n : EigNode P) (key : Str) (time : Uint64) : Option F.Double :=
  (n.proposals.filterMap fun w =>
    if w.key = key ∧ w.time = time then (F.stod w.value).toOption else none).getLast?

/-- The numbers of all nodes that have one. -/
def Doubles.votes (F : Doubles) (nodes : List (EigNode P)) (key : Str) (time : Uint64) : List F.Double :=
  nodes.filterMap fun n => F.vote n key time

theorem Doubles.mem_votes {nodes : List (EigNode P)} {key : Str} {time : Uint64} {x : F.Double}
    (h : x ∈ F.votes nodes key time) : ∃ n ∈ nodes, ∃ w ∈ n.proposals, F.stod w.value = .ok x := by
  obtain ⟨n, hn, hvote⟩ := List.mem_filterMap.mp h
  obtain ⟨w, hw, hx⟩ := List.mem_filterMap.mp (List.mem_of_getLast? hvote)
  split at hx
  · exact ⟨n, hn, w, hw, toOption_eq_some.mp hx⟩
  · cases hx

/-- `map[key][time][i]` is the number of node `i`. -/
theorem Doubles.lookup_numbersOf (nodes : List (EigNode P)) (key : Str) (time : Uint64) (i : ℕ) :
    (F.numbersOf nodes key time).lookup i = (nodes[i]?).bind fun n => F.vote n key time := by
  have hnode : (F.numbers (ballots nodes)).filter (·.1.1 = i)
      = F.numbers ((ballots nodes).filter (·.1 = i)) := by
    rw [numbers, numbers, List.filter_filterMap, List.filterMap_filter]
    refine List.filterMap_congr fun b _ => ?_
    cases (F.stod b.2.value).toOption with
    | none => simp
    | some x => by_cases hb : b.1 = i <;> simp [hb]
  rw [numbersOf, Votes.lookup_recordAll, hnode, ballots_filter]
  cases nodes[i]? with
  | none => rfl
  | some n =>
    rw [Option.map_some, Option.getD_some, Option.bind_some, vote, numbers, List.filterMap_map,
      List.filter_filterMap, ← List.getLast?_map, List.map_filterMap]
    congr 1
    refine List.filterMap_congr fun w _ => ?_
    rw [Function.comp_apply]
    cases (F.stod w.value).toOption with
    | none => simp
    | some x => by_cases hw : w.key = key ∧ w.time = time <;> simp [Option.filter, hw]

/-- The numbers of a key and timestamp, in any order. -/
theorem Doubles.visit_numbersOf_perm (nodes : List (EigNode P)) (o : IterOrder ℕ F.Double) (key : Str)
    (time : Uint64) :
    ((o.visit (F.numbersOf nodes key time)).map Sigma.snd).Perm (F.votes nodes key time) :=
  o.visit_perm_filterMap (lookup_numbersOf nodes key time)

theorem Doubles.length_numbersOf (nodes : List (EigNode P)) (key : Str) (time : Uint64) :
    (F.numbersOf nodes key time).keys.length = (F.votes nodes key time).length := by
  rw [← (F.visit_numbersOf_perm nodes (IterOrder.newestFirst _ _) key time).length_eq, AList.keys, List.keys,
    List.length_map, List.length_map]
  rfl

/-- A timestamp of a key gets a value when three nodes have a number for it. -/
theorem exists_mem_medianCommits_iff {o : FuseOrder F.Double} {nodes : List (EigNode P)} {key : Str}
    {time : Uint64} :
    (∃ value, ⟨key, time, value⟩ ∈ medianCommits F o nodes) ↔ 3 ≤ (F.votes nodes key time).length := by
  simp only [mem_medianCommits]
  rw [← (F.visit_numbersOf_perm nodes (o.nodes key time) key time).length_eq]
  unfold Doubles.median
  split
  · rename_i h
    simp only [reduceCtorEq, exists_false, false_iff, not_le]
    exact h
  · rename_i h
    exact ⟨fun _ => not_lt.mp h, fun _ => ⟨_, rfl⟩⟩

/-! ## Ordered numbers -/

/-- What the median relies on: `<=` is transitive, `std::sort` sorts numbers that are comparable with themselves
(all but nan), and `(a + b) / 2` lies between `a` and `b` unless the sum is not finite, in which case its text is
no longer than that of one of them. -/
structure Doubles.Ordered (F : Doubles) where
  le : F.Double → F.Double → Bool
  le_trans : ∀ a b c, le a b = true → le b c = true → le a c = true
  sort_sorted : ∀ xs, (∀ x ∈ xs, le x x = true) → (F.sort xs).Pairwise fun a b => le a b = true
  middle_between : ∀ a b, le b a = true → le b (F.middle a b) = true ∧ le (F.middle a b) a = true
    ∨ (F.toStr (F.middle a b)).length ≤ max (F.toStr a).length (F.toStr b).length

/-- Rationals are ordered. -/
def Doubles.orderedExact (stod : Str → Except StodError ℚ) (toStr : ℚ → Str) :
    (Doubles.exact stod toStr).Ordered where
  le a b := decide ((a : ℚ) ≤ b)
  le_trans a b c hab hbc := decide_eq_true ((of_decide_eq_true hab).trans (of_decide_eq_true hbc))
  sort_sorted xs _ := (List.pairwise_insertionSort (· ≤ ·) xs).imp fun hle => decide_eq_true hle
  middle_between a b hba := by
    have hle : (b : ℚ) ≤ a := of_decide_eq_true hba
    have hb : b ≤ (a + b) / 2 := by linarith
    have ha : (a + b) / 2 ≤ a := by linarith
    exact Or.inl ⟨decide_eq_true hb, decide_eq_true ha⟩

/-! ## Exact numbers -/

variable {stod : Str → Except StodError ℚ} {toStr : ℚ → Str}

/-- The median lies in every range that fewer than half of the values leave on either side. -/
theorem median_exact_mem_Icc {values : List ℚ} {value : Str}
    (h : (Doubles.exact stod toStr).median values = some value) (lo hi : ℚ)
    (hlo : 2 * values.countP (· < lo) < values.length)
    (hhi : 2 * values.countP (hi < ·) < values.length) : ∃ q ∈ Set.Icc lo hi, value = toStr q := by
  have hperm := List.perm_insertionSort (· ≤ ·) values
  have hsorted : (values.insertionSort (· ≤ ·)).Pairwise (· ≤ ·) :=
    List.pairwise_insertionSort (· ≤ ·) values
  have hmiddle : ∀ k (hk : k < (values.insertionSort (· ≤ ·)).length),
      k = values.length / 2 ∨ k = (values.length - 1) / 2 →
        (values.insertionSort (· ≤ ·))[k] ∈ Set.Icc lo hi := by
    intro k hk hmid
    refine middle_mem_Icc hsorted ?_ ?_ hk (by rwa [hperm.length_eq])
    · rwa [hperm.countP_eq, hperm.length_eq]
    · rwa [hperm.countP_eq, hperm.length_eq]
  unfold Doubles.median at h
  split at h
  · exact absurd h nofun
  · rename_i hthree
    obtain rfl := Option.some.inj h
    have hupper := hmiddle (values.length / 2) (by rw [hperm.length_eq]; omega) (Or.inl rfl)
    have hlower := hmiddle ((values.length - 1) / 2) (by rw [hperm.length_eq]; omega) (Or.inr rfl)
    have hmean : ∀ {a b : ℚ}, a ∈ Set.Icc lo hi → b ∈ Set.Icc lo hi → (a + b) / 2 ∈ Set.Icc lo hi :=
      fun ha hb => ⟨by linarith [ha.1, hb.1], by linarith [ha.2, hb.2]⟩
    exact ⟨_, hmean hupper hlower, rfl⟩

/-- The entries of some nodes in a map, counted by their keys. -/
theorem countP_mem_eq_card {V : Type} {entries : List (Σ _ : ℕ, V)} (h : (entries.map Sigma.fst).Nodup)
    (nodes : Finset ℕ) :
    entries.countP (·.1 ∈ nodes) = (nodes.filter fun i => i ∈ entries.map Sigma.fst).card := by
  have hset : ((entries.map Sigma.fst).filter (· ∈ nodes)).toFinset
      = nodes.filter fun i => i ∈ entries.map Sigma.fst := by
    ext i
    rw [List.mem_toFinset, List.mem_filter, Finset.mem_filter, decide_eq_true_eq, and_comm]
  rw [← hset, List.toFinset_card_of_nodup (h.filter _), List.filter_map, List.length_map,
    List.countP_eq_length_filter]
  rfl

/-- **The median under a majority of correct proposals.** A commit lies between two numbers that correct
nodes propose for its key and timestamp, provided that fewer than half of the nodes with a number for them
are faulty. -/
theorem medianCommits_between {o : FuseOrder ℚ} {nodes : List (EigNode P)} {faulty : Finset ℕ} {w : Ktv}
    (hw : w ∈ medianCommits (Doubles.exact stod toStr) o nodes)
    (hminority : 2 * (faulty.filter fun i =>
        i ∈ ((Doubles.exact stod toStr).numbersOf nodes w.key w.time).keys).card
      < ((Doubles.exact stod toStr).numbersOf nodes w.key w.time).keys.length) :
    ∃ q lo hi, w.value = toStr q ∧ lo ≤ q ∧ q ≤ hi
      ∧ (∃ i ∉ faulty, (Doubles.exact stod toStr).Proposes nodes i w.key w.time lo)
      ∧ ∃ i ∉ faulty, (Doubles.exact stod toStr).Proposes nodes i w.key w.time hi := by
  have hmedian := mem_medianCommits.mp hw
  generalize hentries : (o.nodes w.key w.time).visit
    ((Doubles.exact stod toStr).numbersOf nodes w.key w.time) = entries at hmedian
  have hproposes : ∀ e ∈ entries, (Doubles.exact stod toStr).Proposes nodes e.1 w.key w.time e.2 :=
    fun e he => Doubles.proposes_of_lookup ((o.nodes w.key w.time).mem_visit.mp (hentries ▸ he))
  have hkeys : (entries.map Sigma.fst).Perm
      ((Doubles.exact stod toStr).numbersOf nodes w.key w.time).keys := by
    rw [← hentries]
    exact ((o.nodes w.key w.time).perm _).map _
  have hfaulty : 2 * entries.countP (·.1 ∈ faulty) < entries.length := by
    rw [countP_mem_eq_card (hkeys.nodup_iff.mpr (AList.keys_nodup _)), ← List.length_map Sigma.fst,
      hkeys.length_eq]
    simpa only [hkeys.mem_iff] using hminority
  obtain ⟨elo, helo, ehi, hehi, hlo', hhi', hbelow, habove⟩ :=
    exists_goodRange (fun e : Σ _ : ℕ, ℚ => e.1 ∈ faulty) Sigma.snd hfaulty
  obtain ⟨q, ⟨hlo, hhi⟩, hq⟩ := median_exact_mem_Icc hmedian elo.2 ehi.2
    (by rwa [List.countP_map, List.length_map]) (by rwa [List.countP_map, List.length_map])
  exact ⟨q, elo.2, ehi.2, hq, hlo, hhi, ⟨elo.1, hlo', hproposes elo helo⟩, ehi.1, hhi', hproposes ehi hehi⟩

/-! ## How many faults a quorum of three bears -/

/-- With up to `f` faulty nodes among `d`, every number that is committed lies between numbers that correct
nodes propose for its key and timestamp. -/
def RobustMedian (P : Params) (stod : Str → Except StodError ℚ) (toStr : ℚ → Str) (f d : ℕ) : Prop :=
  ∀ (o : FuseOrder ℚ) (nodes : List (EigNode P)) (faulty : Finset ℕ) (s s' : Ledger),
    nodes.length = d → faulty.card ≤ f → medianOfDoubles (Doubles.exact stod toStr) o nodes s = .ok s' →
      ∀ cs, s'.commits = s.commits ++ cs → ∀ w ∈ cs, ∃ q lo hi, w.value = toStr q ∧ lo ≤ q ∧ q ≤ hi
        ∧ (∃ i ∉ faulty, (Doubles.exact stod toStr).Proposes nodes i w.key w.time lo)
        ∧ ∃ i ∉ faulty, (Doubles.exact stod toStr).Proposes nodes i w.key w.time hi

theorem three_le_of_mem_medianCommits {o : FuseOrder F.Double} {nodes : List (EigNode P)} {w : Ktv}
    (hw : w ∈ medianCommits F o nodes) : 3 ≤ (F.numbersOf nodes w.key w.time).keys.length := by
  rw [F.length_numbersOf]
  exact exists_mem_medianCommits_iff.mp ⟨w.value, hw⟩

theorem robustMedian_of_le_one {f d : ℕ} (hf : f ≤ 1) : RobustMedian P stod toStr f d := by
  intro o nodes faulty s s' _ hfaulty hrun cs hcs w hw
  obtain rfl : cs = medianCommits (Doubles.exact stod toStr) o nodes :=
    List.append_cancel_left (hcs.symm.trans (extends_median hrun))
  refine medianCommits_between hw ?_
  have hthree := three_le_of_mem_medianCommits hw
  have hone := (Finset.card_filter_le faulty fun i =>
    i ∈ ((Doubles.exact stod toStr).numbersOf nodes w.key w.time).keys).trans hfaulty
  omega

/-- A node that proposes one number, for the empty key and time 0. -/
def proposing (P : Params) (value : Str) : EigNode P := (Pod.zero : EigNode P).push ⟨[], 0, value⟩

theorem proposals_proposing (hNT : 1 ≤ P.NT) {value : Str} (hlen : value.length ≤ P.VS)
    (hnul : 0 ∉ value) : (proposing P value).proposals = [⟨[], 0, value⟩] := by
  have hholds : (proposing P value).Holds [⟨[], 0, value⟩] :=
    EigNode.holds_zero.push hNT ⟨Nat.zero_le _, hlen⟩
  rw [EigNode.proposals, hholds.decode_eq, if_neg (by rw [hholds.1]; exact not_lt.mpr hNT)]
  exact congrArg (· :: []) (Ktv.NulFree.encoded_eq ⟨List.not_mem_nil, hnul⟩)

theorem proposals_zero : (Pod.zero : EigNode P).proposals = [] := by
  rw [EigNode.proposals, EigNode.holds_zero.decode_eq, List.map_nil, ite_self]

/-- Nodes 0 and 1 propose `sb`, node 2 proposes `sa`, and the others nothing. -/
def twoAgainstOne (P : Params) (sa sb : Str) (d : ℕ) : List (EigNode P) :=
  [proposing P sb, proposing P sb, proposing P sa] ++ List.replicate (d - 3) Pod.zero

section TwoAgainstOne

variable (hNT : 1 ≤ P.NT) {d : ℕ} {sa sb : Str} {a b : ℚ} (hsa : sa.length ≤ P.VS)
  (hsb : sb.length ≤ P.VS) (hnula : 0 ∉ sa) (hnulb : 0 ∉ sb)

include hNT hsa hsb hnula hnulb

theorem ballots_twoAgainstOne :
    ballots (twoAgainstOne P sa sb d) = [(0, ⟨[], 0, sb⟩), (1, ⟨[], 0, sb⟩), (2, ⟨[], 0, sa⟩)] := by
  have hrest : ∀ k m, ((List.replicate m (Pod.zero : EigNode P)).zipIdx k).flatMap
      (fun x => x.1.proposals.map fun w => (x.2, w)) = [] := by
    intro k m
    refine List.flatMap_eq_nil_iff.mpr fun x hx => ?_
    rw [List.eq_of_mem_replicate (List.fst_mem_of_mem_zipIdx hx), proposals_zero, List.map_nil]
  rw [ballots, twoAgainstOne, List.zipIdx_append, List.flatMap_append, hrest, List.append_nil]
  simp [List.zipIdx_cons, proposals_proposing hNT hsa hnula, proposals_proposing hNT hsb hnulb]

variable (ha : stod sa = .ok a) (hb : stod sb = .ok b)

include ha

/-- The only number of a correct node is `a`. -/
theorem eq_of_proposes_twoAgainstOne {i : ℕ} (hi : i ∉ ({0, 1} : Finset ℕ)) {x : ℚ}
    (h : (Doubles.exact stod toStr).Proposes (twoAgainstOne P sa sb d) i [] 0 x) : x = a := by
  obtain ⟨n, hn, w, hw, -, -, hx⟩ := h
  have hballot : (i, w) ∈ (ballots (twoAgainstOne P sa sb d)).filter (·.1 = i) := by
    rw [ballots_filter, hn]
    exact List.mem_map_of_mem hw
  rw [ballots_twoAgainstOne hNT hsa hsb hnula hnulb, List.mem_filter] at hballot
  simp only [List.mem_cons, List.not_mem_nil, or_false, Prod.mk.injEq] at hballot
  rcases hballot.1 with ⟨rfl, -⟩ | ⟨rfl, -⟩ | ⟨-, rfl⟩
  · exact absurd (by simp) hi
  · exact absurd (by simp) hi
  · exact (Except.ok.inj (ha.symm.trans hx)).symm

include hb

/-- The median of one `a` and two `b` is `b`. -/
theorem mem_medianCommits_twoAgainstOne :
    ⟨[], 0, toStr b⟩ ∈ medianCommits (Doubles.exact stod toStr) (FuseOrder.newestFirst ℚ)
      (twoAgainstOne P sa sb d) := by
  have hnumbers : (Doubles.exact stod toStr).numbers (ballots (twoAgainstOne P sa sb d))
      = [((0, ⟨[], 0, sb⟩), b), ((1, ⟨[], 0, sb⟩), b), ((2, ⟨[], 0, sa⟩), a)] := by
    rw [ballots_twoAgainstOne hNT hsa hsb hnula hnulb]
    simp [Doubles.numbers, ha, hb, Except.toOption]
  have hvalues : (((FuseOrder.newestFirst ℚ).nodes [] 0).visit
      ((Doubles.exact stod toStr).numbersOf (twoAgainstOne P sa sb d) [] 0)).map Sigma.snd = [a, b, b] := by
    rw [Doubles.numbersOf, hnumbers]
    rfl
  obtain ⟨value, hvalue⟩ : ∃ value, (Doubles.exact stod toStr).median [a, b, b] = some value := ⟨_, rfl⟩
  obtain ⟨q, hq, heq⟩ := median_exact_mem_Icc hvalue b b
    (by simp [List.countP_cons]; split <;> omega) (by simp [List.countP_cons]; split <;> omega)
  rw [Set.Icc_self, Set.mem_singleton_iff] at hq
  rw [mem_medianCommits, hvalues, hvalue, heq, hq]

/-- Two faulty nodes outvote a single correct proposal. -/
theorem not_robustMedian_of_two_le {f : ℕ} (hf : 2 ≤ f) (hd : 3 ≤ d) (hab : toStr a ≠ toStr b) :
    ¬RobustMedian P stod toStr f d := by
  intro hrobust
  obtain ⟨s', hrun⟩ : ∃ s', medianOfDoubles (Doubles.exact stod toStr) (FuseOrder.newestFirst ℚ)
      (twoAgainstOne P sa sb d) Ledger.empty = .ok s' := by
    rw [medianOfDoubles, Doubles.foldlM_record_ok]
    · exact ⟨_, rfl⟩
    · rw [ballots_twoAgainstOne hNT hsa hsb hnula hnulb]
      simp [ha, hb]
  have hcommit : ⟨[], 0, toStr b⟩ ∈ medianCommits (Doubles.exact stod toStr) (FuseOrder.newestFirst ℚ)
      (twoAgainstOne P sa sb d) :=
    mem_medianCommits_twoAgainstOne hNT hsa hsb hnula hnulb ha hb
  obtain ⟨q, lo, hi, hq, hlo, hhi, ⟨i, hi', hilo⟩, ⟨j, hj', hjhi⟩⟩ := hrobust _
    (twoAgainstOne P sa sb d) {0, 1} Ledger.empty s' (by simp [twoAgainstOne]; omega)
    (by simpa using hf) hrun _ (extends_median hrun) _ hcommit
  obtain rfl := eq_of_proposes_twoAgainstOne hNT hsa hsb hnula hnulb ha hi' hilo
  obtain rfl := eq_of_proposes_twoAgainstOne hNT hsa hsb hnula hnulb ha hj' hjhi
  exact hab (hq.trans (congrArg toStr (le_antisymm hhi hlo))).symm

end TwoAgainstOne

/-- **How many faults the median bears.** For every number of nodes with `d >= 3f + 1`: exactly one. -/
theorem robustMedian_iff (hNT : 1 ≤ P.NT) {f d : ℕ} (hd : 3 * f + 1 ≤ d) {sa sb : Str} {a b : ℚ}
    (hsa : sa.length ≤ P.VS) (hsb : sb.length ≤ P.VS) (hnula : 0 ∉ sa) (hnulb : 0 ∉ sb)
    (ha : stod sa = .ok a) (hb : stod sb = .ok b) (hab : toStr a ≠ toStr b) :
    RobustMedian P stod toStr f d ↔ f ≤ 1 := by
  constructor
  · intro hrobust
    by_contra hf
    exact not_robustMedian_of_two_le hNT hsa hsb hnula hnulb ha hb (by omega) (by omega) hab hrobust
  · exact robustMedian_of_le_one

theorem robustMedian_iff_fourNodes : RobustMedian (oneTuple 7 15) decimal fixedPoint 1 4 :=
  have hone : decimal [49] = .ok 1 := by decide +kernel
  have htwo : decimal [50] = .ok 2 := by decide +kernel
  (robustMedian_iff le_rfl (by norm_num) (by decide) (by decide) (by decide) (by decide) hone htwo
    (by decide +kernel)).mpr le_rfl

/-- Seven nodes, two of them faulty: the number 2 is committed where the only correct proposal is 1. -/
theorem not_robustMedian_sevenNodes : ¬RobustMedian (oneTuple 7 15) decimal fixedPoint 2 7 :=
  have hone : decimal [49] = .ok 1 := by decide +kernel
  have htwo : decimal [50] = .ok 2 := by decide +kernel
  not_robustMedian_of_two_le le_rfl (by decide) (by decide) (by decide) (by decide) hone htwo le_rfl
    (by norm_num) (by decide +kernel)

end Achal
