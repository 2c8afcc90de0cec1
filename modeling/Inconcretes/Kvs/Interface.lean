import Inconcretes.BftKvs.Median

/-!
# Fusing redundant values

`KVSInterface::fuse_redundant_values` fuses the values that the replicas of Redis and of etcd return for a
key: the median of at least three numbers, or a majority of two to four strings. Its median path has no
handler for the exceptions of `std::stod` at all, where `median_of_doubles` has one for strings that are no
numbers (`medianFuse_returns_iff`).
-/

namespace Achal

/-- How `fuse_redundant_values` ends when it does not return. -/
inductive FuseError
  | stod (e : StodError)
  | assertion
  deriving DecidableEq

/-- `std::stod` outside of any handler. -/
def Doubles.stodOrThrow (F : Doubles) (v : Str) : Except FuseError F.Double :=
  match F.stod v with
  | .ok x => .ok x
  | .error e => .error (.stod e)

/-- The comparisons of `fuse_redundant_values` without the median, from two to four candidates. -/
def fuseEqual : List Str → Except FuseError (Option Str)
  | [] | [_] => .ok none
  | [a, b] => .ok (if a = b then some a else none)
  | [a, b, c] => .ok (if a = b then some a else if b = c then some b else if c = a then some c else none)
  | [a, b, c, d] =>
    .ok (if a = b ∧ b = c then some a
      else if a = b ∧ b = d then some a
      else if a = c ∧ c = d then some a
      else if b = c ∧ c = d then some b
      else none)
  | _ => .error .assertion

/-- The median path: `none` when there are at most two candidates. -/
def fuseMedian (F : Doubles) (candidateValues : List Str) : Except FuseError (Option Str) :=
  if candidateValues.length ≤ 2 then .ok none
  else do
    let values ← candidateValues.mapM F.stodOrThrow
    return F.median values

/-- `fuse_redundant_values(candidate_values, use_simple_median, result)`: what it returns, and `result`
afterwards. -/
def fuseRedundantValues (F : Doubles) (candidateValues : List Str) (useSimpleMedian : Bool)
    (result : Str) : Except FuseError (Bool × Str) := do
  let fused ← if useSimpleMedian then fuseMedian F candidateValues else fuseEqual candidateValues
  return match fused with
    | some value => (true, value)
    | none => (false, result)

variable {P : Params} {F : Doubles}

theorem mapM_stodOrThrow_isOk_iff {vs : List Str} :
    (vs.mapM F.stodOrThrow).isOk = true ↔ ∀ v ∈ vs, ∃ x, F.stod v = .ok x := by
  induction vs with
  | nil => simp [Except.isOk, Except.toBool, pure, Except.pure]
  | cons v vs ih =>
    rw [List.mapM_cons, List.forall_mem_cons, Doubles.stodOrThrow]
    cases hstod : F.stod v with
    | error e => simp [Except.isOk, Except.toBool, bind, Except.bind]
    | ok x =>
      rw [← ih]
      cases hrest : vs.mapM F.stodOrThrow <;>
        simp [Except.isOk, Except.toBool, bind, Except.bind, pure, Except.pure]

theorem fuseRedundantValues_median_isOk_iff {candidateValues : List Str} {result : Str} :
    (fuseRedundantValues F candidateValues true result).isOk = true
      ↔ candidateValues.length ≤ 2 ∨ ∀ v ∈ candidateValues, ∃ x, F.stod v = .ok x := by
  rw [← mapM_stodOrThrow_isOk_iff, fuseRedundantValues, if_pos rfl, fuseMedian]
  by_cases hfew : candidateValues.length ≤ 2
  · rw [if_pos hfew]
    exact ⟨fun _ => Or.inl hfew, fun _ => rfl⟩
  · rw [if_neg hfew, or_iff_right hfew]
    cases candidateValues.mapM F.stodOrThrow <;> exact Iff.rfl

/-- **When the median fuses return.** `median_of_doubles` returns exactly when no tuple of a node with an
admissible length holds a number out of range, and `fuse_redundant_values` exactly when it has at most two
candidates or can read all of them as numbers. -/
theorem medianFuse_returns_iff (o : FuseOrder F.Double) (nodes : List (EigNode P)) (s : Ledger)
    (_hnodes : 0 < nodes.length) (candidateValues : List Str) (result : Str) :
    ((medianOfDoubles F o nodes s).isOk = true
        ↔ ∀ n ∈ nodes, ∀ w ∈ n.proposals, F.stod w.value ≠ .error .outOfRange)
      ∧ ((fuseRedundantValues F candidateValues true result).isOk = true
        ↔ candidateValues.length ≤ 2 ∨ ∀ v ∈ candidateValues, ∃ x, F.stod v = .ok x) :=
  ⟨medianOfDoubles_isOk_iff o nodes s, fuseRedundantValues_median_isOk_iff⟩

/-- `bad!` is no number, and `median_of_doubles` passes over it. -/
theorem medianFuse_returns_iff_garbage :
    (medianOfDoubles Doubles.decimals (FuseOrder.newestFirst ℚ)
        [proposing (oneTuple 7 15) [98, 97, 100, 33]] Ledger.empty).isOk = true
      ∧ (fuseRedundantValues Doubles.decimals [[49], [50], [51]] true []).isOk = true := by
  have hiff := medianFuse_returns_iff (F := Doubles.decimals) (FuseOrder.newestFirst ℚ)
    [proposing (oneTuple 7 15) [98, 97, 100, 33]] Ledger.empty (by decide) [[49], [50], [51]] []
  exact ⟨hiff.1.mpr (by decide +kernel), hiff.2.mpr (Or.inr fun v hv => by
    rcases List.mem_cons.mp hv with rfl | hv
    · exact ⟨1, by decide +kernel⟩
    rcases List.mem_cons.mp hv with rfl | hv
    · exact ⟨2, by decide +kernel⟩
    exact ⟨3, by rw [List.mem_singleton.mp hv]; decide +kernel⟩)⟩

/-- `1e999` leaves `median_of_doubles` as an exception, and `bad!` leaves `fuse_redundant_values`. -/
theorem not_medianFuse_returns :
    (¬∀ nodes : List (EigNode (oneTuple 7 15)), 0 < nodes.length →
        (medianOfDoubles Doubles.decimals (FuseOrder.newestFirst ℚ) nodes Ledger.empty).isOk = true)
      ∧ ¬∀ candidateValues : List Str,
        (fuseRedundantValues Doubles.decimals candidateValues true []).isOk = true := by
  constructor
  · intro h
    have hreturns := h [proposing (oneTuple 7 15) [49, 101, 57, 57, 57]] (by decide)
    exact absurd hreturns (by decide +kernel)
  · intro h
    exact absurd (h [[49], [50], [98, 97, 100, 33]]) (by decide +kernel)

end Achal
