import Inconcretes.BftKvs.Process
import Inconcretes.BftKvs.Traces

/-!
# What a median prints

`median_of_doubles` parses the proposals and stores what `std::to_string` makes of their median: the integer
part in full, a point and six decimals. The length of this text depends on the magnitude of the number, not
on the length of the proposals, so it may exceed `VS` (`stored_values_fit`). And it denotes the number only
when six decimals are enough (`unanimous_median_iff`).

The first is about doubles of any kind, infinities and nan included, of which little is asked
(`Doubles.Ordered`). For the second numbers are exact, and `std::stod` is any function that reads the proposal
as the number that it denotes. How `printf` rounds its last digit is left open, as long as the rounding is
monotone and keeps what needs none.
-/

namespace Achal

variable {P : Params}

/-! ## Printing -/

/-- A rounding to integers. -/
structure Rounding where
  toInt : ℚ → ℤ
  mono : ∀ ⦃a b : ℚ⦄, a ≤ b → toInt a ≤ toInt b
  toInt_intCast : ∀ n : ℤ, toInt n = n

namespace Rounding

/-- To the nearest integer, halves up. -/
def halfUp : Rounding where
  toInt q := ⌊q + 1 / 2⌋
  mono _ _ h := Int.floor_mono (by linarith)
  toInt_intCast n := by
    rw [Int.floor_eq_iff]
    constructor <;> linarith

variable (R : Rounding)

/-- The magnitude of a number in millionths. -/
def millionths (q : ℚ) : ℕ := (R.toInt (|q| * 10 ^ 6)).toNat

/-- Millionths with a point in front of the last six digits. -/
def pointed (n : ℕ) : Str := Decimal.render (n / 10 ^ 6) ++ 46 :: Decimal.lastDigits 6 n

/-- `std::to_string(q)`. -/
def toStr (q : ℚ) : Str := if q < 0 then 45 :: pointed (R.millionths q) else pointed (R.millionths q)

theorem millionths_mono {a b : ℚ} (h : |a| ≤ |b|) : R.millionths a ≤ R.millionths b :=
  Int.toNat_le_toNat (R.mono (by linarith))

theorem length_pointed_mono {n m : ℕ} (h : n ≤ m) : (pointed n).length ≤ (pointed m).length := by
  have hrender := Decimal.length_render_mono (Nat.div_le_div_right h : n / 10 ^ 6 ≤ m / 10 ^ 6)
  simp only [pointed, List.length_append, List.length_cons, Decimal.length_lastDigits]
  omega

/-- A text is no longer than those of the ends of a range around its number. -/
theorem length_toStr_le {a q b : ℚ} {k : ℕ} (haq : a ≤ q) (hqb : q ≤ b)
    (ha : a < 0 → (R.toStr a).length ≤ k) (hb : 0 ≤ b → (R.toStr b).length ≤ k) :
    (R.toStr q).length ≤ k := by
  unfold toStr
  by_cases hq : q < 0
  · have hneg : a < 0 := lt_of_le_of_lt haq hq
    have habs : |q| ≤ |a| := by rw [abs_of_neg hq, abs_of_neg hneg]; linarith
    have hlen := ha hneg
    rw [toStr, if_pos hneg, List.length_cons] at hlen
    rw [if_pos hq, List.length_cons]
    exact (Nat.succ_le_succ (length_pointed_mono (R.millionths_mono habs))).trans hlen
  · have hpos : 0 ≤ b := (not_lt.mp hq).trans hqb
    have habs : |q| ≤ |b| := by rw [abs_of_nonneg (not_lt.mp hq), abs_of_nonneg hpos]; exact hqb
    have hlen := hb hpos
    rw [toStr, if_neg (not_lt.mpr hpos)] at hlen
    rw [if_neg hq]
    exact (length_pointed_mono (R.millionths_mono habs)).trans hlen

end Rounding

/-! ## What a text denotes -/

/-- An optional sign, and what follows it. -/
def sign : Str → Bool × Str
  | [] => (false, [])
  | c :: s => if c = 45 then (true, s) else if c = 43 then (false, s) else (false, c :: s)

/-- The exponent behind the digits of a number, 0 when there is nothing. -/
def exponent : Str → Option ℤ
  | [] => some 0
  | c :: s =>
    let (negative, s) := sign s
    if (c = 101 ∨ c = 69) ∧ s ≠ [] ∧ s.all Decimal.isDigit then
      some (if negative then -Decimal.value s else Decimal.value s)
    else none

/-- The digits in front of the point, those behind it, and the rest. -/
def digitsOf (s : Str) : Str × Str × Str :=
  let rest := s.dropWhile Decimal.isDigit
  if rest.head? = some 46 then
    (s.takeWhile Decimal.isDigit, rest.tail.takeWhile Decimal.isDigit, rest.tail.dropWhile Decimal.isDigit)
  else (s.takeWhile Decimal.isDigit, [], rest)

/-- A number without sign. -/
def magnitude (s : Str) : Option ℚ :=
  let (whole, fraction, rest) := digitsOf s
  if whole ++ fraction = [] then none
  else (exponent rest).map fun e =>
    Decimal.value (whole ++ fraction) * 10 ^ e.toNat / 10 ^ (fraction.length + (-e).toNat)

/-- The number that a decimal string denotes. -/
def denoted (s : Str) : Option ℚ := (magnitude (sign s).2).map fun q => if (sign s).1 then -q else q

example : denoted [45, 49, 50, 46, 53, 69, 45, 49] = some (-5 / 4) := by decide +kernel

/-! ## Reading back what was printed -/

theorem magnitude_pointed (n : ℕ) : magnitude (Rounding.pointed n) = some ((n : ℚ) / 10 ^ 6) := by
  have hwhole : (Rounding.pointed n).takeWhile Decimal.isDigit = Decimal.render (n / 10 ^ 6) :=
    Decimal.takeWhile_render_append _ (by decide) _
  have hrest : (Rounding.pointed n).dropWhile Decimal.isDigit = 46 :: Decimal.lastDigits 6 n := by
    have happend := List.takeWhile_append_dropWhile (p := Decimal.isDigit) (l := Rounding.pointed n)
    rw [hwhole] at happend
    exact List.append_cancel_left happend
  have hfraction : (Decimal.lastDigits 6 n).takeWhile Decimal.isDigit = Decimal.lastDigits 6 n :=
    List.takeWhile_eq_self_iff.mpr fun _ hc => Decimal.isDigit_of_mem_lastDigits hc
  have hend : (Decimal.lastDigits 6 n).dropWhile Decimal.isDigit = [] :=
    List.dropWhile_eq_nil_iff.mpr fun _ hc => Decimal.isDigit_of_mem_lastDigits hc
  have hne : Decimal.render (n / 10 ^ 6) ++ Decimal.lastDigits 6 n ≠ [] :=
    List.append_ne_nil_of_left_ne_nil (Decimal.render_ne_nil _) _
  have hdigits : digitsOf (Rounding.pointed n)
      = (Decimal.render (n / 10 ^ 6), Decimal.lastDigits 6 n, []) := by
    rw [digitsOf, hwhole, hrest, List.head?_cons, if_pos rfl, List.tail_cons, hfraction, hend]
  rw [magnitude, hdigits]
  simp only [if_neg hne, exponent, Option.map_some, Decimal.value_render_lastDigits, Decimal.length_lastDigits]
  norm_num

/-- A printed number begins with a digit. -/
theorem sign_pointed (n : ℕ) : sign (Rounding.pointed n) = (false, Rounding.pointed n) := by
  obtain ⟨c, cs, hcs⟩ := List.exists_cons_of_ne_nil (Decimal.render_ne_nil (n / 10 ^ 6))
  have hdigit : Decimal.isDigit c = true :=
    Decimal.isDigit_of_mem_render (n := n / 10 ^ 6) (hcs ▸ List.mem_cons_self)
  obtain ⟨-, hminus, hplus⟩ := isSpace_of_isDigit hdigit
  rw [Rounding.pointed, hcs, List.cons_append, sign, if_neg hminus, if_neg hplus]

/-- What is printed denotes the millionths of the number. -/
theorem denoted_toStr (R : Rounding) (q : ℚ) :
    denoted (R.toStr q)
      = some (if q < 0 then -((R.millionths q : ℚ) / 10 ^ 6) else (R.millionths q : ℚ) / 10 ^ 6) := by
  unfold denoted Rounding.toStr
  by_cases hq : q < 0
  · simp only [if_pos hq, sign, if_true, magnitude_pointed, Option.map_some]
  · simp only [if_neg hq, sign_pointed, magnitude_pointed, Option.map_some, Bool.false_eq_true, if_false]

/-- It is less than a millionth off. -/
theorem exists_denoted_toStr (R : Rounding) (q : ℚ) :
    ∃ y, denoted (R.toStr q) = some y ∧ |y - q| < 1 / 10 ^ 6 := by
  have hz : 0 ≤ |q| * 10 ^ 6 := by positivity
  have hdown : ⌊|q| * 10 ^ 6⌋ ≤ R.toInt (|q| * 10 ^ 6) :=
    (R.toInt_intCast _).symm.le.trans (R.mono (Int.floor_le _))
  have hup : R.toInt (|q| * 10 ^ 6) ≤ ⌈|q| * 10 ^ 6⌉ :=
    (R.mono (Int.le_ceil _)).trans (R.toInt_intCast _).le
  have hmillionths : ((R.millionths q : ℕ) : ℚ) = (R.toInt (|q| * 10 ^ 6) : ℚ) := by
    exact_mod_cast Int.toNat_of_nonneg ((Int.floor_nonneg.mpr hz).trans hdown)
  have hlow : |q| * 10 ^ 6 - 1 < R.millionths q := by
    rw [hmillionths]
    exact (Int.sub_one_lt_floor _).trans_le (Int.cast_le.mpr hdown)
  have hhigh : (R.millionths q : ℚ) < |q| * 10 ^ 6 + 1 := by
    rw [hmillionths]
    exact (Int.cast_le.mpr hup).trans_lt (Int.ceil_lt_add_one _)
  refine ⟨_, denoted_toStr R q, ?_⟩
  split
  · rename_i hneg
    rw [abs_of_neg hneg] at hlow hhigh
    rw [abs_lt]
    constructor <;> linarith
  · rename_i hpos
    rw [abs_of_nonneg (not_lt.mp hpos)] at hlow hhigh
    rw [abs_lt]
    constructor <;> linarith

/-- Six decimals are enough. -/
def Printable (q : ℚ) : Prop := ∃ n : ℤ, q * 10 ^ 6 = n

/-- What is printed denotes the number exactly when six decimals are enough for it. -/
theorem denoted_toStr_eq_iff (R : Rounding) {q : ℚ} : denoted (R.toStr q) = some q ↔ Printable q := by
  rw [denoted_toStr, Option.some.injEq]
  constructor
  · intro heq
    generalize R.millionths q = m at heq
    split at heq
    · exact ⟨-m, by rw [← heq]; push_cast; ring⟩
    · exact ⟨m, by rw [← heq]; push_cast; ring⟩
  · rintro ⟨n, hn⟩
    have habs : |q| * 10 ^ 6 = ((|n| : ℤ) : ℚ) := by
      rw [Int.cast_abs, ← hn, abs_mul]
      norm_num
    have hmillionths : (R.millionths q : ℚ) / 10 ^ 6 = |q| := by
      have hnat : ((|n|.toNat : ℕ) : ℚ) = ((|n| : ℤ) : ℚ) := by
        exact_mod_cast Int.toNat_of_nonneg (abs_nonneg n)
      rw [Rounding.millionths, habs, R.toInt_intCast, hnat, ← habs]
      norm_num
    rw [hmillionths]
    split
    · rename_i hneg
      rw [abs_of_neg hneg, neg_neg]
    · rename_i hpos
      rw [abs_of_nonneg (not_lt.mp hpos)]

/-! ## The sizes of stored values -/

section Sizes

variable {F : Doubles} (D : F.Ordered)

/-- No number is nan, and there is a range of doubles that print with `VS` bytes, below which fewer than half of
the numbers are, and fewer than half above it. -/
def Doubles.Ordered.MedianFits (P : Params) (values : List F.Double) : Prop :=
  (∀ x ∈ values, D.le x x = true) ∧ ∃ lo hi,
    (∀ x, D.le lo x = true → D.le x hi = true → (F.toStr x).length ≤ P.VS)
      ∧ 2 * values.countP (fun x => !D.le lo x) < values.length
      ∧ 2 * values.countP (fun x => !D.le x hi) < values.length

variable {D}

/-- Then their median can be printed with `VS` bytes. -/
theorem Doubles.Ordered.MedianFits.length_le {values : List F.Double} (h : D.MedianFits P values) {value : Str}
    (hmedian : F.median values = some value) : value.length ≤ P.VS := by
  obtain ⟨hnan, lo, hi, hrange, hbelow, habove⟩ := h
  have hperm := F.sort_perm values
  have hsorted := D.sort_sorted values hnan
  unfold Doubles.median at hmedian
  split at hmedian
  · exact absurd hmedian nofun
  rename_i hthree
  obtain rfl := Option.some.inj hmedian
  have hdown : ∀ x y, D.le x y = true → (!D.le lo y) = true → (!D.le lo x) = true := fun x y hxy => by
    simpa using mt fun hle => D.le_trans _ _ _ hle hxy
  have hup : ∀ x y, D.le x y = true → (!D.le x hi) = true → (!D.le y hi) = true := fun x y hxy => by
    simpa using mt fun hle => D.le_trans _ _ _ hxy hle
  have hlen := hperm.length_eq
  rw [← hlen, ← hperm.countP_eq] at hbelow habove
  have hmiddle : ∀ k (hk : k < (F.sort values).length), k = values.length / 2 ∨ k = (values.length - 1) / 2 →
      D.le lo (F.sort values)[k] = true ∧ D.le (F.sort values)[k] hi = true := fun k hk hmid => by
    simpa using OrderStatistics.middle_eq_false hdown hup hsorted hbelow habove hk (hlen ▸ hmid)
  have hupper : values.length / 2 < (F.sort values).length := by omega
  have hlower : (values.length - 1) / 2 < (F.sort values).length := by omega
  obtain ⟨hloa, hahi⟩ := hmiddle _ hupper (Or.inl rfl)
  obtain ⟨hlob, hbhi⟩ := hmiddle _ hlower (Or.inr rfl)
  have hle : D.le (F.sort values)[(values.length - 1) / 2] (F.sort values)[values.length / 2] = true := by
    rcases (show (values.length - 1) / 2 ≤ values.length / 2 by omega).lt_or_eq with hlt | heq
    · exact List.pairwise_iff_getElem.mp hsorted _ _ hlower hupper hlt
    · simp only [heq]
      exact hnan _ (hperm.mem_iff.mp (List.getElem_mem _))
  rcases D.middle_between _ _ hle with ⟨hb, ha⟩ | hlong
  · exact hrange _ (D.le_trans _ _ _ hlob hb) (D.le_trans _ _ _ ha hahi)
  · exact hlong.trans (max_le (hrange _ hloa hahi) (hrange _ hlob hbhi))

variable (D)

/-- The numbers for a key and timestamp that at least three nodes have one for. -/
def FuseCall.Fits : FuseCall P F → Prop
  | .median _ nodes => ∀ key time, 3 ≤ (F.votes nodes key time).length → D.MedianFits P (F.votes nodes key time)
  | _ => True

variable {D}

theorem FuseCall.Fits.length_le {o : FuseOrder F.Double} {nodes : List (EigNode P)}
    (h : (FuseCall.median o nodes : FuseCall P F).Fits D) {w : Ktv} (hw : w ∈ medianCommits F o nodes) :
    w.value.length ≤ P.VS := by
  have hperm := F.visit_numbersOf_perm nodes (o.nodes w.key w.time) w.key w.time
  obtain ⟨hnan, lo, hi, hrange, hbelow, habove⟩ :=
    h w.key w.time (exists_mem_medianCommits_iff.mp ⟨w.value, hw⟩)
  have hfits : D.MedianFits P
      (((o.nodes w.key w.time).visit (F.numbersOf nodes w.key w.time)).map Sigma.snd) := by
    refine ⟨fun x hx => hnan x (hperm.mem_iff.mp hx), lo, hi, hrange, ?_, ?_⟩
    · rwa [hperm.countP_eq, hperm.length_eq]
    · rwa [hperm.countP_eq, hperm.length_eq]
  exact hfits.length_le (mem_medianCommits.mp hw)

/-- One call keeps the values bounded. -/
theorem Ledger.Bounded.run {s : Ledger} (h : s.Bounded P) {call : FuseCall P F} (hfits : call.Fits D) :
    (call.run s).Bounded P := by
  cases call with
  | strong o freqOrder nodes => exact h.strong o freqOrder nodes
  | median o nodes =>
    rw [FuseCall.run]
    split
    · rename_i s' hrun
      exact h.extends (extends_medianOfDoubles hrun) fun w hw => hfits.length_le hw
    · exact h
  | root result =>
    exact h.extends (s.extends_commitRoot result) fun w hw => EigNode.length_value_le hw

theorem Ledger.Bounded.runAll {calls : List (FuseCall P F)} (h : ∀ call ∈ calls, call.Fits D) :
    (calls.foldl FuseCall.run Ledger.empty).Bounded P :=
  List.foldlRecOn calls _ Ledger.bounded_empty fun _ hs _ hcall => hs.run (h _ hcall)

/-- **Stored values can be written back.** After every sequence of calls on the empty store in which the
numbers for a key and timestamp fit (those that three nodes or more have one for), every value in the store has
at most `VS` bytes, so `try_write` takes a value that `try_read` has returned without failing an assertion. -/
theorem stored_values_fit (F : Doubles) (D : F.Ordered) (calls : List (FuseCall P F))
    (h : ∀ call ∈ calls, call.Fits D) :
    let s := calls.foldl FuseCall.run Ledger.empty
    (∀ key time value, (s.store.bucket key).get? time = some value → value.length ≤ P.VS)
      ∧ ∀ key noEarlierThan now value, s.store.tryRead key noEarlierThan now = some value →
        ∀ (b : BFTKVS P) now' key' time', key'.length ≤ P.KS →
          ∃ r, b.tryWrite now' ⟨key', time', value⟩ = some r := by
  intro s
  have hbounded : s.Bounded P := Ledger.Bounded.runAll h
  refine ⟨fun key time value hget => hbounded.length_get?_le hget, ?_⟩
  intro key noEarlierThan now value hread b now' key' time' hkey
  exact b.tryWrite_returns now' ⟨hkey, hbounded.length_tryRead_le hread⟩

/-- Exact numbers fit between two that can be printed with `VS` bytes. -/
theorem FuseCall.fits_of_mem_Icc {parse : Str → Except StodError ℚ} {R : Rounding} {o : FuseOrder ℚ}
    {nodes : List (EigNode P)} {lo hi : ℚ} (hlo : (R.toStr lo).length ≤ P.VS) (hhi : (R.toStr hi).length ≤ P.VS)
    (h : ∀ n ∈ nodes, ∀ w ∈ n.proposals, ∀ x, parse w.value = .ok x → x ∈ Set.Icc lo hi) :
    (FuseCall.median o nodes : FuseCall P (Doubles.exact parse R.toStr)).Fits (Doubles.orderedExact _ _) := by
  intro key time hthree
  have hall : ∀ x ∈ (Doubles.exact parse R.toStr).votes nodes key time, x ∈ Set.Icc lo hi := by
    intro x hx
    obtain ⟨n, hn, w, hw, hstod⟩ := Doubles.mem_votes hx
    exact h n hn w hw x hstod
  refine ⟨fun x _ => decide_eq_true (le_refl (x : ℚ)), lo, hi, fun x hlox hxhi => ?_, ?_, ?_⟩
  · exact R.length_toStr_le (of_decide_eq_true hlox) (of_decide_eq_true hxhi) (fun _ => hlo) fun _ => hhi
  · rw [List.countP_eq_zero.mpr fun x hx => by simpa [Doubles.orderedExact] using (hall x hx).1]
    omega
  · rw [List.countP_eq_zero.mpr fun x hx => by simpa [Doubles.orderedExact] using (hall x hx).2]
    omega

end Sizes

/-- Three nodes that propose the same value for key `k` and timestamp 5. -/
def threeAlike (value : Str) : List (EigNode (oneTuple 7 15)) :=
  List.replicate 3 ((Pod.zero : EigNode (oneTuple 7 15)).push ⟨[107], 5, value⟩)

/-- All of them propose 2.5. -/
theorem stored_values_fit_twoAndAHalf :
    let s := [(FuseCall.median (FuseOrder.newestFirst ℚ) (threeAlike [50, 46, 53]) :
      FuseCall (oneTuple 7 15) (Doubles.exact decimal Rounding.halfUp.toStr))].foldl FuseCall.run Ledger.empty
    ∀ key time value, (s.store.bucket key).get? time = some value → value.length ≤ 15 := by
  refine (stored_values_fit _ (Doubles.orderedExact _ _) _ ?_).1
  rintro call (_ | ⟨_, ⟨⟩⟩)
  have hlo : (Rounding.halfUp.toStr (-9999999)).length ≤ (oneTuple 7 15).VS := by decide +kernel
  have hhi : (Rounding.halfUp.toStr 99999999).length ≤ (oneTuple 7 15).VS := by decide +kernel
  refine FuseCall.fits_of_mem_Icc hlo hhi fun n hn w hw x hx => ?_
  have hvalue : ∀ n ∈ threeAlike [50, 46, 53], ∀ w ∈ n.proposals, w.value = [50, 46, 53] := by decide +kernel
  have hstod : decimal [50, 46, 53] = .ok (5 / 2) := by decide +kernel
  rw [hvalue n hn w hw, hstod] at hx
  rw [← Except.ok.inj hx]
  norm_num

/-- All of them propose `1e22`, which is a double: what is stored has 30 bytes, and writing it back fails the
assertion. -/
theorem not_stored_values_fit_1e22 :
    let s := [(FuseCall.median (FuseOrder.newestFirst ℚ) (threeAlike [49, 101, 50, 50]) :
      FuseCall (oneTuple 7 15) (Doubles.exact decimal Rounding.halfUp.toStr))].foldl FuseCall.run Ledger.empty
    ∃ value, s.store.tryRead [107] 0 9 = some value ∧ value.length = 30
      ∧ (BFTKVS.init : BFTKVS (oneTuple 7 15)).tryWrite 9 ⟨[107], 10, value⟩ = none := by
  have hread : ((([(FuseCall.median (FuseOrder.newestFirst ℚ) (threeAlike [49, 101, 50, 50]) :
      FuseCall (oneTuple 7 15) (Doubles.exact decimal Rounding.halfUp.toStr))].foldl FuseCall.run
        Ledger.empty).store.tryRead [107] 0 9).map List.length) = some 30 := by decide +kernel
  obtain ⟨value, hvalue, hlen⟩ := Option.map_eq_some_iff.mp hread
  refine ⟨value, hvalue, hlen, ?_⟩
  have htime : ¬(10 : Uint64) ≤ 9 := by decide
  simp [BFTKVS.tryWrite, htime, hlen]

/-! ## Unanimous proposals -/

/-- The last tuple of a node for a key and timestamp is its number, if it holds one. -/
theorem Doubles.vote_of_vote {F : Doubles} {n : EigNode P} {key : Str} {time : Uint64} {s : Str}
    {x : F.Double} (h : n.vote key time = some s) (hx : F.stod s = .ok x) : F.vote n key time = some x := by
  obtain ⟨w, hlast, rfl⟩ := Option.map_eq_some_iff.mp h
  obtain ⟨ws, hws⟩ := List.getLast?_eq_some_iff.mp hlast
  have hfilter : n.proposals.filterMap (fun w =>
      if w.key = key ∧ w.time = time then (F.stod w.value).toOption else none)
        = (n.proposals.filter fun w => w.key = key ∧ w.time = time).filterMap
            fun w => (F.stod w.value).toOption := by
    rw [List.filterMap_filter]
    simp only [decide_eq_true_eq]
  rw [Doubles.vote, hfilter, hws, List.filterMap_append, List.filterMap_cons_some (b := x) (by rw [hx]; rfl),
    List.filterMap_nil, List.getLast?_append]
  rfl

/-- The median of equal numbers is this number. -/
theorem median_of_forall_eq {stod : Str → Except StodError ℚ} {toStr : ℚ → Str} {values : List ℚ} {q : ℚ}
    (hlen : 3 ≤ values.length) (hall : ∀ v ∈ values, v = q) :
    (Doubles.exact stod toStr).median values = some (toStr q) := by
  obtain ⟨v, hv⟩ : ∃ v, (Doubles.exact stod toStr).median values = some v :=
    ⟨_, dif_neg (not_lt.mpr hlen)⟩
  have hbelow : values.countP (· < q) = 0 := List.countP_eq_zero.mpr fun v hv => by simp [hall v hv]
  have habove : values.countP (q < ·) = 0 := List.countP_eq_zero.mpr fun v hv => by simp [hall v hv]
  obtain ⟨r, hr, rfl⟩ := median_exact_mem_Icc hv q q (by omega) (by omega)
  rw [hv, le_antisymm hr.2 hr.1]

section Unanimous

variable {stod : Str → Except StodError ℚ} {R : Rounding} {o : FuseOrder ℚ} {nodes : List (EigNode P)}
  {st : Ledger} {key : Str} {time : Uint64} {s : Str} {q : ℚ}

/-- What is committed for unanimous proposals denotes their number exactly when six decimals are enough. -/
theorem unanimous_commit_iff (hnodes : 3 ≤ nodes.length) (hs : stod s = .ok q)
    (hall : ∀ n ∈ nodes, n.vote key time = some s) {st' : Ledger}
    (hrun : medianOfDoubles (Doubles.exact stod R.toStr) o nodes st = .ok st') :
    (∃ w ∈ st.madeSince st', w.key = key ∧ w.time = time ∧ denoted w.value = some q) ↔ Printable q := by
  have hvotes : (Doubles.exact stod R.toStr).votes nodes key time = nodes.map fun _ => q :=
    List.filterMap_eq_map_iff_forall_eq_some.mpr fun n hn => Doubles.vote_of_vote (hall n hn) hs
  have hperm := Doubles.visit_numbersOf_perm (F := Doubles.exact stod R.toStr) nodes (o.nodes key time) key time
  rw [hvotes] at hperm
  have hmedian : (Doubles.exact stod R.toStr).median (((o.nodes key time).visit
      ((Doubles.exact stod R.toStr).numbersOf nodes key time)).map Sigma.snd) = some (R.toStr q) := by
    refine median_of_forall_eq (by rw [hperm.length_eq, List.length_map]; exact hnodes) fun v hv => ?_
    obtain ⟨n, -, rfl⟩ := List.mem_map.mp (hperm.mem_iff.mp hv)
    rfl
  have hcommit : ∀ value, ⟨key, time, value⟩ ∈ st.madeSince st' ↔ value = R.toStr q := by
    intro value
    rw [(extends_medianOfDoubles hrun).madeSince_eq, mem_medianCommits, hmedian, Option.some.injEq, eq_comm]
  rw [← denoted_toStr_eq_iff R]
  constructor
  · rintro ⟨w, hw, rfl, rfl, hdenoted⟩
    rwa [← (hcommit w.value).mp hw]
  · exact fun hdenoted => ⟨⟨key, time, R.toStr q⟩, (hcommit _).mpr rfl, rfl, rfl, hdenoted⟩

/-- **When the median of unanimous proposals is the proposal.** At least three nodes all propose the
decimal string `s` for a key and a timestamp, and `std::stod` reads it as the number that it denotes. Then
`median_of_doubles` commits a string that denotes the same number exactly when no node holds a number out of
range, so that it returns, and six decimals are enough for the number. -/
theorem unanimous_median_iff (stod : Str → Except StodError ℚ) (R : Rounding) (o : FuseOrder ℚ) (st : Ledger)
    (hnodes : 3 ≤ nodes.length) (hs : denoted s = some q) (hstod : stod s = .ok q)
    (hall : ∀ n ∈ nodes, n.vote key time = some s) :
    (∃ st', medianOfDoubles (Doubles.exact stod R.toStr) o nodes st = .ok st'
        ∧ ∃ w ∈ st.madeSince st', w.key = key ∧ w.time = time ∧ denoted w.value = denoted s)
      ↔ (∀ n ∈ nodes, ∀ w ∈ n.proposals, stod w.value ≠ .error .outOfRange) ∧ Printable q := by
  rw [← medianOfDoubles_isOk_iff (F := Doubles.exact stod R.toStr) o nodes st, hs]
  cases hrun : medianOfDoubles (Doubles.exact stod R.toStr) o nodes st with
  | error e => exact ⟨nofun, fun h => absurd h.1 nofun⟩
  | ok st' =>
    rw [← unanimous_commit_iff hnodes hstod hall hrun]
    constructor
    · rintro ⟨st'', hst'', hcommit⟩
      obtain rfl := Except.ok.inj hst''
      exact ⟨rfl, hcommit⟩
    · exact fun h => ⟨st', rfl, h.2⟩

end Unanimous

/-- All of them propose 2.5. -/
theorem unanimous_median_twoAndAHalf :
    ∃ st', medianOfDoubles (Doubles.exact decimal Rounding.halfUp.toStr) (FuseOrder.newestFirst ℚ)
        (threeAlike [50, 46, 53]) Ledger.empty = .ok st'
      ∧ ∃ w ∈ Ledger.empty.madeSince st', w.key = [107] ∧ w.time = 5
        ∧ denoted w.value = denoted [50, 46, 53] := by
  have hs : denoted [50, 46, 53] = some (5 / 2) := by decide +kernel
  have hstod : decimal [50, 46, 53] = .ok (5 / 2) := by decide +kernel
  exact (unanimous_median_iff decimal Rounding.halfUp _ Ledger.empty le_rfl hs hstod
    (by decide +kernel)).mpr ⟨by decide +kernel, 2500000, by norm_num⟩

/-- All of them propose `0.0078125`, two to the power of minus seven. -/
theorem not_unanimous_median_powerOfTwo :
    denoted [48, 46, 48, 48, 55, 56, 49, 50, 53] = some (1 / 2 ^ 7)
      ∧ decimal [48, 46, 48, 48, 55, 56, 49, 50, 53] = .ok (1 / 2 ^ 7)
      ∧ (∀ n ∈ threeAlike [48, 46, 48, 48, 55, 56, 49, 50, 53],
          n.vote [107] 5 = some [48, 46, 48, 48, 55, 56, 49, 50, 53])
      ∧ ¬∃ st', medianOfDoubles (Doubles.exact decimal Rounding.halfUp.toStr) (FuseOrder.newestFirst ℚ)
          (threeAlike [48, 46, 48, 48, 55, 56, 49, 50, 53]) Ledger.empty = .ok st'
        ∧ ∃ w ∈ Ledger.empty.madeSince st', w.key = [107] ∧ w.time = 5
          ∧ denoted w.value = some (1 / 2 ^ 7) := by
  have hstod : decimal [48, 46, 48, 48, 55, 56, 49, 50, 53] = .ok (1 / 2 ^ 7) := by decide +kernel
  have hall : ∀ n ∈ threeAlike [48, 46, 48, 48, 55, 56, 49, 50, 53],
      n.vote [107] 5 = some [48, 46, 48, 48, 55, 56, 49, 50, 53] := by decide +kernel
  refine ⟨by decide +kernel, hstod, hall, ?_⟩
  rintro ⟨st', hrun, hcommit⟩
  obtain ⟨n, hn⟩ := (unanimous_commit_iff le_rfl hstod hall hrun).mp hcommit
  have htwice : (15625 : ℚ) = ((2 * n : ℤ) : ℚ) := by
    push_cast
    rw [← hn]
    norm_num
  have : (15625 : ℤ) = 2 * n := by exact_mod_cast htwice
  omega

end Achal
