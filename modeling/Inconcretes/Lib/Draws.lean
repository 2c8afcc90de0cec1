import Mathlib.Algebra.Order.Ring.Int
import Mathlib.Data.List.Induction

/-!
# Computations on a stream of random draws

A computation takes its random numbers from the front of a stream. It has no result when a number is
outside of the range it is drawn from, when the stream ends before the computation does, and when it fails
by itself. `Yields` is partial correctness over all streams, with one rule for each way to build a
computation. `Allows` is its counterpart: some draws lead to a result with the property, whatever stands
behind them on the stream. Drawing until a candidate is accepted is a recursion on the stream (`pickUntil`).
-/

/-- The numbers still to be drawn. -/
structure Draws (D : Type) where
  ints : List ℤ
  reals : List D

/-- The numbers of `d`, and then those of `e`. -/
def Draws.append {D : Type} (d e : Draws D) : Draws D := ⟨d.ints ++ e.ints, d.reals ++ e.reals⟩

theorem Draws.append_assoc {D : Type} (d e f : Draws D) : (d.append e).append f = d.append (e.append f) := by
  simp only [append, List.append_assoc]

/-- A computation that draws. -/
abbrev Drawing (D α : Type) := StateT (Draws D) Option α

namespace Drawing

variable {D α β : Type}

/-- A number between `lo` and `hi`. -/
def int (lo hi : ℤ) : Drawing D ℤ := fun d =>
  match d.ints with
  | [] => none
  | x :: rest => if lo ≤ x ∧ x ≤ hi then some (x, { d with ints := rest }) else none

/-- A real number between `lo` and `hi`. -/
def real [LE D] [DecidableLE D] (lo hi : D) : Drawing D D := fun d =>
  match d.reals with
  | [] => none
  | x :: rest => if lo ≤ x ∧ x ≤ hi then some (x, { d with reals := rest }) else none

/-- The entry of `xs` at a drawn position. -/
def pick (xs : List α) : Drawing D α := do
  let i ← int 0 (xs.length - 1)
  (xs[i.toNat]? : Option α)

/-- Positions of `xs` are drawn until the entry there is accepted. -/
def firstAccepted (xs : List α) (accept : α → Bool) : List ℤ → Option (α × List ℤ)
  | [] => none
  | i :: rest =>
    if 0 ≤ i ∧ i ≤ xs.length - 1 then
      match xs[i.toNat]? with
      | none => none
      | some a => if accept a then some (a, rest) else firstAccepted xs accept rest
    else none

/-- The first accepted entry of `xs` at a drawn position. -/
def pickUntil (xs : List α) (accept : α → Bool) : Drawing D α := fun d =>
  (firstAccepted xs accept d.ints).map fun r => (r.1, { d with ints := r.2 })

/-! ## Partial correctness -/

/-- Whatever is drawn, a result has the property. -/
def Yields (m : Drawing D α) (P : α → Prop) : Prop := ∀ d r, m d = some r → P r.1

theorem yields_pure {P : α → Prop} {a : α} (h : P a) : (pure a : Drawing D α).Yields P := by
  intro d r hr
  obtain rfl := Option.some.inj hr
  exact h

theorem Yields.mono {m : Drawing D α} {P Q : α → Prop} (h : m.Yields P) (hPQ : ∀ a, P a → Q a) :
    m.Yields Q := fun d r hr => hPQ _ (h d r hr)

theorem Yields.and {m : Drawing D α} {P Q : α → Prop} (hP : m.Yields P) (hQ : m.Yields Q) :
    m.Yields fun a => P a ∧ Q a := fun d r hr => ⟨hP d r hr, hQ d r hr⟩

theorem Yields.bind {m : Drawing D α} {f : α → Drawing D β} {P : α → Prop} {Q : β → Prop}
    (hm : m.Yields P) (hf : ∀ a, P a → (f a).Yields Q) : (m >>= f).Yields Q := by
  intro d r hr
  obtain ⟨⟨a, d'⟩, ha, hb⟩ := Option.bind_eq_some_iff.mp hr
  exact hf a (hm d _ ha) d' r hb

theorem yields_lift {o : Option α} {P : α → Prop} (h : ∀ a, o = some a → P a) :
    (liftM o : Drawing D α).Yields P := by
  intro d r hr
  obtain ⟨a, ha, hb⟩ := Option.bind_eq_some_iff.mp hr
  obtain rfl := Option.some.inj hb
  exact h a ha

theorem yields_any (m : Drawing D α) : m.Yields fun _ => True := fun _ _ _ => trivial

theorem yields_int {lo hi : ℤ} : (int lo hi : Drawing D ℤ).Yields fun n => lo ≤ n ∧ n ≤ hi := by
  intro d r hr
  rw [int] at hr
  split at hr
  · cases hr
  · split_ifs at hr with hrange
    obtain rfl := Option.some.inj hr
    exact hrange

theorem yields_pick {xs : List α} : (pick xs : Drawing D α).Yields (· ∈ xs) :=
  Yields.bind (yields_any _) fun _ _ => yields_lift fun _ ha => List.mem_of_getElem? ha

theorem mem_of_firstAccepted {xs : List α} {accept : α → Bool} {is : List ℤ} {r : α × List ℤ}
    (h : firstAccepted xs accept is = some r) : r.1 ∈ xs ∧ accept r.1 := by
  fun_induction firstAccepted xs accept is with
  | case1 => exact absurd h nofun
  | case2 => exact absurd h nofun
  | case3 i rest hrange a ha haccept =>
    obtain rfl := Option.some.inj h
    exact ⟨List.mem_of_getElem? ha, haccept⟩
  | case4 i rest hrange a ha haccept ih => exact ih h
  | case5 => exact absurd h nofun

theorem yields_pickUntil {xs : List α} {accept : α → Bool} :
    (pickUntil xs accept : Drawing D α).Yields fun a => a ∈ xs ∧ accept a := by
  intro d r hr
  obtain ⟨r', hr', rfl⟩ := Option.map_eq_some_iff.mp hr
  exact mem_of_firstAccepted hr'

/-- A loop: `I done` holds after the entries `done`. -/
theorem yields_foldlM {f : β → α → Drawing D β} {xs : List α} {b : β} (I : List α → β → Prop)
    (hstart : I [] b)
    (hstep : ∀ done x rest b, xs = done ++ x :: rest → I done b → (f b x).Yields (I (done ++ [x]))) :
    (xs.foldlM f b).Yields (I xs) := by
  suffices h : ∀ rest done b, xs = done ++ rest → I done b → (rest.foldlM f b).Yields (I xs) from
    h xs [] b rfl hstart
  intro rest
  induction rest with
  | nil =>
    intro done b hsplit hI
    rw [List.append_nil] at hsplit
    exact yields_pure (hsplit ▸ hI)
  | cons x rest ih =>
    intro done b hsplit hI
    rw [List.foldlM_cons]
    exact (hstep done x rest b hsplit hI).bind fun b' hI' => ih (done ++ [x]) b' (by simp [hsplit]) hI'

theorem yields_mapM {f : α → Drawing D β} {xs : List α} {R : α → β → Prop}
    (h : ∀ x ∈ xs, (f x).Yields (R x)) : (xs.mapM f).Yields (List.Forall₂ R xs) := by
  induction xs with
  | nil => exact yields_pure .nil
  | cons x xs ih =>
    obtain ⟨hx, hxs⟩ := List.forall_mem_cons.mp h
    rw [List.mapM_cons]
    exact hx.bind fun y hy => (ih hxs).bind fun ys hys => yields_pure (.cons hy hys)

/-! ## Possible results -/

/-- Some draws lead to a result with the property, and to the stream behind them. -/
def Allows (m : Drawing D α) (P : α → Prop) : Prop :=
  ∃ (drawn : Draws D) (a : α), P a ∧ ∀ rest, m (drawn.append rest) = some (a, rest)

theorem Allows.mono {m : Drawing D α} {P Q : α → Prop} (h : m.Allows P) (hPQ : ∀ a, P a → Q a) :
    m.Allows Q := by
  obtain ⟨drawn, a, ha, hrun⟩ := h
  exact ⟨drawn, a, hPQ a ha, hrun⟩

theorem Allows.and_yields {m : Drawing D α} {P Q : α → Prop} (h : m.Allows P) (hQ : m.Yields Q) :
    ∃ a, P a ∧ Q a := by
  obtain ⟨drawn, a, ha, hrun⟩ := h
  exact ⟨a, ha, hQ _ _ (hrun ⟨[], []⟩)⟩

theorem allows_pure {P : α → Prop} {a : α} (h : P a) : (pure a : Drawing D α).Allows P :=
  ⟨⟨[], []⟩, a, h, fun _ => rfl⟩

theorem Allows.bind {m : Drawing D α} {f : α → Drawing D β} {P : α → Prop} {Q : β → Prop}
    (hm : m.Allows P) (hf : ∀ a, P a → (f a).Allows Q) : (m >>= f).Allows Q := by
  obtain ⟨drawn, a, ha, hrun⟩ := hm
  obtain ⟨drawn', b, hb, hrun'⟩ := hf a ha
  refine ⟨drawn.append drawn', b, hb, fun rest => ?_⟩
  rw [Draws.append_assoc]
  show (m (drawn.append (drawn'.append rest))).bind (fun r => f r.1 r.2) = _
  rw [hrun, Option.bind_some, hrun']

theorem allows_lift {o : Option α} {P : α → Prop} {a : α} (h : o = some a) (ha : P a) :
    (liftM o : Drawing D α).Allows P := ⟨⟨[], []⟩, a, ha, fun _ => by rw [h]; rfl⟩

theorem allows_int {lo hi x : ℤ} (hlo : lo ≤ x) (hhi : x ≤ hi) : (int lo hi : Drawing D ℤ).Allows (· = x) :=
  ⟨⟨[x], []⟩, x, rfl, fun _ => if_pos ⟨hlo, hhi⟩⟩

theorem allows_pick {xs : List α} {a : α} (ha : a ∈ xs) : (pick xs : Drawing D α).Allows (· = a) := by
  obtain ⟨i, hi⟩ := List.mem_iff_getElem?.mp ha
  have hlt := (List.getElem?_eq_some_iff.mp hi).1
  refine (allows_int (Int.natCast_nonneg i) (by omega)).bind fun x hx => allows_lift ?_ rfl
  rw [hx, Int.toNat_natCast, hi]

theorem allows_pickUntil {xs : List α} {accept : α → Bool} {a : α} (ha : a ∈ xs) (haccept : accept a = true) :
    (pickUntil xs accept : Drawing D α).Allows (· = a) := by
  obtain ⟨i, hi⟩ := List.mem_iff_getElem?.mp ha
  have hlt := (List.getElem?_eq_some_iff.mp hi).1
  have hrange : 0 ≤ (i : ℤ) ∧ (i : ℤ) ≤ xs.length - 1 := ⟨by omega, by omega⟩
  refine ⟨⟨[i], []⟩, a, rfl, fun rest => ?_⟩
  show (firstAccepted xs accept (i :: rest.ints)).map _ = _
  simp only [firstAccepted, if_pos hrange, Int.toNat_natCast, hi, haccept, if_true, Option.map_some]
  rfl

/-- A loop: `I done` can hold after the entries `done`. -/
theorem allows_foldlM {f : β → α → Drawing D β} {xs : List α} {b : β} (I : List α → β → Prop)
    (hstart : I [] b)
    (hstep : ∀ done x rest b, xs = done ++ x :: rest → I done b → (f b x).Allows (I (done ++ [x]))) :
    (xs.foldlM f b).Allows (I xs) := by
  suffices h : ∀ rest done b, xs = done ++ rest → I done b → (rest.foldlM f b).Allows (I xs) from
    h xs [] b rfl hstart
  intro rest
  induction rest with
  | nil =>
    intro done b hsplit hI
    rw [List.append_nil] at hsplit
    exact allows_pure (hsplit ▸ hI)
  | cons x rest ih =>
    intro done b hsplit hI
    rw [List.foldlM_cons]
    exact (hstep done x rest b hsplit hI).bind fun b' hI' => ih (done ++ [x]) b' (by simp [hsplit]) hI'

theorem allows_mapM {f : α → Drawing D β} {xs : List α} {R : α → β → Prop}
    (h : ∀ x ∈ xs, (f x).Allows (R x)) : (xs.mapM f).Allows (List.Forall₂ R xs) := by
  induction xs with
  | nil => exact allows_pure .nil
  | cons x xs ih =>
    obtain ⟨hx, hxs⟩ := List.forall_mem_cons.mp h
    rw [List.mapM_cons]
    exact hx.bind fun y hy => (ih hxs).bind fun ys hys => allows_pure (.cons hy hys)

end Drawing
