import Inconcretes.Utils.PeriodicTimer
import Mathlib.Algebra.Order.Field.Basic
import Mathlib.Tactic.LinearCombination

/-!
# The controller of the inverted pendulum

A job of `IvPSim` reads its entries from the store, moves the plant on, lets the controller compute a force
from the angular position, and writes the entries back. The controller means to be a PID controller: it reads
the previous error and the integral from the entries `I:PE` and `I:I`, but assigns their new values to local
variables only. So both entries keep their first values (`Calls.memory`), and the forces are those of a PID
controller exactly when what is lost from the integral and what is lost from the derivative cancel
(`Calls.isPid_iff`).
-/

namespace Applications

open Achal Utils

/-- The keys of `state`, in their order. -/
inductive Entry
  | dAF | dAP | dAV | dCF | dCM | dCP | dCV | dG | dLF | dM | dPF | dRL | dTS | dTT
  | iI | iKD | iKI | iKP | iPE
  deriving DecidableEq

/-- The keys that the loops over `state` visit. -/
def Entry.all : List Entry :=
  [dAF, dAP, dAV, dCF, dCM, dCP, dCV, dG, dLF, dM, dPF, dRL, dTS, dTT, iI, iKD, iKI, iKP, iPE]

/-- Numbers and their texts. -/
structure Numbers (F V : Type) where
  toString : F → V
  /-- Without a result there is an exception. -/
  stod : V → Option F
  sin : F → F
  cos : F → F

/-- In exact arithmetic every number reads back from its text. -/
structure ExactNumbers (F V : Type) extends Numbers F V where
  stod_toString : ∀ x, stod (toString x) = some x

variable {F V : Type} [Field F]

/-- `NS_TO_SEC(t)`. -/
def nsToSec (t : Uint64) : F := t.val / 10 ^ 9

/-- `state` after the constructor. -/
def Numbers.initialState (N : Numbers F V) : Entry → V
  | .iPE => N.toString 0
  | .iI => N.toString 0
  | .iKP => N.toString 125
  | .iKI => N.toString 25
  | .iKD => N.toString 1
  | .dM => N.toString 1
  | .dCM => N.toString 10
  | .dRL => N.toString 1
  | .dG => N.toString (98 / 10)
  | .dLF => N.toString 0
  | .dAF => N.toString 1
  | .dCF => N.toString 0
  | .dPF => N.toString 0
  | .dAP => N.toString (1 / 10)
  | .dAV => N.toString 0
  | .dCP => N.toString 0
  | .dCV => N.toString 0
  | .dTS => N.toString (5 / 100)
  | .dTT => N.toString 0

/-! ## The plant -/

/-- What `integrateForwardRungeKutta4` reads. -/
structure Dynamics (F : Type) where
  m : F
  M : F
  l : F
  g : F
  fLin : F
  fAng : F
  cF : F
  pF : F
  aP : F
  aV : F
  cP : F
  cV : F

/-- The slopes `K`, `L`, `M` and `N` of a stage: of the angular position and velocity, and of the position and
velocity of the cart. -/
structure Slopes (F : Type) where
  K : F
  L : F
  M : F
  N : F

namespace Dynamics

variable (N : Numbers F V) (d : Dynamics F)

def read (state : Entry → V) : Option (Dynamics F) := do
  let m ← N.stod (state .dM)
  let M ← N.stod (state .dCM)
  let l ← N.stod (state .dRL)
  let g ← N.stod (state .dG)
  let fLin ← N.stod (state .dLF)
  let fAng ← N.stod (state .dAF)
  let cF ← N.stod (state .dCF)
  let pF ← N.stod (state .dPF)
  let aP ← N.stod (state .dAP)
  let aV ← N.stod (state .dAV)
  let cP ← N.stod (state .dCP)
  let cV ← N.stod (state .dCV)
  return { m, M, l, g, fLin, fAng, cF, pF, aP, aV, cP, cV }

/-- A stage with its force, angular position, angular velocity and velocity of the cart. -/
def slopes (force aP aV cV : F) : Slopes F where
  K := aV
  L := (force * N.cos aP - (d.M + d.m) * d.g * N.sin aP + d.m * d.l * N.cos aP * N.sin aP * aV ^ 2
    + d.fLin * N.cos aP * cV + (d.M + d.m) * d.fAng / d.m * aV)
      / (d.m * d.l * N.cos aP ^ 2 - (d.M + d.m) * d.l)
  M := cV
  N := (force + d.m * d.l * N.sin aP * aV ^ 2 - d.m * d.g * N.cos aP * N.sin aP + N.cos aP * d.fAng * aV)
    / (d.M + d.m - d.m * N.cos aP ^ 2)

/-- The stage behind another one, after a part of the time step. -/
def next (force h : F) (s : Slopes F) : Slopes F :=
  d.slopes N force (d.aP + h * s.K) (d.aV + h * s.L) (d.cV + h * s.N)

/-- The four stages for the time step `h`. -/
def stages (h : F) : Slopes F × Slopes F × Slopes F × Slopes F :=
  let s1 := d.slopes N d.pF d.aP d.aV d.cV
  let s2 := d.next N ((d.pF + d.cF) / 2) (h / 2) s1
  let s3 := d.next N ((d.pF + d.cF) / 2) (h / 2) s2
  let s4 := d.next N d.pF h s3
  (s1, s2, s3, s4)

/-- `1.0 / 6.0 * K1 + 2.0 / 6.0 * K2 + 2.0 / 6.0 * K3 + 1.0 / 6.0 * K4`. -/
def weigh (s : Slopes F × Slopes F × Slopes F × Slopes F) (slope : Slopes F → F) : F :=
  1 / 6 * slope s.1 + 2 / 6 * slope s.2.1 + 2 / 6 * slope s.2.2.1 + 1 / 6 * slope s.2.2.2

/-- `integrateForwardRungeKutta4()`. -/
def integrateForwardRungeKutta4 (state : Entry → V) : Option (Entry → V) := do
  let h ← N.stod (state .dTS)
  let d ← read N state
  let s := d.stages N h
  let state := Function.update state .dAP (N.toString (d.aP + h * weigh s Slopes.K))
  let state := Function.update state .dAV (N.toString (d.aV + h * weigh s Slopes.L))
  let state := Function.update state .dCP (N.toString (d.cP + h * weigh s Slopes.M))
  let state := Function.update state .dCV (N.toString (d.cV + h * weigh s Slopes.N))
  let state := Function.update state .dPF (state .dCF)
  let tt ← N.stod (state .dTT)
  let ts ← N.stod (state .dTS)
  return Function.update state .dTT (N.toString (tt + ts))

end Dynamics

/-! ## The controller -/

section Controller

variable [DecidableEq F] (N : Numbers F V) (timePeriodNs : Uint64)

/-- The time step of a call: the period when there is none. -/
def timeStep (dt : F) : F := if dt = 0 then nsToSec timePeriodNs else dt

/-- `compute_actr_cmds(dt)`. -/
def computeActrCmds (dt : F) (state : Entry → V) : Option (Entry → V) := do
  let dt := timeStep timePeriodNs dt
  let preError ← N.stod (state .iPE)
  let integral ← N.stod (state .iI)
  let kP ← N.stod (state .iKP)
  let kD ← N.stod (state .iKD)
  let kI ← N.stod (state .iKI)
  let aP ← N.stod (state .dAP)
  let error := aP - 0
  let pout := kP * error
  let integral := integral + error * dt
  let iout := kI * integral
  let derivative := (error - preError) / dt
  let dout := kD * derivative
  let force := pout + iout + dout
  -- `pre_error` and `integral` are local variables and end here
  return Function.update state .dCF (N.toString force)

end Controller

/-! ## A task -/

/-- The members of `IvPSim` that its jobs use. -/
structure IvPSim (F V : Type) where
  timePeriodNs : Uint64
  offsetNs : Uint64
  numJobs : ℕ
  state : Entry → V
  multiplier : F

/-- What a job gets from the clock, the store and the timer. -/
structure JobInput (V : Type) where
  publishingClock : Uint64
  publishedClock : Uint64
  /-- `value` after `try_read(key, published_time, value)`. -/
  tryRead : Entry → Uint64 → V → V
  lastInterArrivalNs : Uint64

namespace IvPSim

variable (N : Numbers F V)

/-- `IvPSim(…, time_period_ns, offset_ns, …)`. -/
def new (timePeriodNs offsetNs : Uint64) : Option (IvPSim F V) := do
  let ts ← N.stod (N.initialState .dTS)
  return {
    timePeriodNs, offsetNs
    numJobs := 0
    state := N.initialState
    multiplier := ts / nsToSec timePeriodNs }

variable (sim : IvPSim F V)

/-- `my_release_time()`. -/
def myReleaseTime (now : Uint64) : Uint64 := PeriodicTask.myReleaseTime ⟨sim.timePeriodNs, sim.offsetNs⟩ now

/-- `job()`, without its statistics, and the calls of `try_write` that it ends with. -/
def job [DecidableEq F] (i : JobInput V) : Option (IvPSim F V × List (Entry × Uint64 × V)) := do
  let publishingTime := sim.myReleaseTime i.publishingClock + sim.timePeriodNs
  let publishedTime := sim.myReleaseTime i.publishedClock - sim.timePeriodNs
  let state := if sim.numJobs = 0 then sim.state else fun e => i.tryRead e publishedTime (sim.state e)
  let state ← Dynamics.integrateForwardRungeKutta4 N state
  -- the logged `angular_positions[num_jobs]`
  let _ ← N.stod (state .dAP)
  let state ← computeActrCmds N sim.timePeriodNs (nsToSec i.lastInterArrivalNs * sim.multiplier) state
  return ({ sim with numJobs := sim.numJobs + 1, state }, Entry.all.map fun e => (e, publishingTime, state e))

end IvPSim

/-! ## Runs of calls -/

/-- What a call reads, and the force that it writes. -/
structure Call (F : Type) where
  error : F
  dt : F
  kP : F
  kI : F
  kD : F
  force : F

namespace Call

/-- The call of `compute_actr_cmds(dt)` that turns one state into another. -/
structure Turns [DecidableEq F] (N : Numbers F V) (timePeriodNs : Uint64) (dt : F) (state : Entry → V)
    (c : Call F) (state' : Entry → V) : Prop where
  computes : computeActrCmds N timePeriodNs dt state = some state'
  dt_eq : c.dt = timeStep timePeriodNs dt
  error : N.stod (state .dAP) = some c.error
  kP : N.stod (state .iKP) = some c.kP
  kI : N.stod (state .iKI) = some c.kI
  kD : N.stod (state .iKD) = some c.kD
  force : N.stod (state' .dCF) = some c.force

/-- `e_1 * dt_1 + … + e_n * dt_n`. -/
def integral (calls : List (Call F)) : F := (calls.map fun c => c.error * c.dt).sum

/-- `e_n`, and 0 for no calls. -/
def lastError (calls : List (Call F)) : F := calls.getLast?.elim 0 error

/-- The force of a PID controller after some calls. -/
def pidForce (earlier : List (Call F)) (c : Call F) : F :=
  c.kP * c.error + c.kI * (integral (earlier ++ [c])) + c.kD * ((c.error - lastError earlier) / c.dt)

/-- Every call writes the force of a PID controller. -/
def IsPid (calls : List (Call F)) : Prop :=
  ∀ earlier c, earlier ++ [c] <+: calls → c.force = pidForce earlier c

end Call

/-- Two states with the same previous error and integral. -/
def SameMemory (state state' : Entry → V) : Prop := state' .iPE = state .iPE ∧ state' .iI = state .iI

/-- The runs of calls with positive time steps. Between the calls everything may change but the entries `I:PE`
and `I:I`. -/
inductive Calls [LinearOrder F] (N : Numbers F V) (timePeriodNs : Uint64) :
    List (Call F) → (Entry → V) → Prop
  | new {state : Entry → V} (hstate : SameMemory N.initialState state) : Calls N timePeriodNs [] state
  | call {calls : List (Call F)} {dt : F} {state state' state'' : Entry → V} {c : Call F}
    (h : Calls N timePeriodNs calls state) (hc : c.Turns N timePeriodNs dt state state') (hdt : 0 < c.dt)
    (hstate : SameMemory state' state'') : Calls N timePeriodNs (calls ++ [c]) state''

/-! ## What a call remembers -/

section Memory

variable [LinearOrder F] {N : ExactNumbers F V} {timePeriodNs : Uint64}

/-- A call that returns has read its gains and the angular position. -/
theorem exists_turns {dt : F} {state state' : Entry → V}
    (h : computeActrCmds N.toNumbers timePeriodNs dt state = some state') :
    ∃ c : Call F, c.Turns N.toNumbers timePeriodNs dt state state' := by
  have hcomputes := h
  simp only [computeActrCmds, Option.bind_eq_bind, Option.bind_eq_some_iff] at h
  obtain ⟨preError, -, integral, -, kP, hkP, kD, hkD, kI, hkI, aP, haP, hstate⟩ := h
  obtain rfl := Option.some.inj hstate
  exact ⟨⟨aP, timeStep timePeriodNs dt, kP, kI, kD, _⟩, hcomputes, rfl, haP, hkP, hkI, hkD,
    (congrArg N.stod (Function.update_self ..)).trans (N.stod_toString _)⟩

namespace Call.Turns

variable {dt : F} {state state' : Entry → V} {c : Call F} (h : c.Turns N.toNumbers timePeriodNs dt state state')

include h

/-- The force of a call, from the previous error and the integral that it reads. -/
theorem force_eq {preError integral : F} (hpre : N.stod (state .iPE) = some preError)
    (hintegral : N.stod (state .iI) = some integral) :
    c.force = c.kP * c.error + c.kI * (integral + c.error * c.dt) + c.kD * ((c.error - preError) / c.dt) := by
  have hcomputes := h.computes
  rw [computeActrCmds, hpre, hintegral, h.kP, h.kD, h.kI, h.error, ← h.dt_eq] at hcomputes
  have hforce := h.force
  rw [← Option.some.inj hcomputes, Function.update_self, N.stod_toString] at hforce
  rw [← Option.some.inj hforce, sub_zero]

/-- A call writes neither the previous error nor the integral. -/
theorem sameMemory : SameMemory state state' := by
  have hcomputes := h.computes
  simp only [computeActrCmds, Option.bind_eq_bind, Option.bind_eq_some_iff] at hcomputes
  obtain ⟨_, -, _, -, _, -, _, -, _, -, _, -, hstate⟩ := hcomputes
  obtain rfl := Option.some.inj hstate
  exact ⟨rfl, rfl⟩

end Call.Turns

/-- The entries `I:PE` and `I:I` keep their first values. -/
theorem Calls.memory {calls : List (Call F)} {state : Entry → V}
    (h : Calls N.toNumbers timePeriodNs calls state) :
    N.stod (state .iPE) = some 0 ∧ N.stod (state .iI) = some 0 := by
  induction h with
  | new hstate =>
    rw [hstate.1, hstate.2]
    exact ⟨N.stod_toString 0, N.stod_toString 0⟩
  | call _ hc _ hstate ih =>
    rw [hstate.1, hstate.2, hc.sameMemory.1, hc.sameMemory.2]
    exact ih

end Memory

/-! ## When the controller is a PID controller -/

namespace Calls

variable [LinearOrder F] {N : ExactNumbers F V} {timePeriodNs : Uint64} {calls : List (Call F)}
  {state : Entry → V}

/-- Every call computes its force from its own error alone. -/
theorem force_eq (h : Calls N.toNumbers timePeriodNs calls state) {c : Call F} (hc : c ∈ calls) :
    c.force = c.kP * c.error + c.kI * (c.error * c.dt) + c.kD * (c.error / c.dt) := by
  induction h with
  | new => exact absurd hc List.not_mem_nil
  | call h hlast _ _ ih =>
    rcases List.mem_append.mp hc with hc | hc
    · exact ih hc
    · obtain rfl := List.mem_singleton.mp hc
      rw [hlast.force_eq h.memory.1 h.memory.2, zero_add, sub_zero]

/-- **When the controller is a PID controller.** At each call the gain of the integral times the integral of
the earlier errors is the gain of the derivative times the last error, divided by the time step. -/
theorem isPid_iff (h : Calls N.toNumbers timePeriodNs calls state) :
    Call.IsPid calls ↔ ∀ earlier c, earlier ++ [c] <+: calls →
      c.kI * Call.integral earlier = c.kD * (Call.lastError earlier / c.dt) := by
  refine forall_congr' fun earlier => forall_congr' fun c => imp_congr_right fun hprefix => ?_
  have hintegral : Call.integral (earlier ++ [c]) = Call.integral earlier + c.error * c.dt := by
    simp [Call.integral]
  have hmem : c ∈ calls := hprefix.subset (List.mem_append_right _ List.mem_cons_self)
  rw [h.force_eq hmem, Call.pidForce, hintegral, sub_div]
  constructor
  · intro hforce
    linear_combination -hforce
  · intro hlost
    linear_combination -hlost

end Calls

/-- Every rational is its own text, and the angles are small. -/
def rationals : ExactNumbers ℚ ℚ where
  toString x := x
  stod := some
  sin x := x
  cos _ := 1
  stod_toString _ := rfl

/-- A call of a new controller that finds the pendulum where it was at first. -/
def firstPosition (dt : ℚ) : Call ℚ :=
  ⟨1 / 10, dt, 125, 25, 1, 125 * (1 / 10) + 25 * (1 / 10 * dt) + 1 / 10 / dt⟩

theorem turns_firstPosition {dt : ℚ} (hdt : dt ≠ 0) (state : Entry → ℚ)
    (hstate : ∀ e ≠ Entry.dCF, state e = rationals.initialState e) :
    (firstPosition dt).Turns rationals.toNumbers 1 dt state
      (Function.update state .dCF (firstPosition dt).force) where
  computes := by
    simp [computeActrCmds, timeStep, hdt, hstate, rationals, Numbers.initialState, firstPosition]
  dt_eq := (if_neg hdt).symm
  error := congrArg some (hstate .dAP nofun)
  kP := congrArg some (hstate .iKP nofun)
  kI := congrArg some (hstate .iKI nofun)
  kD := congrArg some (hstate .iKD nofun)
  force := congrArg some (Function.update_self ..)

/-- Two calls, both with the pendulum in its first position. -/
theorem calls_firstPosition {dt : ℚ} (hdt : 0 < dt) :
    ∃ state, Calls rationals.toNumbers 1 [firstPosition dt, firstPosition dt] state := by
  have hfirst := turns_firstPosition hdt.ne' rationals.initialState fun _ _ => rfl
  have hsecond := turns_firstPosition hdt.ne'
    (Function.update rationals.initialState .dCF (firstPosition dt).force)
    fun e he => Function.update_of_ne he ..
  exact ⟨_, .call (.call (.new ⟨rfl, rfl⟩) hfirst hdt ⟨rfl, rfl⟩) hsecond hdt ⟨rfl, rfl⟩⟩

/-- With time steps of 0.2 s the losses cancel. -/
theorem isPid_fifthSecond : Call.IsPid [firstPosition (1 / 5), firstPosition (1 / 5)] := by
  obtain ⟨state, h⟩ := calls_firstPosition (show (0 : ℚ) < 1 / 5 by norm_num)
  refine h.isPid_iff.mpr fun earlier c hprefix => ?_
  obtain ⟨rfl, rfl⟩ | ⟨rfl, rfl⟩ : (earlier = [] ∧ c = firstPosition (1 / 5))
      ∨ (earlier = [firstPosition (1 / 5)] ∧ c = firstPosition (1 / 5)) := by
    match earlier, hprefix with
    | [], h => simpa using h
    | [_], h => simpa using h
    | _ :: _ :: _, h => simp at h
  · simp [Call.integral, Call.lastError]
  · norm_num [Call.integral, Call.lastError, firstPosition]

/-- With time steps of 1 s the second force is 15.1 instead of 17.5. -/
theorem not_isPid_oneSecond : ∃ calls state, Calls rationals.toNumbers 1 calls state ∧ ¬Call.IsPid calls := by
  obtain ⟨state, h⟩ := calls_firstPosition one_pos
  refine ⟨_, state, h, fun hpid => ?_⟩
  have hforce := hpid [firstPosition 1] (firstPosition 1) List.prefix_rfl
  norm_num [Call.pidForce, Call.integral, Call.lastError, firstPosition] at hforce

/-! ## Runs of jobs -/

/-- The plant is moved on without the entries of the controller. -/
theorem Dynamics.sameMemory {N : Numbers F V} {state state' : Entry → V}
    (h : Dynamics.integrateForwardRungeKutta4 N state = some state') : SameMemory state state' := by
  simp only [Dynamics.integrateForwardRungeKutta4, Option.bind_eq_bind, Option.bind_eq_some_iff] at h
  obtain ⟨_, -, d, -, tt, -, ts, -, hstate⟩ := h
  obtain rfl := Option.some.inj hstate
  exact ⟨rfl, rfl⟩

theorem SameMemory.trans {s s' s'' : Entry → V} (h : SameMemory s s') (h' : SameMemory s' s'') :
    SameMemory s s'' := ⟨h'.1.trans h.1, h'.2.trans h.2⟩

section Jobs

variable [LinearOrder F] {N : ExactNumbers F V} {timePeriodNs : Uint64}

theorem Calls.others {calls : List (Call F)} {state state' : Entry → V}
    (h : Calls N.toNumbers timePeriodNs calls state) (hstate : SameMemory state state') :
    Calls N.toNumbers timePeriodNs calls state' := by
  cases h with
  | new hnew => exact .new (hnew.trans hstate)
  | call h hc hdt hcall => exact .call h hc hdt (hcall.trans hstate)

namespace IvPSim

/-- A job is one call, in a state with the entries of the last job, when they come back from the store. -/
theorem job_spec {sim sim' : IvPSim F V} {i : JobInput V} {writes : List (Entry × Uint64 × V)}
    (h : sim.job N.toNumbers i = some (sim', writes)) (hstore : ∀ time value, i.tryRead .iPE time value = value
      ∧ i.tryRead .iI time value = value) :
    (∃ state c, SameMemory sim.state state
        ∧ Call.Turns N.toNumbers sim.timePeriodNs (nsToSec i.lastInterArrivalNs * sim.multiplier) state c
          sim'.state)
      ∧ sim'.timePeriodNs = sim.timePeriodNs ∧ sim'.multiplier = sim.multiplier := by
  simp only [job, Option.bind_eq_bind, Option.bind_eq_some_iff] at h
  obtain ⟨moved, hmoved, _, -, state', hstate', hsim⟩ := h
  obtain ⟨rfl, -⟩ := Prod.mk.inj (Option.some.inj hsim)
  obtain ⟨c, hc⟩ := exists_turns hstate'
  refine ⟨⟨moved, c, SameMemory.trans ?_ (Dynamics.sameMemory hmoved), hc⟩, rfl, rfl⟩
  split
  · exact ⟨rfl, rfl⟩
  · exact ⟨(hstore _ _).1, (hstore _ _).2⟩

/-- The jobs of a task, one after the other. -/
def jobs (N : Numbers F V) (sim : IvPSim F V) (inputs : List (JobInput V)) : Option (IvPSim F V) :=
  inputs.foldlM (fun sim i => (sim.job N i).map Prod.fst) sim

variable [IsStrictOrderedRing F]

theorem nsToSec_pos {t : Uint64} (h : 0 < t) : (0 : F) < nsToSec t :=
  div_pos (Nat.cast_pos.mpr h) (by positivity)

/-- A new task. -/
theorem new_spec {offsetNs : Uint64} {sim : IvPSim F V} (h : new N.toNumbers timePeriodNs offsetNs = some sim)
    (hperiod : 0 < timePeriodNs) :
    0 < sim.multiplier ∧ sim.timePeriodNs = timePeriodNs ∧ sim.state = N.initialState := by
  rw [new, Numbers.initialState, N.stod_toString] at h
  rw [← Option.some.inj h]
  exact ⟨div_pos (by norm_num) (nsToSec_pos hperiod), rfl, rfl⟩

theorem timeStep_pos (hperiod : 0 < timePeriodNs) {multiplier : F} (hmultiplier : 0 < multiplier)
    (interArrivalNs : Uint64) : 0 < timeStep timePeriodNs (nsToSec interArrivalNs * multiplier) := by
  rw [timeStep]
  split
  · exact nsToSec_pos hperiod
  · rename_i hne
    rcases Nat.eq_zero_or_pos interArrivalNs.val with hzero | hpos
    · refine absurd ?_ hne
      rw [nsToSec, hzero, Nat.cast_zero, zero_div, zero_mul]
    · exact mul_pos (nsToSec_pos hpos) hmultiplier

/-- **Jobs are calls.** The jobs of a task make a run of calls, when its entries come back from the store. -/
theorem calls_of_jobs {offsetNs : Uint64} {sim sim' : IvPSim F V} (hperiod : 0 < timePeriodNs)
    (hnew : new N.toNumbers timePeriodNs offsetNs = some sim) {inputs : List (JobInput V)}
    (hjobs : sim.jobs N.toNumbers inputs = some sim') (hstore : ∀ i ∈ inputs, ∀ time value,
      i.tryRead .iPE time value = value ∧ i.tryRead .iI time value = value) :
    ∃ calls, Calls N.toNumbers timePeriodNs calls sim'.state ∧ calls.length = inputs.length := by
  obtain ⟨hpos, htimePeriod, hinitial⟩ := new_spec hnew hperiod
  suffices h : (∃ calls, Calls N.toNumbers timePeriodNs calls sim'.state ∧ calls.length = inputs.length)
      ∧ sim'.timePeriodNs = timePeriodNs ∧ sim'.multiplier = sim.multiplier from h.1
  induction inputs using List.reverseRecOn generalizing sim' with
  | nil =>
    obtain rfl := Option.some.inj hjobs
    exact ⟨⟨[], .new (hinitial ▸ ⟨rfl, rfl⟩), rfl⟩, htimePeriod, rfl⟩
  | append_singleton inputs i ih =>
    rw [jobs, List.foldlM_append] at hjobs
    obtain ⟨sim₁, hsim₁, hlast⟩ := Option.bind_eq_some_iff.mp hjobs
    obtain ⟨sim₂, hstep, heq⟩ := Option.bind_eq_some_iff.mp hlast
    obtain rfl := Option.some.inj heq
    obtain ⟨⟨sim₂, writes⟩, hjob, rfl⟩ := Option.map_eq_some_iff.mp hstep
    obtain ⟨⟨calls, hcalls, hlength⟩, htimePeriod₁, hmultiplier₁⟩ :=
      ih hsim₁ fun i hi => hstore i (List.mem_append_left _ hi)
    obtain ⟨⟨state, c, hstate, hc⟩, htimePeriod₂, hmultiplier₂⟩ :=
      job_spec hjob (hstore i (List.mem_append_right _ List.mem_cons_self))
    rw [htimePeriod₁] at hc
    have hdt : 0 < c.dt := by
      rw [hc.dt_eq, hmultiplier₁]
      exact timeStep_pos hperiod hpos _
    refine ⟨⟨calls ++ [c], .call (hcalls.others hstate) hc hdt ⟨rfl, rfl⟩, ?_⟩,
      htimePeriod₂.trans htimePeriod₁, hmultiplier₂.trans hmultiplier₁⟩
    rw [List.length_append, List.length_append, hlength]
    rfl

end IvPSim

end Jobs

end Applications
