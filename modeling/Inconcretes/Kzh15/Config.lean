import Mathlib.Data.Rat.Floor
import Std.Data.TreeMap.Lemmas

/-!
# Configurations and instances of the benchmark generator

The generator follows the tables of a `Config`: how many runnables and labels there are, how they share
periods, sizes and kinds, and between which periods messages flow. An instance is a graph of runnables,
tasks and labels that point to each other. A runnable stays at its position in `runnables`, so a `Runnable*`
is this position, and a `Label*` is the number of the label, which is its `id`.

The doubles are a parameter: `Floating` has the operations in use and no laws.
-/

namespace KZH15

open Std

/-- The operations on `double`, and Boost's beta distribution. -/
class Floating (D : Type) extends Add D, Sub D, Mul D, Div D, IntCast D, LT D, LE D where
  /-- The conversion to `int`. -/
  trunc : D → ℤ
  Beta : Type
  /-- Without a result the parameters are rejected. -/
  beta : D → D → Option Beta
  quantile : Beta → D → Option D

/-- Doubles without rounding, with a uniform distribution in place of the beta distributions. -/
instance : Floating ℚ where
  trunc q := if 0 ≤ q then q.floor else q.ceil
  Beta := Unit
  beta _ _ := some ()
  quantile _ q := some q

inductive LabelType
  | readOnly | writeOnly | readWrite
  deriving DecidableEq, Ord

inductive MessageType
  | intraTaskFwd | intraTaskBwd | interTask
  deriving DecidableEq, Ord

inductive MessageVolumeType
  | none | I | II | III | IV | V | VI
  deriving DecidableEq, Ord

/-- `Range<T>`, with its order. -/
structure Range (T : Type) where
  min : T
  max : T
  deriving DecidableEq, Ord

variable (D : Type)

structure ExecTimeProfile where
  acetMinUs : D
  acetAvgUs : D
  acetMaxUs : D
  bcetFMin : D
  bcetFMax : D
  wcetFMin : D
  wcetFMax : D

/-- `ExecTimeProfile()`. -/
def ExecTimeProfile.default [IntCast D] : ExecTimeProfile D :=
  ⟨(0 : ℤ), (0 : ℤ), (0 : ℤ), (1 : ℤ), (1 : ℤ), (1 : ℤ), (1 : ℤ)⟩

structure RunnablesConfig where
  count : Range ℤ
  periodShares : TreeMap ℤ D
  execTimeProfiles : TreeMap ℤ (ExecTimeProfile D)

structure LabelsConfig where
  count : Range ℤ
  sizeShares : TreeMap (Range ℤ) D
  typePartition : TreeMap LabelType D

structure InterTaskMessagesConfig where
  volumeTypes : TreeMap MessageVolumeType (Range ℤ)
  /-- The volume type of a sending and a receiving period. -/
  dist : TreeMap ℤ (TreeMap ℤ MessageVolumeType)

structure MessagesConfig where
  typePartition : TreeMap MessageType D
  interTaskMsgsCfg : InterTaskMessagesConfig

structure Config where
  scaleFactor : D
  periodsMs : List ℤ
  labelsCfg : LabelsConfig D
  msgsCfg : MessagesConfig D
  runnablesCfg : RunnablesConfig D

/-! ## Instances -/

/-- The six lists of labels that a runnable has. -/
inductive Access
  | roRead | woWritten | rwIntraTaskRead | rwIntraTaskWritten | rwInterTaskRead | rwInterTaskWritten
  deriving DecidableEq

structure LabelLists where
  roLabelsRead : List ℤ := []
  woLabelsWritten : List ℤ := []
  rwIntraTaskLabelsRead : List ℤ := []
  rwIntraTaskLabelsWritten : List ℤ := []
  rwInterTaskLabelsRead : List ℤ := []
  rwInterTaskLabelsWritten : List ℤ := []
  deriving DecidableEq

namespace LabelLists

def labels (ls : LabelLists) : Access → List ℤ
  | .roRead => ls.roLabelsRead
  | .woWritten => ls.woLabelsWritten
  | .rwIntraTaskRead => ls.rwIntraTaskLabelsRead
  | .rwIntraTaskWritten => ls.rwIntraTaskLabelsWritten
  | .rwInterTaskRead => ls.rwInterTaskLabelsRead
  | .rwInterTaskWritten => ls.rwInterTaskLabelsWritten

/-- `push_back` on one of the lists. -/
def push (ls : LabelLists) (lid : ℤ) : Access → LabelLists
  | .roRead => { ls with roLabelsRead := ls.roLabelsRead ++ [lid] }
  | .woWritten => { ls with woLabelsWritten := ls.woLabelsWritten ++ [lid] }
  | .rwIntraTaskRead => { ls with rwIntraTaskLabelsRead := ls.rwIntraTaskLabelsRead ++ [lid] }
  | .rwIntraTaskWritten => { ls with rwIntraTaskLabelsWritten := ls.rwIntraTaskLabelsWritten ++ [lid] }
  | .rwInterTaskRead => { ls with rwInterTaskLabelsRead := ls.rwInterTaskLabelsRead ++ [lid] }
  | .rwInterTaskWritten => { ls with rwInterTaskLabelsWritten := ls.rwInterTaskLabelsWritten ++ [lid] }

theorem labels_push (ls : LabelLists) (lid : ℤ) (a a' : Access) :
    (ls.push lid a).labels a' = ls.labels a' ++ if a = a' then [lid] else [] := by
  cases a <;> cases a' <;> simp [push, labels]

end LabelLists

structure Runnable extends LabelLists where
  id : ℤ
  periodMs : ℤ
  acetUs : D
  bcetUs : D
  wcetUs : D

structure Task where
  id : ℤ
  periodMs : ℤ
  acetUs : D
  bcetUs : D
  wcetUs : D
  runnables : List ℕ := []

structure Label where
  id : ℤ
  sizeBytes : ℤ
  type : LabelType
  mtype : MessageType
  mvtype : MessageVolumeType := .none
  readers : List ℕ := []
  writers : List ℕ := []
  deriving DecidableEq

structure BenchmarkInstance where
  runnables : List (Runnable D)
  tasks : List (Task D)
  labels : List Label

end KZH15
