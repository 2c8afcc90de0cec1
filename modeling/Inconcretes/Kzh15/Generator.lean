import Inconcretes.Kzh15.Config
import Inconcretes.Lib.Draws
import Inconcretes.Lib.OrderedMap

/-!
# The benchmark generator

The constructor of `BenchmarkInstance` makes runnables, groups them into tasks, makes labels and maps them
to runnables. Each function below is the member function of its name, with the seeded generators replaced
by a stream of draws. A run without a result is one that the code does not survive: a failed assertion, an
iterator at the end that is dereferenced, a distribution over an empty range, or a retry loop that does
not end.
-/

namespace KZH15

open Std Drawing OrderedMap

variable {D : Type} [Floating D] [DecidableLT D] [DecidableLE D]

/-- `US_TO_MS(t)`. -/
def usToMs (t : D) : D := t / (1000 : ℤ)

/-- `kMaxUtilPerCPU`. -/
def kMaxUtilPerCPU : D := (1 : ℤ) / (2 : ℤ)

/-- `get_angle_sync_period_range()`. -/
def getAngleSyncPeriodRange : Range ℤ :=
  let minNumCylinders := 4
  let maxNumCylinders := 8
  let typicalMinRpm := 2000
  let typicalMaxRpm := 3000
  ⟨120 * 1000 / (typicalMaxRpm * maxNumCylinders), 120 * 1000 / (typicalMinRpm * minNumCylinders)⟩

/-- `get_min_period_ms(period_ms)`. -/
def getMinPeriodMs (periodMs : ℤ) : ℤ := if periodMs > 0 then periodMs else getAngleSyncPeriodRange.min

/-! ## Runnables -/

/-- `uni_int_dist(gen) * config.scale_factor`, for runnables and for labels. -/
def estimateTotalNumber (count : Range ℤ) (scaleFactor : D) : Drawing D ℤ := do
  let n ← int count.min count.max
  return Floating.trunc ((n : D) * scaleFactor)

/-- `Runnable(id, period_ms)`. -/
def Runnable.new (id periodMs : ℤ) : Runnable D :=
  { id, periodMs, acetUs := (0 : ℤ), bcetUs := (0 : ℤ), wcetUs := (0 : ℤ) }

/-- One iteration of `generate_runnable_instances(max)`, with `idx` and `counter`. -/
def generateRunnable (cfg : Config D) (max : ℤ) (s : ℕ × D × List (Runnable D)) (i : ℕ) :
    Option (ℕ × D × List (Runnable D)) := do
  let (idx, counter, runnables) := s
  let p ← cfg.periodsMs[idx]?
  let runnables := runnables ++ [Runnable.new i p]
  let counter := counter + (1 : ℤ)
  return if cfg.runnablesCfg.periodShares.getD p (0 : ℤ) ≤ counter * (100 : ℤ) / (max : D)
    then (idx + 1, ((0 : ℤ) : D), runnables) else (idx, counter, runnables)

/-- `generate_runnable_instances(max)`. -/
def generateRunnableInstances (cfg : Config D) (max : ℤ) : Option (List (Runnable D)) := do
  let (_, _, runnables) ← (List.range max.toNat).foldlM (generateRunnable cfg max) (0, (0 : ℤ), [])
  return runnables

/-- `generate_runnable_acets_bcets_and_wcets()`. -/
def generateRunnableAcetsBcetsAndWcets (cfg : Config D) (runnables : List (Runnable D)) :
    Drawing D (List (Runnable D)) := do
  let profile (p : ℤ) := cfg.runnablesCfg.execTimeProfiles.getD p (ExecTimeProfile.default D)
  let betaDistsForAcet ← cfg.periodsMs.foldlM
    (fun dists p => do
      let et := profile p
      let alpha : D := (2 : ℤ)
      let beta := (et.acetMaxUs - et.acetAvgUs) / (et.acetAvgUs - et.acetMinUs) * alpha
      let dist ← Floating.beta alpha beta
      return dists.insert p dist) (∅ : TreeMap ℤ (Floating.Beta D))
  runnables.mapM fun r => do
    let et := profile r.periodMs
    let rand ← real (0 : ℤ) (1 : ℤ)
    let dist ← betaDistsForAcet[r.periodMs]?
    let acet ← Floating.quantile dist rand
    let acet := acet * (et.acetMaxUs - et.acetMinUs) + et.acetMinUs
    let bcetFactor ← real et.bcetFMin et.bcetFMax
    let wcetFactor ← real et.wcetFMin et.wcetFMax
    return { r with acetUs := acet, bcetUs := acet * bcetFactor, wcetUs := acet * wcetFactor }

/-! ## Tasks -/

/-- `get_utilization()`. -/
def Task.getUtilization (t : Task D) : D := usToMs t.wcetUs / (getMinPeriodMs t.periodMs : D)

/-- `does_runnable_fit(r)`. -/
def Task.doesRunnableFit (t : Task D) (r : Runnable D) : Bool :=
  t.runnables.isEmpty
    || decide (usToMs (t.wcetUs + r.wcetUs) ≤ kMaxUtilPerCPU * (getMinPeriodMs t.periodMs : D))

/-- `add_runnable(r)`, where `r` is at position `ptr`. -/
def Task.addRunnable (t : Task D) (ptr : ℕ) (r : Runnable D) : Task D :=
  { t with
    runnables := t.runnables ++ [ptr]
    acetUs := t.acetUs + r.acetUs
    bcetUs := t.bcetUs + r.bcetUs
    wcetUs := t.wcetUs + r.wcetUs }

/-- `Task(id, period_ms)`. -/
def Task.new (id periodMs : ℤ) : Task D :=
  { id, periodMs, acetUs := (0 : ℤ), bcetUs := (0 : ℤ), wcetUs := (0 : ℤ) }

/-- One iteration over the runnables for the period `p`. The task `t` is the last one, once there is one,
and its number is the number of tasks before it. -/
def mergeRunnable (p : ℤ) (s : Option (Task D) × List (Task D)) (x : Runnable D × ℕ) :
    Option (Task D) × List (Task D) :=
  let (t, tasks) := s
  let (r, ptr) := x
  if r.periodMs ≠ p then (t, tasks)
  else match t with
    | none => (some ((Task.new tasks.length p).addRunnable ptr r), tasks)
    | some t =>
      if t.doesRunnableFit r then (some (t.addRunnable ptr r), tasks)
      else (some ((Task.new (tasks.length + 1) p).addRunnable ptr r), tasks ++ [t])

/-- The tasks of the period `p`, behind the tasks so far. -/
def mergePeriod (runnables : List (Runnable D)) (tasks : List (Task D)) (p : ℤ) : List (Task D) :=
  let (t, tasks) := runnables.zipIdx.foldl (mergeRunnable p) (none, tasks)
  tasks ++ t.toList

/-- `generate_task_instances_from_runnables()`. -/
def generateTaskInstancesFromRunnables (cfg : Config D) (mergeRunnables : Bool)
    (runnables : List (Runnable D)) : List (Task D) :=
  if mergeRunnables then cfg.periodsMs.foldl (mergePeriod runnables) []
  else runnables.zipIdx.map fun x => (Task.new x.2 x.1.periodMs).addRunnable x.2 x.1

/-! ## Labels -/

/-- The first entry at which the shares add up to more than `rand`. -/
def entryOfShare {κ : Type} (rand : D) : D → List (κ × D) → Option κ
  | _, [] => none
  | cumulativeShare, (k, share) :: entries =>
    let cumulativeShare := cumulativeShare + share
    if rand < cumulativeShare then some k else entryOfShare rand cumulativeShare entries

/-- The message type of a label. The variable `mtype` keeps its value where it is not set. -/
def drawMessageType (cfg : Config D) (type : LabelType) (mtype : MessageType) : Drawing D MessageType :=
  if type = .readWrite then do
    let rand2 ← real (0 : ℤ) (100 : ℤ)
    entryOfShare rand2 (0 : ℤ) cfg.msgsCfg.typePartition.toList
  else pure mtype

/-- One iteration of `generate_label_instances(max)`. -/
def generateLabel (cfg : Config D) (s : MessageType × List Label) (i : ℕ) :
    Drawing D (MessageType × List Label) := do
  let (mtype, labels) := s
  let rand ← real (0 : ℤ) (100 : ℤ)
  let size ← entryOfShare rand (0 : ℤ) cfg.labelsCfg.sizeShares.toList
  let type ← entryOfShare rand (0 : ℤ) cfg.labelsCfg.typePartition.toList
  let mtype ← drawMessageType cfg type mtype
  return (mtype, labels ++ [{ id := i, sizeBytes := size.max, type, mtype }])

/-- `generate_label_instances(max)`. Nothing initializes `mtype`. -/
def generateLabelInstances (cfg : Config D) (mtype : MessageType) (max : ℤ) :
    Drawing D (List Label) := do
  let (_, labels) ← (List.range max.toNat).foldlM (generateLabel cfg) (mtype, [])
  return labels

/-- `push_back(l)` on a list of the runnable at `ptr`. -/
def addLabel (runnables : List (Runnable D)) (ptr : ℕ) (lid : ℤ) (a : Access) : List (Runnable D) :=
  runnables.modify ptr fun r => { r with toLabelLists := r.toLabelLists.push lid a }

/-- `r->id`. -/
def idAt (runnables : List (Runnable D)) (ptr : ℕ) : ℤ := (runnables[ptr]?).elim 0 Runnable.id

/-- The label gets a reader. -/
def Label.addReader (l : Label) (ptr : ℕ) : Label := { l with readers := l.readers ++ [ptr] }

/-- The label gets a writer. -/
def Label.addWriter (l : Label) (ptr : ℕ) : Label := { l with writers := l.writers ++ [ptr] }

/-- One iteration of `map_labels_to_runnables()`. -/
def mapLabel (tasks : List (Task D)) (s : List (Runnable D) × List Label) (l : Label) :
    Drawing D (List (Runnable D) × List Label) := do
  let (runnables, labels) := s
  match l.type, l.mtype with
  | .readOnly, _ =>
    let r ← pick (List.range runnables.length)
    return (addLabel runnables r l.id .roRead, labels ++ [l.addReader r])
  | .writeOnly, _ =>
    let r ← pick (List.range runnables.length)
    return (addLabel runnables r l.id .woWritten, labels ++ [l.addWriter r])
  | .readWrite, .interTask => return (runnables, labels ++ [l])
  | .readWrite, mtype =>
    let t ← pickUntil tasks fun t => 2 ≤ t.runnables.length
    let r1 ← pick t.runnables
    let r2 ← pickUntil t.runnables fun r2 => idAt runnables r1 ≠ idAt runnables r2
    let (r1, r2) := if idAt runnables r2 < idAt runnables r1 then (r2, r1) else (r1, r2)
    return if mtype = .intraTaskFwd then
      (addLabel (addLabel runnables r1 l.id .rwIntraTaskWritten) r2 l.id .rwIntraTaskRead,
        labels ++ [(l.addWriter r1).addReader r2])
    else
      (addLabel (addLabel runnables r1 l.id .rwIntraTaskRead) r2 l.id .rwIntraTaskWritten,
        labels ++ [(l.addReader r1).addWriter r2])

/-- `map_labels_to_runnables()`. -/
def mapLabelsToRunnables (tasks : List (Task D)) (runnables : List (Runnable D)) (labels : List Label) :
    Drawing D (List (Runnable D) × List Label) :=
  labels.foldlM (mapLabel tasks) (runnables, [])

/-- A read-write label between tasks. -/
def Label.IsInterTask (l : Label) : Prop := l.type = .readWrite ∧ l.mtype = .interTask

instance (l : Label) : Decidable l.IsInterTask := inferInstanceAs (Decidable (_ ∧ _))

/-- The loop that gives every label between tasks a volume type. -/
def assignVolumeTypes (cfg : InterTaskMessagesConfig) (labels : List Label) : Drawing D (List Label) :=
  let volumeTypes := (cfg.volumeTypes.insertIfNew .I ⟨0, 0⟩).insertIfNew .VI ⟨0, 0⟩
  labels.mapM fun l =>
    if l.IsInterTask then do
      let rand ← int (volumeTypes.getD .I ⟨0, 0⟩).min (volumeTypes.getD .VI ⟨0, 0⟩).max
      let it ← volumeTypes.toList.find? fun e => e.2.min ≤ rand ∧ rand ≤ e.2.max
      pure { l with mvtype := it.1 }
    else pure l

/-- `reverse_dist`. -/
def reverseDist (cfg : Config D) : Option (TreeMap MessageVolumeType (List (Range ℤ))) :=
  (cfg.periodsMs ×ˢ cfg.periodsMs).foldlM
    (fun m p => do
      let row ← cfg.msgsCfg.interTaskMsgsCfg.dist[p.1]?
      let mvtype ← row[p.2]?
      return pushBack m mvtype ⟨p.1, p.2⟩) ∅

/-- `p_to_r`. -/
def periodToRunnables (runnables : List (Runnable D)) : TreeMap ℤ (List ℕ) :=
  runnables.zipIdx.foldl (fun m x => pushBack m x.1.periodMs x.2) ∅

/-- One iteration of the loop that maps the labels between tasks. -/
def mapInterTaskMsg (reverseDist : TreeMap MessageVolumeType (List (Range ℤ)))
    (pToR : TreeMap ℤ (List ℕ)) (s : List (Runnable D) × List Label × TreeSet ℤ) (l : Label) :
    Drawing D (List (Runnable D) × List Label × TreeSet ℤ) := do
  let (runnables, labels, labelsToBeDeleted) := s
  if l.IsInterTask then
    let p ← pick (reverseDist.getD l.mvtype [])
    match pToR[p.min]?, pToR[p.max]? with
    | some senders, some receivers =>
      if p.min = p.max ∧ senders.length < 2 then
        return (runnables, labels ++ [l], labelsToBeDeleted.insert l.id)
      else
        let r1 ← pick senders
        let r2 ← pickUntil receivers fun r2 => idAt runnables r1 ≠ idAt runnables r2
        return (addLabel (addLabel runnables r1 l.id .rwInterTaskWritten) r2 l.id .rwInterTaskRead,
          labels ++ [(l.addWriter r1).addReader r2], labelsToBeDeleted)
    | _, _ => return (runnables, labels ++ [l], labelsToBeDeleted.insert l.id)
  else return (runnables, labels ++ [l], labelsToBeDeleted)

/-- `map_inter_task_msgs_to_runnables()`. -/
def mapInterTaskMsgsToRunnables (cfg : Config D) (runnables : List (Runnable D)) (labels : List Label) :
    Drawing D (List (Runnable D) × List Label) := do
  let labels ← assignVolumeTypes cfg.msgsCfg.interTaskMsgsCfg labels
  let reverseDist ← reverseDist cfg
  let (runnables, labels, labelsToBeDeleted) ←
    labels.foldlM (mapInterTaskMsg reverseDist (periodToRunnables runnables)) (runnables, [], ∅)
  return (runnables, labels.filter fun l => !labelsToBeDeleted.contains l.id)

/-- `BenchmarkInstance(config, logger, merge_runnables)`. -/
def BenchmarkInstance.new (cfg : Config D) (mergeRunnables : Bool) (mtype : MessageType) :
    Drawing D (BenchmarkInstance D) := do
  let numRunnables ← estimateTotalNumber cfg.runnablesCfg.count cfg.scaleFactor
  let runnables ← generateRunnableInstances cfg numRunnables
  let runnables ← generateRunnableAcetsBcetsAndWcets cfg runnables
  let tasks := generateTaskInstancesFromRunnables cfg mergeRunnables runnables
  let numLabels ← estimateTotalNumber cfg.labelsCfg.count cfg.scaleFactor
  let labels ← generateLabelInstances cfg mtype numLabels
  let (runnables, labels) ← mapLabelsToRunnables tasks runnables labels
  let (runnables, labels) ← mapInterTaskMsgsToRunnables cfg runnables labels
  return ⟨runnables, tasks, labels⟩

end KZH15
