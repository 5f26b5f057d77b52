import GraphiteMeter.Lib.Double
import GraphiteMeter.Lib.Machine
import GraphiteMeter.Lib.Tiling
import GraphiteMeter.Measure.Aggregate

/-!
# The run's timeline

Reference: `client/src/engine/run/schedule.ts`.

For each planned stage a warmup then its measured window, on the run's active clock. Times are doubles
in ms. `Timed` is what a run holds of it: the plan, the segments and the elapsed time at which its calls
come.
-/

namespace GraphiteMeter.Browser.Schedule

open GraphiteMeter.Measure (Stage Direction)
open Rounding (Double)

def stages : List Stage := [.latency, .download, .upload, .bidirectional]

/-- A length of time. -/
abbrev Length : Type := { ms : Double // 0 ≤ ms }

/-- The settings are whole numbers of ms. -/
def wholeMs (ms : ℕ) : Length := ⟨.near ms, Double.near_nonneg ms.cast_nonneg⟩

structure Duration where
  warmupMs : Length
  ms : Stage → Length

structure Plan where
  stages : Stage → Bool
  duration : Duration
  skipLoadedLatencyWhenStageOff : Bool

structure Activity where
  stage : Stage
  transfer : List Direction
  loadedLatency : Bool
deriving DecidableEq

inductive Phase where
  | warmup
  | window (stage : Stage)
deriving DecidableEq

structure Segment where
  phase : Phase
  start : Double
  end_ : Double
  activity : Activity
deriving DecidableEq

def Duration.of (duration : Duration) : Phase → Length
  | .warmup => duration.warmupMs
  | .window stage => duration.ms stage

/-- A stage runs when it is on and has time; 0 ms skips it. -/
def planned (plan : Plan) (stage : Stage) : Bool := plan.stages stage && 0 < (plan.duration.ms stage).val

def activities (plan : Plan) : List Activity :=
  (stages.filter (planned plan)).map fun stage =>
    { stage
      transfer := stage.directions
      loadedLatency :=
        stage ≠ .latency && (planned plan .latency || !plan.skipLoadedLatencyWhenStageOff) }

/-- Stages run in order, and a stage may be turned on or off until it begins. -/
def changeable (current : Option Stage) (stage : Stage) : Bool :=
  (current.elim (-1) fun current => (stages.idxOf current : ℤ)) < stages.idxOf stage

/-- Segments under construction: `cursor` is where the next one starts. -/
structure Draft where
  segments : List Segment
  cursor : Double

def Draft.push (d : Draft) (phase : Phase) (ms : Length) (activity : Activity) : Draft where
  segments := d.segments ++ [⟨phase, d.cursor, d.cursor + ms.val, activity⟩]
  cursor := d.cursor + ms.val

/-- The `push` of `timeline`, which leaves out what takes no time. -/
def Draft.pushTimed (d : Draft) (phase : Phase) (ms : Length) (activity : Activity) : Draft :=
  if 0 < ms.val then d.push phase ms activity else d

/-- The loop of `timeline`. -/
def lay (plan : Plan) (d : Draft) (activity : Activity) : Draft :=
  (d.pushTimed .warmup plan.duration.warmupMs activity).pushTimed (.window activity.stage)
    (plan.duration.ms activity.stage) activity

def timeline (plan : Plan) : List Segment :=
  ((activities plan).foldl (lay plan) ⟨[], 0⟩).segments

def segmentAt (segments : List Segment) (elapsed : Double) : Option Segment :=
  segments.find? fun segment => segment.start ≤ elapsed ∧ elapsed < segment.end_

/-- `active` of `replan`. -/
def running (segments : List Segment) (elapsed : Double) (between : Bool) : Option Segment :=
  if between then none else segmentAt segments elapsed

/-- What ran stays, and the running segment takes its new length. -/
def kept (segments : List Segment) (elapsed : Double) (plan : Plan) (between : Bool) : List Segment :=
  match running segments elapsed between with
  | some active =>
    segments.filter (·.start < active.start) ++
      [{ active with end_ := max elapsed (active.start + (plan.duration.of active.phase).val) }]
  | none => segments.filter (·.end_ ≤ elapsed)

/-- The loop of `replan`: a stage whose window began stays as it is, and a running warmup keeps its
activity, so the window reuses its connections and latency policy. -/
def follow (plan : Plan) (d : Draft) (next : Activity) : Draft :=
  if d.segments.any (·.phase = .window next.stage) then d
  else
    let warmup := d.segments.find? fun segment =>
      segment.phase = .warmup ∧ segment.activity.stage = next.stage
    let activity := (warmup.map (·.activity)).getD next
    let d := if warmup.isNone ∧ 0 < plan.duration.warmupMs.val
      then d.push .warmup plan.duration.warmupMs activity else d
    d.push (.window next.stage) (plan.duration.ms next.stage) activity

/-- The unfinished timeline under a changed plan. -/
def replan (segments : List Segment) (elapsed : Double) (plan : Plan) (between : Bool) : List Segment :=
  let kept := kept segments elapsed plan between
  ((activities plan).foldl (follow plan) ⟨kept, (kept.getLast?.map (·.end_)).getD 0⟩).segments

def Segment.moveBack (removed : Double) (segment : Segment) : Segment :=
  { segment with start := segment.start - removed, end_ := segment.end_ - removed }

/-- Where a segment that runs ends if it is cut at `elapsed`. -/
def Segment.boundary (active : Segment) (elapsed : Double) : Double :=
  min active.end_ (max active.start elapsed)

/-- Ends segment `i` at `elapsed` and moves the untouched tail forward by the time removed. -/
def truncate (segments : List Segment) (i : Fin segments.length) (elapsed : Double) : List Segment :=
  let active := segments[i]
  let boundary := active.boundary elapsed
  let removed := active.end_ - boundary
  segments.mapIdx fun j segment =>
    if j = i then { segment with end_ := boundary }
    else if active.end_ ≤ segment.start then segment.moveBack removed
    else segment

/-! ## Runs -/

structure Timed where
  plan : Plan
  segments : List Segment
  elapsed : Double

/-- Time passes, or the timeline is edited. -/
inductive Call where
  | pass (elapsed : Double)
  | replan (plan : Plan) (between : Bool)
  | truncate (i : ℕ)

namespace Timed

def new (plan : Plan) : Timed := ⟨plan, timeline plan, 0⟩

def call (t : Timed) : Call → Timed
  | .pass elapsed => { t with elapsed := max t.elapsed elapsed }
  | .replan plan between =>
    { t with plan, segments := Schedule.replan t.segments t.elapsed plan between }
  | .truncate i =>
    if h : i < t.segments.length
    then { t with segments := Schedule.truncate t.segments ⟨i, h⟩ t.elapsed } else t

/-- The stage of the running segment; the last one that ended where none runs. -/
def current (t : Timed) (between : Bool) : Option Stage :=
  match running t.segments t.elapsed between with
  | some active => some active.activity.stage
  | none => (t.segments.filter (·.end_ ≤ t.elapsed)).getLast?.map (·.activity.stage)

/-- Only what may still change is turned on or off. -/
def Allowed (t : Timed) : Call → Prop
  | .replan plan between => ∀ stage ∈ stages,
    changeable (t.current between) stage = false → planned plan stage = planned t.plan stage
  | _ => True

/-- No segment without length starts where the running one starts, and the time that a cut removes
before other segments is a double. -/
def Clear (t : Timed) : Call → Prop
  | .pass _ => True
  | .replan _ between => ∀ active ∈ running t.segments t.elapsed between,
    ∀ segment ∈ t.segments, segment.start = active.start → segment.start < segment.end_
  | .truncate i => ∀ active ∈ t.segments[i]?, i + 1 < t.segments.length →
    Double.Exact active.end_ (active.boundary t.elapsed)

instance decidableAllowed (t : Timed) : (call : Call) → Decidable (t.Allowed call)
  | .pass _ => isTrue trivial
  | .replan .. => inferInstanceAs (Decidable (∀ stage ∈ stages, _))
  | .truncate _ => isTrue trivial

instance decidableClear (t : Timed) : (call : Call) → Decidable (t.Clear call)
  | .pass _ => isTrue trivial
  | .replan .. => inferInstanceAs (Decidable (∀ active ∈ running _ _ _, _))
  | .truncate i => inferInstanceAs (Decidable (∀ active ∈ t.segments[i]?, _))

end Timed

end GraphiteMeter.Browser.Schedule
