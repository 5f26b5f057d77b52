import Mathlib.Data.Finset.Sort
import GraphiteMeter.Browser.SeriesSamples
import GraphiteMeter.Lib.Moments

/-!
# A stage's trace

Reference: `StageTrace` and `ThroughputSeries.append` of `client/src/app/series.ts`.

A trace keeps a transfer stage's samples in constant size: its times, its newest rates, and what Peak
and Stability need of its whole seconds. A sample that replaces one of the same line at the same time
takes the other's place. The series folds its items and the trace does not read them, but for the one
that is replaced.

`standing` are the samples that none replaced. What a trace shows is what they show, second by second
(`Traced`). A coefficient of variation is a root, so its square stands for it.
-/

namespace GraphiteMeter.Browser.Series

open GraphiteMeter.Measure (Stage Direction Dir)

/-- The rates of a second in one direction. -/
structure Lane where
  sum : ℚ
  n : ℤ

structure StageTrace where
  first : ℚ
  last : ℚ
  count : ℕ
  latest : Dir ℚ
  second : ℤ
  lanes : Dir Lane
  seconds : Moments ℚ
  peak : ℚ

/-- `stability` reads from the square of the coefficient of variation. -/
structure Shape where
  peak : ℚ
  variation : Option ℚ
deriving DecidableEq

namespace StageTrace

def new (t : ℚ) : StageTrace :=
  ⟨t, t, 0, ⟨0, 0⟩, 0, ⟨⟨0, 0⟩, ⟨0, 0⟩⟩, .fresh, 0⟩

def Lane.mean (lane : Lane) : ℚ := if lane.n ≠ 0 then lane.sum / lane.n else 0

/-- The rate of the second that is open. -/
def current (tr : StageTrace) : Option ℚ :=
  if tr.lanes.down.n = 0 ∧ tr.lanes.up.n = 0 then none
  else some (Lane.mean tr.lanes.down + Lane.mean tr.lanes.up)

def secondOf (first t : ℚ) : ℤ := ⌊(t - first) / 1000⌋

/-- The open second's rate counts. -/
def counted (tr : StageTrace) : StageTrace :=
  match tr.current with
  | some rate => { tr with seconds := tr.seconds.add rate, peak := max tr.peak rate }
  | none => tr

/-- A new second begins, and the one before counts. -/
def begin_ (tr : StageTrace) (second : ℤ) : StageTrace :=
  { tr.counted with lanes := ⟨⟨0, 0⟩, ⟨0, 0⟩⟩, second }

/-- The sample counts in its direction, in the place of another's rate if it replaces it. -/
def take (tr : StageTrace) (sample : ThroughputSample) (replaced : Option ThroughputSample) :
    StageTrace :=
  let lane := tr.lanes.get sample.dir
  let lane : Lane := match replaced with
    | some other => ⟨lane.sum - other.bytesPerSec, lane.n - 1⟩
    | none => lane
  { tr with
    count := if replaced.isSome then tr.count else tr.count + 1
    lanes := tr.lanes.set sample.dir ⟨lane.sum + sample.bytesPerSec, lane.n + 1⟩
    last := sample.t
    latest := tr.latest.set sample.dir sample.bytesPerSec }

def add (tr : StageTrace) (sample : ThroughputSample) (replaced : Option ThroughputSample) :
    StageTrace :=
  let second := secondOf tr.first sample.t
  (if tr.second < second then tr.begin_ second else tr).take sample replaced

def shape (tr : StageTrace) : Option Shape :=
  let seconds := tr.counted.seconds
  if seconds.count = 0 then none
  else
    let variation := if 0 < seconds.mean then seconds.squares / (seconds.count : ℚ) / seconds.mean ^ 2 else 1
    some ⟨max tr.peak (tr.current.getD 0), if 2 ≤ seconds.count then some variation else none⟩

end StageTrace

/-! ## The series and its traces -/

structure ThroughputSeries where
  folded : Folded ThroughputSample Stage
  traces : Stage → Option StageTrace

namespace ThroughputSeries

def empty : ThroughputSeries := ⟨.empty, fun _ => none⟩

/-- The sample of the same line at the same time. -/
def replaced (history : List ThroughputSample) (sample : ThroughputSample) : Option ThroughputSample :=
  (sameLine history sample history.length).bind (history[·]?)

/-- Appends a sample, replacing one of the same line at the same time. -/
def record (limit : ℚ) (s : ThroughputSeries) (live : Live) : ThroughputSeries where
  folded := append limit s.folded live
  traces := Function.update s.traces live.stage
    (some (((s.traces live.stage).getD (.new live.t)).add live.sample
      (replaced s.folded.items live.sample)))

def recordAll (limit : ℚ) (lives : List Live) : ThroughputSeries := lives.foldl (record limit) empty

end ThroughputSeries

/-! ## The samples that stand -/

/-- A sample's line and time. -/
def Live.place (live : Live) : ℚ × Stage × Direction × ℕ :=
  (live.t, live.stage, live.dir, live.continuityId)

/-- Without those that a later one replaced. -/
def standing (lives : List Live) : List Live :=
  lives.foldl (fun l live => l.filter (fun x => x.place ≠ live.place) ++ [live]) []

def meanRate (l : List Live) : ℚ :=
  if l = [] then 0 else (l.map (·.bytesPerSec)).sum / l.length

/-- The rate of samples of one second: the mean of each direction that has any. -/
def secondRate (l : List Live) : ℚ :=
  meanRate (l.filter fun x => x.dir = .down) + meanRate (l.filter fun x => x.dir = .up)

def inSecond (first : ℚ) (l : List Live) (k : ℤ) : List Live :=
  l.filter fun x => StageTrace.secondOf first x.t = k

/-- The whole seconds that have samples, in order. -/
def secondsOf (first : ℚ) (l : List Live) : List ℤ :=
  (l.map fun x => StageTrace.secondOf first x.t).toFinset.sort (· ≤ ·)

/-- Each second's rate. -/
def secondRates (first : ℚ) (l : List Live) : List ℚ :=
  (secondsOf first l).map fun k => secondRate (inSecond first l k)

/-- What the rates of whole seconds show. -/
def shapeOf (rates : List ℚ) : Shape where
  peak := rates.foldl max 0
  variation :=
    if 2 ≤ rates.length then
      let mean := rates.sum / rates.length
      some (if 0 < mean then (rates.map fun x => (x - mean) ^ 2).sum / rates.length / mean ^ 2 else 1)
    else none

end GraphiteMeter.Browser.Series
