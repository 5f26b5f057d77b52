import GraphiteMeter.Browser.SeriesFit

/-!
# The two series

Reference: `client/src/app/series.ts`.

Latency buckets fold by phase in one lane, throughput samples by stage with a lane for each direction.
-/

namespace GraphiteMeter.Browser.Series

open GraphiteMeter.Measure (Stage Direction)
open GraphiteMeter.Measure.Browser.Buckets (LatencyBucket revisionMs)
open Packing (Bin)

abbrev Phase : Type := Measure.Browser.Buckets.Phase

/-! ## Latency -/

/-- The median of replies in order, each with its successes: where what was `seen` reaches half of them,
and the midpoint where it is exactly half. -/
def middle (half : ℚ) : ℤ → List (ℚ × ℤ) → Option ℚ
  | _, [] => none
  | seen, (median, successes) :: replies =>
    let seen := seen + successes
    if half ≤ seen then
      let upper := if seen = half then replies.head?.map Prod.fst else none
      some ((median + upper.getD median) / 2)
    else middle half seen replies

/-- A merged bucket keeps the success-weighted median and the worst tail. -/
def mergeLatency (bin : Bin LatencyBucket) : LatencyBucket :=
  let replies : List (ℚ × ℤ) := (bin.toList.filterMap fun b =>
    b.medianRttMs.map fun median => (median, (b.pingCount : ℤ) - b.timeoutCount)).mergeSort
      fun a b => a.1 ≤ b.1
  let successes := (replies.map Prod.snd).sum
  { bin.first with
    endT := bin.last.endT
    medianRttMs := middle (successes / 2) 0 replies
    minRttMs := (bin.toList.filterMap (·.minRttMs)).min?
    p95RttMs := (bin.toList.filterMap (·.p95RttMs)).max?
    maxRttMs := (bin.toList.filterMap (·.maxRttMs)).max?
    pingCount := (bin.toList.map (·.pingCount)).sum
    timeoutCount := (bin.toList.map (·.timeoutCount)).sum }

/-- A reconnect's line break stays while its buckets are whole; folded history joins across it. -/
def latencyKind : Kind LatencyBucket Phase Unit where
  revisableMs := revisionMs
  group bucket := bucket.phase
  lane _ := ()
  joins _ _ := true
  at_ bucket := bucket.startT
  start bucket := bucket.startT
  end_ bucket := bucket.endT
  merge bin start end_ :=
    { mergeLatency bin with
      startT := max bin.first.startT start
      endT := min bin.last.endT end_
      continuityId := bin.last.continuityId }

/-- One past the last index below `n` where `p` fails, going back from `n`. -/
def back (p : ℕ → Bool) : ℕ → ℕ
  | 0 => 0
  | n + 1 => if p n then back p n else n + 1

namespace BucketSeries

/-- In start order, or in the place of its earlier version on the same line. -/
def insert (history : List LatencyBucket) (bucket : LatencyBucket) : List LatencyBucket :=
  let same (other : LatencyBucket) :=
    other.phase = bucket.phase ∧ other.continuityId = bucket.continuityId
  let at_ := back (fun j => history[j]?.any fun other => bucket.startT < other.startT) history.length
  let i := back (fun j => history[j]?.any fun other => other.startT = bucket.startT ∧ ¬ same other) at_
  if 0 < i ∧ history[i - 1]?.any (·.startT = bucket.startT) then
    history.set (i - 1) bucket
  else history.insertIdx at_ bucket

def upsert (limit : ℚ) (folded : Folded LatencyBucket Phase) (bucket : LatencyBucket) :
    Folded LatencyBucket Phase :=
  latencyKind.fit limit { folded with items := insert folded.items bucket }

end BucketSeries

/-! ## Throughput -/

structure ThroughputSample where
  t : ℚ
  bytesPerSec : ℚ
  /-- Unique measured bytes of the run so far. -/
  bytesCumulative : ℕ
  dir : Direction
  stage : Stage
  continuityId : ℕ
  /-- The live ticks a sample stands for, from `t0` to `t1`; a folded one holds their mean time and
  rate. -/
  ticks : ℕ
  t0 : ℚ
  t1 : ℚ
deriving DecidableEq

def mergeThroughput (bin : Bin ThroughputSample) : ThroughputSample :=
  let ticks : ℕ := (bin.toList.map (·.ticks)).sum
  { bin.last with
    t := (bin.toList.map fun sample => sample.t * (sample.ticks : ℚ)).sum / ticks
    t0 := bin.first.t0
    bytesPerSec := (bin.toList.map fun sample => sample.bytesPerSec * (sample.ticks : ℚ)).sum / ticks
    ticks }

def throughputKind : Kind ThroughputSample Stage Direction where
  revisableMs := 0
  group sample := sample.stage
  lane sample := sample.dir
  joins last next := last.continuityId = next.continuityId
  at_ sample := sample.t
  start sample := sample.t0
  end_ sample := sample.t1
  merge bin _ _ := mergeThroughput bin

/-- What a live sample gives for a direction: the run appends it as one tick. -/
structure Live where
  t : ℚ
  bytesPerSec : ℚ
  bytesCumulative : ℕ
  dir : Direction
  stage : Stage
  continuityId : ℕ

def Live.sample (live : Live) : ThroughputSample :=
  { live with ticks := 1, t0 := live.t, t1 := live.t }

namespace ThroughputSeries

/-- Where below `n` the equal-time tail holds the same line's sample. -/
def sameLine (history : List ThroughputSample) (sample : ThroughputSample) : ℕ → Option ℕ
  | 0 => none
  | i + 1 =>
    match history[i]? with
    | none => none
    | some other =>
      if other.t = sample.t then
        if other.stage = sample.stage ∧ other.dir = sample.dir
            ∧ other.continuityId = sample.continuityId then some i
        else sameLine history sample i
      else none

/-- At the end, or in the place of one of the same line at the same time. -/
def insert (history : List ThroughputSample) (sample : ThroughputSample) : List ThroughputSample :=
  match sameLine history sample history.length with
  | some i => history.set i sample
  | none => history ++ [sample]

def append (limit : ℚ) (folded : Folded ThroughputSample Stage) (live : Live) :
    Folded ThroughputSample Stage :=
  throughputKind.fit limit { folded with items := insert folded.items live.sample }

end ThroughputSeries

end GraphiteMeter.Browser.Series
