import Mathlib.Data.Nat.Log
import GraphiteMeter.Lib.HashMap
import GraphiteMeter.Lib.OrderStatistic
import GraphiteMeter.Lib.PartitionPoint
import GraphiteMeter.Measure.Browser.Buckets

/-!
# A stage's outcomes in the browser

Reference: `client/src/engine/measure/latency.ts` (`Population`).

Times are exact rationals, `none` where the source has a number that is not finite. The sorted values
are the first `held` of the buffer that backs them; the merge writes into the same buffer while it has
room. The merge's three indexes are one past the source's, so that they end at zero.
-/

namespace GraphiteMeter.Measure.Browser

structure LatencySummary where
  /-- Sample count, mean raw RTT and mean handling time of the replies with a handling time. -/
  reflectorTiming : Option (ℕ × ℚ × ℚ)
  accountingComplete : Bool
  probeCount : ℕ
  timeoutCount : ℕ
  unresolvedCount : ℕ
  sendFailureCount : ℕ
  jitterPairs : ℕ
  minMs : Option ℚ
  maxMs : Option ℚ
  meanMs : Option ℚ
  p10Ms : Option ℚ
  p50Ms : Option ℚ
  p90Ms : Option ℚ
  p95Ms : Option ℚ
  jitterMs : Option ℚ
deriving DecidableEq

namespace Population

open Buckets (midpointMedian nearestRank)
open OrderStatistic (sorted totals expand)

structure Outcome where
  rttMs : Option ℚ
  timedOut : Bool
  handlingMs : Option ℚ
  inWindow : Bool
deriving DecidableEq

inductive Reason where
  | unresolved
  | sendFailed
deriving DecidableEq

def exactValues : ℕ := 65536

/-- To the nearest whole number, a half upwards. -/
def round (x : ℚ) : ℕ := ⌊x + 1 / 2⌋.toNat

/-- Four significant digits. -/
def significant (ns : ℕ) : ℕ :=
  if ns < 10000 then ns
  else
    let step : ℕ := 10 ^ (Nat.log 10 ns - 3)
    round (ns / step) * step

structure Timing where
  count : ℕ
  raw : ℚ
  handling : ℚ
deriving DecidableEq

end Population

structure Population where
  counts : HashMap ℕ ℕ
  buffer : List ℕ
  held : ℕ
  fresh : List ℕ
  rtts : ℕ
  sum : ℚ
  replies : ℕ
  timeouts : ℕ
  unresolved : ℕ
  sendFailures : ℕ
  timing : Population.Timing
  jitterSum : ℚ
  jitterPairs : ℕ
  previous : Option ℚ
  continuity : ℕ
  complete : Bool
  cached : Option (Option LatencySummary)
  final : Option (Option LatencySummary)

namespace Population

open Buckets (midpointMedian nearestRank)
open OrderStatistic (sorted totals expand)

def empty : Population where
  counts := ∅
  buffer := []
  held := 0
  fresh := []
  rtts := 0
  sum := 0
  replies := 0
  timeouts := 0
  unresolved := 0
  sendFailures := 0
  timing := ⟨0, 0, 0⟩
  jitterSum := 0
  jitterPairs := 0
  previous := none
  continuity := 0
  complete := true
  cached := none
  final := none

def count (p : Population) : ℕ := p.replies + p.timeouts

/-! ## Counting -/

/-- The value an RTT is counted under, among `distinct` values so far. -/
def value (distinct : ℕ) (rttMs : ℚ) : ℕ :=
  let exact := round (rttMs * 10 ^ 6)
  if distinct < exactValues then exact else significant exact

/-- Counts a value. -/
def store (p : Population) (ns : ℕ) : Population :=
  let seen := p.counts.lookup ns
  { p with
    fresh := if seen = none then p.fresh ++ [ns] else p.fresh
    counts := p.counts.insert ns (seen.getD 0 + 1)
    rtts := p.rtts + 1 }

/-- Adds an RTT and the handling time that came with it to the sums. -/
def accumulate (p : Population) (rttMs : ℚ) (handlingMs : Option ℚ) : Population :=
  let timing := match handlingMs with
    | some handlingMs =>
      if 0 ≤ handlingMs ∧ handlingMs ≤ rttMs then
        ⟨p.timing.count + 1, p.timing.raw + rttMs, p.timing.handling + handlingMs⟩
      else p.timing
    | none => p.timing
  { p with
    sum := p.sum + rttMs
    timing
    jitterSum := p.jitterSum + p.previous.elim 0 fun previous => |rttMs - previous|
    jitterPairs := p.jitterPairs + p.previous.elim 0 fun _ => 1
    previous := some rttMs }

def observe (p : Population) (outcome : Outcome) (continuity : ℕ) : Population :=
  let p := { p with
    cached := none
    previous := if continuity ≠ p.continuity then none else p.previous
    continuity }
  if outcome.timedOut then { p with timeouts := p.timeouts + 1 }
  else
    match outcome.rttMs with
    | none => p
    | some rttMs =>
      if rttMs < 0 then p
      else
        let p := { p with replies := p.replies + 1 }
        if !outcome.inWindow then p
        else (p.store (value p.counts.len rttMs)).accumulate rttMs outcome.handlingMs

/-- A count that is not a whole positive number is no count. -/
def interrupt (p : Population) (count : Option ℚ) (reason : Reason) : Population :=
  match count with
  | none => p
  | some count =>
    if count.den ≠ 1 ∨ 2 ^ 53 ≤ count ∨ count ≤ 0 then p
    else
      let count := count.num.toNat
      match reason with
      | .unresolved => { p with cached := none, unresolved := p.unresolved + count, previous := none }
      | .sendFailed => { p with cached := none, sendFailures := p.sendFailures + count, previous := none }

def markIncomplete (p : Population) : Population :=
  { p with cached := none, complete := false, previous := none }

/-! ## Merging -/

/-- The values sorted so far. -/
def keys (p : Population) : List ℕ := p.buffer.take p.held

/-- Writes the greater of what is left of the sorted values and of the fresh ones, from the back. -/
def mergeBack (fresh : List ℕ) (i j w : ℕ) (buffer : List ℕ) : List ℕ :=
  if 0 < j then
    if 0 < i ∧ fresh.getD (j - 1) 0 < buffer.getD (i - 1) 0 then
      mergeBack fresh (i - 1) j (w - 1) (buffer.set (w - 1) (buffer.getD (i - 1) 0))
    else mergeBack fresh i (j - 1) (w - 1) (buffer.set (w - 1) (fresh.getD (j - 1) 0))
  else buffer
termination_by i + j

/-- Merges the values first seen since the last merge into the sorted distinct values. -/
def merge (p : Population) : Population :=
  let n := p.held
  let k := p.fresh.length
  if k = 0 then p
  else
    let buffer :=
      if p.buffer.length < n + k then p.keys ++ List.replicate (2 * (n + k) - n) 0 else p.buffer
    { p with buffer := mergeBack (sorted p.fresh) n k (n + k) buffer, fresh := [], held := n + k }

/-- The value at a 0-based rank among all samples, found through the cumulative counts. -/
def at_ (p : Population) (rank : ℕ) : ℚ :=
  let cumulative := totals (fun key => (p.counts.lookup key).getD 0) 0 p.keys
  let lo := cumulative.partitionBetween (· ≤ rank) 0 (p.keys.length - 1)
  p.keys.getD lo 0 / 10 ^ 6

/-- The summary of merged values. -/
def summarize (p : Population) : LatencySummary :=
  let n := p.rtts
  let read (x : ℚ) : Option ℚ := if n = 0 then none else some x
  { reflectorTiming :=
      if p.timing.count = 0 then none
      else some (p.timing.count, p.timing.raw / p.timing.count, p.timing.handling / p.timing.count)
    accountingComplete := p.complete
    probeCount := p.count
    timeoutCount := p.timeouts
    unresolvedCount := p.unresolved
    sendFailureCount := p.sendFailures
    jitterPairs := p.jitterPairs
    minMs := read (p.at_ 0)
    maxMs := read (p.at_ (n - 1))
    meanMs := read (p.sum / n)
    p10Ms := read (p.at_ (nearestRank (1 / 10 : ℚ) n))
    p50Ms := read (midpointMedian n p.at_)
    p90Ms := read (p.at_ (nearestRank (9 / 10 : ℚ) n))
    p95Ms := read (p.at_ (nearestRank (19 / 20 : ℚ) n))
    jitterMs := if p.jitterPairs = 0 then none else some (p.jitterSum / p.jitterPairs) }

/-- The population after a summary, and the summary. -/
def summary (p : Population) : Population × Option LatencySummary :=
  match p.final, p.cached with
  | some final, _ => (p, final)
  | none, some cached => (p, cached)
  | none, none =>
    if p.count = 0 ∧ p.unresolved = 0 ∧ p.sendFailures = 0 ∧ p.complete then
      ({ p with cached := some none }, none)
    else
      let p := p.merge
      let summary := some p.summarize
      ({ p with cached := some summary }, summary)

/-- Freezes the summary and frees the samples. -/
def close (p : Population) : Population :=
  let (p, summary) := p.summary
  { p with final := some summary, counts := ∅, buffer := [], held := 0 }

end Population

end GraphiteMeter.Measure.Browser
