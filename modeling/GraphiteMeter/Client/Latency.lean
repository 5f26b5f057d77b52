import GraphiteMeter.Client.Probe

/-!
# A latency population

Reference: `rust/client/src/measure/latency.rs` (`Latency`, `Summary`).

Durations are nanoseconds up to the longest one a duration holds, where sums stay. The replies are
counted by round trip, the shortest first.
-/

namespace GraphiteMeter.Client

/-- The longest duration. -/
def durationMax : ℕ := 2 ^ 64 * 10 ^ 9 - 1

def durationAdd (a b : ℕ) : ℕ := min (a + b) durationMax

/-- Averages the raw round trip and the server handling over the same replies. -/
structure Timing where
  pairs : ℕ
  rtt : ℕ
  handling : ℕ
deriving DecidableEq, Repr

/-- A box plot draws the fastest reply, the 10th and 90th percentiles and the slowest. -/
structure Spread where
  min : ℕ
  p10 : ℕ
  p90 : ℕ
  max : ℕ
deriving DecidableEq, Repr

structure Counts where
  replies : ℕ
  timeouts : ℕ
  unresolved : ℕ
  sendFailures : ℕ
  jitterPairs : ℕ
deriving DecidableEq, Repr

structure Summary where
  counts : Counts
  p50 : Option ℕ
  p95 : Option ℕ
  jitter : Option ℕ
  timing : Option Timing
  spread : Option Spread
deriving DecidableEq, Repr

structure Latency where
  /-- Counts replies by round trip rounded to the microsecond. -/
  rtts : List (ℕ × ℕ)
  counts : Counts
  previous : Option ℕ
  variation : ℕ
  timed : ℕ
  timedRtt : ℕ
  handling : ℕ
deriving DecidableEq, Repr

namespace Latency

def empty : Latency := ⟨[], ⟨0, 0, 0, 0, 0⟩, none, 0, 0, 0, 0⟩

/-- Counts one more reply of a round trip. -/
def count (rtt : ℕ) : List (ℕ × ℕ) → List (ℕ × ℕ)
  | [] => [(rtt, 1)]
  | (known, n) :: rtts =>
    if rtt < known then (rtt, 1) :: (known, n) :: rtts
    else if rtt = known then (known, n + 1) :: rtts
    else (known, n) :: count rtt rtts

/-- A handling time above the round trip leaves the reply out of the paired timing only. -/
def reply (l : Latency) (rtt handling : ℕ) : Latency :=
  let (variation, pairs) := match l.previous with
    | none => (l.variation, l.counts.jitterPairs)
    | some previous =>
      (durationAdd l.variation (max rtt previous - min rtt previous), l.counts.jitterPairs + 1)
  let micros := min ((rtt + 500) / 1000) (2 ^ 64 - 1) * 1000
  let timed := if handling ≤ rtt then
      (l.timed + 1, durationAdd l.timedRtt rtt, durationAdd l.handling handling)
    else (l.timed, l.timedRtt, l.handling)
  { rtts := count micros l.rtts
    counts := { l.counts with replies := l.counts.replies + 1, jitterPairs := pairs }
    previous := some rtt
    variation
    timed := timed.1
    timedRtt := timed.2.1
    handling := timed.2.2 }

def record (l : Latency) : ProbeOutcome → Latency
  | .reply rtt handling => l.reply rtt handling
  | .timeout => { l with counts := { l.counts with timeouts := l.counts.timeouts + 1 } }
  | .unresolved => { l with counts := { l.counts with unresolved := l.counts.unresolved + 1 } }
  | .sendFailed => { l with counts := { l.counts with sendFailures := l.counts.sendFailures + 1 } }

/-- After a reconnect or stage boundary the next reply has no predecessor to vary from. -/
def breakContinuity (l : Latency) : Latency := { l with previous := none }

/-- Finds the replies at the ascending 1-based ranks of round-trip order in one walk over the
histogram, of which `seen` replies are behind. -/
def ranked : List (ℕ × ℕ) → ℕ → List ℕ → List ℕ
  | [], _, ranks => ranks.map fun _ => 0
  | (rtt, count) :: rtts, seen, ranks =>
    ((ranks.takeWhile (· ≤ seen + count)).map fun _ => rtt) ++
      ranked rtts (seen + count) (ranks.dropWhile (· ≤ seen + count))

def mean (sum count : ℕ) : ℕ := min (sum / count) (2 ^ 64 - 1)

def summary (l : Latency) : Summary :=
  let replies := l.counts.replies
  let percentile (share : ℕ) : ℕ := max 1 ((share * replies + 99) / 100)
  -- An even count takes its two middle replies, an odd one its single middle reply twice.
  let ranks :=
    [1, percentile 10, (replies + 1) / 2, replies / 2 + 1, percentile 90, percentile 95, replies]
  let found := ranked l.rtts 0 ranks
  let rank (place : ℕ) : Option ℕ := if 0 < replies then some (found.getD place 0) else none
  { counts := l.counts
    p50 := (rank 2).map fun lower => lower + (found.getD 3 0 - lower) / 2
    p95 := rank 5
    jitter := if 0 < l.counts.jitterPairs then some (mean l.variation l.counts.jitterPairs) else none
    timing := if 0 < l.timed then
        some ⟨l.timed, mean l.timedRtt l.timed, mean l.handling l.timed⟩
      else none
    spread := (rank 0).map fun least =>
      ⟨least, found.getD 1 0, found.getD 4 0, found.getD 6 0⟩ }

end Latency

end GraphiteMeter.Client
