import Mathlib.Data.Rat.Floor
import GraphiteMeter.Lib.Double
import GraphiteMeter.Measure.Aggregate

/-!
# The browser's latency buckets

Reference: `client/src/engine/measure/buckets.ts`, with `midpointMedian` and `nearestRank` of
`client/src/engine/measure/latency.ts`. Groups a server's probe outcomes into fixed time buckets;
late outcomes revise the last ten seconds.

Times are numbers of `K`: exact rationals, or doubles as in the code. An RTT is `none` where it is not
finite. The bucket objects stand in `opens` in the order they are made, since the last restart; a
reference to one is its index. A bucket's end is its start and the width, which changes only with a
restart.
-/

namespace GraphiteMeter.Measure.Browser.Buckets

open Rounding (Numbers)
open Rounding.Numbers (near floor ceil)

variable {K : Type} [Numbers K]

def minWidthMs : K := near 200

/-- A late outcome may still revise a closed bucket this far back. -/
def revisionMs : K := near 10000

/-! ## The grid -/

/-- A spacing of probes; a spacing of zero is none. -/
abbrev Interval (K : Type := ℚ) [Numbers K] := { ms : K // 0 ≤ ms }

/-- One width for every stage length. -/
def bucketWidth : Option (Interval K) → K
  | none => minWidthMs
  | some interval =>
    if interval.val = 0 then minWidthMs
    else near (ceil (minWidthMs / interval.val)) * interval.val

/-- Buckets have a positive width. -/
theorem bucketWidth_pos (intervalMs : Option (Interval K)) : 0 < bucketWidth intervalMs := by
  have hmin : 0 < (minWidthMs : K) := Numbers.near_pos (by norm_num)
  match intervalMs with
  | none => exact hmin
  | some ⟨interval, h⟩ =>
    rw [bucketWidth]
    split_ifs with hzero
    · exact hmin
    · have hpos : 0 < interval := lt_of_le_of_ne h (Ne.symm hzero)
      have hceil : 0 < ceil (minWidthMs / interval) := Numbers.ceil_pos (Numbers.div_pos hmin hpos)
      exact Numbers.mul_pos (Numbers.near_pos (Int.cast_pos.mpr hceil)) hpos

/-- Cells of one width from an origin. -/
structure Grid (K : Type := ℚ) [Numbers K] where
  origin : K
  width : K
  width_pos : 0 < width

namespace Grid

/-- The cell that a time falls in. -/
def cell (g : Grid K) (t : K) : ℤ := floor ((t - g.origin) / g.width)

/-- Where a cell starts. -/
def start (g : Grid K) (k : ℤ) : K := g.origin + near k * g.width

/-! On rationals a cell's times are those from its start to the next. -/

variable (g : Grid) {k l : ℤ} {t : ℚ}

/-- A time is in a cell or later when the cell has begun. -/
theorem le_cell : k ≤ g.cell t ↔ g.start k ≤ t := by
  rw [cell, Numbers.floor_rat, Int.le_floor, le_div_iff₀ g.width_pos, start, Numbers.near_rat,
    le_sub_iff_add_le']

/-- A time is in an earlier cell when the cell has not begun. -/
theorem cell_lt : g.cell t < k ↔ t < g.start k := by
  rw [← not_le, le_cell, not_le]

/-- Cells begin one width after another. -/
theorem start_add (k l : ℤ) : g.start (k + l) = g.start k + l * g.width := by
  rw [start, start, Numbers.near_rat, Numbers.near_rat, Int.cast_add]
  ring

/-- The next cell begins one width later. -/
theorem start_succ (k : ℤ) : g.start (k + 1) = g.start k + g.width := by
  rw [start_add, Int.cast_one, one_mul]

/-- Cells begin in their order. -/
theorem start_le_start : g.start k ≤ g.start l ↔ k ≤ l := by
  rw [start, start, Numbers.near_rat, Numbers.near_rat, add_le_add_iff_left,
    mul_le_mul_iff_left₀ g.width_pos, Int.cast_le]

/-- No two cells begin at once. -/
theorem start_inj : g.start k = g.start l ↔ k = l := by
  rw [le_antisymm_iff, start_le_start, start_le_start, ← le_antisymm_iff]

/-- A cell's times are those from its start to the next. -/
theorem cell_eq : g.cell t = k ↔ g.start k ≤ t ∧ t < g.start k + g.width := by
  rw [← start_succ, ← le_cell, ← cell_lt, Int.lt_add_one_iff, le_antisymm_iff, and_comm]

end Grid

/-! ## Buckets -/

inductive Phase where
  | idle
  | stage (stage : Stage)
deriving DecidableEq, Repr

structure LatencyBucket (K : Type := ℚ) where
  phase : Phase
  /-- Buckets with different ids belong to separate lines. -/
  continuityId : ℕ
  startT : K
  /-- Exclusive. -/
  endT : K
  medianRttMs : Option K
  minRttMs : Option K
  p95RttMs : Option K
  maxRttMs : Option K
  /-- Counts resolved probes. A timeout is a probe, never an RTT. -/
  pingCount : ℕ
  timeoutCount : ℕ
deriving DecidableEq, Repr

structure Open (K : Type := ℚ) where
  startT : K
  rtts : List K
  pings : ℕ
  timeouts : ℕ
deriving DecidableEq, Repr

structure Outcome (K : Type := ℚ) where
  t : K
  rttMs : Option K
  timedOut : Bool
deriving DecidableEq, Repr

/-- What `emit` is given: a bucket, and whether it is a warmup's. -/
abbrev Emission (K : Type := ℚ) := LatencyBucket K × Bool

def midpointMedian (n : ℕ) (at_ : ℕ → K) : K :=
  if n % 2 ≠ 0 then at_ (n / 2) else (at_ (n / 2 - 1) + at_ (n / 2)) / near 2

def nearestRank (p : K) (n : ℕ) : ℕ := min (n - 1) (ceil (p * near n) - 1).toNat

/-- Counts an outcome. -/
def Open.record (o : Outcome K) (b : Open K) : Open K :=
  let b := { b with pings := b.pings + 1 }
  if o.timedOut then { b with timeouts := b.timeouts + 1 }
  else
    match o.rttMs with
    | none => b
    | some rttMs => { b with rtts := b.rtts ++ [max 0 rttMs] }

/-- What a reset or a restart sets. -/
structure Line (K : Type := ℚ) [Numbers K] where
  phase : Phase := .idle
  continuity : ℕ := 0
  grid : Grid K := ⟨0, minWidthMs, bucketWidth_pos none⟩
  warmup : Bool := false

namespace Line

def endT (line : Line K) (b : Open K) : K := b.startT + line.grid.width

def summary (line : Line K) (bucket : Open K) (endT : K) : LatencyBucket K :=
  let rtts := bucket.rtts.mergeSort fun a b => a ≤ b
  let n := rtts.length
  let at_ (rank : ℕ) : K := (rtts[rank]?).getD 0
  let read (value : K) : Option K := if n ≠ 0 then some value else none
  { phase := line.phase
    continuityId := line.continuity
    startT := bucket.startT
    endT := endT
    medianRttMs := read (midpointMedian n at_)
    minRttMs := read (at_ 0)
    p95RttMs := read (at_ (nearestRank (near 0.95 : K) n))
    maxRttMs := read (at_ (n - 1))
    pingCount := bucket.pings
    timeoutCount := bucket.timeouts }

def emission (line : Line K) (bucket : Open K) (endT : K) : Emission K :=
  (line.summary bucket endT, line.warmup)

end Line

structure LatencyBuckets (K : Type := ℚ) [Numbers K] extends Line K where
  pending : Option ℕ := none
  closed : List ℕ := []
  /-- Closed buckets revised since the last report. -/
  revised : List ℕ := []
  opens : List (Open K) := []

namespace LatencyBuckets

/-- Opens the bucket that is pending next. -/
def openAt (s : LatencyBuckets K) (startT : K) : LatencyBuckets K :=
  { s with opens := s.opens ++ [⟨startT, [], 0, 0⟩], pending := some s.opens.length }

def pendingOpen (s : LatencyBuckets K) : Option (Open K) := s.pending.bind fun i => s.opens[i]?

def aligned (s : LatencyBuckets K) (t : K) : K := s.grid.start (s.grid.cell t)

/-- A new line's buckets keep the stage's grid. -/
def restart (s : LatencyBuckets K) (t : K) (continuity : ℕ) : LatencyBuckets K :=
  { s with
    continuity := continuity
    closed := []
    revised := []
    opens := [] }.openAt (s.aligned t)

def reset (s : LatencyBuckets K) (t : K) (phase : Phase) (continuity : ℕ)
    (intervalMs : Option (Interval K)) (warmup : Bool) : LatencyBuckets K :=
  { s with
    phase := phase
    warmup := warmup
    grid := ⟨t, bucketWidth intervalMs, bucketWidth_pos intervalMs⟩ }.restart t continuity

/-- Emits the revised buckets. -/
def report (s : LatencyBuckets K) : LatencyBuckets K × List (Emission K) :=
  ({ s with revised := [] },
    (s.revised.filterMap fun i => s.opens[i]?).map fun bucket => s.emission bucket (s.endT bucket))

/-- The widths of empty time to jump over: only the revision horizon can still take late outcomes. -/
def skipped (s : LatencyBuckets K) (pending : Open K) (t : K) : ℤ :=
  if pending.pings ≠ 0 then 0 else floor ((t - pending.startT - revisionMs) / s.grid.width)

/-- Jumps over empty time. Everything closed before ends outside the horizon. -/
def skip (s : LatencyBuckets K) (pending : Open K) (skipped : ℤ) : LatencyBuckets K :=
  { s with closed := [] }.openAt (pending.startT + near skipped * s.grid.width)

/-- Closes the pending bucket and opens the next. -/
def shut (s : LatencyBuckets K) (pending : Open K) : LatencyBuckets K :=
  { s with
    closed := (s.closed ++ s.pending.toList).dropWhile fun i =>
      (s.opens[i]?).any fun bucket => s.endT bucket < s.endT pending - revisionMs }.openAt
    (s.endT pending)

/-- How many widths the pending bucket's start is behind. -/
def behind (s : LatencyBuckets K) (t : K) : ℕ :=
  match s.pendingOpen with
  | none => 0
  | some pending => (ceil ((t - pending.startT) / s.grid.width)).toNat

/-- The passes of `close`'s loop, `n` at most. -/
def closeIn : ℕ → LatencyBuckets K → K → LatencyBuckets K × List (Emission K)
  | 0, s, _ => (s, [])
  | n + 1, s, t =>
    match s.pendingOpen with
    | none => (s, [])
    | some pending =>
      if t < s.endT pending then (s, [])
      else
        -- a page suspended for hours skips the empty time
        if 0 < s.skipped pending t then closeIn n (s.skip pending (s.skipped pending t)) t
        else
          let emitted := if pending.pings ≠ 0 then [s.emission pending (s.endT pending)] else []
          let (closed, more) := closeIn n (s.shut pending) t
          (closed, emitted ++ more)

/-- Closes every bucket that ends by `t`. Each pass moves the pending bucket by a width or more, so on
rationals the loop ends by itself. -/
def close (s : LatencyBuckets K) (t : K) : LatencyBuckets K × List (Emission K) :=
  closeIn (s.behind t + 1) s t

/-- The bucket that owns a time: the pending one, or the last closed one that does. -/
def target (s : LatencyBuckets K) (t : K) : Option ℕ :=
  if s.pendingOpen.any fun pending => pending.startT ≤ t then s.pending
  else s.closed.reverse.find? fun i =>
    (s.opens[i]?).any fun bucket => bucket.startT ≤ t ∧ t < s.endT bucket

/-- Counts an outcome in the bucket that owns its time, if there is one. -/
def count (s : LatencyBuckets K) (o : Outcome K) : LatencyBuckets K :=
  match s.target o.t with
  | none => s
  | some i =>
    { s with
      opens := s.opens.modify i (Open.record o)
      revised := if s.pending = some i ∨ i ∈ s.revised then s.revised else s.revised ++ [i] }

def observe (s : LatencyBuckets K) (o : Outcome K) : LatencyBuckets K × List (Emission K) :=
  let s := if s.pending = none then s.openAt (s.aligned o.t) else s
  let (s, emitted) := s.close o.t
  (s.count o, emitted)

/-- Closes every bucket that ends by `t`, and reports revisions since. -/
def closeThrough (s : LatencyBuckets K) (t : K) : LatencyBuckets K × List (Emission K) :=
  let (s, revisions) := s.report
  let (s, emitted) := s.close t
  (s, revisions ++ emitted)

def flush (s : LatencyBuckets K) (atT : K) : LatencyBuckets K × List (Emission K) :=
  let (s, revisions) := s.report
  let emitted := s.pendingOpen.toList.flatMap fun pending =>
    if pending.pings ≠ 0 then
      [s.emission pending (max pending.startT (min (s.endT pending) atT))]
    else []
  ({ s with pending := none, closed := [] }, revisions ++ emitted)

end LatencyBuckets

end GraphiteMeter.Measure.Browser.Buckets
