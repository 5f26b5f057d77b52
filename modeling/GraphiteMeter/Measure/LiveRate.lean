import Mathlib.Algebra.Order.Field.Rat
import GraphiteMeter.Lib.PartitionPoint
import GraphiteMeter.Lib.Timeline

/-!
# The live rate

Reference: `rust/client/src/measure/live.rs` and `client/src/engine/measure/live.ts`.

Times and bytes are exact rationals. `fround` is single precision, the same for both clients. A
division by zero is by the rate before a change only: it gives 0 here and infinity there, and both
depart.

`Regime` is what the rate decides on; it reads the rate since a time from the spans that still stand
(`LiveRate`) or from the whole history (`Whole`). The browser's estimator has the fields of the Rust
client's, and its own functions on them.
-/

namespace GraphiteMeter.Measure.Live

def minWindowMs : ℚ := 800

/-- A rate shows once this much evidence follows the delivery that anchored it. -/
def firstMs : ℚ := 500

def fastWindowMs : ℚ := 750

def regimeReadyMs : ℚ := 2000

def downshiftMs : ℚ := 750

def upshiftMs : ℚ := 500

/-- Spans kept past this many merge in pairs. -/
def maxSpans : ℕ := 4096

structure Span where
  start : ℚ
  end_ : ℚ
  bytes : ℚ
  total : ℚ
deriving DecidableEq, Repr

structure Candidate where
  up : Bool
  start : ℚ
  reference : ℚ
  before : ℚ
deriving DecidableEq, Repr

/-- A confirmed regime change: how much evidence ago it was first read, and the rate before. -/
structure Shift where
  sinceMs : ℚ
  from_ : ℚ
deriving DecidableEq, Repr

def departs (ratio : ℚ) : Bool := ratio < 3 / 4 ∨ 6 / 5 < ratio

/-- 85% of the current regime, never less than 800 ms. -/
def window (age : ℚ) : ℚ :=
  let age := max age 0
  min age (max minWindowMs (age * (17 / 20)))

/-! ## What the rate decides on -/

structure Regime where
  evidence : ℚ := 0
  regimeStart : ℚ := 0
  fast : ℚ := 0
  candidate : Option Candidate := none
  held : Bool := false
  change : Option (ℚ × ℚ) := none
  presented : ℚ := 0
deriving DecidableEq, Repr

namespace Regime

/-- Reads both windows, of the rate since a time. -/
def recalculate (rateSince : ℚ → ℚ) (r : Regime) : Regime :=
  { r with
    presented :=
      if r.evidence < firstMs then 0
      else rateSince (r.evidence - window (r.evidence - r.regimeStart))
    fast := rateSince (max r.regimeStart (r.evidence - fastWindowMs)) }

/-- What a change is held for, if one was. -/
def hold (r : Regime) : Regime × Option Shift :=
  ({ r with held := true, change := none },
    r.change.bind fun (start, from_) =>
      if departs (r.presented / from_) then some ⟨r.evidence - start, from_⟩ else none)

/-- Takes up, drops or confirms a change; `start` is where the latest span starts. -/
def regime (fround : ℚ → ℚ) (start : ℚ) (r : Regime) : Regime × Option Shift :=
  match r.candidate with
  | none =>
    if r.evidence - r.regimeStart < regimeReadyMs ∨ r.presented ≤ 0 then (r, none)
    else
      let ratio := r.fast / r.presented
      if departs ratio = false then
        if fround ratio ≤ 1 then r.hold else (r, none)
      else
        -- what the window read before the fast window that holds the change
        let window := window (r.evidence - r.regimeStart)
        let before := (r.presented * window - r.fast * fastWindowMs) / (window - fastWindowMs)
        ({ r with candidate := some ⟨6 / 5 < ratio, start, r.presented, before⟩ }, none)
  | some candidate =>
    let ratio := if 0 < candidate.reference then r.fast / candidate.reference else 1
    if candidate.up ∧ ratio < 11 / 10 ∨ ¬candidate.up ∧ 17 / 20 < ratio then
      ({ r with candidate := none }, none)
    else if r.evidence - candidate.start < (if candidate.up then upshiftMs else downshiftMs) then
      (r, none)
    else
      ({ r with
        regimeStart := candidate.start
        candidate := none
        change := if r.held then some (candidate.start, candidate.before) else r.change
        held := false }, none)

/-- Both windows, the decision, and both windows again where a new regime starts. -/
def read (fround rateSince : ℚ → ℚ) (start : ℚ) (r : Regime) : Regime × Option Shift :=
  let r := r.recalculate rateSince
  let (after, shift) := r.regime fround start
  (if after.regimeStart ≠ r.regimeStart then after.recalculate rateSince else after, shift)

/-- No window will start before this. -/
def keep (r : Regime) : ℚ :=
  let keep := min (r.evidence - window (r.evidence - r.regimeStart))
    (max r.regimeStart (r.evidence - fastWindowMs))
  match r.candidate with
  | none => keep
  | some candidate => min keep candidate.start

end Regime

/-! ## The spans that stand -/

structure LiveRate extends Regime where
  anchored : Bool := false
  spans : List Span := []
  head : ℕ := 0
  bytes : ℚ := 0
deriving DecidableEq, Repr

/-- Past the spans that end by `keep`, but not past the last. -/
def skip (keep : ℚ) (spans : List Span) (head : ℕ) : ℕ :=
  if head + 1 < spans.length ∧ (spans[head]?).any (·.end_ ≤ keep) then skip keep spans (head + 1)
  else head
termination_by spans.length - head

/-- Every second span: the later of each pair. -/
def laterOfPairs : List Span → List Span
  | _ :: later :: spans => later :: laterOfPairs spans
  | _ => []

def merge (a b : Span) : Span :=
  { a with end_ := b.end_, bytes := a.bytes + b.bytes, total := b.total }

def mergePairs : List Span → List Span
  | a :: b :: spans => merge a b :: mergePairs spans
  | _ => []

namespace LiveRate

/-- The spans that stand. -/
def retained (s : LiveRate) : List Span := s.spans.drop s.head

/-- Adds a span of `ms`. -/
def push (s : LiveRate) (bytes ms : ℚ) : LiveRate :=
  { s with
    evidence := s.evidence + ms
    bytes := s.bytes + bytes
    spans := s.spans ++ [⟨s.evidence, s.evidence + ms, bytes, s.bytes + bytes⟩] }

/-- Prorates the span the window starts in. There is one: a span is pushed before. -/
def rateSince (s : LiveRate) (start : ℚ) : ℚ :=
  let spans := s.retained
  match spans[min (spans.partitionPoint fun span => span.end_ ≤ start) (spans.length - 1)]? with
  | none => 0
  | some first =>
    let from_ := max start first.start
    let ms := s.evidence - from_
    if ms ≤ 0 then 0
    else
      let share := first.bytes * ((first.end_ - from_) / (first.end_ - first.start))
      (s.bytes - first.total + share) * 1000 / ms

/-- Lets go of the spans that no window will start in. -/
def prune (s : LiveRate) : LiveRate := { s with head := skip s.keep s.spans s.head }

/-- Drains them once they are many. -/
def compact (s : LiveRate) : LiveRate :=
  if 1024 ≤ s.head ∧ s.spans.length ≤ s.head * 2 then { s with spans := s.retained, head := 0 } else s

/-- Spans that end by this may merge: not the fast window's, nor a pending change's. -/
def fine (s : LiveRate) : ℚ :=
  match s.candidate with
  | none => s.evidence - 2 * fastWindowMs
  | some candidate => min (s.evidence - 2 * fastWindowMs) candidate.start

/-- Merges the older spans in pairs. -/
def coarsen (s : LiveRate) : LiveRate :=
  let older := ((laterOfPairs s.retained).takeWhile (·.end_ ≤ s.fine)).length * 2
  { s with
    spans := mergePairs (s.retained.take older) ++ s.spans.drop (s.head + older)
    head := 0 }

/-- An observation, to where its spans are counted. -/
def advance (fround : ℚ → ℚ) (s : LiveRate) (bytes ms : ℚ) : LiveRate × Option Shift :=
  let start := s.evidence
  let s := s.push (if 0 < bytes then bytes else 0) ms
  let (regime, shift) := s.toRegime.read fround s.rateSince start
  ({ s with toRegime := regime }.prune.compact, shift)

/-- The first delivery only anchors it. -/
def step (fround : ℚ → ℚ) (kept : ℕ) (s : LiveRate) (bytes ms : ℚ) : LiveRate × Option Shift :=
  if ms ≤ 0 then (s, none)
  else if s.anchored = false then ({ s with anchored := 0 < bytes }, none)
  else
    let (s, shift) := s.advance fround bytes ms
    (if kept < s.spans.length - s.head then s.coarsen else s, shift)

def observe (fround : ℚ → ℚ) (s : LiveRate) (bytes ms : ℚ) : LiveRate × Option Shift :=
  s.step fround maxSpans bytes ms

end LiveRate

end GraphiteMeter.Measure.Live
