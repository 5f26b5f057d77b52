import Mathlib.Algebra.Order.Floor.Semiring
import Mathlib.Algebra.Order.Floor.Ring
import Mathlib.Data.Rat.Floor
import Mathlib.Tactic.Linarith
import GraphiteMeter.Lib.RingLog

/-!
# A download's byte reports

Reference: `ByteReports` of `client/src/engine/lanes/bytes.ts`.

Counted bytes are reported in batches by epoch, with the totals at each edge passed since. Times are
rationals in page ms. A reading taken before the epoch began stands below 0, so totals are integers.
`reported` is what the callback was called with.
-/

namespace GraphiteMeter.Browser.Bytes

def reportMs : ℚ := 10

/-- Readings of the running total a flush can look back over. -/
def totals : ℕ := 512

instance : NeZero totals := ⟨by decide⟩

def edgeMs : ℚ := 250

/-- The epoch's totals at consecutive edges from index `first`. -/
structure Edges where
  first : ℕ
  totals : List ℤ
deriving DecidableEq

structure Report where
  bytes : ℤ
  epoch : ℕ
  edges : Option Edges
deriving DecidableEq

/-- A total as counted by a time. -/
structure Counted where
  total : ℤ
  at_ : ℚ

/-- The slot of reading `i`. -/
def slot (i : ℕ) : Fin totals := Fin.ofNat totals i

/-- `opened` is `none` where the source has infinity, and so is `last` where it has minus infinity. -/
structure ByteReports where
  bytes : ℤ
  opened : Option ℚ
  edge : ℕ
  edges : List ℤ
  since : ℚ
  epoch : ℕ
  reportMs : ℚ
  total : ℤ
  times : Fin Bytes.totals → ℚ
  totals : Fin Bytes.totals → ℤ
  taken : ℕ
  last : Option ℚ
  reported : List Report

namespace ByteReports

def new (now : ℚ) : ByteReports where
  bytes := 0
  opened := none
  edge := 1
  edges := []
  since := now
  epoch := 0
  reportMs := Bytes.reportMs
  total := 0
  times _ := 0
  totals _ := 0
  taken := 0
  last := none
  reported := []

/-- One of `reporters` that share their server's report rate. -/
def share (r : ByteReports) (reporters : ℕ) : ByteReports :=
  { r with reportMs := Bytes.reportMs * max 1 reporters }

/-- The loop of `pass`, for a window that opened. -/
def passFrom (opened : ℚ) (total : ℤ) (now : ℚ) (edge : ℕ) (edges : List ℤ) : ℕ × List ℤ :=
  if opened + edge * edgeMs < now then passFrom opened total now (edge + 1) (edges ++ [total])
  else (edge, edges)
termination_by ⌈(now - opened) / edgeMs⌉₊ - edge
decreasing_by
  rename_i h
  have hlt : (edge : ℚ) < (now - opened) / edgeMs := by
    rw [lt_div_iff₀ (by norm_num [edgeMs])]
    linarith
  have := Nat.lt_ceil.mpr hlt
  omega

/-- Takes the total at each edge `now` passed: what was read by then, since every read so far came
earlier. -/
def pass (r : ByteReports) (now : ℚ) : ByteReports :=
  match r.opened with
  | none => r
  | some opened =>
    let passed := passFrom opened r.total now r.edge r.edges
    { r with edge := passed.1, edges := passed.2 }

/-- A reading at most every millisecond, and at every report. -/
def keep (r : ByteReports) (now : ℚ) (reported : Bool) : ByteReports :=
  if !reported ∧ r.taken ≠ 0 ∧ now - r.times (slot (r.taken - 1)) < 1 then r
  else
    { r with
      taken := r.taken + 1
      times := Function.update r.times (slot r.taken) now
      totals := Function.update r.totals (slot r.taken) r.total }

/-- The edges of a report: the first one's number is derived from how many there are. -/
def passed (r : ByteReports) : Option Edges :=
  if r.edges.length ≠ 0 then some ⟨r.edge - r.edges.length, r.edges⟩ else none

/-- What a flush reports. -/
def due (r : ByteReports) : List Report :=
  if r.bytes ≠ 0 ∨ r.passed.isSome then [⟨r.bytes, r.epoch, r.passed⟩] else []

def send (r : ByteReports) (now : ℚ) : ByteReports :=
  { r with reported := r.reported ++ r.due, edges := [], bytes := 0, since := now }

def flush (r : ByteReports) (now : ℚ) : ByteReports := ((r.pass now).send now).keep now true

def add (r : ByteReports) (bytes : ℕ) (now : ℚ) : ByteReports :=
  { r with bytes := r.bytes + bytes, total := r.total + bytes, last := some now }

def count (r : ByteReports) (bytes : ℕ) (now : ℚ) : ByteReports :=
  let r := (r.pass now).add bytes now
  if r.reportMs ≤ now - r.since then r.flush now else r.keep now false

/-- The epoch's total as counted by `at_`; past what is kept, the earliest reading kept and its
time. -/
def totalAt (r : ByteReports) (at_ : ℚ) : Counted :=
  if r.last.all (· ≤ at_) then ⟨r.total, at_⟩
  else
    match (List.range' 1 (min r.taken Bytes.totals)).find? fun back => r.times (slot (r.taken - back)) ≤ at_
    with
    | some back => ⟨r.totals (slot (r.taken - back)), at_⟩
    | none =>
      if r.taken ≤ Bytes.totals then ⟨0, at_⟩ else ⟨r.totals (slot r.taken), r.times (slot r.taken)⟩

/-- A new epoch counts from `at_`, though asked later; a lane reopening in its epoch keeps the epoch's
total. -/
def measure (r : ByteReports) (epoch : ℕ) (at_ : ℚ) : ByteReports :=
  let r := { r with bytes := 0 }
  if epoch = r.epoch then r
  else
    let r := { r with opened := none, edges := [], epoch := epoch }
    let before := (r.totalAt at_).total
    let total := r.total - before
    { r with
      totals := fun s => if s < min r.taken Bytes.totals then r.totals s - before else r.totals s
      total := total
      bytes := total }

/-- Takes the epoch's totals at each edge from the window's opening at `at_`. -/
def edgesFrom (r : ByteReports) (at_ : ℚ) : ByteReports :=
  if r.opened = some at_ then r else { r with opened := some at_, edge := 1, edges := [] }

inductive Call where
  | share (reporters : ℕ)
  | count (bytes : ℕ) (now : ℚ)
  | flush (now : ℚ)
  | measure (epoch : ℕ) (at_ : ℚ)
  | edgesFrom (at_ : ℚ)

def call (r : ByteReports) : Call → ByteReports
  | .share reporters => r.share reporters
  | .count bytes now => r.count bytes now
  | .flush now => r.flush now
  | .measure epoch at_ => r.measure epoch at_
  | .edgesFrom at_ => r.edgesFrom at_

end ByteReports

end GraphiteMeter.Browser.Bytes
