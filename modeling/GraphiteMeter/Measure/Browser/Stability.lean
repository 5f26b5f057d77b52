import GraphiteMeter.Browser.ByteReports
import GraphiteMeter.Lib.Machine
import GraphiteMeter.Lib.Moments
import GraphiteMeter.Lib.Timeline

/-!
# The browser's rate series

Reference: `client/src/engine/measure/stability.ts`.

A series cuts rates of 250 ms from evidence of any length and keeps running moments of them, which a
mark can take back. Milliseconds, bytes and rates are exact rationals; `none` is a number that is not
finite. A standard error is a root, so its square stands for it.
-/

namespace GraphiteMeter.Measure.Browser

/-- A rate per lane edge, so download rates fall between the lanes' exact counts. -/
def bucketMs : ℚ := GraphiteMeter.Browser.Bytes.edgeMs

/-- A bucket this close to full is full. -/
def tolerance : ℚ := 1 / 1000000000

theorem bucketMs_eq : bucketMs = 250 := rfl

/-- The tolerance is positive. -/
theorem tolerance_pos : 0 < tolerance := by norm_num [tolerance]

/-- The tolerance is less than a bucket. -/
theorem tolerance_lt : 0 < bucketMs - tolerance := by norm_num [tolerance, bucketMs_eq]

/-- A bucket that is not full. -/
structure Filling where
  bytes : ℚ
  ms : ℚ
  nonneg : 0 ≤ ms
  short : ms < bucketMs - tolerance

def Filling.empty : Filling := ⟨0, 0, le_rfl, tolerance_lt⟩

namespace Filling

variable {b : Filling} {ms : ℚ}

/-- How much of `ms` goes into the bucket. -/
def take (b : Filling) (ms : ℚ) : ℚ := min (bucketMs - b.ms) ms

/-- How much of `bytes` goes with it. -/
def part (b : Filling) (bytes ms : ℚ) : ℚ := bytes * b.take ms / ms

/-- A filling that is kept has room for more than the tolerance. -/
theorem room (b : Filling) : tolerance < bucketMs - b.ms := by
  have := b.short
  linarith

/-- A filling takes no more than there is. -/
theorem take_le (b : Filling) (ms : ℚ) : b.take ms ≤ ms := min_le_right _ _

/-- A filling takes some of what there is. -/
theorem take_pos (h : 0 < ms) : 0 < b.take ms := lt_min (tolerance_pos.trans b.room) h

/-- A filling's time stays positive. -/
theorem take_nonneg (h : 0 < ms) : 0 ≤ b.ms + b.take ms := add_nonneg b.nonneg (take_pos h).le

/-- A turn takes all that is left, or more than the tolerance. -/
theorem left_lt (h : 0 < ms) : ⌈(ms - b.take ms) / tolerance⌉₊ < ⌈ms / tolerance⌉₊ := by
  have hroom := b.room
  rcases le_total ms (bucketMs - b.ms) with hle | hle
  · rw [take, min_eq_right hle, sub_self, zero_div, Nat.ceil_zero]
    exact Nat.ceil_pos.mpr (div_pos h tolerance_pos)
  · rw [take, min_eq_left hle]
    have hstep : (ms - (bucketMs - b.ms)) / tolerance + 1 ≤ ms / tolerance := by
      rw [div_add_one tolerance_pos.ne', div_le_div_iff_of_pos_right tolerance_pos]
      linarith
    have hleft : 0 ≤ (ms - (bucketMs - b.ms)) / tolerance :=
      div_nonneg (by linarith) tolerance_pos.le
    calc ⌈(ms - (bucketMs - b.ms)) / tolerance⌉₊
        < ⌈(ms - (bucketMs - b.ms)) / tolerance⌉₊ + 1 := Nat.lt_succ_self _
      _ = ⌈(ms - (bucketMs - b.ms)) / tolerance + 1⌉₊ := (Nat.ceil_add_one hleft).symm
      _ ≤ ⌈ms / tolerance⌉₊ := Nat.ceil_le_ceil hstep

end Filling

/-- `restore` takes a series back to these moments over every rate and over the window open then. -/
structure SeriesMark where
  all : Moments ℚ
  window : Option (Moments ℚ)

/-- Fixed 250 ms rates from byte and time evidence, with running moments over all and over an open
window, and the latest `keep`. -/
structure RateSeries where
  keep : ℕ
  recent : List ℚ
  filling : Filling
  all : Moments ℚ
  window : Option (Moments ℚ)

namespace RateSeries

def new (keep : ℕ) : RateSeries := ⟨keep, [], .empty, .fresh, none⟩

def mark (s : RateSeries) : SeriesMark := ⟨s.all, s.window⟩

def restore (s : RateSeries) (mark : SeriesMark) : RateSeries :=
  { s with all := mark.all, window := mark.window }

/-- Starts a window's moments from the next rate on. -/
def openWindow (s : RateSeries) : RateSeries := { s with window := some .fresh }

def push (keep : ℕ) (recent : List ℚ) (rate : ℚ) : List ℚ :=
  if keep = 0 then recent
  else if keep < (recent ++ [rate]).length then (recent ++ [rate]).tail
  else recent ++ [rate]

def complete (s : RateSeries) (rate : ℚ) : RateSeries :=
  { s with
    all := s.all.add rate
    window := s.window.map (·.add rate)
    recent := push s.keep s.recent rate }

/-- The bucket left open, with more in it. -/
def pour (s : RateSeries) (bytes : ℚ) {ms : ℚ} (h : 0 < ms)
    (hshort : s.filling.ms + s.filling.take ms < bucketMs - tolerance) : RateSeries :=
  { s with filling := ⟨s.filling.bytes + s.filling.part bytes ms, _, Filling.take_nonneg h, hshort⟩ }

/-- The bucket is full. -/
def turn (s : RateSeries) (bytes ms : ℚ) : RateSeries :=
  { s with filling := .empty }.complete ((s.filling.bytes + s.filling.part bytes ms) * 1000 / bucketMs)

/-- The loop of `observe`. Gives the rates it completed, in order. -/
def fill (s : RateSeries) (bytes ms : ℚ) : RateSeries × List ℚ :=
  if h : 0 < ms then
    if hshort : s.filling.ms + s.filling.take ms < bucketMs - tolerance then
      (s.pour bytes h hshort).fill (bytes - s.filling.part bytes ms) (ms - s.filling.take ms)
    else
      let rest := (s.turn bytes ms).fill (bytes - s.filling.part bytes ms) (ms - s.filling.take ms)
      (rest.1, (s.filling.bytes + s.filling.part bytes ms) * 1000 / bucketMs :: rest.2)
  else (s, [])
termination_by ⌈ms / tolerance⌉₊
decreasing_by all_goals exact Filling.left_lt h

def observe (s : RateSeries) (bytes ms : Option ℚ) : RateSeries × List ℚ :=
  match ms with
  | none => (s, [])
  | some ms => s.fill (max 0 (bytes.getD 0)) ms

/-- The open window's rate count, and the square of its mean's standard error as a share of that
mean, `none` for ∞. -/
def windowError (s : RateSeries) : ℕ × Option ℚ :=
  match s.window with
  | none => (0, none)
  | some m =>
    (m.count, if m.count < 2 ∨ ¬0 < m.mean then none
      else some (m.squares / (m.count - 1) / m.count / m.mean ^ 2))

/-- The square of the coefficient of variation that `stability` takes from 1, `none` where it reads 0
at once. -/
def variation (s : RateSeries) (window : Bool) : Option ℚ :=
  let m := if window then s.window.getD .fresh else s.all
  if m.count < 2 ∨ ¬0 < m.mean then none else some (m.squares / m.count / m.mean ^ 2)

end RateSeries

/-- An early finish ends a transfer once its steady window's mean has this standard error, as a share
of the mean. -/
def standardError : ℚ := 25 / 10000

def transferSamples : ℕ := 12

/-- A transfer stage may finish early once its steady window holds enough rates and its mean's
standard error is within the promise. -/
def transferMayFinish (steady : ℕ × Option ℚ) : Bool :=
  transferSamples ≤ steady.1 ∧ steady.2.any (· < standardError ^ 2)

end GraphiteMeter.Measure.Browser
