import GraphiteMeter.Measure.LiveRateWhole

/-!
# The browser's live rate

Reference: `client/src/engine/measure/live.ts`. The estimator decides and prunes as the Rust client;
what it writes differently is the search for a window's span, the decision and how older spans merge.
Indices stay far below 2^31, where `>>> 1` halves.
-/

namespace GraphiteMeter.Measure.Live

namespace RateEstimator

/-- The first span that ends after `start`, or the last index. -/
def search (spans : List Span) (start : ℚ) (lo hi : ℕ) : ℕ :=
  if lo < hi then
    let mid := (lo + hi) / 2
    if (spans[mid]?).any (·.end_ ≤ start) then search spans start (mid + 1) hi
    else search spans start lo mid
  else lo
termination_by hi - lo

/-- Prefix totals find a fractional window edge without rescanning a long stage. -/
def rateSince (s : LiveRate) (start : ℚ) : ℚ :=
  match s.spans[search s.spans start s.head (s.spans.length - 1)]? with
  | none => 0
  | some first =>
    let from_ := max start first.start
    let ms := s.evidence - from_
    if ¬0 < ms then 0
    else
      let share := first.bytes * ((first.end_ - from_) / (first.end_ - first.start))
      (s.bytes - first.total + share) * 1000 / ms

def hold (r : Regime) : Regime × Option Shift :=
  let held := { r with held := true, change := none }
  match r.change with
  | none => (held, none)
  | some (start, before) =>
    (held, if departs (held.presented / before) then some ⟨held.evidence - start, before⟩ else none)

def regime (fround : ℚ → ℚ) (start : ℚ) (r : Regime) : Regime × Option Shift :=
  match r.candidate with
  | none =>
    if r.evidence - r.regimeStart < regimeReadyMs ∨ r.presented ≤ 0 then (r, none)
    else
      let ratio := r.fast / r.presented
      if !departs ratio then if 1 < fround ratio then (r, none) else hold r
      else
        let window := window (r.evidence - r.regimeStart)
        let before := (r.presented * window - r.fast * fastWindowMs) / (window - fastWindowMs)
        ({ r with candidate := some ⟨6 / 5 < ratio, start, r.presented, before⟩ }, none)
  | some candidate =>
    let ratio := if 0 < candidate.reference then r.fast / candidate.reference else 1
    if if candidate.up then ratio < 11 / 10 else 17 / 20 < ratio then
      ({ r with candidate := none }, none)
    else if r.evidence - candidate.start < (if candidate.up then upshiftMs else downshiftMs) then
      (r, none)
    else
      let r := { r with regimeStart := candidate.start, candidate := none }
      let r := if r.held then { r with change := some (candidate.start, candidate.before) } else r
      ({ r with held := false }, none)

/-- Merges spans in pairs while the later ends by `fine`. -/
def mergeOlder (fine : ℚ) : List Span → List Span
  | a :: b :: spans =>
    if b.end_ ≤ fine then ⟨a.start, b.end_, a.bytes + b.bytes, b.total⟩ :: mergeOlder fine spans
    else a :: b :: spans
  | spans => spans

def coarsen (s : LiveRate) : LiveRate :=
  { s with spans := mergeOlder s.fine s.retained, head := 0 }

def observe (fround : ℚ → ℚ) (s : LiveRate) (bytes ms : ℚ) : LiveRate × Option Shift :=
  if ¬0 < ms then (s, none)
  else if !s.anchored then ({ s with anchored := 0 < bytes }, none)
  else
    let start := s.evidence
    let s := s.push (max 0 bytes) ms
    let r := s.toRegime.recalculate (rateSince s)
    let (after, shift) := regime fround start r
    let regime :=
      if after.regimeStart ≠ r.regimeStart then after.recalculate (rateSince s) else after
    let s := { s with toRegime := regime }.prune.compact
    (if maxSpans < s.spans.length - s.head then coarsen s else s, shift)

/-! ## The same functions -/

/-- The search finds where the spans pass the start. -/
theorem search_eq (spans : List Span) (start : ℚ) (lo hi : ℕ) :
    search spans start lo hi = spans.partitionBetween (fun span => span.end_ ≤ start) lo hi := by
  induction lo, hi using search.induct spans start with
  | case1 lo hi hlt mid hend ih =>
    have hmid : lo + (hi - lo) / 2 = mid := by omega
    rw [search, if_pos hlt, List.partitionBetween, if_pos hlt]
    simp only [hmid]
    rw [if_pos hend, if_pos hend, ih]
  | case2 lo hi hlt mid hend ih =>
    have hmid : lo + (hi - lo) / 2 = mid := by omega
    rw [search, if_pos hlt, List.partitionBetween, if_pos hlt]
    simp only [hmid]
    rw [if_neg hend, if_neg hend, ih]
  | case3 lo hi hge => rw [search, if_neg hge, List.partitionBetween, if_neg hge]

/-- The estimator holds a regime as the model does. -/
theorem hold_eq (r : Regime) : hold r = r.hold := by
  rw [hold, Regime.hold]
  match r.change with
  | none | some (start, before) => rfl

/-- The estimator starts a regime as the model does. -/
theorem regime_eq (fround : ℚ → ℚ) (start : ℚ) (r : Regime) :
    regime fround start r = r.regime fround start := by
  rw [regime, Regime.regime]
  cases r.candidate with
  | none =>
    simp only [hold_eq, Bool.not_eq_true', ← not_le, ite_not]
  | some candidate =>
    simp only
    cases candidate.up <;> cases r.held <;> simp

/-- The estimator merges the older spans as the model does. -/
theorem mergeOlder_eq (fine : ℚ) (spans : List Span) :
    mergePairs (spans.take (((laterOfPairs spans).takeWhile (·.end_ ≤ fine)).length * 2))
        ++ spans.drop (((laterOfPairs spans).takeWhile (·.end_ ≤ fine)).length * 2)
      = mergeOlder fine spans := by
  induction spans using laterOfPairs.induct with
  | case1 a b spans ih =>
    rw [laterOfPairs, mergeOlder]
    by_cases hend : b.end_ ≤ fine
    · rw [List.takeWhile_cons, if_pos (decide_eq_true hend), if_pos hend, List.length_cons,
        Nat.succ_mul, List.take_succ_cons, List.take_succ_cons, mergePairs, ← ih]
      rfl
    · rw [List.takeWhile_cons, if_neg (by simpa using hend), if_neg hend]
      rfl
  | case2 spans h =>
    rw [laterOfPairs.eq_2 _ h, mergeOlder.eq_2 _ _ h]
    rfl

/-- The estimator coarsens as the model does. -/
theorem coarsen_eq (s : LiveRate) : coarsen s = s.coarsen := by
  rw [coarsen, LiveRate.coarsen, ← mergeOlder_eq]
  simp only [LiveRate.retained, List.drop_drop]

/-! ## Spans in order -/

/-- Spans end one after another, and by the evidence there is. -/
structure Sorted (s : LiveRate) : Prop where
  pairwise : (s.spans.map Span.end_).Pairwise (· ≤ ·)
  le : ∀ at_ ∈ s.spans.map Span.end_, at_ ≤ s.evidence

namespace Sorted

variable {s s' : LiveRate} {ms : ℚ}

/-- Fewer or merged spans, with the same evidence. -/
theorem of_sublist (h : Sorted s) (hspans : (s'.spans.map Span.end_).Sublist (s.spans.map Span.end_))
    (hevidence : s'.evidence = s.evidence) : Sorted s' :=
  ⟨h.pairwise.sublist hspans, fun at_ hat => hevidence ▸ h.le at_ (hspans.subset hat)⟩

/-- Pushing keeps the spans sorted. -/
theorem push (h : Sorted s) (bytes : ℚ) (hms : 0 < ms) : Sorted (s.push bytes ms) := by
  have hle : ∀ at_ ∈ s.spans.map Span.end_, at_ ≤ s.evidence + ms := fun at_ hat => by
    linarith [h.le at_ hat]
  constructor
  · rw [LiveRate.push, List.map_append]
    refine List.pairwise_append.mpr ⟨h.pairwise, List.pairwise_singleton _ _, fun at_ hat e he => ?_⟩
    rw [List.mem_singleton.mp he]
    exact hle at_ hat
  · intro at_ hat
    rw [LiveRate.push, List.map_append] at hat
    rcases List.mem_append.mp hat with hold | hnew
    · exact hle at_ hold
    · exact (List.mem_singleton.mp hnew).le

/-- Compacting keeps the spans sorted. -/
theorem compact (h : Sorted s) : Sorted s.compact := by
  rw [LiveRate.compact]
  split_ifs
  · exact h.of_sublist ((List.drop_sublist _ _).map _) rfl
  · exact h

/-- Merging keeps ends of spans, in order. -/
theorem mergeOlder_sublist (fine : ℚ) (spans : List Span) :
    ((mergeOlder fine spans).map Span.end_).Sublist (spans.map Span.end_) := by
  induction spans using laterOfPairs.induct with
  | case1 a b spans ih =>
    rw [mergeOlder]
    split_ifs
    · exact .cons _ (.cons_cons _ ih)
    · exact List.Sublist.refl _
  | case2 spans h => rw [mergeOlder.eq_2 _ _ h]

/-- Coarsening keeps the spans sorted. -/
theorem coarsen (h : Sorted s) : Sorted s.coarsen := by
  rw [← coarsen_eq]
  exact h.of_sublist ((mergeOlder_sublist _ _).trans ((List.drop_sublist _ _).map _)) rfl

/-- Advancing keeps the spans sorted. -/
theorem advance (h : Sorted s) (fround : ℚ → ℚ) (bytes : ℚ) (hms : 0 < ms) :
    Sorted (s.advance fround bytes ms).1 := by
  rw [LiveRate.advance]
  refine Sorted.compact ((h.push _ hms).of_sublist (List.Sublist.refl _) ?_)
  exact Regime.evidence_read fround _ _ _

/-- **An observation** keeps the spans sorted. -/
theorem observe (h : Sorted s) (fround : ℚ → ℚ) (bytes ms : ℚ) :
    Sorted (s.observe fround bytes ms).1 := by
  rw [LiveRate.observe, LiveRate.step]
  split_ifs with hms hfirst
  · exact h
  · exact ⟨h.pairwise, h.le⟩
  · have hadvance := h.advance fround bytes (not_le.mp hms)
    simp only
    split_ifs
    · exact hadvance.coarsen
    · exact hadvance

end Sorted

variable {s : LiveRate} {fround : ℚ → ℚ}

/-- **Both searches** find the span of a window. -/
theorem rateSince_eq (h : Sorted s) : rateSince s = s.rateSince := by
  funext start
  have hfound : s.spans[search s.spans start s.head (s.spans.length - 1)]? =
      s.retained[min (s.retained.partitionPoint fun span => span.end_ ≤ start)
        (s.retained.length - 1)]? := by
    rcases Nat.lt_or_ge s.head s.spans.length with hlt | hge
    · have hsorted : s.retained.Pairwise fun a b =>
          decide (b.end_ ≤ start) = true → decide (a.end_ ≤ start) = true := by
        refine ((List.pairwise_map.mp h.pairwise).sublist (List.drop_sublist _ _)).imp ?_
        intro a b hle hend
        rw [decide_eq_true_iff] at hend ⊢
        exact hle.trans hend
      have hlast : s.spans.length - 1 = s.head + (s.retained.length - 1) := by
        rw [LiveRate.retained, List.length_drop]
        omega
      have hdrop := List.partitionBetween_drop (fun span => decide (span.end_ ≤ start)) s.spans
        s.head 0 (s.retained.length - 1)
      rw [Nat.add_zero] at hdrop
      rw [search_eq, hlast, hdrop, ← LiveRate.retained, List.partitionBetween_pred hsorted]
      conv_rhs => rw [LiveRate.retained, List.getElem?_drop]
      rfl
    · rw [search, if_neg (by omega), List.getElem?_eq_none hge, LiveRate.retained,
        List.drop_eq_nil_of_le hge]
      rfl
  rw [rateSince, LiveRate.rateSince, hfound]
  cases s.retained[min (s.retained.partitionPoint fun span => span.end_ ≤ start)
    (s.retained.length - 1)]? with
  | none => rfl
  | some first => simp only [not_lt]

/-- **An observation**, the same in either client. -/
theorem observe_eq (h : Sorted s) (bytes ms : ℚ) :
    observe fround s bytes ms = s.observe fround bytes ms := by
  have hbytes : max 0 bytes = if 0 < bytes then bytes else 0 := by
    split_ifs with hpos
    · exact max_eq_right hpos.le
    · exact max_eq_left (not_lt.mp hpos)
  rw [observe, LiveRate.observe, LiveRate.step]
  by_cases hms : ms ≤ 0
  · rw [if_pos (not_lt.mpr hms), if_pos hms]
  rw [if_neg (not_not.mpr (not_le.mp hms)), if_neg hms]
  by_cases hfirst : s.anchored = false
  · rw [if_pos (by rw [hfirst]; rfl), if_pos hfirst]
  rw [if_neg (by simpa using hfirst), if_neg hfirst]
  have hsorted := h.push (if 0 < bytes then bytes else 0) (not_le.mp hms)
  simp only [hbytes, regime_eq, coarsen_eq, rateSince_eq hsorted]
  rfl

/-- **A run** of either client. -/
theorem trace_eq (h : Sorted s) (observations : List (ℚ × ℚ)) :
    trace (observe fround) LiveRate.toRegime s observations
      = trace (LiveRate.observe fround) LiveRate.toRegime s observations := by
  induction observations generalizing s with
  | nil => rw [trace, trace]
  | cons o rest ih =>
    obtain ⟨bytes, ms⟩ := o
    rw [trace, trace, observe_eq h]
    simp only
    rw [ih (h.observe fround bytes ms)]

/-- A new estimator's spans are sorted. -/
theorem sorted_start : Sorted {} := ⟨.nil, fun _ hat => absurd hat List.not_mem_nil⟩

end RateEstimator

/-- **The live rate.** For any observations of bytes over a time, in which no spans merge, what the
Rust client decides on after each, both rates among it, and the shift it returns are those of the
whole history. For any at all, they are those of the browser's estimator. -/
theorem live_rate (fround : ℚ → ℚ) (observations : List (ℚ × ℚ)) :
    (Within fround maxSpans {} observations →
      trace (LiveRate.observe fround) LiveRate.toRegime {} observations
        = trace (Whole.observe fround) Whole.toRegime {} observations) ∧
    trace (RateEstimator.observe fround) LiveRate.toRegime {} observations
      = trace (LiveRate.observe fround) LiveRate.toRegime {} observations :=
  ⟨LiveRate.Sound.start.trace_eq, RateEstimator.trace_eq RateEstimator.sorted_start observations⟩

/-- After an anchor, a slow and a fast delivery: 180 ms of the slow one are before the window. -/
theorem live_rate_three :
    (trace (LiveRate.observe id) LiveRate.toRegime {} [(1, 100), (500, 600), (1000, 600)]).map
      (·.1.presented) = [0, 2500 / 3, 22500 / 17] := by
  rw [(live_rate id _).1 (LiveRate.within_of_length id (by decide))]
  norm_num [trace, Whole.observe, Whole.advance, Whole.push, Whole.rateSince, Regime.read,
    Regime.recalculate, Regime.regime, Timeline.since, window, firstMs, fastWindowMs, minWindowMs,
    regimeReadyMs]

end GraphiteMeter.Measure.Live
