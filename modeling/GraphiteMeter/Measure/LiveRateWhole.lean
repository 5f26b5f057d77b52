import Mathlib.Tactic.Linarith
import Mathlib.Tactic.NormNum
import Mathlib.Tactic.Ring
import GraphiteMeter.Measure.LiveRate

/-!
# The live rate over the whole history

Reference: `rust/client/src/measure/live.rs`. `Whole` reads its rates from every span there was. The
spans that `LiveRate` lets go of end by `keep`, and no window starts before that again: a window's
start moves on with the evidence, and a new regime starts where its candidate did, which `keep` waits
for. So both read the same, as long as no spans merge.
-/

namespace GraphiteMeter.Measure.Live

open Timeline (elapsed weight since Positive)

/-! ## The whole history -/

/-- The rate with every span's bytes and length. -/
structure Whole extends Regime where
  anchored : Bool := false
  history : List (ℚ × ℚ) := []

namespace Whole

/-- The bytes since a time over the time. -/
def rateSince (w : Whole) (start : ℚ) : ℚ :=
  since start 0 w.history * 1000 / (w.evidence - start)

/-- Adds a span of `ms`. -/
def push (w : Whole) (bytes ms : ℚ) : Whole :=
  { w with evidence := w.evidence + ms, history := w.history ++ [(bytes, ms)] }

def advance (fround : ℚ → ℚ) (w : Whole) (bytes ms : ℚ) : Whole × Option Shift :=
  let start := w.evidence
  let w := w.push (if 0 < bytes then bytes else 0) ms
  let (regime, shift) := w.toRegime.read fround w.rateSince start
  ({ w with toRegime := regime }, shift)

def observe (fround : ℚ → ℚ) (w : Whole) (bytes ms : ℚ) : Whole × Option Shift :=
  if ms ≤ 0 then (w, none)
  else if w.anchored = false then ({ w with anchored := 0 < bytes }, none)
  else w.advance fround bytes ms

end Whole

/-- What each observation leaves to decide on, and the shift it returns. -/
def trace {σ : Type} (observe : σ → ℚ → ℚ → σ × Option Shift) (regime : σ → Regime) (s : σ) :
    List (ℚ × ℚ) → List (Regime × Option Shift)
  | [] => []
  | (bytes, ms) :: rest =>
    let (s, shift) := observe s bytes ms
    (regime s, shift) :: trace observe regime s rest

/-- No observation leaves more than `kept` spans, so none merge. -/
def Within (fround : ℚ → ℚ) (kept : ℕ) (s : LiveRate) : List (ℚ × ℚ) → Prop
  | [] => True
  | (bytes, ms) :: rest =>
    (0 < ms → s.anchored = true →
      (s.advance fround bytes ms).1.spans.length - (s.advance fround bytes ms).1.head ≤ kept) ∧
      Within fround kept (s.step fround kept bytes ms).1 rest

/-! ## Windows move on -/

/-- A window is no longer than the evidence. -/
theorem window_le {age : ℚ} (h : 0 ≤ age) : window age ≤ age := by
  rw [window, max_eq_left h]
  exact min_le_left _ _

/-- With evidence there is a window. -/
theorem window_pos {age : ℚ} (h : 0 < age) : 0 < window age := by
  rw [window, max_eq_left h.le]
  exact lt_min h (lt_max_of_lt_left (by norm_num [minWindowMs]))

/-- An older regime's window starts no earlier. -/
theorem sub_window_mono {age later : ℚ} (h : 0 ≤ age) (hle : age ≤ later) :
    age - window age ≤ later - window later := by
  have hmin : min later (max minWindowMs (later * (17 / 20)))
      ≤ min age (max minWindowMs (age * (17 / 20))) + (later - age) := by
    rw [← min_add_add_right]
    refine min_le_min (by linarith) ?_
    rw [← max_add_add_right]
    exact max_le_max (by linarith) (by linarith)
  rw [window, window, max_eq_left h, max_eq_left (h.trans hle)]
  linarith

namespace Regime

/-- A regime, and a pending one, start by the evidence there is. -/
structure Ordered (r : Regime) : Prop where
  regimeStart : r.regimeStart ≤ r.evidence
  candidate : ∀ c ∈ r.candidate, c.start ≤ r.evidence

variable {r : Regime} {fround rateSince rateSince' : ℚ → ℚ} {start ms at_ : ℚ}

/-- What a decision does to the regime: nothing, or a candidate comes, goes or becomes the regime. -/
inductive Moves (start : ℚ) (r : Regime) : Regime → Prop
  | stays {r' : Regime} (hevidence : r'.evidence = r.evidence)
      (hregime : r'.regimeStart = r.regimeStart)
      (hcandidate : ∀ c ∈ r'.candidate, c ∈ r.candidate ∨ c.start = start) : Moves start r r'
  | starts {r' : Regime} {c : Candidate} (hc : r.candidate = some c)
      (hevidence : r'.evidence = r.evidence) (hregime : r'.regimeStart = c.start)
      (hcandidate : r'.candidate = none) : Moves start r r'

/-- Every decision of the regime is one of its moves. -/
theorem moves_regime (fround : ℚ → ℚ) (start : ℚ) (r : Regime) :
    Moves start r (r.regime fround start).1 := by
  have hsame : Moves start r r := .stays rfl rfl fun c hc => .inl hc
  rw [regime]
  split
  next =>
    simp only
    split_ifs
    · exact hsame
    · exact .stays rfl rfl fun c hc => .inl hc
    · exact hsame
    · refine .stays rfl rfl fun c hc => .inr ?_
      cases hc
      rfl
  next c hc =>
    simp only
    generalize (if 0 < c.reference then r.fast / c.reference else 1) = ratio
    generalize (if c.up = true then upshiftMs else downshiftMs) = confirm
    generalize (if r.held = true then some (c.start, c.before) else r.change) = change
    split_ifs
    · exact .stays rfl rfl nofun
    · exact hsame
    · exact .starts hc rfl rfl rfl

/-- Where the presentation window starts. -/
def slow (r : Regime) : ℚ := r.evidence - window (r.evidence - r.regimeStart)

/-- Where the fast window starts. -/
def quick (r : Regime) : ℚ := max r.regimeStart (r.evidence - fastWindowMs)

/-- What is kept reaches back to every start the regime may read. -/
theorem keep_le (r : Regime) :
    r.keep ≤ r.slow ∧ r.keep ≤ r.quick ∧ ∀ c ∈ r.candidate, r.keep ≤ c.start := by
  rw [keep]
  split
  next h =>
    rw [h]
    exact ⟨min_le_left _ _, min_le_right _ _, nofun⟩
  next c h =>
    rw [h]
    refine ⟨(min_le_left _ _).trans (min_le_left _ _), (min_le_left _ _).trans (min_le_right _ _),
      fun c' hc' => ?_⟩
    cases hc'
    exact min_le_right _ _

/-- It reaches no further back than they do. -/
theorem le_keep (hslow : at_ ≤ r.slow) (hquick : at_ ≤ r.quick)
    (hcandidate : ∀ c ∈ r.candidate, at_ ≤ c.start) : at_ ≤ r.keep := by
  rw [keep]
  split
  next => exact le_min hslow hquick
  next c h => exact le_min (le_min hslow hquick) (hcandidate c h)

/-- It starts by the end of the evidence. -/
theorem keep_le_evidence (h : r.Ordered) : r.keep ≤ r.evidence := by
  refine r.keep_le.2.1.trans (max_le h.regimeStart ?_)
  have : 0 ≤ fastWindowMs := by norm_num [fastWindowMs]
  linarith

/-- A regime that windows read later: none of them starts before the other's `keep`. -/
structure Later (r r' : Regime) : Prop where
  evidence : r.evidence ≤ r'.evidence
  lt : r'.regimeStart < r'.evidence
  slow : r.keep ≤ r'.slow
  quick : r.keep ≤ r'.quick
  candidate : ∀ c ∈ r'.candidate, c.start ≤ r'.evidence ∧ r.keep ≤ c.start

namespace Later

variable {r' : Regime}

/-- A later regime is in order. -/
theorem ordered (h : Later r r') : r'.Ordered := ⟨h.lt.le, fun c hc => (h.candidate c hc).1⟩

/-- A later regime keeps no more of the past. -/
theorem keep_le_keep (h : Later r r') : r.keep ≤ r'.keep :=
  le_keep h.slow h.quick fun c hc => (h.candidate c hc).2

/-- A later regime's slow window has started. -/
theorem slow_lt (h : Later r r') : r'.slow < r'.evidence := by
  have := window_pos (sub_pos.mpr h.lt)
  rw [Regime.slow]
  linarith

/-- So has its quick window. -/
theorem quick_lt (h : Later r r') : r'.quick < r'.evidence := by
  have : 0 < fastWindowMs := by norm_num [fastWindowMs]
  exact max_lt h.lt (by linarith)

/-- The same regime with more evidence. -/
theorem of_same (hr : r.Ordered) (hlt : r.evidence < r'.evidence)
    (hregime : r'.regimeStart = r.regimeStart)
    (hcandidate : ∀ c ∈ r'.candidate, c ∈ r.candidate ∨ c.start = r.evidence) : Later r r' := by
  have hstart := hr.regimeStart
  refine ⟨hlt.le, hregime ▸ hstart.trans_lt hlt, r.keep_le.1.trans ?_, r.keep_le.2.1.trans ?_,
    fun c hc => ?_⟩
  · have := sub_window_mono (sub_nonneg.mpr hstart)
      (sub_le_sub_right hlt.le r.regimeStart)
    rw [Regime.slow, Regime.slow, hregime]
    linarith
  · rw [Regime.quick, Regime.quick, hregime]
    exact max_le_max le_rfl (by linarith)
  · rcases hcandidate c hc with hold | hnew
    · exact ⟨(hr.candidate c hold).trans hlt.le, r.keep_le.2.2 c hold⟩
    · exact ⟨hnew ▸ hlt.le, hnew ▸ keep_le_evidence hr⟩

/-- The regime that a candidate becomes. -/
theorem of_candidate {c : Candidate} (hr : r.Ordered) (hlt : r.evidence < r'.evidence)
    (hc : c ∈ r.candidate) (hregime : r'.regimeStart = c.start) (hcandidate : r'.candidate = none) :
    Later r r' := by
  have hstart : r'.regimeStart < r'.evidence := hregime ▸ (hr.candidate c hc).trans_lt hlt
  have hkeep : r.keep ≤ r'.regimeStart := hregime ▸ r.keep_le.2.2 c hc
  refine ⟨hlt.le, hstart, hkeep.trans ?_, hkeep.trans (le_max_left _ _), by rw [hcandidate]; nofun⟩
  have := window_le (sub_nonneg.mpr hstart.le)
  rw [Regime.slow]
  linarith

end Later

/-- The regime that an observation's windows read first. -/
def extend (r : Regime) (ms : ℚ) : Regime := { r with evidence := r.evidence + ms }

/-- More evidence makes a regime later. -/
theorem later_extend (hr : r.Ordered) (hms : 0 < ms) : Later r (r.extend ms) :=
  .of_same hr (lt_add_of_pos_right _ hms) rfl fun _ hc => .inl hc

/-- So does a move after it. -/
theorem later_of_moves {r' : Regime} (hr : r.Ordered) (hms : 0 < ms)
    (h : Moves r.evidence (r.extend ms) r') : Later r r' := by
  have hlt : r.evidence < (r.extend ms).evidence := lt_add_of_pos_right _ hms
  cases h with
  | stays hevidence hregime hcandidate => exact .of_same hr (hevidence ▸ hlt) hregime hcandidate
  | starts hc hevidence hregime hcandidate =>
    exact .of_candidate hr (hevidence ▸ hlt) hc hregime hcandidate

/-- Reading rates anew moves no start. -/
theorem moves_of_recalculate {r' : Regime} (h : Moves start (r.recalculate rateSince) r') :
    Moves start r r' := by
  cases h with
  | stays hevidence hregime hcandidate => exact .stays hevidence hregime hcandidate
  | starts hc hevidence hregime hcandidate => exact .starts hc hevidence hregime hcandidate

/-- Nor does it make a regime earlier. -/
theorem Later.recalculate {r' : Regime} (h : Later r r') (rateSince : ℚ → ℚ) :
    Later r (r'.recalculate rateSince) :=
  ⟨h.evidence, h.lt, h.slow, h.quick, h.candidate⟩

/-- Rates are read at the two starts only. -/
theorem recalculate_congr (r : Regime) (hslow : rateSince r.slow = rateSince' r.slow)
    (hquick : rateSince r.quick = rateSince' r.quick) :
    r.recalculate rateSince = r.recalculate rateSince' := by
  rw [slow] at hslow
  rw [quick] at hquick
  rw [recalculate, recalculate, hslow, hquick]

/-- A span's evidence, rates and decision make the regime later. -/
theorem later_decided (fround rateSince : ℚ → ℚ) (hr : r.Ordered) (hms : 0 < ms) :
    Later r (((r.extend ms).recalculate rateSince).regime fround r.evidence).1 :=
  later_of_moves hr hms (moves_of_recalculate (moves_regime fround r.evidence _))

/-- **What is read** is read later: no window starts before `keep` again. -/
theorem later_read (fround rateSince : ℚ → ℚ) (hr : r.Ordered) (hms : 0 < ms) :
    Later r ((r.extend ms).read fround rateSince r.evidence).1 := by
  have h := later_decided fround rateSince hr hms
  simp only [read]
  split_ifs
  · exact h.recalculate rateSince
  · exact h

/-- A decision leaves the evidence. -/
theorem evidence_regime (fround : ℚ → ℚ) (start : ℚ) (r : Regime) :
    (r.regime fround start).1.evidence = r.evidence := by
  cases moves_regime fround start r with
  | stays hevidence => exact hevidence
  | starts _ hevidence => exact hevidence

/-- So does a reading. -/
theorem evidence_read (fround rateSince : ℚ → ℚ) (start : ℚ) (r : Regime) :
    (r.read fround rateSince start).1.evidence = r.evidence := by
  have h := evidence_regime fround start (r.recalculate rateSince)
  simp only [read]
  split_ifs
  · exact h
  · exact h

/-- **Rates that agree** from `keep` on are read the same. -/
theorem read_congr (fround : ℚ → ℚ) (hr : r.Ordered) (hms : 0 < ms)
    (h : ∀ at_, r.keep ≤ at_ → at_ < (r.extend ms).evidence → rateSince at_ = rateSince' at_) :
    (r.extend ms).read fround rateSince r.evidence
      = (r.extend ms).read fround rateSince' r.evidence := by
  have hfirst := later_extend hr hms
  have hsame : (r.extend ms).recalculate rateSince = (r.extend ms).recalculate rateSince' :=
    recalculate_congr _ (h _ hfirst.slow hfirst.slow_lt) (h _ hfirst.quick hfirst.quick_lt)
  have hafter := later_decided fround rateSince' hr hms
  have hevidence : (((r.extend ms).recalculate rateSince').regime fround r.evidence).1.evidence
      = (r.extend ms).evidence := evidence_regime fround r.evidence _
  have hagain := recalculate_congr _
    (h _ hafter.slow (hevidence ▸ hafter.slow_lt)) (h _ hafter.quick (hevidence ▸ hafter.quick_lt))
  simp only [read]
  rw [hsame, hagain]

end Regime

/-! ## The spans that stand -/

/-- The spans of a part of the history, from where it starts. -/
def layout (origin total : ℚ) : List (ℚ × ℚ) → List Span
  | [] => []
  | (bytes, ms) :: rest =>
    ⟨origin, origin + ms, bytes, total + bytes⟩ :: layout (origin + ms) (total + bytes) rest

/-- Spans laid out one after another. -/
theorem layout_append (origin total : ℚ) (l l' : List (ℚ × ℚ)) :
    layout origin total (l ++ l')
      = layout origin total l ++ layout (origin + elapsed l) (total + weight l) l' := by
  induction l generalizing origin total with
  | nil => simp [layout]
  | cons x l ih => simp [layout, ih, add_assoc]

/-- Spans end after the first starts and by where the last ends. -/
theorem end_of_mem_layout {origin total : ℚ} {l : List (ℚ × ℚ)} (hpos : Positive l) :
    ∀ span ∈ layout origin total l, origin < span.end_ ∧ span.end_ ≤ origin + elapsed l := by
  induction l generalizing origin total with
  | nil => nofun
  | cons x l ih =>
    intro span hspan
    have hx := hpos x List.mem_cons_self
    have hl : Positive l := fun y hy => hpos y (List.mem_cons_of_mem x hy)
    have hrest := hl.elapsed_nonneg
    rw [Timeline.elapsed_cons]
    rcases List.mem_cons.mp hspan with rfl | hspan
    · exact ⟨by simpa using hx, by linarith⟩
    · obtain ⟨hstart, hend⟩ := ih hl span hspan
      exact ⟨by linarith, by linarith⟩

/-- Spans end in their order. -/
theorem layout_pairwise (origin total : ℚ) {l : List (ℚ × ℚ)} (hpos : Positive l) :
    (layout origin total l).Pairwise fun a b => a.end_ ≤ b.end_ := by
  induction l generalizing origin total with
  | nil => exact .nil
  | cons x l ih =>
    have hl : Positive l := fun y hy => hpos y (List.mem_cons_of_mem x hy)
    exact .cons (fun span hspan => (end_of_mem_layout hl span hspan).1.le) (ih _ _ hl)

/-- The spans of a history that stand, where those that do not have ended by `at_`. -/
def Stands (history : List (ℚ × ℚ)) (at_ : ℚ) (spans : List Span) : Prop :=
  ∃ gone kept, history = gone ++ kept ∧ spans = layout (elapsed gone) (weight gone) kept ∧
    elapsed gone ≤ at_

/-- What stands for a start stands for a later one. -/
theorem Stands.mono {history : List (ℚ × ℚ)} {at_ later : ℚ} {spans : List Span}
    (h : Stands history at_ spans) (hle : at_ ≤ later) : Stands history later spans :=
  let ⟨gone, kept, hhistory, hspans, hgone⟩ := h
  ⟨gone, kept, hhistory, hspans, hgone.trans hle⟩

namespace LiveRate

variable {s : LiveRate} {history : List (ℚ × ℚ)} {at_ : ℚ}

/-- **The rate since a time** is the whole history's, if nothing that reaches past it is gone. -/
theorem rateSince_eq (hpos : Positive history) (hevidence : s.evidence = elapsed history)
    (hbytes : s.bytes = weight history) (hstands : Stands history at_ s.retained)
    (hlt : at_ < s.evidence) :
    s.rateSince at_ = since at_ 0 history * 1000 / (s.evidence - at_) := by
  obtain ⟨gone, kept, rfl, hspans, hgone⟩ := hstands
  rw [hevidence, Timeline.elapsed_append] at hlt
  obtain ⟨before, w, d, after, rfl, hbefore, hd⟩ := Timeline.exists_split hgone hlt
  have hkept : Positive (before ++ (w, d) :: after) := fun x hx =>
    hpos x (List.mem_append_right _ hx)
  have hsplit : since at_ 0 (gone ++ (before ++ (w, d) :: after))
      = w * ((elapsed gone + elapsed before + d - at_) / d) + weight after := by
    rw [← List.append_assoc] at hpos ⊢
    rw [Timeline.since_split hpos] <;> rw [Timeline.elapsed_append, zero_add] <;> assumption
  -- the search finds the span that the time falls in
  have hlayout := layout_append (elapsed gone) (weight gone) before ((w, d) :: after)
  rw [layout] at hlayout
  have hsorted := layout_pairwise (elapsed gone) (weight gone) hkept
  rw [hlayout] at hspans hsorted
  have hfound := List.getElem?_partitionPoint (p := fun span => decide (span.end_ ≤ at_))
    (hsorted.imp fun hle hend => by
      rw [decide_eq_true_iff] at hend ⊢
      exact hle.trans hend)
    (fun span hspan => decide_eq_true
      ((end_of_mem_layout (fun x hx => hkept x (List.mem_append_left _ hx)) span hspan).2.trans
        hbefore))
    (decide_eq_false (not_le.mpr hd))
  rw [← hspans] at hfound
  obtain ⟨hindex, -⟩ := List.getElem?_eq_some_iff.mp hfound
  rw [rateSince]
  simp only
  rw [min_eq_left (Nat.le_sub_one_of_lt hindex), hfound]
  simp only
  rw [max_eq_left hbefore, if_neg (by rw [hevidence, Timeline.elapsed_append]; linarith), hsplit,
    hbytes]
  congr 2
  simp only [Timeline.weight_append, Timeline.weight_cons, add_sub_cancel_left]
  ring

/-- Skipping stays within the spans. -/
theorem head_skip (keep : ℚ) (spans : List Span) {head : ℕ} (h : head ≤ spans.length) :
    skip keep spans head ≤ spans.length := by
  induction head using skip.induct keep spans with
  | case1 head hskip ih =>
    rw [skip, if_pos hskip]
    exact ih hskip.1.le
  | case2 head hskip =>
    rw [skip, if_neg hskip]
    exact h

/-- What is skipped has ended by `keep`. -/
theorem stands_skip {keep : ℚ} {spans : List Span} {head : ℕ}
    (h : Stands history keep (spans.drop head)) :
    Stands history keep (spans.drop (skip keep spans head)) := by
  induction head using skip.induct keep spans with
  | case1 head hskip ih =>
    rw [skip, if_pos hskip]
    refine ih ?_
    have hlt : head < spans.length := by omega
    have hend : spans[head].end_ ≤ keep := by
      have := hskip.2
      rw [List.getElem?_eq_getElem hlt, Option.any_some] at this
      exact of_decide_eq_true this
    obtain ⟨gone, kept, rfl, hspans, -⟩ := h
    rw [List.drop_eq_getElem_cons hlt] at hspans
    match kept with
    | [] => cases hspans
    | (bytes, ms) :: kept =>
      obtain ⟨hfirst, hrest⟩ := List.cons.inj hspans
      rw [hfirst] at hend
      refine ⟨gone ++ [(bytes, ms)], kept, by simp, ?_, by simpa using hend⟩
      simpa using hrest
  | case2 head hskip =>
    rw [skip, if_neg hskip]
    exact h

/-- Compacting leaves what is retained. -/
theorem retained_compact (s : LiveRate) : s.compact.retained = s.retained := by
  rw [compact]
  split_ifs
  · rfl
  · rfl

/-- Compacting leaves the regime. -/
theorem toRegime_compact (s : LiveRate) : s.compact.toRegime = s.toRegime := by
  rw [compact]
  split_ifs <;> rfl

/-- Compacting leaves the anchor. -/
theorem anchored_compact (s : LiveRate) : s.compact.anchored = s.anchored := by
  rw [compact]
  split_ifs <;> rfl

/-- Compacting leaves the bytes. -/
theorem bytes_compact (s : LiveRate) : s.compact.bytes = s.bytes := by
  rw [compact]
  split_ifs <;> rfl

/-- Once compacted the head is within the spans. -/
theorem head_compact (h : s.head ≤ s.spans.length) : s.compact.head ≤ s.compact.spans.length := by
  rw [compact]
  split_ifs
  · exact Nat.zero_le _
  · exact h

/-- The rate and the whole history decide the same, and the spans that do not stand have ended. -/
structure Sound (s : LiveRate) (w : Whole) : Prop where
  regime : s.toRegime = w.toRegime
  anchored : s.anchored = w.anchored
  ordered : w.toRegime.Ordered
  positive : Positive w.history
  evidence : w.evidence = elapsed w.history
  bytes : s.bytes = weight w.history
  head : s.head ≤ s.spans.length
  stands : Stands w.history w.keep s.retained

namespace Sound

variable {w : Whole} {fround : ℚ → ℚ} {bytes ms : ℚ}

/-- A span more, before any is let go. -/
theorem stands_push (h : Sound s w) (bytes ms : ℚ) :
    Stands (w.history ++ [(bytes, ms)]) w.keep (s.push bytes ms).retained := by
  obtain ⟨gone, kept, hhistory, hspans, hgone⟩ := h.stands
  refine ⟨gone, kept ++ [(bytes, ms)], by rw [hhistory, List.append_assoc], ?_, hgone⟩
  have hevidence : s.evidence = elapsed gone + elapsed kept := by
    rw [← Timeline.elapsed_append, ← hhistory, ← h.evidence, h.regime]
  have hbytes : s.bytes = weight gone + weight kept := by
    rw [← Timeline.weight_append, ← hhistory, h.bytes]
  rw [retained, push, List.drop_append_of_le_length h.head, ← retained, hspans, layout_append,
    hevidence, hbytes]
  rfl

/-- **An observation** keeps both the same. -/
theorem advance (h : Sound s w) (fround : ℚ → ℚ) (bytes : ℚ) (hms : 0 < ms) :
    (s.advance fround bytes ms).2 = (w.advance fround bytes ms).2 ∧
      Sound (s.advance fround bytes ms).1 (w.advance fround bytes ms).1 := by
  have hpush := h.stands_push (if 0 < bytes then bytes else 0) ms
  obtain ⟨r, anchored, spans, head, total⟩ := s
  obtain ⟨r', anchored', history⟩ := w
  obtain ⟨rfl, rfl, hordered, hpositive, hevidence, hbytes, hhead, -⟩ := h
  rw [LiveRate.advance, Whole.advance]
  simp only at hordered hpositive hevidence hbytes hhead hpush ⊢
  generalize (if 0 < bytes then bytes else 0) = bytes at hpush ⊢
  have hspan : Positive (history ++ [(bytes, ms)]) :=
    hpositive.append fun x hx => by rwa [List.mem_singleton.mp hx]
  have helapsed : r.evidence + ms = elapsed (history ++ [(bytes, ms)]) := by simp [hevidence]
  have htotal : total + bytes = weight (history ++ [(bytes, ms)]) := by simp [hbytes]
  -- every window starts between `keep` and the evidence, where the spans that stand tell the rate
  have hrates (at_ : ℚ) (hkeep : r.keep ≤ at_) (hlt : at_ < (r.extend ms).evidence) :
      (LiveRate.push ⟨r, anchored, spans, head, total⟩ bytes ms).rateSince at_
        = (Whole.push ⟨r, anchored, history⟩ bytes ms).rateSince at_ :=
    rateSince_eq hspan helapsed htotal (hpush.mono hkeep) hlt
  have hread := Regime.read_congr fround hordered hms hrates
  have hlater := Regime.later_read fround (Whole.push ⟨r, anchored, history⟩ bytes ms).rateSince
    hordered hms
  have hevidence := Regime.evidence_read fround
    (Whole.push ⟨r, anchored, history⟩ bytes ms).rateSince r.evidence (r.extend ms)
  refine ⟨congrArg Prod.snd hread, ?_⟩
  have hregime := congrArg Prod.fst hread
  refine ⟨(toRegime_compact _).trans hregime, anchored_compact _, hlater.ordered, hspan,
    hevidence.trans helapsed, (bytes_compact _).trans htotal, head_compact (head_skip _ _ ?_), ?_⟩
  · exact hhead.trans (by simp [push])
  · rw [retained_compact]
    have hkeep := hlater.keep_le_keep
    rw [← hregime] at hkeep
    exact (stands_skip (hpush.mono hkeep)).mono (congrArg Regime.keep hregime).le

/-- **One span** is read as the whole history is. -/
theorem step {kept : ℕ} (h : Sound s w)
    (hkept : 0 < ms → s.anchored = true →
      (s.advance fround bytes ms).1.spans.length - (s.advance fround bytes ms).1.head ≤ kept) :
    (s.step fround kept bytes ms).2 = (w.observe fround bytes ms).2 ∧
      Sound (s.step fround kept bytes ms).1 (w.observe fround bytes ms).1 := by
  have hanchored := h.anchored
  rw [LiveRate.step, Whole.observe, ← hanchored]
  split_ifs with hms hfirst
  · exact ⟨rfl, h⟩
  · exact ⟨rfl, h.regime, rfl, h.ordered, h.positive, h.evidence, h.bytes, h.head, h.stands⟩
  · have hadvance := h.advance fround bytes (not_le.mp hms)
    have hle := hkept (not_le.mp hms) ((Bool.not_eq_false _).mp hfirst)
    simp only
    rwa [if_neg (not_lt.mpr hle)]

/-- Both start with nothing. -/
theorem start : Sound {} {} where
  regime := rfl
  anchored := rfl
  ordered := ⟨le_rfl, nofun⟩
  positive := nofun
  evidence := rfl
  bytes := rfl
  head := le_rfl
  stands := ⟨[], [], rfl, rfl, by simp [Regime.keep, window, fastWindowMs, minWindowMs]⟩

/-- **A run** decides as on the whole history, as long as no spans merge. -/
theorem trace_eq {observations : List (ℚ × ℚ)} (h : Sound s w)
    (hwithin : Within fround maxSpans s observations) :
    trace (LiveRate.observe fround) LiveRate.toRegime s observations
      = trace (Whole.observe fround) Whole.toRegime w observations := by
  induction observations generalizing s w with
  | nil => rw [trace, trace]
  | cons o rest ih =>
    obtain ⟨hkept, hrest⟩ := hwithin
    obtain ⟨hshift, hnext⟩ := h.step hkept
    rw [trace, trace]
    simp only
    rw [LiveRate.observe, hshift, hnext.regime, ← ih hnext hrest]

end Sound

/-! ## Few observations -/

/-- Skipping only goes on. -/
theorem head_le_skip (keep : ℚ) (spans : List Span) (head : ℕ) : head ≤ skip keep spans head := by
  induction head using skip.induct keep spans with
  | case1 head hskip ih =>
    rw [skip, if_pos hskip]
    exact (Nat.le_succ head).trans ih
  | case2 head hskip => rw [skip, if_neg hskip]

/-- Pruning retains no more. -/
theorem length_prune (s : LiveRate) : s.prune.retained.length ≤ s.retained.length := by
  rw [retained, retained, List.length_drop, List.length_drop]
  exact Nat.sub_le_sub_left (head_le_skip _ _ _) _

/-- An observation adds a span at most. -/
theorem length_advance (fround : ℚ → ℚ) (s : LiveRate) (bytes ms : ℚ) :
    (s.advance fround bytes ms).1.retained.length ≤ s.retained.length + 1 := by
  rw [advance]
  simp only
  rw [retained_compact]
  refine (length_prune _).trans ?_
  simp only [retained, push, List.length_drop, List.length_append, List.length_singleton]
  omega

/-- Fewer observations than `kept` are within it. -/
theorem within_of_length (fround : ℚ → ℚ) {kept : ℕ} {s : LiveRate} {observations : List (ℚ × ℚ)}
    (h : s.retained.length + observations.length ≤ kept) : Within fround kept s observations := by
  induction observations generalizing s with
  | nil => trivial
  | cons o rest ih =>
    rw [List.length_cons] at h
    have hadvance := length_advance fround s o.1 o.2
    have hkept : (s.advance fround o.1 o.2).1.retained.length ≤ kept := by omega
    refine ⟨fun _ _ => by rwa [retained, List.length_drop] at hkept, ih ?_⟩
    rw [step]
    split_ifs with hms hfirst
    · exact (Nat.add_le_add_left (Nat.le_succ _) _).trans h
    · exact (Nat.add_le_add_left (Nat.le_succ _) _).trans h
    · rw [retained, List.length_drop] at hkept
      simp only
      rw [if_neg (not_lt.mpr hkept)]
      omega

end LiveRate

end GraphiteMeter.Measure.Live
