import GraphiteMeter.Measure.Observe
import GraphiteMeter.Measure.Window

/-!
# The measurement intervals

Reference: `rust/client/src/measure/aggregate.rs`. Intervals are opened, extended, closed as
incomplete and cut back to a mark. `Sound` is what every call keeps: the samples accepted in the open
interval lead from its first boundary to its last, each mark is a point on that way, and each
interval's window reaches to such a point.
-/

namespace GraphiteMeter.Measure

/-! ## What a window measures -/

/-- A component is what a participant's counts grew by between two boundaries, and what the clock
did that they were taken on: the boundaries' own for a download, the receiver's for an upload. -/
def Measures (first last : Boundary) (id : ServerId) (component : Component) : Direction → Prop
  | .down => ∃ start end_ : ℕ, (first.reading id).bind Reading.down = some start ∧
      (last.reading id).bind Reading.down = some end_ ∧ end_ = start + component.bytes ∧
      last.at_ = first.at_ + component.duration
  | .up => ∃ start end_ : Receiver, (first.reading id).bind Reading.up = some start ∧
      (last.reading id).bind Reading.up = some end_ ∧ end_.id = start.id ∧
      end_.counters.bytes = start.counters.bytes + component.bytes ∧
      end_.counters.nanos = start.counters.nanos + component.duration

/-- A window from one boundary to another: it has a component per participant and moved direction,
each the difference of the boundaries' counts. -/
structure Spans (stage : Stage) (ids : List ServerId) (first last : Boundary) (w : Window) :
    Prop where
  start : w.start = first.at_
  end_ : w.end_ = last.at_
  length : ∀ direction, (w.components.get direction).length =
    if stage.moves direction then ids.length else 0
  measures : ∀ direction (k : ℕ) id component, ids[k]? = some id →
    (w.components.get direction)[k]? = some component → Measures first last id component direction

/-- Where boundaries advance, `window` gives what they measure. -/
theorem spans_span {stage : Stage} {ids : List ServerId} {first last : Boundary}
    (h : Advances stage ids first last) : Spans stage ids first last (span stage ids first last) where
  start := rfl
  end_ := rfl
  length direction := by
    rw [span_components, components]
    split_ifs
    · exact List.length_map _
    · rfl
  measures direction k id found hid hfound := by
    rw [span_components, components] at hfound
    split_ifs at hfound with hmoves
    · rw [List.getElem?_map, hid, Option.map_some, Option.some.injEq] at hfound
      subst hfound
      have hcontinuous := h.continuous id (List.mem_of_getElem? hid)
      have helapsed := h.elapsed
      cases direction with
      | down =>
        obtain ⟨start, end_, hstart, hend, hle⟩ := hcontinuous.down hmoves
        refine ⟨start, end_, hstart, hend, ?_, ?_⟩
        · simp only [component, Component.of, Boundary.downAt, hstart, hend, Option.getD_some]
          omega
        · simp only [component, Component.of]
          omega
      | up =>
        obtain ⟨start, end_, hstart, hend, hsame, hbytes, hnanos⟩ := hcontinuous.up hmoves
        refine ⟨start, end_, hstart, hend, hsame.symm, ?_, ?_⟩
        · simp only [component, Component.of, Boundary.bytesAt, hstart, hend, Option.elim_some]
          omega
        · simp only [component, Component.of, Boundary.nanosAt, hstart, hend, Option.elim_some]
          omega
    · cases hfound

/-- Samples taken from each boundary of a path to the next. -/
def Along (stage : Stage) (ids : List ServerId) (path : List Boundary) (samples : List Window) :
    Prop :=
  path.length = samples.length + 1 ∧ ∀ (n : ℕ) a b sample, path[n]? = some a →
    path[n + 1]? = some b → samples[n]? = some sample → Spans stage ids a b sample

/-! ## Chains of samples -/

section Chain

variable {given : Boundary → Prop} {stage : Stage} {ids : List ServerId} {first last : Boundary}
  {samples : List Window}

/-- Samples that lead from one given boundary to another, each where the one before ended. -/
inductive Chain (given : Boundary → Prop) (stage : Stage) (ids : List ServerId) (first : Boundary) :
    List Window → Boundary → Prop
  | nil (hgiven : given first) : Chain given stage ids first [] first
  | snoc {samples : List Window} {middle last : Boundary}
      (h : Chain given stage ids first samples middle) (hadvances : Advances stage ids middle last)
      (hgiven : given last) :
      Chain given stage ids first (samples ++ [span stage ids middle last]) last

namespace Chain

/-- A chain stands still or spans a window. -/
theorem cases_advances (h : Chain given stage ids first samples last) :
    samples = [] ∧ last = first ∨ samples ≠ [] ∧ Advances stage ids first last := by
  induction h with
  | nil => exact .inl ⟨rfl, rfl⟩
  | snoc h hadvances hgiven ih =>
    right
    rcases ih with ⟨-, rfl⟩ | ⟨-, hbefore⟩
    · exact ⟨by simp, hadvances⟩
    · exact ⟨by simp, hbefore.trans hadvances⟩

/-- The last boundary of a chain was given. -/
theorem given_last (h : Chain given stage ids first samples last) : given last := by
  cases h with
  | nil hgiven => exact hgiven
  | snoc h hadvances hgiven => exact hgiven

/-- The boundaries a chain leads through. -/
theorem exists_path (h : Chain given stage ids first samples last) :
    ∃ path, Along stage ids path samples ∧ (∀ b ∈ path, given b) ∧ path.head? = some first ∧
      path.getLast? = some last := by
  induction h with
  | nil hgiven => exact ⟨[first], ⟨rfl, by simp⟩, by simpa using hgiven, rfl, rfl⟩
  | snoc h hadvances hgiven ih =>
    rename_i samples middle last
    obtain ⟨path, ⟨hlen, hspans⟩, hall, hhead, hlast⟩ := ih
    have hne : path ≠ [] := by
      rintro rfl
      cases hhead
    refine ⟨path ++ [last], ⟨by simp [hlen], fun n a b sample ha hb hsample => ?_⟩,
      fun b hb => ?_, by rw [List.head?_append_of_ne_nil _ hne, hhead], by simp⟩
    · rcases Nat.lt_or_ge n samples.length with hlt | hge
      · rw [List.getElem?_append_left (by omega)] at ha hb
        rw [List.getElem?_append_left hlt] at hsample
        exact hspans n a b sample ha hb hsample
      · -- the last sample leads from the chain's end to the new boundary
        obtain rfl : n = samples.length := by
          have := (List.getElem?_eq_some_iff.mp hsample).1
          rw [List.length_append, List.length_singleton] at this
          omega
        rw [List.getLast?_eq_getElem?, hlen, Nat.add_sub_cancel] at hlast
        rw [List.getElem?_append_left (by omega), hlast] at ha
        rw [List.getElem?_append_right (by omega), hlen, Nat.sub_self] at hb
        rw [List.getElem?_append_right le_rfl, Nat.sub_self] at hsample
        cases ha
        cases hb
        cases hsample
        exact spans_span hadvances
    · rcases List.mem_append.mp hb with hb | hb
      · exact hall b hb
      · exact List.mem_singleton.mp hb ▸ hgiven

/-- A chain goes forward in time. -/
theorem at_le (h : Chain given stage ids first samples last) : first.at_ ≤ last.at_ := by
  rcases h.cases_advances with ⟨-, rfl⟩ | ⟨-, hadvances⟩
  · exact le_rfl
  · exact hadvances.elapsed.le

/-- A boundary that advances from a chain's end advances from its start. -/
theorem advances {next : Boundary} (h : Chain given stage ids first samples last)
    (hnext : Advances stage ids last next) : Advances stage ids first next := by
  rcases h.cases_advances with ⟨-, rfl⟩ | ⟨-, hadvances⟩
  · exact hnext
  · exact hadvances.trans hnext

/-- No window of a chain ends after its last boundary. -/
theorem end_le (h : Chain given stage ids first samples last) : ∀ w ∈ samples, w.end_ ≤ last.at_ := by
  induction h with
  | nil => nofun
  | snoc h hadvances hgiven ih =>
    intro w hw
    rcases List.mem_append.mp hw with hw | hw
    · exact (ih w hw).trans hadvances.elapsed.le
    · rw [List.mem_singleton.mp hw]
      exact le_rfl

/-- **The samples of a chain add up** to the component between its ends. -/
theorem sum_eq (h : Chain given stage ids first samples last) {direction : Direction}
    (hmoves : stage.moves direction = true) {k : ℕ} {id : ServerId} (hid : ids[k]? = some id) :
    (samples.map fun w => ((w.components.get direction)[k]?).elim 0 Component.bytes).sum
        = (component first last id direction).bytes ∧
      (samples.map fun w => ((w.components.get direction)[k]?).elim 0 Component.duration).sum
        = (component first last id direction).duration := by
  induction h with
  | nil => cases direction <;> simp [component, Component.of]
  | snoc h hadvances hgiven ih =>
    rename_i samples middle last
    have hshare : ((span stage ids middle last).components.get direction)[k]?
        = some (component middle last id direction) := by
      rw [span_components, components, if_pos hmoves, List.getElem?_map, hid, Option.map_some]
    simp only [List.map_append, List.map_singleton, List.sum_append, List.sum_singleton, hshare,
      Option.elim_some, ih.1, ih.2]
    rcases h.cases_advances with ⟨-, rfl⟩ | ⟨-, hbefore⟩
    · cases direction <;> simp [component, Component.of]
    · have hmem : id ∈ ids := List.mem_of_getElem? hid
      obtain ⟨hbytes, hduration⟩ := component_add (hbefore.continuous id hmem)
        (hadvances.continuous id hmem) ⟨hbefore.elapsed.le, hadvances.elapsed.le⟩ hmoves
      exact ⟨hbytes.symm, hduration.symm⟩

end Chain

end Chain

/-! ## What every call keeps -/

/-- The samples accepted in the interval with this number. -/
def samplesIn (log : List Event) (number : ℕ) : List Window :=
  log.filterMap fun event =>
    match event with
    | .accepted n sample => if n = number then some sample else none
    | .dropped _ _ => none

/-- The windows accepted in two logs. -/
theorem samplesIn_append (log later : List Event) (number : ℕ) :
    samplesIn (log ++ later) number = samplesIn log number ++ samplesIn later number :=
  List.filterMap_append

/-- An interval that has not begun accepted none. -/
theorem samplesIn_eq_nil {log : List Event} {number : ℕ}
    (h : ∀ n w, .accepted n w ∈ log → n < number) : samplesIn log number = [] := by
  rw [samplesIn, List.filterMap_eq_nil_iff]
  intro event hevent
  match event with
  | .accepted n w =>
    have hlt := h n w hevent
    simp only [if_neg hlt.ne]
  | .dropped _ _ => rfl

/-- An interval's window spans a first part of the samples accepted in it, to where it ends. -/
def Recorded (given : Boundary → Prop) (stage : Stage) (samples : List Window)
    (interval : Interval) : Prop :=
  ∀ w, interval.window = some w → ∃ first last within later, samples = within ++ later ∧
    within ≠ [] ∧ Chain given stage interval.participants first within last ∧
    first.at_ = interval.start ∧ last.at_ = interval.end_ ∧
    w = span stage interval.participants first last ∧ ∀ x ∈ later, interval.end_ < x.end_

/-- A mark holds the window to a boundary the samples lead through. -/
def Marked (given : Boundary → Prop) (stage : Stage) (ids : List ServerId) (samples : List Window)
    (o : Open) (mark : Mark) : Prop :=
  mark.boundary.at_ ≤ o.last.at_ ∧ ∃ within later, samples = within ++ later ∧
    Chain given stage ids o.first within mark.boundary ∧
    mark.window = (if within = [] then none else some (span stage ids o.first mark.boundary)) ∧
    ∀ x ∈ later, mark.boundary.at_ < x.end_

/-- The samples up to an interval's end are those its window spans. -/
theorem Recorded.filter_eq {stage : Stage} {samples within later : List Window} {interval : Interval}
    {first last : Boundary} (hsamples : samples = within ++ later)
    {given : Boundary → Prop} (hchain : Chain given stage interval.participants first within last)
    (hlast : last.at_ = interval.end_) (hlater : ∀ x ∈ later, interval.end_ < x.end_) :
    (samples.filter fun x => x.end_ ≤ interval.end_) = within := by
  have hall : (within.filter fun x => x.end_ ≤ interval.end_) = within := by
    rw [List.filter_eq_self]
    intro x hx
    exact decide_eq_true (hlast ▸ hchain.end_le x hx)
  have hnone : (later.filter fun x => x.end_ ≤ interval.end_) = [] := by
    rw [List.filter_eq_nil_iff]
    intro x hx hle
    exact absurd (hlater x hx) (not_lt.mpr (of_decide_eq_true hle))
  rw [hsamples, List.filter_append, hall, hnone, List.append_nil]

/-- **What a recorded window is made of.** -/
theorem Recorded.exact {given : Boundary → Prop} {stage : Stage} {samples : List Window}
    {interval : Interval} {w : Window} (h : Recorded given stage samples interval)
    (hw : interval.window = some w) :
    let within := samples.filter fun x => x.end_ ≤ interval.end_
    (∃ first last path, first.at_ = interval.start ∧ last.at_ = interval.end_ ∧
      Spans stage interval.participants first last w ∧
      Along stage interval.participants path within ∧ (∀ b ∈ path, given b) ∧
      path.head? = some first ∧ path.getLast? = some last) ∧
    ∀ direction (k : ℕ) (component : Component),
      (w.components.get direction)[k]? = some component →
      component.bytes = (within.map fun x =>
        ((x.components.get direction)[k]?).elim 0 Component.bytes).sum ∧
      component.duration = (within.map fun x =>
        ((x.components.get direction)[k]?).elim 0 Component.duration).sum := by
  obtain ⟨first, last, within, later, hsamples, hne, hchain, hfirst, hlast, rfl, hlater⟩ := h w hw
  have hadvances : Advances stage interval.participants first last := by
    rcases hchain.cases_advances with ⟨hempty, -⟩ | ⟨-, hadvances⟩
    · exact absurd hempty hne
    · exact hadvances
  simp only [Recorded.filter_eq hsamples hchain hlast hlater]
  refine ⟨?_, fun direction k x hx => ?_⟩
  · obtain ⟨path, halong, hall, hhead, hend⟩ := hchain.exists_path
    exact ⟨first, last, path, hfirst, hlast, spans_span hadvances, halong, hall, hhead, hend⟩
  · rw [span_components, components] at hx
    split_ifs at hx with hmoves
    · rw [List.getElem?_map, Option.map_eq_some_iff] at hx
      obtain ⟨id, hid, rfl⟩ := hx
      obtain ⟨hbytes, hduration⟩ := hchain.sum_eq hmoves hid
      exact ⟨hbytes.symm, hduration.symm⟩
    · cases hx

namespace Aggregate

/-- The samples accepted in the current interval lead from its first boundary to its last. -/
structure Leads (given : Boundary → Prop) (t : ℕ) (stage : Stage) (samples : List Window) (o : Open)
    (interval : Interval) : Prop where
  chain : Chain given stage interval.participants o.first samples o.last
  first : o.first.at_ = interval.start
  within : interval.end_ ≤ o.last.at_
  clock : o.last.at_ ≤ t
  marks : ∀ moved ∈ o.moved, ∀ direction mark, Dir.get moved direction = some mark →
    Marked given stage interval.participants samples o mark

/-- An interval that waits for its first boundary. -/
structure Waits (t : ℕ) (samples : List Window) (interval : Interval) : Prop where
  start : interval.start = interval.end_
  window : interval.window = none
  samples : samples = []
  clock : interval.end_ ≤ t

def Current (given : Boundary → Prop) (t : ℕ) (stage : Stage) (opened : Option Open)
    (samples : List Window) (interval : Interval) : Prop :=
  match opened with
  | none => Waits t samples interval
  | some o => Leads given t stage samples o interval

/-- What every call keeps, where the calls so far gave the boundaries `given`. -/
structure Sound (given : Boundary → Prop) (t : ℕ) (s : Aggregate) : Prop where
  limit : s.limit = some maxIntervals
  len : s.intervals.length ≤ maxIntervals
  begun : s.intervals.length ≤ s.begun
  ordered : s.intervals.Pairwise fun later earlier => earlier.end_ ≤ later.start
  times : ∀ interval ∈ s.intervals, interval.start ≤ interval.end_
  fresh : ∀ n w, .accepted n w ∈ s.log → n ≤ s.begun
  recorded : ∀ i interval, s.intervals[i]? = some interval →
    Recorded given s.stage (samplesIn s.log (s.begun - i)) interval
  current : ∃ interval earlier, s.intervals = interval :: earlier ∧
    Current given t s.stage s.opened (samplesIn s.log s.begun) interval

variable {given : Boundary → Prop} {t t' : ℕ} {s : Aggregate} {b : Boundary} {interval : Interval}
  {earlier : List Interval}

/-- What is current by now is so by later. -/
theorem Current.mono {stage : Stage} {opened : Option Open} {samples : List Window}
    (h : Current given t stage opened samples interval) (hle : t ≤ t') :
    Current given t' stage opened samples interval := by
  cases opened with
  | none => exact ⟨h.start, h.window, h.samples, h.clock.trans hle⟩
  | some o => exact ⟨h.chain, h.first, h.within, h.clock.trans hle, h.marks⟩

/-- The newest interval ends by now. -/
theorem Current.end_le {stage : Stage} {opened : Option Open} {samples : List Window}
    (h : Current given t stage opened samples interval) : interval.end_ ≤ t := by
  cases opened with
  | none => exact h.clock
  | some o => exact h.within.trans h.clock

/-- Closing an interval as incomplete changes nothing of where it is. -/
theorem Current.closed {stage : Stage} {opened : Option Open} {samples : List Window}
    (h : Current given t stage opened samples interval) :
    Current given t stage opened samples { interval with complete := false } := by
  cases opened with
  | none => exact ⟨h.start, h.window, h.samples, h.clock⟩
  | some o => exact ⟨h.chain, h.first, h.within, h.clock, h.marks⟩

/-- A sound aggregate is sound later. -/
theorem Sound.mono (h : Sound given t s) (hle : t ≤ t') : Sound given t' s := by
  obtain ⟨interval, earlier, hintervals, hcurrent⟩ := h.current
  exact ⟨h.limit, h.len, h.begun, h.ordered, h.times, h.fresh, h.recorded, interval, earlier,
    hintervals, hcurrent.mono hle⟩

/-- Noting a boundary keeps it sound. -/
theorem Sound.noted (h : Sound given t s) (b : Boundary) : Sound given t (s.noted b) :=
  ⟨h.limit, h.len, h.begun, h.ordered, h.times, h.fresh, h.recorded, h.current⟩

/-- The current interval has ended by the clock. -/
theorem Sound.end_le (h : Sound given t s) (hintervals : s.intervals = interval :: earlier) :
    interval.end_ ≤ t := by
  obtain ⟨interval', earlier', hintervals', hcurrent⟩ := h.current
  cases hintervals.symm.trans hintervals'
  exact hcurrent.end_le

/-- Only the current interval changes, and nothing is logged of those before it. -/
theorem Sound.setCurrent (h : Sound given t s) (hintervals : s.intervals = interval :: earlier)
    {after : Interval} {opened : Option Open} {log : List Event}
    (hstart : interval.start ≤ after.start) (htimes : after.start ≤ after.end_)
    (hfresh : ∀ n w, .accepted n w ∈ log → n ≤ s.begun)
    (hold : ∀ n < s.begun, samplesIn log n = samplesIn s.log n)
    (hrecorded : Recorded given s.stage (samplesIn log s.begun) after)
    (hcurrent : Current given t' s.stage opened (samplesIn log s.begun) after) :
    Sound given t' { s with intervals := after :: earlier, opened, log } := by
  have hlen := h.len
  have hbegun := h.begun
  have hordered := h.ordered
  have htimes' := h.times
  rw [hintervals] at hlen hbegun hordered htimes'
  rw [List.pairwise_cons] at hordered
  refine ⟨h.limit, hlen, hbegun, ?_, ?_, hfresh, fun i found hi => ?_, after, earlier, rfl, hcurrent⟩
  · exact List.pairwise_cons.mpr ⟨fun e he => (hordered.1 e he).trans hstart, hordered.2⟩
  · intro i hi
    rcases List.mem_cons.mp hi with rfl | hi
    · exact htimes
    · exact htimes' i (List.mem_cons_of_mem _ hi)
  · cases i with
    | zero =>
      cases hi
      exact hrecorded
    | succ i =>
      have hlt : s.begun - (i + 1) < s.begun := by
        rw [List.length_cons] at hbegun
        omega
      change Recorded given s.stage (samplesIn log (s.begun - (i + 1))) found
      rw [hold _ hlt]
      exact h.recorded (i + 1) found (by rw [hintervals]; exact hi)

/-! ### One step -/

/-- A restart keeps the latest intervals, in order. -/
theorem restart_intervals (s : Aggregate) (reason : Reason) (ids : List ServerId) (at_ : ℕ) :
    ∃ kept, kept <+: s.intervals ∧
      (s.restart reason ids at_).intervals = ⟨reason, ids, at_, at_, true, none, .new⟩ :: kept ∧
      (s.limit = some s.intervals.length → kept = s.intervals.dropLast) := by
  by_cases hfull : s.limit = some s.intervals.length
  · exact ⟨s.intervals.dropLast, List.dropLast_prefix _, by simp only [restart, if_pos hfull],
      fun _ => rfl⟩
  · exact ⟨s.intervals, List.prefix_rfl, by simp only [restart, if_neg hfull], fun h => absurd h hfull⟩

/-- A restart accepts no window. -/
theorem samplesIn_restart (s : Aggregate) (reason : Reason) (ids : List ServerId) (at_ n : ℕ) :
    samplesIn (s.restart reason ids at_).log n = samplesIn s.log n := by
  simp only [restart, samplesIn_append]
  cases s.evicted with
  | none => exact List.append_nil _
  | some dropped => exact List.append_nil _

/-- What was accepted after a restart was before it. -/
theorem mem_log_restart {reason : Reason} {ids : List ServerId} {at_ n : ℕ} {w : Window}
    (h : .accepted n w ∈ (s.restart reason ids at_).log) : .accepted n w ∈ s.log := by
  rcases List.mem_append.mp h with h | h
  · exact h
  · obtain ⟨dropped, -, heq⟩ := Option.map_eq_some_iff.mp (Option.mem_toList.mp h)
    cases heq

/-- A restart keeps the aggregate sound. -/
theorem Sound.restart (h : Sound given t s) (hintervals : s.intervals = interval :: earlier) {at_ : ℕ}
    (hat : interval.end_ ≤ at_) (reason : Reason) (ids : List ServerId) :
    Sound given at_ (s.restart reason ids at_) := by
  obtain ⟨kept, hkept, heq, hfull⟩ := restart_intervals s reason ids at_
  have hlen := hkept.length_le
  have hnone : samplesIn s.log (s.begun + 1) = [] :=
    samplesIn_eq_nil fun n w hw => Nat.lt_succ_of_le (h.fresh n w hw)
  refine ⟨h.limit, ?_, ?_, ?_, ?_, fun n w hw => ?_, fun i interval' hi => ?_, ?_⟩
  · rw [heq, List.length_cons]
    have hle := h.len
    by_cases hmax : s.intervals.length = maxIntervals
    · rw [hfull (by rw [h.limit, hmax]), List.length_dropLast]
      rw [maxIntervals] at hmax ⊢
      omega
    · omega
  · rw [heq, List.length_cons]
    exact Nat.succ_le_succ (hlen.trans h.begun)
  · rw [heq, List.pairwise_cons]
    refine ⟨fun e he => ?_, h.ordered.sublist hkept.sublist⟩
    -- The interval before ended by now, and those before it ended by its start.
    have hmem := hkept.subset he
    have hordered := h.ordered
    have htimes := h.times interval (by rw [hintervals]; exact List.mem_cons_self)
    rw [hintervals] at hmem hordered
    rcases List.mem_cons.mp hmem with rfl | hmem
    · exact hat
    · exact ((List.pairwise_cons.mp hordered).1 e hmem).trans (htimes.trans hat)
  · intro i hi
    rw [heq] at hi
    rcases List.mem_cons.mp hi with rfl | hi
    · exact le_rfl
    · exact h.times i (hkept.subset hi)
  · exact (h.fresh n w (mem_log_restart hw)).trans (Nat.le_succ _)
  · rw [heq] at hi
    rw [samplesIn_restart]
    cases i with
    | zero =>
      cases hi
      nofun
    | succ i =>
      have hnumber : s.begun + 1 - (i + 1) = s.begun - i := by omega
      change Recorded given s.stage (samplesIn s.log (s.begun + 1 - (i + 1))) interval'
      rw [hnumber]
      rw [List.getElem?_cons_succ] at hi
      obtain ⟨rest, hrest⟩ := hkept
      refine h.recorded i interval' ?_
      rw [← hrest, List.getElem?_append_left (List.getElem?_eq_some_iff.mp hi).1]
      exact hi
  · refine ⟨_, kept, heq, ?_⟩
    change Waits at_ (samplesIn (s.restart reason ids at_).log (s.begun + 1)) _
    exact ⟨rfl, rfl, (samplesIn_restart s reason ids at_ _).trans hnone, le_rfl⟩

/-- Closing the newest interval keeps it sound. -/
theorem Sound.closed (h : Sound given t s) (hintervals : s.intervals = interval :: earlier) :
    Sound given t { s with intervals := { interval with complete := false } :: earlier } := by
  obtain ⟨interval', earlier', hintervals', hcurrent⟩ := h.current
  cases hintervals.symm.trans hintervals'
  refine h.setCurrent hintervals le_rfl (h.times interval (by simp [hintervals])) h.fresh
    (fun _ _ => rfl) ?_ ?_
  · exact h.recorded 0 interval (by simp [hintervals])
  · exact hcurrent.closed

/-- A first boundary keeps it sound. -/
theorem Sound.start (h : Sound given t s) (hgiven : given b) (hopened : s.opened = none)
    (hle : t ≤ b.at_) : Sound given b.at_ (s.start b) := by
  obtain ⟨interval, earlier, hintervals, hcurrent⟩ := h.current
  rw [hopened] at hcurrent
  rw [start_eq hintervals]
  refine h.setCurrent hintervals ?_ le_rfl h.fresh (fun _ _ => rfl) ?_ ?_
  · exact hcurrent.start.le.trans (hcurrent.clock.trans hle)
  · intro w hw
    cases hcurrent.window.symm.trans hw
  · have hmark : Marked given s.stage interval.participants (samplesIn s.log s.begun)
        ⟨b, b, b, List.replicate interval.participants.length
          (Dir.ofFn fun direction =>
            if s.stage.moves direction then some ⟨b, interval.window, interval.peaks⟩ else none)⟩
        ⟨b, interval.window, interval.peaks⟩ := by
      refine ⟨le_rfl, [], [], hcurrent.samples, .nil hgiven, ?_, nofun⟩
      rw [if_pos rfl]
      exact hcurrent.window
    refine ⟨?_, rfl, le_rfl, le_rfl, fun moved hmoved direction mark hmark' => ?_⟩
    · change Chain given s.stage interval.participants b (samplesIn s.log s.begun) b
      rw [hcurrent.samples]
      exact .nil hgiven
    · rw [(List.mem_replicate.mp hmoved).2] at hmark'
      cases direction with
      | down =>
        simp only [Dir.ofFn, Dir.get, Option.ite_none_right_eq_some, Option.some.injEq] at hmark'
        rw [← hmark'.2]
        exact hmark
      | up =>
        simp only [Dir.ofFn, Dir.get, Option.ite_none_right_eq_some, Option.some.injEq] at hmark'
        rw [← hmark'.2]
        exact hmark

/-- What moved is marked as it was, or with the new mark. -/
theorem mem_markMoved {mark : Mark} {direction : Direction} {moved : List (Dir (Option Mark))}
    {components : List Component} {one : Dir (Option Mark)}
    (h : one ∈ markMoved mark direction moved components) :
    ∃ before ∈ moved, one = before ∨ one = before.set direction (some mark) := by
  induction moved generalizing components with
  | nil => cases components <;> cases h
  | cons first rest ih =>
    cases components with
    | nil => exact ⟨one, h, .inl rfl⟩
    | cons component components =>
      rw [markMoved] at h
      rcases List.mem_cons.mp h with rfl | h
      · refine ⟨first, List.mem_cons_self, ?_⟩
        split_ifs
        · exact .inr rfl
        · exact .inl rfl
      · obtain ⟨before, hbefore, hone⟩ := ih h
        exact ⟨before, List.mem_cons_of_mem _ hbefore, hone⟩

/-- A direction's mark is the new one or was there. -/
theorem get_markMoved {mark found : Mark} {direction : Direction}
    {moved : List (Dir (Option Mark))} {components : List Component} {one : Dir (Option Mark)}
    {d : Direction} (h : one ∈ markMoved mark direction moved components)
    (hfound : one.get d = some found) :
    found = mark ∨ ∃ before ∈ moved, before.get d = some found := by
  obtain ⟨before, hbefore, rfl | rfl⟩ := mem_markMoved h
  · exact .inr ⟨one, hbefore, hfound⟩
  · cases direction <;> cases d
    · exact .inl (Option.some.inj hfound).symm
    · exact .inr ⟨before, hbefore, hfound⟩
    · exact .inr ⟨before, hbefore, hfound⟩
    · exact .inl (Option.some.inj hfound).symm

/-- A mark stays one as the samples lead on. -/
theorem Marked.snoc {stage : Stage} {ids : List ServerId} {samples : List Window} {o : Open}
    {mark : Mark} (h : Marked given stage ids samples o mark) {sample : Window} {last : Boundary}
    (hlast : o.last.at_ < last.at_) (hsample : sample.end_ = last.at_) (peakFrom : Boundary)
    (moved : List (Dir (Option Mark))) :
    Marked given stage ids (samples ++ [sample]) ⟨o.first, last, peakFrom, moved⟩ mark := by
  obtain ⟨hle, within, later, rfl, hchain, hwindow, hlater⟩ := h
  refine ⟨hle.trans hlast.le, within, later ++ [sample], List.append_assoc _ _ _, hchain, hwindow,
    fun x hx => ?_⟩
  rcases List.mem_append.mp hx with hx | hx
  · exact hlater x hx
  · rw [List.mem_singleton.mp hx, hsample]
    exact hle.trans_lt hlast

/-- The samples lead on to a boundary that advances, where the marks that move are set. -/
theorem Leads.extend {stage : Stage} {samples : List Window} {o : Open} {mark : Mark}
    (h : Leads given t stage samples o interval) (hgiven : given b)
    (hadvances : Advances stage interval.participants o.last b)
    {after : Interval} (hids : after.participants = interval.participants)
    (hstart : after.start = interval.start) (hend : after.end_ = b.at_)
    (hmark : mark.boundary = b)
    (hwindow : mark.window = some (span stage interval.participants o.first b))
    (peakFrom : Boundary) (down up : List Component) :
    Leads given b.at_ stage (samples ++ [span stage interval.participants o.last b])
      ⟨o.first, b, peakFrom, markMoved mark .up (markMoved mark .down o.moved down) up⟩ after := by
  have hchain := h.chain.snoc hadvances hgiven
  refine ⟨hids ▸ hchain, h.first.trans hstart.symm, hend.le, le_rfl, fun moved hmoved d found hd => ?_⟩
  rw [hids]
  have hnew : ∀ peakFrom moved, Marked given stage interval.participants
      (samples ++ [span stage interval.participants o.last b]) ⟨o.first, b, peakFrom, moved⟩ mark := by
    intro peakFrom moved
    refine ⟨by rw [hmark], _, [], (List.append_nil _).symm, hmark ▸ hchain, ?_, nofun⟩
    rw [if_neg (by simp), hmark]
    exact hwindow
  rcases get_markMoved hmoved hd with rfl | ⟨before, hbefore, hd⟩
  · exact hnew _ _
  rcases get_markMoved hbefore hd with rfl | ⟨before, hbefore, hd⟩
  · exact hnew _ _
  · exact Marked.snoc (h.marks before hbefore d found hd) hadvances.elapsed rfl _ _

/-- An accepted window keeps the aggregate sound. -/
theorem Sound.extend (h : Sound given t s) (hgiven : given b)
    (hintervals : s.intervals = interval :: earlier) {o : Open}
    (hopened : s.opened = some o) {sample full : Window} (hsample : s.window o.last b = .ok sample)
    (hfull : s.window o.first b = .ok full) :
    Sound given b.at_ (s.extend interval earlier o b sample full) := by
  obtain ⟨interval', earlier', hintervals', hcurrent⟩ := h.current
  cases hintervals.symm.trans hintervals'
  rw [hopened] at hcurrent
  rw [window_current hintervals] at hsample hfull
  obtain ⟨hadvances, rfl⟩ := window_eq_ok.mp hsample
  obtain ⟨hfrom, rfl⟩ := window_eq_ok.mp hfull
  set sample := span s.stage interval.participants o.last b with hsample'
  have hself : samplesIn (s.log ++ [.accepted s.begun sample]) s.begun
      = samplesIn s.log s.begun ++ [sample] := by
    rw [samplesIn_append]
    simp [samplesIn]
  have hold : ∀ n < s.begun, samplesIn (s.log ++ [.accepted s.begun sample]) n
      = samplesIn s.log n := by
    intro n hn
    rw [samplesIn_append]
    simp [samplesIn, hn.ne']
  refine h.setCurrent hintervals le_rfl ?_ ?_ hold ?_ ?_
  · exact hcurrent.first ▸ hfrom.elapsed.le
  · intro n w hw
    rcases List.mem_append.mp hw with hw | hw
    · exact h.fresh n w hw
    · cases List.mem_singleton.mp hw
      exact le_rfl
  · intro w hw
    cases hw
    rw [hself]
    exact ⟨o.first, b, _, [], (List.append_nil _).symm, by simp, hcurrent.chain.snoc hadvances hgiven,
      hcurrent.first, rfl, rfl, nofun⟩
  · rw [hself]
    exact hcurrent.extend hgiven hadvances (by rfl) (by rfl) (by rfl) (by rfl) (by rfl) _ _ _

/-- A cut keeps it sound, and its mark was a given boundary. -/
theorem Sound.cut (h : Sound given t s) (hintervals : s.intervals = interval :: earlier) {mark : Mark}
    {survivors : List ServerId} (hmark : s.departure interval.participants survivors = some mark) :
    Sound given t (s.cut interval earlier mark) ∧ mark.boundary.at_ ≤ t ∧ given mark.boundary := by
  obtain ⟨interval', earlier', hintervals', hcurrent⟩ := h.current
  cases hintervals.symm.trans hintervals'
  obtain ⟨o, moved, d, hopened, hmoved, hget⟩ := departure_mem hmark
  rw [hopened] at hcurrent
  obtain ⟨hle, within, later, hsamples, hchain, hwindow, hlater⟩ :=
    hcurrent.marks moved hmoved d mark hget
  refine ⟨h.setCurrent hintervals le_rfl (hcurrent.first ▸ hchain.at_le) h.fresh (fun _ _ => rfl) ?_
    ?_, hle.trans hcurrent.clock, hchain.given_last⟩
  · intro w hw
    have hw : mark.window = some w := hw
    rw [hwindow] at hw
    split_ifs at hw with hempty
    cases hw
    exact ⟨o.first, mark.boundary, within, later, hsamples, hempty, hchain, hcurrent.first, rfl, rfl,
      hlater⟩
  · rw [hopened]
    exact ⟨hcurrent.chain, hcurrent.first, hle, hcurrent.clock, hcurrent.marks⟩

/-! ### One call -/

/-- Resuming evidence keeps the aggregate sound. -/
theorem Sound.resumed (h : Sound given t s) {r : Aggregate} (hle : t ≤ b.at_)
    (hresumed : s.resumed b = some r) : Sound given b.at_ r := by
  obtain ⟨interval, earlier, hintervals, -⟩ := h.current
  rw [resumed_eq hintervals] at hresumed
  cases hresumed
  exact (h.closed hintervals).restart rfl ((h.end_le hintervals).trans hle) _ _

/-- **One boundary** keeps the aggregate sound. -/
theorem Sound.observe (h : Sound given t s) (hgiven : given b) (hle : t ≤ b.at_) :
    Sound given b.at_ (s.observe b).2 := by
  have hobserved := observe_cases s b
  generalize (s.observe b).1 = sample, (s.observe b).2 = u at hobserved
  have hnoted := h.noted b
  cases hobserved with
  | skipped => exact hnoted.mono hle
  | started interval earlier hintervals hopened => exact hnoted.start hgiven hopened hle
  | extended interval earlier o sample full hintervals hopened htakes hsample hfull =>
    exact hnoted.extend hgiven hintervals hopened hsample hfull
  | waiting r hresumed => exact (hnoted.resumed hle hresumed).noted b
  | resumed r interval earlier hresumed =>
    have hopened : r.opened = none := resumed_opened hresumed
    exact ((hnoted.resumed hle hresumed).noted b).start hgiven hopened le_rfl

/-- A dropout keeps the aggregate sound. -/
theorem Sound.dropout (h : Sound given t s)
    (hlatest : ∀ l, s.latest = some l → l.at_ ≤ t ∧ given l)
    (survivors : List ServerId) {at_ : ℕ} (hle : t ≤ at_) : Sound given at_ (s.dropout survivors at_) := by
  have hdropped := dropout_cases s survivors at_
  generalize s.dropout survivors at_ = u at hdropped
  have hstarted : ∀ interval earlier mark, s.intervals = interval :: earlier →
      s.departure interval.participants survivors = some mark →
      Sound given mark.boundary.at_
        (((s.cut interval earlier mark).restart .dropout survivors mark.boundary.at_).start
          mark.boundary) ∧ mark.boundary.at_ ≤ t := by
    intro interval earlier mark hintervals hmark
    obtain ⟨hcut, hat, hgiven⟩ := h.cut hintervals hmark
    exact ⟨(hcut.restart rfl le_rfl .dropout survivors).start hgiven rfl le_rfl, hat⟩
  cases hdropped with
  | idle => exact h.mono hle
  | restarted interval earlier hintervals hmark =>
    exact h.restart hintervals ((h.end_le hintervals).trans hle) _ _
  | cut interval earlier mark hintervals hmark => exact (h.cut hintervals hmark).1.mono hle
  | survived interval earlier mark hintervals hmark =>
    obtain ⟨hsound, hat⟩ := hstarted interval earlier mark hintervals hmark
    exact hsound.mono (hat.trans hle)
  | replayed interval earlier mark latest hintervals hmark hsome hl hlater =>
    have hsound := (hstarted interval earlier mark hintervals hmark).1
    exact (hsound.observe (hlatest latest hl).2 hlater.le).mono ((hlatest latest hl).1.trans hle)

/-! ## Every run -/

def Call.time : Call → ℕ
  | .observe b => b.at_
  | .dropout _ at_ => at_

/-- **One call** keeps the aggregate sound. -/
theorem Sound.call (h : Sound given t s) (hlatest : ∀ l, s.latest = some l → l.at_ ≤ t ∧ given l)
    {c : Call} (hgiven : ∀ b, c = .observe b → given b) (hle : t ≤ c.time) :
    Sound given c.time (s.call c) ∧
      ∀ l, (s.call c).latest = some l → l.at_ ≤ c.time ∧ given l := by
  cases c with
  | observe b =>
    refine ⟨h.observe (hgiven b rfl) hle, fun l hl => ?_⟩
    cases (observe_latest s b).symm.trans hl
    exact ⟨le_rfl, hgiven b rfl⟩
  | dropout survivors at_ =>
    refine ⟨h.dropout hlatest survivors hle, fun l hl => ?_⟩
    have hl := hlatest l ((dropout_latest s survivors at_).symm.trans hl)
    exact ⟨hl.1.trans hle, hl.2⟩

/-- A run of calls in the clock's order keeps the aggregate sound. -/
theorem run_sound (calls : List Call) (h : Sound given t s)
    (hlatest : ∀ l, s.latest = some l → l.at_ ≤ t ∧ given l)
    (hgiven : ∀ b, .observe b ∈ calls → given b)
    (htimes : (t :: calls.map Call.time).Pairwise (· ≤ ·)) :
    ∃ t', Sound given t' (calls.foldl call s) := by
  induction calls generalizing t s with
  | nil => exact ⟨t, h⟩
  | cons c calls ih =>
    rw [List.map_cons, List.pairwise_cons] at htimes
    obtain ⟨hsound, hlatest'⟩ := h.call hlatest
      (fun b hb => hgiven b (hb ▸ List.mem_cons_self)) (htimes.1 c.time List.mem_cons_self)
    exact ih hsound hlatest' (fun b hb => hgiven b (List.mem_cons_of_mem _ hb)) htimes.2

/-- A new aggregate is sound. -/
theorem new_sound (stage : Stage) (participants : List ServerId) (at_ : ℕ) :
    Sound given at_ (new stage participants at_) where
  limit := rfl
  len := by
    change 1 ≤ maxIntervals
    decide
  begun := le_rfl
  ordered := List.pairwise_singleton _ _
  times i hi := by
    rw [List.mem_singleton.mp hi]
  fresh := nofun
  recorded i interval hi w hw := by
    cases i with
    | zero =>
      cases hi
      cases hw
    | succ i => cases hi
  current := ⟨_, [], rfl, rfl, rfl, rfl, le_rfl⟩

/-- What `observe` returns is what it accepted, in the interval then open. -/
theorem samplesIn_observe (s : Aggregate) (b : Boundary) (number : ℕ) :
    samplesIn (s.observe b).2.log number = samplesIn s.log number ++
      if number = (s.observe b).2.begun then (s.observe b).1.toList else [] := by
  have hobserved := observe_cases s b
  generalize (s.observe b).1 = sample, (s.observe b).2 = u at hobserved
  have hnone : ∀ begun : ℕ, (if number = begun then (none : Option Window).toList else []) = [] := by
    simp
  have hresumed : ∀ r, (s.noted b).resumed b = some r →
      samplesIn r.log number = samplesIn s.log number := by
    intro r hr
    rw [Aggregate.resumed] at hr
    split at hr
    · cases hr
    · cases hr
      exact samplesIn_restart _ _ _ _ _
  cases hobserved with
  | skipped => rw [hnone, List.append_nil]; rfl
  | started interval earlier hintervals =>
    rw [hnone, List.append_nil, start_eq hintervals]
    rfl
  | extended interval earlier o sample full hintervals =>
    have hlog : ((s.noted b).extend interval earlier o b sample full).log =
        s.log ++ [.accepted s.begun sample] := rfl
    have hbegun : ((s.noted b).extend interval earlier o b sample full).begun = s.begun := rfl
    rw [hlog, hbegun, samplesIn_append]
    congr 1
    rcases eq_or_ne number s.begun with rfl | hne
    · simp [samplesIn]
    · simp [samplesIn, hne, hne.symm]
  | waiting r hr =>
    rw [hnone, List.append_nil]
    exact hresumed r hr
  | resumed r interval earlier hr hopened hintervals =>
    rw [hnone, List.append_nil, start_eq (s := r.noted b) hintervals]
    exact hresumed r hr

/-- **The intervals of every run.** After calls at non-decreasing times at most 128 intervals are
kept, in time order. A window has a component per participant and moved direction, spans its interval
from the first boundary to the last, each of them observed, and adds up from the samples accepted in
the interval up to its end, which lead from the first boundary to the last through observed ones. No
boundary that adds a sample fails to span the interval, and `observe` and `resume` call each other at
most one level deep. -/
theorem intervals_exact (stage : Stage) (participants : List ServerId) (at_ : ℕ) (calls : List Call)
    (htimes : (at_ :: calls.map Call.time).Pairwise (· ≤ ·)) :
    let s := calls.foldl call (new stage participants at_)
    s.intervals.length ≤ 128 ∧
    (s.intervals.Pairwise fun later earlier => earlier.end_ ≤ later.start) ∧
    (∀ interval ∈ s.intervals, interval.start ≤ interval.end_) ∧
    (∀ i interval w, s.intervals[i]? = some interval → interval.window = some w →
      let samples := (samplesIn s.log (s.begun - i)).filter fun x => x.end_ ≤ interval.end_
      (∃ first last path, first.at_ = interval.start ∧ last.at_ = interval.end_ ∧
        Spans s.stage interval.participants first last w ∧
        Along s.stage interval.participants path samples ∧
        (∀ b ∈ path, .observe b ∈ calls) ∧ path.head? = some first ∧ path.getLast? = some last) ∧
      ∀ direction (k : ℕ) (component : Component), (w.components.get direction)[k]? = some component →
        component.bytes = (samples.map fun x =>
          ((x.components.get direction)[k]?).elim 0 Component.bytes).sum ∧
        component.duration = (samples.map fun x =>
          ((x.components.get direction)[k]?).elim 0 Component.duration).sum) ∧
    (∀ o b sample, s.opened = some o → s.window o.last b = .ok sample →
      ∃ full, s.window o.first b = .ok full) ∧
    (∀ (s' : Aggregate) b o b' sample, (s'.start b).opened = some o → s'.opened = none →
      (s'.start b).window o.last b' = .ok sample →
      ∃ full, (s'.start b).window o.first b' = .ok full) ∧
    (∀ (s' : Aggregate) b number, samplesIn (s'.observe b).2.log number =
      samplesIn s'.log number ++
        if number = (s'.observe b).2.begun then (s'.observe b).1.toList else []) ∧
    ∀ (s' : Aggregate) b, observeWithin 1 s' b = some (s'.observe b) := by
  have hnew : Sound (fun b => .observe b ∈ calls) at_ (new stage participants at_) :=
    new_sound stage participants at_
  obtain ⟨t, h⟩ := run_sound calls hnew nofun (fun _ hb => hb) htimes
  refine ⟨h.len, h.ordered, h.times, fun i interval w hi hw => (h.recorded i interval hi).exact hw,
    fun o b sample hopened hsample => ?_, fun s' b o b' sample hstarted hopened hsample => ?_,
    samplesIn_observe, observeWithin_one⟩
  · obtain ⟨interval, earlier, hintervals, hcurrent⟩ := h.current
    rw [hopened] at hcurrent
    rw [window_current hintervals] at hsample
    obtain ⟨hadvances, -⟩ := window_eq_ok.mp hsample
    rw [window_current hintervals]
    exact ⟨_, window_eq_ok.mpr ⟨hcurrent.chain.advances hadvances, rfl⟩⟩
  · -- Where an interval has just started, its first boundary is its last.
    match hintervals : s'.intervals with
    | [] =>
      rw [start, hintervals, hopened] at hstarted
      cases hstarted
    | interval :: earlier =>
      rw [start_eq hintervals] at hstarted
      cases hstarted
      exact ⟨sample, hsample⟩

/-- A server that moves 10 bytes in a second, a stalled boundary, and one that starts anew. -/
def stalled : List Call :=
  [.observe ⟨0, false, false, [⟨"a", some 0, none, none⟩]⟩,
    .observe ⟨10 ^ 9, false, false, [⟨"a", some 10, none, none⟩]⟩,
    .observe ⟨4 * 10 ^ 9, true, false, [⟨"a", some 20, none, none⟩]⟩]

/-- The window of the first second is kept beside the interval that starts anew. It spans two
boundaries that were observed, and its one component is what the samples in it moved. -/
theorem intervals_exact_stalled :
    let s := stalled.foldl call (new .download ["a"] 0)
    s.intervals.map (fun interval => (interval.start, interval.end_)) =
      [(4 * 10 ^ 9, 4 * 10 ^ 9), (0, 10 ^ 9)] ∧
    s.intervals.length ≤ 128 ∧
    ∃ interval w component, s.intervals[1]? = some interval ∧ interval.window = some w ∧
      w.components.down = [component] ∧ component.bytes = 10 ∧
      (∃ first last, first.at_ = interval.start ∧ last.at_ = interval.end_ ∧
        .observe first ∈ stalled ∧ .observe last ∈ stalled ∧
        Spans s.stage interval.participants first last w) ∧
      component.bytes = (((samplesIn s.log (s.begun - 1)).filter fun x => x.end_ ≤ interval.end_).map
        fun x => ((x.components.get .down)[0]?).elim 0 Component.bytes).sum := by
  have hexact := intervals_exact .download ["a"] 0 stalled (by decide)
  refine ⟨by decide +kernel, hexact.1, ?_⟩
  obtain ⟨interval, hinterval, w, hw, component, hcomponent, hbytes⟩ :
      ∃ interval, (stalled.foldl call (new .download ["a"] 0)).intervals[1]? = some interval ∧
        ∃ w, interval.window = some w ∧ ∃ component, w.components.down = [component] ∧
          component.bytes = 10 :=
    ⟨_, rfl, _, rfl, _, rfl, rfl⟩
  obtain ⟨⟨first, last, path, hfirst, hlast, hspans, -, hpath, hhead, hend⟩, hsums⟩ :=
    hexact.2.2.2.1 1 interval w hinterval hw
  refine ⟨interval, w, component, hinterval, hw, hcomponent, hbytes, ⟨first, last, hfirst, hlast,
    hpath first (List.mem_of_mem_head? hhead), hpath last (List.mem_of_getLast? hend), hspans⟩, ?_⟩
  exact (hsums .down 0 component (by rw [Dir.get, hcomponent]; rfl)).1

end Aggregate

end GraphiteMeter.Measure
