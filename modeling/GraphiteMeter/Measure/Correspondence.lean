import Mathlib.Algebra.Order.BigOperators.Group.List
import Mathlib.Tactic.FieldSimp
import Mathlib.Tactic.Ring
import GraphiteMeter.Measure.Browser.Observe
import GraphiteMeter.Measure.Window

/-!
# One boundary, read by both aggregates

Reference: `rust/client/src/measure/aggregate.rs` and `client/src/engine/measure/aggregate.ts`.

A boundary of the terminal client is the browser's with milliseconds for nanoseconds and `name` for the
receivers' numbers. Between two boundaries both ask the same of every participant, so both have the
same window or none, and both headlines come from the same evidence.
-/

namespace GraphiteMeter.Measure

/-- Nanoseconds as exact milliseconds. -/
def toMs (nanos : ℕ) : ℚ := nanos / 10 ^ 6

/-- Milliseconds keep the order. -/
theorem toMs_lt {m n : ℕ} : toMs m < toMs n ↔ m < n := by
  unfold toMs
  rw [div_lt_div_iff_of_pos_right (by norm_num), Nat.cast_lt]

/-- A difference in milliseconds is that of its ends. -/
theorem toMs_sub {m n : ℕ} (h : m ≤ n) : toMs (n - m) = toMs n - toMs m := by
  unfold toMs
  rw [Nat.cast_sub h, sub_div]

/-- A limit in milliseconds is one in nanoseconds. -/
theorem le_toMs {limit n : ℕ} : ((limit : ℕ) : ℚ) ≤ toMs n ↔ limit * 10 ^ 6 ≤ n := by
  unfold toMs
  rw [le_div_iff₀ (by norm_num)]
  exact_mod_cast Iff.rfl

/-- Bytes per second come out alike on both scales. -/
theorem rate_toMs (bytes duration : ℕ) :
    (bytes : ℚ) * 1000 / toMs duration = bytes * 10 ^ 9 / duration := by
  unfold toMs
  rw [div_div_eq_mul_div]
  ring

/-- The browser measures the directions that the stage moves. -/
theorem mem_directions {stage : Stage} (hstage : stage ≠ .latency) (direction : Direction) :
    direction ∈ Browser.directions stage ↔ stage.moves direction = true := by
  cases stage <;> cases direction <;> first | exact absurd rfl hstage | decide

/-! ## The browser's view -/

section Browser

variable (name : ℕ → String)

def Boundary.browser (b : Boundary) : Browser.Boundary where
  atMs := toMs b.at_
  down := b.down
  up id := (b.up id).map fun up => ⟨name up.id, up.counters.bytes, up.counters.nanos⟩

def Component.browser (id : ServerId) (c : Component) : Browser.ComponentWindow :=
  ⟨id, c.bytes, toMs c.duration, c.rate⟩

def Window.browser (stage : Stage) (ids : List ServerId) (w : Window) : Browser.AggregateWindow where
  startMs := toMs w.start
  endMs := toMs w.end_
  components := Dir.ofFn fun direction =>
    if stage.moves direction then
      some (List.zipWith Component.browser ids (w.components.get direction))
    else none
  bytesPerSec := Dir.ofFn fun direction =>
    if stage.moves direction then some ((w.components.get direction).map Component.rate).sum
    else none

variable {name} {stage : Stage} {ids : List ServerId} {a b : Boundary} {id : ServerId}

/-- A boundary is valid where it has what the stage moves of every participant. -/
theorem valid_browser (hstage : stage ≠ .latency) :
    Browser.Aggregate.valid stage ids (b.browser name) = Aggregate.takes stage ids b := by
  unfold Browser.Aggregate.valid Aggregate.takes
  rw [Bool.eq_iff_iff]
  simp only [decide_eq_true_eq, Bool.and_eq_true, Bool.not_eq_true', List.isEmpty_eq_false_iff,
    List.all_eq_true]
  refine and_congr_right fun _ => forall₂_congr fun id _ => ?_
  simp only [Boundary.browser, Boundary.down, Boundary.up, Aggregate.completeReading]
  cases b.reading id <;> cases stage <;>
    simp [Browser.directions, Stage.moves, Stage.directions] at hstage ⊢

/-- Whether a direction stands still between two boundaries. -/
def Stood (a b : Boundary) (id : ServerId) : Direction → Prop
  | .down => b.down id = a.down id
  | .up => (b.up id).map (fun up => (up.id, up.counters.bytes))
      = (a.up id).map fun up => (up.id, up.counters.bytes)

/-- The browser sees a direction stand where it does. -/
theorem stood_browser (hname : name.Injective) (hlater : a.at_ < b.at_) (direction : Direction) :
    Browser.Aggregate.stood (a.browser name) (b.browser name) id direction = true
      ↔ Stood a b id direction := by
  cases direction with
  | down =>
    have hne : (a.browser name).atMs ≠ (b.browser name).atMs := (toMs_lt.mpr hlater).ne
    simp only [Browser.Aggregate.stood, decide_eq_true_eq, ne_eq, hne, not_false_eq_true, true_and]
    rfl
  | up =>
    have hinj : Function.Injective fun p : ℕ × ℕ => (name p.1, p.2) := by
      rintro ⟨m, x⟩ ⟨n, y⟩ h
      obtain ⟨hmn, hxy⟩ := Prod.mk.injEq _ _ _ _ ▸ h
      exact Prod.ext (hname hmn) hxy
    simp only [Browser.Aggregate.stood, decide_eq_true_eq, Boundary.browser, Stood, Option.map_map]
    rw [← (Option.map_injective hinj).eq_iff, Option.map_map, Option.map_map]
    rfl

/-- The browser follows a counter where it goes on. -/
theorem continues_browser (hname : name.Injective) (direction : Direction) :
    Browser.Aggregate.continues (a.browser name) (b.browser name) id direction = true ↔
      match direction with
      | .down => DownFollows a b id
      | .up => UpFollows a b id := by
  cases direction with
  | down =>
    simp only [Browser.Aggregate.continues, Boundary.browser, DownFollows]
    cases a.down id <;> cases b.down id <;> simp
  | up =>
    simp only [Browser.Aggregate.continues, Boundary.browser, UpFollows]
    cases a.up id <;> cases b.up id <;> simp [hname.eq_iff]

/-- Both ask the same of a participant's counters. -/
theorem continuous_iff (hstage : stage ≠ .latency) :
    Continuous stage a b id ↔
      (stage.moves .down = true → DownFollows a b id) ∧ (stage.moves .up = true → UpFollows a b id) := by
  refine ⟨fun h => ⟨h.down, h.up⟩, fun ⟨hdown, hup⟩ => ⟨?_, hdown, hup⟩⟩
  -- The stage moves some direction, and the counters it moves are read at both boundaries.
  have hread : ∀ {α : Type} {x : Boundary} {f : Reading → Option α} {value : α},
      (x.reading id).bind f = some value → (x.reading id).isSome := by
    intro α x f value h
    exact Option.isSome_of_isSome_bind (by rw [h]; rfl)
  by_cases hmoves : stage.moves .down = true
  · obtain ⟨first, last, hfirst, hlast, -⟩ := hdown hmoves
    exact ⟨hread hfirst, hread hlast⟩
  · have hmoves : stage.moves .up = true := by
      cases stage <;> first | exact absurd rfl hstage | rfl | exact absurd rfl hmoves
    obtain ⟨first, last, hfirst, hlast, -⟩ := hup hmoves
    exact ⟨hread hfirst, hread hlast⟩

/-- The browser's record is continuous where the interval is. -/
theorem continuous_browser (hname : name.Injective) (hstage : stage ≠ .latency)
    {record : Browser.Interval} (hrecord : record.stage = stage) (hids : record.participants = ids) :
    Browser.Aggregate.continuous record (a.browser name) (b.browser name) = true ↔
      ∀ id ∈ ids, Continuous stage a b id := by
  unfold Browser.Aggregate.continuous
  rw [hrecord, hids, List.all_eq_true]
  refine forall₂_congr fun id _ => ?_
  rw [List.all_eq_true, continuous_iff hstage]
  simp only [mem_directions hstage, continues_browser hname]
  exact ⟨fun h => ⟨h .down, h .up⟩, fun h direction => by cases direction; exacts [h.1, h.2]⟩

/-- Where the counters go on, a receiver's clock that stands still is what is stale. -/
theorem stale_browser (hstage : stage ≠ .latency) {record : Browser.Interval}
    (hrecord : record.stage = stage) (hids : record.participants = ids)
    (hcontinuous : ∀ id ∈ ids, Continuous stage a b id) :
    Browser.Aggregate.stale record (a.browser name) (b.browser name) = false ↔
      (stage.moves .up = true → ∀ id ∈ ids, a.nanosAt id < b.nanosAt id) := by
  unfold Browser.Aggregate.stale
  rw [hrecord, hids, decide_eq_false_iff_not, not_and, List.contains_iff_mem, mem_directions hstage]
  refine forall_congr' fun hmoves => ?_
  rw [Bool.not_eq_true, List.any_eq_false]
  refine forall₂_congr fun id hid => ?_
  obtain ⟨first, last, hfirst, hlast, -, -, hle⟩ := (hcontinuous id hid).up hmoves
  simp only [Browser.Aggregate.clockStood, Boundary.browser, Boundary.nanosAt, hfirst, hlast,
    Option.map_some, Option.elim_some, decide_eq_true_eq]
  omega

/-! ## Windows -/

/-- The browser reads a download component as it is. -/
theorem componentOf_down (h : DownFollows a b id) (hle : a.at_ ≤ b.at_) :
    Browser.componentOf (a.browser name) (b.browser name) .down id
      = some ((component a b id .down).browser id) := by
  obtain ⟨first, last, hfirst, hlast, hcount⟩ := h
  simp only [Browser.componentOf, Boundary.browser, hfirst, hlast, if_pos hcount, component,
    Component.of, Component.browser, Boundary.downAt, Option.getD_some, ← toMs_sub hle, rate_toMs]

/-- It reads an upload component as it is. -/
theorem componentOf_up (h : UpFollows a b id) (hclock : a.nanosAt id < b.nanosAt id) :
    Browser.componentOf (a.browser name) (b.browser name) .up id
      = some ((component a b id .up).browser id) := by
  obtain ⟨first, last, hfirst, hlast, hid, hbytes, -⟩ := h
  simp only [Boundary.nanosAt, hfirst, hlast, Option.elim_some] at hclock
  have hgood : ¬ (name first.id ≠ name last.id ∨ last.counters.bytes < first.counters.bytes ∨
      last.counters.nanos ≤ first.counters.nanos) := by
    rw [hid]
    push Not
    exact ⟨rfl, hbytes, hclock⟩
  simp only [Browser.componentOf, Boundary.browser, hfirst, hlast, Option.map_some, if_neg hgood,
    component, Component.of, Component.browser, Boundary.bytesAt, Boundary.nanosAt, Option.elim_some]
  rw [← rate_toMs]
  rfl

/-- A component asks of the counters what a window does. -/
theorem follows_of_componentOf (hname : name.Injective) {direction : Direction}
    (h : (Browser.componentOf (a.browser name) (b.browser name) direction id).isSome) :
    match direction with
    | .down => DownFollows a b id
    | .up => UpFollows a b id ∧ a.nanosAt id < b.nanosAt id := by
  cases direction with
  | down =>
    simp only [Browser.componentOf, Boundary.browser] at h
    split at h
    · rename_i first last hfirst hlast
      split_ifs at h with hle
      · exact ⟨first, last, hfirst, hlast, hle⟩
      · cases h
    · cases h
  | up =>
    simp only [Browser.componentOf, Boundary.browser] at h
    split at h
    · rename_i first last hfirst hlast
      rw [Option.map_eq_some_iff] at hfirst hlast
      obtain ⟨first, hfirst, rfl⟩ := hfirst
      obtain ⟨last, hlast, rfl⟩ := hlast
      split_ifs at h with hbad
      · cases h
      · push Not at hbad
        obtain ⟨hid, hbytes, hnanos⟩ := hbad
        refine ⟨⟨first, last, hfirst, hlast, hname hid, hbytes, hnanos.le⟩, ?_⟩
        simp only [Boundary.nanosAt, hfirst, hlast, Option.elim_some]
        exact hnanos
    · cases h

/-- The components of boundaries that advance. -/
theorem componentsOf_browser (h : Advances stage ids a b) {direction : Direction}
    (hmoves : stage.moves direction = true) :
    Browser.componentsOf (a.browser name) (b.browser name) direction ids
      = some (List.zipWith Component.browser ids (components stage ids a b direction)) := by
  rw [Browser.componentsOf_eq_some, components, if_pos hmoves, List.zipWith_map_right,
    List.zipWith_self, List.forall₂_map_right_iff, List.forall₂_same]
  intro id hid
  cases direction with
  | down => exact componentOf_down ((h.continuous id hid).down hmoves) h.elapsed.le
  | up => exact componentOf_up ((h.continuous id hid).up hmoves) (h.clocks hmoves id hid)

/-- A window in the browser advances. -/
theorem advances_of_browser (hname : name.Injective) (hstage : stage ≠ .latency)
    (h : (Browser.window (a.browser name) (b.browser name) stage ids).isSome) :
    Advances stage ids a b := by
  obtain ⟨hlater, hall⟩ := Browser.window_isSome_iff.mp h
  have hone : ∀ direction, stage.moves direction = true → ∀ id ∈ ids,
      (Browser.componentOf (a.browser name) (b.browser name) direction id).isSome := by
    intro direction hmoves id hid
    obtain ⟨cs, hcs⟩ :=
      Option.isSome_iff_exists.mp (hall direction ((mem_directions hstage direction).mpr hmoves))
    exact Browser.componentOf_isSome hcs hid
  refine ⟨toMs_lt.mp hlater, fun id hid => (continuous_iff hstage).mpr ⟨?_, ?_⟩, ?_⟩
  · intro hmoves
    exact follows_of_componentOf hname (hone .down hmoves id hid)
  · intro hmoves
    exact (follows_of_componentOf hname (hone .up hmoves id hid)).1
  · intro hmoves id hid
    exact (follows_of_componentOf hname (hone .up hmoves id hid)).2

/-- A window's directions are the browser's. -/
theorem Spans.eq_browser (hstage : stage ≠ .latency) {w : Browser.AggregateWindow}
    (h : Browser.Spans (a.browser name) (b.browser name) stage ids w)
    (hadvances : Advances stage ids a b) : w = (span stage ids a b).browser stage ids := by
  have hget : ∀ direction,
      w.components.get direction
          = ((span stage ids a b).browser stage ids).components.get direction ∧
        w.bytesPerSec.get direction
          = ((span stage ids a b).browser stage ids).bytesPerSec.get direction := by
    intro direction
    simp only [Window.browser, Dir.get_ofFn, span_components]
    by_cases hmoves : stage.moves direction = true
    · obtain ⟨cs, hcs, hcomponents, hrate⟩ :=
        h.moved direction ((mem_directions hstage direction).mpr hmoves)
      rw [componentsOf_browser hadvances hmoves, Option.some.injEq] at hcs
      rw [if_pos hmoves, if_pos hmoves, hcomponents, hrate, ← hcs, List.map_zipWith]
      refine ⟨rfl, congrArg (fun rates => some (List.sum rates)) ?_⟩
      rw [components, if_pos hmoves, List.zipWith_map_right, List.zipWith_self, List.map_map]
      rfl
    · obtain ⟨hcomponents, hrate⟩ := h.idle direction (mt (mem_directions hstage direction).mp hmoves)
      rw [if_neg hmoves, if_neg hmoves]
      exact ⟨hcomponents, hrate⟩
  have hstart := h.startMs
  have hend := h.endMs
  obtain ⟨startMs, endMs, components, rates⟩ := w
  have hcomponents := Dir.ext_get fun direction => (hget direction).1
  have hrates := Dir.ext_get fun direction => (hget direction).2
  simp only at hstart hend hcomponents hrates
  rw [hstart, hend, hcomponents, hrates]
  rfl

/-- **Both have the same window between two boundaries, or none.** -/
theorem window_browser (hname : name.Injective) (hstage : stage ≠ .latency) (ids : List ServerId)
    (a b : Boundary) :
    Browser.window (a.browser name) (b.browser name) stage ids
      = (window stage ids a b).toOption.map (Window.browser stage ids) := by
  cases hw : Browser.window (a.browser name) (b.browser name) stage ids with
  | some w =>
    have hadvances : Advances stage ids a b := advances_of_browser hname hstage (by rw [hw]; rfl)
    rw [window_eq_ok.mpr ⟨hadvances, rfl⟩, Spans.eq_browser hstage (Browser.window_spans hw) hadvances]
    rfl
  | none =>
    cases hok : window stage ids a b with
    | error gap => rfl
    | ok w =>
      obtain ⟨hadvances, -⟩ := window_eq_ok.mp hok
      have hsome : (Browser.window (a.browser name) (b.browser name) stage ids).isSome := by
        refine Browser.window_isSome_iff.mpr ⟨toMs_lt.mpr hadvances.elapsed, fun direction hmem => ?_⟩
        rw [componentsOf_browser hadvances ((mem_directions hstage direction).mp hmem)]
        rfl
      rw [hw] at hsome
      cases hsome

end Browser

/-! ## Decisions -/

section Decisions

variable {name : ℕ → String} {stage : Stage} {ids : List ServerId} {first a b : Boundary} {id : ServerId}
  {record : Browser.Interval} {final : Bool}

/-- Some direction of some participant stands still. -/
def StoodStill (stage : Stage) (ids : List ServerId) (a b : Boundary) : Prop :=
  ∃ id ∈ ids, ∃ direction, stage.moves direction = true ∧ Stood a b id direction

/-- The browser sees a server stand still where it does. -/
theorem stoodStill_browser (hname : name.Injective) (hstage : stage ≠ .latency)
    (hrecord : record.stage = stage) (hids : record.participants = ids) (hlater : a.at_ < b.at_) :
    Browser.Aggregate.stoodStill record (a.browser name) (b.browser name) = true ↔
      StoodStill stage ids a b := by
  unfold Browser.Aggregate.stoodStill StoodStill
  simp only [hrecord, hids, List.any_eq_true, stood_browser hname hlater, mem_directions hstage]

/-- A direction that goes on stands still where its component moves no bytes. -/
theorem stood_iff (h : Continuous stage a b id) {direction : Direction}
    (hmoves : stage.moves direction = true) :
    Stood a b id direction ↔ (component a b id direction).bytes = 0 := by
  cases direction with
  | down =>
    obtain ⟨first, last, hfirst, hlast, hle⟩ := h.down hmoves
    simp only [Stood, component, Component.of, Boundary.downAt, hfirst, hlast, Option.getD_some,
      Option.some.injEq]
    omega
  | up =>
    obtain ⟨first, last, hfirst, hlast, hid, hle, -⟩ := h.up hmoves
    simp only [Stood, component, Component.of, Boundary.bytesAt, hfirst, hlast, Option.map_some,
      Option.elim_some, Option.some.injEq, Prod.mk.injEq, hid, true_and]
    omega

/-- Every component of a sample moved bytes where no direction stood still. -/
theorem all_moved_iff (h : ∀ id ∈ ids, Continuous stage a b id) :
    ((span stage ids a b).all.all fun component => 0 < component.bytes) = true ↔
      ¬ StoodStill stage ids a b := by
  have hall : (span stage ids a b).all
      = components stage ids a b .down ++ components stage ids a b .up := rfl
  have hone : ∀ direction, (∀ c ∈ components stage ids a b direction, 0 < c.bytes) ↔
      (stage.moves direction = true → ∀ id ∈ ids, ¬ Stood a b id direction) := by
    intro direction
    unfold components
    split_ifs with hmoves
    · simp only [List.forall_mem_map, hmoves, forall_const]
      refine forall₂_congr fun id hid => ?_
      rw [stood_iff (h id hid) hmoves]
      exact Nat.pos_iff_ne_zero
    · exact ⟨fun _ hmoves' => absurd hmoves' hmoves, fun _ => nofun⟩
  rw [hall, List.all_eq_true]
  simp only [decide_eq_true_eq, List.forall_mem_append, hone]
  unfold StoodStill
  constructor
  · rintro ⟨hdown, hup⟩ ⟨id, hid, direction, hmoves, hstood⟩
    cases direction with
    | down => exact hdown hmoves id hid hstood
    | up => exact hup hmoves id hid hstood
  · intro hnone
    exact ⟨fun hmoves id hid hstood => hnone ⟨id, hid, .down, hmoves, hstood⟩,
      fun hmoves id hid hstood => hnone ⟨id, hid, .up, hmoves, hstood⟩⟩

/-- A later boundary never takes the place of the last one. -/
theorem not_replaces (hlater : a.at_ < b.at_) :
    Browser.Aggregate.replaces record (first.browser name) (a.browser name) (b.browser name) final
      = false := by
  have hne : (b.browser name).atMs ≠ (a.browser name).atMs := (toMs_lt.mpr hlater).ne'
  simp [Browser.Aggregate.replaces, hne]

section Verdicts

variable (hname : name.Injective) (hstage : stage ≠ .latency) (hrecord : record.stage = stage)
  (hids : record.participants = ids) (hlater : a.at_ < b.at_)
include hname hstage hrecord hids hlater

/-- Counters that break off resume evidence, unless a final boundary finds a direction that stood
still. -/
theorem verdict_broken (hbroken : ¬ ∀ id ∈ ids, Continuous stage a b id)
    (hclear : final = true → ¬ StoodStill stage ids a b) :
    Browser.Aggregate.verdictBetween record (first.browser name) (a.browser name) (b.browser name)
      final = .resume := by
  have hstood : ¬ (final = true ∧
      Browser.Aggregate.stoodStill record (a.browser name) (b.browser name) = true) := by
    rintro ⟨hfinal, hstood⟩
    exact hclear hfinal ((stoodStill_browser hname hstage hrecord hids hlater).mp hstood)
  have hcontinuous :
      ¬ Browser.Aggregate.continuous record (a.browser name) (b.browser name) = true :=
    mt (continuous_browser hname hstage hrecord hids).mp hbroken
  have hsample : Browser.window (a.browser name) (b.browser name) stage ids = none := by
    rw [← Option.not_isSome_iff_eq_none]
    exact fun h => hbroken (advances_of_browser hname hstage h).continuous
  unfold Browser.Aggregate.verdictBetween
  rw [if_neg hstood, if_neg fun h => hcontinuous h.1]
  simp only [not_replaces hlater, Bool.false_eq_true, if_false, or_false,
    hrecord, hids, hsample, Option.isSome_none]
  split <;> rfl

/-- A clock that stands still skips the boundary. -/
theorem verdict_stale (hcontinuous : ∀ id ∈ ids, Continuous stage a b id)
    (hstale : ¬ Advances stage ids a b) :
    Browser.Aggregate.verdictBetween record (first.browser name) (a.browser name) (b.browser name)
      final = .skip := by
  have hstood : Browser.Aggregate.stale record (a.browser name) (b.browser name) = true := by
    by_contra hnot
    rw [Bool.not_eq_true, stale_browser hstage hrecord hids hcontinuous] at hnot
    exact hstale ⟨hlater, hcontinuous, hnot⟩
  unfold Browser.Aggregate.verdictBetween
  split
  · rfl
  · rw [if_pos]
    rw [not_replaces hlater]
    exact ⟨(continuous_browser hname hstage hrecord hids).mpr hcontinuous, .inr hstood, by simp⟩

/-- A final boundary that stood still is skipped. -/
theorem verdict_unmoved (hfinal : final = true) (hstood : StoodStill stage ids a b) :
    Browser.Aggregate.verdictBetween record (first.browser name) (a.browser name) (b.browser name)
      final = .skip := by
  unfold Browser.Aggregate.verdictBetween
  rw [if_pos ⟨hfinal, (stoodStill_browser hname hstage hrecord hids hlater).mpr hstood⟩]

/-- A window that advances extends the record. -/
theorem verdict_extended (hadvances : Advances stage ids a b) (hfull : Advances stage ids first b)
    (hmoved : ¬ (final = true ∧ StoodStill stage ids a b)) :
    Browser.Aggregate.verdictBetween record (first.browser name) (a.browser name) (b.browser name)
      final = .extend (some ((span stage ids a b).browser stage ids))
        ((span stage ids first b).browser stage ids) := by
  have hstood : ¬ (final = true ∧
      Browser.Aggregate.stoodStill record (a.browser name) (b.browser name) = true) := by
    rintro ⟨hfinal, hstood⟩
    exact hmoved ⟨hfinal, (stoodStill_browser hname hstage hrecord hids hlater).mp hstood⟩
  have hstale : Browser.Aggregate.stale record (a.browser name) (b.browser name) = false :=
    (stale_browser hstage hrecord hids hadvances.continuous).mpr hadvances.clocks
  have hle : ¬ (b.browser name).atMs ≤ (a.browser name).atMs := not_le.mpr (toMs_lt.mpr hlater)
  have hwindow : ∀ x, Advances stage ids x b → Browser.window (x.browser name) (b.browser name) stage ids
      = some ((span stage ids x b).browser stage ids) := by
    intro x hx
    rw [window_browser hname hstage, window_eq_ok.mpr ⟨hx, rfl⟩]
    rfl
  unfold Browser.Aggregate.verdictBetween
  rw [if_neg hstood, if_neg]
  · simp only [not_replaces hlater, Bool.false_eq_true, if_false, or_false,
      hrecord, hids, hwindow a hadvances, hwindow first hfull, Option.isSome_some, if_true]
  · rw [hstale]
    rintro ⟨-, hor, -⟩
    rcases hor with h | h
    · exact hle h
    · cases h

end Verdicts

end Decisions

/-! ## Headlines -/

section Headlines

variable {stage : Stage} {ids : List ServerId} {a b : Boundary} {direction : Direction}

/-- The least evidence is the same in both units. -/
theorem minEvidence_iff {start end_ : ℕ} :
    Browser.minEvidenceMs ≤ toMs end_ - toMs start ↔ minEvidence ≤ end_ - start := by
  rcases le_total start end_ with hle | hle
  · rw [← toMs_sub hle]
    exact le_toMs
  · have hms : toMs end_ - toMs start ≤ 0 := by
      unfold toMs
      rw [← sub_div]
      exact div_nonpos_of_nonpos_of_nonneg (sub_nonpos.mpr (by exact_mod_cast hle)) (by norm_num)
    rw [Nat.sub_eq_zero_of_le hle]
    refine ⟨fun h => absurd (h.trans hms) (by norm_num [Browser.minEvidenceMs]), fun h => ?_⟩
    exact absurd h (by decide)

/-- With the least evidence only no bytes give the rate zero. -/
theorem rate_eq_zero {c : Component} (hrate : c.rate = c.bytes * 10 ^ 9 / c.duration)
    (hduration : minEvidence ≤ c.duration) : c.rate = 0 ↔ c.bytes = 0 := by
  have hpos : c.duration ≠ 0 := by
    rintro hzero
    rw [hzero] at hduration
    exact absurd hduration (by decide)
  rw [hrate]
  constructor
  · intro h
    rcases div_eq_zero_iff.mp h with h | h
    · exact_mod_cast (mul_eq_zero.mp h).resolve_right (by norm_num)
    · exact absurd (by exact_mod_cast h) hpos
  · intro h
    rw [h, Nat.cast_zero, zero_mul, zero_div]

/-- Rates are there where some component moved bytes. -/
theorem sum_rates_eq_zero {cs : List Component}
    (hrates : ∀ c ∈ cs, c.rate = c.bytes * 10 ^ 9 / c.duration)
    (hdurations : ∀ c ∈ cs, minEvidence ≤ c.duration) :
    (cs.map Component.rate).sum = 0 ↔ ∀ c ∈ cs, c.bytes = 0 := by
  constructor
  · intro h c hc
    refine (rate_eq_zero (hrates c hc) (hdurations c hc)).mp ?_
    refine List.all_zero_of_le_zero_le_of_sum_eq_zero ?_ h (List.mem_map_of_mem hc)
    intro x hx
    obtain ⟨d, hd, rfl⟩ := List.mem_map.mp hx
    rw [hrates d hd]
    exact div_nonneg (mul_nonneg (Nat.cast_nonneg _) (by norm_num)) (Nat.cast_nonneg _)
  · intro h
    refine List.sum_eq_zero fun x hx => ?_
    obtain ⟨c, hc, rfl⟩ := List.mem_map.mp hx
    exact (rate_eq_zero (hrates c hc) (hdurations c hc)).mpr (h c hc)

/-- A component's rate is its bytes over its duration. -/
theorem span_rate {c : Component} (hc : c ∈ components stage ids a b direction) :
    c.rate = c.bytes * 10 ^ 9 / c.duration := by
  unfold components at hc
  split_ifs at hc
  · obtain ⟨id, -, rfl⟩ := List.mem_map.mp hc
    cases direction <;> rfl
  · cases hc

/-- Enough evidence in a span is the same in both. -/
theorem evidence_iff (start end_ : ℕ) :
    (((components stage ids a b direction).map Component.rate).sum ≠ 0 ∧
      minEvidence ≤ end_ - start ∧
        ∀ c ∈ components stage ids a b direction, minEvidence ≤ c.duration) ↔
      minEvidence ≤ end_ - start ∧
        Aggregate.evidence (components stage ids a b direction) = true := by
  unfold Aggregate.evidence
  simp only [Bool.and_eq_true, List.all_eq_true, List.any_eq_true, decide_eq_true_eq,
    Bool.not_eq_true', List.isEmpty_eq_false_iff]
  constructor
  · rintro ⟨hsum, hspan, hdurations⟩
    rw [ne_eq, sum_rates_eq_zero (fun c hc => span_rate hc) hdurations] at hsum
    push Not at hsum
    obtain ⟨c, hc, hbytes⟩ := hsum
    exact ⟨hspan, ⟨List.ne_nil_of_mem hc, hdurations⟩, c, hc, Nat.pos_of_ne_zero hbytes⟩
  · rintro ⟨hspan, ⟨-, hdurations⟩, c, hc, hbytes⟩
    refine ⟨fun hsum => ?_, hspan, hdurations⟩
    rw [sum_rates_eq_zero (fun c hc => span_rate hc) hdurations] at hsum
    exact hbytes.ne' (hsum c hc)

/-- The browser finds evidence sufficient where it is. -/
theorem sufficient_browser (hmoves : stage.moves direction = true) :
    Browser.sufficient ((span stage ids a b).browser stage ids) direction = true ↔
      minEvidence ≤ b.at_ - a.at_ ∧
        ∀ c ∈ components stage ids a b direction, minEvidence ≤ c.duration := by
  unfold Browser.sufficient
  simp only [Window.browser, Dir.get_ofFn, if_pos hmoves, span_components, Option.getD_some,
    decide_eq_true_eq, List.all_eq_true]
  rw [components, if_pos hmoves, List.zipWith_map_right, List.zipWith_self]
  refine and_congr minEvidence_iff ?_
  simp only [List.forall_mem_map]
  exact forall₂_congr fun id _ => le_toMs

/-- An interval in both: the browser's record has the same window. -/
structure Same (stage : Stage) (interval : Interval) (record : Browser.Interval) : Prop where
  measured : record.stage = stage
  reason : record.reason = interval.reason
  participants : record.participants = interval.participants
  complete : record.complete = interval.complete
  full : record.full = interval.window.map (Window.browser stage interval.participants)
  spans : ∀ w, interval.window = some w → ∃ a b, w = span stage interval.participants a b ∧
    a.at_ = interval.start ∧ b.at_ = interval.end_

namespace Same

variable {interval : Interval} {record : Browser.Interval}

/-- A stage's headline has the same mean in both, or is in neither. -/
theorem headline_eq (h : Same stage interval record) (direction : Direction) :
    (Browser.headline direction record).map (fun found => found.result.reportedBytesPerSec)
      = (Aggregate.headline direction interval).map Rate.mean := by
  unfold Browser.headline Aggregate.headline
  rw [h.full, h.complete]
  cases hw : interval.window with
  | none => rfl
  | some w =>
    obtain ⟨a, b, rfl, ha, hb⟩ := h.spans w hw
    have hrates : (span stage interval.participants a b).rates.get direction
        = total (components stage interval.participants a b direction) := by
      cases direction <;> rfl
    simp only [Option.map_some, hrates, span_components, ← ha, ← hb]
    by_cases hcomplete : interval.complete = true
    swap
    · rw [if_neg hcomplete, if_neg fun h => hcomplete h.1]
      rfl
    rw [if_pos hcomplete]
    by_cases hmoves : stage.moves direction = true
    · have hrate : ((span stage interval.participants a b).browser stage
          interval.participants).bytesPerSec.get direction
            = some ((components stage interval.participants a b direction).map Component.rate).sum := by
        rw [Window.browser, Dir.get_ofFn, if_pos hmoves, span_components]
      simp only [hrate]
      by_cases henough : minEvidence ≤ b.at_ - a.at_ ∧
          Aggregate.evidence (components stage interval.participants a b direction) = true
      · have hboth := (evidence_iff a.at_ b.at_).mpr henough
        rw [if_pos ⟨hboth.1, (sufficient_browser hmoves).mpr hboth.2⟩, if_pos ⟨hcomplete, henough⟩, total,
          if_neg]
        · rfl
        · intro hnil
          rw [hnil] at henough
          cases henough.2
      · rw [if_neg, if_neg fun h => henough h.2]
        · rfl
        · rintro ⟨hsum, hrest⟩
          exact henough ((evidence_iff a.at_ b.at_).mp ⟨hsum, (sufficient_browser hmoves).mp hrest⟩)
    · have hrate : ((span stage interval.participants a b).browser stage
          interval.participants).bytesPerSec.get direction = none := by
        rw [Window.browser, Dir.get_ofFn, if_neg hmoves]
      have hevidence : ¬ Aggregate.evidence
          (components stage interval.participants a b direction) = true := by
        rw [components, if_neg hmoves]
        exact Bool.false_ne_true
      simp only [hrate]
      rw [if_neg fun h => hevidence h.2.2]
      rfl

/-- A participant's share is found by its place in one and by its id in the other. -/
theorem share_eq (ids : List ServerId) (a b : Boundary) (id : ServerId)
    (hmoves : stage.moves direction = true) :
    ((List.zipWith Component.browser ids (components stage ids a b direction)).find?
        fun c => c.serverId = id)
      = (if id ∈ ids then some ((component a b id direction).browser id) else none) ∧
    ((ids.findIdx? fun i => i = id).bind fun index => (components stage ids a b direction)[index]?)
      = if id ∈ ids then some (component a b id direction) else none := by
  rw [components, if_pos hmoves, List.zipWith_map_right, List.zipWith_self]
  induction ids with
  | nil => exact ⟨rfl, rfl⟩
  | cons first ids ih =>
    by_cases hfirst : first = id
    · subst hfirst
      simp only [List.mem_cons_self, if_true, List.findIdx?_cons, List.map_cons, List.find?_cons,
        Component.browser, decide_true, true_and]
      rfl
    · have hmem : (id ∈ first :: ids) = (id ∈ ids) := by
        rw [List.mem_cons, eq_false (Ne.symm hfirst), false_or]
      simp only [hmem]
      refine ⟨?_, ?_⟩
      · have hneg : decide ((Component.browser first
            (component a b first direction)).serverId = id) = false := decide_eq_false hfirst
        rw [List.map_cons, List.find?_cons, hneg]
        exact ih.1
      · rw [List.findIdx?_cons, decide_eq_false hfirst, ← ih.2]
        cases ids.findIdx? fun i => i = id <;> rfl

/-- A server's own headline is its share's rate, where that has enough evidence. -/
theorem serverHeadline_mean {w : Window} (hw : interval.window = some w)
    (hcomplete : interval.complete = true) (id : ServerId) :
    (Aggregate.serverHeadline id direction interval).map Rate.mean =
      ((interval.participants.findIdx? fun i => i = id).bind fun index =>
        (w.components.get direction)[index]?).bind fun c =>
          if Aggregate.evidence [c] then some c.rate else none := by
  unfold Aggregate.serverHeadline
  simp only [hw, if_pos hcomplete]
  cases interval.participants.findIdx? fun i => i = id with
  | none => rfl
  | some index =>
    simp only [Option.bind_some]
    cases (w.components.get direction)[index]? with
    | none => rfl
    | some c =>
      simp only [Option.bind_some]
      split <;> rfl

/-- Evidence of one component is bytes over the least time. -/
theorem evidence_singleton (c : Component) :
    Aggregate.evidence [c] = true ↔ c.bytes ≠ 0 ∧ Browser.minEvidenceMs ≤ toMs c.duration := by
  have hms : Browser.minEvidenceMs ≤ toMs c.duration ↔ minEvidence ≤ c.duration := le_toMs
  rw [hms]
  simp [Aggregate.evidence, Nat.pos_iff_ne_zero, and_comm]

/-- A server's own headline has the same mean in both, or is in neither. -/
theorem serverHeadline_eq (h : Same stage interval record) (id : ServerId) (direction : Direction) :
    (Browser.serverHeadline id direction record).map Browser.ThroughputResult.reportedBytesPerSec
      = (Aggregate.serverHeadline id direction interval).map Rate.mean := by
  unfold Browser.serverHeadline
  rw [h.full, h.complete]
  match hw : interval.window with
  | none =>
    rw [Option.map_none, Option.bind_none, Aggregate.serverHeadline, hw]
    split <;> rfl
  | some w =>
    by_cases hcomplete : interval.complete = true
    swap
    · rw [if_neg hcomplete, Aggregate.serverHeadline, hw]
      simp only [if_neg hcomplete]
      rfl
    rw [if_pos hcomplete, serverHeadline_mean hw hcomplete]
    obtain ⟨a, b, rfl, -, -⟩ := h.spans w hw
    simp only [Option.map_some, Option.bind_some, span_components, Window.browser, Dir.get_ofFn]
    by_cases hmoves : stage.moves direction = true
    · obtain ⟨hfind, hindex⟩ := share_eq interval.participants a b id hmoves
      simp only [if_pos hmoves, hfind, hindex]
      by_cases hmem : id ∈ interval.participants
      · simp only [if_pos hmem, Option.bind_some, Component.browser]
        by_cases hevidence : Aggregate.evidence [component a b id direction] = true
        · rw [if_pos hevidence, if_pos ((evidence_singleton _).mp hevidence)]
          rfl
        · rw [if_neg hevidence, if_neg fun h => hevidence ((evidence_singleton _).mpr h)]
          rfl
      · simp only [if_neg hmem]
        rfl
    · -- The stage does not move this direction, so the window has no share in it.
      rw [if_neg hmoves, components, if_neg hmoves]
      cases interval.participants.findIdx? fun i => i = id <;> rfl

/-- Neither has a headline, or both have. -/
theorem headline_none_iff (h : Same stage interval record) (direction : Direction) :
    Aggregate.headline direction interval = none ↔ Browser.headline direction record = none := by
  rw [← Option.map_eq_none_iff (f := Rate.mean), ← h.headline_eq, Option.map_eq_none_iff]

/-- The same of a server's headline. -/
theorem serverHeadline_none_iff (h : Same stage interval record) (id : ServerId)
    (direction : Direction) :
    Aggregate.serverHeadline id direction interval = none ↔
      Browser.serverHeadline id direction record = none := by
  rw [← Option.map_eq_none_iff (f := Rate.mean), ← h.serverHeadline_eq, Option.map_eq_none_iff]

end Same

end Headlines

end GraphiteMeter.Measure
