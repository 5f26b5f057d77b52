import Mathlib.Data.List.Forall2
import GraphiteMeter.Measure.Browser

/-!
# The browser's windows

Reference: `client/src/engine/measure/aggregate.ts` (`window`). What a window holds, said once: a
list of components and its sum for every direction the stage moves, and nothing for the others.
-/

namespace GraphiteMeter.Measure

namespace Dir

variable {α : Type*}

@[simp]
theorem get_set_self (d : Dir α) (direction : Direction) (value : α) :
    (d.set direction value).get direction = value := by
  cases direction <;> rfl

/-- Setting one direction leaves the other. -/
theorem get_set_of_ne (d : Dir α) {direction other : Direction} (h : other ≠ direction) (value : α) :
    (d.set direction value).get other = d.get other := by
  cases direction <;> cases other <;> first | rfl | exact absurd rfl h

@[simp]
theorem get_ofFn (f : Direction → α) (direction : Direction) : (ofFn f).get direction = f direction := by
  cases direction <;> rfl

/-- Pairs are equal that agree in both directions. -/
theorem ext_get {d e : Dir α} (h : ∀ direction, d.get direction = e.get direction) : d = e := by
  obtain ⟨down, up⟩ := d
  obtain ⟨down', up'⟩ := e
  have hdown : down = down' := h .down
  have hup : up = up' := h .up
  rw [hdown, hup]

end Dir

namespace Browser

variable {first last : Boundary} {stage : Stage} {ids : List ServerId} {w : AggregateWindow}

/-- No direction of a stage repeats. -/
theorem directions_nodup (stage : Stage) : (directions stage).Nodup := by
  cases stage <;> decide

/-! ## Components -/

/-- A component is of the server that it is asked for. -/
theorem componentOf_serverId {dir : Direction} {id : ServerId} {c : ComponentWindow}
    (h : componentOf first last dir id = some c) : c.serverId = id := by
  cases dir with
  | down =>
    simp only [componentOf] at h
    split at h
    · split at h
      · cases h
        rfl
      · cases h
    · cases h
  | up =>
    simp only [componentOf] at h
    split at h
    · split at h
      · cases h
      · cases h
        rfl
    · cases h

/-- The components are those of the participants, in order. -/
theorem componentsOf_eq_some {dir : Direction} {cs : List ComponentWindow} :
    componentsOf first last dir ids = some cs ↔
      List.Forall₂ (fun id c => componentOf first last dir id = some c) ids cs := by
  induction ids generalizing cs with
  | nil =>
    rw [componentsOf, List.forall₂_nil_left_iff, Option.some.injEq, eq_comm]
  | cons id ids ih =>
    rw [componentsOf, List.forall₂_cons_left_iff]
    constructor
    · intro h
      split at h
      · cases h
      rename_i c hc
      split at h
      · cases h
      rename_i rest hrest
      cases h
      exact ⟨c, rest, hc, ih.mp hrest, rfl⟩
    · rintro ⟨c, rest, hc, hrest, rfl⟩
      simp only [hc, ih.mpr hrest]

/-- Each component is what its server's counters say. -/
theorem componentOf_of_mem {dir : Direction} {cs : List ComponentWindow} {c : ComponentWindow}
    (h : componentsOf first last dir ids = some cs) (hc : c ∈ cs) :
    componentOf first last dir c.serverId = some c := by
  have hall := componentsOf_eq_some.mp h
  clear h
  induction hall with
  | nil => cases hc
  | cons hone hrest ih =>
    rcases List.mem_cons.mp hc with rfl | hc
    · rw [componentOf_serverId hone, hone]
    · exact ih hc

/-- Where all components are found, each is. -/
theorem componentOf_isSome {dir : Direction} {cs : List ComponentWindow} {id : ServerId}
    (h : componentsOf first last dir ids = some cs) (hid : id ∈ ids) :
    (componentOf first last dir id).isSome := by
  have hall := componentsOf_eq_some.mp h
  clear h
  induction hall with
  | nil => cases hid
  | cons hone hrest ih =>
    rcases List.mem_cons.mp hid with rfl | hid
    · rw [hone]
      rfl
    · exact ih hid

/-- A server listed twice has the same component twice. -/
theorem component_unique {dir : Direction} {cs : List ComponentWindow} {c d : ComponentWindow}
    (h : componentsOf first last dir ids = some cs) (hc : c ∈ cs) (hd : d ∈ cs)
    (hid : c.serverId = d.serverId) : c = d := by
  have hcomponent := componentOf_of_mem h hc
  rw [hid, componentOf_of_mem h hd] at hcomponent
  exact (Option.some.inj hcomponent).symm

/-! ## Windows -/

/-- What a window from `first` to `last` holds. -/
structure Spans (first last : Boundary) (stage : Stage) (ids : List ServerId) (w : AggregateWindow) :
    Prop where
  later : first.atMs < last.atMs
  startMs : w.startMs = first.atMs
  endMs : w.endMs = last.atMs
  moved : ∀ dir ∈ directions stage, ∃ cs, componentsOf first last dir ids = some cs ∧
    w.components.get dir = some cs ∧
      w.bytesPerSec.get dir = some (cs.map ComponentWindow.bytesPerSec).sum
  idle : ∀ dir ∉ directions stage, w.components.get dir = none ∧ w.bytesPerSec.get dir = none

/-- Filling goes direction by direction and leaves the others as they were. -/
theorem fill_spec {dirs : List Direction} {result : AggregateWindow} (hnodup : dirs.Nodup)
    (h : fill first last ids dirs result = some w) :
    w.startMs = result.startMs ∧ w.endMs = result.endMs ∧
      (∀ dir ∈ dirs, ∃ cs, componentsOf first last dir ids = some cs ∧
        w.components.get dir = some cs ∧
          w.bytesPerSec.get dir = some (cs.map ComponentWindow.bytesPerSec).sum) ∧
      ∀ dir ∉ dirs, w.components.get dir = result.components.get dir ∧
        w.bytesPerSec.get dir = result.bytesPerSec.get dir := by
  induction dirs generalizing result with
  | nil =>
    cases h
    exact ⟨rfl, rfl, nofun, fun _ _ => ⟨rfl, rfl⟩⟩
  | cons first dirs ih =>
    obtain ⟨hfirst, hnodup⟩ := List.nodup_cons.mp hnodup
    simp only [fill] at h
    split at h
    · cases h
    rename_i cs hcs
    obtain ⟨hstart, hend, hmoved, hidle⟩ := ih hnodup h
    refine ⟨hstart, hend, ?_, ?_⟩
    · intro dir hdir
      rcases List.mem_cons.mp hdir with rfl | hdir
      · -- The later directions leave this one as it was set.
        obtain ⟨hcomponents, hrate⟩ := hidle dir hfirst
        exact ⟨cs, hcs, by rw [hcomponents, Dir.get_set_self], by rw [hrate, Dir.get_set_self]⟩
      · exact hmoved dir hdir
    · intro dir hdir
      obtain ⟨hne, hdir⟩ := not_or.mp (mt List.mem_cons.mpr hdir)
      obtain ⟨hcomponents, hrate⟩ := hidle dir hdir
      exact ⟨by rw [hcomponents, Dir.get_set_of_ne _ hne], by rw [hrate, Dir.get_set_of_ne _ hne]⟩

/-- **A window** spans its two boundaries. -/
theorem window_spans (h : window first last stage ids = some w) : Spans first last stage ids w := by
  rw [window] at h
  split at h
  · cases h
  rename_i hlater
  obtain ⟨hstart, hend, hmoved, hidle⟩ := fill_spec (directions_nodup stage) h
  refine ⟨not_le.mp hlater, hstart, hend, hmoved, ?_⟩
  intro dir hdir
  obtain ⟨hcomponents, hrate⟩ := hidle dir hdir
  refine ⟨hcomponents.trans ?_, hrate.trans ?_⟩ <;> cases dir <;> rfl

/-- A window is filled when each direction has its components. -/
theorem fill_isSome {dirs : List Direction}
    (h : ∀ dir ∈ dirs, (componentsOf first last dir ids).isSome) (result : AggregateWindow) :
    (fill first last ids dirs result).isSome := by
  induction dirs generalizing result with
  | nil => rfl
  | cons dir dirs ih =>
    obtain ⟨cs, hcs⟩ := Option.isSome_iff_exists.mp (h dir List.mem_cons_self)
    simp only [fill, hcs]
    exact ih (fun dir hdir => h dir (List.mem_cons_of_mem _ hdir)) _

/-- There is a window where time passed and every direction has its components. -/
theorem window_isSome_iff :
    (window first last stage ids).isSome ↔
      first.atMs < last.atMs ∧
        ∀ dir ∈ directions stage, (componentsOf first last dir ids).isSome := by
  constructor
  · intro h
    obtain ⟨w, hw⟩ := Option.isSome_iff_exists.mp h
    have hspans := window_spans hw
    refine ⟨hspans.later, fun dir hdir => ?_⟩
    obtain ⟨cs, hcs, -⟩ := hspans.moved dir hdir
    rw [hcs]
    rfl
  · rintro ⟨hlater, hall⟩
    rw [window, if_neg (not_le.mpr hlater)]
    exact fill_isSome hall _

end Browser

end GraphiteMeter.Measure
