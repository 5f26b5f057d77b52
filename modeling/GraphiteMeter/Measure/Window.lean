import GraphiteMeter.Measure.Aggregate

/-!
# When two boundaries span a window

`window` walks the participants and stops at the first that breaks. `Continuous` is what one
participant asks for, `Advances` what all of them and the clocks do, and `span` the window that
results. Windows add up along boundaries that advance.
-/

namespace GraphiteMeter.Measure

/-! ## Readings -/

namespace Boundary

def down (b : Boundary) (id : ServerId) : Option ℕ := (b.reading id).bind Reading.down

def up (b : Boundary) (id : ServerId) : Option Receiver := (b.reading id).bind Reading.up

def downAt (b : Boundary) (id : ServerId) : ℕ := (b.down id).getD 0

def bytesAt (b : Boundary) (id : ServerId) : ℕ := (b.up id).elim 0 fun up => up.counters.bytes

def nanosAt (b : Boundary) (id : ServerId) : ℕ := (b.up id).elim 0 fun up => up.counters.nanos

end Boundary

/-- A download count that did not regress. -/
def DownFollows (a b : Boundary) (id : ServerId) : Prop :=
  ∃ first last, a.down id = some first ∧ b.down id = some last ∧ first ≤ last

/-- The same receiver, whose counters did not regress. -/
def UpFollows (a b : Boundary) (id : ServerId) : Prop :=
  ∃ first last, a.up id = some first ∧ b.up id = some last ∧ first.id = last.id ∧
    first.counters.bytes ≤ last.counters.bytes ∧ first.counters.nanos ≤ last.counters.nanos

/-- What a participant asks of two boundaries for a window between them. -/
structure Continuous (stage : Stage) (a b : Boundary) (id : ServerId) : Prop where
  read : (a.reading id).isSome ∧ (b.reading id).isSome
  down : stage.moves .down = true → DownFollows a b id
  up : stage.moves .up = true → UpFollows a b id

/-- A participant's component between two boundaries. -/
def component (a b : Boundary) (id : ServerId) : Direction → Component
  | .down => .of (b.downAt id - a.downAt id) (b.at_ - a.at_)
  | .up => .of (b.bytesAt id - a.bytesAt id) (b.nanosAt id - a.nanosAt id)

section Share

variable {stage : Stage} {a b : Boundary} {id : ServerId}

/-- A download share that follows is the difference of the two readings. -/
theorem downShare_eq {start end_ : Reading} (ha : a.reading id = some start)
    (hb : b.reading id = some end_) (h : DownFollows a b id) :
    downShare start end_ (b.at_ - a.at_) = some (component a b id .down) := by
  obtain ⟨first, last, hfirst, hlast, hle⟩ := h
  simp only [Boundary.down, ha, hb, Option.bind_some] at hfirst hlast
  simp only [downShare, hfirst, hlast, Word.checkedSub, if_pos hle, Option.map_some, component,
    Boundary.downAt, Boundary.down, ha, hb, Option.bind_some, Option.getD_some]

/-- A download share that is found follows. -/
theorem downFollows_of_isSome {start end_ : Reading} (ha : a.reading id = some start)
    (hb : b.reading id = some end_) (elapsed : ℕ) (h : (downShare start end_ elapsed).isSome) :
    DownFollows a b id := by
  rw [downShare] at h
  split at h
  case h_1 first last hfirst hlast =>
    rw [Option.isSome_map, Word.checkedSub] at h
    split_ifs at h with hle
    · refine ⟨first, last, ?_, ?_, hle⟩
      · simp only [Boundary.down, ha, Option.bind_some, hfirst]
      · simp only [Boundary.down, hb, Option.bind_some, hlast]
    · cases h
  case h_2 => cases h

/-- An upload share that follows is the difference of the two readings. -/
theorem upShare_eq {start end_ : Reading} (ha : a.reading id = some start)
    (hb : b.reading id = some end_) (h : UpFollows a b id) :
    upShare start end_ = some (component a b id .up) := by
  obtain ⟨first, last, hfirst, hlast, hid, hbytes, hnanos⟩ := h
  simp only [Boundary.up, ha, hb, Option.bind_some] at hfirst hlast
  have hfollows : ¬ (first.id ≠ last.id ∨ last.counters.follows first.counters = false) := by
    simp [Proto.Counters.follows, hid, hbytes, hnanos]
  simp only [upShare, hfirst, hlast, if_neg hfollows, component, Boundary.bytesAt, Boundary.nanosAt,
    Boundary.up, ha, hb, Option.bind_some, Option.elim_some]

/-- An upload share that is found follows. -/
theorem upFollows_of_isSome {start end_ : Reading} (ha : a.reading id = some start)
    (hb : b.reading id = some end_) (h : (upShare start end_).isSome) : UpFollows a b id := by
  rw [upShare] at h
  split at h
  case h_1 first last hfirst hlast =>
    split_ifs at h with hbreaks
    · cases h
    · rw [not_or, not_not, Bool.not_eq_false, Proto.Counters.follows, decide_eq_true_eq] at hbreaks
      refine ⟨first, last, ?_, ?_, hbreaks.1, hbreaks.2.1, hbreaks.2.2⟩
      · simp only [Boundary.up, ha, Option.bind_some, hfirst]
      · simp only [Boundary.up, hb, Option.bind_some, hlast]
  case h_2 => cases h

/-- What a turn of the loop gives for a participant that is continuous. -/
def turn (stage : Stage) (a b : Boundary) (id : ServerId) : Dir (Option Component) :=
  Dir.ofFn fun direction => if stage.moves direction then some (component a b id direction) else none

/-- A direction that moves gives its component, one that does not gives none. -/
theorem required_eq {moves : Bool} {found : Option Component} {component : Component}
    (h : moves = true → found = some component) :
    required moves found = some (if moves then some component else none) := by
  cases moves with
  | false => rfl
  | true =>
    rw [h rfl]
    rfl

/-- The share of a continuous server is what it moved. -/
theorem share_eq (h : Continuous stage a b id) : share stage a b id = some (turn stage a b id) := by
  obtain ⟨start, ha⟩ := Option.isSome_iff_exists.mp h.read.1
  obtain ⟨end_, hb⟩ := Option.isSome_iff_exists.mp h.read.2
  have hdown : required (stage.moves .down) (downShare start end_ (b.at_ - a.at_))
      = some (turn stage a b id).down :=
    required_eq fun hmoves => downShare_eq ha hb (h.down hmoves)
  have hup : required (stage.moves .up) (upShare start end_) = some (turn stage a b id).up :=
    required_eq fun hmoves => upShare_eq ha hb (h.up hmoves)
  simp only [share, ha, hb, hdown, hup]

/-- A server that is not continuous has no share. -/
theorem share_eq_none (h : ¬ Continuous stage a b id) : share stage a b id = none := by
  rw [share]
  split
  case h_1 start end_ ha hb =>
    rw [← Option.not_isSome_iff_eq_none]
    intro hsome
    refine h ⟨by simp [ha, hb], fun hmoves => ?_, fun hmoves => ?_⟩
    · refine downFollows_of_isSome ha hb (b.at_ - a.at_) ?_
      by_contra hnone
      rw [Option.not_isSome_iff_eq_none] at hnone
      simp [required, hmoves, hnone] at hsome
    · refine upFollows_of_isSome ha hb ?_
      by_contra hnone
      rw [Option.not_isSome_iff_eq_none] at hnone
      split at hsome <;> simp [required, hmoves, hnone] at hsome
  case h_2 => rfl

/-- Servers that are all continuous have their shares. -/
theorem shares_eq {ids : List ServerId} (h : ∀ id ∈ ids, Continuous stage a b id) :
    shares stage a b ids = some (ids.map (turn stage a b)) := by
  induction ids with
  | nil => rfl
  | cons id ids ih =>
    simp only [shares, share_eq (h id List.mem_cons_self),
      ih fun i hi => h i (List.mem_cons_of_mem _ hi), List.map_cons]

/-- One server that is not continuous leaves no shares. -/
theorem shares_eq_none {ids : List ServerId} (h : ¬ ∀ id ∈ ids, Continuous stage a b id) :
    shares stage a b ids = none := by
  induction ids with
  | nil => exact absurd nofun h
  | cons id ids ih =>
    rw [shares]
    by_cases hid : Continuous stage a b id
    · have hrest : ¬ ∀ i ∈ ids, Continuous stage a b i := by
        intro hall
        refine h fun i hi => ?_
        rcases List.mem_cons.mp hi with rfl | hi
        · exact hid
        · exact hall i hi
      simp only [share_eq hid, ih hrest]
    · simp only [share_eq_none hid]

end Share

/-! ## Windows -/

section Window

variable {stage : Stage} {ids : List ServerId} {a b c : Boundary}

/-- Every participant is continuous and time passed on every clock. -/
structure Advances (stage : Stage) (ids : List ServerId) (a b : Boundary) : Prop where
  elapsed : a.at_ < b.at_
  continuous : ∀ id ∈ ids, Continuous stage a b id
  clocks : stage.moves .up = true → ∀ id ∈ ids, a.nanosAt id < b.nanosAt id

/-- The participants' components, in order. -/
def components (stage : Stage) (ids : List ServerId) (a b : Boundary) (direction : Direction) :
    List Component :=
  if stage.moves direction then ids.map fun id => component a b id direction else []

/-- The window between two boundaries that advance. -/
def span (stage : Stage) (ids : List ServerId) (a b : Boundary) : Window where
  start := a.at_
  end_ := b.at_
  components := Dir.ofFn (components stage ids a b)
  rates := Dir.ofFn fun direction => total (components stage ids a b direction)

@[simp]
theorem span_components (stage : Stage) (ids : List ServerId) (a b : Boundary)
    (direction : Direction) :
    (span stage ids a b).components.get direction = components stage ids a b direction := by
  cases direction <;> rfl

/-- The turns of a direction are its components. -/
theorem filterMap_turn (direction : Direction) :
    (ids.map (turn stage a b)).filterMap (fun one => one.get direction)
      = components stage ids a b direction := by
  have hget : ∀ id, (turn stage a b id).get direction
      = if stage.moves direction then some (component a b id direction) else none := by
    intro id
    cases direction <;> rfl
  rw [components, List.filterMap_map]
  split_ifs with hmoves
  · rw [← List.filterMap_eq_map]
    congr 1
    funext id
    simp only [Function.comp_apply, hget, if_pos hmoves]
  · rw [List.filterMap_eq_nil_iff]
    intro id _
    simp only [Function.comp_apply, hget, if_neg hmoves]

/-- A receiver's clock stands still exactly where a component takes no time. -/
theorem any_stale (hcontinuous : ∀ id ∈ ids, Continuous stage a b id) :
    ((components stage ids a b .up).any fun component => component.duration = 0) = false ↔
      (stage.moves .up = true → ∀ id ∈ ids, a.nanosAt id < b.nanosAt id) := by
  rw [components, List.any_eq_false]
  constructor
  · intro h hmoves id hid
    rw [if_pos hmoves] at h
    have hne := h _ (List.mem_map_of_mem hid)
    obtain ⟨first, last, hfirst, hlast, -, -, hle⟩ := (hcontinuous id hid).up hmoves
    simp only [component, Component.of, decide_eq_true_eq, Boundary.nanosAt, hfirst, hlast,
      Option.elim_some] at hne ⊢
    omega
  · intro h x hx
    split_ifs at hx with hmoves
    · obtain ⟨id, hid, rfl⟩ := List.mem_map.mp hx
      have hlt := h hmoves id hid
      rw [decide_eq_true_eq, component, Component.of]
      exact Nat.sub_ne_zero_of_lt hlt
    · cases hx

/-- **What `window` gives**: the span of boundaries that advance, else what is in the way. -/
theorem window_eq (stage : Stage) (ids : List ServerId) (a b : Boundary) [Decidable
    (∀ id ∈ ids, Continuous stage a b id)] [Decidable (Advances stage ids a b)] :
    window stage ids a b =
      if Advances stage ids a b then .ok (span stage ids a b)
      else if a.at_ < b.at_ ∧ ¬ ∀ id ∈ ids, Continuous stage a b id then .error .broken
      else .error .stale := by
  rw [window]
  by_cases helapsed : a.at_ < b.at_
  swap
  · have hadvances : ¬ Advances stage ids a b := fun h => helapsed h.elapsed
    rw [if_pos (by omega), if_neg hadvances, if_neg fun h => helapsed h.1]
  rw [if_neg (by omega)]
  by_cases hcontinuous : ∀ id ∈ ids, Continuous stage a b id
  · have hdown : (ids.map (turn stage a b)).filterMap (fun one => one.down)
        = components stage ids a b .down := filterMap_turn .down
    have hup : (ids.map (turn stage a b)).filterMap (fun one => one.up)
        = components stage ids a b .up := filterMap_turn .up
    simp only [shares_eq hcontinuous, hdown, hup]
    by_cases hstale : ((components stage ids a b .up).any fun x => x.duration = 0) = false
    · have hadvances : Advances stage ids a b :=
        ⟨helapsed, hcontinuous, (any_stale hcontinuous).mp hstale⟩
      rw [if_pos hadvances, if_neg (by rw [hstale]; nofun)]
      rfl
    · have hadvances : ¬ Advances stage ids a b := fun h =>
        hstale ((any_stale hcontinuous).mpr h.clocks)
      rw [Bool.not_eq_false] at hstale
      rw [if_pos hstale, if_neg hadvances, if_neg fun h => h.2 hcontinuous]
  · have hadvances : ¬ Advances stage ids a b := fun h => hcontinuous h.continuous
    simp only [shares_eq_none hcontinuous, if_neg hadvances]
    rw [if_pos ⟨helapsed, hcontinuous⟩]

/-- A window is made when all servers advance, and it is their span. -/
theorem window_eq_ok {w : Window} :
    window stage ids a b = .ok w ↔ Advances stage ids a b ∧ w = span stage ids a b := by
  classical
  rw [window_eq]
  split_ifs with hadvances hbroken
  · simp only [hadvances, true_and, Except.ok.injEq]
    exact eq_comm
  · exact ⟨nofun, fun h => absurd h.1 hadvances⟩
  · exact ⟨nofun, fun h => absurd h.1 hadvances⟩

/-! ### Windows add up -/

/-- Download readings that follow one another compose. -/
theorem DownFollows.trans {id : ServerId} (hab : DownFollows a b id) (hbc : DownFollows b c id) :
    DownFollows a c id := by
  obtain ⟨first, middle, hfirst, hmiddle, hle⟩ := hab
  obtain ⟨middle', last, hmiddle', hlast, hle'⟩ := hbc
  cases hmiddle.symm.trans hmiddle'
  exact ⟨first, last, hfirst, hlast, hle.trans hle'⟩

/-- Upload readings that follow one another compose. -/
theorem UpFollows.trans {id : ServerId} (hab : UpFollows a b id) (hbc : UpFollows b c id) :
    UpFollows a c id := by
  obtain ⟨first, middle, hfirst, hmiddle, hid, hbytes, hnanos⟩ := hab
  obtain ⟨middle', last, hmiddle', hlast, hid', hbytes', hnanos'⟩ := hbc
  cases hmiddle.symm.trans hmiddle'
  exact ⟨first, last, hfirst, hlast, hid.trans hid', hbytes.trans hbytes', hnanos.trans hnanos'⟩

/-- Boundaries that advance compose. -/
theorem Advances.trans (hab : Advances stage ids a b) (hbc : Advances stage ids b c) :
    Advances stage ids a c where
  elapsed := hab.elapsed.trans hbc.elapsed
  continuous id hid :=
    ⟨⟨(hab.continuous id hid).read.1, (hbc.continuous id hid).read.2⟩,
      fun hmoves => ((hab.continuous id hid).down hmoves).trans ((hbc.continuous id hid).down hmoves),
      fun hmoves => ((hab.continuous id hid).up hmoves).trans ((hbc.continuous id hid).up hmoves)⟩
  clocks hmoves id hid := (hab.clocks hmoves id hid).trans (hbc.clocks hmoves id hid)

/-- A participant's bytes and time add up. -/
theorem component_add {id : ServerId} (hab : Continuous stage a b id) (hbc : Continuous stage b c id)
    (hat : a.at_ ≤ b.at_ ∧ b.at_ ≤ c.at_) {direction : Direction}
    (hmoves : stage.moves direction = true) :
    (component a c id direction).bytes
        = (component a b id direction).bytes + (component b c id direction).bytes ∧
      (component a c id direction).duration
        = (component a b id direction).duration + (component b c id direction).duration := by
  cases direction with
  | down =>
    obtain ⟨first, middle, hfirst, hmiddle, hle⟩ := hab.down hmoves
    obtain ⟨middle', last, hmiddle', hlast, hle'⟩ := hbc.down hmoves
    cases hmiddle.symm.trans hmiddle'
    simp only [component, Component.of, Boundary.downAt, hfirst, hmiddle, hlast, Option.getD_some]
    omega
  | up =>
    obtain ⟨first, middle, hfirst, hmiddle, -, hbytes, hnanos⟩ := hab.up hmoves
    obtain ⟨middle', last, hmiddle', hlast, -, hbytes', hnanos'⟩ := hbc.up hmoves
    cases hmiddle.symm.trans hmiddle'
    simp only [component, Component.of, Boundary.bytesAt, Boundary.nanosAt, hfirst, hmiddle, hlast,
      Option.elim_some]
    omega

end Window

end GraphiteMeter.Measure
