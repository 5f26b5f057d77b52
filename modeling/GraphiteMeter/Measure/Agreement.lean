import Mathlib.Data.Option.Basic
import GraphiteMeter.Lib.Machine
import GraphiteMeter.Measure.Correspondence
import GraphiteMeter.Measure.Observe

/-!
# The two aggregates agree

Reference: `rust/client/src/measure/aggregate.rs` and `client/src/engine/measure/aggregate.ts`.

`Agree` relates the terminal client's aggregate to the browser's: interval by interval the same window,
and what is open has the same boundaries and marks. Every call keeps it, except where a final boundary
finds a direction that stood still beside counters that broke off: the browser skips the boundary, as
the final one's rule comes first there, and the terminal client resumes evidence at it. `Clear` says
that no call does that.
-/

namespace GraphiteMeter.Measure

/-! ## Searching related lists -/

section Lists

variable {α β γ : Type*} {R : α → β → Prop}

/-- Two options agree when both are absent or both are there and agree. -/
theorem rel_cases {x : Option α} {y : Option β} (h : Option.Rel R x y) :
    x = none ∧ y = none ∨ ∃ a b, x = some a ∧ y = some b ∧ R a b := by
  cases h with
  | none => exact .inl ⟨rfl, rfl⟩
  | some hab => exact .inr ⟨_, _, rfl, rfl, hab⟩

/-- Options that agree are lists that agree. -/
theorem forall₂_toList {x : Option α} {y : Option β} (h : Option.Rel R x y) :
    List.Forall₂ R x.toList y.toList := by
  cases h with
  | none => exact .nil
  | some hab => exact .cons hab .nil

/-- Lists that agree part by part agree. -/
theorem forall₂_flatMap {l : List γ} {f : γ → List α} {g : γ → List β}
    (h : ∀ c ∈ l, List.Forall₂ R (f c) (g c)) : List.Forall₂ R (l.flatMap f) (l.flatMap g) := by
  induction l with
  | nil => exact .nil
  | cons c l ih =>
    rw [List.flatMap_cons, List.flatMap_cons]
    exact List.rel_append (h c List.mem_cons_self) (ih fun d hd => h d (List.mem_cons_of_mem _ hd))

/-- The least of two related lists, where the relation keeps the order. -/
theorem argmin_rel {l : List α} {l' : List β} {f : α → ℕ} {g : β → ℚ}
    (hlt : ∀ a b a' b', R a a' → R b b' → (f a < f b ↔ g a' < g b')) (h : List.Forall₂ R l l') :
    Option.Rel R (l.argmin f) (l'.argmin g) := by
  unfold List.argmin
  refine List.rel_foldl (P := Option.Rel R) (R := R) ?_ .none h
  intro x y hxy a a' ha
  cases hxy with
  | none => exact .some ha
  | some hb =>
    simp only [List.argAux]
    rename_i b b'
    by_cases hless : f a < f b
    · rw [if_pos hless, if_pos ((hlt a b a' b' ha hb).mp hless)]
      exact .some ha
    · rw [if_neg hless, if_neg (mt (hlt a b a' b' ha hb).mpr hless)]
      exact .some hb

/-- Lists that agree do so without their last members. -/
theorem forall₂_dropLast {l : List α} {l' : List β} (h : List.Forall₂ R l l') :
    List.Forall₂ R l.dropLast l'.dropLast := by
  rw [List.dropLast_eq_take, List.dropLast_eq_take, h.length_eq]
  exact List.forall₂_take _ h

end Lists

namespace Aggregate

/-- A final boundary meets a direction that stood still beside counters that broke off: a regressed
count, or a receiver that was replaced. -/
def Mixed (stage : Stage) (ids : List ServerId) (last b : Boundary) : Prop :=
  b.last = true ∧ takes stage ids b = true ∧ StoodStill stage ids last b ∧
    ¬ ∀ id ∈ ids, Continuous stage last b id

/-- A call that meets no mixed boundary: neither the one it observes, nor the latest one where the
survivors' interval observes it again. -/
def Clear (s : Aggregate) : Call → Prop
  | .observe b => ∀ o, s.opened = some o → ¬ Mixed s.stage s.participants o.last b
  | .dropout survivors _ => ∀ mark latest, s.departure s.participants survivors = some mark →
      s.latest = some latest → mark.boundary.at_ < latest.at_ →
      ¬ Mixed s.stage survivors mark.boundary latest

/-! ## The relation -/

section Relation

variable (name : ℕ → String)

/-- A mark in both. -/
structure SameMark (stage : Stage) (ids : List ServerId) (first last : Boundary) (mark : Mark)
    (mark' : Browser.Mark) : Prop where
  boundary : mark'.boundary = mark.boundary.browser name
  full : mark'.full = mark.window.map (Window.browser stage ids)
  spans : ∀ w, mark.window = some w → w = span stage ids first mark.boundary
  after : first.at_ ≤ mark.boundary.at_
  before : mark.boundary.at_ ≤ last.at_

/-- What is open in both, once the interval has its first boundary. -/
structure SameStarted (stage : Stage) (interval : Interval) (o : Open) (o' : Browser.Open) : Prop where
  first : o'.first = some (o.first.browser name)
  last : o'.last = some (o.last.browser name)
  start : o.first.at_ = interval.start
  chain : o.last = o.first ∨ Advances stage interval.participants o.first o.last
  moved : ∃ f : ServerId → Dir (Option Mark), o.moved = interval.participants.map f ∧
    ∀ id ∈ interval.participants, ∀ direction,
      Option.Rel (SameMark name stage interval.participants o.first o.last) ((f id).get direction)
        ((o'.moved id).get direction)

/-- What is open in both. -/
def SameOpen (stage : Stage) (interval : Interval) : Option Open → Browser.Open → Prop
  | none, o' => o'.first = none ∧ (∀ id direction, (o'.moved id).get direction = none) ∧
      interval.window = none
  | some o, o' => SameStarted name stage interval o o'

/-- The latest boundary in both. The browser forgets that it is final where evidence resumed at it;
then no mark stands before it, so it is not observed again. -/
def SameLatest (opened : Option Open) : Option Boundary → Option (Browser.Boundary × Bool) → Prop
  | none, latest' => latest' = none ∧ opened = none
  | some latest, latest' =>
    (∃ final, latest' = some (latest.browser name, final) ∧
      (final = latest.last ∨ ∀ o, opened = some o → o.first.at_ = latest.at_)) ∧
    ∀ o, opened = some o → o.last.at_ ≤ latest.at_

structure Agree (s : Aggregate) (t : Browser.Aggregate) : Prop where
  transfers : s.stage ≠ .latency
  limit : s.limit = some maxIntervals
  limit' : t.limit = some Browser.intervalLimit
  intervals : List.Forall₂ (Same s.stage) s.intervals t.intervals
  inhabited : ∀ interval ∈ s.intervals, interval.participants ≠ []
  begun : s.intervals.length = min s.begun maxIntervals
  kept : s.begun ≤ maxIntervals → t.kept = fun _ => none
  opened : ∃ interval earlier o', s.intervals = interval :: earlier ∧ t.opened = some o' ∧
    SameOpen name s.stage interval s.opened o'
  latest : SameLatest name s.opened s.latest t.latest

end Relation

namespace Agree

variable {name : ℕ → String} {s : Aggregate} {t : Browser.Aggregate} {interval : Interval}
  {earlier : List Interval} {b : Boundary}

/-- The participants are those of the latest interval. -/
theorem participants_eq (hs : s.intervals = interval :: earlier) :
    s.participants = interval.participants := by
  rw [participants, hs]
  rfl

/-- The latest interval of both. -/
theorem current (h : Agree name s t) (hs : s.intervals = interval :: earlier) :
    ∃ record rest o', t.intervals = record :: rest ∧ Same s.stage interval record ∧
      List.Forall₂ (Same s.stage) earlier rest ∧ t.opened = some o' ∧
      SameOpen name s.stage interval s.opened o' := by
  obtain ⟨interval', earlier', o', hs', ho', hopen⟩ := h.opened
  cases hs.symm.trans hs'
  have hall := h.intervals
  rw [hs, List.forall₂_cons_left_iff] at hall
  obtain ⟨record, rest, hsame, hrest, ht⟩ := hall
  exact ⟨record, rest, o', ht, hsame, hrest, ho', hopen⟩

/-- Only the latest interval changes, and keeps its participants. -/
theorem setCurrent (h : Agree name s t) (hs : s.intervals = interval :: earlier)
    {record : Browser.Interval} {rest : List Browser.Interval} (ht : t.intervals = record :: rest)
    {after : Interval} {after' : Browser.Interval} (hsame : Same s.stage after after')
    (hids : after.participants = interval.participants) {opened : Option Open} {o' : Browser.Open}
    (hopen : SameOpen name s.stage after opened o') {latest : Option Boundary}
    {latest' : Option (Browser.Boundary × Bool)} (hlatest : SameLatest name opened latest latest')
    (ledgers : List Ledger) (log : List Event) :
    Agree name { s with intervals := after :: earlier, opened, latest, ledgers, log }
      { t with intervals := after' :: rest, opened := some o', latest := latest' } := by
  have hall := h.intervals
  have hinhabited := h.inhabited
  have hbegun := h.begun
  rw [hs, ht, List.forall₂_cons] at hall
  rw [hs] at hinhabited hbegun
  refine ⟨h.transfers, h.limit, h.limit', .cons hsame hall.2, ?_, hbegun, h.kept,
    ⟨after, earlier, o', rfl, rfl, hopen⟩, hlatest⟩
  intro other hother
  rcases List.mem_cons.mp hother with rfl | hother
  · rw [hids]
    exact hinhabited interval List.mem_cons_self
  · exact hinhabited other (List.mem_cons_of_mem _ hother)

/-- The boundary is noted in both. -/
theorem noted (h : Agree name s t) (b : Boundary) (final : Bool)
    (hlater : ∀ o, s.opened = some o → o.last.at_ ≤ b.at_)
    (hfinal : final = b.last ∨ ∀ o, s.opened = some o → o.first.at_ = b.at_) :
    Agree name (s.noted b) { t with latest := some (b.browser name, final) } :=
  ⟨h.transfers, h.limit, h.limit', h.intervals, h.inhabited, h.begun, h.kept, h.opened,
    ⟨final, rfl, hfinal⟩, hlater⟩

/-- **A new interval in both.** Where there is no room, both let the oldest one go. -/
theorem restart (h : Agree name s t) (reason : Reason) (hreason : reason ≠ .stageStart)
    {ids : List ServerId} (hids : ids ≠ []) (at_ : ℕ) (atMs : ℚ) :
    Agree name (s.restart reason ids at_) (t.begin s.stage ids atMs reason) := by
  have hlen := h.intervals.length_eq
  have hfull : s.limit = some s.intervals.length ↔
      (t.limit.any fun limit => limit ≤ t.intervals.length) = true := by
    have hbegun := h.begun
    rw [h.limit, h.limit', Option.some.injEq, Option.any_some, decide_eq_true_eq, ← hlen,
      Browser.intervalLimit]
    rw [maxIntervals] at *
    omega
  have hsame : ∀ number, Same s.stage ⟨reason, ids, at_, at_, true, none, .new⟩
      ⟨number, s.stage, ids, atMs, atMs, true, reason, none, fun _ => ⟨0, 0⟩⟩ := by
    intro number
    exact ⟨rfl, rfl, rfl, rfl, rfl, nofun⟩
  have hwaits : SameOpen name s.stage ⟨reason, ids, at_, at_, true, none, .new⟩ none
      ⟨none, none, none, fun _ => ⟨none, none⟩, none⟩ := by
    refine ⟨rfl, ?_, rfl⟩
    intro id direction
    cases direction <;> rfl
  have hlatest : SameLatest name none s.latest t.latest := by
    have hbefore := h.latest
    cases hl : s.latest with
    | none =>
      rw [hl] at hbefore
      exact ⟨hbefore.1, rfl⟩
    | some latest =>
      rw [hl] at hbefore
      obtain ⟨⟨final, ht, -⟩, -⟩ := hbefore
      exact ⟨⟨final, ht, .inr nofun⟩, nofun⟩
  unfold Aggregate.restart Browser.Aggregate.begin
  simp only [if_neg hreason]
  by_cases hroom : s.limit = some s.intervals.length
  · -- both drop their oldest interval
    rw [if_pos hroom, if_pos (hfull.mp hroom)]
    have hmax : s.intervals.length = maxIntervals := by
      rw [h.limit] at hroom
      exact (Option.some.inj hroom).symm
    refine ⟨h.transfers, h.limit, h.limit', .cons (hsame _) (forall₂_dropLast h.intervals), ?_, ?_, ?_,
      ⟨_, _, _, rfl, rfl, hwaits⟩, hlatest⟩
    · intro interval hinterval
      rcases List.mem_cons.mp hinterval with rfl | hinterval
      · exact hids
      · exact h.inhabited interval (List.dropLast_subset _ hinterval)
    · have hbegun := h.begun
      simp only [List.length_cons, List.length_dropLast]
      rw [maxIntervals] at *
      omega
    · intro hle
      have hbegun := h.begun
      simp only at hle
      rw [maxIntervals] at *
      omega
  · rw [if_neg hroom, if_neg (mt hfull.mpr hroom)]
    have hbegun : s.intervals.length = s.begun ∧ s.begun < maxIntervals := by
      have hbegun := h.begun
      rw [h.limit] at hroom
      have hne : s.intervals.length ≠ maxIntervals := fun heq => hroom (by rw [heq])
      omega
    refine ⟨h.transfers, h.limit, h.limit', .cons (hsame _) h.intervals, ?_, ?_, ?_,
      ⟨_, _, _, rfl, rfl, hwaits⟩, hlatest⟩
    · intro interval hinterval
      rcases List.mem_cons.mp hinterval with rfl | hinterval
      · exact hids
      · exact h.inhabited interval hinterval
    · simp only [List.length_cons]
      omega
    · intro _
      exact h.kept (by omega)

/-- The interval that waits starts at a boundary in both. -/
theorem start (h : Agree name s t) (hs : s.intervals = interval :: earlier) (hopened : s.opened = none)
    {record : Browser.Interval} {rest : List Browser.Interval} (ht : t.intervals = record :: rest)
    {latest : Boundary} (hlatest : s.latest = some latest) (hle : b.at_ ≤ latest.at_)
    (hfinal : t.latest = some (latest.browser name, latest.last) ∨ b.at_ = latest.at_) :
    Agree name (s.start b) (t.start record rest (b.browser name)) := by
  obtain ⟨record', rest', o', ht', hsame, -, ho', hopen⟩ := h.current hs
  cases ht.symm.trans ht'
  rw [hopened] at hopen
  obtain ⟨-, -, hwindow⟩ := hopen
  have hfull := hsame.full
  rw [hwindow, Option.map_none] at hfull
  have hlast := h.latest
  rw [hlatest] at hlast
  obtain ⟨⟨final, htlatest, -⟩, -⟩ := hlast
  rw [start_eq hs]
  unfold Browser.Aggregate.start
  have hafter : Same s.stage { interval with start := b.at_, end_ := b.at_ }
      { record with startMs := (b.browser name).atMs, endMs := (b.browser name).atMs } := by
    refine ⟨hsame.measured, hsame.reason, hsame.participants, hsame.complete, hsame.full, ?_⟩
    intro w hw
    exact absurd (hwindow.symm.trans hw) nofun
  refine h.setCurrent hs ht hafter rfl ?_ ?_ _ _
  · refine ⟨rfl, rfl, rfl, .inl rfl, ⟨fun _ => _, List.map_const'.symm, ?_⟩⟩
    intro id hid direction
    rw [← hsame.participants] at hid
    simp only [if_pos hid, Dir.get_ofFn, hsame.measured, mem_directions h.transfers]
    by_cases hmoves : s.stage.moves direction = true
    · rw [if_pos hmoves, if_pos hmoves]
      refine .some ⟨rfl, ?_, ?_, le_rfl, le_rfl⟩
      · rw [hfull, hwindow]
        rfl
      · intro w hw
        exact absurd (hwindow.symm.trans hw) nofun
    · rw [if_neg hmoves, if_neg hmoves]
      exact .none
  · rw [hlatest, htlatest]
    refine ⟨⟨final, rfl, ?_⟩, ?_⟩
    · rcases hfinal with hfinal | hfinal
      · rw [htlatest] at hfinal
        cases hfinal
        exact .inl rfl
      · right
        rintro o ⟨⟩
        exact hfinal
    · rintro o ⟨⟩
      exact hle

/-! ### Marks -/

section Marks

variable {stage : Stage} {ids : List ServerId} {a : Boundary} {direction : Direction}

/-- The participants whose components moved bytes are marked, each by itself. -/
theorem markMoved_map (mark : Mark) (direction : Direction) (f : ServerId → Dir (Option Mark))
    (ids : List ServerId) :
    markMoved mark direction (ids.map f) (components stage ids a b direction)
      = ids.map fun id =>
        if stage.moves direction = true ∧ 0 < (component a b id direction).bytes then
          (f id).set direction (some mark)
        else f id := by
  unfold components
  by_cases hmoves : stage.moves direction = true
  · rw [if_pos hmoves]
    simp only [hmoves, true_and]
    induction ids with
    | nil => rfl
    | cons id ids ih => rw [List.map_cons, List.map_cons, List.map_cons, markMoved, ih]
  · rw [if_neg hmoves]
    simp only [hmoves, false_and, if_false, Bool.false_eq_true]
    cases ids <;> rfl

/-- A mark is set in the directions that moved, and read back there. -/
theorem get_marked {mark : Mark} {f : ServerId → Dir (Option Mark)} {id : ServerId}
    {p : Direction → Prop} [DecidablePred p] (direction : Direction) :
    (if p .up then
        (if p .down then (f id).set .down (some mark) else f id).set .up (some mark)
      else if p .down then (f id).set .down (some mark) else f id).get direction
      = if p direction then some mark else (f id).get direction := by
  cases direction with
  | down =>
    split_ifs <;> rfl
  | up =>
    split_ifs <;> rfl

/-- The browser marks the same participants. -/
theorem markMoved_browser (hstage : stage ≠ .latency) {id : ServerId} (hid : id ∈ ids)
    (mark' : Browser.Mark) (moved : ServerId → Dir (Option Browser.Mark)) (direction : Direction) :
    (Browser.Aggregate.markMoved mark' ((span stage ids a b).browser stage ids)
        (Browser.directions stage) moved id).get direction
      = if stage.moves direction = true ∧ 0 < (component a b id direction).bytes then some mark'
        else (moved id).get direction := by
  unfold Browser.Aggregate.markMoved
  rw [Dir.get_ofFn]
  by_cases hmoves : stage.moves direction = true
  · have hany : (((((span stage ids a b).browser stage ids).components.get direction).getD []).any
        fun c => c.serverId = id ∧ 0 < c.bytes) = true ↔ 0 < (component a b id direction).bytes := by
      simp only [Window.browser, Dir.get_ofFn, if_pos hmoves, span_components, Option.getD_some]
      rw [components, if_pos hmoves, List.zipWith_map_right, List.zipWith_self, List.any_map,
        List.any_eq_true]
      simp only [Function.comp_apply, decide_eq_true_eq, Component.browser]
      constructor
      · rintro ⟨other, -, rfl, hpos⟩
        exact hpos
      · intro hpos
        exact ⟨id, hid, rfl, hpos⟩
    simp only [mem_directions hstage, hmoves, true_and, hany]
  · rw [if_neg fun h => hmoves ((mem_directions hstage direction).mp h.1), if_neg fun h => hmoves h.1]

/-- Marks correspond after a sample where they did before. -/
theorem sameMoved (hstage : stage ≠ .latency) {first : Boundary} (hle : a.at_ ≤ b.at_) {mark : Mark}
    {mark' : Browser.Mark}
    (hmark : SameMark name stage ids first b mark mark') {f : ServerId → Dir (Option Mark)}
    {o' : Browser.Open}
    (hmarks : ∀ id ∈ ids, ∀ direction, Option.Rel (SameMark name stage ids first a)
      ((f id).get direction) ((o'.moved id).get direction)) (peaks : Browser.Peaks) :
    ∃ f' : ServerId → Dir (Option Mark),
      markMoved mark .up (markMoved mark .down (ids.map f) (components stage ids a b .down))
        (components stage ids a b .up) = ids.map f' ∧
      ∀ id ∈ ids, ∀ direction, Option.Rel (SameMark name stage ids first b) ((f' id).get direction)
        ((Browser.Aggregate.markMoved mark' ((span stage ids a b).browser stage ids)
          (Browser.directions stage) (Browser.Aggregate.shareRaised o' peaks) id).get direction) := by
  rw [markMoved_map, markMoved_map]
  refine ⟨_, rfl, ?_⟩
  intro id hid direction
  rw [get_marked (p := fun direction => stage.moves direction = true ∧
    0 < (component a b id direction).bytes), markMoved_browser hstage hid]
  split_ifs
  · exact .some hmark
  · unfold Browser.Aggregate.shareRaised
    rw [Dir.get_ofFn]
    have hrel := hmarks id hid direction
    generalize (f id).get direction = x, (o'.moved id).get direction = y at hrel
    cases hrel with
    | none => exact .none
    | some hsame =>
      refine .some ?_
      -- Peaks that are shared change nothing else of a mark.
      simp only
      split_ifs
      all_goals
        exact ⟨hsame.boundary, hsame.full, hsame.spans, hsame.after, hsame.before.trans hle⟩

end Marks

/-- **The window reaches one boundary further in both.** -/
theorem extend (h : Agree name s t) (hs : s.intervals = interval :: earlier) {o : Open}
    (hopened : s.opened = some o) {record : Browser.Interval} {rest : List Browser.Interval}
    (ht : t.intervals = record :: rest) {o' : Browser.Open} (hopened' : t.opened = some o')
    (hlatest : s.latest = some b) (hlatest' : t.latest = some (b.browser name, b.last))
    (hsample : o.last.at_ ≤ b.at_) (hfull : Advances s.stage interval.participants o.first b) :
    Agree name
      (s.extend interval earlier o b (span s.stage interval.participants o.last b)
        (span s.stage interval.participants o.first b))
      (t.extend record rest o' (b.browser name)
        (some ((span s.stage interval.participants o.last b).browser s.stage interval.participants))
        ((span s.stage interval.participants o.first b).browser s.stage interval.participants)) := by
  obtain ⟨record', rest', o'', ht', hsame, -, ho'', hopen⟩ := h.current hs
  cases ht.symm.trans ht'
  cases hopened'.symm.trans ho''
  rw [hopened] at hopen
  obtain ⟨hfirst, -, hstart, -, f, hmoved, hmarks⟩ := hopen
  unfold Aggregate.extend Browser.Aggregate.extend
  simp only
  set peaks' := Option.elim _ record.peaks _ with hpeaks'
  set interval' : Interval := { interval with
    end_ := b.at_, window := some (span s.stage interval.participants o.first b), peaks := _ }
    with hinterval'
  have hafter : Same s.stage interval' { record with
      full := some ((span s.stage interval.participants o.first b).browser s.stage
        interval.participants), endMs := (b.browser name).atMs, peaks := peaks' } := by
    refine ⟨hsame.measured, hsame.reason, hsame.participants, hsame.complete, rfl, ?_⟩
    rintro w ⟨⟩
    exact ⟨o.first, b, rfl, hstart, rfl⟩
  have hmark : SameMark name s.stage interval.participants o.first b (Mark.of b interval')
      ⟨b.browser name, some ((span s.stage interval.participants o.first b).browser s.stage
        interval.participants), peaks'⟩ := by
    refine ⟨rfl, rfl, ?_, hfull.elapsed.le, le_rfl⟩
    rintro w ⟨⟩
    rfl
  obtain ⟨f', hmoved', hmarks'⟩ := sameMoved h.transfers hsample hmark hmarks peaks'
  refine h.setCurrent hs ht hafter rfl ?_ ?_ _ _
  · refine ⟨hfirst, rfl, hstart, .inr hfull, f', ?_, ?_⟩
    · rw [hmoved]
      exact hmoved'
    · rw [hsame.measured]
      exact hmarks'
  · rw [hlatest, hlatest']
    refine ⟨⟨b.last, rfl, .inl rfl⟩, ?_⟩
    rintro o ⟨⟩
    exact le_rfl

/-! ### Observing -/

/-- The boundary is the first of the interval in both. -/
theorem observeFirst (h : Agree name s t) (hs : s.intervals = interval :: earlier)
    (hopened : s.opened = none) (htakes : takes s.stage interval.participants b = true)
    (again : Browser.Aggregate → Browser.Boundary →
      Option (Option Browser.AggregateWindow × Browser.Aggregate)) (final : Bool) :
    ∃ u, Browser.Aggregate.observeBody again t (b.browser name) final = some (none, u) ∧
      Agree name ((s.noted b).start b) u := by
  obtain ⟨record, rest, o', ht, hsame, -, ho', hopen⟩ := h.current hs
  rw [hopened] at hopen
  obtain ⟨hfirst, -, -⟩ := hopen
  have hverdict : Browser.Aggregate.verdict record o' (b.browser name) final = .start := by
    unfold Browser.Aggregate.verdict
    rw [hsame.measured, hsame.participants, valid_browser h.transfers, if_pos htakes, hfirst]
  rw [Browser.Aggregate.observeBody_eq again ho' ht, hverdict]
  refine ⟨_, rfl, ?_⟩
  have hnone : ∀ o, s.opened = some o → False := by
    intro o ho
    rw [hopened] at ho
    cases ho
  have hnoted := h.noted b final (fun o ho => (hnone o ho).elim)
    (.inr fun o ho => (hnone o ho).elim)
  exact hnoted.start hs hopened ht rfl le_rfl (.inr rfl)

/-- Evidence resumes at the boundary in both. -/
theorem resumption (h : Agree name s t) (hs : s.intervals = interval :: earlier)
    (htakes : takes s.stage interval.participants b = true) :
    ∃ u, Browser.Aggregate.observeWithin 0 (t.resumed (b.browser name)) (b.browser name) false
        = some (none, u) ∧ Agree name (s.resumption interval earlier b) u := by
  obtain ⟨record, rest, o', ht, hsame, -, ho', hopen⟩ := h.current hs
  have hids : interval.participants ≠ [] := h.inhabited interval (by rw [hs]; exact List.mem_cons_self)
  have hclosed : Same s.stage { interval with complete := false }
      { record with complete := false, endMs := (b.browser name).atMs } :=
    ⟨hsame.measured, hsame.reason, hsame.participants, rfl, hsame.full, hsame.spans⟩
  have hopen' : SameOpen name s.stage { interval with complete := false } s.opened o' := by
    generalize s.opened = opened at hopen
    cases opened with
    | none => exact hopen
    | some o => exact ⟨hopen.first, hopen.last, hopen.start, hopen.chain, hopen.moved⟩
  have hset := h.setCurrent hs ht hclosed rfl hopen' h.latest s.ledgers s.log
  have hrestarted := hset.restart .evidenceResumed nofun hids b.at_ (b.browser name).atMs
  have hresumed : t.resumed (b.browser name) = Browser.Aggregate.begin
      { t with intervals := { record with complete := false, endMs := (b.browser name).atMs } :: rest }
      s.stage interval.participants (b.browser name).atMs .evidenceResumed := by
    unfold Browser.Aggregate.resumed
    rw [ht, ← hsame.measured, ← hsame.participants]
  rw [hresumed, Browser.Aggregate.observeWithin]
  rw [← ho'] at hrestarted
  exact hrestarted.observeFirst rfl rfl htakes _ false

/-- **A boundary does the same in both**, unless it is mixed. -/
theorem observe (hname : name.Injective) (h : Agree name s t) (hstalled : b.stalled = false)
    (hlater : ∀ o, s.opened = some o → o.last.at_ < b.at_)
    (hclear : s.Clear (.observe b)) : Agree name (s.observe b).2
      (t.observe (b.browser name) b.last).2 := by
  obtain ⟨interval, earlier, o', hs, -, -⟩ := h.opened
  obtain ⟨record, rest, o', ht, hsame, -, ho', hopen⟩ := h.current hs
  have hnoted := h.noted b b.last (fun o ho => (hlater o ho).le) (.inl rfl)
  by_cases htakes : takes s.stage interval.participants b = true
  swap
  · -- A reading is missing: both skip the boundary.
    have hverdict : Browser.Aggregate.verdict record o' (b.browser name) b.last = .skip := by
      unfold Browser.Aggregate.verdict
      rw [hsame.measured, hsame.participants, valid_browser h.transfers, if_neg htakes]
    rw [observe_incomplete hstalled hs (by simpa using htakes),
      Browser.Aggregate.observe_eq ho' ht, hverdict]
    exact hnoted
  match hopened : s.opened with
  | none =>
    obtain ⟨u, hu, hagree⟩ := h.observeFirst hs hopened htakes
      (fun s x => Browser.Aggregate.observeWithin 0 (s.resumed x) x false) b.last
    have hobserve : (t.observe (b.browser name) b.last).2 = u :=
      congrArg (fun result => (Option.getD result (none, t)).2) hu
    rw [observe_first hstalled hs htakes hopened, hobserve]
    exact hagree
  | some o =>
    rw [hopened] at hopen
    have hlt := hlater o hopened
    have hmixed := hclear o hopened
    rw [participants_eq hs] at hmixed
    have hverdict : Browser.Aggregate.verdict record o' (b.browser name) b.last
        = Browser.Aggregate.verdictBetween record (o.first.browser name) (o.last.browser name)
          (b.browser name) b.last := by
      unfold Browser.Aggregate.verdict
      rw [hsame.measured, hsame.participants, valid_browser h.transfers, if_pos htakes, hopen.first,
        hopen.last]
    rw [Browser.Aggregate.observe_eq ho' ht, hverdict]
    by_cases hcontinuous : ∀ id ∈ interval.participants, Continuous s.stage o.last b id
    swap
    · -- Counters broke off, and no direction of a final boundary stood still.
      have hclear' : b.last = true → ¬ StoodStill s.stage interval.participants o.last b :=
        fun hlast hstood => hmixed ⟨hlast, htakes, hstood, hcontinuous⟩
      have hwindow : Measure.window s.stage interval.participants o.last b = .error .broken := by
        classical
        rw [window_eq, if_neg fun h => hcontinuous h.continuous, if_pos ⟨hlt, hcontinuous⟩]
      obtain ⟨u, hu, hagree⟩ := hnoted.resumption hs htakes
      rw [observe_broken hstalled hs htakes hopened hwindow,
        verdict_broken hname h.transfers hsame.measured hsame.participants hlt hcontinuous hclear']
      have hobey : (Browser.Aggregate.obey
          (fun s x => Browser.Aggregate.observeWithin 0 (s.resumed x) x false)
          { t with latest := some (b.browser name, b.last) } record rest o' (b.browser name)
          .resume) = some (none, u) := hu
      rw [hobey]
      exact hagree
    by_cases hadvances : Advances s.stage interval.participants o.last b
    swap
    · -- A receiver's clock stands still.
      have hwindow : Measure.window s.stage interval.participants o.last b = .error .stale := by
        classical
        rw [window_eq, if_neg hadvances, if_neg fun h => h.2 hcontinuous]
      rw [observe_stale hstalled hs htakes hopened hwindow,
        verdict_stale hname h.transfers hsame.measured hsame.participants hlt hcontinuous hadvances]
      exact hnoted
    have hwindow := window_eq_ok.mpr ⟨hadvances, rfl⟩
    have hmoved := all_moved_iff hcontinuous
    by_cases hstood : b.last = true ∧ StoodStill s.stage interval.participants o.last b
    · rw [observe_unmoved hstalled hs htakes hopened hwindow, verdict_unmoved hname h.transfers
        hsame.measured hsame.participants hlt hstood.1 hstood.2]
      · exact hnoted
      · rintro (hlast | hall)
        · rw [hstood.1] at hlast
          cases hlast
        · exact hmoved.mp hall hstood.2
    · have hfull : Advances s.stage interval.participants o.first b := by
        rcases hopen.chain with heq | hchain
        · rw [← heq]
          exact hadvances
        · exact hchain.trans hadvances
      have hlast : b.last = false ∨ ((span s.stage interval.participants o.last b).all.all
          fun component => 0 < component.bytes) = true := by
        by_cases hlast : b.last = true
        · exact .inr (hmoved.mpr fun h => hstood ⟨hlast, h⟩)
        · exact .inl (by simpa using hlast)
      rw [observe_extended hstalled hs htakes hopened hwindow hlast (window_eq_ok.mpr ⟨hfull, rfl⟩),
        verdict_extended hname h.transfers hsame.measured hsame.participants hlt hadvances hfull hstood]
      exact hnoted.extend hs hopened ht ho' rfl rfl hlt.le hfull

/-! ### Dropping out -/

/-- A departed server's earliest mark is the same in both. -/
theorem departure (h : Agree name s t) (hs : s.intervals = interval :: earlier) {o' : Browser.Open}
    (ho' : t.opened = some o') (survivors : List ServerId) :
    (s.departure interval.participants survivors = none ∧
      Browser.Aggregate.departure o' interval.participants survivors = none) ∨
    ∃ o mark mark', s.opened = some o ∧
      s.departure interval.participants survivors = some mark ∧
      Browser.Aggregate.departure o' interval.participants survivors = some mark' ∧
      SameMark name s.stage interval.participants o.first o.last mark mark' := by
  obtain ⟨record, rest, o'', ht, hsame, -, ho'', hopen⟩ := h.current hs
  cases ho'.symm.trans ho''
  unfold Aggregate.departure Browser.Aggregate.departure
  rw [Browser.Aggregate.earliest_eq_argmin]
  match hopened : s.opened with
  | none =>
    rw [hopened] at hopen
    obtain ⟨-, hnone, -⟩ := hopen
    left
    constructor
    · simp only [Option.elim_none, List.zip_nil_right]
      rfl
    · rw [List.argmin_eq_none, List.flatMap_eq_nil_iff]
      intro id _
      have hdown : (o'.moved id).down = none := hnone id .down
      have hup : (o'.moved id).up = none := hnone id .up
      rw [hdown, hup]
      rfl
  | some o =>
    rw [hopened] at hopen
    obtain ⟨f, hmoved, hmarks⟩ := hopen.moved
    have hmarked : ((interval.participants.zip o.moved).filter fun p => p.1 ∉ survivors).flatMap
        (fun p => p.2.down.toList ++ p.2.up.toList)
        = (interval.participants.filter fun id => id ∉ survivors).flatMap
          fun id => (f id).down.toList ++ (f id).up.toList := by
      rw [hmoved, ← List.map_prod_left_eq_zip, List.filter_map, List.flatMap_map]
      rfl
    simp only [Option.elim_some, hmarked]
    have hrel := argmin_rel (R := SameMark name s.stage interval.participants o.first o.last)
      (f := fun mark => mark.boundary.at_) (g := fun mark => mark.boundary.atMs)
      (fun a b a' b' ha hb => by rw [ha.boundary, hb.boundary]; exact toMs_lt.symm)
      (forall₂_flatMap (l := interval.participants.filter fun id => id ∉ survivors)
        fun id hid => List.rel_append
          (forall₂_toList (hmarks id (List.mem_filter.mp hid).1 .down))
          (forall₂_toList (hmarks id (List.mem_filter.mp hid).1 .up)))
    rcases rel_cases hrel with hnone | ⟨mark, mark', hfound, hfound', hmark⟩
    · exact .inl hnone
    · exact .inr ⟨o, mark, mark', rfl, hfound, hfound', hmark⟩

/-- A cut keeps two aggregates in agreement. -/
theorem cut (h : Agree name s t) (hs : s.intervals = interval :: earlier) {o : Open}
    (hopened : s.opened = some o) {record : Browser.Interval} {rest : List Browser.Interval}
    (ht : t.intervals = record :: rest) {o' : Browser.Open} (ho' : t.opened = some o') {mark : Mark}
    {mark' : Browser.Mark}
    (hmark : SameMark name s.stage interval.participants o.first o.last mark mark') :
    Agree name (s.cut interval earlier mark) (t.cut record rest o' mark') := by
  obtain ⟨record', rest', o'', ht', hsame, -, ho'', hopen⟩ := h.current hs
  cases ht.symm.trans ht'
  cases ho'.symm.trans ho''
  rw [hopened] at hopen
  have hafter : Same s.stage
      { interval with end_ := mark.boundary.at_, window := mark.window, peaks := mark.peaks }
      { record with endMs := mark'.boundary.atMs, full := mark'.full, peaks := mark'.peaks } := by
    refine ⟨hsame.measured, hsame.reason, hsame.participants, hsame.complete, hmark.full, ?_⟩
    intro w hw
    exact ⟨o.first, mark.boundary, hmark.spans w hw, hopen.start, rfl⟩
  unfold Aggregate.cut Browser.Aggregate.cut
  refine h.setCurrent hs ht hafter rfl ?_ h.latest _ _
  rw [hopened]
  exact ⟨hopen.first, hopen.last, hopen.start, hopen.chain, hopen.moved⟩

/-- An interval that starts where it begins. -/
theorem start_restart (s : Aggregate) (reason : Reason) (ids : List ServerId) (at_ : ℕ)
    (b : Boundary) :
    (s.restart reason ids at_).start b =
      { s.restart reason ids at_ with
        intervals := ⟨reason, ids, b.at_, b.at_, true, none, .new⟩ ::
          (s.restart reason ids at_).intervals.tail
        opened := some ⟨b, b, b, List.replicate ids.length (Dir.ofFn fun direction =>
          if s.stage.moves direction then some ⟨b, none, .new⟩ else none)⟩ } := rfl

/-- The survivors' interval starts at the mark in both. -/
theorem survived (h : Agree name s t) {survivors : List ServerId} (hsome : survivors ≠ [])
    {mark : Mark} {latest : Boundary} {final : Bool} (hlatest : s.latest = some latest)
    (hlatest' : t.latest = some (latest.browser name, final))
    (hle : mark.boundary.at_ ≤ latest.at_)
    (hfinal : final = latest.last ∨ mark.boundary.at_ = latest.at_) :
    Agree name ((s.restart .dropout survivors mark.boundary.at_).start mark.boundary)
      ((t.begin s.stage survivors (mark.boundary.browser name).atMs .dropout).startCurrent
        (mark.boundary.browser name)) := by
  have hrestarted := h.restart .dropout nofun hsome mark.boundary.at_
    (mark.boundary.browser name).atMs
  obtain ⟨interval, earlier, o', hs, -, -⟩ := hrestarted.opened
  obtain ⟨record, rest, o', ht, -, -, -, -⟩ := hrestarted.current hs
  unfold Browser.Aggregate.startCurrent
  rw [ht]
  refine hrestarted.start hs rfl ht hlatest hle ?_
  rcases hfinal with rfl | hat
  · left
    have hkeeps : (t.begin s.stage survivors (mark.boundary.browser name).atMs .dropout).latest
        = t.latest := by
      unfold Browser.Aggregate.begin
      simp only [reduceCtorEq, if_false]
      split <;> rfl
    rw [hkeeps]
    exact hlatest'
  · exact .inr hat

/-- **A dropout does the same in both**, unless the boundary observed again is mixed. -/
theorem dropout (hname : name.Injective) (h : Agree name s t)
    (hstalled : ∀ latest, s.latest = some latest → latest.stalled = false)
    (survivors : List ServerId) (at_ : ℕ) (hclear : s.Clear (.dropout survivors at_)) :
    Agree name (s.dropout survivors at_) (t.dropout survivors (toMs at_)) := by
  obtain ⟨interval, earlier, o', hs, -, -⟩ := h.opened
  obtain ⟨record, rest, o', ht, hsame, -, ho', hopen⟩ := h.current hs
  unfold Aggregate.dropout Browser.Aggregate.dropout
  rw [hs, ho', ht]
  simp only [hsame.participants]
  by_cases hlen : survivors.length = interval.participants.length
  · rw [if_pos hlen, if_pos hlen]
    exact h
  rw [if_neg hlen, if_neg hlen]
  rcases h.departure hs ho' survivors with ⟨hnone, hnone'⟩ | ⟨o, mark, mark', ho, hfound, hfound', hmark⟩
  · rw [hnone, hnone']
    simp only
    by_cases hsome : survivors = []
    · rw [if_pos hsome, if_pos hsome]
      exact h
    · rw [if_neg hsome, if_neg hsome, hsame.measured]
      exact h.restart .dropout nofun hsome at_ (toMs at_)
  · rw [hfound, hfound']
    simp only
    have hcut := h.cut hs ho ht ho' hmark
    by_cases hsome : survivors = []
    · rw [if_pos hsome, if_pos hsome]
      exact hcut
    rw [if_neg hsome, if_neg hsome, hsame.measured, hmark.boundary]
    have hlatests := h.latest
    rw [ho] at hlatests
    match hl : s.latest with
    | none =>
      rw [hl] at hlatests
      exact absurd hlatests.2 nofun
    | some latest =>
      rw [hl] at hlatests
      obtain ⟨⟨final, hl', hfinal⟩, hlast⟩ := hlatests
      have hle : mark.boundary.at_ ≤ latest.at_ := hmark.before.trans (hlast o rfl)
      have hor : final = latest.last ∨ mark.boundary.at_ = latest.at_ := by
        refine hfinal.imp_right fun hat => le_antisymm hle ?_
        rw [← hat o rfl]
        exact hmark.after
      have hstarted := hcut.survived hsome hl hl' hle hor
      rw [hl']
      by_cases hbefore : mark.boundary.at_ < latest.at_
      · have hms : (mark.boundary.browser name).atMs < (latest.browser name).atMs :=
          toMs_lt.mpr hbefore
        simp only [Option.filter_some, decide_eq_true hbefore, decide_eq_true hms, if_true]
        obtain rfl : final = latest.last := hor.resolve_right hbefore.ne
        refine hstarted.observe hname (hstalled latest hl) ?_ ?_
        · intro o₂ ho₂
          rw [start_restart] at ho₂
          cases ho₂
          exact hbefore
        · intro o₂ ho₂
          rw [start_restart] at ho₂ ⊢
          cases ho₂
          exact hclear mark latest (by rw [participants_eq hs]; exact hfound) hl hbefore
      · have hms : ¬ (mark.boundary.browser name).atMs < (latest.browser name).atMs :=
          mt toMs_lt.mp hbefore
        simp only [Option.filter_some, decide_eq_false hbefore, decide_eq_false hms, Bool.false_eq_true,
          if_false]
        exact hstarted

end Agree

/-! ## Runs -/

section Runs

variable (name : ℕ → String)

/-- A call as the browser gets it. -/
def Call.browser : Call → Browser.Aggregate.Call
  | .observe b => .observe (b.browser name) b.last
  | .dropout survivors at_ => .dropout survivors (toMs at_)

/-- The boundary a call observes. -/
def Call.boundary : Call → Option Boundary
  | .observe b => some b
  | .dropout _ _ => none

variable {name} {s : Aggregate} {t : Browser.Aggregate}

/-- Two new aggregates agree. -/
theorem Agree.new (name : ℕ → String) {stage : Stage} (hstage : stage ≠ .latency)
    {ids : List ServerId} (hids : ids ≠ []) (at_ : ℕ) :
    Agree name (new stage ids at_) (Browser.Aggregate.new.begin stage ids (toMs at_) .stageStart) where
  transfers := hstage
  limit := rfl
  limit' := rfl
  intervals := .cons ⟨rfl, rfl, rfl, rfl, rfl, nofun⟩ .nil
  inhabited interval hinterval := by
    rw [List.mem_singleton.mp hinterval]
    exact hids
  begun := rfl
  kept _ := rfl
  opened := by
    refine ⟨_, _, _, rfl, rfl, rfl, ?_, rfl⟩
    intro id direction
    cases direction <;> rfl
  latest := ⟨rfl, rfl⟩

/-- **Calls at increasing times keep the two in agreement.** -/
theorem Agree.run (hname : name.Injective) (calls : List Call) (h : Agree name s t)
    (hlatest : ∀ latest, s.latest = some latest → latest.stalled = false ∧
      ∀ b ∈ calls.filterMap Call.boundary, latest.at_ < b.at_)
    (hstalled : ∀ b ∈ calls.filterMap Call.boundary, b.stalled = false)
    (htimes : (calls.filterMap Call.boundary).Pairwise fun a b => a.at_ < b.at_)
    (hclear : Machine.Along Clear call s calls) :
    Agree name (calls.foldl call s) ((calls.map (Call.browser name)).foldl Browser.Aggregate.call t) := by
  induction calls generalizing s t with
  | nil => exact h
  | cons c calls ih =>
    cases c with
    | observe b =>
      have hmem : (Call.observe b :: calls).filterMap Call.boundary
          = b :: calls.filterMap Call.boundary := rfl
      rw [hmem] at hlatest hstalled htimes
      obtain ⟨hfirst, htimes⟩ := List.pairwise_cons.mp htimes
      refine ih (h.observe hname (hstalled b List.mem_cons_self) ?_ hclear.1) ?_ ?_ htimes hclear.2
      · intro o ho
        have hlatests := h.latest
        match hl : s.latest with
        | none =>
          rw [hl, ho] at hlatests
          exact absurd hlatests.2 nofun
        | some latest =>
          rw [hl] at hlatests
          exact (hlatests.2 o ho).trans_lt ((hlatest latest hl).2 b List.mem_cons_self)
      · intro latest hl
        cases (observe_latest s b).symm.trans hl
        exact ⟨hstalled b List.mem_cons_self, hfirst⟩
      · exact fun x hx => hstalled x (List.mem_cons_of_mem _ hx)
    | dropout survivors at_ =>
      have hdropped := h.dropout hname (fun latest hl => (hlatest latest hl).1) survivors at_ hclear.1
      refine ih hdropped ?_ hstalled htimes hclear.2
      intro latest hl
      exact hlatest latest ((dropout_latest s survivors at_).symm.trans hl)

end Runs

/-! ## What both show -/

/-- What is shown of an interval: its window's bounds, and the components' bytes and durations. -/
structure View where
  reason : Reason
  participants : List ServerId
  complete : Bool
  full : Option (ℚ × ℚ × Dir (List (ℕ × ℚ)))
deriving DecidableEq, Repr

def view (interval : Interval) : View where
  reason := interval.reason
  participants := interval.participants
  complete := interval.complete
  full := interval.window.map fun w => (toMs w.start, toMs w.end_, Dir.ofFn fun direction =>
    (w.components.get direction).map fun c => (c.bytes, toMs c.duration))

def browserView (record : Browser.Interval) : View where
  reason := record.reason
  participants := record.participants
  complete := record.complete
  full := record.full.map fun w => (w.startMs, w.endMs, Dir.ofFn fun direction =>
    ((w.components.get direction).getD []).map fun c => (c.bytes, c.durationMs))

/-- Intervals that agree show the same. -/
theorem view_eq {stage : Stage} {interval : Interval} {record : Browser.Interval}
    (h : Same stage interval record) : view interval = browserView record := by
  unfold view browserView
  rw [h.reason, h.participants, h.complete, h.full]
  match hw : interval.window with
  | none => rfl
  | some w =>
    obtain ⟨a, b, rfl, -, -⟩ := h.spans w hw
    simp only [Option.map_some, Window.browser]
    congr 5
    funext direction
    rw [Dir.get_ofFn, span_components]
    unfold components
    split_ifs
    · rw [Option.getD_some, List.zipWith_map_right, List.zipWith_self, List.map_map, List.map_map]
      rfl
    · rfl

/-- Both answers come from intervals at the same place, the latest that give one, or neither has
one. -/
def SameChoice {α β : Type*} (l : List Interval) (l' : List Browser.Interval)
    (f : Interval → Option α) (g : Browser.Interval → Option β) (x : Option α) (y : Option β) : Prop :=
  x = none ∧ y = none ∨
    ∃ (i : ℕ) (interval : Interval) (record : Browser.Interval), l[i]? = some interval ∧
      l'[i]? = some record ∧ x = f interval ∧ x ≠ none ∧ y = g record ∧ y ≠ none ∧
      ∀ j < i, (l[j]?.bind f = none) ∧ (l'[j]?.bind g = none)

/-- What agrees interval by interval is chosen at the same interval. -/
theorem sameChoice {α β : Type*} {stage : Stage} {l : List Interval} {l' : List Browser.Interval}
    {f : Interval → Option α} {g : Browser.Interval → Option β}
    (hfg : ∀ interval record, Same stage interval record → (f interval = none ↔ g record = none))
    (h : List.Forall₂ (Same stage) l l') :
    SameChoice l l' f g (l.findSome? f) (l'.findSome? g) := by
  induction h with
  | nil => exact .inl ⟨rfl, rfl⟩
  | cons hsame _ ih =>
    rename_i interval record l l' _
    have hiff := hfg interval record hsame
    rw [List.findSome?_cons, List.findSome?_cons]
    cases hf : f interval with
    | some x =>
      cases hg : g record with
      | none => exact absurd (hiff.mpr hg) (by rw [hf]; nofun)
      | some y => exact .inr ⟨0, interval, record, rfl, rfl, hf.symm, nofun, hg.symm, nofun, nofun⟩
    | none =>
      rw [hiff.mp hf]
      rcases ih with hnone | ⟨i, interval', record', hi, hi', hx, hsome, hy, hsome', hbefore⟩
      · exact .inl hnone
      · refine .inr ⟨i + 1, interval', record', hi, hi', hx, hsome, hy, hsome', ?_⟩
        intro j hj
        cases j with
        | zero => exact ⟨hf, hiff.mp hf⟩
        | succ j => exact hbefore j (Nat.lt_of_succ_lt_succ hj)

section Results

variable {name : ℕ → String} {s : Aggregate} {t : Browser.Aggregate}

/-- A direction the stage does not move has no headline. -/
theorem browser_headline_none {stage : Stage} {interval : Interval} {record : Browser.Interval}
    (h : Same stage interval record) {direction : Direction}
    (hmoves : ¬ stage.moves direction = true) : Browser.headline direction record = none := by
  unfold Browser.headline
  rw [h.full]
  cases interval.window with
  | none => rfl
  | some w =>
    simp only [Option.map_some, Window.browser, Dir.get_ofFn, if_neg hmoves]
    split <;> rfl

/-- All of the browser's intervals are of the stage. -/
theorem Agree.filter_eq (h : Agree name s t) :
    (t.intervals.filter fun record => record.stage = s.stage) = t.intervals := by
  rw [List.filter_eq_self]
  have hall := h.intervals
  generalize s.intervals = l, t.intervals = l' at hall
  induction hall with
  | nil => exact fun _ hrecord => absurd hrecord List.not_mem_nil
  | cons hsame _ ih =>
    intro record hrecord
    rcases List.mem_cons.mp hrecord with rfl | hrecord
    · exact decide_eq_true hsame.measured
    · exact ih record hrecord

/-- While nothing was let go, `settle` searches the intervals. -/
theorem Agree.settle_eq (h : Agree name s t) (hbegun : s.begun ≤ maxIntervals)
    (direction : Direction) :
    t.settle s.stage direction = t.intervals.findSome? (Browser.headline direction) := by
  obtain ⟨interval, earlier, o', hs, -, -⟩ := h.opened
  obtain ⟨record, rest, o', ht, hsame, -, -, -⟩ := h.current hs
  have hids : record.participants ≠ [] := by
    rw [hsame.participants]
    exact h.inhabited interval (by rw [hs]; exact List.mem_cons_self)
  unfold Browser.Aggregate.settle
  simp only [h.filter_eq, h.kept hbegun]
  by_cases hmoves : s.stage.moves direction = true
  · have hmem := (mem_directions h.transfers direction).mpr hmoves
    rw [if_neg]
    · cases t.intervals.findSome? (Browser.headline direction) <;> rfl
    · rw [ht]
      rintro (hnot | hempty)
      · exact hnot hmem
      · exact hids (by simpa using hempty)
  · have hmem := mt (mem_directions h.transfers direction).mp hmoves
    rw [if_pos (.inl hmem), eq_comm, List.findSome?_eq_none_iff]
    have hall := h.intervals
    generalize s.intervals = l, t.intervals = l' at hall
    induction hall with
    | nil => exact fun _ hrecord => absurd hrecord List.not_mem_nil
    | cons hsame _ ih =>
      intro record hrecord
      rcases List.mem_cons.mp hrecord with rfl | hrecord
      · exact browser_headline_none hsame hmoves
      · exact ih record hrecord

/-- Up to the limit of intervals a server's result is its latest headline. -/
theorem Agree.serverResult_eq (h : Agree name s t) (hbegun : s.begun ≤ maxIntervals)
    (direction : Direction) (id : ServerId) :
    t.serverResult s.stage direction id
      = t.intervals.findSome? (Browser.serverHeadline id direction) := by
  unfold Browser.Aggregate.serverResult
  rw [h.filter_eq, h.kept hbegun]
  cases t.intervals.findSome? (Browser.serverHeadline id direction) <;> rfl

end Results

/-- **The two aggregates agree.** For every transfer stage, participants and boundaries at increasing
times interleaved with dropouts, both have the same intervals and choose the same one for every
headline, in every run that meets no mixed final boundary. -/
theorem aggregates_agree (name : ℕ → String) (hname : name.Injective) (stage : Stage)
    (hstage : stage ≠ .latency) (ids : List ServerId) (hids : ids ≠ []) (at_ : ℕ) (calls : List Call)
    (hstalled : ∀ b ∈ calls.filterMap Call.boundary, b.stalled = false)
    (htimes : (calls.filterMap Call.boundary).Pairwise fun a b => a.at_ < b.at_)
    (hbegun : (calls.foldl call (new stage ids at_)).begun ≤ maxIntervals)
    (hclear : Machine.Along Clear call (new stage ids at_) calls) :
    let s := calls.foldl call (new stage ids at_)
    let t := Browser.Aggregate.new.measure ⟨stage, ids, toMs at_, calls.map (Call.browser name)⟩
    s.intervals.map view = t.intervals.map browserView ∧
    (∀ direction, SameChoice s.intervals t.intervals (headline direction)
      (Browser.headline direction) (s.result direction) (t.settle stage direction)) ∧
    ∀ id direction, SameChoice s.intervals t.intervals (serverHeadline id direction)
      (Browser.serverHeadline id direction) (s.server id direction)
      (t.serverResult stage direction id) := by
  intro s t
  have hagree : Agree name s t :=
    (Agree.new name hstage hids at_).run hname calls nofun hstalled htimes hclear
  have hmeasured : s.stage = stage := calls_stage calls (new stage ids at_)
  refine ⟨?_, fun direction => ?_, fun id direction => ?_⟩
  · have hall := hagree.intervals
    generalize s.intervals = l, t.intervals = l' at hall
    induction hall with
    | nil => rfl
    | cons hsame _ ih => rw [List.map_cons, List.map_cons, view_eq hsame, ih]
  · rw [← hmeasured, hagree.settle_eq hbegun]
    exact sameChoice (fun _ _ hsame => hsame.headline_none_iff direction) hagree.intervals
  · rw [← hmeasured, hagree.serverResult_eq hbegun]
    exact sameChoice (fun _ _ hsame => hsame.serverHeadline_none_iff id direction) hagree.intervals

/-- A receiver's name: its number of strokes. -/
def strokes (id : ℕ) : String := String.ofList (List.replicate id '|')

/-- Distinct servers have distinct names. -/
theorem strokes_injective : Function.Injective strokes := by
  intro m n h
  have hlen := congrArg (fun s => s.toList.length) h
  simpa [strokes] using hlen

/-- A second of an upload to one server, whose last boundary is final. -/
def second : List Call :=
  [.observe ⟨0, false, false, [⟨"a", none, some ⟨1, ⟨0, 0⟩⟩, none⟩]⟩,
    .observe ⟨10 ^ 9, false, true, [⟨"a", none, some ⟨1, ⟨1000, 10 ^ 9⟩⟩, none⟩]⟩]

/-- One second of upload meets the condition. -/
theorem second_clear : Machine.Along Clear call (new .upload ["a"] 0) second := by
  refine ⟨nofun, ?_, trivial⟩
  rintro o ⟨⟩ ⟨-, -, -, hbroken⟩
  refine hbroken fun id hid => ?_
  obtain rfl : id = "a" := List.mem_singleton.mp hid
  exact ⟨⟨rfl, rfl⟩, nofun, fun _ => ⟨⟨1, ⟨0, 0⟩⟩, ⟨1, ⟨1000, 10 ^ 9⟩⟩, rfl, rfl, rfl, by decide, by decide⟩⟩

/-- Both aggregates read one second of upload alike. -/
theorem aggregates_agree_second :
    (second.foldl call (new .upload ["a"] 0)).result .up = some ⟨1000, 1000⟩ ∧
      (second.foldl call (new .upload ["a"] 0)).intervals.map view =
        (Browser.Aggregate.new.measure
          ⟨.upload, ["a"], toMs 0, second.map (Call.browser strokes)⟩).intervals.map browserView :=
  ⟨by decide +kernel, (aggregates_agree strokes strokes_injective .upload nofun ["a"] nofun 0 second
    (by decide) (by decide) (by decide +kernel) second_clear).1⟩

/-- At the final boundary `a` stood still and `b`'s receiver was replaced. -/
def replaced : List Call :=
  [.observe ⟨0, false, false,
      [⟨"a", none, some ⟨1, ⟨0, 0⟩⟩, none⟩, ⟨"b", none, some ⟨1, ⟨0, 0⟩⟩, none⟩]⟩,
    .observe ⟨10 ^ 9, false, false,
      [⟨"a", none, some ⟨1, ⟨1000, 10 ^ 9⟩⟩, none⟩, ⟨"b", none, some ⟨1, ⟨1000, 10 ^ 9⟩⟩, none⟩]⟩,
    .observe ⟨2 * 10 ^ 9, false, true,
      [⟨"a", none, some ⟨1, ⟨1000, 2 * 10 ^ 9⟩⟩, none⟩, ⟨"b", none, some ⟨2, ⟨500, 10 ^ 9⟩⟩, none⟩]⟩]

/-- A receiver replaced where another server stood still parts the two aggregates. -/
theorem aggregates_differ :
    (replaced.foldl call (new .upload ["a", "b"] 0)).intervals.map view ≠
        (Browser.Aggregate.new.measure ⟨.upload, ["a", "b"], toMs 0,
          replaced.map (Call.browser strokes)⟩).intervals.map browserView ∧
      (replaced.foldl call (new .upload ["a", "b"] 0)).result .up = none ∧
      (Browser.Aggregate.new.measure ⟨.upload, ["a", "b"], toMs 0,
        replaced.map (Call.browser strokes)⟩).settle .upload .up ≠ none := by
  decide +kernel

end Aggregate

end GraphiteMeter.Measure
