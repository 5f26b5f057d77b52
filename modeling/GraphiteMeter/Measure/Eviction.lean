import Mathlib.Data.Option.Basic
import GraphiteMeter.Measure.Browser.Eviction
import GraphiteMeter.Measure.Observe

/-!
# Dropping old intervals

Reference: `rust/client/src/measure/aggregate.rs` (`restart`). Only the latest interval ever changes,
so the aggregate that keeps 128 intervals goes through the same states as one that keeps all, with the
latest 128 of its intervals: `Twin` says so, call after call.

The headlines differ once an interval is dropped that holds one while no later interval does: the
browser keeps what such an interval measured, `restart` does not. `Spares` says that no restart drops
one, and then the headlines are the same.
-/

namespace GraphiteMeter.Measure

/-- The first answer is among the newest `n`, or no older one answers either. -/
theorem findSome?_take_eq {α β : Type*} {f : α → Option β} {l : List α} {n : ℕ}
    (h : (∃ a ∈ l.take n, f a ≠ none) ∨ ∀ a ∈ l.drop n, f a = none) :
    (l.take n).findSome? f = l.findSome? f := by
  conv_rhs => rw [← List.take_append_drop n l, List.findSome?_append]
  rcases h with ⟨a, ha, hsome⟩ | hnone
  · cases hfound : (l.take n).findSome? f with
    | none => exact absurd (List.findSome?_eq_none_iff.mp hfound a ha) hsome
    | some found => rfl
  · rw [List.findSome?_eq_none_iff.mpr hnone, Option.or_none]

namespace Aggregate

/-- What is asked of the intervals: a direction's headline, or a server's own. -/
inductive Question where
  | stage (direction : Direction)
  | server (id : ServerId) (direction : Direction)
deriving DecidableEq, Repr

/-- An interval's answer. -/
def Question.of : Question → Interval → Option Rate
  | .stage direction => headline direction
  | .server id direction => serverHeadline id direction

/-- What the aggregate returns. -/
def answer (s : Aggregate) : Question → Option Rate
  | .stage direction => s.result direction
  | .server id direction => s.server id direction

/-- A question is answered by the newest interval that answers it. -/
theorem answer_eq (s : Aggregate) (q : Question) : s.answer q = s.intervals.findSome? q.of := by
  cases q <;> rfl

/-- No interval was dropped that holds a headline which no later one does. -/
def Spares (log : List Event) : Prop :=
  ∀ oldest later, .dropped oldest later ∈ log →
    ∀ q : Question, q.of oldest ≠ none → ∃ interval ∈ later, q.of interval ≠ none

/-- A longer run without a spoiled answer has none in its first part. -/
theorem Spares.of_append {log more : List Event} (h : Spares (log ++ more)) : Spares log :=
  fun oldest later hmem => h oldest later (List.mem_append_left _ hmem)

/-- An aggregate that keeps 128 intervals, and one that went through the same and keeps all. -/
structure Twin (b u : Aggregate) : Prop where
  stage : b.stage = u.stage
  begun : b.begun = u.begun
  ledgers : b.ledgers = u.ledgers
  opened : b.opened = u.opened
  latest : b.latest = u.latest
  bounded : b.limit = some maxIntervals
  unbounded : u.limit = none
  intervals : b.intervals = u.intervals.take maxIntervals
  spared : Spares b.log → ∀ q : Question, (∃ interval ∈ b.intervals.tail, q.of interval ≠ none) ∨
    ∀ interval ∈ u.intervals.drop maxIntervals, q.of interval = none

namespace Twin

variable {b u : Aggregate}

/-- Where nothing that holds a headline was lost, both return the same. -/
theorem answer_eq (h : Twin b u) (hspares : Spares b.log) (q : Question) :
    b.answer q = u.answer q := by
  rw [Aggregate.answer_eq, Aggregate.answer_eq, h.intervals]
  refine findSome?_take_eq ?_
  rcases h.spared hspares q with ⟨interval, hmem, hsome⟩ | hnone
  · rw [h.intervals] at hmem
    exact .inl ⟨interval, List.mem_of_mem_tail hmem, hsome⟩
  · exact .inr hnone

/-- Noting a boundary keeps the two together. -/
theorem noted (h : Twin b u) (x : Boundary) : Twin (b.noted x) (u.noted x) := by
  refine ⟨h.stage, h.begun, ?_, h.opened, rfl, h.bounded, h.unbounded, h.intervals, h.spared⟩
  change x.readings.foldl creditReading b.ledgers = x.readings.foldl creditReading u.ledgers
  rw [h.ledgers]

/-- Both have the same latest interval. -/
theorem intervals_cons (h : Twin b u) {interval : Interval} {earlier : List Interval}
    (hu : u.intervals = interval :: earlier) :
    b.intervals = interval :: earlier.take (maxIntervals - 1) := by
  rw [h.intervals, hu]
  rfl

/-- Neither has intervals where the unbounded one has none. -/
theorem intervals_nil (h : Twin b u) (hu : u.intervals = []) : b.intervals = [] := by
  rw [h.intervals, hu]
  rfl

/-- Both read the same windows. -/
theorem window (h : Twin b u) (first last : Boundary) : b.window first last = u.window first last := by
  rw [Aggregate.window, Aggregate.window, h.stage, h.intervals]
  cases u.intervals <;> rfl

/-- Only the latest interval changes. -/
theorem setCurrent (h : Twin b u) {interval : Interval} {earlier : List Interval}
    (hu : u.intervals = interval :: earlier) (after : Interval) {bopened uopened : Option Open}
    (hopened : bopened = uopened) {blog : List Event} (hlog : Spares blog → Spares b.log)
    (ulog : List Event) :
    Twin
      { b with
        intervals := after :: earlier.take (maxIntervals - 1), opened := bopened, log := blog }
      { u with intervals := after :: earlier, opened := uopened, log := ulog } := by
  refine ⟨h.stage, h.begun, h.ledgers, hopened, h.latest, h.bounded, h.unbounded, rfl,
    fun hspares q => ?_⟩
  have hspared := h.spared (hlog hspares) q
  rw [h.intervals_cons hu, hu] at hspared
  exact hspared

/-- Starting an interval keeps the two together. -/
theorem start (h : Twin b u) (x : Boundary) : Twin (b.start x) (u.start x) := by
  match hu : u.intervals with
  | [] =>
    rw [Aggregate.start, Aggregate.start, hu, h.intervals_nil hu]
    exact h
  | interval :: earlier =>
    rw [start_eq hu, start_eq (h.intervals_cons hu)]
    exact h.setCurrent hu _ (by rw [h.stage]) id _

/-- Extending the newest interval keeps the two together. -/
theorem extend (h : Twin b u) {interval : Interval} {earlier : List Interval}
    (hu : u.intervals = interval :: earlier) (o : Open) (x : Boundary) (sample full : Window) :
    Twin (b.extend interval (earlier.take (maxIntervals - 1)) o x sample full)
      (u.extend interval earlier o x sample full) := by
  simp only [Aggregate.extend, h.window]
  exact h.setCurrent hu _ rfl Spares.of_append _

/-- Cutting the newest interval keeps the two together. -/
theorem cut (h : Twin b u) {interval : Interval} {earlier : List Interval}
    (hu : u.intervals = interval :: earlier) (mark : Mark) :
    Twin (b.cut interval (earlier.take (maxIntervals - 1)) mark) (u.cut interval earlier mark) :=
  h.setCurrent hu _ h.opened id _

/-- **A restart drops at most the oldest of the intervals kept.** -/
theorem restart (h : Twin b u) (reason : Reason) (ids : List ServerId) (at_ : ℕ) :
    Twin (b.restart reason ids at_) (u.restart reason ids at_) := by
  have hu : (u.restart reason ids at_).intervals
      = ⟨reason, ids, at_, at_, true, none, .new⟩ :: u.intervals := by
    simp only [Aggregate.restart, h.unbounded]
    rfl
  by_cases hfull : b.intervals.length = maxIntervals
  · have hlimit : b.limit = some b.intervals.length := by rw [h.bounded, hfull]
    have hb : (b.restart reason ids at_).intervals
        = ⟨reason, ids, at_, at_, true, none, .new⟩ :: b.intervals.dropLast := by
      simp only [Aggregate.restart, if_pos hlimit]
    -- The oldest interval kept is the last of the first 128.
    have hlt : maxIntervals - 1 < u.intervals.length := by
      rw [h.intervals, List.length_take] at hfull
      rw [maxIntervals] at hfull ⊢
      omega
    set oldest := u.intervals[maxIntervals - 1] with holdest
    have htake : b.intervals = u.intervals.take (maxIntervals - 1) ++ [oldest] := by
      rw [h.intervals, holdest, ← List.take_succ_eq_append_getElem hlt]
      rfl
    have hdrop : u.intervals.drop (maxIntervals - 1) = oldest :: u.intervals.drop maxIntervals :=
      List.drop_eq_getElem_cons hlt
    have hkept : b.intervals.dropLast = u.intervals.take (maxIntervals - 1) := by
      rw [htake, List.dropLast_concat]
    have hlog : (b.restart reason ids at_).log = b.log ++ [.dropped oldest b.intervals.dropLast] := by
      have hevicted : b.evicted = some (oldest, b.intervals.dropLast) := by
        unfold evicted
        rw [if_pos hlimit, htake, List.getLast?_concat]
        rfl
      simp only [Aggregate.restart, hevicted, Option.map_some, Option.toList_some]
    refine ⟨h.stage, congrArg (· + 1) h.begun, h.ledgers, rfl, h.latest, h.bounded, h.unbounded, ?_,
      fun hspares q => ?_⟩
    · rw [hb, hu, hkept]
      rfl
    rw [hlog] at hspares
    rw [hb, hu, List.tail_cons]
    by_cases hcounts : q.of oldest = none
    · rcases h.spared hspares.of_append q with ⟨interval, hmem, hsome⟩ | hnone
      · -- The one that holds the headline is not the oldest, so it stays.
        left
        refine ⟨interval, ?_, hsome⟩
        have hmem := List.mem_of_mem_tail hmem
        rw [htake, List.mem_append, List.mem_singleton] at hmem
        rcases hmem with hmem | rfl
        · rw [hkept]
          exact hmem
        · exact absurd hcounts hsome
      · right
        intro interval hmem
        have hmem : interval ∈ u.intervals.drop (maxIntervals - 1) := hmem
        rw [hdrop] at hmem
        rcases List.mem_cons.mp hmem with rfl | hmem
        · exact hcounts
        · exact hnone interval hmem
    · exact .inl (hspares oldest _ (by simp) q hcounts)
  · have hlen : u.intervals.length < maxIntervals := by
      rw [h.intervals, List.length_take] at hfull
      omega
    have hlimit : b.limit ≠ some b.intervals.length := by
      rw [h.bounded]
      exact fun heq => hfull (Option.some.inj heq).symm
    have hb : (b.restart reason ids at_).intervals
        = ⟨reason, ids, at_, at_, true, none, .new⟩ :: u.intervals := by
      simp only [Aggregate.restart, if_neg hlimit]
      rw [h.intervals, List.take_of_length_le hlen.le]
    refine ⟨h.stage, congrArg (· + 1) h.begun, h.ledgers, rfl, h.latest, h.bounded, h.unbounded, ?_,
      fun _ q => .inr ?_⟩
    · rw [hb, hu, List.take_of_length_le (by rw [List.length_cons]; exact hlen)]
    · rw [hu, List.drop_of_length_le (by rw [List.length_cons]; exact hlen)]
      nofun

/-- Both resume evidence in the same way, or neither does. -/
theorem resumed (h : Twin b u) (x : Boundary) : Option.Rel Twin (b.resumed x) (u.resumed x) := by
  match hu : u.intervals with
  | [] =>
    rw [Aggregate.resumed, Aggregate.resumed, hu, h.intervals_nil hu]
    exact .none
  | interval :: earlier =>
    rw [resumed_eq hu, resumed_eq (h.intervals_cons hu)]
    exact .some ((h.setCurrent hu _ h.opened id _).restart _ _ _)

/-- The same sample, and twins again. -/
def Returns (p q : Option Window × Aggregate) : Prop := p.1 = q.1 ∧ Twin p.2 q.2

/-- Observing keeps them together, as resuming does. -/
theorem observeBody (h : Twin b u) (x : Boundary)
    {resume resume' : Aggregate → Boundary → Option (Option Window × Aggregate)}
    (hresume : ∀ b u, Twin b u → Option.Rel Returns (resume b x) (resume' u x)) :
    Option.Rel Returns (b.observeBody resume x) (u.observeBody resume' x) := by
  unfold Aggregate.observeBody
  have hn := h.noted x
  generalize b.noted x = n, u.noted x = m at hn
  simp only [hn.opened]
  by_cases hstalled : m.opened.isSome ∧ x.stalled
  · rw [if_pos hstalled, if_pos hstalled]
    exact hresume n m hn
  rw [if_neg hstalled, if_neg hstalled]
  match hm : m.intervals with
  | [] =>
    rw [hn.intervals_nil hm]
    exact .some ⟨rfl, hn⟩
  | interval :: earlier =>
    rw [hn.intervals_cons hm]
    simp only [hn.stage, hn.window]
    split
    · split
      · exact .some ⟨rfl, hn.start x⟩
      · split
        · exact hresume n m hn
        · exact .some ⟨rfl, hn⟩
        · split
          · split
            · exact hresume n m hn
            · exact .some ⟨rfl, hn.extend hm _ _ _ _⟩
          · exact .some ⟨rfl, hn⟩
    · exact .some ⟨rfl, hn⟩

/-- The same at any depth of resuming. -/
theorem observeWithin (depth : ℕ) (h : Twin b u) (x : Boundary) :
    Option.Rel Returns (b.observeWithin depth x) (u.observeWithin depth x) := by
  induction depth generalizing b u with
  | zero =>
    apply h.observeBody x
    intro b u _
    exact .none
  | succ depth ih =>
    apply h.observeBody x
    intro b u h
    have hresumed := h.resumed x
    generalize b.resumed x = r, u.resumed x = r' at hresumed
    cases hresumed with
    | none => exact .some ⟨rfl, h⟩
    | some h => exact ih h

/-- **One boundary** keeps them together. -/
theorem observe (h : Twin b u) (x : Boundary) : Twin (b.observe x).2 (u.observe x).2 := by
  have hwithin := h.observeWithin 1 x
  rw [observeWithin_one, observeWithin_one] at hwithin
  cases hwithin with
  | some hreturns => exact hreturns.2

/-- Both see the same servers leave. -/
theorem departure (h : Twin b u) (ids survivors : List ServerId) :
    b.departure ids survivors = u.departure ids survivors := by
  rw [Aggregate.departure, Aggregate.departure, h.opened]

/-- A dropout keeps the two together. -/
theorem dropout (h : Twin b u) (survivors : List ServerId) (at_ : ℕ) :
    Twin (b.dropout survivors at_) (u.dropout survivors at_) := by
  unfold Aggregate.dropout
  match hu : u.intervals with
  | [] =>
    rw [h.intervals_nil hu]
    exact h
  | interval :: earlier =>
    rw [h.intervals_cons hu]
    simp only [h.departure]
    split
    · exact h
    split
    · split
      · exact h
      · exact h.restart _ _ _
    · split
      · exact h.cut hu _
      rename_i mark _ _
      -- The survivors' interval starts at the mark, in both alike.
      have hstarted :=
        ((h.cut hu mark).restart .dropout survivors mark.boundary.at_).start mark.boundary
      rw [hstarted.latest]
      split
      · exact hstarted
      · exact hstarted.observe _

/-- **One call** keeps them together. -/
theorem call (h : Twin b u) (c : Call) : Twin (b.call c) (u.call c) := by
  cases c with
  | observe x => exact h.observe x
  | dropout survivors at_ => exact h.dropout survivors at_

/-- A run keeps them together. -/
theorem calls (h : Twin b u) (cs : List Call) :
    Twin (cs.foldl Aggregate.call b) (cs.foldl Aggregate.call u) :=
  List.foldl_rel h fun c _ _ _ h => h.call c

/-- They start together. -/
theorem new (stage : Stage) (ids : List ServerId) (at_ : ℕ) :
    Twin (Aggregate.new stage ids at_) (newWith none stage ids at_) := by
  have hempty (ledgers : List Ledger) :
      Twin ⟨stage, some maxIntervals, [], 0, ledgers, none, none, []⟩
        ⟨stage, none, [], 0, ledgers, none, none, []⟩ := by
    refine ⟨rfl, rfl, rfl, rfl, rfl, rfl, rfl, rfl, fun _ q => .inr ?_⟩
    nofun
  exact (hempty _).restart _ _ _

end Twin

/-! ## Headlines -/

/-- **Dropping old intervals changes no headline**: the browser's never, and the terminal client's in
every run that drops no interval with a headline which no later one holds. -/
theorem headlines_kept (stage : Stage) (ids : List ServerId) (at_ : ℕ) (calls : List Call)
    (hspares : Spares (calls.foldl call (new stage ids at_)).log)
    (earlier : List Browser.Aggregate.StageRun) (run : Browser.Aggregate.StageRun) :
    (∀ direction,
      (calls.foldl call (new stage ids at_)).result direction
        = (calls.foldl call (newWith none stage ids at_)).result direction) ∧
    (∀ id direction,
      (calls.foldl call (new stage ids at_)).server id direction
        = (calls.foldl call (newWith none stage ids at_)).server id direction) ∧
    (∀ dir,
      ((earlier ++ [run]).foldl Browser.Aggregate.measure .new).settle run.stage dir
        = ((earlier ++ [run]).foldl Browser.Aggregate.measure (.newWith none)).settle run.stage dir) ∧
    ∀ of dir id,
      ((earlier ++ [run]).foldl Browser.Aggregate.measure .new).serverResult of dir id
        = ((earlier ++ [run]).foldl Browser.Aggregate.measure (.newWith none)).serverResult of dir id := by
  have hrust := (Twin.new stage ids at_).calls calls
  obtain ⟨before, hearlier⟩ := Browser.Aggregate.Twin.measured earlier
  have hbrowser := hearlier.measure run
  simp only [List.foldl_append, List.foldl_cons, List.foldl_nil]
  exact ⟨fun direction => hrust.answer_eq hspares (.stage direction),
    fun id direction => hrust.answer_eq hspares (.server id direction),
    fun dir => hbrowser.settle dir, fun of dir id => hbrowser.serverResult of dir id⟩

/-- An interval without a window, or that no longer counts, holds no headline. -/
def Event.idle : Event → Bool
  | .accepted _ _ => true
  | .dropped oldest _ => oldest.window = none ∨ oldest.complete = false

/-- A log in which no interval is dropped spares every answer. -/
theorem spares_of_idle {log : List Event} (h : log.all Event.idle) : Spares log := by
  intro oldest later hmem q hsome
  have hidle := List.all_eq_true.mp h _ hmem
  refine absurd ?_ hsome
  simp only [Event.idle, decide_eq_true_eq] at hidle
  rcases hidle with hwindow | hcomplete
  · cases q <;> simp only [Question.of, headline, serverHeadline, hwindow]
  · cases q <;> simp only [Question.of, headline, serverHeadline, hcomplete, Bool.false_eq_true,
      false_and, if_false] <;> split <;> rfl

/-- The readings of two servers that downloaded `count` bytes each. -/
def bothAt (at_ count : ℕ) (stalled : Bool) : Call :=
  .observe ⟨at_ * 10 ^ 9, stalled, false,
    [⟨"a", some count, none, none⟩, ⟨"b", some count, none, none⟩]⟩

/-- The first second is measured, and then the sampler runs late at every boundary. -/
def late (count : ℕ) : List Call :=
  (List.range count).map fun i => bothAt (2 * i + 3) 1000 true

/-- Two boundaries and 130 late ones drop no interval. -/
theorem headlines_kept_late :
    Spares ((bothAt 0 0 false :: late 130).foldl call (new .download ["a"] 0)).log ∧
      ((bothAt 0 0 false :: late 130).foldl call (new .download ["a"] 0)).result .down
        = ((bothAt 0 0 false :: late 130).foldl call (newWith none .download ["a"] 0)).result
          .down := by
  have hspares : Spares ((bothAt 0 0 false :: late 130).foldl call (new .download ["a"] 0)).log :=
    spares_of_idle (by decide +kernel)
  exact ⟨hspares, (headlines_kept .download ["a"] 0 _ hspares [] ⟨.download, ["a"], 0, []⟩).1 .down⟩

/-- Both servers are measured for a second, then `b` leaves, and `a`'s interval resumes 127 times: the
one that holds the headline is dropped. -/
def lost : List Call :=
  bothAt 0 0 false :: bothAt 1 1000 false :: .dropout ["a"] (2 * 10 ^ 9) :: late 127

/-- Restarted 128 times without evidence, the bounded one drops the interval of the headline. -/
theorem headline_lost :
    (lost.foldl call (new .download ["a", "b"] 0)).result .down
      ≠ (lost.foldl call (newWith none .download ["a", "b"] 0)).result .down := by
  decide +kernel

end Aggregate

end GraphiteMeter.Measure
