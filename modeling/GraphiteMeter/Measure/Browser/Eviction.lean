import Mathlib.Data.Option.Basic
import GraphiteMeter.Measure.Browser.Kept
import GraphiteMeter.Measure.Browser.Observe

/-!
# The browser's eviction is transparent

Reference: `client/src/engine/measure/aggregate.ts`. The aggregate that keeps 128 intervals goes through
the same states as one that keeps all: it has the latest 128 of its intervals, and of the others what
`keep` wrote, which is what a search of them would find.
-/

namespace GraphiteMeter.Measure.Browser.Aggregate

/-- The aggregate of the source, and one that went through the same and keeps every interval, while
`stage` is measured. -/
structure Twin (stage : Stage) (b u : Aggregate) : Prop where
  bounded : b.limit = some intervalLimit
  unbounded : u.limit = none
  intervals : b.intervals = u.intervals.take intervalLimit
  /-- The next interval gets the same id. -/
  numbered : b.omittedIntervals + b.intervals.length = u.omittedIntervals + u.intervals.length
  opened : b.opened = u.opened
  latest : b.latest = u.latest
  fresh : u.kept = fun _ => none
  kept : ∀ key, b.kept key = (u.intervals.drop intervalLimit).findSome? (keeps key)
  full : ∀ record ∈ u.intervals, Full record.stage record.participants record.full
  marks : ∀ record o, u.intervals.head? = some record → u.opened = some o →
    ∀ id dir mark, (o.moved id).get dir = some mark →
      Full record.stage record.participants mark.full
  running : ∀ record, u.intervals.head? = some record → record.stage = stage

namespace Twin

variable {stage : Stage} {b u : Aggregate} {record : Interval} {earlier : List Interval}

/-- Both have the same latest interval. -/
theorem intervals_cons (h : Twin stage b u) (hu : u.intervals = record :: earlier) :
    b.intervals = record :: earlier.take (intervalLimit - 1) := by
  rw [h.intervals, hu]
  rfl

/-- Where the unlimited aggregate has no interval, the limited has none. -/
theorem intervals_nil (h : Twin stage b u) (hu : u.intervals = []) : b.intervals = [] := by
  rw [h.intervals, hu]
  rfl

/-! ## The latest interval -/

/-- Only the latest interval changes, and keeps its stage and participants. -/
theorem setCurrent (h : Twin stage b u) (hu : u.intervals = record :: earlier) (after : Interval)
    (hstage : after.stage = record.stage) (hids : after.participants = record.participants)
    (hfull : Full record.stage record.participants after.full) (opened : Option Open)
    (hmarks : ∀ o, opened = some o → ∀ id dir mark, (o.moved id).get dir = some mark →
      Full record.stage record.participants mark.full)
    (latest : Option (Boundary × Bool)) :
    Twin stage
      { b with intervals := after :: earlier.take (intervalLimit - 1), opened, latest }
      { u with intervals := after :: earlier, opened, latest } := by
  have hnumbered := h.numbered
  have hkept := h.kept
  have hall := h.full
  have hrunning := h.running
  rw [h.intervals_cons hu, hu] at hnumbered
  rw [hu] at hkept hall hrunning
  refine ⟨h.bounded, h.unbounded, rfl, hnumbered, rfl, rfl, h.fresh, hkept, ?_, ?_, ?_⟩
  · intro other hother
    rcases List.mem_cons.mp hother with rfl | hother
    · rw [hstage, hids]
      exact hfull
    · exact hall other (List.mem_cons_of_mem _ hother)
  · intro current o hcurrent ho
    cases hcurrent
    rw [hstage, hids]
    exact hmarks o ho
  · intro current hcurrent
    cases hcurrent
    rw [hstage]
    exact hrunning record rfl

/-- The latest interval's window and marks are its participants'. -/
theorem current_full (h : Twin stage b u) (hu : u.intervals = record :: earlier) :
    Full record.stage record.participants record.full :=
  h.full record (hu ▸ List.mem_cons_self)

/-- What moved in the open interval is full there. -/
theorem current_marks (h : Twin stage b u) (hu : u.intervals = record :: earlier) {o : Open}
    (ho : u.opened = some o) (id : ServerId) (dir : Direction) (mark : Mark)
    (hmark : (o.moved id).get dir = some mark) :
    Full record.stage record.participants mark.full :=
  h.marks record o (by rw [hu]; rfl) ho id dir mark hmark

/-- Noting a boundary keeps the twins. -/
theorem noted (h : Twin stage b u) (latest : Option (Boundary × Bool)) :
    Twin stage { b with latest } { u with latest } :=
  ⟨h.bounded, h.unbounded, h.intervals, h.numbered, h.opened, rfl, h.fresh, h.kept, h.full, h.marks,
    h.running⟩

/-- Starting an interval keeps the twins. -/
theorem start (h : Twin stage b u) (hu : u.intervals = record :: earlier) (x : Boundary) :
    Twin stage (b.start record (earlier.take (intervalLimit - 1)) x) (u.start record earlier x) := by
  have hfull := h.current_full hu
  unfold Aggregate.start
  rw [h.latest]
  refine h.setCurrent hu _ (by rfl) (by rfl) (by exact hfull) _ ?_ _
  intro o ho id dir mark hmark
  cases ho
  simp only at hmark
  split at hmark
  · rw [Dir.get_ofFn] at hmark
    split at hmark
    · cases hmark
      exact hfull
    · cases hmark
  · cases dir <;> cases hmark

/-- Starting the current interval anew keeps the twins. -/
theorem startCurrent (h : Twin stage b u) (x : Boundary) :
    Twin stage (b.startCurrent x) (u.startCurrent x) := by
  unfold Aggregate.startCurrent
  match hu : u.intervals with
  | [] =>
    rw [h.intervals_nil hu]
    exact h
  | record :: earlier =>
    rw [h.intervals_cons hu]
    exact h.start hu x

/-- Raised peaks and new marks leave every mark with a window of the participants. -/
theorem markMoved_full {o : Open} {full : AggregateWindow} {sample : AggregateWindow}
    {stage : Stage} {ids : List ServerId} {x : Boundary} {peaks : Peaks} {dirs : List Direction}
    (hfull : Full stage ids (some full))
    (hmarks : ∀ id dir mark, (o.moved id).get dir = some mark → Full stage ids mark.full)
    {id : ServerId} {dir : Direction} {mark : Mark}
    (h : (markMoved ⟨x, some full, peaks⟩ sample dirs (shareRaised o peaks) id).get dir = some mark) :
    Full stage ids mark.full := by
  unfold markMoved shareRaised at h
  rw [Dir.get_ofFn] at h
  split at h
  · cases h
    exact hfull
  · rw [Dir.get_ofFn, Option.map_eq_some_iff] at h
    obtain ⟨before, hbefore, heq⟩ := h
    have hsame : mark.full = before.full := by
      rw [← heq]
      split <;> rfl
    rw [hsame]
    exact hmarks id dir before hbefore

/-- Extending an interval keeps the twins. -/
theorem extend (h : Twin stage b u) (hu : u.intervals = record :: earlier) {o : Open}
    (ho : u.opened = some o) (x : Boundary) (sample : Option AggregateWindow)
    {full : AggregateWindow} (hfull : Full record.stage record.participants (some full)) :
    Twin stage (b.extend record (earlier.take (intervalLimit - 1)) o x sample full)
      (u.extend record earlier o x sample full) := by
  have hmarks := h.current_marks hu ho
  cases sample with
  | none =>
    simp only [Aggregate.extend, h.latest, h.opened]
    refine h.setCurrent hu _ (by rfl) (by rfl) (by exact hfull) _ ?_ _
    intro o' ho'
    rw [ho] at ho'
    cases ho'
    exact hmarks
  | some sample =>
    simp only [Aggregate.extend, h.latest]
    refine h.setCurrent hu _ (by rfl) (by rfl) (by exact hfull) _ ?_ _
    intro o' ho' id dir mark hmark
    cases ho'
    exact markMoved_full hfull hmarks hmark

/-! ## Letting one go -/

/-- What is open before the first boundary. -/
def waiting : Open := ⟨none, none, none, fun _ => ⟨none, none⟩, none⟩

/-- A new interval, with room for it made. -/
theorem cons (h : Twin stage b u) (stage' : Stage) (ids : List ServerId) (atMs : ℚ) (reason : Reason)
    {number : ℕ} (kept : List Interval) (hkept : kept = u.intervals.take (intervalLimit - 1))
    (omitted : ℕ) (hnumbered : omitted + kept.length = u.omittedIntervals + u.intervals.length)
    (store : Key → Option Kept)
    (hstore : ∀ key, store key = (u.intervals.drop (intervalLimit - 1)).findSome? (keeps key))
    (latest : Option (Boundary × Bool)) :
    Twin stage'
      { limit := some intervalLimit
        intervals := ⟨number, stage', ids, atMs, atMs, true, reason, none, fun _ => ⟨0, 0⟩⟩ :: kept
        omittedIntervals := omitted
        opened := some waiting
        latest
        kept := store }
      { u with
        limit := none
        intervals :=
          ⟨number, stage', ids, atMs, atMs, true, reason, none, fun _ => ⟨0, 0⟩⟩ :: u.intervals
        opened := some waiting
        latest } := by
  refine ⟨rfl, rfl, ?_, ?_, rfl, rfl, h.fresh, hstore, ?_, ?_, ?_⟩
  · rw [hkept]
    rfl
  · simp only [List.length_cons]
    omega
  · intro record hrecord
    rcases List.mem_cons.mp hrecord with rfl | hrecord
    · nofun
    · exact h.full record hrecord
  · intro record o _ ho id dir mark hmark
    cases ho
    cases dir <;> cases hmark
  · intro record hrecord
    cases hrecord
    rfl

/-- **A new interval lets at most the oldest one go, and what it measured is kept.** -/
theorem begin (h : Twin stage b u) (stage' : Stage) (ids : List ServerId) (atMs : ℚ)
    (reason : Reason) :
    Twin stage' (b.begin stage' ids atMs reason) (u.begin stage' ids atMs reason) := by
  have hlatest := h.latest
  unfold Aggregate.begin
  simp only [h.bounded, h.unbounded, Option.any_some, Option.any_none, Bool.false_eq_true, if_false,
    decide_eq_true_eq, hlatest]
  have hlen : b.intervals.length = min intervalLimit u.intervals.length := by
    rw [h.intervals, List.length_take]
  by_cases hroom : intervalLimit ≤ b.intervals.length
  · -- The oldest interval kept is the last of the first 128.
    have hlt : intervalLimit - 1 < u.intervals.length := by
      rw [intervalLimit] at *
      omega
    set oldest := u.intervals[intervalLimit - 1] with holdest
    have htake : b.intervals = u.intervals.take (intervalLimit - 1) ++ [oldest] := by
      rw [h.intervals, holdest, ← List.take_succ_eq_append_getElem hlt]
      rfl
    have hdrop : u.intervals.drop (intervalLimit - 1) = oldest :: u.intervals.drop intervalLimit :=
      List.drop_eq_getElem_cons hlt
    have hdropLast : b.intervals.dropLast = u.intervals.take (intervalLimit - 1) := by
      rw [htake, List.dropLast_concat]
    have hnumbered :
        b.omittedIntervals + 1 + b.intervals.dropLast.length
          = u.omittedIntervals + u.intervals.length := by
      have hlength : b.intervals.dropLast.length + 1 = b.intervals.length := by
        rw [htake, List.dropLast_concat, List.length_append, List.length_singleton]
      have := h.numbered
      omega
    simp only [if_pos hroom, hnumbered]
    refine h.cons stage' ids atMs reason _ hdropLast _ hnumbered _ ?_ _
    intro key
    have hlast : b.intervals.getLast? = some oldest := by rw [htake, List.getLast?_concat]
    rw [hlast, Option.elim_some,
      keep_apply (h.full oldest (List.getElem_mem hlt)), h.kept, hdrop, List.findSome?_cons]
    cases keeps key oldest <;> rfl
  · have hle : u.intervals.length ≤ intervalLimit - 1 := by
      rw [intervalLimit] at *
      omega
    simp only [if_neg hroom, h.numbered]
    refine h.cons stage' ids atMs reason _ ?_ _ h.numbered _ ?_ _
    · rw [h.intervals, List.take_of_length_le hle, List.take_of_length_le (by omega)]
    · intro key
      rw [h.kept, List.drop_of_length_le hle, List.drop_of_length_le (by omega)]

/-- Resuming keeps the twins. -/
theorem resumed (h : Twin stage b u) (x : Boundary) : Twin stage (b.resumed x) (u.resumed x) := by
  unfold Aggregate.resumed
  match hu : u.intervals with
  | [] =>
    rw [h.intervals_nil hu]
    exact h
  | record :: earlier =>
    rw [h.intervals_cons hu]
    obtain rfl : record.stage = stage := h.running record (by rw [hu]; rfl)
    have hclosed := h.setCurrent hu { record with complete := false, endMs := x.atMs } rfl rfl
      (h.current_full hu) u.opened (fun o ho => h.current_marks hu ho) u.latest
    simp only [h.latest, h.opened]
    exact hclosed.begin record.stage record.participants x.atMs .evidenceResumed

/-! ## Calls -/

/-- The same sample, and twins again. -/
def Returns (stage : Stage) (p q : Option AggregateWindow × Aggregate) : Prop :=
  p.1 = q.1 ∧ Twin stage p.2 q.2

/-- What a boundary does keeps the twins, if what it calls does. -/
theorem observeBody (h : Twin stage b u) (x : Boundary) (final : Bool)
    {again again' : Aggregate → Boundary → Option (Option AggregateWindow × Aggregate)}
    (hagain : ∀ b u, Twin stage b u → Option.Rel (Returns stage) (again b x) (again' u x)) :
    Option.Rel (Returns stage) (b.observeBody again x final) (u.observeBody again' x final) := by
  match ho : u.opened, hu : u.intervals with
  | none, _ =>
    rw [observeBody_of_closed _ (.inl ho), observeBody_of_closed _ (.inl (h.opened.trans ho))]
    exact .some ⟨rfl, h⟩
  | some o, [] =>
    rw [observeBody_of_closed _ (.inr hu), observeBody_of_closed _ (.inr (h.intervals_nil hu))]
    exact .some ⟨rfl, h⟩
  | some o, record :: earlier =>
    rw [observeBody_eq _ ho hu, observeBody_eq _ (h.opened.trans ho) (h.intervals_cons hu)]
    have hn := h.noted (some (x, final))
    -- Both take the same decision, as they have the same interval open.
    cases hverdict : verdict record o x final with
    | skip => exact .some ⟨rfl, hn⟩
    | start => exact .some ⟨rfl, hn.start hu x⟩
    | extend sample full =>
      refine .some ⟨rfl, hn.extend hu ho x sample ?_⟩
      rintro w ⟨⟩
      obtain ⟨first, hspans⟩ := verdict_extend hverdict
      exact ⟨first, x, hspans⟩
    | resume => exact hagain _ _ hn

/-- A boundary keeps the twins at any depth. -/
theorem observeWithin (depth : ℕ) (h : Twin stage b u) (x : Boundary) (final : Bool) :
    Option.Rel (Returns stage) (b.observeWithin depth x final) (u.observeWithin depth x final) := by
  induction depth generalizing b u final with
  | zero =>
    apply h.observeBody x final
    intro b u _
    exact .none
  | succ depth ih =>
    apply h.observeBody x final
    intro b u h
    exact ih (h.resumed x) false

/-- **A boundary** keeps the twins. -/
theorem observe (h : Twin stage b u) (x : Boundary) (final : Bool) :
    Twin stage (b.observe x final).2 (u.observe x final).2 := by
  have hwithin := h.observeWithin 1 x final
  unfold Aggregate.observe
  generalize b.observeWithin 1 x final = p, u.observeWithin 1 x final = q at hwithin
  cases hwithin with
  | none => exact h
  | some hreturns => exact hreturns.2

/-- Cutting an interval keeps the twins. -/
theorem cut (h : Twin stage b u) (hu : u.intervals = record :: earlier) {o : Open}
    (ho : u.opened = some o) {ids survivors : List ServerId} {mark : Mark}
    (hmark : departure o ids survivors = some mark) :
    Twin stage (b.cut record (earlier.take (intervalLimit - 1)) o mark) (u.cut record earlier o mark) := by
  have hmarks := h.current_marks hu ho
  obtain ⟨id, dir, hmem⟩ := departure_mem hmark
  unfold Aggregate.cut
  rw [h.latest]
  refine h.setCurrent hu _ (by rfl) (by rfl) (by exact hmarks id dir mark hmem) _ ?_ _
  rintro o' ⟨⟩
  exact hmarks

/-- A dropout keeps the twins. -/
theorem dropout (h : Twin stage b u) (survivors : List ServerId) (atMs : ℚ) :
    Twin stage (b.dropout survivors atMs) (u.dropout survivors atMs) := by
  unfold Aggregate.dropout
  rw [h.opened, h.latest]
  match ho : u.opened, hu : u.intervals with
  | none, _ => exact h
  | some o, [] =>
    rw [h.intervals_nil hu]
    exact h
  | some o, record :: earlier =>
    rw [h.intervals_cons hu]
    obtain rfl : record.stage = stage := h.running record (by rw [hu]; rfl)
    simp only
    split
    · exact h
    split
    · split
      · exact h
      · exact h.begin _ _ _ _
    · rename_i mark hmark
      have hcut := h.cut hu ho hmark
      split
      · exact hcut
      -- The survivors' interval starts at the mark, in both alike.
      have hstarted :=
        (hcut.begin record.stage survivors mark.boundary.atMs .dropout).startCurrent mark.boundary
      split
      · exact hstarted
      · exact hstarted.observe _ _

/-- **Every call** keeps the twins. -/
theorem call (h : Twin stage b u) (c : Call) : Twin stage (b.call c) (u.call c) := by
  cases c with
  | observe x final => exact h.observe x final
  | dropout survivors atMs => exact h.dropout survivors atMs

/-- **A whole stage** keeps the twins. -/
theorem measure (h : Twin stage b u) (run : StageRun) :
    Twin run.stage (b.measure run) (u.measure run) :=
  List.foldl_rel (h.begin run.stage run.participants run.atMs .stageStart) fun c _ _ _ h => h.call c

/-- Two new aggregates are twins. -/
theorem new (stage : Stage) : Twin stage Aggregate.new (newWith none) where
  bounded := rfl
  unbounded := rfl
  intervals := List.take_nil.symm
  numbered := rfl
  opened := rfl
  latest := rfl
  fresh := rfl
  kept key := by
    change none = List.findSome? (keeps key) (List.drop intervalLimit [])
    rw [List.drop_nil, List.findSome?_nil]
  full record hrecord := absurd hrecord List.not_mem_nil
  marks _ _ hrecord := nomatch hrecord
  running _ hrecord := nomatch hrecord

/-- After any stages the two are twins, for any stage that comes next. -/
theorem measured (runs : List StageRun) : ∃ stage,
    Twin stage (runs.foldl Aggregate.measure Aggregate.new)
      (runs.foldl Aggregate.measure (newWith none)) :=
  List.foldl_rel (r := fun b u => ∃ stage, Twin stage b u) ⟨.download, new .download⟩
    fun run _ _ _ ⟨_, h⟩ => ⟨run.stage, h.measure run⟩

/-! ## Results -/

section Search

variable {β : Type*} {f : Interval → Option β} {k : β → Kept} {key : Key}

/-- A search of all intervals is a search of those that stayed, then of the others. -/
theorem findSome?_eq (h : Twin stage b u) (f : Interval → Option β) (of : Stage) :
    (u.intervals.filter fun record => record.stage = of).findSome? f =
      ((b.intervals.filter fun record => record.stage = of).findSome? f).or
        ((u.intervals.drop intervalLimit).findSome? fun record =>
          if decide (record.stage = of) then f record else none) := by
  rw [← findSome?_filter, h.intervals, ← List.findSome?_append, ← List.filter_append,
    List.take_append_drop]

/-- What was kept is what a search of the intervals let go would find. -/
theorem kept_eq (h : Twin stage b u)
    (hkeeps : ∀ record, keeps key record = if record.stage = key.stage then (f record).map k else none) :
    b.kept key = ((u.intervals.drop intervalLimit).findSome? fun record =>
      if decide (record.stage = key.stage) then f record else none).map k := by
  rw [h.kept, List.map_findSome?]
  congr 1
  funext record
  rw [hkeeps, Function.comp_apply, apply_ite (Option.map k), Option.map_none]
  simp only [decide_eq_true_eq]

end Search

/-- Twins give the same result of every server. -/
theorem serverResult (h : Twin stage b u) (of : Stage) (dir : Direction) (id : ServerId) :
    b.serverResult of dir id = u.serverResult of dir id := by
  unfold Aggregate.serverResult
  rw [h.findSome?_eq, h.fresh,
    h.kept_eq (f := serverHeadline id dir) (k := ThroughputResult.kept) fun _ => rfl]
  cases (b.intervals.filter fun record => record.stage = of).findSome? (serverHeadline id dir) with
  | some found => rfl
  | none =>
    rw [Option.none_or]
    simp only [Option.map_none, Option.map_map]
    cases (u.intervals.drop intervalLimit).findSome? _ <;> rfl

/-- The stage that is measured settles alike. -/
theorem settle (h : Twin stage b u) (dir : Direction) : b.settle stage dir = u.settle stage dir := by
  unfold Aggregate.settle
  -- Its latest interval is the latest of all, so both have it.
  have hhead : (b.intervals.filter fun interval => interval.stage = stage).head?
      = (u.intervals.filter fun interval => interval.stage = stage).head? := by
    match hu : u.intervals with
    | [] => rw [h.intervals_nil hu]
    | record :: earlier =>
      have hrunning : record.stage = stage := h.running record (by rw [hu]; rfl)
      rw [h.intervals_cons hu, List.filter_cons_of_pos (by simpa using hrunning),
        List.filter_cons_of_pos (by simpa using hrunning)]
      rfl
  simp only [hhead]
  split
  · rfl
  rw [h.findSome?_eq, h.fresh, h.kept_eq (f := headline dir) (k := Headline.kept) fun _ => rfl]
  cases (b.intervals.filter fun interval => interval.stage = stage).findSome? (headline dir) with
  | some found => rfl
  | none =>
    rw [Option.none_or]
    cases (u.intervals.drop intervalLimit).findSome? _ <;> rfl

end Twin

end GraphiteMeter.Measure.Browser.Aggregate
