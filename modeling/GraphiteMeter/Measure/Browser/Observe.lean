import GraphiteMeter.Measure.Browser.Window

/-!
# What the browser does with a boundary

Reference: `client/src/engine/measure/aggregate.ts` (`observe`, `dropout`). The tests of `observe` read
the open interval and the boundary only: `verdict` is what they come to, and `obey` what is then done.
-/

namespace GraphiteMeter.Measure.Browser.Aggregate

variable {s : Aggregate} {record : Interval} {earlier : List Interval} {o : Open} {x : Boundary}
  {final : Bool}

/-! ## Observing -/

inductive Verdict where
  | skip
  | start
  /-- Without a `sample` in the last boundary's tick. -/
  | extend (sample : Option AggregateWindow) (full : AggregateWindow)
  | resume

/-- Whether a final boundary finds a direction that stood still. -/
def stoodStill (record : Interval) (last x : Boundary) : Bool :=
  record.participants.any fun id => (directions record.stage).any (stood last x id)

def continuous (record : Interval) (last x : Boundary) : Bool :=
  record.participants.all fun id => (directions record.stage).all (continues last x id)

def stale (record : Interval) (last x : Boundary) : Bool :=
  (directions record.stage).contains .up ∧ record.participants.any (clockStood last x)

/-- Whether a final boundary takes the place of the last one, in its tick. -/
def replaces (record : Interval) (first last x : Boundary) (final : Bool) : Bool :=
  final ∧ continuous record last x ∧ decide (x.atMs = last.atMs) ∧ ¬ stale record last x ∧
    last.atMs ≠ first.atMs

/-- What follows from the open interval's first and last boundary. -/
def verdictBetween (record : Interval) (first last x : Boundary) (final : Bool) : Verdict :=
  if final ∧ stoodStill record last x then .skip
  else if continuous record last x ∧ (x.atMs ≤ last.atMs ∨ stale record last x) ∧
      ¬ replaces record first last x final then .skip
  else
    let sample :=
      if replaces record first last x final then none
      else window last x record.stage record.participants
    match window first x record.stage record.participants with
    | some full =>
      if sample.isSome ∨ replaces record first last x final then .extend sample full else .resume
    | none => .resume

def verdict (record : Interval) (o : Open) (x : Boundary) (final : Bool) : Verdict :=
  if valid record.stage record.participants x then
    match o.first, o.last with
    | some first, some last => verdictBetween record first last x final
    | _, _ => .start
  else .skip

def obey (again : Aggregate → Boundary → Option (Option AggregateWindow × Aggregate)) (s : Aggregate)
    (record : Interval) (earlier : List Interval) (o : Open) (x : Boundary) :
    Verdict → Option (Option AggregateWindow × Aggregate)
  | .skip => some (none, s)
  | .start => some (none, s.start record earlier x)
  | .extend sample full => some (sample, s.extend record earlier o x sample full)
  | .resume => again s x

/-- What a boundary does in an open interval. -/
theorem observeBody_eq (again : Aggregate → Boundary → Option (Option AggregateWindow × Aggregate))
    (ho : s.opened = some o) (hs : s.intervals = record :: earlier) :
    observeBody again s x final =
      obey again { s with latest := some (x, final) } record earlier o x
        (verdict record o x final) := by
  unfold observeBody verdict verdictBetween
  rw [ho, hs]
  simp only [apply_ite (obey again _ record earlier o x)]
  by_cases hvalid : valid record.stage record.participants x = true
  case neg =>
    rw [if_neg hvalid, if_neg hvalid]
    rfl
  rw [if_pos hvalid, if_pos hvalid]
  cases o.first with
  | none => rfl
  | some first =>
    cases o.last with
    | none => rfl
    | some last =>
      simp only [apply_ite (obey again _ record earlier o x)]
      congr 2
      cases window first x record.stage record.participants with
      | none => rfl
      | some full =>
        simp only [apply_ite (obey again _ record earlier o x)]
        rfl

/-- Nothing is open: the boundary is ignored. -/
theorem observeBody_of_closed
    (again : Aggregate → Boundary → Option (Option AggregateWindow × Aggregate))
    (h : s.opened = none ∨ s.intervals = []) :
    observeBody again s x final = some (none, s) := by
  unfold observeBody
  split
  · rename_i ho hs
    rw [ho, hs] at h
    rcases h with h | h <;> cases h
  · rfl

/-- What `observe` does with the open interval. -/
theorem observe_eq (ho : s.opened = some o) (hs : s.intervals = record :: earlier) :
    s.observe x final =
      (obey (fun s x => observeWithin 0 (s.resumed x) x false) { s with latest := some (x, final) }
        record earlier o x (verdict record o x final)).getD (none, s) := by
  rw [← observeBody_eq _ ho hs]
  rfl

/-- An extension's full window spans the interval. -/
theorem verdict_extend {sample : Option AggregateWindow} {full : AggregateWindow}
    (h : verdict record o x final = .extend sample full) :
    ∃ first, Spans first x record.stage record.participants full := by
  unfold verdict at h
  split at h
  case isFalse => cases h
  split at h
  case h_2 => cases h
  rename_i first last _ _
  unfold verdictBetween at h
  split at h
  · cases h
  split at h
  · cases h
  simp only at h
  split at h
  case h_2 => cases h
  rename_i w hw
  split_ifs at h <;> cases h <;> exact ⟨first, window_spans hw⟩

/-! ## Dropping out -/

/-- The earliest mark is the one of the least time. -/
theorem earliest_eq_argmin (marks : List Mark) :
    earliest marks = marks.argmin fun mark => mark.boundary.atMs := by
  unfold earliest List.argmin
  congr 1
  funext end_ mark
  cases end_ <;> rfl

/-- A dropout's mark is one of the open interval's. -/
theorem departure_mem {ids survivors : List ServerId} {mark : Mark}
    (h : departure o ids survivors = some mark) : ∃ id dir, (o.moved id).get dir = some mark := by
  unfold departure at h
  rw [earliest_eq_argmin] at h
  obtain ⟨id, -, hmark⟩ := List.mem_flatMap.mp (List.argmin_mem h)
  rcases List.mem_append.mp hmark with hmark | hmark
  · exact ⟨id, .down, Option.mem_toList.mp hmark⟩
  · exact ⟨id, .up, Option.mem_toList.mp hmark⟩

end GraphiteMeter.Measure.Browser.Aggregate
