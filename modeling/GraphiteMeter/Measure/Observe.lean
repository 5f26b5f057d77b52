import GraphiteMeter.Measure.Aggregate

/-!
# What a call does

`observe_cases` and `dropout_cases` take the two entry points apart once. A boundary that evidence
resumes at finds no open interval there, so `observe` and `resume` call each other one level deep.
-/

namespace GraphiteMeter.Measure.Aggregate

variable {s r : Aggregate} {b : Boundary}

/-! ## The fields a step leaves alone -/

@[simp]
theorem noted_intervals (s : Aggregate) (b : Boundary) : (s.noted b).intervals = s.intervals := rfl

@[simp]
theorem noted_opened (s : Aggregate) (b : Boundary) : (s.noted b).opened = s.opened := rfl

@[simp]
theorem noted_window (s : Aggregate) (b first last : Boundary) :
    (s.noted b).window first last = s.window first last := rfl

/-- Windows are read with the newest interval's participants. -/
theorem window_current {interval : Interval} {earlier : List Interval}
    (h : s.intervals = interval :: earlier) (first last : Boundary) :
    s.window first last = Measure.window s.stage interval.participants first last := by
  rw [window, h]
  rfl

/-- Starting opens the newest interval at a boundary. -/
theorem start_eq {interval : Interval} {earlier : List Interval}
    (h : s.intervals = interval :: earlier) (b : Boundary) :
    s.start b =
      { s with
        intervals := { interval with start := b.at_, end_ := b.at_ } :: earlier
        opened := some ⟨b, b, b, List.replicate interval.participants.length
          (Dir.ofFn fun direction =>
            if s.stage.moves direction then some ⟨b, interval.window, interval.peaks⟩ else none)⟩ } := by
  rw [start, h]
  rfl

@[simp]
theorem start_ledgers (s : Aggregate) (b : Boundary) : (s.start b).ledgers = s.ledgers := by
  rw [start]
  split <;> rfl

@[simp]
theorem start_latest (s : Aggregate) (b : Boundary) : (s.start b).latest = s.latest := by
  rw [start]
  split <;> rfl

@[simp]
theorem start_stage (s : Aggregate) (b : Boundary) : (s.start b).stage = s.stage := by
  rw [start]
  split <;> rfl

/-- Resuming evidence ends an incomplete interval and restarts. -/
theorem resumed_eq {interval : Interval} {earlier : List Interval}
    (h : s.intervals = interval :: earlier) (b : Boundary) :
    s.resumed b = some (restart
      { s with intervals := { interval with complete := false } :: earlier } .evidenceResumed
      interval.participants b.at_) := by
  rw [resumed, h]

/-- What is resumed has nothing open. -/
theorem resumed_opened (h : s.resumed b = some r) : r.opened = none := by
  rw [resumed] at h
  split at h
  · cases h
  · cases h
    rfl

/-- Resuming leaves the ledgers. -/
theorem resumed_ledgers (h : s.resumed b = some r) : r.ledgers = s.ledgers := by
  rw [resumed] at h
  split at h
  · cases h
  · cases h
    rfl

/-- Resuming leaves the stage. -/
theorem resumed_stage (h : s.resumed b = some r) : r.stage = s.stage := by
  rw [resumed] at h
  split at h
  · cases h
  · cases h
    rfl

/-! ## Observing -/

/-- Everything `observe` can do with a boundary once it is noted. -/
inductive Observed (n : Aggregate) (b : Boundary) : Option Window → Aggregate → Prop
  | skipped : Observed n b none n
  | started (interval : Interval) (earlier : List Interval)
      (hintervals : n.intervals = interval :: earlier) (hopened : n.opened = none)
      (htakes : takes n.stage interval.participants b = true) : Observed n b none (n.start b)
  | extended (interval : Interval) (earlier : List Interval) (o : Open) (sample full : Window)
      (hintervals : n.intervals = interval :: earlier) (hopened : n.opened = some o)
      (htakes : takes n.stage interval.participants b = true)
      (hsample : n.window o.last b = .ok sample) (hfull : n.window o.first b = .ok full) :
      Observed n b (some sample) (n.extend interval earlier o b sample full)
  /-- The boundary resumes evidence in an interval that waits for its first. -/
  | waiting (r : Aggregate) (hresumed : n.resumed b = some r) (hopened : n.opened ≠ none) :
      Observed n b none (r.noted b)
  /-- The boundary resumes evidence as the first of a new interval. -/
  | resumed (r : Aggregate) (interval : Interval) (earlier : List Interval)
      (hresumed : n.resumed b = some r) (hopened : n.opened ≠ none)
      (hintervals : r.intervals = interval :: earlier)
      (htakes : takes r.stage interval.participants b = true) :
      Observed n b none ((r.noted b).start b)

/-- Without an open interval `observe` resumes nothing. -/
theorem observeBody_of_closed (resume : Aggregate → Boundary → Option (Option Window × Aggregate))
    (h : s.opened = none) :
    observeBody resume s b =
      match s.intervals with
      | [] => some (none, s.noted b)
      | interval :: _ =>
        if takes s.stage interval.participants b then some (none, (s.noted b).start b)
        else some (none, s.noted b) := by
  have hclosed : ¬ ((s.noted b).opened.isSome = true ∧ b.stalled = true) := by
    rw [noted_opened, h]
    exact fun hsome => absurd hsome.1 Bool.false_ne_true
  unfold observeBody
  simp only
  rw [if_neg hclosed, noted_intervals, noted_opened, h]
  cases s.intervals with
  | nil => rfl
  | cons interval earlier => rfl

/-- Where each resumption is observed as `Observed` says, so is the whole. -/
theorem observeBody_cases {resume : Aggregate → Boundary → Option (Option Window × Aggregate)}
    {n : Aggregate} (hn : n = s.noted b)
    (hresume : n.opened ≠ none → ∃ sample t, resume n b = some (sample, t) ∧ Observed n b sample t) :
    ∃ sample t, observeBody resume s b = some (sample, t) ∧ Observed n b sample t := by
  subst hn
  simp only [observeBody]
  split_ifs with hstalled
  · exact hresume (Option.isSome_iff_ne_none.mp hstalled.1)
  split
  case h_1 => exact ⟨none, _, rfl, .skipped⟩
  case h_2 interval earlier hintervals =>
    split_ifs with htakes
    · split
      case h_1 hopened => exact ⟨none, _, rfl, .started interval earlier hintervals hopened htakes⟩
      case h_2 o hopened =>
        have hsome : (s.noted b).opened ≠ none := by
          rw [hopened]
          nofun
        split
        case h_1 => exact hresume hsome
        case h_2 => exact ⟨none, _, rfl, .skipped⟩
        case h_3 sample hsample =>
          split_ifs
          · split
            case h_1 => exact hresume hsome
            case h_2 full hfull =>
              exact ⟨some sample, _, rfl,
                .extended interval earlier o sample full hintervals hopened htakes hsample hfull⟩
          · exact ⟨none, _, rfl, .skipped⟩
    · exact ⟨none, _, rfl, .skipped⟩

/-- With a depth to spare, observing ends in one of the cases. -/
theorem observeWithin_cases (depth : ℕ) (s : Aggregate) (b : Boundary) :
    ∃ sample t, observeWithin (depth + 1) s b = some (sample, t) ∧
      Observed (s.noted b) b sample t := by
  rw [observeWithin]
  refine observeBody_cases rfl fun hopened => ?_
  match hresumed : (s.noted b).resumed b with
  | none => exact ⟨none, _, rfl, .skipped⟩
  | some r =>
    -- What is resumed has no open interval, so no call of `resume` follows, at any depth.
    have hclosed := resumed_opened hresumed
    have hinner : observeWithin depth r b = observeBody (fun _ _ => none) r b := by
      cases depth with
      | zero => rfl
      | succ depth =>
        rw [observeWithin, observeBody_of_closed _ hclosed, observeBody_of_closed _ hclosed]
    simp only [hinner, observeBody_of_closed _ hclosed]
    match hintervals : r.intervals with
    | [] => exact ⟨none, _, rfl, .waiting r hresumed hopened⟩
    | interval :: earlier =>
      simp only
      split_ifs with htakes
      · exact ⟨none, _, rfl, .resumed r interval earlier hresumed hopened hintervals htakes⟩
      · exact ⟨none, _, rfl, .waiting r hresumed hopened⟩

/-- **`observe` and `resume` call each other at most one level deep**, from any state. -/
theorem observeWithin_one (s : Aggregate) (b : Boundary) :
    observeWithin 1 s b = some (s.observe b) := by
  obtain ⟨sample, t, heq, -⟩ := observeWithin_cases 0 s b
  rw [observe, heq]
  rfl

/-- Everything that observing a boundary can do. -/
theorem observe_cases (s : Aggregate) (b : Boundary) :
    Observed (s.noted b) b (s.observe b).1 (s.observe b).2 := by
  obtain ⟨sample, t, heq, hobserved⟩ := observeWithin_cases 0 s b
  rw [observe, heq]
  exact hobserved

/-- An observed boundary is the latest. -/
theorem observe_latest (s : Aggregate) (b : Boundary) : (s.observe b).2.latest = some b := by
  have hobserved := observe_cases s b
  generalize (s.observe b).1 = sample, (s.observe b).2 = t at hobserved
  cases hobserved with
  | skipped => rfl
  | started => exact start_latest _ _
  | extended => rfl
  | waiting => rfl
  | resumed => exact start_latest _ _

/-- Observing leaves the stage. -/
theorem observe_stage (s : Aggregate) (b : Boundary) : (s.observe b).2.stage = s.stage := by
  have hobserved := observe_cases s b
  generalize (s.observe b).1 = sample, (s.observe b).2 = t at hobserved
  cases hobserved with
  | skipped => rfl
  | started => exact start_stage _ _
  | extended => rfl
  | waiting r hresumed =>
    have hstage : r.stage = (s.noted b).stage := resumed_stage hresumed
    exact hstage
  | resumed r interval earlier hresumed =>
    have hstage : r.stage = (s.noted b).stage := resumed_stage hresumed
    exact (start_stage _ _).trans hstage

/-! ### What is observed where

The boundary is not stalled, `interval` is the latest interval and `earlier` those before it. -/

section Latest

variable {interval : Interval} {earlier : List Interval} {o : Open}

/-- Evidence resumes at the boundary, which the new interval starts with. -/
def resumption (s : Aggregate) (interval : Interval) (earlier : List Interval) (b : Boundary) :
    Aggregate :=
  (((restart { s with intervals := { interval with complete := false } :: earlier } .evidenceResumed
    interval.participants b.at_).noted b).start b)

/-- The new interval has the same participants, so the boundary starts it. -/
theorem resumed_again (hs : s.intervals = interval :: earlier)
    (htakes : takes s.stage interval.participants b = true) :
    (match s.resumed b with
      | none => some (none, s)
      | some r => observeWithin 0 r b) = some (none, s.resumption interval earlier b) := by
  rw [resumed_eq hs]
  simp only
  rw [observeWithin, observeBody_of_closed _ rfl]
  exact if_pos htakes

/-- What is made of a boundary, with what it calls to resume. -/
theorem observeBody_eq (resume : Aggregate → Boundary → Option (Option Window × Aggregate))
    (hstalled : b.stalled = false) (hs : s.intervals = interval :: earlier) :
    observeBody resume s b =
      if takes s.stage interval.participants b then
        match s.opened with
        | none => some (none, (s.noted b).start b)
        | some o =>
          match Measure.window s.stage interval.participants o.last b with
          | .error .broken => resume (s.noted b) b
          | .error .stale => some (none, s.noted b)
          | .ok sample =>
            if b.last = false ∨ sample.all.all fun component => 0 < component.bytes then
              match Measure.window s.stage interval.participants o.first b with
              | .error _ => resume (s.noted b) b
              | .ok full => some (some sample, (s.noted b).extend interval earlier o b sample full)
            else some (none, s.noted b)
      else some (none, s.noted b) := by
  have hnoted : (s.noted b).intervals = interval :: earlier := hs
  unfold observeBody
  simp only [hstalled, Bool.false_eq_true, and_false, if_false, hnoted, window_current hnoted]
  rfl

/-- Where the boundary has no reading the participants need, it is only noted. -/
theorem observe_incomplete (hstalled : b.stalled = false) (hs : s.intervals = interval :: earlier)
    (htakes : takes s.stage interval.participants b = false) : (s.observe b).2 = s.noted b := by
  rw [observe, observeWithin, observeBody_eq _ hstalled hs, htakes]
  rfl

/-- The first boundary that all take opens the interval. -/
theorem observe_first (hstalled : b.stalled = false) (hs : s.intervals = interval :: earlier)
    (htakes : takes s.stage interval.participants b = true) (ho : s.opened = none) :
    (s.observe b).2 = (s.noted b).start b := by
  rw [observe, observeWithin, observeBody_eq _ hstalled hs, if_pos htakes, ho]
  rfl

/-- Where a counter fell or is gone, evidence resumes at the boundary. -/
theorem observe_broken (hstalled : b.stalled = false) (hs : s.intervals = interval :: earlier)
    (htakes : takes s.stage interval.participants b = true) (ho : s.opened = some o)
    (hwindow : Measure.window s.stage interval.participants o.last b = .error .broken) :
    (s.observe b).2 = (s.noted b).resumption interval earlier b := by
  have hnoted : (s.noted b).intervals = interval :: earlier := hs
  rw [observe, observeWithin, observeBody_eq _ hstalled hs, if_pos htakes, ho]
  simp only [hwindow]
  exact congrArg (fun result => (Option.getD result (none, s)).2) (resumed_again hnoted htakes)

/-- Where nobody's clock went on, nothing is measured. -/
theorem observe_stale (hstalled : b.stalled = false) (hs : s.intervals = interval :: earlier)
    (htakes : takes s.stage interval.participants b = true) (ho : s.opened = some o)
    (hwindow : Measure.window s.stage interval.participants o.last b = .error .stale) :
    (s.observe b).2 = s.noted b := by
  rw [observe, observeWithin, observeBody_eq _ hstalled hs, if_pos htakes, ho]
  simp only [hwindow]
  rfl

/-- A final boundary where a component moved no bytes is skipped. -/
theorem observe_unmoved (hstalled : b.stalled = false) (hs : s.intervals = interval :: earlier)
    (htakes : takes s.stage interval.participants b = true) (ho : s.opened = some o)
    {sample : Window} (hwindow : Measure.window s.stage interval.participants o.last b = .ok sample)
    (hlast : ¬ (b.last = false ∨ sample.all.all fun component => 0 < component.bytes)) :
    (s.observe b).2 = s.noted b := by
  rw [observe, observeWithin, observeBody_eq _ hstalled hs, if_pos htakes, ho]
  simp only [hwindow, if_neg hlast]
  rfl

/-- Otherwise the window since the last boundary extends the interval. -/
theorem observe_extended (hstalled : b.stalled = false) (hs : s.intervals = interval :: earlier)
    (htakes : takes s.stage interval.participants b = true) (ho : s.opened = some o)
    {sample full : Window}
    (hwindow : Measure.window s.stage interval.participants o.last b = .ok sample)
    (hlast : b.last = false ∨ sample.all.all fun component => 0 < component.bytes)
    (hfull : Measure.window s.stage interval.participants o.first b = .ok full) :
    (s.observe b).2 = (s.noted b).extend interval earlier o b sample full := by
  rw [observe, observeWithin, observeBody_eq _ hstalled hs, if_pos htakes, ho]
  simp only [hwindow, if_pos hlast, hfull]
  rfl

end Latest

/-! ## Dropping out -/

/-- Everything `dropout` can do. -/
inductive Dropped (s : Aggregate) (survivors : List ServerId) (at_ : ℕ) : Aggregate → Prop
  | idle : Dropped s survivors at_ s
  /-- No departed server ever moved: the survivors' interval starts now. -/
  | restarted (interval : Interval) (earlier : List Interval)
      (hintervals : s.intervals = interval :: earlier)
      (hmark : s.departure interval.participants survivors = none) :
      Dropped s survivors at_ (s.restart .dropout survivors at_)
  /-- Nobody survives. -/
  | cut (interval : Interval) (earlier : List Interval) (mark : Mark)
      (hintervals : s.intervals = interval :: earlier)
      (hmark : s.departure interval.participants survivors = some mark) :
      Dropped s survivors at_ (s.cut interval earlier mark)
  | survived (interval : Interval) (earlier : List Interval) (mark : Mark)
      (hintervals : s.intervals = interval :: earlier)
      (hmark : s.departure interval.participants survivors = some mark) (hsome : survivors ≠ []) :
      Dropped s survivors at_
        (((s.cut interval earlier mark).restart .dropout survivors mark.boundary.at_).start
          mark.boundary)
  /-- The latest boundary is observed again in the survivors' interval. -/
  | replayed (interval : Interval) (earlier : List Interval) (mark : Mark) (latest : Boundary)
      (hintervals : s.intervals = interval :: earlier)
      (hmark : s.departure interval.participants survivors = some mark) (hsome : survivors ≠ [])
      (hlatest : s.latest = some latest) (hlater : mark.boundary.at_ < latest.at_) :
      Dropped s survivors at_
        ((((s.cut interval earlier mark).restart .dropout survivors mark.boundary.at_).start
          mark.boundary).observe latest).2

/-- Everything that a dropout can do. -/
theorem dropout_cases (s : Aggregate) (survivors : List ServerId) (at_ : ℕ) :
    Dropped s survivors at_ (s.dropout survivors at_) := by
  rw [dropout]
  split
  case h_1 => exact .idle
  case h_2 interval earlier hintervals =>
    by_cases hlen : survivors.length = interval.participants.length
    · rw [if_pos hlen]
      exact .idle
    rw [if_neg hlen]
    split
    case h_1 hmark =>
      split_ifs with hsome
      · exact .idle
      · exact .restarted interval earlier hintervals hmark
    case h_2 mark hmark =>
      by_cases hsome : survivors = []
      · rw [if_pos hsome]
        exact .cut interval earlier mark hintervals hmark
      simp only [if_neg hsome]
      split
      case h_1 => exact .survived interval earlier mark hintervals hmark hsome
      case h_2 latest hlatest =>
        obtain ⟨hlatest, hlater⟩ := Option.filter_eq_some_iff.mp hlatest
        rw [start_latest] at hlatest
        exact .replayed interval earlier mark latest hintervals hmark hsome hlatest
          (by simpa using hlater)

/-- A dropout leaves the latest boundary. -/
theorem dropout_latest (s : Aggregate) (survivors : List ServerId) (at_ : ℕ) :
    (s.dropout survivors at_).latest = s.latest := by
  have hdropped := dropout_cases s survivors at_
  generalize s.dropout survivors at_ = t at hdropped
  cases hdropped with
  | idle => rfl
  | restarted => rfl
  | cut => rfl
  | survived => exact start_latest _ _
  | replayed interval earlier mark latest hintervals hmark hsome hlatest =>
    rw [observe_latest, hlatest]

/-- A dropout leaves the stage. -/
theorem dropout_stage (s : Aggregate) (survivors : List ServerId) (at_ : ℕ) :
    (s.dropout survivors at_).stage = s.stage := by
  have hdropped := dropout_cases s survivors at_
  generalize s.dropout survivors at_ = t at hdropped
  cases hdropped with
  | idle => rfl
  | restarted => rfl
  | cut => rfl
  | survived => exact start_stage _ _
  | replayed => exact (observe_stage _ _).trans (start_stage _ _)

/-- No call changes the stage. -/
theorem calls_stage (calls : List Call) (s : Aggregate) : (calls.foldl call s).stage = s.stage := by
  induction calls generalizing s with
  | nil => rfl
  | cons c calls ih =>
    rw [List.foldl_cons, ih]
    cases c with
    | observe b => exact observe_stage s b
    | dropout survivors at_ => exact dropout_stage s survivors at_

/-- A dropout's mark is one of the open interval's. -/
theorem departure_mem {participants survivors : List ServerId} {mark : Mark}
    (h : s.departure participants survivors = some mark) :
    ∃ o moved direction, s.opened = some o ∧ moved ∈ o.moved ∧
      Dir.get moved direction = some mark := by
  have hmem := List.argmin_mem h
  obtain ⟨⟨id, moved⟩, hp, hmark⟩ := List.mem_flatMap.mp hmem
  have hmoved := (List.of_mem_zip (List.mem_filter.mp hp).1).2
  match hopened : s.opened with
  | none =>
    rw [hopened] at hmoved
    cases hmoved
  | some o =>
    rw [hopened] at hmoved
    rcases List.mem_append.mp hmark with hmark | hmark
    · exact ⟨o, moved, .down, rfl, hmoved, Option.mem_toList.mp hmark⟩
    · exact ⟨o, moved, .up, rfl, hmoved, Option.mem_toList.mp hmark⟩

/-! ## Membership -/

/-- The participants of the latest interval. -/
def participants (s : Aggregate) : List ServerId := s.intervals.head?.elim [] Interval.participants

@[simp]
theorem restart_participants (s : Aggregate) (reason : Reason) (survivors : List ServerId) (at_ : ℕ) :
    (s.restart reason survivors at_).participants = survivors := rfl

@[simp]
theorem start_participants (s : Aggregate) (b : Boundary) :
    (s.start b).participants = s.participants := by
  rw [start]
  split
  case h_1 => rfl
  case h_2 interval earlier hintervals =>
    rw [participants, participants, hintervals]
    rfl

/-- Resuming leaves the participants. -/
theorem resumed_participants (h : s.resumed b = some r) : r.participants = s.participants := by
  rw [resumed] at h
  split at h
  case h_1 => cases h
  case h_2 interval earlier hintervals =>
    cases h
    rw [participants, participants, hintervals]
    rfl

/-- An observation keeps the membership. -/
theorem observe_participants (s : Aggregate) (b : Boundary) :
    (s.observe b).2.participants = s.participants := by
  have hnoted : (s.noted b).participants = s.participants := rfl
  have hobserved := observe_cases s b
  generalize s.observe b = result at hobserved
  obtain ⟨sample, t⟩ := result
  cases hobserved with
  | skipped => exact hnoted
  | started => exact start_participants _ _
  | extended interval earlier o sample full hintervals =>
    rw [← hnoted, participants, participants, hintervals]
    rfl
  | waiting r hresumed =>
    have hr : (r.noted b).participants = r.participants := rfl
    exact hr.trans ((resumed_participants hresumed).trans hnoted)
  | resumed r interval earlier hresumed =>
    have hr : (r.noted b).participants = r.participants := rfl
    exact (start_participants _ _).trans (hr.trans ((resumed_participants hresumed).trans hnoted))

/-- **What a dropout leaves**: the survivors, where there are any. -/
theorem dropout_participants {survivors : List ServerId} (at_ : ℕ)
    (hsub : survivors.Sublist s.participants) (hsome : survivors ≠ []) :
    (s.dropout survivors at_).participants = survivors := by
  unfold dropout
  split
  case h_1 hintervals =>
    rw [participants, hintervals] at hsub
    exact absurd (List.sublist_nil.mp hsub) hsome
  case h_2 interval earlier hintervals =>
    have hparticipants : s.participants = interval.participants := by
      rw [participants, hintervals]
      rfl
    split_ifs with hlength
    · -- As many survivors as participants are all of them.
      rw [hparticipants] at hsub ⊢
      exact (hsub.eq_of_length hlength).symm
    split
    case h_1 => exact restart_participants _ _ _ _
    case h_2 mark hmark =>
      simp only
      split
      case h_1 => exact start_participants _ _
      case h_2 latest hlatest =>
        rw [observe_participants]
        exact start_participants _ _

end GraphiteMeter.Measure.Aggregate
