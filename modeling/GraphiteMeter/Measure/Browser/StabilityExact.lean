import GraphiteMeter.Measure.Browser.Stability

/-!
# Rates are exact, and so are their moments

What the calls of a series did is its log. The evidence accepted is a timeline of bytes, each spread
evenly over its milliseconds; the rates are that timeline cut every 250 ms (`Cut`), however the evidence
arrived. `replay` keeps every rate that the moments stand for, and gives back what a mark recorded.
-/

namespace GraphiteMeter.Measure.Browser.RateSeries

open Timeline

/-! ## Calls and their log -/

/-- A series, and the marks taken of it. -/
structure Marked where
  series : RateSeries
  marks : List SeriesMark

inductive Call where
  | observe (bytes ms : Option ℚ)
  | openWindow
  | mark
  | restore (index : ℕ)

inductive Event where
  /-- The evidence of a call, as the series took it. -/
  | took (bytes ms : ℚ)
  | completed (rate : ℚ)
  | opened
  | marked
  | restored (index : ℕ)
deriving DecidableEq

/-- What a call's evidence comes to. -/
def taken (bytes ms : Option ℚ) : List (ℚ × ℚ) :=
  match ms with
  | none => []
  | some ms => if 0 < ms then [(max 0 (bytes.getD 0), ms)] else []

def Marked.step (s : Marked) : Call → Option (Marked × List Event)
  | .observe bytes ms =>
    let (series, rates) := s.series.observe bytes ms
    some ({ s with series }, (taken bytes ms).map (fun x => .took x.1 x.2) ++ rates.map .completed)
  | .openWindow => some ({ s with series := s.series.openWindow }, [.opened])
  | .mark => some ({ s with marks := s.marks ++ [s.series.mark] }, [.marked])
  | .restore index => s.marks[index]?.map fun mark =>
    ({ s with series := s.series.restore mark }, [.restored index])

/-- The evidence of a log. -/
def evidence (log : List Event) : List (ℚ × ℚ) :=
  log.filterMap fun
    | .took bytes ms => some (bytes, ms)
    | _ => none

/-- Every rate completed. -/
def completed (log : List Event) : List ℚ :=
  log.filterMap fun
    | .completed rate => some rate
    | _ => none

/-- The rates that the moments stand for: over all, and over the open window. -/
structure Stood where
  rates : List ℚ
  window : Option (List ℚ)

structure Replay extends Stood where
  marks : List Stood

def Replay.read (r : Replay) : Event → Replay
  | .took _ _ => r
  | .completed rate =>
    { r with rates := r.rates ++ [rate], window := r.window.map (· ++ [rate]) }
  | .opened => { r with window := some [] }
  | .marked => { r with marks := r.marks ++ [r.toStood] }
  | .restored index =>
    match r.marks[index]? with
    | some stood => { r with toStood := stood }
    | none => r

def replay (log : List Event) : Replay := log.foldl Replay.read ⟨⟨[], none⟩, []⟩

/-- Two logs are replayed one after the other. -/
theorem replay_append (log events : List Event) :
    replay (log ++ events) = events.foldl Replay.read (replay log) := List.foldl_append

/-! ## Cutting a timeline -/

/-- The rates from `a` to `b`, one for each bucket: a bucket spans 250 ms, or less by no more than the
tolerance, and its rate is its bytes over 250 ms. -/
def Cut (tl : List (ℚ × ℚ)) : ℚ → List ℚ → ℚ → Prop
  | a, [], b => a = b
  | a, rate :: rates, b => ∃ c, bucketMs - tolerance ≤ c - a ∧ c - a ≤ bucketMs ∧
    rate = (since a 0 tl - since c 0 tl) * 1000 / bucketMs ∧ Cut tl c rates b

variable {tl later : List (ℚ × ℚ)} {a b c : ℚ} {rates rates' : List ℚ}

/-- A cut of the timeline goes forward. -/
theorem Cut.le (h : Cut tl a rates b) : a ≤ b := by
  induction rates generalizing a with
  | nil => exact le_of_eq h
  | cons rate rates ih =>
    obtain ⟨c, hlo, -, -, hrest⟩ := h
    have := ih hrest
    have := tolerance_lt
    linarith

/-- Two cuts that meet are one. -/
theorem Cut.append (h : Cut tl a rates b) (h' : Cut tl b rates' c) : Cut tl a (rates ++ rates') c := by
  induction rates generalizing a with
  | nil => exact h.symm ▸ h'
  | cons rate rates ih =>
    obtain ⟨d, hlo, hhi, hrate, hrest⟩ := h
    exact ⟨d, hlo, hhi, hrate, ih hrest⟩

/-- Later evidence changes no rate before it. -/
theorem Cut.extend (h : Cut tl a rates b) (hpos : Positive later) (hb : b ≤ elapsed tl) :
    Cut (tl ++ later) a rates b := by
  induction rates generalizing a with
  | nil => exact h
  | cons rate rates ih =>
    obtain ⟨c, hlo, hhi, hrate, hrest⟩ := h
    have hc : c ≤ elapsed tl := hrest.le.trans hb
    have ha : a ≤ elapsed tl := by
      have := tolerance_lt
      linarith
    refine ⟨c, hlo, hhi, ?_, ih hrest⟩
    rw [since_append_of_ge hpos (by rwa [zero_add]), since_append_of_ge hpos (by rwa [zero_add]), hrate,
      add_sub_add_right_eq_sub]

/-- Where the bytes from each time on are the same, so are the rates. -/
theorem Cut.congr (h : Cut tl a rates b) (hsince : ∀ t, since t 0 later = since t 0 tl) :
    Cut later a rates b := by
  induction rates generalizing a with
  | nil => exact h
  | cons rate rates ih =>
    obtain ⟨c, hlo, hhi, hrate, hrest⟩ := h
    exact ⟨c, hlo, hhi, by rw [hsince, hsince, hrate], ih hrest⟩

/-- The rates cut the bytes up. -/
theorem Cut.sum_eq (h : Cut tl a rates b) :
    rates.sum * bucketMs / 1000 = since a 0 tl - since b 0 tl := by
  induction rates generalizing a with
  | nil =>
    obtain rfl : a = b := h
    simp
  | cons rate rates ih =>
    obtain ⟨c, -, -, hrate, hrest⟩ := h
    rw [List.sum_cons, add_mul, add_div, ih hrest, hrate, bucketMs_eq]
    ring

/-! ## The loop -/

/-- The rates so far cut the evidence so far, and what is left is in the open bucket. -/
structure Filled (tl : List (ℚ × ℚ)) (rates : List ℚ) (s : RateSeries) : Prop where
  positive : Positive tl
  cut : ∃ c, Cut tl 0 rates c ∧ elapsed tl = c + s.filling.ms ∧ since c 0 tl = s.filling.bytes

/-- Two spans of one rate may be one. -/
theorem Filled.merge {s : RateSeries} {w w' d d' : ℚ}
    (h : Filled (tl ++ [(w, d), (w', d')]) rates s) (hrate : w * d' = w' * d) :
    Filled (tl ++ [(w + w', d + d')]) rates s := by
  obtain ⟨c, hcut, hms, hbytes⟩ := h.cut
  have hd : 0 < d := h.positive (w, d) (by simp)
  have hd' : 0 < d' := h.positive (w', d') (by simp)
  have hsince : ∀ t, since t 0 (tl ++ [(w + w', d + d')]) = since t 0 (tl ++ [(w, d), (w', d')]) := by
    intro t
    rw [since_append, since_append, since_merge hd hd' hrate]
  have helapsed : elapsed (tl ++ [(w + w', d + d')]) = elapsed (tl ++ [(w, d), (w', d')]) := by simp
  refine ⟨fun x hx => ?_, c, hcut.congr hsince, helapsed.trans hms, (hsince c).trans hbytes⟩
  rcases List.mem_append.mp hx with hx | hx
  · exact h.positive x (List.mem_append_left _ hx)
  · obtain rfl := List.mem_singleton.mp hx
    exact add_pos hd hd'

/-- A turn of the loop that leaves the bucket open takes all that is left. -/
theorem take_eq_of_short {b : Filling} {ms : ℚ} (hshort : b.ms + b.take ms < bucketMs - tolerance) :
    b.take ms = ms := by
  refine min_eq_right (le_of_not_ge fun hge => ?_)
  have := tolerance_pos
  rw [Filling.take, min_eq_left hge] at hshort
  linarith

/-- A span that fits whole gives all its bytes. -/
theorem part_of_take {b : Filling} {bytes ms : ℚ} (hms : 0 < ms) (h : b.take ms = ms) :
    b.part bytes ms = bytes := by
  rw [Filling.part, h, mul_div_cancel_right₀ _ hms.ne']

/-- A span without time fills nothing. -/
theorem fill_of_not_pos (s : RateSeries) (bytes : ℚ) {ms : ℚ} (h : ¬0 < ms) :
    s.fill bytes ms = (s, []) := by
  rw [fill, dif_neg h]

/-- One more span with time. -/
theorem positive_concat {ms : ℚ} (h : Positive tl) (bytes : ℚ) (hms : 0 < ms) :
    Positive (tl ++ [(bytes, ms)]) :=
  h.append (by simpa [Positive] using hms)

/-- Evidence goes into the bucket. -/
theorem Filled.into {s : RateSeries} {ms : ℚ} (h : Filled tl rates s) (bytes : ℚ) (hms : 0 < ms) :
    ∃ c, Cut (tl ++ [(bytes, ms)]) 0 rates c ∧
      elapsed (tl ++ [(bytes, ms)]) = c + (s.filling.ms + ms) ∧
      since c 0 (tl ++ [(bytes, ms)]) = s.filling.bytes + bytes := by
  obtain ⟨c, hcut, hend, hbytes⟩ := h.cut
  have hpos : Positive [(bytes, ms)] := by simpa [Positive] using hms
  have hc : c ≤ elapsed tl := by
    have := s.filling.nonneg
    linarith
  refine ⟨c, hcut.extend hpos hc, ?_, ?_⟩
  · rw [elapsed_append, hend]
    simp [add_assoc]
  · rw [since_append_of_ge hpos (by rwa [zero_add]), hbytes]
    simp

/-- A span that fits goes into the filling. -/
theorem Filled.pour {s : RateSeries} {bytes ms : ℚ} (h : Filled tl rates s) (hms : 0 < ms)
    (hshort : s.filling.ms + s.filling.take ms < bucketMs - tolerance) :
    Filled (tl ++ [(bytes, ms)]) rates (s.pour bytes hms hshort) := by
  have htake := take_eq_of_short hshort
  obtain ⟨c, hcut, hend, hbytes⟩ := h.into bytes hms
  refine ⟨positive_concat h.positive bytes hms, c, hcut, ?_, ?_⟩
  · exact hend.trans (congrArg (fun x => c + (s.filling.ms + x)) htake.symm)
  · exact hbytes.trans (congrArg (s.filling.bytes + ·) (part_of_take hms htake).symm)

/-- A span that does not completes the bucket. -/
theorem Filled.turn {s : RateSeries} {ms : ℚ} (h : Filled tl rates s) (bytes : ℚ) (hms : 0 < ms)
    (hfull : ¬s.filling.ms + s.filling.take ms < bucketMs - tolerance) :
    Filled (tl ++ [(s.filling.part bytes ms, s.filling.take ms)])
      (rates ++ [(s.filling.bytes + s.filling.part bytes ms) * 1000 / bucketMs]) (s.turn bytes ms) := by
  have hle : s.filling.take ms ≤ bucketMs - s.filling.ms := min_le_left _ _
  obtain ⟨c, hcut, hend, hbytes⟩ := h.into (s.filling.part bytes ms) (Filling.take_pos hms)
  have hpos := positive_concat h.positive (s.filling.part bytes ms)
    (Filling.take_pos (b := s.filling) hms)
  refine ⟨hpos, _, hcut.append ⟨_, ?_, ?_, ?_, rfl⟩, (add_zero _).symm,
    since_eq_zero hpos (zero_add _).le⟩
  · linarith
  · linarith
  · rw [hbytes, since_eq_zero hpos (zero_add _).le, sub_zero]

/-- **The loop cuts the evidence on.** -/
theorem Filled.fill {s : RateSeries} {bytes ms : ℚ} (h : Filled tl rates s) (hms : 0 < ms) :
    Filled (tl ++ [(bytes, ms)]) (rates ++ (s.fill bytes ms).2) (s.fill bytes ms).1 := by
  induction s, bytes, ms using RateSeries.fill.induct generalizing tl rates with
  | case1 s bytes ms hpos hshort _ =>
    have hleft := sub_nonpos.mpr (take_eq_of_short hshort).ge
    rw [RateSeries.fill, dif_pos hpos, dif_pos hshort, fill_of_not_pos _ _ hleft.not_gt,
      List.append_nil]
    exact h.pour hms hshort
  | case2 s bytes ms hpos hfull ih =>
    have hturn := h.turn bytes hms hfull
    rw [RateSeries.fill, dif_pos hpos, dif_neg hfull]
    rcases (s.filling.take_le ms).lt_or_eq with hlt | heq
    · -- the rest goes on at the same rate
      have hrest := ih hturn (sub_pos.mpr hlt)
      rw [List.append_assoc, List.append_assoc] at hrest
      have hmerged := hrest.merge (by
        rw [Filling.part]
        field_simp)
      rwa [add_sub_cancel, add_sub_cancel] at hmerged
    · rw [part_of_take hms heq, heq] at hturn
      rw [part_of_take hms heq, heq, fill_of_not_pos _ _ (sub_self ms).le.not_gt]
      exact hturn
  | case3 s bytes ms hpos => exact absurd hms hpos

/-! ## The moments -/

/-- The series is what completing `rates` makes of another, but for its open bucket. -/
structure Completes (s : RateSeries) (rates : List ℚ) (t : RateSeries) : Prop where
  keep : t.keep = s.keep
  all : t.all = rates.foldl Moments.add s.all
  window : t.window = s.window.map (rates.foldl Moments.add)
  recent : t.recent = rates.foldl (push s.keep) s.recent

/-- Nothing completes. -/
theorem Completes.nil (s : RateSeries) : Completes s [] s := ⟨rfl, rfl, Option.map_id'.symm, rfl⟩

/-- A bucket is completed, and then the rest. -/
theorem Completes.cons {s t : RateSeries} {bytes ms : ℚ} (h : Completes (s.turn bytes ms) rates t) :
    Completes s ((s.filling.bytes + s.filling.part bytes ms) * 1000 / bucketMs :: rates) t :=
  ⟨h.keep, h.all, h.window.trans (Option.map_map _ _ _), h.recent⟩

/-- Everything that filling can complete. -/
theorem fill_completes (s : RateSeries) (bytes ms : ℚ) :
    Completes s (s.fill bytes ms).2 (s.fill bytes ms).1 := by
  induction s, bytes, ms using fill.induct with
  | case1 s bytes ms hpos hshort ih =>
    rw [fill, dif_pos hpos, dif_pos hshort]
    exact ⟨ih.keep, ih.all, ih.window, ih.recent⟩
  | case2 s bytes ms hpos hfull ih =>
    rw [fill, dif_pos hpos, dif_neg hfull]
    exact ih.cons
  | case3 s bytes ms hpos =>
    rw [fill_of_not_pos s bytes hpos]
    exact .nil s

/-- Moments of a longer list. -/
theorem of_foldl (l : List ℚ) : rates.foldl Moments.add (.of l) = .of (l ++ rates) :=
  (Moments.of_append l rates).symm

/-- A series keeps the latest of what it pushed. -/
theorem foldl_push (keep : ℕ) (l rates : List ℚ) :
    rates.foldl (push keep) (l.drop (l.length - keep))
      = (l ++ rates).drop ((l ++ rates).length - keep) := by
  induction rates generalizing l with
  | nil => rw [List.append_nil, List.foldl_nil]
  | cons rate rates ih =>
    have hpush : push keep (l.drop (l.length - keep)) rate
        = (l ++ [rate]).drop ((l ++ [rate]).length - keep) := by
      rw [push]
      split_ifs with hkeep hlong
      · rw [hkeep, Nat.sub_zero, Nat.sub_zero, List.drop_length, List.drop_length]
      all_goals
        rw [List.length_append, List.length_drop, List.length_singleton] at hlong
        rw [← List.drop_append_of_le_length (Nat.sub_le _ _), List.length_append, List.length_singleton]
      · rw [← List.drop_one, List.drop_drop]
        congr 1
        omega
      · congr 1
        omega
    rw [List.foldl_cons, hpush, ih, List.append_assoc, List.singleton_append]

/-! ## A run -/

/-- What a log says of the series and its marks. -/
structure Logged (keep : ℕ) (log : List Event) (s : Marked) : Prop where
  kept : s.series.keep = keep
  filled : Filled (evidence log) (completed log) s.series
  all : s.series.all = .of (replay log).rates
  window : s.series.window = (replay log).window.map .of
  recent : s.series.recent = (completed log).drop ((completed log).length - keep)
  marks : s.marks = (replay log).marks.map fun stood => ⟨.of stood.rates, stood.window.map .of⟩

/-- The log of evidence. -/
theorem replay_took (log : List Event) (tl : List (ℚ × ℚ)) (rates : List ℚ) :
    replay (log ++ (tl.map (fun x => Event.took x.1 x.2) ++ rates.map .completed))
      = ⟨⟨(replay log).rates ++ rates, (replay log).window.map (· ++ rates)⟩, (replay log).marks⟩ := by
  have htook : ∀ r : Replay, (tl.map fun x => Event.took x.1 x.2).foldl Replay.read r = r := by
    intro r
    induction tl with
    | nil => rfl
    | cons x tl ih => exact ih
  rw [replay_append, List.foldl_append, htook]
  generalize replay log = r
  induction rates generalizing r with
  | nil => simp
  | cons rate rates ih =>
    rw [List.map_cons, List.foldl_cons, ih, Replay.read]
    simp [Function.comp_def]

/-- The evidence of what was taken. -/
theorem evidence_took (tl : List (ℚ × ℚ)) (rates : List ℚ) :
    evidence (tl.map (fun x => Event.took x.1 x.2) ++ rates.map .completed) = tl := by
  simp [evidence, List.filterMap_append, List.filterMap_map]

/-- The rates that were completed. -/
theorem completed_took (tl : List (ℚ × ℚ)) (rates : List ℚ) :
    completed (tl.map (fun x => Event.took x.1 x.2) ++ rates.map .completed) = rates := by
  simp [completed, List.filterMap_append, List.filterMap_map]

/-- The evidence of two logs. -/
theorem evidence_append (log events : List Event) :
    evidence (log ++ events) = evidence log ++ evidence events := List.filterMap_append

/-- The completed rates of two logs. -/
theorem completed_append (log events : List Event) :
    completed (log ++ events) = completed log ++ completed events := List.filterMap_append

/-- **One observation** completes the buckets that its span ends. -/
theorem observe_spec (s : RateSeries) (bytes ms : Option ℚ) :
    Completes s (s.observe bytes ms).2 (s.observe bytes ms).1 ∧
      (Filled tl rates s → Filled (tl ++ taken bytes ms) (rates ++ (s.observe bytes ms).2)
        (s.observe bytes ms).1) := by
  cases ms with
  | none =>
    refine ⟨.nil s, fun h => ?_⟩
    rw [taken, observe, List.append_nil, List.append_nil]
    exact h
  | some ms =>
    refine ⟨fill_completes s _ ms, fun h => ?_⟩
    rw [taken, observe]
    split_ifs with hpos
    · exact h.fill hpos
    · rw [fill_of_not_pos _ _ hpos, List.append_nil, List.append_nil]
      exact h

namespace Logged

variable {keep : ℕ} {log : List Event} {s t : Marked}

/-- A new series has logged nothing. -/
theorem new (keep : ℕ) : Logged keep [] ⟨.new keep, []⟩ where
  kept := rfl
  filled := ⟨fun _ hx => absurd hx List.not_mem_nil, 0, rfl, (add_zero _).symm, rfl⟩
  all := rfl
  window := rfl
  recent := List.drop_nil.symm
  marks := rfl

/-- An observation logs its span and the rates it completed. -/
theorem observe (h : Logged keep log s) (bytes ms : Option ℚ) :
    Logged keep (log ++ ((taken bytes ms).map (fun x => .took x.1 x.2) ++
      (s.series.observe bytes ms).2.map .completed))
      { s with series := (s.series.observe bytes ms).1 } := by
  obtain ⟨hcompletes, hfilled⟩ := @observe_spec (evidence log) (completed log) s.series bytes ms
  constructor
  · exact hcompletes.keep.trans h.kept
  · rw [evidence_append, completed_append, evidence_took, completed_took]
    exact hfilled h.filled
  · rw [replay_took, hcompletes.all, h.all, of_foldl]
  · rw [replay_took, hcompletes.window, h.window, Option.map_map, Option.map_map]
    exact congrArg (Option.map · _) (funext fun l => of_foldl l)
  · rw [completed_append, completed_took, hcompletes.recent, h.kept, h.recent, foldl_push]
  · rw [replay_took]
    exact h.marks

/-- A call that neither takes evidence nor completes a rate. -/
theorem quiet (h : Logged keep log s) {event : Event} (hfilled : t.series.filling = s.series.filling)
    (hkeep : t.series.keep = s.series.keep) (hrecent : t.series.recent = s.series.recent)
    (hevidence : evidence [event] = []) (hcompleted : completed [event] = [])
    (hall : t.series.all = .of ((replay log).read event).rates)
    (hwindow : t.series.window = ((replay log).read event).window.map .of)
    (hmarks : t.marks = ((replay log).read event).marks.map fun stood =>
      ⟨.of stood.rates, stood.window.map .of⟩) : Logged keep (log ++ [event]) t where
  kept := hkeep.trans h.kept
  filled := by
    rw [evidence_append, completed_append, hevidence, hcompleted, List.append_nil, List.append_nil]
    exact ⟨h.filled.positive, hfilled ▸ h.filled.cut⟩
  all := by rw [replay_append]; exact hall
  window := by rw [replay_append]; exact hwindow
  recent := by rw [completed_append, hcompleted, List.append_nil, hrecent, h.recent]
  marks := by rw [replay_append]; exact hmarks

/-- A restored mark logs itself. -/
theorem restore (h : Logged keep log s) {index : ℕ} {mark : SeriesMark} (hmark : s.marks[index]? = some mark) :
    Logged keep (log ++ [.restored index]) { s with series := s.series.restore mark } := by
  rw [h.marks, List.getElem?_map] at hmark
  obtain ⟨stood, hstood, rfl⟩ := Option.map_eq_some_iff.mp hmark
  refine h.quiet rfl rfl rfl rfl rfl ?_ ?_ ?_ <;> rw [Replay.read, hstood]
  · rfl
  · rfl
  · exact h.marks

/-- **One step** keeps the series and its log together. -/
theorem step (h : Logged keep log s) {call : Call} {events : List Event}
    (hstep : s.step call = some (t, events)) : Logged keep (log ++ events) t := by
  cases call with
  | observe bytes ms =>
    cases hstep
    exact h.observe bytes ms
  | openWindow =>
    cases hstep
    exact h.quiet rfl rfl rfl rfl rfl h.all rfl h.marks
  | mark =>
    cases hstep
    refine h.quiet rfl rfl rfl rfl rfl h.all h.window ?_
    rw [Replay.read, List.map_append, h.marks, RateSeries.mark, h.all, h.window]
    rfl
  | restore index =>
    obtain ⟨mark, hmark, heq⟩ := Option.map_eq_some_iff.mp hstep
    cases heq
    exact h.restore hmark

end Logged

/-- What the open window's moments promise is a promise about its rates. -/
theorem mayFinish_iff {s : RateSeries} {w : List ℚ} (h : s.window = some (.of w)) :
    transferMayFinish s.windowError ↔ transferSamples ≤ w.length ∧ 0 < w.sum ∧
      (w.map fun x => (x - w.sum / w.length) ^ 2).sum / (w.length - 1) / w.length
        < (standardError * (w.sum / w.length)) ^ 2 := by
  rw [transferMayFinish, decide_eq_true_iff, windowError, h]
  simp only [Moments.count_of]
  rcases lt_or_ge w.length transferSamples with hlength | hlength
  · exact iff_of_false (fun hw => hlength.not_ge hw.1) fun hw => hlength.not_ge hw.1
  have htwo : 2 ≤ w.length := le_trans (by decide) hlength
  have hpos : (0 : ℚ) < w.length := by exact_mod_cast (by omega : 0 < w.length)
  have hmean : (Moments.of w).mean = w.sum / w.length :=
    Moments.mean_eq (List.length_pos_iff.mp (by omega))
  have hsum : 0 < w.sum / w.length ↔ 0 < w.sum := by
    rw [lt_div_iff₀ hpos, zero_mul]
  rw [Moments.squares_eq, hmean]
  by_cases hw : 0 < w.sum
  · have hsq : 0 < (w.sum / w.length) ^ 2 := pow_pos (hsum.mpr hw) 2
    rw [if_neg (not_or.mpr ⟨htwo.not_gt, not_not.mpr (hsum.mpr hw)⟩), Option.any_some, decide_eq_true_iff,
      div_lt_iff₀ hsq, ← mul_pow]
    exact and_congr_right fun _ => (and_iff_right hw).symm
  · rw [if_pos (Or.inr (mt hsum.mp hw))]
    exact iff_of_false (fun h => Bool.false_ne_true h.2) fun h => hw h.2.1

/-- **The rate series.** After any calls, the rates cut the evidence taken every 250 ms, to the
tolerance, and none of its bytes is lost; the moments over all rates and over the open window are those
of the rates that `replay` keeps; the latest `keep` rates are kept; and the steady window is within its
promise exactly if the standard error of the mean of its rates is. -/
theorem rate_series (keep : ℕ) (calls : List Call) {s : Marked} {log : List Event}
    (hrun : Machine.run Marked.step ⟨.new keep, []⟩ calls = some (s, log)) :
    (∃ c, Cut (evidence log) 0 (completed log) c ∧
      elapsed (evidence log) = c + s.series.filling.ms ∧
      since c 0 (evidence log) = s.series.filling.bytes) ∧
    (completed log).sum * bucketMs / 1000 + s.series.filling.bytes = weight (evidence log) ∧
    s.series.all = .of (replay log).rates ∧
    s.series.window = (replay log).window.map .of ∧
    s.series.recent = (completed log).drop ((completed log).length - keep) ∧
    (transferMayFinish s.series.windowError ↔ ∃ w, (replay log).window = some w ∧
      transferSamples ≤ w.length ∧ 0 < w.sum ∧
      (w.map fun x => (x - w.sum / w.length) ^ 2).sum / (w.length - 1) / w.length
        < (standardError * (w.sum / w.length)) ^ 2) := by
  have h : Logged keep log s :=
    Machine.run_induct (Logged keep) (fun _ _ _ _ _ h hstep => h.step hstep) (.new keep) hrun
  obtain ⟨c, hcut, hend, hbytes⟩ := h.filled.cut
  refine ⟨⟨c, hcut, hend, hbytes⟩, ?_, h.all, h.window, h.recent, ?_⟩
  · rw [hcut.sum_eq, hbytes, sub_add_cancel, since_of_le h.filled.positive le_rfl]
  · have hwindow := h.window
    cases hw : (replay log).window with
    | none =>
      rw [hw] at hwindow
      rw [transferMayFinish, windowError, hwindow]
      exact iff_of_false Bool.false_ne_true (by rintro ⟨w, hw, -⟩; cases hw)
    | some w =>
      rw [hw] at hwindow
      rw [mayFinish_iff hwindow]
      constructor
      · exact fun hw => ⟨w, rfl, hw⟩
      · rintro ⟨w', hw', hfinish⟩
        cases hw'
        exact hfinish

/-- A window opened, and taken back by a mark from before it. -/
def marking : List Call :=
  [.observe (some 100) (some 300), .mark, .openWindow, .observe (some 30) (some 800), .restore 0]

/-- Spans on both sides of a restored mark: the completed and the filling add up to the evidence. -/
theorem rate_series_marking : ∃ s log, Machine.run Marked.step ⟨.new 2, []⟩ marking = some (s, log) ∧
    (completed log).sum * bucketMs / 1000 + s.series.filling.bytes = weight (evidence log) :=
  ⟨_, _, rfl, (rate_series 2 marking rfl).2.1⟩

end GraphiteMeter.Measure.Browser.RateSeries
