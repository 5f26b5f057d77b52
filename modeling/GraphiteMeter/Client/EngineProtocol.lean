import GraphiteMeter.Client.EngineTurns
import GraphiteMeter.Lib.Machine

/-!
# The protocol of the stage engine

A tick ends with the aggregate told who left and, once nobody is left or the probers drained, with the
end of the stage. `Ticked` is what a whole call does; `Ran` what a run has come to.
-/

namespace GraphiteMeter.Client

open GraphiteMeter.Measure (Aggregate ServerId)

/-! ## The window's crew -/

/-- The members present are the participants of the window's current interval. -/
def Engine.Manned (e : Engine) : Prop :=
  ∀ window, e.window = some window → e.plan.stage.directions ≠ [] → e.remaining ≠ [] →
    ∃ aggregate, window.aggregate = some aggregate ∧ aggregate.participants = e.remaining

/-- Two engines of the same plan, membership and window, in whatever phase. -/
structure Engine.Kin (e e' : Engine) : Prop where
  plan : e'.plan = e.plan
  roster : e'.roster = e.roster
  window : e'.window = e.window

namespace Engine

variable {e e' e'' : Engine} {reached : Phase} {now : ℕ} {out : List Decision}

/-- Engines that are alike are kin. -/
theorem Alike.kin (h : e.Alike e') : e.Kin e' where
  plan := h.plan
  roster := h.roster
  window := by rw [window, window, h.phase]

/-- Kin have the same servers left. -/
theorem Kin.remaining (h : e.Kin e') : e'.remaining = e.remaining := remaining_congr h.roster

/-- Kinship goes on. -/
theorem Kin.trans (h : e.Kin e') (h' : e'.Kin e'') : e.Kin e'' :=
  ⟨h'.plan.trans h.plan, h'.roster.trans h.roster, h'.window.trans h.window⟩

/-- Kin are manned alike. -/
theorem Manned.kin (h : e.Manned) (hkin : e.Kin e') : e'.Manned := by
  rw [Manned, hkin.window, hkin.plan, hkin.remaining]
  exact h

/-- An engine is done once its stage ended. -/
theorem isDone_iff (e : Engine) : e.isDone = true ↔ e.phase.progress = .ended := by
  rw [isDone]
  cases e.phase <;> simp [Phase.progress]

/-! ### Ending -/

/-- Where the window ends it is the same window. -/
theorem takeMeasured_window (e : Engine) (now : ℕ) (stopped : Bool) :
    (Phase.done (e.takeMeasured now) stopped).window = e.window := by
  rw [takeMeasured, window]
  cases e.phase with
  | done measured stopped =>
    cases measured <;> rfl
  | ready | warmup | opening | measuring | draining => rfl

/-- Ending a stage leaves its kin. -/
theorem kin_done (e : Engine) (now : ℕ) (stopped : Bool) :
    e.Kin { e with phase := .done (e.takeMeasured now) stopped } :=
  ⟨rfl, rfl, e.takeMeasured_window now stopped⟩

/-- Nothing but failures that nobody leaves for. -/
def Reports (e : Engine) (out : List Decision) (s : Engine × List Decision) : Prop :=
  e.Alike s.1 ∧ ∃ failures : List ServerFailure, s.2 = out ++ failures.map .failed

/-- Nothing is reported yet. -/
theorem Reports.refl (e : Engine) (out : List Decision) : Reports e out (e, out) :=
  ⟨.refl e, [], (List.append_nil out).symm⟩

/-- A failure is reported. -/
theorem Reports.fail {s : Engine × List Decision} (h : Reports e out s) (index : ℕ) (scope : Scope)
    (cause : Failure) (at_ : ℕ) : Reports e out (s.1.fail index scope cause at_ false s.2) := by
  obtain ⟨halike, failures, heq⟩ := h
  cases hseat : s.1.seats[index]? with
  | none =>
    rw [Engine.fail, hseat]
    exact ⟨halike, failures, heq⟩
  | some seat =>
    refine ⟨halike.trans ⟨fail_phase _ _ _ _ _ _ _, fail_plan _ _ _ _ _ _ _, ?_⟩,
      failures ++ [⟨seat.server, scope, cause, at_⟩], ?_⟩
    · rw [fail_roster hseat, fail_stays_roster]
    · rw [fail_decisions hseat, heq, List.map_append, List.append_assoc]
      rfl

/-- The evidence a member lacks is recorded as a failure it stays for. -/
theorem Reports.insufficient {s : Engine × List Decision} (h : Reports e out s)
    (throughput latency : Bool) (now index : ℕ) :
    Reports e out (Engine.insufficient throughput latency now s.1 s.2 index) := by
  rw [Engine.insufficient]
  cases s.1.seats[index]? with
  | none => exact h
  | some seat => exact List.foldlRecOn _ _ h fun _ hs scope _ => hs.fail index scope.2 _ now

/-- **The end of a stage**: failures that nobody leaves for, then `finish`. -/
theorem finish_spec (e : Engine) (now : ℕ) (out : List Decision) :
    e.Kin (e.finish now out).1 ∧ (e.finish now out).1.isDone = true ∧
      ∃ failures : List ServerFailure,
        (e.finish now out).2 = out ++ failures.map .failed ++ [.finish] := by
  let ended : Engine := { e with phase := .done (e.takeMeasured now) e.stopped }
  have hloop : ∀ throughput latency, Reports ended out
      (ended.forSeats (Engine.insufficient throughput latency now) out) := fun throughput latency =>
    List.foldlRecOn _ _ (.refl ended out) fun _ hs index _ => hs.insufficient _ _ now index
  rw [finish]
  simp only
  obtain ⟨halike, failures, heq⟩ := hloop _ _
  refine ⟨(e.kin_done now e.stopped).trans halike.kin, ?_, failures, ?_⟩
  · rw [isDone_iff, halike.phase]
    rfl
  · rw [heq]

/-- Draining goes on, or the stage is done with the same window. -/
theorem drain_cases (e : Engine) (now : ℕ) :
    e.drain now = e ∨ (e.drain now).isDone = true ∧ e.Kin (e.drain now) := by
  unfold drain
  split
  · split_ifs
    · exact Or.inr ⟨rfl, e.kin_done now false⟩
    · exact Or.inl rfl
  · exact Or.inl rfl

/-- The aggregate changes within the window, wherever the window is. -/
theorem aggregateMut_spec (e : Engine) (change : Aggregate → Aggregate) :
    (e.aggregateMut change).plan = e.plan ∧ (e.aggregateMut change).roster = e.roster ∧
      (e.aggregateMut change).phase.progress = e.phase.progress ∧
      (e.aggregateMut change).window =
        e.window.map fun window => { window with aggregate := window.aggregate.map change } := by
  unfold aggregateMut window
  match hphase : e.phase with
  | .ready | .warmup _ | .opening _ | .done none _ => simp [hphase, Phase.window]
  | .measuring _ _ | .draining _ _ | .done (some _) _ => exact ⟨rfl, rfl, rfl, rfl⟩

/-- Telling the aggregate changes nothing but the window. -/
theorem told_spec (e : Engine) (fewer : Prop) [Decidable fewer] (change : Aggregate → Aggregate) :
    (if fewer then e.aggregateMut change else e).plan = e.plan ∧
      (if fewer then e.aggregateMut change else e).roster = e.roster ∧
      (if fewer then e.aggregateMut change else e).phase.progress = e.phase.progress := by
  obtain ⟨hplan, hroster, hprogress, -⟩ := e.aggregateMut_spec change
  split
  · exact ⟨hplan, hroster, hprogress⟩
  · exact ⟨rfl, rfl, rfl⟩

end Engine

/-! ## Ticks -/

/-- What a call of an engine does to its stage. -/
structure Ticked (start : Engine) (s : Engine × List Decision) : Prop where
  plan : s.1.plan = start.plan
  /-- A stage may also end unsaid, where the user stops it. -/
  protocol : ∃ reached, Progress.run start.phase.progress s.2 = some reached ∧
    (s.1.phase.progress = reached ∨ s.1.phase.progress = .ended)
  shrinks : s.1.remaining.Sublist start.remaining
  left : (leavers s.2 ++ s.1.remaining).Perm start.remaining
  manned : s.1.Manned

namespace Turn

variable {start e : Engine} {reached : Phase} {out : List Decision}

/-- **The aggregate learns who left**: whoever is still there makes up its current interval. -/
theorem manned (h : Turn start reached (e, out)) {e' : Engine} (hkin : e.Kin e') (now : ℕ) :
    Engine.Manned (if e'.remaining.length < start.remaining.length then
      e'.aggregateMut fun aggregate => aggregate.dropout e'.remaining now else e') := by
  have hwindow : e'.window = reached.window := by
    rw [hkin.window, Engine.window, h.phase]
  have hplan : e'.plan = start.plan := hkin.plan.trans h.plan
  have hshrinks : e'.remaining.Sublist start.remaining := hkin.remaining ▸ h.shrinks
  have hcrew : Crewed start.plan.stage start.remaining e'.remaining e'.window := by
    rw [hwindow, hkin.remaining]
    exact h.crew
  split_ifs with hfewer
  · obtain ⟨hsame, hroster, -, hchanged⟩ :=
      e'.aggregateMut_spec fun aggregate => aggregate.dropout e'.remaining now
    have hremaining := Engine.remaining_congr hroster
    intro window hw hmoves hsome
    rw [hchanged] at hw
    obtain ⟨before, hbefore, rfl⟩ := Option.map_eq_some_iff.mp hw
    rw [hsame, hplan] at hmoves
    rw [hremaining] at hsome ⊢
    obtain ⟨aggregate, haggregate, hsub, -⟩ := hcrew before hbefore hmoves hsome
    refine ⟨aggregate.dropout e'.remaining now, ?_, ?_⟩
    · simp only [haggregate, Option.map_some]
    · exact Measure.Aggregate.dropout_participants now hsub hsome
  · intro window hw hmoves hsome
    have hall : e'.remaining = start.remaining :=
      hshrinks.eq_of_length (le_antisymm hshrinks.length_le (not_lt.mp hfewer))
    rw [hplan] at hmoves
    obtain ⟨aggregate, haggregate, hsub, hsurvivors⟩ := hcrew window hw hmoves hsome
    rw [← hall] at hsurvivors
    exact ⟨aggregate, haggregate, hsurvivors.antisymm hsub⟩

/-- The stage ends with its members as they are. -/
theorem finish (h : Turn start reached (e, out)) {told : Engine} (hplan : told.plan = start.plan)
    (hremaining : told.remaining = e.remaining) (hmanned : told.Manned) (now : ℕ) :
    Ticked start (told.finish now out) := by
  obtain ⟨hkin, hdone, failures, hout⟩ := told.finish_spec now out
  have hidle : ∀ d ∈ failures.map Decision.failed, d.idle = true := by
    intro d hd
    obtain ⟨failure, -, rfl⟩ := List.mem_map.mp hd
    rfl
  have hnobody : leavers (failures.map Decision.failed ++ [.finish]) = [] := by
    rw [leavers, List.filterMap_eq_nil_iff]
    intro d hd
    rcases List.mem_append.mp hd with hd | hd
    · obtain ⟨failure, -, rfl⟩ := List.mem_map.mp hd
      rfl
    · rw [List.mem_singleton.mp hd]
      rfl
  have hrun : Progress.run reached.progress (failures.map Decision.failed ++ [.finish])
      = some .ended := by
    rw [Progress.run_append_eq (Progress.run_idle h.alive hidle)]
    exact Progress.run_finish h.alive
  rw [List.append_assoc] at hout
  exact {
    plan := hkin.plan.trans hplan
    protocol := by
      refine ⟨.ended, ?_, Or.inl ((Engine.isDone_iff _).mp hdone)⟩
      rw [hout, Progress.run_append_eq h.protocol]
      exact hrun
    shrinks := by
      rw [hkin.remaining, hremaining]
      exact h.shrinks
    left := by
      rw [hout, leavers_append, hnobody, List.append_nil, hkin.remaining, hremaining]
      exact h.left
    manned := hmanned.kin hkin }

/-- **The end of a tick.** -/
theorem settle (h : Turn start reached (e, out)) (now : ℕ) :
    Ticked start (e.settle start.present.length now out) := by
  have hlength : start.remaining.length = start.present.length := List.length_map _
  have hdrained : (if e.isDraining then e.drain now else e) = e ∨
      (if e.isDraining then e.drain now else e).isDone = true ∧
        e.Kin (if e.isDraining then e.drain now else e) := by
    split
    · exact e.drain_cases now
    · exact Or.inl rfl
  rw [Engine.settle, ← hlength]
  generalize (if e.isDraining then e.drain now else e) = drained at hdrained
  have hkin : e.Kin drained := by
    rcases hdrained with rfl | hdone
    · exact ⟨rfl, rfl, rfl⟩
    · exact hdone.2
  have hmanned := h.manned hkin now
  obtain ⟨hplan, hroster, hprogress⟩ := drained.told_spec
    (drained.remaining.length < start.remaining.length) fun aggregate =>
      aggregate.dropout drained.remaining now
  generalize (if drained.remaining.length < start.remaining.length then
    drained.aggregateMut fun aggregate => aggregate.dropout drained.remaining now else drained) = told
    at hmanned hplan hroster hprogress
  have hremaining : told.remaining = e.remaining :=
    (Engine.remaining_congr hroster).trans hkin.remaining
  have hsame : told.plan = start.plan := hplan.trans (hkin.plan.trans h.plan)
  split_ifs with hended
  · exact h.finish hsame hremaining hmanned now
  · -- The stage goes on, so the probers are still draining or it never closed.
    rw [not_or, told.isDone_iff, hprogress, ← drained.isDone_iff] at hended
    have hgoes : drained = e := by
      rcases hdrained with heq | hdone
      · exact heq
      · exact absurd hdone.1 hended.2
    exact {
      plan := hsame
      protocol := ⟨_, h.protocol, Or.inl (by rw [hprogress, hgoes, h.phase])⟩
      shrinks := by
        rw [hremaining]
        exact h.shrinks
      left := by
        rw [hremaining]
        exact h.left
      manned := hmanned }

end Turn

variable {e : Engine}

/-- Where nothing happened yet the turn is the engine's own. -/
theorem Turn.start (halive : e.phase.progress ≠ .ended) (hmanned : e.Manned) :
    Turn e e.phase (e, []) where
  phase := rfl
  plan := rfl
  alive := halive
  protocol := rfl
  shrinks := .refl _
  left := .refl _
  crew window hw hmoves hsome := by
    obtain ⟨aggregate, haggregate, hparticipants⟩ := hmanned window hw hmoves hsome
    exact ⟨aggregate, haggregate, hparticipants ▸ .refl _, hparticipants ▸ .refl _⟩

/-- A call that decides nothing is a tick. -/
theorem Ticked.ofEnded (hmanned : e.Manned) {e' : Engine} (hkin : e.Kin e')
    (hprogress : e'.phase.progress = e.phase.progress ∨ e'.phase.progress = .ended) :
    Ticked e (e', []) where
  plan := hkin.plan
  protocol := ⟨e.phase.progress, rfl, hprogress⟩
  shrinks := by rw [hkin.remaining]
  left := by rw [hkin.remaining]; exact .refl _
  manned := hmanned.kin hkin

/-- **A tick.** -/
theorem Engine.tick_ticked (hmanned : e.Manned) (input : Input) :
    Ticked e (decided (e.tick input)) := by
  rw [Engine.tick]
  split
  · exact .ofEnded hmanned ⟨rfl, rfl, rfl⟩ (Or.inl rfl)
  · next halive =>
    rw [Engine.isDone_iff] at halive
    have hdeparted := (Turn.start halive hmanned).departed input
    generalize e.departed input [] = departed at hdeparted
    obtain ⟨e₁, out₁⟩ := departed
    have hchecked : Turn e e.phase
        (if e₁.isDraining then (e₁, out₁) else e₁.checkLanes input out₁) := by
      split
      · exact hdeparted
      · exact hdeparted.checkLanes input
    simp only
    generalize (if e₁.isDraining then (e₁, out₁) else e₁.checkLanes input out₁) = checked at hchecked
    obtain ⟨e₂, out₂⟩ := checked
    have hawaited : ∃ next, Turn e next (decided
        (if e₂.isReady then e₂.ready input ⟨out₂, none, input.now + tickLength⟩
          else (e₂, ⟨out₂, none, input.now + tickLength⟩))) := Turn.awaited hchecked input
    obtain ⟨waiting, hwaiting⟩ := hawaited
    simp only
    generalize (if e₂.isReady then e₂.ready input ⟨out₂, none, input.now + tickLength⟩
      else (e₂, ⟨out₂, none, input.now + tickLength⟩)) = awaited at hwaiting
    obtain ⟨e₃, tick₃⟩ := awaited
    obtain ⟨reached, hturned⟩ := hwaiting.turn input
    simp only
    generalize e₃.turn input tick₃ = turned at hturned
    obtain ⟨e₄, tick₄⟩ := turned
    have hprobed := hturned.probes input
    simp only [decided] at hprobed ⊢
    generalize List.foldl _ (e₄, tick₄.decisions) input.probes = probed at hprobed
    obtain ⟨e₅, out₅⟩ := probed
    exact hprobed.settle input.now

/-- Stopping ends the stage and leaves the rest. -/
theorem Engine.stop_kin (e : Engine) (now : ℕ) : e.Kin (e.stop now) ∧ (e.stop now).isDone = true := by
  rw [Engine.stop]
  split
  · have hcut := (e.alike_map (fun seat =>
      if seat.probing.probes then { seat with probing := .cut } else seat) fun seat => by
        split <;> rfl).kin
    obtain ⟨hfinish, hdone, -⟩ := Engine.finish_spec { e with seats := e.seats.map _ } now []
    exact ⟨hcut.trans hfinish, hdone⟩
  · exact ⟨e.kin_done now true, rfl⟩

/-- **Every call** is a tick. -/
theorem Engine.call_ticked (hmanned : e.Manned) (call : Engine.Call) : Ticked e (e.call call) := by
  cases call with
  | tick input => exact Engine.tick_ticked hmanned input
  | stop now =>
    obtain ⟨hkin, hdone⟩ := e.stop_kin now
    exact .ofEnded hmanned hkin (Or.inr ((Engine.isDone_iff _).mp hdone))

/-! ## The next tick -/

namespace Engine

variable {input : Input} {tick : Tick}

/-- A tick's functions ask for no tick in the past. -/
theorem now_le_ready (h : input.now ≤ tick.next) (e : Engine) :
    input.now ≤ (e.ready input tick).2.next := by
  rw [ready]
  split
  · next hearly => exact le_min h hearly.2.le
  · exact h

/-- Readying asks for no tick in the past. -/
theorem now_le_awaited (h : input.now ≤ tick.next) (e : Engine) :
    input.now ≤ (if e.isReady then e.ready input tick else (e, tick)).2.next := by
  split
  · exact now_le_ready h e
  · exact h

/-- Scheduling asks for no tick in the past. -/
theorem now_le_schedule (h : input.now ≤ tick.next) (e : Engine) :
    input.now ≤ (e.schedule input.now tick).2.next := by
  unfold schedule
  split
  · exact le_max_right _ _
  · exact h

/-- An opened window asks for no tick in the past. -/
theorem now_le_opened (h : input.now ≤ tick.next) (e : Engine) :
    input.now ≤ (e.opened input tick).2.next := by
  unfold opened
  simp only
  split
  · exact h
  · apply now_le_schedule
    exact h

/-- Opening a window asks for no tick in the past. -/
theorem now_le_open (h : input.now ≤ tick.next) (e : Engine) :
    input.now ≤ (e.open_ input tick).2.next := by
  unfold open_
  split
  · simp only
    split
    · next hmissing => exact le_min (Nat.le_add_right _ _) hmissing.2.le
    · apply now_le_opened
      exact h
  · exact now_le_opened h e

/-- Warming up asks for no tick in the past. -/
theorem now_le_warmed (h : input.now ≤ tick.next) (e : Engine) :
    input.now ≤ (e.warmed input tick).2.next := by
  unfold warmed
  split
  · exact le_rfl
  · exact now_le_open h e

/-- Observing asks for no tick in the past. -/
theorem now_le_observe (h : input.now ≤ tick.next) (e : Engine) (last : Bool) :
    input.now ≤ (e.observe input last tick).2.next := by
  unfold observe
  split
  · exact h
  · exact h

/-- Measuring asks for no tick in the past. -/
theorem now_le_measure (h : input.now ≤ tick.next) (e : Engine) :
    input.now ≤ (e.measure input tick).2.next := by
  unfold measure
  split
  · next window final hphase =>
    have hobserved : ∀ last, input.now ≤
        (if window.aggregate.isSome then e.observe input last tick else (e, tick)).2.next := by
      intro last
      split
      · exact now_le_observe h e last
      · exact h
    simp only
    split
    · apply now_le_schedule
      exact hobserved _
    · exact hobserved _
  · exact h

/-- No turn asks for a tick in the past. -/
theorem now_le_turn (h : input.now ≤ tick.next) (e : Engine) :
    input.now ≤ (e.turn input tick).2.next := by
  unfold turn
  split
  · split
    · exact now_le_warmed h e
    · next hearly => exact le_min h (not_le.mp hearly).le
  · exact now_le_open h e
  · exact now_le_measure h e
  · exact h
  · exact h
  · exact h

/-- **The next tick** is not in the past. -/
theorem now_le_next (e : Engine) (input : Input) : input.now ≤ (e.tick input).2.next := by
  unfold Engine.tick
  have hfirst : input.now ≤ input.now + tickLength := Nat.le_add_right _ _
  simp only
  split
  · exact hfirst
  · apply now_le_turn
    apply now_le_awaited
    exact hfirst

end Engine

/-! ## Runs -/

/-- What a run of a new engine has come to. -/
structure Ran (planned : StagePlan) (log : List Decision) (e : Engine) : Prop where
  plan : e.plan = planned
  protocol : ∃ reached, Progress.run .before log = some reached ∧
    (e.phase.progress = reached ∨ e.phase.progress = .ended)
  left : (leavers log ++ e.remaining).Perm (planned.members.map Member.server)
  manned : e.Manned

namespace Ran

variable {plan : StagePlan} {log out : List Decision} {e e' : Engine}

/-- A new engine has decided nothing. -/
theorem new (plan : StagePlan) (created : ℕ) : Ran plan [] (.new plan created) where
  plan := rfl
  protocol := ⟨.before, rfl, Or.inl rfl⟩
  left := by
    have hall : (Engine.new plan created).present = (Engine.new plan created).seats := by
      rw [Engine.present, List.filter_eq_self]
      intro seat hseat
      obtain ⟨member, -, rfl⟩ := List.mem_map.mp hseat
      rfl
    rw [Engine.remaining, hall, Engine.new, List.map_map]
    exact .refl _
  manned := by
    intro window hwindow
    cases hwindow

/-- An engine that ended decides nothing and stays ended. -/
theorem ended (hended : e.isDone = true) (hticked : Ticked e (e', out)) :
    out = [] ∧ e'.isDone = true := by
  rw [Engine.isDone_iff] at hended ⊢
  obtain ⟨next, hout, hnext⟩ := hticked.protocol
  rw [hended] at hout
  obtain rfl := Progress.run_ended hout
  cases hout
  exact ⟨rfl, hnext.elim id id⟩

/-- **One tick** keeps the engine's account. -/
theorem step (h : Ran plan log e) (hticked : Ticked e (e', out)) : Ran plan (log ++ out) e' where
  plan := hticked.plan.trans h.plan
  protocol := by
    obtain ⟨reached, hrun, heq | hended⟩ := h.protocol
    · obtain ⟨next, hout, hnext⟩ := hticked.protocol
      rw [heq] at hout
      exact ⟨next, (Progress.run_append_eq hrun).trans hout, hnext⟩
    · obtain ⟨rfl, hdone⟩ := ended ((e.isDone_iff).mpr hended) hticked
      rw [List.append_nil]
      exact ⟨reached, hrun, Or.inr ((Engine.isDone_iff _).mp hdone)⟩
  left := by
    rw [leavers_append, List.append_assoc]
    exact (hticked.left.append_left _).trans h.left
  manned := hticked.manned

/-- Each server is removed at most once. -/
theorem nodup (h : Ran plan log e) : (leavers log).Nodup :=
  (List.nodup_append.mp (h.left.nodup_iff.mpr plan.distinct)).1

/-- A run of calls keeps the engine's account. -/
theorem run (h : Ran plan log e) {calls : List Engine.Call}
    (hrun : Machine.run Engine.step e calls = some (e', out)) : Ran plan (log ++ out) e' := by
  refine Machine.run_induct (Ran plan) (fun log e call e' out hran hstep => ?_) h hrun
  rw [Engine.step, Option.some.injEq] at hstep
  have hticked := Engine.call_ticked hran.manned call
  rw [hstep] at hticked
  exact hran.step hticked

/-- A run only loses members, and decides nothing once the stage is done. -/
theorem onward (h : Ran plan log e) {calls : List Engine.Call}
    (hrun : Machine.run Engine.step e calls = some (e', out)) :
    e'.remaining.Sublist e.remaining ∧ (e.isDone = true → out = []) := by
  have honward := Machine.run_induct
    (fun (out : List Decision) (s : Engine) => s.Manned ∧ s.remaining.Sublist e.remaining ∧
      (e.isDone = true → out = [] ∧ s.isDone = true))
    (fun out s call s' later hs hstep => by
      obtain ⟨hmanned, hsub, hquiet⟩ := hs
      rw [Engine.step, Option.some.injEq] at hstep
      have hticked := Engine.call_ticked hmanned call
      rw [hstep] at hticked
      refine ⟨hticked.manned, hticked.shrinks.trans hsub, fun hdone => ?_⟩
      obtain ⟨rfl, hs⟩ := hquiet hdone
      exact ended hs hticked)
    ⟨h.manned, .refl _, fun hdone => ⟨rfl, hdone⟩⟩ hrun
  exact ⟨honward.2.1, fun hdone => (honward.2.2 hdone).1⟩

end Ran

/-- **The protocol of the stage engine.** However its ticks fall and whenever it is stopped, members
only leave, each once; the window opens and closes once each and in that order; `finish` is the last
decision ever, and nothing is decided once the stage is done or stopped; no tick asks for one in the
past; and the members present are the participants of the window's current interval. -/
theorem engine_protocol (plan : StagePlan) (created : ℕ) (calls later : List Engine.Call)
    {e e' : Engine} {log log' : List Decision}
    (hrun : Machine.run Engine.step (.new plan created) calls = some (e, log))
    (hlater : Machine.run Engine.step e later = some (e', log')) :
    e'.remaining.Sublist e.remaining ∧ (leavers log).Nodup ∧
      log.countP Decision.opens ≤ 1 ∧ log.countP Decision.closes ≤ 1 ∧
      (∀ before after, log = before ++ .closeWindow :: after →
        ∃ start end_, .openWindow start end_ ∈ before) ∧
      (∀ before after, log ++ log' = before ++ .finish :: after → after = [] ∧ .finish ∉ before) ∧
      (e.isDone = true → log' = []) ∧ (∀ now, (e.stop now).isDone = true) ∧
      (∀ input, input.now ≤ (e.tick input).2.next) ∧
      (∀ window, e.window = some window → plan.stage.directions ≠ [] → e.remaining ≠ [] →
        ∃ aggregate, window.aggregate = some aggregate ∧ aggregate.participants = e.remaining) := by
  have hran := (Ran.new plan created).run hrun
  rw [List.nil_append] at hran
  obtain ⟨reached, hreached, -⟩ := hran.protocol
  obtain ⟨final, hfinal, -⟩ := (hran.run hlater).protocol
  obtain ⟨hshrinks, hquiet⟩ := hran.onward hlater
  refine ⟨hshrinks, hran.nodup, Progress.countP_opens_le hreached, Progress.countP_closes_le hreached,
    ?_, ?_, hquiet, fun now => (e.stop_kin now).2, e.now_le_next, ?_⟩
  · rintro before after rfl
    exact Progress.open_of_close hreached
  · intro before after heq
    rw [heq] at hfinal
    exact Progress.finish_last hfinal
  · have hmanned := hran.manned
    rw [Engine.Manned, hran.plan] at hmanned
    exact hmanned

/-- Of two servers one is gone before the stage is over. -/
theorem engine_protocol_departed :
    ∃ e log, Machine.run Engine.step
        (.new ⟨.latency, [⟨"a", 0⟩, ⟨"b", 0⟩], 1000, some .replyDriven, by decide⟩ 0)
        [.tick ⟨0, 0, [], [("a", .up), ("b", .up)], []⟩,
          .tick ⟨10, 0, [], [], [("a", ⟨.connectionLost, "gone"⟩)]⟩] = some (e, log) ∧
      log = [.openWindow 0 1000, .remove ⟨"a", .server, ⟨.connectionLost, "gone"⟩, 10⟩] ∧
      e.remaining = ["b"] ∧ (leavers log).Nodup := by
  have hrun : Machine.run Engine.step
      (.new ⟨.latency, [⟨"a", 0⟩, ⟨"b", 0⟩], 1000, some .replyDriven, by decide⟩ 0)
      [.tick ⟨0, 0, [], [("a", .up), ("b", .up)], []⟩,
        .tick ⟨10, 0, [], [], [("a", ⟨.connectionLost, "gone"⟩)]⟩] = some (_, _) := rfl
  exact ⟨_, _, hrun, by decide, by decide, (engine_protocol _ 0 _ [] hrun rfl).2.1⟩

end GraphiteMeter.Client
