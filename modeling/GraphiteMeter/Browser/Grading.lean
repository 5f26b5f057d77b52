import GraphiteMeter.Browser.Result

/-!
# Judging a result again

Reference: `client/src/engine/run/result.ts` (`grid`, `SAVED`, `graded`), which
`client/src/app/history/records.ts` applies to every record it reads.

The statuses of the grid depend on the saved stages only by which of them did not run and which were
complete, and on the failures only by whom and what they charge. Grading keeps both.
-/

namespace GraphiteMeter.Browser

open GraphiteMeter.Measure (Stage)

variable {ρ : Type}

/-! ## What a failure charges -/

/-- Whom a failure charges, in which stage and for what. -/
def ServerFailure.charge (f : ServerFailure) : String × Stage × Option Role :=
  (f.serverId, f.stage, f.scope)

/-- The same servers, and failures that charge the same. -/
structure SameEvidence (r s : Graded ρ) : Prop where
  results : s.toStageResults = r.toStageResults
  selection : s.multiServer.selection = r.multiServer.selection
  servers : s.multiServer.servers = r.multiServer.servers
  charges : s.multiServer.failures.map ServerFailure.charge
    = r.multiServer.failures.map ServerFailure.charge

/-- Whether a server is charged for what a stage is for. -/
def Charged (r : Graded ρ) (server : ServerIdentity) (stage : Stage) : Prop :=
  (server.id, stage, some (failureScope stage)) ∈ r.multiServer.failures.map ServerFailure.charge

/-- A stage is charged to a server when a failure of it names the stage. -/
theorem charged_isSome_iff {r : Graded ρ} {server : ServerIdentity} {stage : Stage} :
    (charged (ownFailures r server) stage).isSome ↔ Charged r server stage := by
  rw [charged, List.find?_isSome, Charged, List.mem_map]
  constructor
  · rintro ⟨f, hf, hcharged⟩
    obtain ⟨hmem, hserver⟩ := List.mem_filter.mp hf
    obtain ⟨rfl, hscope⟩ := of_decide_eq_true hcharged
    exact ⟨f, hmem, by rw [ServerFailure.charge, of_decide_eq_true hserver, hscope]⟩
  · rintro ⟨f, hmem, hcharge⟩
    obtain ⟨hserver, hrest⟩ := Prod.mk.inj hcharge
    obtain ⟨hstage, hscope⟩ := Prod.mk.inj hrest
    exact ⟨f, List.mem_filter.mpr ⟨hmem, decide_eq_true hserver⟩, decide_eq_true ⟨hstage, hscope⟩⟩

/-! ## The statuses of a finished run -/

/-- What a cell reads once its stage is over. -/
theorem cell_status (r : Graded ρ) (server : ServerIdentity) (stage : Stage) :
    (cell r none server stage).status =
      if r.stages stage = .notRun then .skipped
      else
        match summaryOf r server with
        | none => .unreached
        | some summary =>
          if stage = .latency ∧ summary.latencyTarget = none
              ∧ (charged (ownFailures r server) stage).isSome = false then .skipped
          else if summary.stages stage ≠ .notRun then
            if measuredLanes summary.toStageResults stage then (summary.stages stage).cell else .failed
          else if (charged (ownFailures r server) stage).isSome then .failed else .unreached := by
  rw [cell]
  by_cases hnotRun : r.stages stage = .notRun
  · rw [if_pos ⟨hnotRun, Option.some_ne_none _⟩, if_pos hnotRun]
  · rw [if_neg fun h => hnotRun h.1, if_neg hnotRun]
    match summaryOf r server with
    | none => rfl
    | some summary =>
      simp only
      generalize charged (ownFailures r server) stage = failure
      cases failure with
      | none =>
        simp only [Option.isSome_none, reduceCtorEq, if_false, Bool.false_eq_true]
        split_ifs <;> rfl
      | some failure =>
        simp only [Option.isSome_some, reduceCtorEq, if_false, if_true, and_false]
        split_ifs <;> rfl

/-- Records of the same evidence grade a cell alike. -/
theorem cell_status_congr {r s : Graded ρ} (h : SameEvidence r s) {server : ServerIdentity}
    {stage : Stage} (hstage : s.stages stage = .notRun ↔ r.stages stage = .notRun) :
    (cell s none server stage).status = (cell r none server stage).status := by
  have hsummary : summaryOf s server = summaryOf r server := by rw [summaryOf, h.servers, summaryOf]
  have hcharged : (charged (ownFailures s server) stage).isSome
      = (charged (ownFailures r server) stage).isSome := by
    rw [Bool.eq_iff_iff, charged_isSome_iff, charged_isSome_iff, Charged, Charged, h.charges]
  rw [cell_status, cell_status, hsummary, hcharged]
  simp only [hstage]

/-- The statuses a column is judged by. -/
def columnCells (r : Graded ρ) (stage : Stage) : List CellStatus :=
  (r.multiServer.selection.map fun server => (cell r none server stage).status).filter
    fun status => status ≠ .skipped

/-- A column is graded by its stage, its lanes and its cells. -/
theorem column_eq (r : Graded ρ) (stage : Stage) : (grid r none).columns stage =
    if r.stages stage = .notRun then .skipped
    else if measuredLanes r.toStageResults stage = false then
      if (columnCells r stage).all fun status => status = .unreached then .unreached else .failed
    else if r.stages stage = .complete ∧ (columnCells r stage).all fun status => status = .complete
      then .complete
    else .partly := by
  show column r _ stage = _
  rw [column, List.map_map]
  rfl

/-- A stage's column says that it did not run as the record does. -/
theorem column_skipped_iff (r : Graded ρ) (stage : Stage) :
    (grid r none).columns stage = .skipped ↔ r.stages stage = .notRun := by
  rw [column_eq]
  split_ifs with hnotRun <;> simp [hnotRun]

/-- Only a skipped cell is saved as not run. -/
theorem saved_notRun_iff (status : CellStatus) : saved status = .notRun ↔ status = .skipped := by
  cases status <;> decide

/-- Only a complete cell is saved as complete. -/
theorem saved_complete_iff (status : CellStatus) : saved status = .complete ↔ status = .complete := by
  cases status <;> decide

/-- **A column judged again stays**, from what it was saved as. -/
theorem column_again {r s : Graded ρ} (h : SameEvidence r s)
    (hstages : ∀ stage, s.stages stage = saved ((grid r none).columns stage)) (stage : Stage) :
    (grid s none).columns stage = (grid r none).columns stage := by
  have hnotRun : s.stages stage = .notRun ↔ r.stages stage = .notRun := by
    rw [hstages, saved_notRun_iff, column_skipped_iff]
  have hcells : columnCells s stage = columnCells r stage := by
    rw [columnCells, columnCells, h.selection]
    simp only [cell_status_congr h hnotRun]
  have hcomplete : s.stages stage = .complete ↔ (grid r none).columns stage = .complete := by
    rw [hstages, saved_complete_iff]
  have hbefore := column_eq r stage
  rw [column_eq s, hcells, h.results]
  simp only [hnotRun, hcomplete]
  by_cases hran : r.stages stage = .notRun
  · rw [if_pos hran] at hbefore ⊢
    exact hbefore.symm
  rw [if_neg hran] at hbefore ⊢
  by_cases hlanes : measuredLanes r.toStageResults stage = false
  · rw [if_pos hlanes] at hbefore ⊢
    exact hbefore.symm
  rw [if_neg hlanes] at hbefore ⊢
  by_cases hall : r.stages stage = .complete ∧
      ((columnCells r stage).all fun status => status = .complete) = true
  · rw [if_pos hall] at hbefore
    rw [if_pos ⟨hbefore, hall.2⟩, hbefore]
  · rw [if_neg hall] at hbefore
    rw [hbefore, if_neg fun h => nomatch h.1]

/-! ## Grading -/

/-- An outcome is found at its own index. -/
theorem Outcome.getElem_index (o : Outcome) : outcomes[o.index]? = some o := by
  cases o <;> rfl

/-- The worse of two outcomes has the larger index. -/
theorem getElem_max (a b : Outcome) :
    ∃ o, outcomes[max a.index b.index]? = some o ∧ o.index = max a.index b.index := by
  rcases max_choice a.index b.index with h | h
  · exact ⟨a, by rw [h, a.getElem_index], h.symm⟩
  · exact ⟨b, by rw [h, b.getElem_index], h.symm⟩

/-- A failure that is said charges what it did, and says it again. -/
theorem said_spec {r : Graded ρ} {f g : ServerFailure} (h : said r f = some g) :
    g.charge = f.charge ∧ ∀ s : Graded ρ, said s g = some g := by
  rw [said] at h
  match hdetail : f.detail with
  | some detail =>
    rw [hdetail] at h
    cases h
    exact ⟨rfl, fun s => by rw [said, hdetail]⟩
  | none =>
    rw [hdetail] at h
    obtain ⟨message, -, rfl⟩ := Option.map_eq_some_iff.mp h
    exact ⟨rfl, fun s => rfl⟩

/-- Failures that are said keep their charges. -/
theorem mapM_said {r : Graded ρ} {failures after : List ServerFailure}
    (h : failures.mapM (said r) = some after) :
    after.map ServerFailure.charge = failures.map ServerFailure.charge ∧
      ∀ s : Graded ρ, after.mapM (said s) = some after := by
  induction failures generalizing after with
  | nil =>
    rw [List.mapM_nil] at h
    cases h
    exact ⟨rfl, fun s => List.mapM_nil⟩
  | cons f failures ih =>
    rw [List.mapM_cons] at h
    obtain ⟨g, hg, h⟩ := Option.bind_eq_some_iff.mp h
    obtain ⟨rest, hrest, h⟩ := Option.bind_eq_some_iff.mp h
    cases h
    obtain ⟨hcharge, hsaid⟩ := said_spec hg
    obtain ⟨hcharges, hagain⟩ := ih hrest
    refine ⟨by rw [List.map_cons, List.map_cons, hcharge, hcharges], fun s => ?_⟩
    rw [List.mapM_cons, hsaid s, hagain s]
    rfl

/-- What grading leaves, when it leaves anything. -/
theorem graded_eq_some {r s : Graded ρ} (h : graded r = some s) :
    SameEvidence r s ∧ (∀ stage, s.stages stage = saved ((grid r none).columns stage)) ∧
      (∀ t : Graded ρ, s.multiServer.failures.mapM (said t) = some s.multiServer.failures) ∧
      ∃ o, s.outcome = some o ∧
        o.index = max ((r.outcome.getD .complete).index) (grid r none).outcome.index := by
  obtain ⟨failures, hfailures, rfl⟩ := Option.map_eq_some_iff.mp h
  obtain ⟨hcharges, hagain⟩ := mapM_said hfailures
  obtain ⟨o, ho, hindex⟩ := getElem_max (r.outcome.getD .complete) (grid r none).outcome
  exact ⟨⟨rfl, rfl, rfl, hcharges⟩, fun _ => rfl, hagain, o, ho, hindex⟩

/-- **The grid judged again** has the outcome it had. -/
theorem outcome_again {r s : Graded ρ} (h : SameEvidence r s)
    (hstages : ∀ stage, s.stages stage = saved ((grid r none).columns stage)) :
    (grid s none).outcome = (grid r none).outcome := by
  have hcolumns : (grid s none).columns = (grid r none).columns := funext (column_again h hstages)
  have hfailures : s.multiServer.failures = [] ↔ r.multiServer.failures = [] := by
    rw [← List.map_eq_nil_iff (f := ServerFailure.charge), h.charges, List.map_eq_nil_iff]
  have houtcome : ∀ t : Graded ρ, (grid t none).outcome =
      if (stages.map (grid t none).columns).any fun status => status = .failed ∨ status = .unreached
        then .incomplete
      else if t.multiServer.failures ≠ [] ∨ .partly ∈ stages.map (grid t none).columns then .partly
      else .complete := fun _ => rfl
  rw [houtcome, houtcome r, hcolumns]
  simp only [ne_eq, hfailures]

/-- Grading a graded record changes nothing. -/
theorem graded_again {r s : Graded ρ} (h : graded r = some s) : graded s = some s := by
  obtain ⟨hsame, hstages, hagain, o, ho, hindex⟩ := graded_eq_some h
  have hcolumns := column_again hsame hstages
  have hworse : max ((s.outcome.getD .complete).index) (grid s none).outcome.index = o.index := by
    rw [outcome_again hsame hstages, ho, Option.getD_some, hindex]
    exact max_eq_left (le_max_right _ _)
  rw [graded, hagain s, Option.map_some, hworse, o.getElem_index, ← ho]
  simp only [hcolumns, ← hstages]

/-! ## A complete run -/

/-- Every stage is listed. -/
theorem mem_stages (stage : Stage) : stage ∈ stages := by cases stage <;> decide

/-- A run judged complete has no failure, and every column is complete or skipped. -/
theorem columns_complete {r : Graded ρ} (h : (grid r none).outcome = .complete) :
    r.multiServer.failures = [] ∧
      ∀ stage, (grid r none).columns stage = .complete ∨ (grid r none).columns stage = .skipped := by
  have houtcome : (grid r none).outcome =
      if (stages.map (grid r none).columns).any fun status => status = .failed ∨ status = .unreached
        then .incomplete
      else if r.multiServer.failures ≠ [] ∨ .partly ∈ stages.map (grid r none).columns then .partly
      else .complete := rfl
  rw [houtcome] at h
  split_ifs at h with hbad hpartly
  obtain ⟨hfailures, hpartly⟩ := not_or.mp hpartly
  refine ⟨not_not.mp hfailures, fun stage => ?_⟩
  have hmem : (grid r none).columns stage ∈ stages.map (grid r none).columns :=
    List.mem_map_of_mem (mem_stages stage)
  have hgood := fun hbad' => hbad (List.any_eq_true.mpr ⟨_, hmem, decide_eq_true hbad'⟩)
  match hcolumn : (grid r none).columns stage with
  | .complete => exact .inl rfl
  | .skipped => exact .inr rfl
  | .partly => exact absurd (hcolumn ▸ hmem) hpartly
  | .failed => exact absurd (.inl hcolumn) hgood
  | .unreached => exact absurd (.inr hcolumn) hgood

/-- In a column complete or skipped, so is every cell. -/
theorem cell_complete {r : Graded ρ} {stage : Stage}
    (h : (grid r none).columns stage = .complete ∨ (grid r none).columns stage = .skipped)
    {server : ServerIdentity} (hserver : server ∈ r.multiServer.selection) :
    (cell r none server stage).status = .complete ∨ (cell r none server stage).status = .skipped := by
  rcases h with hcolumn | hcolumn
  · rw [column_eq] at hcolumn
    split_ifs at hcolumn with hnotRun hlanes hunreached hall
    by_cases hskipped : (cell r none server stage).status = .skipped
    · exact .inr hskipped
    · refine .inl (of_decide_eq_true (List.all_eq_true.mp hall.2 _ ?_))
      exact List.mem_filter.mpr ⟨List.mem_map_of_mem hserver, decide_eq_true hskipped⟩
  · right
    rw [cell_status, if_pos ((column_skipped_iff r stage).mp hcolumn)]

/-- In a run judged complete, every selected server's row is complete. -/
theorem row_complete {r : Graded ρ} (h : (grid r none).outcome = .complete) {server : ServerIdentity}
    (hserver : server ∈ r.multiServer.selection) : (row r none server).outcome = .complete := by
  obtain ⟨hfailures, hcolumns⟩ := columns_complete h
  have hown : ownFailures r server = [] := by rw [ownFailures, hfailures]; rfl
  have hstart : startCause r server = none := by
    rw [startCause, hown]
    split_ifs <;> rfl
  have hcells : ∀ status ∈ stages.map fun stage => (cell r none server stage).status,
      status = .complete ∨ status = .skipped := by
    intro status hstatus
    obtain ⟨stage, -, rfl⟩ := List.mem_map.mp hstatus
    exact cell_complete (hcolumns stage) hserver
  rw [row]
  simp only [hstart, hown, List.filter_nil, List.mergeSort_nil, List.map_nil, ne_eq,
    not_true_eq_false, false_or]
  rw [if_neg, if_neg]
  · intro hpartly
    rcases hcells _ hpartly with h | h <;> cases h
  · intro hbad
    obtain ⟨status, hstatus, hbad⟩ := List.any_eq_true.mp hbad
    rcases hcells status hstatus with rfl | rfl
    · exact absurd hbad (by decide)
    · exact absurd hbad (by decide)

/-- **Judging a record again.** Grading a graded record gives it back, also where a failure without a
sentence makes it throw. What grading leaves is no better than what was saved and than the grid's own
outcome, its stages did not run where the saved ones did not, and in a run that the grid judges
complete the row of every selected server is complete. -/
theorem grading (r : Graded ρ) :
    (graded r).bind graded = graded r ∧
      (∀ s, graded r = some s →
        (∃ o, s.outcome = some o ∧ (r.outcome.getD .complete).index ≤ o.index ∧
          (grid r none).outcome.index ≤ o.index) ∧
        ∀ stage, s.stages stage = .notRun ↔ r.stages stage = .notRun) ∧
      ((grid r none).outcome = .complete →
        ∀ row ∈ (grid r none).rows, row.outcome = .complete) := by
  refine ⟨?_, fun s hs => ⟨?_, fun stage => ?_⟩, fun hcomplete entry hentry => ?_⟩
  · match hgraded : graded r with
    | none => rfl
    | some s => rw [Option.bind_some, graded_again hgraded]
  · obtain ⟨-, -, -, o, ho, hindex⟩ := graded_eq_some hs
    exact ⟨o, ho, hindex ▸ le_max_left _ _, hindex ▸ le_max_right _ _⟩
  · rw [(graded_eq_some hs).2.1, saved_notRun_iff, column_skipped_iff]
  · obtain ⟨server, hserver, rfl⟩ := List.mem_map.mp hentry
    exact row_complete hcomplete hserver

/-- A record of an earlier build: a failure that has no detail, of a server dropped at Start. -/
def earlier : Graded Unit where
  latency := none
  download := some ()
  upload := none
  bidirectional := none
  stages := fun stage => if stage = .download then .complete else .notRun
  multiServer := {
    selection := [⟨"a", "Oslo"⟩, ⟨"b", "Bergen"⟩]
    participants := ["a"]
    servers := [{
      latency := none
      download := some ()
      upload := none
      bidirectional := none
      server := ⟨"a", "Oslo"⟩
      latencyTarget := none
      stages := fun stage => if stage = .download then .complete else .notRun }]
    failures := [⟨"b", .download, some .throughput, "server-busy", "no free slot", none⟩] }
  outcome := some .complete

/-- A record of an earlier version, graded anew. -/
theorem grading_earlier :
    ((graded earlier).map fun s => (s.outcome, s.multiServer.failures)) = some (some .partly,
      [⟨"b", .download, some .throughput, "server-busy",
        "Bergen had no room for another test when this one started.", some "no free slot"⟩]) ∧
      (graded earlier).bind graded = graded earlier :=
  ⟨by decide, (grading earlier).1⟩

end GraphiteMeter.Browser
