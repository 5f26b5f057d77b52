import GraphiteMeter.Browser.Lease.Protocol
import GraphiteMeter.Browser.StreamsExact

/-!
# What a run holds at its servers

Reference: `client/src/engine/net/servers.ts`, `ceilings`.

A run takes each server's lease once, for the most any of its stages holds there. The lanes are
planned within the measurements the server advertises, but the lease holds the bus beside them: a
stage whose lanes use up the share leaves none for the bus, and the server cuts the ask.
-/

namespace GraphiteMeter.Browser

open Schedule (Activity)
open Streams (PlanServer StreamPlan StreamPolicy planStreams uploads)

namespace Lease.Need

instance : LE Need :=
  ⟨fun need bound => need.measurements ≤ bound.measurements ∧ need.sessions ≤ bound.sessions⟩

variable {need other bound : Need}

/-- A need is within another part by part. -/
theorem le_iff : need ≤ bound ↔
    need.measurements ≤ bound.measurements ∧ need.sessions ≤ bound.sessions := Iff.rfl

/-- The sessions of the larger need are within its measurements. -/
theorem most_sessions_le (need other : Need) :
    max need.sessions other.sessions ≤ max need.measurements other.measurements :=
  max_le_max need.sessions_le other.sessions_le

/-- Enough for either. -/
def most (need other : Need) : Need where
  measurements := max need.measurements other.measurements
  sessions := max need.sessions other.sessions
  sessions_le := most_sessions_le need other

/-- The larger of two needs is within a bound when both are. -/
theorem most_le_iff : need.most other ≤ bound ↔ need ≤ bound ∧ other ≤ bound := by
  simp only [le_iff, most, max_le_iff]
  tauto

theorem no_sessions_le : (0 : ℕ) ≤ 0 := le_rfl

def none : Need := ⟨0, 0, no_sessions_le⟩

/-- No need is within any bound. -/
theorem none_le : none ≤ bound := ⟨Nat.zero_le _, Nat.zero_le _⟩

end Lease.Need

namespace Ceilings

open Lease (Need)

section Model

variable (server : PlanServer) (activity : Activity) (plan : StreamPlan) (place : ℕ)

def carried : ℕ := (activity.transfer.map fun direction => (plan (place, direction)).planned).sum

/-- An upload's feed and finalize. -/
def control : ℕ := if uploads activity then 2 else 0

def sessions : ℕ := if server.session then activity.transfer.length else 0

def measurements : ℕ :=
  (if server.session then sessions server activity else carried activity plan place)
    + control activity

/-- No stage needs more sessions than measurements. -/
theorem sessions_le : sessions server activity ≤ measurements server activity plan place := by
  unfold measurements sessions
  split <;> omega

/-- What a stage holds at a server: its lanes, or a session per direction, and an upload's feed and
finalize. -/
def holding : Need where
  measurements := measurements server activity plan place
  sessions := sessions server activity
  sessions_le := sessions_le server activity plan place

end Model

/-- A stage's part: each server keeps what it had, or takes what the stage needs if that is more. -/
def raise (servers : List PlanServer) (policy : StreamPolicy) (most : ℕ → Need)
    (activity : Activity) : Except String (ℕ → Need) :=
  if activity.transfer.isEmpty then .ok most
  else (planStreams servers activity policy).map fun plan place =>
    servers[place]?.elim (most place) fun server =>
      (most place).most (holding server activity plan place)

/-- The most a run holds at once on each server, by the server's place; the lease holds the bus
beside it. -/
def ceilings (servers : List PlanServer) (schedule : Schedule.Plan) (policy : StreamPolicy) :
    Except String (ℕ → Need) :=
  (Schedule.activities schedule).foldlM (raise servers policy) fun _ => .none

/-! ## The least need that covers every stage -/

section Least

variable {servers : List PlanServer} {policy : StreamPolicy} {most needs : ℕ → Need}
  {activities : List Activity} {activity : Activity} {server : PlanServer} {place : ℕ}

/-- A stage that measures nothing asks nothing; any other must have a plan. -/
theorem raise_ok (at_place : servers[place]? = some server)
    (raised : raise servers policy most activity = .ok needs) (bound : Need) :
    needs place ≤ bound ↔ most place ≤ bound ∧ (activity.transfer ≠ [] →
      ∃ plan, planStreams servers activity policy = .ok plan ∧
        holding server activity plan place ≤ bound) := by
  rw [raise] at raised
  split at raised
  · rename_i empty
    rw [List.isEmpty_iff] at empty
    obtain rfl : most = needs := by simpa using raised
    simp [empty]
  · rename_i measures
    rw [List.isEmpty_iff] at measures
    cases planned : planStreams servers activity policy with
    | error refusal => rw [planned] at raised; cases raised
    | ok plan =>
      rw [planned] at raised
      obtain rfl := Except.ok.inj raised
      simp [at_place, Need.most_le_iff, measures]

/-- A place's need is within a bound when every stage's is. -/
theorem foldlM_raise (at_place : servers[place]? = some server)
    (raised : activities.foldlM (raise servers policy) most = .ok needs) (bound : Need) :
    needs place ≤ bound ↔ most place ≤ bound ∧ ∀ activity ∈ activities, activity.transfer ≠ [] →
      ∃ plan, planStreams servers activity policy = .ok plan ∧
        holding server activity plan place ≤ bound := by
  induction activities generalizing most with
  | nil =>
    obtain rfl : most = needs := by simpa [pure, Except.pure] using raised
    simp
  | cons activity activities ih =>
    rw [List.foldlM_cons] at raised
    cases first : raise servers policy most activity with
    | error refusal => rw [first] at raised; cases raised
    | ok next =>
      rw [first] at raised
      rw [ih raised, raise_ok at_place first, List.forall_mem_cons, and_assoc]

/-- What a run takes at a server is the least that holds each of its stages. -/
theorem ceilings_le_iff {schedule : Schedule.Plan} (at_place : servers[place]? = some server)
    (taken : ceilings servers schedule policy = .ok needs) (bound : Need) :
    needs place ≤ bound ↔ ∀ activity ∈ Schedule.activities schedule, activity.transfer ≠ [] →
      ∃ plan, planStreams servers activity policy = .ok plan ∧
        holding server activity plan place ≤ bound := by
  rw [foldlM_raise at_place taken]
  exact and_iff_right Need.none_le

end Least

/-! ## What refuses a run -/

section Refused

variable {servers : List PlanServer} {policy : StreamPolicy} {most : ℕ → Need}
  {activities : List Activity} {refusal : String}

/-- Raising the needs refuses a stage exactly when planning its streams does. -/
theorem raise_error (activity : Activity) : raise servers policy most activity = .error refusal ↔
    Streams.stageError servers policy activity = some refusal := by
  rw [raise, Streams.stageError]
  split
  · simp
  · cases planStreams servers activity policy <;> simp [Except.map]

/-- The needs are refused by the first stage that is. -/
theorem foldlM_raise_error : activities.foldlM (raise servers policy) most = .error refusal ↔
    activities.findSome? (Streams.stageError servers policy) = some refusal := by
  induction activities generalizing most with
  | nil => simp [pure, Except.pure]
  | cons activity activities ih =>
    rw [List.foldlM_cons, List.findSome?_cons]
    cases first : raise servers policy most activity with
    | error message =>
      rw [(raise_error activity).1 first]
      simp [bind, Except.bind]
    | ok next =>
      have passes : Streams.stageError servers policy activity = none := by
        cases error : Streams.stageError servers policy activity with
        | none => rfl
        | some message => rw [(raise_error activity).2 error] at first; cases first
      rw [passes]
      exact ih

/-- A refusal says something. -/
theorem stageError_ne_empty {activity : Activity}
    (failed : Streams.stageError servers policy activity = some refusal) : refusal ≠ "" := by
  rw [Streams.stageError] at failed
  split at failed
  · cases failed
  · split at failed
    · cases failed
    · rename_i message planned
      obtain ⟨origin, -, -, named⟩ := Streams.foldlM_refused planned
      obtain rfl : message = refusal := by simpa using failed
      rw [named, Streams.OriginBudget.refusal]
      simp

/-- The settings show what would refuse the run, and nothing else once a stage is on. -/
theorem planError_eq {schedule : Schedule.Plan} (staged : Schedule.activities schedule ≠ []) :
    ceilings servers schedule policy = .error refusal ↔
      Streams.planError servers schedule policy = refusal ∧ refusal ≠ "" := by
  have some_stage : ¬ (Schedule.activities schedule).isEmpty := by simpa using staged
  rw [ceilings, foldlM_raise_error, Streams.planError, if_neg some_stage]
  cases found : (Schedule.activities schedule).findSome? (Streams.stageError servers policy) with
  | none => simp [eq_comm]
  | some message =>
    obtain ⟨activity, -, failed⟩ := List.exists_of_findSome?_eq_some found
    have shown := stageError_ne_empty failed
    constructor
    · rintro ⟨⟩
      exact ⟨rfl, shown⟩
    · rintro ⟨rfl, -⟩
      rfl

end Refused

/-! ## Within the lease -/

section Leased

variable {servers : List PlanServer} {policy : StreamPolicy} {needs : ℕ → Need}
  {schedule : Schedule.Plan} {activity : Activity} {plan : StreamPlan} {server : PlanServer}
  {place : ℕ}

/-- The ask for a need beside the bus, with nothing else held. -/
def ask (id : ℕ) (need : Need) (granted : Bool) : Server.Admission.Grant :=
  Lease.sum [⟨id, need, granted⟩]

/-- A need fits a new lease's share when there is room for one more measurement. -/
theorem fits_iff (limits : Lease.Limits) (id : ℕ) (need : Need) (granted : Bool) :
    Lease.Client.fits (ask id need granted) (limits.share (ask id need granted)) = true ↔
      need.measurements < limits.operationsPerClient ∧
        need.sessions ≤ limits.sessionsPerClient := by
  have := need.sessions_le
  rw [Lease.Client.fits, Bool.and_eq_true, decide_eq_true_iff, decide_eq_true_iff]
  simp only [ask, Lease.sum, List.foldr_cons, List.foldr_nil, Lease.STANDING, Lease.Limits.share]
  omega

/-- A stage that is planned measures no more than the server's share. -/
theorem measurements_le (staged : activity ∈ Schedule.activities schedule)
    (planned : planStreams servers activity policy = .ok plan)
    (at_place : servers[place]? = some server)
    (room : activity.transfer.length + control activity ≤ server.discovery.maxMeasurements) :
    measurements server activity plan place ≤ server.discovery.maxMeasurements := by
  rw [measurements]
  split
  · rename_i session
    rw [sessions, if_pos session]
    exact room
  · rename_i fetches
    exact (Streams.planned_of_ok (Streams.nodup_transfer staged) planned).leased place server
      at_place fetches room

/-- Lanes apart from any pool that the lease caps, with nothing left over, use up the share. -/
theorem le_measurements (staged : activity ∈ Schedule.activities schedule)
    (planned : planStreams servers activity policy = .ok plan)
    (at_place : servers[place]? = some server) (fetches : ¬ server.session)
    (apart : server.http1 = none)
    (capped : ∀ direction ∈ activity.transfer,
      server.share activity ≤ server.asked policy direction)
    (even : activity.transfer.length ∣ server.discovery.maxMeasurements - control activity) :
    server.discovery.maxMeasurements ≤ measurements server activity plan place := by
  have given := Streams.planned_of_ok (Streams.nodup_transfer staged) planned
  have each : activity.transfer.map (fun direction => (plan (place, direction)).planned) =
      activity.transfer.map fun _ => server.share activity := by
    refine List.map_congr_left fun direction measured => ?_
    rw [given.apart place server at_place apart direction measured]
    simp only [PlanServer.lanes, fetches]
    exact min_eq_right (capped direction measured)
  -- a share too small for a lane each is less than the one lane each then gets
  have least : (server.discovery.maxMeasurements - control activity) / activity.transfer.length ≤
      server.share activity := le_max_right ..
  have all := Nat.mul_le_mul_left activity.transfer.length least
  rw [Nat.mul_div_cancel' even] at all
  rw [measurements, if_neg fetches, carried, each, List.map_const', List.sum_replicate,
    Nat.nsmul_eq_mul]
  omega

end Leased

/-- **A run's lease.** A run takes at each server the least that holds every one of its stages.
Where there is room for a lane each, that is within the measurements the server admits; but the bus
is asked for beside it, and the ask is granted in full only if a measurement is left. -/
theorem ceilings_within {servers : List PlanServer} {schedule : Schedule.Plan}
    {policy : StreamPolicy} {needs : ℕ → Need}
    (taken : ceilings servers schedule policy = .ok needs) {place : ℕ} {server : PlanServer}
    (at_place : servers[place]? = some server) :
    (∀ bound, needs place ≤ bound ↔
      ∀ activity ∈ Schedule.activities schedule, activity.transfer ≠ [] →
        ∃ plan, planStreams servers activity policy = .ok plan ∧
          holding server activity plan place ≤ bound) ∧
      ((∀ activity ∈ Schedule.activities schedule,
          activity.transfer.length + control activity ≤ server.discovery.maxMeasurements) →
        (needs place).measurements ≤ server.discovery.maxMeasurements) ∧
      ∀ (limits : Lease.Limits) id granted, Lease.Client.fits (ask id (needs place) granted)
          (limits.share (ask id (needs place) granted)) = true ↔
        (needs place).measurements < limits.operationsPerClient ∧
          (needs place).sessions ≤ limits.sessionsPerClient := by
  refine ⟨ceilings_le_iff at_place taken, fun room => ?_, fun limits id granted => fits_iff ..⟩
  have covers := (ceilings_le_iff at_place taken (needs place)).1 ⟨le_rfl, le_rfl⟩
  let share : Need :=
    ⟨server.discovery.maxMeasurements, server.discovery.maxMeasurements, le_rfl⟩
  have within : needs place ≤ share := by
    refine (ceilings_le_iff at_place taken share).2 fun activity staged measures => ?_
    obtain ⟨plan, planned, -⟩ := covers activity staged measures
    have most := measurements_le staged planned at_place (room activity staged)
    exact ⟨plan, planned, most, (sessions_le server activity plan place).trans most⟩
  exact within.1

/-- **No lane is left for the bus.** A run with a stage whose lanes the lease caps, apart from any
pool and with nothing left over, is never granted its ask in full. -/
theorem ceilings_leave_no_bus {servers : List PlanServer} {schedule : Schedule.Plan}
    {policy : StreamPolicy} {needs : ℕ → Need}
    (taken : ceilings servers schedule policy = .ok needs) {place : ℕ} {server : PlanServer}
    (at_place : servers[place]? = some server) (fetches : ¬ server.session)
    (apart : server.http1 = none) {activity : Activity}
    (staged : activity ∈ Schedule.activities schedule) (measures : activity.transfer ≠ [])
    (capped : ∀ direction ∈ activity.transfer,
      server.share activity ≤ server.asked policy direction)
    (even : activity.transfer.length ∣ server.discovery.maxMeasurements - control activity)
    (limits : Lease.Limits)
    (advertised : server.discovery.maxMeasurements = limits.operationsPerClient)
    (id : ℕ) (granted : Bool) :
    Lease.Client.fits (ask id (needs place) granted)
      (limits.share (ask id (needs place) granted)) = false := by
  obtain ⟨plan, planned, held, -⟩ :=
    (ceilings_le_iff at_place taken (needs place)).1 ⟨le_rfl, le_rfl⟩ activity staged measures
  have all : server.discovery.maxMeasurements ≤ measurements server activity plan place :=
    le_measurements staged planned at_place fetches apart capped even
  rw [← Bool.not_eq_true, fits_iff]
  rintro ⟨left_over, -⟩
  have used : measurements server activity plan place ≤ (needs place).measurements := held
  omega

/-- A server reached over HTTP/2 that admits `maxMeasurements`. -/
def http2Server (maxMeasurements : ℕ) : PlanServer where
  id := "A"
  name := "A"
  discovery := ⟨"o", some "h2", maxMeasurements, []⟩
  transport := .fetchStream
  fetchOrigin := "o"
  fetchProtocol := .http2

/-- A run forced to ten streams over HTTP/2 is granted them beside the bus. -/
theorem ceilings_within_forced :
    ∃ needs, ceilings [http2Server 32] Streams.downloading ⟨.forced, some 10⟩ = .ok needs ∧
      (needs 0).measurements = 10 ∧
      Lease.Client.fits (ask 0 (needs 0) false)
        (Lease.Limits.share ⟨32, 8, by decide, by decide⟩ (ask 0 (needs 0) false)) = true := by
  have held : (ceilings [http2Server 32] Streams.downloading ⟨.forced, some 10⟩).toOption.map
      (fun needs => ((needs 0).measurements, (needs 0).sessions)) = some (10, 0) := by
    decide +kernel
  cases taken : ceilings [http2Server 32] Streams.downloading ⟨.forced, some 10⟩ with
  | error refusal => rw [taken] at held; cases held
  | ok needs =>
    rw [taken] at held
    obtain ⟨measurements, sessions⟩ := Prod.mk.inj (Option.some.inj held)
    have at_place : [http2Server 32][0]? = some (http2Server 32) := rfl
    obtain ⟨-, -, fits⟩ := ceilings_within taken at_place
    exact ⟨needs, rfl, measurements, (fits ⟨32, 8, by decide, by decide⟩ 0 false).2
      ⟨by rw [measurements]; decide, by rw [sessions]; decide⟩⟩

/-- Forced past what the server admits, a download asks for thirty-two lanes and the bus. -/
theorem ceilings_leave_no_bus_forced :
    ∃ needs, ceilings [http2Server 32] Streams.downloading ⟨.forced, some 128⟩ = .ok needs ∧
      (needs 0).measurements = 32 ∧
      Lease.Client.fits (ask 0 (needs 0) false)
        (Lease.Limits.share ⟨32, 8, by decide, by decide⟩ (ask 0 (needs 0) false)) = false := by
  have held : (ceilings [http2Server 32] Streams.downloading ⟨.forced, some 128⟩).toOption.map
      (fun needs => (needs 0).measurements) = some 32 := by
    decide +kernel
  cases taken : ceilings [http2Server 32] Streams.downloading ⟨.forced, some 128⟩ with
  | error refusal => rw [taken] at held; cases held
  | ok needs =>
    rw [taken] at held
    have at_place : [http2Server 32][0]? = some (http2Server 32) := rfl
    have staged : Streams.download ∈ Schedule.activities Streams.downloading := by
      decide +kernel
    refine ⟨needs, rfl, Option.some.inj held, ?_⟩
    exact ceilings_leave_no_bus taken at_place (by decide) rfl staged (by decide)
      (by decide +kernel) (by decide) ⟨32, 8, by decide, by decide⟩ rfl 0 false

end Ceilings

end GraphiteMeter.Browser
