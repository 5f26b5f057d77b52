import GraphiteMeter.Measure.Aggregate

/-!
# What a finished run reports

Reference: `client/src/engine/run/result.ts` (`failureSentence`, `lanes`, `grid`, `graded`) and
`client/src/protocol/reasons.ts` (`knownReason`).

The rules that judge a result, which History applies again to every record it reads. Of a lane's
result they read only whether there is one; `ρ` is what it may be.
-/

namespace GraphiteMeter.Browser

open GraphiteMeter.Measure (Dir Direction Stage)

/-! ## Reasons -/

/-- The ten reasons any failure carries. -/
inductive FailureReason where
  | pathFailed
  | connectionLost
  | timeout
  | signInRequired
  | clientLimit
  | serverCapacity
  | protocolError
  | insufficientEvidence
  | serverStopped
  | internalError
deriving DecidableEq, Repr

def failureReasons : List (String × FailureReason) :=
  [("path-failed", .pathFailed), ("connection-lost", .connectionLost), ("timeout", .timeout),
    ("sign-in-required", .signInRequired), ("client-limit", .clientLimit),
    ("server-capacity", .serverCapacity), ("protocol-error", .protocolError),
    ("insufficient-evidence", .insufficientEvidence), ("server-stopped", .serverStopped),
    ("internal-error", .internalError)]

/-- Reasons earlier builds saved under the name they had then. -/
def renamed : List (String × String) :=
  [("preparation-failed", "path-failed"), ("server-busy", "server-capacity")]

/-- A saved reason by its current name; none for one this build does not know. -/
def knownReason (saved : String) : Option FailureReason :=
  failureReasons.lookup ((renamed.lookup saved).getD saved)

/-! ## Results -/

inductive StageStatus where
  | complete
  | partly
  | failed
  | notRun
deriving DecidableEq, Repr

inductive Outcome where
  | complete
  | partly
  | incomplete
deriving DecidableEq, Repr

inductive Role where
  | throughput
  | latency
deriving DecidableEq, Repr

structure ServerIdentity where
  id : String
  name : String
deriving DecidableEq, Repr

structure ServerFailure where
  serverId : String
  stage : Stage
  /-- None where a record carries neither word. -/
  scope : Option Role
  reason : String
  message : String
  /-- The engine's or the server's own text. Earlier records kept it as the message. -/
  detail : Option String
deriving DecidableEq, Repr

structure StageResults (ρ : Type) where
  latency : Option ρ
  download : Option ρ
  upload : Option ρ
  bidirectional : Option (Dir (Option ρ))

/-- A server's share of the run. -/
structure ServerMeasurementSummary (ρ : Type) extends StageResults ρ where
  server : ServerIdentity
  /-- The transport of its latency target, if it has one. -/
  latencyTarget : Option String
  stages : Stage → StageStatus

structure MultiServerResult (ρ : Type) where
  selection : List ServerIdentity
  participants : List String
  servers : List (ServerMeasurementSummary ρ)
  failures : List ServerFailure

structure Graded (ρ : Type) extends StageResults ρ where
  stages : Stage → StageStatus
  multiServer : MultiServerResult ρ
  outcome : Option Outcome

def failureScope : Stage → Role
  | .latency => .latency
  | _ => .throughput

/-! ## Sentences -/

/-- Where a failure was; a server dropped at Start left at `start`. -/
inductive Place where
  | start
  | stage (stage : Stage)
deriving DecidableEq, Repr

/-- A transfer with a server; the latency stage transfers nothing. -/
def transferText : Stage → String → Option String
  | .latency, _ => none
  | .download, server => some ("Download from " ++ server)
  | .upload, server => some ("Upload to " ++ server)
  | .bidirectional, server => some ("The bidirectional transfer with " ++ server)

def during : Stage → String
  | .latency => "during the latency stage"
  | .download => "during the download"
  | .upload => "during the upload"
  | .bidirectional => "during the bidirectional transfer"

def stageName : Stage → String
  | .latency => "latency"
  | .download => "download"
  | .upload => "upload"
  | .bidirectional => "bidirectional"

def startSentence (known : Option FailureReason) (server : String) : String :=
  match known with
  | some .serverCapacity => server ++ " had no room for another test when this one started."
  | some .clientLimit =>
    server ++ " already ran a test for your address or sign-in when this one started."
  | some .signInRequired => server ++ " asked for a sign-in when this test started."
  | some .protocolError =>
    server ++ " sent a reply this page cannot read when this test started."
  | some .connectionLost | some .timeout => server ++ " stopped answering as this test started."
  | some .serverStopped =>
    server ++ " stopped as this test started; try again when it is back."
  | _ => "The connection to " ++ server ++ " could not be checked before this test started."

def latencySentence (known : Option FailureReason) (stage : Stage) (server : String) : String :=
  let loaded := if stage = .latency then "" else " " ++ during stage
  match known with
  | some .connectionLost => "Latency probes to " ++ server ++ " lost their connection" ++ loaded ++ "."
  | some .timeout => server ++ " stopped answering latency probes" ++ loaded ++ "."
  | some .pathFailed => "Latency probes could not reach " ++ server ++ loaded ++ "."
  | some .signInRequired =>
    "Latency probes to " ++ server ++ " stopped when its sign-in ended " ++ during stage ++ "."
  | some .serverStopped => server ++ " stopped " ++ during stage ++ "."
  | some .clientLimit =>
    server ++ " refused latency probes for your address or sign-in " ++ during stage ++ "."
  | some .serverCapacity => server ++ " had no room for latency probes " ++ during stage ++ "."
  | some .protocolError =>
    (during stage).capitalize ++ ", " ++ server ++ " sent a latency reply this page cannot read."
  | some .insufficientEvidence =>
    if loaded ≠ "" then
      (during stage).capitalize ++ ", " ++ server ++ " answered too few latency probes for a result."
    else server ++ " answered too few latency probes for a result."
  | _ =>
    (during stage).capitalize ++ ", latency probes to " ++ server
      ++ " ran into a problem this page does not name."

/-- None where the latency stage is asked for its transfer. -/
def throughputSentence (known : Option FailureReason) (stage : Stage)
    (direction : Option Direction) (server : String) : Option String :=
  let lane :=
    if stage ≠ .bidirectional then stageName stage
    else if direction = some .up then "upload" else "download"
  let within :=
    if stage = .bidirectional ∧ direction.isSome then " in the bidirectional transfer" else ""
  match known with
  | some .connectionLost => (transferText stage server).map (· ++ " lost its connection.")
  | some .timeout =>
    if stage = .bidirectional ∧ direction = none then
      some ("The bidirectional transfer with " ++ server ++ " stopped moving data.")
    else
      some (lane.capitalize ++ " data " ++ (if lane = "upload" then "to" else "from") ++ " " ++ server
        ++ " stopped arriving" ++ within ++ ".")
  | some .pathFailed => (transferText stage server).map (· ++ " could not start.")
  | some .signInRequired => some ("The sign-in to " ++ server ++ " ended " ++ during stage ++ ".")
  | some .serverStopped => some (server ++ " stopped " ++ during stage ++ ".")
  | some .clientLimit =>
    some (server ++ " refused more connections for your address or sign-in " ++ during stage ++ ".")
  | some .serverCapacity =>
    some (server ++ " had no room for more connections " ++ during stage ++ ".")
  | some .protocolError =>
    some ((during stage).capitalize ++ ", " ++ server ++ " sent a reply this page cannot read.")
  | some .insufficientEvidence =>
    if stage = .bidirectional ∧ direction = none then
      some (server ++ " exchanged too little data in the bidirectional transfer for a result.")
    else
      some (server ++ (if lane = "upload" then " received" else " sent") ++ " too little " ++ lane
        ++ " data" ++ within ++ " for a result.")
  | _ =>
    some ((during stage).capitalize ++ ", " ++ server
      ++ " ran into a problem this page does not name.")

/-- A failure as a reader of the result says it, naming its server and where. -/
def failureSentence (reason : String) (place : Place) (scope : Option Role)
    (direction : Option Direction) (server : String) : Option String :=
  let known := knownReason reason
  match place with
  | .start =>
    if scope = some .latency then
      some ("Latency to " ++ server ++ " could not be checked before this test started.")
    else some (startSentence known server)
  | .stage stage =>
    if scope = some .latency then some (latencySentence known stage server)
    else throughputSentence known stage direction server

/-! ## The grid -/

def lanes {ρ : Type} (results : StageResults ρ) : Stage → List (Option ρ)
  | .latency => [results.latency]
  | .download => [results.download]
  | .upload => [results.upload]
  | .bidirectional =>
    [results.bidirectional.bind (·.down), results.bidirectional.bind (·.up)]

/-- Every lane of a stage has a result. -/
def measuredLanes {ρ : Type} (results : StageResults ρ) (stage : Stage) : Bool :=
  (lanes results stage).all Option.isSome

/-- A selected server's stage, or a whole stage: `unreached` took no part, `skipped` was off for the
run. -/
inductive CellStatus where
  | complete
  | partly
  | failed
  | unreached
  | skipped
deriving DecidableEq, Repr

/-- Why a cell is not complete. -/
structure Cause where
  place : Place
  failure : ServerFailure
deriving DecidableEq, Repr

def ServerFailure.cause (failure : ServerFailure) : Cause := ⟨.stage failure.stage, failure⟩

structure Cell where
  status : CellStatus
  /-- Its own failure, or for an unreached cell the one that took its server out. -/
  cause : Option Cause
deriving DecidableEq, Repr

structure Row where
  server : ServerIdentity
  cells : Stage → Cell
  outcome : Outcome
  causes : List Cause

structure Grid where
  rows : List Row
  columns : Stage → CellStatus
  outcome : Outcome
  /-- Some stage has a result. -/
  measured : Bool
  causes : List Cause

def stages : List Stage := [.latency, .download, .upload, .bidirectional]

def stageIndex : Stage → ℕ
  | .latency => 0
  | .download => 1
  | .upload => 2
  | .bidirectional => 3

/-- The order of causes, `start` first. -/
def order : Place → ℕ
  | .start => 0
  | .stage stage => stageIndex stage + 1

def StageStatus.cell : StageStatus → CellStatus
  | .complete => .complete
  | .partly => .partly
  | .failed => .failed
  | .notRun => .skipped

/-- The failure charged for what a stage is for. -/
def charged (own : List ServerFailure) (stage : Stage) : Option ServerFailure :=
  own.find? fun f => f.stage = stage ∧ f.scope = some (failureScope stage)

section Grid

variable {ρ : Type}

def summaryOf (result : Graded ρ) (server : ServerIdentity) : Option (ServerMeasurementSummary ρ) :=
  result.multiServer.servers.find? fun entry => entry.server.id = server.id

def ownFailures (result : Graded ρ) (server : ServerIdentity) : List ServerFailure :=
  result.multiServer.failures.filter fun failure => failure.serverId = server.id

/-- A server outside the run failed its start check; its failure was charged to a stage it never
reached. -/
def startCause (result : Graded ρ) (server : ServerIdentity) : Option Cause :=
  let own := ownFailures result server
  let blocking := (own.find? fun failure => failure.scope = some .throughput) <|> own.head?
  if (summaryOf result server).isSome then none else blocking.map fun failure => ⟨.start, failure⟩

def cell (result : Graded ρ) (running : Option Stage) (server : ServerIdentity) (stage : Stage) :
    Cell :=
  if result.stages stage = .notRun ∧ some stage ≠ running then ⟨.skipped, none⟩
  else
    match summaryOf result server with
    | none => ⟨.unreached, startCause result server⟩
    | some summary =>
      let own := ownFailures result server
      let failure := charged own stage
      -- A server without a latency path takes no part in the latency stage by plan, unless charged.
      if stage = .latency ∧ summary.latencyTarget = none ∧ failure = none then ⟨.skipped, none⟩
      else
        let left := own.reverse.find? fun f =>
          f.scope = some (failureScope f.stage) ∧ stageIndex f.stage < stageIndex stage
        if some stage = running then
          match failure with
          | some failure => ⟨.failed, some failure.cause⟩
          | none =>
            -- A sole server rejoins at each stage, though no event has said so yet.
            if server.id ∈ result.multiServer.participants ∨ result.multiServer.servers.length = 1 then
              ⟨.complete, none⟩
            else ⟨.unreached, left.map ServerFailure.cause⟩
        else
          let status := summary.stages stage
          -- A server's own lanes decide.
          if status ≠ .notRun then
            ⟨if measuredLanes summary.toStageResults stage then status.cell else .failed,
              failure.map ServerFailure.cause⟩
          else
            -- Charged for a stage it never ran, it failed there.
            match failure with
            | some failure => ⟨.failed, some failure.cause⟩
            | none => ⟨.unreached, left.map ServerFailure.cause⟩

def row (result : Graded ρ) (running : Option Stage) (server : ServerIdentity) : Row :=
  let own := ownFailures result server
  let cells := cell result running server
  let statuses := stages.map fun stage => (cells stage).status
  -- Loaded latency lost because its server left the stage is that leaving, not a cause of its own.
  let consequence (f : ServerFailure) : Bool :=
    f.scope ≠ some (failureScope f.stage) ∧
      own.any fun g => g.stage = f.stage ∧ g.scope = some (failureScope g.stage)
  let causes :=
    match startCause result server with
    | some start => [start]
    | none =>
      ((own.filter fun f => !consequence f).mergeSort fun a b =>
        order (.stage a.stage) ≤ order (.stage b.stage)).map ServerFailure.cause
  let outcome : Outcome :=
    if statuses.any fun status => status = .failed ∨ status = .unreached then .incomplete
    else if causes ≠ [] ∨ .partly ∈ statuses then .partly
    else .complete
  ⟨server, cells, outcome, causes⟩

def column (result : Graded ρ) (rows : List Row) (stage : Stage) : CellStatus :=
  let saved := result.stages stage
  if saved = .notRun then .skipped
  else
    let cells := (rows.map fun row => (row.cells stage).status).filter fun status => status ≠ .skipped
    if measuredLanes result.toStageResults stage = false then
      if cells.all fun status => status = .unreached then .unreached else .failed
    else if saved = .complete ∧ cells.all fun status => status = .complete then .complete
    else .partly

/-- The result as servers by stages. A `running` stage reads each server as it stands so far. -/
def grid (result : Graded ρ) (running : Option Stage) : Grid :=
  let rows := result.multiServer.selection.map (row result running)
  let columns := column result rows
  let statuses := stages.map columns
  { rows
    columns
    outcome :=
      if statuses.any fun status => status = .failed ∨ status = .unreached then .incomplete
      else if result.multiServer.failures ≠ [] ∨ .partly ∈ statuses then .partly
      else .complete
    measured := statuses.any fun status => status = .complete ∨ status = .partly
    causes := rows.flatMap (·.causes) }

/-! ## Grading -/

/-- A column as a record saves it. -/
def saved : CellStatus → StageStatus
  | .complete => .complete
  | .partly => .partly
  | .failed => .failed
  | .unreached => .failed
  | .skipped => .notRun

def outcomes : List Outcome := [.complete, .partly, .incomplete]

/-- How bad an outcome is. -/
def Outcome.index : Outcome → ℕ
  | .complete => 0
  | .partly => 1
  | .incomplete => 2

/-- A failure without a detail kept its lane's or server's text as its message; it reads as a
sentence now. None where there is no sentence for it. -/
def said (result : Graded ρ) (failure : ServerFailure) : Option ServerFailure :=
  match failure.detail with
  | some _ => some failure
  | none =>
    let ran := result.multiServer.servers.any fun entry => entry.server.id = failure.serverId
    let name :=
      match result.multiServer.selection.find? fun server => server.id = failure.serverId with
      | some server => if server.name = "" then failure.serverId else server.name
      | none => failure.serverId
    (failureSentence failure.reason (if ran then .stage failure.stage else .start) failure.scope none
      name).map fun message => { failure with detail := some failure.message, message }

/-- The result with the grid's stages and outcome: what a run saves, and what History reads of any
record. None where a failure's sentence throws. -/
def graded (result : Graded ρ) : Option (Graded ρ) :=
  let judged := grid result none
  -- Judging again only adds causes; a saved worse outcome had evidence a record no longer keeps.
  let before := ((result.outcome).getD .complete).index
  (result.multiServer.failures.mapM (said result)).map fun failures =>
    { result with
      stages := fun stage => saved (judged.columns stage)
      outcome := outcomes[max before judged.outcome.index]?
      multiServer := { result.multiServer with failures } }

end Grid

end GraphiteMeter.Browser
