import GraphiteMeter.Client.Latency
import GraphiteMeter.Measure.Observe

/-!
# The stage engine

Reference: `rust/client/src/run/engine.rs`, with the failures of `rust/client/src/model.rs`. Pure and
tick-synchronous: the coordinator feeds time and observations.

Instants and durations are nanoseconds and the range of neither is reached. What a call pushes to its
`out` it appends here to the decisions it is given.
-/

namespace GraphiteMeter.Client

open GraphiteMeter.Measure (Aggregate Boundary Dir Direction Reading ServerId Stage)

def tickLength : ℕ := 250 * 10 ^ 6

def readyBound : ℕ := 10 * 10 ^ 9

def checkpointBudget : ℕ := 1500 * 10 ^ 6

def openingBound : ℕ := 5 * 10 ^ 9

def finalCheckpointBudget : ℕ := 500 * 10 ^ 6

def lateTick : ℕ := 1500 * 10 ^ 6

/-- Half a tick: a shorter window holds only a few reads, so its rates stay off the live trace. -/
def liveWindow : ℕ := 125 * 10 ^ 6

/-- Bytes that stop growing this long are silence. -/
def silence : ℕ := 2 * 10 ^ 9

/-- Another server that moved this recently makes a silent one's problem its own. -/
def quietBound : ℕ := 500 * 10 ^ 6

def missedCheckpoints : ℕ := 3

def drainBound : ℕ := 10 * 10 ^ 9

def uncheckpointed : String := "receiver checkpoint unavailable before measurement"

/-! ## Failures -/

inductive FailureReason where
  | pathFailed
  | connectionLost
  | timeout
  | signInRequired
  | clientLimit
  | serverCapacity
  | protocolError
  | insufficientEvidence
  | serverStopped
  | internalError
deriving DecidableEq, Repr

/-- Why a server's stage or path failed, decided where the failure arose. -/
structure Failure where
  reason : FailureReason
  text : String
deriving DecidableEq, Repr

/-- What a failure ends: a server's path, its throughput or its latency population. -/
inductive Scope where
  | server
  | throughput
  | latency
deriving DecidableEq, Repr

/-- A direction's lanes: moving, retrying a failure, or failed for good. -/
inductive LaneHealth where
  | ok
  | retrying (failure : Failure)
  | failed (failure : Failure)
deriving DecidableEq, Repr

def LaneHealth.failure : LaneHealth → Option Failure
  | .failed failure => some failure
  | _ => none

structure ServerFailure where
  server : ServerId
  scope : Scope
  failure : Failure
  at_ : ℕ
deriving DecidableEq, Repr

/-! ## What the coordinator feeds -/

structure Member where
  server : ServerId
  warmup : ℕ
deriving DecidableEq, Repr

/-- A stage's members are servers of the run, which selects no server twice. -/
structure StagePlan where
  stage : Stage
  members : List Member
  duration : ℕ
  latency : Option Cadence
  distinct : (members.map Member.server).Nodup

structure Sample where
  /-- Its counters, with the checkpoint asked for when it arrived. -/
  reading : Reading
  /-- Its lanes are open and its upload feed advances. -/
  ready : Bool
  missed : Option Failure
  lanes : Dir LaneHealth
deriving DecidableEq, Repr

inductive ProberEvent where
  | outcome (sent : ℕ) (outcome : ProbeOutcome)
  /-- The population failed: the channel is gone for this stage. -/
  | down (at_ : ℕ) (failure : Failure)
  /-- A channel opened; replies before it are not adjacent to those after. -/
  | up
  /-- Sending stopped and every probe of the window resolved. -/
  | drained
deriving DecidableEq, Repr

structure Input where
  now : ℕ
  /-- How late the tick fired; zero for the first one. -/
  lateness : ℕ
  samples : List Sample
  probes : List (ServerId × ProberEvent)
  /-- Members whose participant could not open the stage. -/
  departed : List (ServerId × Failure)
deriving DecidableEq, Repr

def Input.sample (input : Input) (server : ServerId) : Option Sample :=
  input.samples.find? fun sample => sample.reading.server = server

/-- A sample with its upload checkpoint. -/
def Input.checkpointed (input : Input) (server : ServerId) : Bool :=
  (input.sample server).any fun sample => sample.reading.up.isSome

/-- A missed checkpoint that asks to sign in. -/
def Input.refused (input : Input) (server : ServerId) : Option Failure :=
  ((input.sample server).bind Sample.missed).filter fun failure => failure.reason = .signInRequired

/-! ## What the engine decides -/

inductive Decision where
  /-- The measured window: probes sent in it count, and it closes at `end_`. -/
  | openWindow (start end_ : ℕ)
  /-- The next tick's samples carry checkpoints gathered within this budget. -/
  | checkpoint (budget : ℕ)
  /-- The window closed: lanes stop, upload sessions finish and probers drain. -/
  | closeWindow
  /-- A failure the member stays for: its latency population or the stage's evidence is lost. -/
  | failed (failure : ServerFailure)
  | remove (failure : ServerFailure)
  /-- The stage is over: every participant ends. -/
  | finish
deriving DecidableEq, Repr

structure Tick where
  decisions : List Decision
  /-- The boundary's live-trace rates: a window of at least half a tick, or any at a restart; none
  breaks the trace. -/
  live : Option (Dir (Option ℚ))
  next : ℕ
deriving DecidableEq, Repr

/-! ## The engine -/

structure Window where
  start : ℕ
  end_ : ℕ
  aggregate : Option Aggregate

inductive Phase where
  | ready
  | warmup (until_ : ℕ)
  /-- The window opens with the next tick's checkpoints. -/
  | opening (until_ : ℕ)
  /-- `last`: the current tick's checkpoints were asked for as the final boundary's. -/
  | measuring (window : Window) (last : Bool)
  | draining (window : Window) (ended : ℕ)
  /-- With the window and when it ended, once one opened, and whether the user stopped the stage. -/
  | done (measured : Option (Window × ℕ)) (stopped : Bool)

def Phase.window : Phase → Option Window
  | .measuring window _ | .draining window _ | .done (some (window, _)) _ => some window
  | .ready | .warmup _ | .opening _ | .done none _ => none

inductive Probing where
  | off
  | waiting
  | up
  | failed
  | drained
  | cut
deriving DecidableEq, Repr

/-- A prober that still has probes to send or to drain. -/
def Probing.probes : Probing → Bool
  | .waiting | .up => true
  | _ => false

structure Seat where
  server : ServerId
  warmup : ℕ
  present : Bool
  probing : Probing
  latency : Latency
  misses : ℕ
  moved : Dir ℕ
deriving DecidableEq, Repr

def Seat.quiet (seat : Seat) (direction : Direction) (now : ℕ) : ℕ := now - seat.moved.get direction

structure Engine where
  plan : StagePlan
  phase : Phase
  created : ℕ
  seats : List Seat
  failures : List ServerFailure

structure Throughput where
  rate : Option Measure.Rate
  bytes : ℕ
deriving DecidableEq, Repr

namespace Engine

def new (plan : StagePlan) (now : ℕ) : Engine :=
  let probing : Probing := if plan.latency.isSome then .waiting else .off
  { plan
    phase := .ready
    created := now
    seats := plan.members.map fun member =>
      ⟨member.server, member.warmup, true, probing, .empty, 0, ⟨now, now⟩⟩
    failures := [] }

/-! ### Reading the phase -/

def window (e : Engine) : Option Window := e.phase.window

def bounds (e : Engine) : Option (ℕ × ℕ) := e.window.map fun window => (window.start, window.end_)

def stopped (e : Engine) : Bool :=
  match e.phase with
  | .done _ true => true
  | _ => false

def isReady (e : Engine) : Bool :=
  match e.phase with
  | .ready => true
  | _ => false

def isDraining (e : Engine) : Bool :=
  match e.phase with
  | .draining _ _ => true
  | _ => false

def isDone (e : Engine) : Bool :=
  match e.phase with
  | .done _ _ => true
  | _ => false

def aggregate (e : Engine) : Option Aggregate := e.window.bind Window.aggregate

/-- Changes the window's aggregate where there is one. -/
def aggregateMut (e : Engine) (change : Aggregate → Aggregate) : Engine :=
  let within (window : Window) : Window :=
    { window with aggregate := window.aggregate.map change }
  match e.phase with
  | .measuring window last => { e with phase := .measuring (within window) last }
  | .draining window ended => { e with phase := .draining (within window) ended }
  | .done (some (window, ended)) stopped => { e with phase := .done (some (within window, ended)) stopped }
  | .ready | .warmup _ | .opening _ | .done none _ => e

/-- The window and when it ended, ended `now` if it still runs; the caller sets the next phase. -/
def takeMeasured (e : Engine) (now : ℕ) : Option (Window × ℕ) :=
  match e.phase with
  | .measuring window _ => some (window, now)
  | .draining window ended => some (window, ended)
  | .done measured _ => measured
  | .ready | .warmup _ | .opening _ => none

/-! ### The seats -/

def present (e : Engine) : List Seat := e.seats.filter Seat.present

/-- The servers of the members still present. -/
def remaining (e : Engine) : List ServerId := e.present.map Seat.server

def index (e : Engine) (server : ServerId) : Option ℕ :=
  e.seats.findIdx? fun seat => seat.present && seat.server = server

def modify (e : Engine) (index : ℕ) (change : Seat → Seat) : Engine :=
  { e with seats := e.seats.modify index change }

/-- A loop over the seats by their index. -/
def forSeats (e : Engine) (turn : Engine → List Decision → ℕ → Engine × List Decision)
    (out : List Decision) : Engine × List Decision :=
  (List.range e.seats.length).foldl (fun s index => turn s.1 s.2 index) (e, out)

def fail (e : Engine) (index : ℕ) (scope : Scope) (cause : Failure) (at_ : ℕ) (leaves : Bool)
    (out : List Decision) : Engine × List Decision :=
  match e.seats[index]? with
  | none => (e, out)
  | some seat =>
    let failure : ServerFailure := ⟨seat.server, scope, cause, at_⟩
    ({ e.modify index fun seat => { seat with present := seat.present && !leaves } with
        failures := e.failures ++ [failure] },
      out ++ [if leaves then .remove failure else .failed failure])

/-- Per direction the stage moves, `server`'s share or all servers' headline and bytes; none without
a window. -/
def throughput (e : Engine) (server : Option ServerId) : Dir (Option Throughput) :=
  let measured (all : Aggregate) (direction : Direction) : Throughput :=
    match server with
    | none => ⟨all.result direction,
        (all.ledgers.map fun ledger => ledger.bytes.get direction).foldl Word.saturatingAdd 0⟩
    | some id => ⟨all.server id direction, all.bytes id direction⟩
  Dir.ofFn fun direction =>
    (e.aggregate.filter fun _ => e.plan.stage.moves direction).map fun all => measured all direction

/-! ### Ending -/

/-- Records the evidence that a member still present lacks. -/
def insufficient (throughput latency : Bool) (now : ℕ) (e : Engine) (out : List Decision)
    (index : ℕ) : Engine × List Decision :=
  match e.seats[index]? with
  | none => (e, out)
  | some seat =>
    let unmeasured := latency && seat.probing ≠ .failed && seat.latency.summary.p50.isNone
    let scopes := [(throughput, Scope.throughput), (unmeasured, Scope.latency)]
    (scopes.filter fun scope => scope.1 && seat.present).foldl
      (fun s scope => s.1.fail index scope.2 ⟨.insufficientEvidence, "too little measured time"⟩ now
        false s.2)
      (e, out)

/-- Ends the stage, recording `insufficient-evidence` for members still present whose result is
missing. -/
def finish (e : Engine) (now : ℕ) (out : List Decision) : Engine × List Decision :=
  let e := { e with phase := .done (e.takeMeasured now) e.stopped }
  let lacks (throughput : Option Throughput) : Bool :=
    throughput.any fun throughput => throughput.rate.isNone
  let all := e.throughput none
  let explained := e.failures.any fun failure => failure.scope ≠ .latency
  let throughput := e.window.isSome && !explained && (lacks all.down || lacks all.up)
  let latency := e.window.isSome && e.plan.stage = .latency
  let (e, out) := e.forSeats (insufficient throughput latency now) out
  (e, out ++ [.finish])

def stop (e : Engine) (now : ℕ) : Engine :=
  if e.isDraining then
    let cut (seat : Seat) : Seat := if seat.probing.probes then { seat with probing := .cut } else seat
    (finish { e with seats := e.seats.map cut } now []).1
  else { e with phase := .done (e.takeMeasured now) true }

/-! ### Probes and lanes -/

/-- A lost latency population; in the latency stage a server lost beside another leaves the run, and a
stopped one always. -/
def latencyFailed (e : Engine) (index : ℕ) (failure : Failure) (at_ : ℕ) (out : List Decision) :
    Engine × List Decision :=
  if (e.seats[index]?).any fun seat => seat.probing = .failed then (e, out)
  else
    let e := e.modify index fun seat => { seat with probing := .failed }
    let lost := failure.reason = .connectionLost ∨ failure.reason = .timeout
    let latency := e.plan.stage = .latency
    if failure.reason = .serverStopped then
      e.fail index (if latency then .latency else .throughput) failure at_ true out
    else e.fail index .latency failure at_ (latency ∧ lost ∧ 1 < e.present.length) out

def probe (e : Engine) (server : ServerId) (probe : ProberEvent) (out : List Decision) :
    Engine × List Decision :=
  match e.index server with
  | none => (e, out)
  | some index =>
    match probe with
    | .outcome sent outcome =>
      if e.bounds.any fun window => window.1 ≤ sent ∧ sent < window.2 then
        (e.modify index fun seat => { seat with latency := seat.latency.record outcome }, out)
      else (e, out)
    | .up =>
      (e.modify index fun seat =>
        { seat with
          latency := seat.latency.breakContinuity
          probing := if seat.probing = .waiting then .up else seat.probing }, out)
    | .drained =>
      (e.modify index fun seat =>
        { seat with probing := if seat.probing.probes then .drained else seat.probing }, out)
    | .down at_ failure => e.latencyFailed index failure at_ out

/-- One member's turn of `checkLanes`. -/
def checkLane (directions : List Direction) (closed : Option ℕ) (now : ℕ) (e : Engine)
    (out : List Decision) (sample : Sample) : Engine × List Decision :=
  match e.index sample.reading.server,
    directions.findSome? fun direction => (sample.lanes.get direction).failure with
  | some index, some failure =>
    let moving := closed.any fun end_ => (e.seats[index]?).any fun seat =>
      directions.all fun direction => seat.quiet direction end_ < quietBound
    if moving then (e, out) else e.fail index .throughput failure now true out
  | _, _ => (e, out)

/-- A member whose lanes failed for good leaves, unless they failed after the window closed while it
was moving. -/
def checkLanes (e : Engine) (input : Input) (out : List Decision) : Engine × List Decision :=
  let closed := (e.bounds.map fun bounds => bounds.2).filter fun end_ => end_ ≤ input.now
  input.samples.foldl
    (fun s sample => checkLane e.plan.stage.directions closed input.now s.1 s.2 sample) (e, out)

/-! ### Getting ready -/

/-- The members whose lanes or prober are not ready, by index, and whether it is the lanes. -/
def late (e : Engine) (input : Input) : List (ℕ × Bool) :=
  e.seats.zipIdx.filterMap fun (seat, index) =>
    let lanes := !e.plan.stage.directions.isEmpty && !(input.sample seat.server).any Sample.ready
    let probing := seat.probing = .waiting && !input.probes.contains (seat.server, .up)
    if seat.present && (lanes || probing) then some (index, lanes) else none

/-- Waits until every member's lanes and prober are ready; at the bound the late ones fail. -/
def ready (e : Engine) (input : Input) (tick : Tick) : Engine × Tick :=
  let late := e.late input
  let bound := e.created + readyBound
  if late ≠ [] ∧ input.now < bound then (e, { tick with next := min tick.next bound })
  else
    let failure : Failure := ⟨.pathFailed, "the test server was not ready within 10 s"⟩
    let (e, decisions) := late.foldl
      (fun s late =>
        if late.2 then s.1.fail late.1 .throughput failure input.now true s.2
        else s.1.latencyFailed late.1 failure input.now s.2)
      (e, tick.decisions)
    let warmup := (e.present.map Seat.warmup).max?.getD 0
    ({ e with phase := .warmup (input.now + warmup) }, { tick with decisions })

/-! ### The window -/

/-- The boundary of a tick: the samples of the members present. -/
def boundary (e : Engine) (input : Input) (last : Bool) : Boundary :=
  { at_ := input.now
    stalled := !last && lateTick < input.lateness
    last
    readings := (e.present.filterMap fun seat => input.sample seat.server).map Sample.reading }

/-- Asks for the next boundary; the window's end is the final one. -/
def schedule (e : Engine) (now : ℕ) (tick : Tick) : Engine × Tick :=
  match e.phase with
  | .measuring window _ =>
    let next := max (min (now + tickLength) window.end_) now
    let last : Bool := window.end_ ≤ next
    let budget := if last then finalCheckpointBudget else checkpointBudget
    ({ e with phase := .measuring window last },
      { tick with
        next
        decisions :=
          if e.plan.stage.moves .up then tick.decisions ++ [.checkpoint budget] else tick.decisions })
  | _ => (e, tick)

/-- While the window is opening, a member refused its first checkpoint leaves. -/
def refuse (input : Input) (e : Engine) (out : List Decision) (index : ℕ) :
    Engine × List Decision :=
  match e.seats[index]? with
  | none => (e, out)
  | some seat =>
    match input.refused seat.server with
    | some failure => if seat.present then e.fail index .throughput failure input.now true out else (e, out)
    | none => (e, out)

/-- An uploading member without its first checkpoint leaves. -/
def unopened (input : Input) (e : Engine) (out : List Decision) (index : ℕ) :
    Engine × List Decision :=
  match e.seats[index]? with
  | none => (e, out)
  | some seat =>
    if e.plan.stage.moves .up = false ∨ seat.present = false ∨ input.checkpointed seat.server then
      (e, out)
    else
      let failure := (input.refused seat.server).getD ⟨.pathFailed, uncheckpointed⟩
      e.fail index .throughput failure input.now true out

/-- The end of `open_`, once it waits for no checkpoint. -/
def opened (e : Engine) (input : Input) (tick : Tick) : Engine × Tick :=
  let (e, decisions) := e.forSeats (unopened input) tick.decisions
  if e.present = [] then (e, { tick with decisions })
  else
    let now := input.now
    let end_ := now + e.plan.duration
    let moved (seat : Seat) : Seat := { seat with moved := ⟨now, now⟩ }
    let e := { e with seats := e.seats.map moved }
    let aggregate :=
      if e.plan.stage.directions = [] then none
      else some ((Aggregate.new e.plan.stage e.remaining now).observe (e.boundary input false)).2
    schedule { e with phase := .measuring ⟨now, end_, aggregate⟩ false } now
      { tick with decisions := decisions ++ [.openWindow now end_] }

/-- Opens the window from this tick's samples. -/
def open_ (e : Engine) (input : Input) (tick : Tick) : Engine × Tick :=
  match e.phase with
  | .opening until_ =>
    let (e, decisions) := e.forSeats (refuse input) tick.decisions
    let missing := e.present.any fun seat => !input.checkpointed seat.server
    if missing ∧ input.now < until_ then
      (e, { tick with
        next := min (input.now + tickLength) until_
        decisions := decisions ++ [.checkpoint (min checkpointBudget (until_ - input.now))] })
    else e.opened input { tick with decisions }
  | _ => e.opened input tick

/-- Uploads open the window with the next tick's checkpoints, other stages at once. -/
def warmed (e : Engine) (input : Input) (tick : Tick) : Engine × Tick :=
  if e.plan.stage.moves .up then
    ({ e with phase := .opening (input.now + openingBound) },
      { tick with
        next := input.now
        decisions := tick.decisions ++ [.checkpoint checkpointBudget] })
  else e.open_ input tick

/-! ### Measuring -/

def moving (e : Engine) (except : ℕ) (direction : Direction) (now : ℕ) : Bool :=
  e.seats.zipIdx.any fun (seat, index) =>
    index ≠ except && seat.present && seat.quiet direction now < quietBound

/-- A refused checkpoint leaves at once; three missed in a row leave while another server's uploads
move. -/
def missed (e : Engine) (index : ℕ) (seat : Seat) (sample : Option Sample) (now : ℕ) (last : Bool) :
    Option Failure × Engine :=
  match sample with
  | none => (none, e)
  | some sample =>
    let misses := if sample.reading.up.isSome then 0 else seat.misses
    match sample.missed with
    | none => (none, e.modify index fun seat => { seat with misses })
    | some failure =>
      let misses := misses + 1
      let refused := failure.reason = .signInRequired
      (if refused ∨ missedCheckpoints ≤ misses ∧ last = false ∧ e.moving index .up now then
          some failure
        else none,
        e.modify index fun seat => { seat with misses })

/-- A direction that fails its member: silent while another server moves, or retrying at the end. -/
def silent (e : Engine) (index : ℕ) (seat : Seat) (sample : Option Sample) (now : ℕ) (last : Bool)
    (direction : Direction) : Option Failure :=
  if silence ≤ seat.quiet direction now ∧ (last ∨ e.moving index direction now) then
    let text := match direction with
      | .down => "no download data for 2 s"
      | .up => "no upload data for 2 s"
    some ⟨.timeout, text⟩
  else
    match sample.map fun sample : Sample => sample.lanes.get direction with
    | some (.retrying failure) =>
      if last ∧ quietBound ≤ seat.quiet direction now then some failure else none
    | _ => none

def departure (e : Engine) (index : ℕ) (input : Input) (last : Bool) : Option Failure × Engine :=
  match e.seats[index]? with
  | none => (none, e)
  | some seat =>
    let sample := input.sample seat.server
    if seat.present = false then (none, e)
    else
      match e.missed index seat sample input.now last with
      | (some failure, e) => (some failure, e)
      | (none, e) =>
        -- The final checkpoint can answer well after the window closed; silence counts up to the
        -- window's end.
        let closed := e.bounds.map fun bounds => min bounds.2 input.now
        let now := if last then closed.getD input.now else input.now
        (e.plan.stage.directions.findSome? (e.silent index seat sample now last), e)

/-- One member's turn of the loop in `observe`. -/
def depart (input : Input) (last : Bool) (e : Engine) (out : List Decision) (index : ℕ) :
    Engine × List Decision :=
  match e.departure index input last with
  | (some failure, e) => e.fail index .throughput failure input.now true out
  | (none, e) => (e, out)

/-- Credits the boundary, then removes members whose checkpoints or bytes fail them. -/
def observe (e : Engine) (input : Input) (last : Bool) (tick : Tick) : Engine × Tick :=
  match e.phase with
  | .measuring ⟨start, end_, some aggregate⟩ final =>
    let (window, observed) := aggregate.observe (e.boundary input last)
    let restarted := aggregate.begun < observed.begun
    let live :=
      if restarted ∨ window.any fun window => liveWindow ≤ window.shortest then
        some (window.elim ⟨none, none⟩ Measure.Window.rates)
      else tick.live
    let move (seat : Seat) : Seat :=
      { seat with moved := Dir.ofFn fun direction =>
          if aggregate.bytes seat.server direction < observed.bytes seat.server direction then input.now
          else seat.moved.get direction }
    let e := { e with
      phase := .measuring ⟨start, end_, some observed⟩ final
      seats := e.seats.map move }
    let (e, decisions) := e.forSeats (depart input last) tick.decisions
    (e, { tick with live, decisions })
  | _ => (e, tick)

def measure (e : Engine) (input : Input) (tick : Tick) : Engine × Tick :=
  match e.phase with
  | .measuring window final =>
    let checkpointed := final || !e.plan.stage.moves .up
    let last := checkpointed && window.end_ ≤ input.now
    let (e, tick) := if window.aggregate.isSome then e.observe input last tick else (e, tick)
    if last = false then e.schedule input.now tick
    else
      let phase : Phase := match e.phase with
        | .measuring window _ => .draining window input.now
        | other => other
      ({ e with phase }, { tick with decisions := tick.decisions ++ [.closeWindow] })
  | _ => (e, tick)

/-- Finishes once every probing member drained, or at the drain bound. -/
def drain (e : Engine) (now : ℕ) : Engine :=
  match e.phase with
  | .draining window _ =>
    if (e.present.any fun seat => seat.probing.probes) = false ∨ window.end_ + drainBound ≤ now then
      { e with phase := .done (e.takeMeasured now) false }
    else e
  | _ => e

/-! ### Ticking -/

/-- The members whose participant could not open the stage leave. -/
def departed (e : Engine) (input : Input) (out : List Decision) : Engine × List Decision :=
  input.departed.foldl
    (fun s departed =>
      match s.1.index departed.1 with
      | none => s
      | some index => s.1.fail index .server departed.2 input.now true s.2)
    (e, out)

/-- What the phase does with a tick. -/
def turn (e : Engine) (input : Input) (tick : Tick) : Engine × Tick :=
  match e.phase with
  | .warmup until_ =>
    if until_ ≤ input.now then e.warmed input tick
    else (e, { tick with next := min tick.next until_ })
  | .opening _ => e.open_ input tick
  | .measuring _ _ => e.measure input tick
  | .ready | .draining _ _ | .done _ _ => (e, tick)

/-- The end of `tick`: the aggregate learns who left, and the stage ends with its last member. -/
def settle (e : Engine) (survivors now : ℕ) (out : List Decision) : Engine × List Decision :=
  let e := if e.isDraining then e.drain now else e
  let remaining := e.remaining
  let e :=
    if remaining.length < survivors then e.aggregateMut fun aggregate => aggregate.dropout remaining now
    else e
  if remaining = [] ∨ e.isDone then e.finish now out else (e, out)

def tick (e : Engine) (input : Input) : Engine × Tick :=
  let tick : Tick := ⟨[], none, input.now + tickLength⟩
  if e.isDone then (e, tick)
  else
    let survivors := e.present.length
    let (e, out) := e.departed input []
    let (e, out) := if e.isDraining then (e, out) else e.checkLanes input out
    let tick := { tick with decisions := out }
    let (e, tick) := if e.isReady then e.ready input tick else (e, tick)
    let (e, tick) := e.turn input tick
    let (e, out) := input.probes.foldl (fun s probe => s.1.probe probe.1 probe.2 s.2) (e, tick.decisions)
    let (e, out) := e.settle survivors input.now out
    (e, { tick with decisions := out })

/-! ## Runs -/

/-- A call of the engine. -/
inductive Call where
  | tick (input : Input)
  | stop (now : ℕ)
deriving DecidableEq, Repr

/-- What a call decides and leaves. -/
def call (e : Engine) : Call → Engine × List Decision
  | .tick input => ((e.tick input).1, (e.tick input).2.decisions)
  | .stop now => (e.stop now, [])

def step (e : Engine) (call : Call) : Option (Engine × List Decision) := some (e.call call)

end Engine

end GraphiteMeter.Client
