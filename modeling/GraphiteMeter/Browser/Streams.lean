import Mathlib.Data.Rat.Floor
import Mathlib.Logic.Function.Basic
import GraphiteMeter.Browser.Schedule

/-!
# A stage's lanes

Reference: `client/src/engine/net/streams.ts`.

Each server takes part in a stage with a number of lanes per direction, which its lease bounds. The
lanes whose transfer runs over HTTP/1.1 share the connections a browser opens to one origin, beside
those the run keeps for itself. `planStreams` deals every origin's pool in turn, or refuses the
stage.

A plan gives each server's lanes by the server's place among those it was made for.
-/

namespace GraphiteMeter.Browser.Streams

open GraphiteMeter.Measure (Direction Dir)
open Schedule (Activity)

/-- Concurrent HTTP/1.1 requests a browser runs per origin; more wait for a free connection. -/
def browserPool : ℕ := 6

/-- The server clamps a WebTransport session's lanes here in both directions. -/
def sessionMaxLanes : ℕ := 16

def maxStreams : ℕ := 128

inductive HttpProtocol where
  | http1
  | http2
  | http3
  | negotiated
deriving DecidableEq

/-- Upload splits by protocol: under loss HTTP/2 gains from four lanes while HTTP/3 loses. -/
def multiplexed : HttpProtocol → Option (Dir ℕ)
  | .http2 => some ⟨1, 4⟩
  | .http3 => some ⟨1, 1⟩
  | .http1 | .negotiated => none

inductive Mode where
  | auto
  | forced
deriving DecidableEq

/-- A count that is not a finite number is `none`. -/
structure StreamPolicy where
  mode : Mode
  count : Option ℚ

inductive Transport where
  | fetchStream
  | webtransport
  | webtransportDatagram
deriving DecidableEq

inductive LatencyTransport where
  | websocket
  | webtransport
deriving DecidableEq

/-- The discovery origin and the protocol its preflight came over, where upload control goes. -/
structure Discovery where
  origin : String
  protocol : Option String
  maxMeasurements : ℕ
  latency : List (String × List LatencyTransport)

structure PlanServer where
  id : String
  name : String
  discovery : Discovery
  transport : Transport
  fetchOrigin : String
  fetchProtocol : HttpProtocol

inductive Capped where
  | pool
  | lease
deriving DecidableEq

/-- One direction's lanes: how many open, and what held them below the count asked for. -/
structure Lanes where
  planned : ℕ
  capped : Option Capped
deriving DecidableEq

/-- A server's place among those planned for, and a direction. -/
abbrev Slot := ℕ × Direction

abbrev StreamPlan := Slot → Lanes

structure OriginBudget where
  /-- One connection stays free for leases, checkpoints and sign-in checks. -/
  control : Bool
  /-- HTTP progress feeds, each holding a connection for the whole stage. -/
  feeds : ℕ
  /-- The lanes sharing what the reservations leave, in dealing order, by server name. -/
  lanes : List (String × Slot)

def normalizeStreamCount : Option ℚ → ℕ
  | none => 1
  | some count => (min (maxStreams : ℤ) (max 1 ⌊count + 1 / 2⌋)).toNat

/-- The latency stage, or a transfer stage with loaded latency, runs a probe channel. -/
def needsPings (activity : Activity) : Bool :=
  activity.stage = .latency || (0 < activity.transfer.length && activity.loadedLatency)

def controlMultiplexed (discovery : Discovery) : Bool :=
  discovery.protocol = some "h2" || discovery.protocol = some "h3"

/-- A fetch upload's feed reaches the discovery origin, where only proven HTTP/1.1 spares the pool
by riding an offered WebSocket. -/
def feedSocket (discovery : Discovery) : Bool :=
  discovery.protocol = some "http/1.1" &&
    ((discovery.latency.lookup discovery.origin).getD []).contains .websocket

/-! ## Dealing a pool -/

/-- One pass over the lanes: each below its ceiling gets one more while any are left. -/
def round : ℕ → List ℕ → List ℕ → ℕ × List ℕ
  | left, d :: dealt, c :: ceilings =>
    if 0 < left ∧ d < c then
      ((round (left - 1) dealt ceilings).1, (d + 1) :: (round (left - 1) dealt ceilings).2)
    else ((round left dealt ceilings).1, d :: (round left dealt ceilings).2)
  | left, dealt, _ => (left, dealt)

/-- Passes are made until none are left or one gave nothing. A pass that gave leaves fewer, so
`left` passes suffice. -/
def rounds : ℕ → ℕ → List ℕ → List ℕ → List ℕ
  | 0, _, dealt, _ => dealt
  | passes + 1, left, dealt, ceilings =>
    if left = 0 then dealt
    else if (round left dealt ceilings).1 < left then
      rounds passes (round left dealt ceilings).1 (round left dealt ceilings).2 ceilings
    else (round left dealt ceilings).2

/-- Every lane keeps one stream; the rest is dealt round-robin up to each ceiling. -/
def deal (available : ℕ) (ceilings : List ℕ) : List ℕ :=
  rounds available available (ceilings.map fun _ => 0) ceilings

/-! ## What each server asks for -/

def uploads (activity : Activity) : Bool := activity.transfer.contains .up

namespace PlanServer

variable (server : PlanServer)

def session : Bool := server.transport ≠ .fetchStream

/-- The lease admits the lanes beside an upload's feed and finalize. -/
def share (activity : Activity) : ℕ :=
  max 1 ((server.discovery.maxMeasurements - if uploads activity then 2 else 0)
    / activity.transfer.length)

def asked (policy : StreamPolicy) (direction : Direction) : ℕ :=
  let count := normalizeStreamCount policy.count
  if server.session then
    min sessionMaxLanes (if policy.mode = .forced then count else 1)
  else if policy.mode = .forced then count
  else ((multiplexed server.fetchProtocol).map (·.get direction)).getD count

def lanes (activity : Activity) (policy : StreamPolicy) (direction : Direction) : Lanes :=
  let asked := server.asked policy direction
  let planned := if server.session then asked else min asked (server.share activity)
  { planned, capped := if planned < asked then some .lease else none }

/-- The origin whose pool a server's lanes share. -/
def http1 : Option String :=
  if server.session || (multiplexed server.fetchProtocol).isSome then none
  else some server.fetchOrigin

end PlanServer

/-- What every server would take with no pool to share. -/
def asking (servers : List PlanServer) (activity : Activity) (policy : StreamPolicy) :
    StreamPlan := fun slot =>
  match servers[slot.1]? with
  | some server =>
    if slot.2 ∈ activity.transfer then server.lanes activity policy slot.2 else ⟨0, none⟩
  | none => ⟨0, none⟩

/-! ## The pools -/

/-- The origins with a pool, in the order they were first asked for, and each one's budget. -/
structure Pools where
  origins : List String
  budget : String → OriginBudget

namespace Pools

def new : Pools := ⟨[], fun _ => ⟨false, 0, []⟩⟩

/-- An origin's budget changed in place, which makes its pool if there is none. -/
def pool (pools : Pools) (origin : String) (change : OriginBudget → OriginBudget) : Pools where
  origins := if origin ∈ pools.origins then pools.origins else pools.origins ++ [origin]
  budget := Function.update pools.budget origin (change (pools.budget origin))

end Pools

/-- Whether an upload's progress feed holds a connection to the discovery origin. -/
def PlanServer.feed (server : PlanServer) (activity : Activity) : Bool :=
  !server.session && uploads activity && !controlMultiplexed server.discovery
    && !feedSocket server.discovery

def PlanServer.reserve (server : PlanServer) (activity : Activity) (place : ℕ) (pools : Pools) :
    Pools :=
  let pools := match server.http1 with
    | some origin => pools.pool origin fun budget =>
      { budget with
        lanes := budget.lanes ++ activity.transfer.map fun direction =>
          (server.name, place, direction) }
    | none => pools
  pools.pool server.discovery.origin fun budget =>
    { budget with
      control := budget.control || (needsPings activity || uploads activity)
      feeds := budget.feeds + if server.feed activity then 1 else 0 }

def budgets (servers : List PlanServer) (activity : Activity) : Pools :=
  servers.zipIdx.foldl (fun pools entry => entry.1.reserve activity entry.2 pools) .new

def OriginBudget.available (budget : OriginBudget) : ℤ :=
  browserPool - budget.feeds - if budget.control then 1 else 0

def OriginBudget.slots (budget : OriginBudget) : List Slot := budget.lanes.map (·.2)

def OriginBudget.refusal (budget : OriginBudget) : String :=
  ", ".intercalate (budget.lanes.map (·.1)).eraseDups
    ++ " share one HTTP/1 origin without enough connections for this stage"

def Lanes.deal (lanes : Lanes) (dealt : ℕ) : Lanes where
  planned := dealt
  capped := if dealt < lanes.planned then some .pool else lanes.capped

def dealTo : StreamPlan → List Slot → List ℕ → StreamPlan
  | plan, slot :: slots, dealt :: rest =>
    dealTo (Function.update plan slot ((plan slot).deal dealt)) slots rest
  | plan, _, _ => plan

def OriginBudget.settle (budget : OriginBudget) (plan : StreamPlan) : Except String StreamPlan :=
  if budget.lanes.isEmpty then .ok plan
  else if budget.available < budget.lanes.length then .error budget.refusal
  else .ok <| dealTo plan budget.slots <|
    Streams.deal budget.available.toNat (budget.slots.map fun slot => (plan slot).planned)

/-- Deals each HTTP/1.1 origin's pool among its lanes, refusing a stage that leaves one none,
within each lease. -/
def planStreams (servers : List PlanServer) (activity : Activity) (policy : StreamPolicy) :
    Except String StreamPlan :=
  (budgets servers activity).origins.foldlM
    (fun plan origin => ((budgets servers activity).budget origin).settle plan)
    (asking servers activity policy)

/-- What refuses a stage, if it measures anything. -/
def stageError (servers : List PlanServer) (policy : StreamPolicy) (activity : Activity) :
    Option String :=
  if activity.transfer.isEmpty then none
  else match planStreams servers activity policy with
    | .ok _ => none
    | .error refusal => some refusal

def planError (servers : List PlanServer) (schedule : Schedule.Plan) (policy : StreamPolicy) :
    String :=
  if (Schedule.activities schedule).isEmpty then "Turn on at least one test stage"
  else ((Schedule.activities schedule).findSome? (stageError servers policy)).getD ""

end GraphiteMeter.Browser.Streams
