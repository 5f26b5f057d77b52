import Mathlib.Logic.Function.Basic
import GraphiteMeter.Http3.Varint
import GraphiteMeter.Lib.ClassicBpf
import GraphiteMeter.Lib.PartitionPoint

/-!
# Endpoints on one address

Reference: `rust/server/src/transport/quic/shard.rs`. Several endpoints share an address. The kernel
delivers a datagram to the endpoint its connection ID names, an endpoint forwards what names another,
and a new connection goes to the endpoint with the fewest, all packets of its first flight with it.

What a segment finds of the clock, the connection counts and the other endpoints' queues is its
`Reading`: other endpoints run at the same time.
-/

namespace GraphiteMeter.Server.Quic

open Http3 (Bytes)

/-- Ten seconds. -/
def handshakeBound : ℕ := 10 * 10 ^ 9

/-- Forwarded datagrams an endpoint queues; a full queue drops more, as a full socket buffer would. -/
def queueDatagrams : ℕ := 1024

/-- New connections a socket keeps the endpoint of; more forget the oldest. -/
def firstFlights : ℕ := 64

/-- Set in the first byte of long-header packets. -/
def longHeader : UInt8 := 0x80

def randomCidBytes : ℕ := 8

/-- The set's connection IDs: the endpoint's index, then random bytes. -/
def cidBytes : ℕ := 1 + randomCidBytes

/-- The IDs a client may choose for a new connection's first packets. -/
def clientCidBytes (length : ℕ) : Bool := 8 ≤ length ∧ length ≤ 20

abbrev ConnectionId := Bytes

/-! ## In the kernel -/

open Bpf (Filter opLd opJmp opRet opB opAbs opJeq opJset opK opA)

def op (code jt jf k : ℕ) : Filter := ⟨code, jt, jf, k⟩

def load (offset : ℕ) : Filter := op (opLd ||| opB ||| opAbs) 0 0 offset

/-- The program that has the kernel deliver each datagram to the socket its ID names. Offsets count
from the UDP payload, and a jump skips its `jt` or `jf` instructions. -/
def routeInKernel : List Filter :=
  [load 0,
   op (opJmp ||| opJset ||| opK) 2 0 longHeader.toNat,
   load 1,
   op (opRet ||| opA) 0 0 0,
   load 5,
   op (opJmp ||| opJeq ||| opK) 0 2 cidBytes,
   load 6,
   op (opRet ||| opA) 0 0 0,
   op (opRet ||| opK) 0 0 (2 ^ 32 - 1)]

/-! ## What a datagram names -/

inductive Named where
  /-- One of the set's IDs, naming its endpoint, or an endpoint past the set. -/
  | endpoint (index : ℕ)
  /-- A client's own ID: a new connection's first packets. -/
  | client (id : ConnectionId)
  | nothing
deriving DecidableEq, Repr

/-- A long header's ID: the first `len` bytes of `rest`. -/
def namedLong (len : UInt8) (rest : Bytes) : Named :=
  if len.toNat ≤ rest.length then
    let id := rest.take len.toNat
    if id.length = cidBytes then .endpoint (id.headD 0).toNat
    else if clientCidBytes id.length then .client id
    else .nothing
  else .nothing

/-- A short header's ID names its endpoint in byte 1; a long header's ID follows its length in
byte 5. -/
def named (datagram : Bytes) : Named :=
  match datagram with
  | first :: second :: rest =>
    if first &&& longHeader = 0 then .endpoint second.toNat
    else
      match rest with
      | _ :: _ :: _ :: len :: rest => namedLong len rest
      | _ => .nothing
  | _ => .nothing

/-! ## First flights -/

/-- A new connection's ID, the endpoint it went to, and when. -/
structure FirstFlight where
  id : ConnectionId
  endpoint : ℕ
  since : ℕ
deriving DecidableEq, Repr

/-- A socket's recent new connections, so every packet of a first flight follows the first. -/
structure FirstFlights where
  queue : List FirstFlight
deriving DecidableEq, Repr

namespace FirstFlights

def new : FirstFlights := ⟨[]⟩

/-- Forgets the first flights that are over. -/
def current (flights : FirstFlights) (now : ℕ) : FirstFlights :=
  let ended := flights.queue.partitionPoint fun flight => handshakeBound < now - flight.since
  ⟨flights.queue.drop ended⟩

/-- The endpoint of the connection `id`, which is `steered` for a new one. -/
def endpoint (flights : FirstFlights) (now : ℕ) (id : ConnectionId) (steered : ℕ) :
    ℕ × FirstFlights :=
  let flights := flights.current now
  match flights.queue.find? fun flight => flight.id = id with
  | some flight => (flight.endpoint, flights)
  | none =>
    let kept := if flights.queue.length = firstFlights then flights.queue.tail else flights.queue
    (steered, ⟨kept ++ [⟨id, steered, now⟩]⟩)

end FirstFlights

/-! ## Routing -/

section Routing

variable {ρ : Type*}

/-- What was received: bytes of a length, split by the stride. `path` is where they came from. -/
structure RecvMeta (ρ : Type*) where
  len : ℕ
  stride : ℕ
  path : ρ
deriving DecidableEq, Repr

structure Forwarded (ρ : Type*) where
  received : RecvMeta ρ
  datagram : Bytes
deriving DecidableEq, Repr

/-- An endpoint's queue. `taken` is what the endpoint took out of it so far, which nothing reads. -/
structure Queue (ρ : Type*) where
  taken : List (Forwarded ρ)
  waiting : List (Forwarded ρ)
  closed : Bool

namespace Queue

/-- All that was ever queued. -/
def all (queue : Queue ρ) : List (Forwarded ρ) := queue.taken ++ queue.waiting

def trySend (queue : Queue ρ) (forwarded : Forwarded ρ) : Queue ρ :=
  if queue.closed ∨ queueDatagrams ≤ queue.waiting.length then queue
  else { queue with waiting := queue.waiting ++ [forwarded] }

/-- Its endpoint takes `n` datagrams, or ends. -/
def pass (queue : Queue ρ) (n : ℕ) (closes : Bool) : Queue ρ :=
  { taken := queue.taken ++ queue.waiting.take n
    waiting := queue.waiting.drop n
    closed := queue.closed || closes }

end Queue

/-- What one segment finds. `held i j` is the number of connections of endpoint `j` where the search
for the least held one is at `i`; `takes` and `closes` is what the endpoints did with their queues. -/
structure Reading where
  now : ℕ
  held : ℕ → ℕ → ℕ
  takes : ℕ → ℕ
  closes : ℕ → Bool

structure Router where
  /-- The number of endpoints. -/
  shards : ℕ
  /-- Whether new connections are steered, where the kernel routes. -/
  steering : Bool
  maxDatagram : ℕ
deriving DecidableEq, Repr

namespace Router

/-- Where a new connection at `shard` runs: the endpoint holding the fewest connections, `shard` among
equals. -/
def steer (r : Router) (shard : ℕ) (held : ℕ → ℕ → ℕ) : ℕ :=
  (List.range r.shards).foldl
    (fun least index => if held index index < held index least then index else least) shard

/-- The other endpoint a datagram goes to: the one its ID names, or the one its new connection went
to. -/
def destination (r : Router) (shard : ℕ) (flights : FirstFlights) (datagram : Bytes)
    (reading : Reading) : Option ℕ × FirstFlights :=
  let (target, flights) :=
    match named datagram with
    | .endpoint target => (target, flights)
    | .client id =>
      if r.steering then flights.endpoint reading.now id (r.steer shard reading.held)
      else (shard, flights)
    | .nothing => (shard, flights)
  (if target ≠ shard ∧ target < r.shards then some target else none, flights)

/-- The first flights after a datagram. -/
def receive (r : Router) (shard : ℕ) (flights : FirstFlights) (arrival : Bytes × Reading) :
    FirstFlights :=
  (r.destination shard flights arrival.1 arrival.2).2

/-- Queues one datagram for its endpoint, or drops it as UDP would. -/
def forward (r : Router) (queues : ℕ → Queue ρ) (shard : ℕ) (datagram : Bytes)
    (received : RecvMeta ρ) : ℕ → Queue ρ :=
  if r.maxDatagram < datagram.length then queues
  else
    let received := { received with len := datagram.length, stride := datagram.length }
    Function.update queues shard ((queues shard).trySend ⟨received, datagram⟩)

/-- Copies the bytes from `start` to `stop` to `dest`, within the buffer. -/
def copyWithin (buf : Bytes) (start stop dest : ℕ) : Bytes :=
  buf.take dest ++ (buf.take stop).drop start ++ buf.drop (dest + (stop - start))

/-- The buffer with what of it is kept so far, and what routing changes besides. -/
structure Routed (ρ : Type*) where
  buf : Bytes
  kept : ℕ
  flights : FirstFlights
  queues : ℕ → Queue ρ

/-- Routes the segment at `start`. The source's sum saturates at a bound that no length passes. -/
def segment (r : Router) (shard : ℕ) (received : RecvMeta ρ) (len stride : ℕ)
    (readings : ℕ → Reading) (s : Routed ρ) (start : ℕ) : Routed ρ :=
  let stop := min len (start + stride)
  let reading := readings start
  let queues (i : ℕ) := (s.queues i).pass (reading.takes i) (reading.closes i)
  let datagram := (s.buf.take stop).drop start
  match r.destination shard s.flights datagram reading with
  | (some target, flights) =>
    { s with flights, queues := r.forward queues target datagram received }
  | (none, flights) =>
    { buf := if start ≠ s.kept then copyWithin s.buf start stop s.kept else s.buf
      kept := s.kept + (stop - start)
      flights
      queues }

/-- Where the segments of `len` bytes begin. -/
def starts (len stride : ℕ) : List ℕ := List.range' 0 ((len + (stride - 1)) / stride) stride

/-- Forwards received segments for another endpoint, moving the rest together; only the last may be
short. -/
def route (r : Router) (shard : ℕ) (flights : FirstFlights) (buf : Bytes) (received : RecvMeta ρ)
    (queues : ℕ → Queue ρ) (readings : ℕ → Reading) : Routed ρ × RecvMeta ρ :=
  let len := min received.len buf.length
  let stride := max received.stride 1
  let routed := (starts len stride).foldl (r.segment shard received len stride readings)
    ⟨buf, 0, flights, queues⟩
  (routed, { received with len := routed.kept })

end Router

end Routing

end GraphiteMeter.Server.Quic
