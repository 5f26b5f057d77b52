import GraphiteMeter.Http3.Capsule
import GraphiteMeter.Lib.Channel
import GraphiteMeter.Lib.Machine
import Mathlib.Order.Lattice

/-!
# A connection's WebTransport session and the streams that name one

Reference: `rust/http3/src/webtransport.rs` (`SessionId`, `Registry`, `Session`'s queues and its drop).

A stream names its session. It goes to the active session's queue, waits in `early` for a session to
come, or is refused. `Routing` is the registry with its clock and the session's own calls; it logs
where each stream goes, and what leaves a session's queue.
-/

namespace GraphiteMeter.Http3

def Code.wtBufferedStreamRejected : Code := ⟨0x3994bd84⟩
def Code.wtSessionGone : Code := ⟨0x170d7b68⟩

/-- A session's ID, that of its CONNECT stream. -/
structure SessionId where
  id : ℕ
  aligned : id % 4 = 0
  below : id ≤ Varint.max
deriving DecidableEq, Repr

namespace SessionId

/-- Distinct sessions have distinct identifiers. -/
theorem id_injective : Function.Injective id := by
  rintro ⟨n, _, _⟩ ⟨m, _, _⟩ h
  cases h
  rfl

instance : LinearOrder SessionId := LinearOrder.lift' id id_injective

end SessionId

/-- How long a stream waits for its session, in nanoseconds. -/
def earlyWait : ℕ := 5 * 10 ^ 9

def maxEarly : ℕ := 64

def streamQueue : ℕ := 32

def datagramQueue : ℕ := 256

/-- A peer's stream: the how-manieth one it is, and the bytes that followed the stream header in its
first chunk. -/
structure Unrouted where
  serial : ℕ
  first : Bytes
deriving DecidableEq, Repr

/-- A stream that waits for its session. -/
structure Early where
  deadline : ℕ
  session : SessionId
  stream : Unrouted
deriving DecidableEq, Repr

structure Active where
  id : SessionId
  streams : Channel Unrouted streamQueue
  datagrams : Channel Bytes datagramQueue
  /-- This side's close, from the application or the shutdown; the first one stands. -/
  close : Option SessionClose
deriving DecidableEq, Repr

/-- Where a stream goes. -/
inductive Fate where
  | queued
  | held
  | refused (code : Code)
deriving DecidableEq, Repr

structure Registry where
  active : Option Active
  early : List Early
  /-- Sessions at or below this ID have ended. -/
  goneThrough : Option SessionId
  shutdown : Option SessionClose
  ended : Bool
deriving DecidableEq, Repr

namespace Registry

def new : Registry := ⟨none, [], none, none, false⟩

/-- A stream that names another session than the active one. -/
def hold (r : Registry) (now : ℕ) (session : SessionId) (stream : Unrouted) : Fate × Registry :=
  if r.goneThrough.any (session ≤ ·) then (.refused .wtSessionGone, r)
  else if r.early.length < maxEarly then
    (.held, { r with early := r.early ++ [⟨now + earlyWait, session, stream⟩] })
  else (.refused .wtBufferedStreamRejected, r)

def stream (r : Registry) (now : ℕ) (session : SessionId) (stream : Unrouted) : Fate × Registry :=
  match r.active with
  | some active =>
    if active.id = session then
      match active.streams.trySend stream with
      | .ok streams => (.queued, { r with active := some { active with streams } })
      | .error .full => (.refused .wtBufferedStreamRejected, r)
      | .error .closed => (.refused .wtSessionGone, r)
    else r.hold now session stream
  | none => r.hold now session stream

/-- Changes the active session, where `id` is its. -/
def onActive (r : Registry) (id : SessionId) (change : Active → Active) : Registry :=
  { r with active := r.active.map fun active => if active.id = id then change active else active }

/-- Datagrams are unreliable: one for no current session, or past the queue, is dropped. -/
def datagram (r : Registry) (session : SessionId) (payload : Bytes) : Registry :=
  r.onActive session fun active =>
    match active.datagrams.trySend payload with
    | .ok datagrams => { active with datagrams }
    | .error _ => active

/-- The streams whose wait is over, and the registry without them. -/
def expire (r : Registry) (now : ℕ) : List Early × Registry :=
  (r.early.takeWhile (·.deadline ≤ now),
    { r with early := r.early.dropWhile (·.deadline ≤ now) })

/-- Every session, current or yet to come, ends with this close. -/
def shutDown (r : Registry) (code : UInt32) (reason : String) : Registry :=
  let close : SessionClose := ⟨code, reason⟩
  { r with
    active := r.active.map fun active => { active with close := active.close <|> some close }
    shutdown := some close }

/-- The connection ended, and so does the session. -/
def finish (r : Registry) : List Early × Registry :=
  (r.early, { r with active := none, early := [], ended := true })

/-- Whether a session may start. -/
def vacant (r : Registry) : Bool := r.active.isNone && !r.ended

/-- What a new session makes of the streams that waited, the oldest first: its own are routed, and the
others wait on. -/
def reroute (now : ℕ) (id : SessionId) : Registry → List Early → List (Early × Fate) × Registry
  | r, [] => ([], r)
  | r, e :: waiting =>
    if e.session = id then
      let (fate, r) := r.stream now e.session e.stream
      let (routed, r) := reroute now id r waiting
      ((e, fate) :: routed, r)
    else reroute now id { r with early := r.early ++ [e] } waiting

def register (r : Registry) (now : ℕ) (id : SessionId) : List (Early × Fate) × Registry :=
  reroute now id
    { r with active := some ⟨id, .empty, .empty, r.shutdown⟩, early := [] } r.early

def requestClose (r : Registry) (id : SessionId) (code : UInt32) (reason : String) : Registry :=
  r.onActive id fun active => { active with close := active.close <|> some ⟨code, reason⟩ }

def requestedClose (r : Registry) (id : SessionId) : Option SessionClose :=
  (r.active.filter (·.id = id)).bind (·.close)

/-- The session is gone for routing. -/
def unregister (r : Registry) (id : SessionId) : Registry :=
  { r with
    active := r.active.filter (·.id ≠ id)
    goneThrough := some (r.goneThrough.elim id (max · id)) }

/-! ## The session's calls -/

/-- What is queued to a session. -/
def queued (r : Registry) (id : SessionId) : List Unrouted :=
  (r.active.filter (·.id = id)).elim [] (·.streams.queue)

/-- The application takes the stream that was queued first, if there is one. -/
def acceptUni (r : Registry) (id : SessionId) : Option Unrouted × Registry :=
  (((r.active.filter (·.id = id)).bind (·.streams.tryRecv)).map Prod.fst,
    r.onActive id fun active =>
      { active with streams := (active.streams.tryRecv).elim active.streams (·.2) })

/-- The application takes a datagram. -/
def readDatagram (r : Registry) (id : SessionId) : Registry :=
  r.onActive id fun active =>
    { active with datagrams := (active.datagrams.tryRecv).elim active.datagrams (·.2) }

/-- The application drops its session: it asks for the close, and its queues are no longer received. -/
def hangUp (r : Registry) (id : SessionId) : Registry :=
  (r.requestClose id 0 "").onActive id fun active =>
    { active with streams := active.streams.hangUp, datagrams := active.datagrams.hangUp }

/-! ## What the operations do -/

variable {r : Registry} {now : ℕ} {session id : SessionId} {u : Unrouted}

/-- The ways a stream goes. -/
inductive Routed (r : Registry) (now : ℕ) (session : SessionId) (u : Unrouted) :
    Fate × Registry → Prop
  | queued {active : Active} {streams : Channel Unrouted streamQueue}
      (hactive : r.active = some active) (hid : active.id = session)
      (hsend : active.streams.trySend u = .ok streams) :
      Routed r now session u (.queued, { r with active := some { active with streams } })
  | full {active : Active} (hactive : r.active = some active) (hid : active.id = session)
      (hopen : active.streams.closed = false) :
      Routed r now session u (.refused .wtBufferedStreamRejected, r)
  | hungUp {active : Active} (hactive : r.active = some active) (hid : active.id = session)
      (hclosed : active.streams.closed = true) : Routed r now session u (.refused .wtSessionGone, r)
  | gone {gone : SessionId} (hother : ∀ active ∈ r.active, active.id ≠ session)
      (hgone : gone ∈ r.goneThrough) (hle : session ≤ gone) :
      Routed r now session u (.refused .wtSessionGone, r)
  | held (hother : ∀ active ∈ r.active, active.id ≠ session)
      (hgone : ∀ gone ∈ r.goneThrough, ¬ session ≤ gone) (hroom : r.early.length < maxEarly) :
      Routed r now session u
        (.held, { r with early := r.early ++ [⟨now + earlyWait, session, u⟩] })
  | crowded (hother : ∀ active ∈ r.active, active.id ≠ session)
      (hgone : ∀ gone ∈ r.goneThrough, ¬ session ≤ gone) (hroom : maxEarly ≤ r.early.length) :
      Routed r now session u (.refused .wtBufferedStreamRejected, r)

/-- A stream that is held is routed to a session yet to come. -/
theorem hold_routed (hother : ∀ active ∈ r.active, active.id ≠ session) :
    Routed r now session u (r.hold now session u) := by
  unfold hold
  split
  · rename_i hany
    obtain ⟨gone, hgone, hle⟩ := (Option.any_eq_true _ _).mp hany
    exact .gone hother hgone (of_decide_eq_true hle)
  rename_i hany
  have hgone (gone : SessionId) (hmem : gone ∈ r.goneThrough) : ¬ session ≤ gone := by
    intro hle
    exact hany ((Option.any_eq_true _ _).mpr ⟨gone, hmem, decide_eq_true hle⟩)
  split
  · rename_i hroom
    exact .held hother hgone hroom
  · rename_i hroom
    exact .crowded hother hgone (Nat.not_lt.mp hroom)

/-- **Every stream** is routed. -/
theorem stream_routed (r : Registry) (now : ℕ) (session : SessionId) (u : Unrouted) :
    Routed r now session u (r.stream now session u) := by
  unfold stream
  match hactive : r.active with
  | none =>
    apply hold_routed
    rw [hactive]
    intro active hmem
    cases hmem
  | some active =>
    simp only
    split
    · rename_i hid
      match hsend : active.streams.trySend u with
      | .ok streams => exact .queued hactive hid hsend
      | .error .full => exact .full hactive hid (Channel.trySend_eq_full hsend).1
      | .error .closed => exact .hungUp hactive hid (Channel.trySend_eq_closed hsend)
    · rename_i hid
      apply hold_routed
      rw [hactive]
      intro active' hmem
      cases hmem
      exact hid

/-- A change of the active session is made to it. -/
theorem onActive_active {active : Active} (hactive : r.active = some active) (hid : active.id = id)
    (change : Active → Active) : (r.onActive id change).active = some (change active) := by
  unfold onActive
  rw [hactive]
  simp only [Option.map_some, if_pos hid]

end Registry

/-! ## Runs -/

/-- What happens to streams and to sessions. -/
inductive RouteEvent where
  | arrived (session : SessionId) (serial : ℕ)
  | routed (session : SessionId) (serial : ℕ) (fate : Fate)
  /-- Its wait is over, and it is refused as buffered. -/
  | expired (session : SessionId) (serial : ℕ)
  /-- It waited as the connection ended. -/
  | dropped (session : SessionId) (serial : ℕ)
  /-- The application took it from its session's queue. -/
  | accepted (session : SessionId) (serial : ℕ)
  /-- It was queued as its session was dropped, or left the registry. -/
  | abandoned (session : SessionId) (serial : ℕ)
  | registered (id : SessionId)
  | unregistered (id : SessionId)
  | hungUp (id : SessionId)
  | ended
deriving DecidableEq, Repr

/-- What a session's start makes of a stream that waited for it. -/
def routedEvent (x : Early × Fate) : RouteEvent := .routed x.1.session x.1.stream.serial x.2

/-- What is queued to a session as its queue goes. -/
def Registry.abandon (r : Registry) (id : SessionId) : List RouteEvent :=
  (r.queued id).map fun u => .abandoned id u.serial

inductive RouteAction where
  | stream (now : ℕ) (session : SessionId) (first : Bytes)
  | datagram (session : SessionId) (payload : Bytes)
  | expire (now : ℕ)
  | shutDown (code : UInt32) (reason : String)
  | finish
  | register (now : ℕ) (id : SessionId)
  | requestClose (id : SessionId) (code : UInt32) (reason : String)
  | unregister (id : SessionId)
  | acceptUni (id : SessionId)
  | readDatagram (id : SessionId)
  | hangUp (id : SessionId)
deriving DecidableEq, Repr

/-- The registry, the last time it was told and how many streams it was given. -/
structure Routing where
  registry : Registry
  clock : ℕ
  given : ℕ
deriving DecidableEq, Repr

namespace Routing

def new : Routing := ⟨.new, 0, 0⟩

/-- The time an action is told. -/
def time (s : Routing) : RouteAction → ℕ
  | .stream now _ _ | .expire now | .register now _ => now
  | _ => s.clock

/-- The clock never goes back. -/
def Monotone (s : Routing) (a : RouteAction) : Prop := s.clock ≤ s.time a

instance (s : Routing) (a : RouteAction) : Decidable (s.Monotone a) :=
  inferInstanceAs (Decidable (_ ≤ _))

/-- A session is registered only where the registry is vacant. The drop of one that is no longer active
changes nothing here, and is no action. -/
def step (s : Routing) (a : RouteAction) : Option (Routing × List RouteEvent) :=
  let at_ (registry : Registry) : Routing := { s with registry, clock := s.time a }
  match a with
  | .stream now session first =>
    let (fate, registry) := s.registry.stream now session ⟨s.given, first⟩
    some ({ at_ registry with given := s.given + 1 },
      [.arrived session s.given, .routed session s.given fate])
  | .datagram session payload => some (at_ (s.registry.datagram session payload), [])
  | .expire now =>
    let (expired, registry) := s.registry.expire now
    some (at_ registry, expired.map fun e => .expired e.session e.stream.serial)
  | .shutDown code reason => some (at_ (s.registry.shutDown code reason), [])
  | .finish =>
    let (waiting, registry) := s.registry.finish
    some (at_ registry, .ended :: (waiting.map fun e => .dropped e.session e.stream.serial) ++
      s.registry.active.elim [] fun active => s.registry.abandon active.id)
  | .register now id =>
    if s.registry.vacant then
      let (routed, registry) := s.registry.register now id
      some (at_ registry, .registered id :: routed.map routedEvent)
    else none
  | .requestClose id code reason => some (at_ (s.registry.requestClose id code reason), [])
  | .unregister id =>
    some (at_ (s.registry.unregister id), .unregistered id :: s.registry.abandon id)
  | .acceptUni id =>
    let (taken, registry) := s.registry.acceptUni id
    some (at_ registry, taken.toList.map fun u => .accepted id u.serial)
  | .readDatagram id => some (at_ (s.registry.readDatagram id), [])
  | .hangUp id =>
    if s.registry.active.any (·.id = id) then
      some (at_ (s.registry.hangUp id), .hungUp id :: s.registry.abandon id)
    else none

end Routing

end GraphiteMeter.Http3
