import GraphiteMeter.Http3.Registry
import GraphiteMeter.Http3.SendHalf

/-!
# A WebTransport session's CONNECT stream

Reference: `rust/http3/src/webtransport.rs` (`Phase`, `Connect`, `Sessions::end`),
`rust/http3/src/stream.rs` (`RecvHalf::abort`) and `rust/http3/src/driver.rs` (`Driver::shutdown`,
`end`).

The driver polls the stream: it reads the peer's capsules, and once the session ended or this side asks,
it runs the close. What the receiving half gives is told to each poll, as are the transport's writes.
`Ending` puts the stream together with the registry, where the application and the shutdown leave their
requests.
-/

namespace GraphiteMeter.Http3

namespace Session

/-- Why a stream or its connection failed. -/
inductive Error where
  | reset (code : Code)
  | stopped (code : Code)
  /-- The peer broke HTTP/3 on this stream, which was aborted with this code. -/
  | protocol (code : Code)
  /-- The connection closed with an HTTP/3 code, by this side or by the peer. -/
  | connection (here : Bool) (code : Code)
  | transport
  | closed
deriving DecidableEq, Repr

/-- Where a session is. -/
inductive Phase where
  | opening
  | opened
  /-- With its close, or the error its connection ended with. -/
  | ended (ending : Except Error SessionClose)

/-- How the session ended, if it has. -/
def Phase.ending : Phase → Option (Except Error SessionClose)
  | .ended ending => some ending
  | .opening | .opened => none

/-- What the receiving half gives: DATA of the stream, its end, or a failure. -/
inductive Data where
  | bytes (data : Bytes)
  | fin
  | failed (error : Error)
deriving DecidableEq, Repr

/-- What happens to a session. -/
inductive Event where
  /-- A chunk of the peer's is read. -/
  | data (bytes : Bytes)
  /-- The peer's CLOSE, and the bytes behind it in its chunk. -/
  | peerClose (close : SessionClose) (behind : Bytes)
  | fin
  /-- The peer's stream failed. -/
  | failed (error : Error)
  | aborted (code : Code)
  /-- A write failed, or the connection ended. -/
  | lost (error : Error)
  /-- This side asks for the end. -/
  | requested (close : SessionClose)
  | closeQueued (close : SessionClose) (capsule : Bytes)
deriving DecidableEq, Repr

/-- How long a closing session waits for the peer's FIN, in nanoseconds. -/
def closeWait : ℕ := 10 ^ 9

/-- Frame, ID and QPACK violations close the connection; the rest end only this stream. -/
def abortError (code : Code) : Error :=
  if code ∈ [Code.h3FrameUnexpected, .h3FrameError, .h3IdError, .qpackDecompressionFailed] then
    .connection true code
  else .protocol code

/-! ## The CONNECT stream -/

structure Connect where
  id : SessionId
  send : SendHalf
  capsules : Capsule.Reader
  input : Bytes
  phase : Phase
  /-- Once the session ended: when the wait for the peer's FIN gives up. -/
  deadline : Option ℕ
  peerFinished : Bool
  /-- The peer's CLOSE arrived, so only its FIN may follow. -/
  peerClosed : Bool
  /-- This side ended the session. -/
  closedHere : Bool

/-- What a poll is told: the time, what the receiving half gives, what the transport makes of the writes
and how a write fails, and what it makes of those before the end, and of the end. -/
structure Polling where
  now : ℕ
  data : List Data
  writes : List Write
  error : Error
  lastWrites : List Write
  finishes : Bool

namespace Connect

def new (id : SessionId) (send : SendHalf) (phase : Phase) : Connect :=
  ⟨id, send, .empty, [], phase, none, false, false, false⟩

/-- `end`: the session ends, unless it has. -/
def finish (c : Connect) (ending : Except Error SessionClose) : Connect :=
  match c.phase with
  | .ended _ => c
  | .opening | .opened => { c with phase := .ended ending }

/-- The stream is aborted with `code`. -/
def abort (c : Connect) (code : Code) : Option Error × Connect × List Event :=
  (some (abortError code), { c with send := (c.send.reset code).2 }, [.aborted code])

/-- Reads capsules to the peer's FIN. Its CLOSE or a bare FIN ends the session, and data past the CLOSE
is an error. -/
def pollRead (c : Connect) (data : List Data) : Option Error × Connect × List Event :=
  if c.peerFinished then (none, c, [])
  else if c.peerClosed ∧ c.input ≠ [] then c.abort .h3MessageError
  else
    match _hread : c.capsules.read c.input with
    | .error code => c.abort code
    | .ok (some close, capsules, input) =>
      let closed : Connect := { c with capsules, input, peerClosed := true }
      let (error, c, events) := (closed.finish (.ok close)).pollRead data
      (error, c, .peerClose close input :: events)
    | .ok (none, capsules, input) =>
      let read : Connect := { c with capsules, input }
      match data with
      | [] => (none, read, [])
      | .bytes bytes :: data =>
        let (error, c, events) := { read with input := bytes }.pollRead data
        (error, c, .data bytes :: events)
      | .fin :: _ =>
        if capsules.atBoundary then
          (none, { read with peerFinished := true }.finish (.ok ⟨0, ""⟩), [.fin])
        else read.abort .h3MessageError
      | .failed error :: _ => (some error, read, [.failed error])
termination_by (data.length, c.input.length)
decreasing_by
  · have hlt := Capsule.Reader.length_lt_of_read _hread
    unfold finish
    split <;> exact Prod.Lex.right _ hlt
  · exact Prod.Lex.left _ _ (Nat.lt_succ_self _)

/-- The 200 head is in the transport's buffer. -/
def opened (c : Connect) : Connect :=
  match c.phase with
  | .opening => { c with phase := .opened }
  | .opened | .ended _ => c

/-- Writes what is pending, while the session has not ended. -/
def pollWrite (c : Connect) (e : Polling) : Option Error × Connect × List Event :=
  if c.deadline.isSome then (none, c, [])
  else
    let polled := c.send.pollReady e.writes
    let c : Connect := { c with send := polled.left }
    match polled.result with
    | .ready => (none, c.opened, [])
    | .failed => (some e.error, c, [.lost e.error])
    | .pending => (none, c, [])

/-- Starts the close once the session ended or this side asked; gives when the wait for the FIN ends. -/
def close (c : Connect) (r : Registry) (now : ℕ) : Option (ℕ × Connect × Registry × List Event) :=
  let deadline := now + closeWait
  match c.phase with
  | .ended _ => some (deadline, { c with deadline := some deadline }, r.unregister c.id, [])
  | .opening | .opened =>
    (r.requestedClose c.id).map fun close =>
      let capsule := Capsule.close close.code close.reason
      -- an unwritten 200 head goes first
      let c : Connect := { c with send := c.send.queueAfter .data capsule }
      (deadline, { c.finish (.ok close) with closedHere := true, deadline := some deadline },
        r.unregister c.id, [.closeQueued close capsule])

/-- What follows once the session ended or is to end: FIN, the peer's FIN or its wait, then
STOP_SENDING. -/
def pollClose (c : Connect) (r : Registry) (e : Polling) : Bool × Connect × Registry × List Event :=
  let closing :=
    match c.deadline with
    | some deadline => some (deadline, c, r, [])
    | none => c.close r e.now
  match closing with
  | none => (false, c, r, [])
  | some (deadline, c, r, events) =>
    let (result, _, send) := c.send.pollFinish e.lastWrites e.finishes
    let finished := result != .pending
    if ¬ (finished ∧ c.peerFinished) ∧ e.now < deadline then (false, { c with send }, r, events)
    else
      (true, { c with send := (send.reset .wtSessionGone).2 }, r.unregister c.id, events)

/-- Ends the session: CLOSE unless the peer ended it, FIN, the peer's FIN or its wait, then
STOP_SENDING; `true` once done. -/
def poll (c : Connect) (r : Registry) (e : Polling) : Bool × Connect × Registry × List Event :=
  let (error, c, events) := c.pollRead e.data
  let (failed, c, written) :=
    match error with
    | some error => (some error, c, [])
    | none => c.pollWrite e
  match failed with
  | some error => (true, c.finish (.error error), r.unregister c.id, events ++ written)
  | none =>
    let (done, c, r, closing) := c.pollClose r e
    (done, c, r, events ++ written ++ closing)

end Connect

/-! ## Runs -/

inductive Action where
  | shutDown (code : UInt32) (reason : String)
  | register (now : ℕ) (id : SessionId) (send : SendHalf) (opened : Bool)
  | requestClose (id : SessionId) (code : UInt32) (reason : String)
  | poll (e : Polling)
  | finish (error : Error)

/-- A session and its connection: the registry, whether a shutdown's drain bounds the connection, the
session's stream, and whether it is done with. -/
structure Ending where
  registry : Registry
  drain : Bool
  connect : Option Connect
  done : Bool

namespace Ending

def new : Ending := ⟨.new, false, none, false⟩

/-- A session is polled from its registration until it is done with; the connection may be shut down
before that, and it may end at any time. -/
def step (s : Ending) : Action → Option (Ending × List Event)
  | .shutDown code reason =>
    if s.drain || s.registry.ended then some (s, [])
    else
      some ({ s with registry := s.registry.shutDown code reason, drain := true },
        [.requested ⟨code, reason⟩])
  | .register now id send opened =>
    match s.connect with
    | some _ => none
    | none =>
      if s.registry.vacant then
        some ({ s with
          registry := (s.registry.register now id).2
          connect := some (.new id send (if opened then .opened else .opening)) }, [])
      else none
  | .requestClose id code reason =>
    some ({ s with registry := s.registry.requestClose id code reason },
      if s.registry.active.any (·.id = id) then [.requested ⟨code, reason⟩] else [])
  | .poll e =>
    match s.connect with
    | none => none
    | some c =>
      if s.done then none
      else
        let (done, c, registry, events) := c.poll s.registry e
        some ({ s with registry, connect := some c, done }, events)
  | .finish error =>
    let ended : Ending := { s with registry := s.registry.finish.2 }
    match s.connect with
    | none => some (ended, [])
    | some c =>
      if s.done then some (ended, [])
      else
        some ({ ended with connect := some (c.finish (.error error)), done := true },
          [.lost error])

end Ending

end Session

end GraphiteMeter.Http3
