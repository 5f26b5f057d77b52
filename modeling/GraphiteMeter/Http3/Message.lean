import GraphiteMeter.Http3.Frame

/-!
# A request stream's frames: HEADERS, DATA, optional trailers, then FIN

Reference: `rust/http3/src/message.rs` (RFC 9114 §4.1).

`Message.next` is the source's loop over `Reader.next`, and `Message.drain` is what a caller does with
a chunk: it calls `next` until the chunk holds no further event, and on a head it sets the content
length it found there (`server.rs` assigns `message.owed`). `Message.drain_eq` unfolds both loops at
once, piece by piece; the results of `MessageChunks` go through it.
-/

namespace GraphiteMeter.Http3

/-- Which side of a connection a party is. -/
inductive Role where
  | server
  | client
deriving DecidableEq, Repr

/-- The WebTransport session `id` names: its CONNECT stream's, a multiple of 4 and a varint. -/
def sessionId (id : ℕ) : Option ℕ :=
  if id % 4 = 0 ∧ id ≤ 2 ^ 62 - 1 then some id else none

inductive Event where
  | head (fields : Bytes)
  | data (bytes : Bytes)
  | trailers (fields : Bytes)
deriving DecidableEq, Repr

/-- How far a message is. -/
inductive Phase where
  | head
  | body
  | trailers
deriving DecidableEq, Repr

structure Message where
  frames : Reader FrameType
  phase : Phase
  started : Bool
  kind : FrameType
  /-- A field section split across chunks. -/
  fieldSection : Bytes
  limit : ℕ
  owed : Option ℕ
  /-- A response, on which a server could interleave PUSH_PROMISE. -/
  response : Bool
deriving DecidableEq, Repr

namespace Message

/-- A message `peer` sends: a server sends responses. -/
def new (limit : ℕ) (peer : Role) : Message where
  frames := .empty
  phase := .head
  started := false
  kind := .data
  fieldSection := []
  limit := limit
  owed := none
  response := peer = .server

/-- The event a complete field section is, the head or the trailers. -/
def fields (m : Message) (fieldSection : Bytes) : Event × Message :=
  if m.phase = .head then (.head fieldSection, { m with phase := .body })
  else (.trailers fieldSection, { m with phase := .trailers })

/-- Frames that belong elsewhere, or come too late here. -/
def unexpected : List FrameType :=
  [.data, .headers, .settings, .goaway, .maxPushId, .cancelPush, .pushPromise]

def header (m : Message) (kind : FrameType) (length : ℕ) : Except Code (Option Event × Message) :=
  -- The WebTransport signal may open a client's stream, before any frame.
  let opening := !m.started && !m.response
  let m := { m with started := true, kind }
  let early := m.phase = .head ∨ m.phase = .body
  if kind = .headers ∧ early ∧ length > m.limit then .error .h3ExcessiveLoad
  else if kind = .headers ∧ early ∧ length = 0 then
    let (event, m) := m.fields []
    .ok (some event, m)
  else if (kind = .headers ∧ early) ∨ (kind = .data ∧ m.phase = .body) then .ok (none, m)
  else if kind = .webtransportBidi ∧ ¬ opening then .error .h3FrameError
  else if kind = .webtransportBidi ∧ sessionId length = none then .error .h3IdError
  -- No route takes a peer's WebTransport stream: it is refused like a cancelled lane.
  else if kind = .webtransportBidi then .error .wtCancelled
  -- No MAX_PUSH_ID is ever sent, so every push ID is over the limit.
  else if kind = .pushPromise ∧ m.response then .error .h3IdError
  else if kind ∈ unexpected then .error .h3FrameUnexpected
  else if kind.isHttp2 then .error .h3FrameUnexpected
  else .ok (none, m)

def payload (m : Message) (payload : Bytes) : Except Code (Option Event × Message) :=
  if m.kind = .data then
    match m.owed with
    | none => .ok (some (.data payload), m)
    | some owed =>
      if payload.length ≤ owed then
        .ok (some (.data payload), { m with owed := some (owed - payload.length) })
      else .error .h3MessageError
  else if m.kind = .headers ∧ m.frames.remaining = 0 ∧ m.fieldSection = [] then
    let (event, m) := m.fields payload
    .ok (some event, m)
  else if m.kind = .headers then
    let m := { m with fieldSection := m.fieldSection ++ payload }
    if 0 < m.frames.remaining then .ok (none, m)
    else
      let (event, m) := ({ m with fieldSection := [] }).fields m.fieldSection
      .ok (some event, m)
  else .ok (none, m)

/-- What the message makes of one piece. -/
def piece (m : Message) : Piece FrameType → Except Code (Option Event × Message)
  | .header kind length => m.header kind length
  | .payload bytes => m.payload bytes

/-- The next event `input` completes, with the message and the bytes after it; an error carries the
code that ends the stream, or the connection for frame errors. -/
def next (m : Message) (input : Bytes) : Except Code (Option Event × Message × Bytes) :=
  match _hnext : m.frames.next input with
  | (none, frames, rest) => .ok (none, { m with frames }, rest)
  | (some piece, frames, rest) =>
    match ({ m with frames } : Message).piece piece with
    | .error code => .error code
    | .ok (some event, m') => .ok (some event, m', rest)
    | .ok (none, m') => next m' rest
termination_by input.length
decreasing_by exact Reader.length_lt_of_next _hnext

/-- At FIN the message must hold a head, no partial frame and exactly its declared body. -/
def finish (m : Message) : Except Code Unit :=
  if !m.frames.atBoundary then .error .h3FrameError
  else if m.phase = .head then .error .h3RequestIncomplete
  else if m.owed.any (0 < ·) then .error .h3MessageError
  else .ok ()

/-- One round of the source's loop. -/
theorem next_eq (m : Message) (input : Bytes) :
    m.next input =
      match m.frames.next input with
      | (none, frames, rest) => .ok (none, { m with frames }, rest)
      | (some piece, frames, rest) =>
        match ({ m with frames } : Message).piece piece with
        | .error code => .error code
        | .ok (some event, m') => .ok (some event, m', rest)
        | .ok (none, m') => m'.next rest := by
  rw [next]
  split <;> rename_i hnext <;> simp only [hnext]

/-- An event takes at least one byte off the chunk. -/
theorem length_lt_of_next {m m' : Message} {input rest : Bytes} {event : Event}
    (h : m.next input = .ok (some event, m', rest)) : rest.length < input.length := by
  induction hlen : input.length using Nat.strongRecOn generalizing m input with
  | ind n ih =>
    subst hlen
    rw [next_eq] at h
    match hnext : m.frames.next input with
    | (none, frames, left) =>
      simp only [hnext] at h
      cases h
    | (some piece, frames, left) =>
      have hlt := Reader.length_lt_of_next hnext
      simp only [hnext] at h
      match hpiece : ({ m with frames } : Message).piece piece with
      | .error code =>
        simp only [hpiece] at h
        cases h
      | .ok (some event', m'') =>
        simp only [hpiece] at h
        cases h
        exact hlt
      | .ok (none, m'') =>
        simp only [hpiece] at h
        exact Nat.lt_trans (ih _ hlt h rfl) hlt

/-! ## Draining a chunk -/

/-- On a head the caller sets the content length it found there. -/
def declare (declared : Bytes → Option ℕ) (m : Message) : Event → Message
  | .head fields => { m with owed := declared fields }
  | _ => m

/-- Calls `next` until `input` holds no further event. -/
def drain (declared : Bytes → Option ℕ) (m : Message) (input : Bytes) :
    Chunked.Outcome Code Message Event :=
  match _hnext : m.next input with
  | .error code => ⟨[], .error code⟩
  | .ok (none, m', _) => ⟨[], .ok m'⟩
  | .ok (some event, m', rest) =>
    let o := drain declared (m'.declare declared event) rest
    ⟨event :: o.events, o.state⟩
termination_by input.length
decreasing_by exact length_lt_of_next _hnext

/-- Reads the chunks one after another, then FIN: the events and how the stream ends. -/
def read (declared : Bytes → Option ℕ) (m : Message) (chunks : List Bytes) :
    List Event × Except Code Unit :=
  let o := Chunked.feedAll (drain declared) m chunks
  (o.events, o.state.bind finish)

/-- What draining makes of one piece: its event, if any, and the message after it. -/
def pieceOutcome (declared : Bytes → Option ℕ) (m : Message) (piece : Piece FrameType) :
    Chunked.Outcome Code Message Event :=
  match m.piece piece with
  | .error code => ⟨[], .error code⟩
  | .ok (none, m') => ⟨[], .ok m'⟩
  | .ok (some event, m') => ⟨[event], .ok (m'.declare declared event)⟩

/-- Draining reads one piece and drains the rest. -/
theorem drain_unfold (declared : Bytes → Option ℕ) (m : Message) (input : Bytes) :
    m.drain declared input =
      match m.next input with
      | .error code => ⟨[], .error code⟩
      | .ok (none, m', _) => ⟨[], .ok m'⟩
      | .ok (some event, m', rest) =>
        ⟨event :: ((m'.declare declared event).drain declared rest).events,
          ((m'.declare declared event).drain declared rest).state⟩ := by
  rw [drain]
  split <;> rename_i hnext <;> simp only [hnext]

/-- **Both loops, piece by piece**: draining handles the first piece and drains the rest. -/
theorem drain_eq (declared : Bytes → Option ℕ) (m : Message) (input : Bytes) :
    m.drain declared input =
      match m.frames.next input with
      | (none, frames, _) => .start { m with frames }
      | (some piece, frames, rest) =>
        (({ m with frames } : Message).pieceOutcome declared piece).andThen
          fun m' => m'.drain declared rest := by
  rw [drain_unfold, next_eq]
  match m.frames.next input with
  | (none, frames, rest) => rfl
  | (some piece, frames, rest) =>
    simp only [pieceOutcome]
    match ({ m with frames } : Message).piece piece with
    | .error code => rfl
    | .ok (some event, m') => rfl
    | .ok (none, m') =>
      simp only [Chunked.Outcome.andThen_ok, List.nil_append]
      rw [drain_unfold declared m' rest]

@[simp] theorem drain_nil (declared : Bytes → Option ℕ) (m : Message) :
    m.drain declared [] = .start m := by
  rw [drain_eq, Reader.next_nil]

end Message

end GraphiteMeter.Http3
