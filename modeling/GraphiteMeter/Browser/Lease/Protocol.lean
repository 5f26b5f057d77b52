import GraphiteMeter.Lib.Machine
import GraphiteMeter.Server.Admission
import Mathlib.Logic.Function.Basic

/-!
# A browser's lease, and the server's answer

`createLease` keeps what the browser holds at one server: it asks for the total under one token, one
request at a time, and what is asked is what is held as the request leaves. The server takes a lease,
or resizes the one presented, within the client's share, and ends it on `DELETE`.

The two stand together as one machine. A request is on its way until the server answers it and the
answer is taken, or until it is cut off; one cut off unanswered may yet reach the server, or never
(`strays`). What else the server answers (a rate limit, a broken sign-in) is `reject`, and what else
happens to a lease is a step of its own: its work, the watcher, its end.

A caller resumes some time after its request ends, and the next request may leave before it does. The
credentials a request carries and the discovery origin are left out.

Reference: `client/src/engine/net/lease.ts`; `rust/server/src/app/control.rs`, `lease`;
`rust/server/src/admission.rs`, `Leases`.
-/

namespace GraphiteMeter.Browser.Lease

open GraphiteMeter.Server (Full Refusal)
open GraphiteMeter.Server.Admission (Grant)
open GraphiteMeter.Server

/-! ## The browser -/

/-- What a check or a run holds beside the bus. Each of its sessions is a measurement. -/
structure Need where
  measurements : ℕ
  sessions : ℕ
  sessions_le : sessions ≤ measurements

/-- What a stage of two sessions holds. -/
def Need.ofSessions : Need := ⟨4, 2, by decide⟩

/-- The bus the lease holds whenever it is held. -/
def STANDING : Grant := ⟨1, 0⟩

/-- A need held, which `hold` has answered or not. -/
structure Hold where
  id : ℕ
  need : Need
  granted : Bool

/-- What is held on top of the bus, summed over the needs. -/
def sum (held : List Hold) : Grant :=
  held.foldr (fun hold sum =>
    ⟨hold.need.measurements + sum.measurements, hold.need.sessions + sum.sessions⟩) STANDING

/-- What a `POST` was sent for. -/
inductive Purpose
  | hold (id : ℕ)
  | renew
  | upload
  | lowering
  deriving DecidableEq

/-- A job of the queue. A `POST` whose signal aborted while it waited is not sent. -/
inductive Job
  | post (purpose : Purpose) (uploads : ℕ) (aborted : Bool)
  | delete

inductive Request
  | post (purpose : Purpose) (token : Option ℕ) (asked : Grant) (uploads : ℕ)
  | delete (token : ℕ)

/-- A refusal is one of this client's share or the server's capacity; `failed` is any other. -/
inductive Reply
  | leased (token : ℕ) (grant : Grant) (uploads : List ℕ)
  | refused
  | failed
  | ended

/-- What the caller of a request has left to do: hand out an upload id, or stop holding its need. -/
inductive Rest
  | handing
  | refused (id : ℕ)
  | unfit (id : ℕ)
  | failed (id : ℕ)

/-- A hold is `unfit` if the server cut its ask. An upload id is handed out unless none is left. -/
inductive Event
  | asked (id : ℕ)
  | granted (id : ℕ)
  | refused (id : ℕ)
  | unfit (id : ℕ)
  | failed (id : ℕ)
  | released (id : ℕ)
  | renewed
  | minting
  | asksEnd
  | told (token : ℕ)
  | deleting (token : ℕ)
  | lost (token : ℕ)
  | handed (upload : Option ℕ)
  deriving DecidableEq

structure Client where
  held : List Hold := []
  minted : List ℕ := []
  token : Option ℕ := none
  ending : Bool := false
  queue : List Job := []
  /-- The request on its way, with its answer once the server gave one. -/
  sent : Option (Request × Option Reply) := none
  /-- Callers whose request has ended. -/
  settled : List Rest := []
  /-- How many needs were held. -/
  holds : ℕ := 0

namespace Client

/-- `end`: after what is queued, so a lease still being taken is ended too. -/
def ends (c : Client) : Client :=
  if c.held.isEmpty then { c with ending := false, queue := c.queue ++ [.delete] }
  else { c with ending := true }

/-- `lowered`: less is held. -/
def lowered (c : Client) : Client :=
  if c.ending && c.held.isEmpty then c.ends
  else { c with queue := c.queue ++ [.post .lowering 0 false] }

/-- `held.delete(need)`. -/
def drop (c : Client) (id : ℕ) : Client :=
  { c with held := c.held.filter fun hold => decide (hold.id ≠ id) }

/-- A run's ids are its own; one an earlier run left would have expired. -/
def hold (c : Client) (need : Need) (uploads : ℕ) : Client :=
  { c with
    ending := false
    minted := if 0 < uploads then [] else c.minted
    held := c.held ++ [⟨c.holds, need, false⟩]
    queue := c.queue ++ [.post (.hold c.holds) uploads false]
    holds := c.holds + 1 }

def renew (c : Client) : Client :=
  { c with ending := false, queue := c.queue ++ [.post .renew 0 false] }

/-- The next upload id. -/
def shift (c : Client) : Client × List Event :=
  match c.minted with
  | [] => (c, [.handed none])
  | id :: minted => ({ c with minted }, [.handed (some id)])

/-- An upload id minted with the lease, or a request for one. -/
def upload (c : Client) : Client × List Event :=
  if c.minted.isEmpty then ({ c with queue := c.queue ++ [.post .upload 1 false] }, [.minting])
  else c.shift

/-- The release that `hold` answers with. -/
def release (c : Client) (id : ℕ) : Option (Client × List Event) :=
  if c.held.any fun hold => decide (hold.id = id) && hold.granted then
    some ((c.drop id).lowered, [.released id])
  else none

/-- What is left to a caller whose request failed. -/
def failing : Purpose → List Rest
  | .hold id => [.failed id]
  | _ => []

/-- The signal of a request that waits aborts, or its time is up. -/
def abort (c : Client) (index : ℕ) : Option Client :=
  match c.queue[index]? with
  | some (.post purpose uploads false) =>
    some { c with
      queue := c.queue.set index (.post purpose uploads true)
      settled := c.settled ++ failing purpose }
  | _ => none

/-- The next job begins, once the one before is done. -/
def begin (c : Client) : Option (Client × List Event) :=
  match c.sent, c.queue with
  | none, .post purpose uploads aborted :: queue =>
    if aborted || decide (purpose = .lowering) && c.token.isNone then some ({ c with queue }, [])
    else some ({ c with queue, sent := some (.post purpose c.token (sum c.held) uploads, none) }, [])
  | none, .delete :: queue =>
    match c.token with
    | some token =>
      if c.held.isEmpty then
        some ({ c with queue, token := none, minted := [], sent := some (.delete token, none) },
          [.deleting token])
      else some ({ c with queue }, [])
    | none => some ({ c with queue }, [])
  | _, _ => none

/-- Whether a grant holds all that was asked. -/
def fits (asked grant : Grant) : Bool :=
  decide (asked.measurements ≤ grant.measurements) && decide (asked.sessions ≤ grant.sessions)

/-- `hold` answers with a release. -/
def grants (c : Client) (id : ℕ) : Client :=
  { c with held := c.held.map fun hold => if hold.id = id then { hold with granted := true } else hold }

/-- The server leased, and what that leaves to the caller of the request. -/
def leased (c : Client) (fits : Bool) : Purpose → Client × List Event
  | .hold id =>
    if fits then (c.grants id, [.granted id]) else ({ c with settled := c.settled ++ [.unfit id] }, [])
  | .upload => ({ c with settled := c.settled ++ [.handing] }, [])
  | _ => (c, [])

/-- What is left to a caller who was refused. -/
def refusing : Purpose → List Rest
  | .hold id => [.refused id]
  | _ => []

/-- The answer is taken. -/
def deliver (c : Client) : Option (Client × List Event) :=
  match c.sent with
  | some (.post purpose _ asked _, some reply) =>
    match reply with
    | .leased token grant uploads =>
      let result := leased
        { c with sent := none, token := some token, minted := c.minted ++ uploads }
        (fits asked grant) purpose
      some (result.1, .told token :: result.2)
    | .refused => some ({ c with sent := none, settled := c.settled ++ refusing purpose }, [])
    | _ => some ({ c with sent := none, settled := c.settled ++ failing purpose }, [])
  | some (.delete token, some reply) =>
    match reply with
    | .ended => some ({ c with sent := none }, [])
    | _ => some ({ c with sent := none }, [.lost token])
  | _ => none

/-- A caller resumes. A refusal changed nothing at the server; a request cut off after it left may
have. -/
def rest (c : Client) : Rest → Client × List Event
  | .handing => c.shift
  | .refused id => (c.drop id, [.refused id])
  | .unfit id => ((c.drop id).lowered, [.unfit id])
  | .failed id => ((c.drop id).lowered, [.failed id])

def resume (c : Client) (index : ℕ) : Option (Client × List Event) :=
  c.settled[index]?.map (rest { c with settled := c.settled.eraseIdx index })

/-- The request on its way is cut off: aborted, out of time or broken. Gives it if the server may yet
see it. -/
def cut (c : Client) : Option (Client × List Request × List Event) :=
  match c.sent with
  | some (request, reply) =>
    match request with
    | .post purpose _ _ _ =>
      some ({ c with sent := none, settled := c.settled ++ failing purpose },
        if reply.isNone then [request] else [], [])
    | .delete token =>
      some ({ c with sent := none }, if reply.isNone then [request] else [], [.lost token])
  | none => none

end Client

/-! ## The server -/

/-- A client's share, of which there is some. -/
structure Limits where
  operationsPerClient : ℕ
  sessionsPerClient : ℕ
  operations_pos : 0 < operationsPerClient
  sessions_pos : 0 < sessionsPerClient

/-- What of an ask the server grants. -/
def Limits.share (limits : Limits) (asked : Grant) : Grant :=
  ⟨min asked.measurements limits.operationsPerClient,
    min (min asked.sessions limits.sessionsPerClient)
      (min asked.measurements limits.operationsPerClient)⟩

/-- The most upload ids a lease request may mint. -/
def MAX_UPLOADS : ℕ := 4

/-- The leases ever made by their tokens, with the tokens and upload ids given out. -/
structure Server (η : Type) where
  leases : ℕ → Option (Admission.Lease η)
  tokens : ℕ
  mints : ℕ

namespace Server

variable {η : Type}

/-- `Leases::find`: an ended lease is presented by nothing. -/
def find (s : Server η) (token : ℕ) : Option (Admission.Lease η) :=
  (s.leases token).filter (!·.ended)

def set (s : Server η) (token : ℕ) (lease : Admission.Lease η) : Server η :=
  { s with leases := Function.update s.leases token (some lease) }

/-- What a resize answered. -/
def refusal (events : List (Admission.Event η)) : Option Refusal :=
  events.findSome? fun
    | .resized (.error refusal) => some refusal
    | _ => none

/-- The answer to a lease of `grant`, with the upload ids it mints. -/
def answer (s : Server η) (token : ℕ) (grant : Grant) (uploads : ℕ) : Server η × Reply :=
  ({ s with mints := s.mints + uploads }, .leased token grant (List.range' s.mints uploads))

/-- `LeaseRequest::decode` refuses a lease of no measurements, more sessions than measurements, or more
than `MAX_UPLOADS` ids. -/
def valid (asked : Grant) (uploads : ℕ) : Bool :=
  decide (0 < asked.measurements) && decide (asked.sessions ≤ asked.measurements) &&
    decide (uploads ≤ MAX_UPLOADS)

/-- The lease a request presents. It may end after the request was let in (`late`) and before its body
is read. -/
def held (s : Server η) (late : Bool) (token : ℕ) : Option (ℕ × Admission.Lease η) :=
  (if late then s.leases token else s.find token).map (Prod.mk token)

/-- `POST`: takes a lease, or resizes the one it presents, within the client's share. `ask` is what the
quotas answer the resize in turn. -/
def post (s : Server η) (limits : Limits) (token : Option ℕ) (asked : Grant) (uploads : ℕ)
    (late : Bool) (ask : ℕ → Except Full η) : Server η × Reply :=
  if valid asked uploads then
    match token.bind (s.held late) with
    | some (token, lease) =>
      match refusal (lease.resize (limits.share asked) ask).2 with
      | some _ => (s.set token (lease.resize (limits.share asked) ask).1, .refused)
      | none =>
        (s.set token (lease.resize (limits.share asked) ask).1).answer token (limits.share asked)
          uploads
    | none =>
      match refusal (Admission.Lease.new.resize (limits.share asked) ask).2 with
      | some _ => (s, .refused)
      | none =>
        answer { s.set s.tokens (Admission.Lease.new.resize (limits.share asked) ask).1 with
          tokens := s.tokens + 1 } s.tokens (limits.share asked) uploads
  else (s, .failed)

/-- `DELETE` ends the lease it presents. -/
def delete (s : Server η) (token : ℕ) : Server η × Reply :=
  match s.find token with
  | some lease => (s.set token { lease with ended := true }.finish.1, .ended)
  | none => (s, .ended)

def serve (s : Server η) (limits : Limits) (late : Bool) (ask : ℕ → Except Full η) :
    Request → Server η × Reply
  | .post _ token asked uploads => s.post limits token asked uploads late ask
  | .delete token => s.delete token

end Server

/-! ## Both -/

structure World (η : Type) where
  client : Client := {}
  server : Server η := ⟨fun _ => none, 0, 0⟩
  /-- Requests cut off before the server saw them, that may reach it yet. -/
  strays : List Request := []

inductive Action (η : Type)
  | hold (need : Need) (uploads : ℕ)
  | release (id : ℕ)
  | renew
  | upload
  | ends
  | abort (index : ℕ)
  | begin
  | deliver
  | resume (index : ℕ)
  | cut
  /-- The server answers the request on its way; `ask` is what its quotas answer. -/
  | serve (late : Bool) (ask : ℕ → Except Full η)
  /-- The server turns it away before its lease is looked at. -/
  | reject
  | stray (index : ℕ) (late : Bool) (ask : ℕ → Except Full η)
  /-- Anything else that happens to a lease. -/
  | work (token : ℕ) (action : Admission.Action η)

namespace World

variable {η : Type}

/-- A step of the client alone. -/
def alone (w : World η) : Client × List Event → World η × List Event :=
  fun result => ({ w with client := result.1 }, result.2)

/-- What is not a resize happens to a lease on its own: its work, the watcher, its end. -/
def isWork : Admission.Action η → Bool
  | .resize _ _ => false
  | _ => true

def step (limits : Limits) (w : World η) : Action η → Option (World η × List Event)
  | .hold need uploads => some (w.alone (w.client.hold need uploads, [.asked w.client.holds]))
  | .release id => (w.client.release id).map w.alone
  | .renew => some (w.alone (w.client.renew, [.renewed]))
  | .upload => some (w.alone w.client.upload)
  | .ends => some (w.alone (w.client.ends, [.asksEnd]))
  | .abort index => (w.client.abort index).map fun client => w.alone (client, [])
  | .begin => w.client.begin.map w.alone
  | .deliver => w.client.deliver.map w.alone
  | .resume index => (w.client.resume index).map w.alone
  | .cut => w.client.cut.map fun result =>
    ({ w with client := result.1, strays := w.strays ++ result.2.1 }, result.2.2)
  | .serve late ask =>
    match w.client.sent with
    | some (request, none) =>
      let result := w.server.serve limits late ask request
      some ({ w with
          server := result.1
          client := { w.client with sent := some (request, some result.2) } }, [])
    | _ => none
  | .reject =>
    match w.client.sent with
    | some (request, none) =>
      some ({ w with client := { w.client with sent := some (request, some .failed) } }, [])
    | _ => none
  | .stray index late ask =>
    w.strays[index]?.map fun request =>
      ({ w with
          server := (w.server.serve limits late ask request).1
          strays := w.strays.eraseIdx index }, [])
  | .work token action =>
    match w.server.leases token with
    | some lease =>
      if isWork action then
        (lease.step action).map fun result => ({ w with server := w.server.set token result.1 }, [])
      else none
    | none => none

end World

end GraphiteMeter.Browser.Lease
