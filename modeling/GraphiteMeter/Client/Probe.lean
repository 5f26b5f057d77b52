import GraphiteMeter.Lib.HashMap
import GraphiteMeter.Proto.Bus

/-!
# Latency probing

Reference: `rust/client/src/run/probe.rs`, with the deadline of `rust/client/src/measure/latency.rs`.
A pure schedule of sends and deadlines.

Instants and durations are nanoseconds; the range of neither is reached.
-/

namespace GraphiteMeter.Client

open Proto (Ping Pong)

def deadlineFloor : ℕ := 250 * 10 ^ 6

def deadlineCeiling : ℕ := 10 * 10 ^ 9

def minRttvar : ℕ := 10 ^ 6

/-- A timed-out probe's late reply still teaches the deadline this long after it went. -/
def lateReplies : ℕ := 10 * 10 ^ 9

def chainSpacing : ℕ := 10 ^ 6

/-! ## Deadlines -/

/-- A probe's deadline, learnt from every reply: the smoothed round trip and its variation. -/
structure Deadline where
  estimate : Option (ℕ × ℕ)
deriving DecidableEq, Repr

namespace Deadline

def get (deadline : Deadline) : ℕ :=
  match deadline.estimate with
  | none => deadlineFloor
  | some (srtt, rttvar) => max deadlineFloor (min deadlineCeiling (srtt + max rttvar minRttvar * 4))

/-- Learns from a reply, also one past its deadline. -/
def observe (deadline : Deadline) (rtt : ℕ) : Deadline :=
  match deadline.estimate with
  | none => ⟨some (rtt, rtt / 2)⟩
  | some (srtt, rttvar) =>
    ⟨some ((srtt * 7 + rtt) / 8, (rttvar * 3 + (max srtt rtt - min srtt rtt)) / 4)⟩

/-- A deadline is positive. -/
theorem get_pos (deadline : Deadline) : 0 < deadline.get := by
  have hfloor : 0 < deadlineFloor := by decide
  rw [get]
  split
  · exact hfloor
  · exact hfloor.trans_le (Nat.le_max_left _ _)

end Deadline

/-! ## The schedule -/

/-- When a prober sends: on each reply, or start to start at a fixed spacing. -/
inductive Cadence where
  | replyDriven
  | every (spacing : ℕ)
deriving DecidableEq, Repr

/-- A probe in flight. -/
structure Flight where
  sent : ℕ
  deadline : ℕ
  /-- Numbers the probes, so that a run can tell apart those of one id. Nothing reads it. -/
  serial : ℕ
deriving DecidableEq, Repr

/-- A timed-out probe whose reply may still come. -/
structure Late where
  sent : ℕ
  serial : ℕ
deriving DecidableEq, Repr

inductive ProbeOutcome where
  /-- A reply matched after `rtt` and carried the server's own handling time. -/
  | reply (rtt handling : ℕ)
  /-- The deadline passed first; a late reply does not change that. -/
  | timeout
  | unresolved
  | sendFailed
deriving DecidableEq, Repr

/-- What became of the probe that went at `sent`. -/
structure Outcome where
  sent : ℕ
  outcome : ProbeOutcome
  serial : ℕ
deriving DecidableEq, Repr

def Flight.resolve (flight : Flight) (outcome : ProbeOutcome) : Outcome :=
  ⟨flight.sent, outcome, flight.serial⟩

abbrev PingId := Fin (2 ^ 32)

/-- Start to start, or on the reply 1 ms past the last send at least, backed by the deadline; stopped
probes drain. -/
structure Schedule where
  cadence : Cadence
  window : ℕ
  deadline : Deadline
  pending : HashMap PingId Flight
  late : HashMap PingId Late
  next : Ping
  sent : ℕ
  due : Option ℕ
  answered : Bool
  /-- How many probes went. Nothing reads it but the probes it numbers. -/
  serial : ℕ

namespace Schedule

/-- Sends at once, then as `cadence` says, with at most `window` probes in flight. -/
def new (cadence : Cadence) (window now : ℕ) : Schedule :=
  { cadence, window, deadline := ⟨none⟩, pending := ∅, late := ∅, next := ⟨0⟩, sent := now,
    due := some now, answered := false, serial := 0 }

/-- The probes in flight in the order of their ids. -/
def inFlight (s : Schedule) : List (Sigma fun _ : PingId => Flight) :=
  s.pending.entries.mergeSort fun a b => a.1 ≤ b.1

def wake (s : Schedule) : Option ℕ :=
  (s.due.toList ++ s.inFlight.map fun e => e.2.deadline).min?

/-- How many slots of the grid after `due` have passed. -/
def missed (due spacing now : ℕ) : ℕ := (now - due) / max spacing 1

/-- The next slot: as far past `due` as a 32-bit number of slots reaches. -/
def nextDue (s : Schedule) (due now : ℕ) : ℕ :=
  match s.cadence with
  | .replyDriven => now + s.deadline.get
  | .every spacing => due + spacing * min (missed due spacing now + 1) (2 ^ 32 - 1)

def send (s : Schedule) (now : ℕ) : Option Ping × Schedule :=
  match s.due.filter fun due => due ≤ now with
  | none => (none, s)
  | some due =>
    let s := { s with due := some (s.nextDue due now) }
    if s.window ≤ s.pending.len then (none, s)
    else
      (some s.next,
        { s with
          next := s.next.next
          sent := now
          pending := s.pending.insert s.next.id ⟨now, now + s.deadline.get, s.serial⟩
          serial := s.serial + 1 })

def observe (s : Schedule) (rtt : ℕ) : Schedule :=
  { s with deadline := s.deadline.observe rtt, answered := true }

/-- Resolves a reply at `now`: in time, else a timeout, and resends; a late one only teaches the
deadline. -/
def reply (s : Schedule) (pong : Pong) (now : ℕ) : Option Outcome × Schedule :=
  match s.late.lookup pong.id with
  | some late =>
    (none, { s with late := s.late.erase pong.id }.observe (now - late.sent))
  | none =>
    match s.pending.lookup pong.id with
    | none => (none, s)
    | some flight =>
      let s := { s with pending := s.pending.erase pong.id }
      let s :=
        if s.cadence = .replyDriven ∧ s.due.isSome then
          { s with due := some (max now (s.sent + chainSpacing)) }
        else s
      let rtt := now - flight.sent
      let outcome := if now < flight.deadline then .reply rtt pong.handlingNanos else .timeout
      (some (flight.resolve outcome), s.observe rtt)

def expire (s : Schedule) (now : ℕ) : List Outcome × Schedule :=
  let expired := s.inFlight.filter fun e => e.2.deadline ≤ now
  (expired.map fun e => e.2.resolve .timeout,
    { s with
      pending := s.pending.retain fun _ flight => now < flight.deadline
      late := expired.foldl (fun late e => late.insert e.1 ⟨e.2.sent, e.2.serial⟩)
        (s.late.retain fun _ late => now - late.sent ≤ lateReplies) })

def failed (s : Schedule) (ping : Ping) : Option Outcome × Schedule :=
  match s.pending.lookup ping.id with
  | none => (none, s)
  | some flight => (some (flight.resolve .sendFailed), { s with pending := s.pending.erase ping.id })

/-- The channel is gone: probes in flight stay unresolved. -/
def lost (s : Schedule) : List Outcome × Schedule :=
  (s.inFlight.map fun e => e.2.resolve .unresolved, { s with pending := ∅, late := ∅ })

/-- Sending stops; probes in flight drain to their deadlines. -/
def stop (s : Schedule) : Schedule := { s with due := none }

/-! ## Runs -/

/-- A call of the schedule. -/
inductive Action where
  | send (now : ℕ)
  | reply (pong : Pong) (now : ℕ)
  | expire (now : ℕ)
  | failed (ping : Ping)
  | lost
  | stop

/-- The schedule after a call, with the outcomes it gave. -/
def step (s : Schedule) : Action → Option (Schedule × List Outcome)
  | .send now => some ((s.send now).2, [])
  | .reply pong now => some ((s.reply pong now).2, (s.reply pong now).1.toList)
  | .expire now => some ((s.expire now).2, (s.expire now).1)
  | .failed ping => some ((s.failed ping).2, (s.failed ping).1.toList)
  | .lost => some (s.lost.2, s.lost.1)
  | .stop => some (s.stop, [])

/-- The probes in flight and the late ones that are remembered, by their numbers. -/
def held (s : Schedule) : List ℕ :=
  s.pending.entries.map (fun e => e.2.serial) ++ s.late.entries.map fun e => e.2.serial

/-- The bounds a send keeps to: a fixed spacing is positive, fewer slots are missed at once than
`bound`, and fewer than 2^32 probes went since the oldest one that is held. -/
def Bounded (bound : ℕ) (s : Schedule) (now : ℕ) : Prop :=
  (match s.cadence with
    | .replyDriven => True
    | .every spacing => 0 < spacing ∧ ∀ due ∈ s.due, missed due spacing now < bound) ∧
  ∀ serial ∈ s.held, s.serial - serial < 2 ^ 32

instance (bound : ℕ) (s : Schedule) (now : ℕ) : Decidable (s.Bounded bound now) :=
  let _ : Decidable (match s.cadence with
      | .replyDriven => True
      | .every spacing => 0 < spacing ∧ ∀ due ∈ s.due, missed due spacing now < bound) :=
    match s.cadence with
    | .replyDriven => isTrue trivial
    | .every _ => inferInstanceAs (Decidable (_ ∧ _))
  inferInstanceAs (Decidable (_ ∧ _))

/-- Every send keeps to its bounds. -/
def Fit (bound : ℕ) (s : Schedule) : Action → Prop
  | .send now => s.Bounded bound now
  | _ => True

instance (bound : ℕ) (s : Schedule) : (action : Action) → Decidable (s.Fit bound action)
  | .send now => inferInstanceAs (Decidable (s.Bounded bound now))
  | .reply _ _ | .expire _ | .failed _ | .lost | .stop => isTrue trivial

end Schedule

end GraphiteMeter.Client
