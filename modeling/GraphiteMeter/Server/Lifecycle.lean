import GraphiteMeter.Lib.Machine
import Mathlib.Algebra.GroupWithZero.Nat

/-!
# An HTTP/2 connection's lifecycle

Reference: `rust/server/src/transport/lifecycle.rs`, and `rust/server/src/lane.rs` for the admitted
work. A connection goes away and then closes, by its streams, its admitted work and its credit.

A timer is its deadline. One that is polled has elapsed only from its deadline on, and only if the
runtime's driver got to it, which each poll is told of its three timers.
-/

namespace GraphiteMeter.Server

/-- Five seconds. -/
def shutdownGrace : ℕ := 5 * 10 ^ 9

/-- A TCP connection without requests or streams closes after this long: 15 seconds. -/
def connectionIdle : ℕ := 15 * 10 ^ 9

/-! ## Admitted work -/

/-- The admitted work running on one connection, and when the last of it ended. -/
structure WorkState where
  running : ℕ
  idleSince : ℕ
deriving DecidableEq, Repr

namespace Work

def new (now : ℕ) : WorkState := ⟨0, now⟩

def start (work : WorkState) : WorkState := { work with running := work.running + 1 }

/-- One of the work's guards is dropped. -/
def finish (work : WorkState) (now : ℕ) : WorkState :=
  let running := work.running - 1
  { running, idleSince := if running = 0 then now else work.idleSince }

/-- When the last admitted work ended, or the connection began; `none` while some runs. -/
def idleSince (work : WorkState) : Option ℕ :=
  if work.running = 0 then some work.idleSince else none

end Work

/-! ## The lifecycle -/

structure Activity where
  /-- The receive window is raised for admitted uploads. -/
  credited : Bool
  streams : Bool
deriving DecidableEq, Repr

/-- The timers the driver got to. -/
structure Driven where
  stale : Bool
  quiet : Bool
  closing : Bool
deriving DecidableEq, Repr

structure Lifecycle where
  stopping : Bool
  /-- The start of the admitted work's idle period last observed; `none` while some runs. -/
  idleSince : Option ℕ
  /-- When a credited connection without admitted work goes away. -/
  stale : Option ℕ
  quiet : Option ℕ
  closing : Option ℕ
deriving DecidableEq, Repr

namespace Lifecycle

inductive Event where
  | goAway
  | close
deriving DecidableEq, Repr

def new : Lifecycle := ⟨false, none, none, none, none⟩

/-- The server stops: the connection goes away and closes after the grace, whatever runs on it. -/
def stop (l : Lifecycle) (now : ℕ) : Lifecycle :=
  if l.stopping then l
  else { l with stopping := true, closing := l.closing.map fun _ => now + shutdownGrace }

/-- A new idle period restarts the stale bound, and the grace when outliving work ends. -/
def renew (l : Lifecycle) (since : Option ℕ) : Lifecycle :=
  if since = l.idleSince then l
  else
    { l with
      idleSince := since
      stale := none
      closing :=
        match l.stopping, since, l.closing with
        | false, some since, some _ => some (since + shutdownGrace)
        | _, _, closing => closing }

/-- Restarts the stale bound on a new idle period or on credit while idle, and the grace when
outliving work ends. -/
def observe (l : Lifecycle) (since : Option ℕ) (credited : Bool) : Lifecycle :=
  let l := l.renew since
  match l.stale, credited, since with
  | none, true, some since => { l with stale := some (since + connectionIdle) }
  | _, _, _ => l

/-- Whether no poll saw a stream for the bound, which a stream restarts. -/
def pollQuiet (l : Lifecycle) (now : ℕ) (streams driven : Bool) : Lifecycle × Bool :=
  if streams then ({ l with quiet := none }, false)
  else
    let quiet := l.quiet.getD (now + connectionIdle)
    ({ l with quiet := some quiet }, driven ∧ quiet ≤ now)

/-- The next event, given the connection's activity; unadmitted requests never hold credit open. -/
def poll (l : Lifecycle) (work : WorkState) (now : ℕ) (activity : Activity) (driven : Driven) :
    Option Event × Lifecycle :=
  let l := l.observe (Work.idleSince work) activity.credited
  let stale := l.stale.any fun stale => driven.stale ∧ stale ≤ now
  let (l, quiet) := l.pollQuiet now activity.streams driven.quiet
  if l.closing.isNone ∧ (l.stopping ∨ stale ∨ quiet) then
    (some .goAway, { l with closing := some (now + shutdownGrace) })
  else
    let closable := l.idleSince.isSome ∨ l.stopping
    match l.closing with
    | some closing => (if closable ∧ driven.closing ∧ closing ≤ now then some .close else none, l)
    | none => (none, l)

end Lifecycle

/-! ## A connection over time -/

/-- A connection, with the time of what happened last. -/
structure Lived where
  work : WorkState
  lifecycle : Lifecycle
  now : ℕ
deriving DecidableEq, Repr

namespace Lived

inductive Action where
  | start (now : ℕ)
  | finish (now : ℕ)
  | stop (now : ℕ)
  | poll (now : ℕ) (activity : Activity) (driven : Driven)
deriving DecidableEq, Repr

inductive Entry where
  | started (now : ℕ)
  | ended (now : ℕ)
  | stopped (now : ℕ)
  | polled (now : ℕ) (activity : Activity)
  | goAway (now : ℕ)
  | close (now : ℕ)
deriving DecidableEq, Repr

def Entry.time : Entry → ℕ
  | .started now | .ended now | .stopped now | .polled now _ | .goAway now | .close now => now

def Action.now : Action → ℕ
  | .start now | .finish now | .stop now | .poll now .. => now

def entry (now : ℕ) : Lifecycle.Event → Entry
  | .goAway => .goAway now
  | .close => .close now

def new (begun : ℕ) : Lived := ⟨Work.new begun, .new, begun⟩

/-- One thing happens, no earlier than the last, with what it logs. Work ends that runs. -/
def step (c : Lived) (a : Action) : Option (Lived × List Entry) :=
  if a.now < c.now then none
  else
    match a with
    | .start now => some ({ c with work := Work.start c.work, now }, [.started now])
    | .finish now =>
      if 0 < c.work.running then
        some ({ c with work := Work.finish c.work now, now }, [.ended now])
      else none
    | .stop now => some ({ c with lifecycle := c.lifecycle.stop now, now }, [.stopped now])
    | .poll now activity driven =>
      let (event, lifecycle) := c.lifecycle.poll c.work now activity driven
      some ({ c with lifecycle, now }, .polled now activity :: (event.map (entry now)).toList)

end Lived

end GraphiteMeter.Server
