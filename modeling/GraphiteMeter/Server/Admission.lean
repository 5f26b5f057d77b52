import GraphiteMeter.Lib.Machine
import GraphiteMeter.Server.Upload.Store
import Mathlib.Algebra.Order.Group.Multiset

/-!
# Leases

Reference: `rust/server/src/admission.rs`. A lease holds capacity its client takes once and its work
then presents: some measurements, and of them WebTransport transfer sessions. The grant may be lowered
below what is in use and raised again while slots end in any order.

The quotas are shared with every other client, so what they answer is part of the action. Every hold
they give is told apart, and the log keeps which were acquired and which released: a lease leaks no hold
and frees none early (`Ledger`). What one call does under the lease's lock is one step; `Leases::end`
is two, since it cancels the lease before it takes the lock, and a resize may come between them.
-/

namespace GraphiteMeter.Server.Admission

variable {η : Type}

/-- What a lease holds: measurements, of them WebTransport transfer sessions. -/
structure Grant where
  measurements : ℕ
  sessions : ℕ
deriving DecidableEq, Repr

/-- What is asked of the quotas for the creator's keys. -/
inductive Call where
  | operation
  | session
  | sessionBesideHandler
deriving DecidableEq, Repr

structure State (η : Type) where
  grant : Grant
  /-- Used of the grant: its slots taken. -/
  used : Grant
  /-- Holds of the grant's measurements, then of its sessions apart from their measurements. -/
  measurements : List η
  sessions : List η
  /-- Work presenting the lease, past its grant too. -/
  live : ℕ
  unusedSince : Option ℕ
deriving DecidableEq, Repr

/-- A lease's share held by one admitted request: a slot of its grant, or a hold past it. -/
structure Slot (η : Type) where
  session : Bool
  granted : Bool
  past : Option η
deriving DecidableEq, Repr

/-- A lease with the slots that are live. -/
structure Lease (η : Type) where
  state : State η
  ended : Bool
  slots : List (Slot η)
deriving DecidableEq, Repr

/-- What happens to holds, and what calls return. -/
inductive Event (η : Type) where
  | acquired (call : Call) (hold : η)
  | released (hold : η)
  | resized (result : Except Refusal Unit)
  | admitted (result : Except Full (Slot η))
  | dropped (slot : Slot η)
  | ended

inductive Action (η : Type) where
  /-- `ask` is what the quotas answer the calls in turn. -/
  | resize (grant : Grant) (ask : ℕ → Except Full η)
  | admitSlot (session : Bool) (ask : Except Full η)
  /-- Drops the slot at an index. -/
  | drop (index : ℕ)
  /-- The two halves of `Leases::end`. -/
  | cancel
  | finish
  /-- The watcher of an unused lease looks at it. -/
  | watch (now : ℕ)

namespace State

def empty : State η := ⟨⟨0, 0⟩, ⟨0, 0⟩, [], [], 0, none⟩

/-- The holds that keep the grant and the slots in use: measurements, and sessions. -/
def wanted (s : State η) (grant : Grant) : ℕ × ℕ :=
  (max grant.measurements s.used.measurements, max grant.sessions s.used.sessions)

/-- Releases holds no longer wanted. Gives those released. -/
def fit (s : State η) : State η × List η :=
  let (measurements, sessions) := s.wanted s.grant
  ({ s with
      measurements := s.measurements.take measurements
      sessions := s.sessions.take sessions },
    s.measurements.drop measurements ++ s.sessions.drop sessions)

end State

/-- Asks for `count` holds in turn until one is refused. -/
def take (ask : ℕ → Except Full η) (asked : ℕ) : ℕ → List η × Option Full
  | 0 => ([], none)
  | count + 1 =>
    match ask asked with
    | .error full => ([], some full)
    | .ok hold =>
      let (holds, refused) := take ask (asked + 1) count
      (hold :: holds, refused)

namespace Lease

/-- The lease as it is made, before its first grant. -/
def new : Lease η := ⟨.empty, false, []⟩

/-- Holds `grant` from now; a raise that does not fit changes nothing, nor does one that lost the race
with the lease's end. -/
def resize (w : Lease η) (grant : Grant) (ask : ℕ → Except Full η) : Lease η × List (Event η) :=
  if w.ended then (w, [.resized (.ok ())])
  else
    let (measurements, sessions) := w.state.wanted grant
    match take ask 0 (sessions - w.state.sessions.length) with
    | (raised, some full) =>
      (w, raised.map (.acquired .sessionBesideHandler) ++ raised.map .released ++
        [.resized (.error (Upload.Refusal.ofFull full))])
    | (raised, none) =>
      match take ask raised.length (measurements - w.state.measurements.length) with
      | (more, some full) =>
        (w, raised.map (.acquired .sessionBesideHandler) ++ more.map (.acquired .operation) ++
          more.map .released ++ raised.map .released ++ [.resized (.error (Upload.Refusal.ofFull full))])
      | (more, none) =>
        let (state, dropped) := State.fit { w.state with
          sessions := w.state.sessions ++ raised
          measurements := w.state.measurements ++ more
          grant }
        ({ w with state }, raised.map (.acquired .sessionBesideHandler) ++
          more.map (.acquired .operation) ++ dropped.map .released ++ [.resized (.ok ())])

/-- Admits a slot of the grant. -/
def admitGranted (w : Lease η) (session : Bool) : Lease η × List (Event η) :=
  let slot := ⟨session, true, none⟩
  ({ w with
      state := { w.state with
        used := ⟨w.state.used.measurements + 1, w.state.used.sessions + session.toNat⟩
        live := w.state.live + 1
        unusedSince := none }
      slots := slot :: w.slots },
    [.admitted (.ok slot)])

/-- Admits a slot past the grant, with the hold it took. -/
def admitPast (w : Lease η) (session : Bool) (hold : η) : Lease η × List (Event η) :=
  let slot := ⟨session, false, some hold⟩
  ({ w with
      state := { w.state with live := w.state.live + 1, unusedSince := none }
      slots := slot :: w.slots },
    [.acquired (if session then .session else .operation) hold, .admitted (.ok slot)])

/-- Admits one request against the grant, or past it against the creator's share; `session` for a
WebTransport transfer session. -/
def admitSlot (w : Lease η) (session : Bool) (ask : Except Full η) : Lease η × List (Event η) :=
  if w.state.used.measurements < w.state.grant.measurements ∧
      (session = false ∨ w.state.used.sessions < w.state.grant.sessions) then
    w.admitGranted session
  else
    match ask with
    | .error full => (w, [.admitted (.error full)])
    | .ok hold => w.admitPast session hold

/-- `Slot::drop` under the lock, and then the hold the slot has past the grant. -/
def dropSlot (w : Lease η) (index : ℕ) (slot : Slot η) : Lease η × List (Event η) :=
  let (state, dropped) :=
    if slot.granted then
      State.fit { w.state with
        used := ⟨w.state.used.measurements - 1, w.state.used.sessions - slot.session.toNat⟩ }
    else (w.state, [])
  ({ w with state := { state with live := state.live - 1 }, slots := w.slots.eraseIdx index },
    (dropped ++ slot.past.toList).map .released ++ [.dropped slot])

/-- What `Leases::end` does under the lock. -/
def finish (w : Lease η) : Lease η × List (Event η) :=
  let (state, dropped) := State.fit { w.state with grant := ⟨0, 0⟩ }
  ({ w with state }, dropped.map .released ++ [.ended])

/-- The look `unused` takes under the lock. -/
def watch (w : Lease η) (now : ℕ) : Lease η :=
  if 0 < w.state.live then w
  else { w with state := { w.state with unusedSince := some (w.state.unusedSince.getD now) } }

def step (w : Lease η) : Action η → Option (Lease η × List (Event η))
  | .resize grant ask => some (w.resize grant ask)
  | .admitSlot session ask => some (w.admitSlot session ask)
  | .drop index => w.slots[index]?.map (w.dropSlot index)
  | .cancel => some ({ w with ended := true }, [])
  | .finish => if w.ended then some w.finish else none
  | .watch now => some (w.watch now, [])

end Lease

end GraphiteMeter.Server.Admission
