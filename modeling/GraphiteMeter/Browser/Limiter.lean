import Mathlib.Algebra.Field.Rat
import Mathlib.Algebra.Order.Ring.NNRat
import Mathlib.Data.List.Sort
import GraphiteMeter.Lib.HashMap

/-!
# The connection limiter

Reference: `client/src/engine/net/limiter.ts`.

Every `acquire` is named by how many came before it. Its promise is among the slots once it resolved,
with what its release closes over, and among the rejected once it was; an abort listener is the signal
and the waiter it would remove. Priorities are what the callers' functions return while one call lasts,
so each call brings its own.
-/

namespace GraphiteMeter.Browser.Limiter

def totalMax : ℕ := 8

def perOrigin : ℕ := 2

def backgroundMax : ℕ := 4

structure Waiting (Origin Signal : Type) where
  id : ℕ
  origin : Origin
  signal : Signal
deriving DecidableEq

/-- A check that was started, and what its release closes over. -/
structure Slot (Origin : Type) where
  id : ℕ
  origin : Origin
  isBackground : Bool
  released : Bool
deriving DecidableEq

end Limiter

structure Limiter (Origin Signal : Type) where
  running : HashMap Origin ℕ
  total : ℕ
  background : ℕ
  queue : List (Limiter.Waiting Origin Signal)
  acquired : ℕ
  slots : List (Limiter.Slot Origin)
  rejected : List (ℕ × Signal)
  aborted : List Signal
  listeners : List (Signal × ℕ)

namespace Limiter

abbrev Priorities := ℕ → ℚ≥0

variable {Origin Signal : Type} [DecidableEq Origin] [DecidableEq Signal]

def createLimiter : Limiter Origin Signal where
  running := ∅
  total := 0
  background := 0
  queue := []
  acquired := 0
  slots := []
  rejected := []
  aborted := []
  listeners := []

def busy (l : Limiter Origin Signal) (origin : Origin) : ℕ := (l.running.lookup origin).getD 0

def fits (priority : Priorities) (l : Limiter Origin Signal) (w : Waiting Origin Signal) : Bool :=
  if priority w.id = 0 then l.busy w.origin < perOrigin
  else l.busy w.origin = 0 ∧ l.background < backgroundMax

/-- Whether a check counts as background is fixed when it starts. -/
def start (priority : Priorities) (l : Limiter Origin Signal) (w : Waiting Origin Signal) :
    Limiter Origin Signal :=
  let isBackground := decide (0 < priority w.id)
  { l with
    listeners := l.listeners.filter (· ≠ (w.signal, w.id))
    total := l.total + 1
    background := if isBackground then l.background + 1 else l.background
    running := l.running.insert w.origin (l.busy w.origin + 1)
    slots := l.slots ++ [⟨w.id, w.origin, isBackground, false⟩] }

/-- `while (total < TOTAL)`: start the first that fits. -/
def startFitting (priority : Priorities) (l : Limiter Origin Signal) : Limiter Origin Signal :=
  if l.total < totalMax then
    match _ : l.queue.find? (fits priority l) with
    | none => l
    | some w => startFitting priority
        (start priority { l with queue := l.queue.eraseP (fits priority l) } w)
  else l
termination_by l.queue.length
decreasing_by
  rename_i h
  show (l.queue.eraseP (fits priority l)).length < l.queue.length
  rw [List.length_eraseP_of_mem (List.mem_of_find?_eq_some h) (List.find?_some h)]
  exact Nat.sub_lt (List.length_pos_of_mem (List.mem_of_find?_eq_some h)) Nat.one_pos

def drain (priority : Priorities) (l : Limiter Origin Signal) : Limiter Origin Signal :=
  startFitting priority
    { l with queue := l.queue.insertionSort fun a b => priority a.id ≤ priority b.id }

def acquire (priority : Priorities) (l : Limiter Origin Signal) (origin : Origin) (signal : Signal) :
    Limiter Origin Signal :=
  let id := l.acquired
  let l := { l with acquired := id + 1 }
  if signal ∈ l.aborted then { l with rejected := l.rejected ++ [(id, signal)] }
  else
    drain priority { l with
      listeners := l.listeners ++ [(signal, id)]
      queue := l.queue ++ [⟨id, origin, signal⟩] }

/-- An abort listener runs. -/
def fire (l : Limiter Origin Signal) (listener : Signal × ℕ) : Limiter Origin Signal :=
  { l with
    queue := l.queue.filter (·.id ≠ listener.2)
    rejected := l.rejected ++ [(listener.2, listener.1)] }

/-- A signal aborts, once, and runs its listeners, once each. -/
def abort (l : Limiter Origin Signal) (signal : Signal) : Limiter Origin Signal :=
  if signal ∈ l.aborted then l
  else
    (l.listeners.filter (·.1 = signal)).foldl fire
      { l with aborted := signal :: l.aborted, listeners := l.listeners.filter (·.1 ≠ signal) }

/-- The release of a started check is called. -/
def release (priority : Priorities) (l : Limiter Origin Signal) (id : ℕ) : Limiter Origin Signal :=
  match l.slots.find? (·.id = id) with
  | none => l
  | some slot =>
    if slot.released then l
    else
      let left := l.busy slot.origin - 1
      drain priority { l with
        slots := l.slots.map fun s => if s.id = id then { s with released := true } else s
        total := l.total - 1
        background := if slot.isBackground then l.background - 1 else l.background
        running :=
          if left ≠ 0 then l.running.insert slot.origin left else l.running.erase slot.origin }

/-! ## Calls -/

/-- What callers and signals do. -/
inductive Call (Origin Signal : Type) where
  | acquire (origin : Origin) (signal : Signal)
  | abort (signal : Signal)
  | release (id : ℕ)
  | drain
deriving DecidableEq

def step (l : Limiter Origin Signal) (call : Call Origin Signal × Priorities) :
    Limiter Origin Signal :=
  match call.1 with
  | .acquire origin signal => acquire call.2 l origin signal
  | .abort signal => l.abort signal
  | .release id => release call.2 l id
  | .drain => drain call.2 l

def run (l : Limiter Origin Signal) (calls : List (Call Origin Signal × Priorities)) :
    Limiter Origin Signal :=
  calls.foldl step l

end GraphiteMeter.Browser.Limiter
