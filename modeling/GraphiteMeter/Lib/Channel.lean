import Mathlib.Data.List.Basic
import Mathlib.Data.Nat.Notation

/-!
# Bounded channels

A channel of a fixed capacity between senders, which never wait, and one receiver. A send is refused
where the queue is full, and for good once the receiver hung up.
-/

/-- What has been sent and not yet received, the oldest first. -/
structure Channel (α : Type*) (capacity : ℕ) where
  queue : List α
  closed : Bool
  fits : queue.length ≤ capacity
deriving DecidableEq, Repr

namespace Channel

variable {α : Type*} {capacity : ℕ}

/-- Why a send is refused. -/
inductive Refusal where
  | full
  | closed
deriving DecidableEq, Repr

def empty : Channel α capacity := ⟨[], false, Nat.zero_le _⟩

def trySend (c : Channel α capacity) (a : α) : Except Refusal (Channel α capacity) :=
  if c.closed then .error .closed
  else if hroom : c.queue.length < capacity then
    .ok ⟨c.queue ++ [a], c.closed, by rw [List.length_append]; exact hroom⟩
  else .error .full

/-- The receiver takes the oldest. -/
def tryRecv (c : Channel α capacity) : Option (α × Channel α capacity) :=
  match hqueue : c.queue with
  | [] => none
  | a :: queue => some (a, ⟨queue, c.closed, by
      have hfits := c.fits
      rw [hqueue] at hfits
      exact Nat.le_of_succ_le hfits⟩)

/-- The receiver hangs up, and takes what was still queued. -/
def hangUp (_ : Channel α capacity) : Channel α capacity := ⟨[], true, Nat.zero_le _⟩

@[simp] theorem empty_queue : (empty : Channel α capacity).queue = [] := rfl

@[simp] theorem empty_closed : (empty : Channel α capacity).closed = false := rfl

@[simp] theorem hangUp_queue (c : Channel α capacity) : c.hangUp.queue = [] := rfl

@[simp] theorem hangUp_closed (c : Channel α capacity) : c.hangUp.closed = true := rfl

variable {c d : Channel α capacity} {a : α}

/-- A send that goes through puts the element last. -/
theorem trySend_eq_ok (h : c.trySend a = .ok d) :
    c.closed = false ∧ c.queue.length < capacity ∧ d.queue = c.queue ++ [a] ∧ d.closed = c.closed := by
  unfold trySend at h
  split at h
  · cases h
  · rename_i hopen
    split at h
    · rename_i hroom
      cases h
      exact ⟨Bool.eq_false_iff.mpr hopen, hroom, rfl, rfl⟩
    · cases h

/-- A channel is full when it is open and at its capacity. -/
theorem trySend_eq_full (h : c.trySend a = .error .full) :
    c.closed = false ∧ c.queue.length = capacity := by
  unfold trySend at h
  split at h
  · cases h
  · rename_i hopen
    split at h
    · cases h
    · rename_i hroom
      exact ⟨Bool.eq_false_iff.mpr hopen, Nat.le_antisymm c.fits (Nat.not_lt.mp hroom)⟩

/-- A channel refuses as closed when it is. -/
theorem trySend_eq_closed (h : c.trySend a = .error .closed) : c.closed = true := by
  unfold trySend at h
  split at h
  · assumption
  · split at h <;> cases h

/-- What is received was the first of the queue. -/
theorem tryRecv_eq_some (h : c.tryRecv = some (a, d)) :
    c.queue = a :: d.queue ∧ d.closed = c.closed := by
  unfold tryRecv at h
  split at h
  · cases h
  · rename_i first queue hqueue
    cases h
    exact ⟨hqueue, rfl⟩

end Channel
