import Mathlib.Algebra.GroupWithZero.Nat
import Mathlib.Data.Nat.Basic

/-!
# Receiver counters

Reference: `rust/proto/src/upload.rs`. The server counts what an upload received; both clients read
the counters at a checkpoint.
-/

namespace GraphiteMeter.Proto

/-- The largest counter both clients represent exactly. -/
def maxCounter : ℕ := 2 ^ 53 - 1

/-- One receiver observation: payload bytes and nanoseconds since the first accepted chunk. -/
structure Counters where
  bytes : ℕ
  nanos : ℕ
deriving DecidableEq, Repr

namespace Counters

/-- Counters past the exact JSON range stay at its maximum. -/
def new (bytes nanos : ℕ) : Counters := ⟨min bytes maxCounter, min nanos maxCounter⟩

/-- Whether this observation may follow `last`; one where either counter regresses is stale. -/
def follows (next last : Counters) : Bool := last.bytes ≤ next.bytes ∧ last.nanos ≤ next.nanos

end Counters

end GraphiteMeter.Proto
