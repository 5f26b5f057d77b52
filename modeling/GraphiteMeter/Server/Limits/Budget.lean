import GraphiteMeter.Lib.Word

/-!
# The buffer budget

Reference: `rust/server/src/limits/budget.rs`. QUIC and HTTP/2 connections and the download block draw
on one budget of bytes. It is three counters, each changed by single atomic operations; endpoint buffers
are reservations, which the pressure thresholds leave out.
-/

namespace GraphiteMeter.Server.Limits.Budget

structure Shared where
  limit : ℕ
  used : ℕ
  /-- Endpoint buffers ever reserved and released, wrapping; those held count within `used`. -/
  reserved : ℕ
  released : ℕ
deriving DecidableEq, Repr

/-- Part of the budget, given back when dropped. -/
structure Lease where
  bytes : ℕ
  reserved : Bool
deriving DecidableEq, Repr

namespace Shared

def new (limit : ℕ) : Shared := ⟨limit, 0, 0, 0⟩

/-- Adds to `used` in one atomic update, if it fits. -/
def charge (b : Shared) (bytes : ℕ) : Option Shared :=
  ((Word.checkedAdd b.used bytes).filter (· ≤ b.limit)).map fun used => { b with used }

def giveBack (b : Shared) (bytes : ℕ) : Shared := { b with used := Word.wrappingSub b.used bytes }

/-- Counts a reservation. -/
def addReserved (b : Shared) (bytes : ℕ) : Shared :=
  { b with reserved := Word.wrappingAdd b.reserved bytes }

/-- Counts its release. -/
def addReleased (b : Shared) (bytes : ℕ) : Shared :=
  { b with released := Word.wrappingAdd b.released bytes }

/-- A charge is made when the budget has room for it. -/
theorem charge_eq_some {b b' : Shared} {bytes : ℕ} :
    b.charge bytes = some b' ↔
      b.used + bytes ≤ Word.max ∧ b.used + bytes ≤ b.limit ∧
        b' = { b with used := b.used + bytes } := by
  rw [charge, Option.map_eq_some_iff]
  constructor
  · rintro ⟨used, hfilter, rfl⟩
    obtain ⟨hadd, hle⟩ := Option.filter_eq_some_iff.mp hfilter
    obtain ⟨hmax, rfl⟩ := Word.checkedAdd_eq_some.mp hadd
    exact ⟨hmax, of_decide_eq_true hle, rfl⟩
  · rintro ⟨hmax, hle, rfl⟩
    refine ⟨_, Option.filter_eq_some_iff.mpr ⟨?_, decide_eq_true hle⟩, rfl⟩
    exact Word.checkedAdd_eq_some.mpr ⟨hmax, rfl⟩

/-- What is given back is no longer used. -/
theorem used_giveBack {b : Shared} {bytes : ℕ} (h : bytes ≤ b.used) :
    (b.giveBack bytes).used = b.used - bytes :=
  Word.wrappingSub_of_le h

end Shared

/-- What a read of the counters reports: the limit past reservations and its use, from the released
total, then `used`, then the reserved total. The subtractions are done where they do not underflow. -/
def unreserved (limit released used reserved : ℕ) : Option (ℕ × ℕ) := do
  let reserved := min (Word.wrappingSub reserved released) used
  return (← Word.checkedSub limit reserved, ← Word.checkedSub used reserved)

end GraphiteMeter.Server.Limits.Budget
