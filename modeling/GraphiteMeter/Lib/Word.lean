import Mathlib.Algebra.GroupWithZero.Nat
import Mathlib.Data.Nat.Basic

/-!
# 64-bit unsigned arithmetic on ℕ

The operations a 64-bit machine word offers, with their overflow.
-/

namespace Word

/-- The largest 64-bit number. -/
def max : ℕ := 2 ^ 64 - 1

/-- A number as a word that stays at the maximum. -/
def saturate (n : ℕ) : ℕ := min n max

def saturatingAdd (a b : ℕ) : ℕ := saturate (a + b)

def saturatingMul (a b : ℕ) : ℕ := saturate (a * b)

def wrappingAdd (a b : ℕ) : ℕ := (a + b) % 2 ^ 64

def wrappingSub (a b : ℕ) : ℕ := if b ≤ a then a - b else 2 ^ 64 - (b - a)

def checkedAdd (a b : ℕ) : Option ℕ := if a + b ≤ max then some (a + b) else none

def checkedSub (a b : ℕ) : Option ℕ := if b ≤ a then some (a - b) else none

/-- A number below two to the sixty-fourth does not saturate. -/
theorem saturate_of_lt {n : ℕ} (h : n < 2 ^ 64) : saturate n = n := by
  rw [saturate, max]
  omega

/-- A sum below two to the sixty-fourth does not wrap. -/
theorem wrappingAdd_of_lt {a b : ℕ} (h : a + b < 2 ^ 64) : wrappingAdd a b = a + b :=
  Nat.mod_eq_of_lt h

/-- A difference that is not negative does not wrap. -/
theorem wrappingSub_of_le {a b : ℕ} (h : b ≤ a) : wrappingSub a b = a - b :=
  if_pos h

/-- A checked sum is the sum, if it fits. -/
theorem checkedAdd_eq_some {a b n : ℕ} : checkedAdd a b = some n ↔ a + b ≤ max ∧ n = a + b := by
  rw [checkedAdd]
  split_ifs with h
  · rw [Option.some.injEq]
    exact ⟨fun heq => ⟨h, heq.symm⟩, fun heq => heq.2.symm⟩
  · exact ⟨nofun, fun heq => absurd heq.1 h⟩

/-- A checked difference is the difference, if it is not negative. -/
theorem checkedSub_eq_some {a b n : ℕ} : checkedSub a b = some n ↔ b ≤ a ∧ n = a - b := by
  rw [checkedSub]
  split_ifs with h
  · rw [Option.some.injEq]
    exact ⟨fun heq => ⟨h, heq.symm⟩, fun heq => heq.2.symm⟩
  · exact ⟨nofun, fun heq => absurd heq.1 h⟩

end Word
