import Mathlib.Algebra.BigOperators.Group.List.Basic
import Mathlib.Algebra.BigOperators.Ring.List
import Mathlib.Algebra.Field.Basic
import Mathlib.Algebra.Order.BigOperators.Group.List
import Mathlib.Algebra.Order.Field.Basic
import Mathlib.Algebra.Ring.CharZero
import Mathlib.Algebra.GroupWithZero.Nat
import Mathlib.Data.List.Induction
import Mathlib.Tactic.Linarith
import Mathlib.Tactic.LinearCombination
import Mathlib.Tactic.Ring

/-!
# Running moments

A count, a mean and the sum of squared differences from that mean, kept one value at a time by
Welford's update. `of` runs it over a list; `mean_eq` and `squares_eq` say that what it keeps are the
list's own.
-/

structure Moments (K : Type*) where
  count : ℕ
  mean : K
  squares : K
deriving Repr

namespace Moments

variable {K : Type*}

section Field

variable [Field K]

def fresh : Moments K := ⟨0, 0, 0⟩

/-- Welford's update. The difference from the mean before is times that from the mean after. -/
def add (m : Moments K) (x : K) : Moments K :=
  let mean := m.mean + (x - m.mean) / (m.count + 1 : ℕ)
  ⟨m.count + 1, mean, m.squares + (x - m.mean) * (x - mean)⟩

def of (l : List K) : Moments K := l.foldl add fresh

@[simp] theorem of_nil : of ([] : List K) = fresh := rfl

theorem of_append (l l' : List K) : of (l ++ l') = l'.foldl add (of l) := List.foldl_append

/-- One more value is added to the moments of the others. -/
theorem of_concat (l : List K) (x : K) : of (l ++ [x]) = (of l).add x := of_append l [x]

@[simp] theorem count_of (l : List K) : (of l).count = l.length := by
  induction l using List.reverseRecOn with
  | nil => rfl
  | append_singleton l x ih => rw [of_concat, add, ih, List.length_append, List.length_singleton]

/-- Differences from a value other than the mean. -/
theorem sum_sq_sub (l : List K) (a b : K) :
    (l.map fun x => (x - b) ^ 2).sum = (l.map fun x => (x - a) ^ 2).sum
      + 2 * (a - b) * (l.sum - l.length * a) + l.length * (a - b) ^ 2 := by
  induction l with
  | nil => simp
  | cons x l ih =>
    simp only [List.map_cons, List.sum_cons, List.length_cons, ih, Nat.cast_add, Nat.cast_one]
    ring

variable [CharZero K]

/-- **The mean is the list's.** -/
theorem sum_eq (l : List K) : l.length * (of l).mean = l.sum := by
  induction l using List.reverseRecOn with
  | nil => simp
  | append_singleton l x ih =>
    have hcount : ((l.length + 1 : ℕ) : K) ≠ 0 := Nat.cast_ne_zero.mpr (Nat.succ_ne_zero _)
    rw [of_concat, add, count_of, List.length_append, List.length_singleton, List.sum_append,
      List.sum_singleton, ← ih, mul_add, mul_div_cancel₀ _ hcount, Nat.cast_add, Nat.cast_one]
    ring

/-- **The running mean** is the mean. -/
theorem mean_eq {l : List K} (h : l ≠ []) : (of l).mean = l.sum / l.length := by
  have hlength : (l.length : K) ≠ 0 := Nat.cast_ne_zero.mpr (List.length_pos_iff.mpr h).ne'
  rw [← sum_eq, mul_div_cancel_left₀ _ hlength]

/-- **The squares are the list's**: the sum of squared differences from its mean. -/
theorem squares_eq (l : List K) : (of l).squares = (l.map fun x => (x - (of l).mean) ^ 2).sum := by
  induction l using List.reverseRecOn with
  | nil => rfl
  | append_singleton l x ih =>
    have hcount : ((l.length + 1 : ℕ) : K) ≠ 0 := Nat.cast_ne_zero.mpr (Nat.succ_ne_zero _)
    have hmean : (l.length + 1 : ℕ) * ((of l).add x).mean = (l.length : K) * (of l).mean + x := by
      rw [add, count_of, mul_add, mul_div_cancel₀ _ hcount, Nat.cast_add, Nat.cast_one]
      ring
    rw [of_concat, List.map_append, List.sum_append, List.map_singleton, List.sum_singleton,
      sum_sq_sub l (of l).mean, sum_eq, ← ih]
    rw [Nat.cast_add, Nat.cast_one] at hmean
    have hsquares : ((of l).add x).squares
        = (of l).squares + (x - (of l).mean) * (x - ((of l).add x).mean) := rfl
    rw [hsquares]
    linear_combination ((of l).mean - ((of l).add x).mean) * hmean

end Field

end Moments
