import Mathlib.Algebra.BigOperators.Group.List.Basic
import Mathlib.Algebra.Order.Field.Basic
import Mathlib.Tactic.FieldSimp
import Mathlib.Tactic.LinearCombination
import Mathlib.Tactic.Linarith
import Mathlib.Tactic.Ring

/-!
# Weights over spans of time laid end to end

A timeline is a list of weights, each spread evenly over a length of time, that follow one another
from an origin. `since` sums the weights from a time on and prorates the one that the time falls in.
What ends before that time does not count (`since_append_of_le`), and where the time falls is all that
is prorated (`since_split`).
-/

namespace Timeline

variable {K : Type*} [Field K]

/-- The length of all. -/
def elapsed (l : List (K × K)) : K := (l.map Prod.snd).sum

/-- The weight of all. -/
def weight (l : List (K × K)) : K := (l.map Prod.fst).sum

@[simp] theorem elapsed_nil : elapsed ([] : List (K × K)) = 0 := rfl

@[simp] theorem weight_nil : weight ([] : List (K × K)) = 0 := rfl

@[simp] theorem elapsed_cons (x : K × K) (l : List (K × K)) :
    elapsed (x :: l) = x.2 + elapsed l := by
  simp [elapsed]

@[simp] theorem weight_cons (x : K × K) (l : List (K × K)) : weight (x :: l) = x.1 + weight l := by
  simp [weight]

@[simp] theorem elapsed_append (l l' : List (K × K)) :
    elapsed (l ++ l') = elapsed l + elapsed l' := by
  simp [elapsed]

@[simp] theorem weight_append (l l' : List (K × K)) :
    weight (l ++ l') = weight l + weight l' := by
  simp [weight]

variable [LinearOrder K]

/-- The weight from `start` on, of spans that follow one another from `origin`. -/
def since (start origin : K) : List (K × K) → K
  | [] => 0
  | (w, d) :: rest =>
    (if origin + d ≤ start then 0
      else if start ≤ origin then w
      else w * ((origin + d - start) / d)) + since start (origin + d) rest

/-- Every span has a length. -/
def Positive (l : List (K × K)) : Prop := ∀ x ∈ l, 0 < x.2

/-- Two positive parts are positive. -/
theorem Positive.append {l l' : List (K × K)} (h : Positive l) (h' : Positive l') :
    Positive (l ++ l') := fun x hx => (List.mem_append.mp hx).elim (h x) (h' x)

variable {start origin : K} {l : List (K × K)}

/-- The weight since a time adds up over two parts. -/
theorem since_append (start origin : K) (l l' : List (K × K)) :
    since start origin (l ++ l') = since start origin l + since start (origin + elapsed l) l' := by
  induction l generalizing origin with
  | nil => simp [since]
  | cons x l ih =>
    rw [List.cons_append, since, since, ih, elapsed_cons, add_assoc, add_assoc]

/-- A time that the timeline reaches falls in one of its spans. -/
theorem exists_split (h : origin ≤ start) (hlt : start < origin + elapsed l) :
    ∃ before w d after, l = before ++ (w, d) :: after ∧ origin + elapsed before ≤ start ∧
      start < origin + elapsed before + d := by
  induction l generalizing origin with
  | nil =>
    rw [elapsed_nil, add_zero] at hlt
    exact absurd h (not_le.mpr hlt)
  | cons x l ih =>
    rw [elapsed_cons, ← add_assoc] at hlt
    rcases le_or_gt (origin + x.2) start with hend | hend
    · obtain ⟨before, w, d, after, rfl, hbefore, hd⟩ := ih hend hlt
      refine ⟨x :: before, w, d, after, rfl, ?_, ?_⟩ <;> rwa [elapsed_cons, ← add_assoc]
    · exact ⟨[], x.1, x.2, l, rfl, by rwa [elapsed_nil, add_zero], by rwa [elapsed_nil, add_zero]⟩

variable [IsStrictOrderedRing K]

/-- Time does not run back. -/
theorem Positive.elapsed_nonneg (h : Positive l) : 0 ≤ elapsed l := by
  induction l with
  | nil => exact le_rfl
  | cons x l ih =>
    have hx := h x List.mem_cons_self
    have hl := ih fun y hy => h y (List.mem_cons_of_mem x hy)
    rw [elapsed_cons]
    linarith

/-- From their origin or before, all count. -/
theorem since_of_le (hpos : Positive l) (h : start ≤ origin) : since start origin l = weight l := by
  induction l generalizing origin with
  | nil => rfl
  | cons x l ih =>
    have hx := hpos x List.mem_cons_self
    rw [since, if_neg (by linarith), if_pos h, weight_cons,
      ih (fun y hy => hpos y (List.mem_cons_of_mem x hy)) (by linarith)]

/-- What has ended does not count. -/
theorem since_eq_zero (hpos : Positive l) (h : origin + elapsed l ≤ start) :
    since start origin l = 0 := by
  induction l generalizing origin with
  | nil => rfl
  | cons x l ih =>
    have hl := fun y hy => hpos y (List.mem_cons_of_mem x hy)
    have hrest := Positive.elapsed_nonneg hl
    rw [elapsed_cons] at h
    rw [since, if_pos (by linarith), ih hl (by linarith), add_zero]

/-- **Forgetting** what has ended changes nothing. -/
theorem since_append_of_le {gone : List (K × K)} (hpos : Positive gone)
    (h : origin + elapsed gone ≤ start) (l : List (K × K)) :
    since start origin (gone ++ l) = since start (origin + elapsed gone) l := by
  rw [since_append, since_eq_zero hpos h, zero_add]

/-- What comes after counts in full. -/
theorem since_append_of_ge {later : List (K × K)} (hpos : Positive later)
    (h : start ≤ origin + elapsed l) :
    since start origin (l ++ later) = since start origin l + weight later := by
  rw [since_append, since_of_le hpos h]

/-- Two spans of one rate are one. -/
theorem since_merge {w w' d d' : K} (hd : 0 < d) (hd' : 0 < d') (hrate : w * d' = w' * d)
    (l : List (K × K)) :
    since start origin ((w, d) :: (w', d') :: l) = since start origin ((w + w', d + d') :: l) := by
  have hsum : 0 < d + d' := add_pos hd hd'
  rw [since, since, since, ← add_assoc, add_assoc origin]
  congr 1
  rcases le_or_gt (origin + (d + d')) start with hend | hend
  · rw [if_pos (by linarith), if_pos hend, if_pos hend, add_zero]
  rw [if_neg hend.not_ge, if_neg hend.not_ge]
  rcases le_or_gt start origin with hstart | hstart
  · rw [if_neg (by linarith), if_pos hstart, if_pos (by linarith), if_pos hstart]
  rw [if_neg hstart.not_ge]
  rcases le_or_gt (origin + d) start with hmid | hmid
  · rw [if_pos hmid, zero_add, if_neg hstart.not_ge]
    split_ifs with heq
    · obtain rfl : start = origin + d := le_antisymm heq hmid
      field_simp
      linear_combination -hrate
    · field_simp
      linear_combination -hrate
  · rw [if_neg hmid.not_ge, if_neg hstart.not_ge, if_pos hmid.le]
    field_simp
    linear_combination (origin - start) * hrate

/-- The span that `start` falls in is prorated, and those after it count in full. -/
theorem since_split {before after : List (K × K)} {w d : K}
    (hpos : Positive (before ++ (w, d) :: after)) (h : origin + elapsed before ≤ start)
    (hlt : start < origin + elapsed before + d) :
    since start origin (before ++ (w, d) :: after)
      = w * ((origin + elapsed before + d - start) / d) + weight after := by
  have hd : 0 < d := hpos (w, d) (by simp)
  have hafter : Positive after := fun x hx =>
    hpos x (List.mem_append_right _ (List.mem_cons_of_mem _ hx))
  rw [since_append_of_le (fun x hx => hpos x (List.mem_append_left _ hx)) h, since,
    if_neg (not_le.mpr hlt), since_of_le hafter hlt.le]
  congr 1
  split_ifs with hstart
  · -- the time is where the span begins: it counts in full
    obtain rfl : start = origin + elapsed before := le_antisymm hstart h
    rw [add_sub_cancel_left, div_self hd.ne', mul_one]
  · rfl

end Timeline
