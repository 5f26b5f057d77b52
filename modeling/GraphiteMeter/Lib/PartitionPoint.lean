import Mathlib.Data.List.Basic
import Mathlib.Data.Nat.Notation

/-!
# The partition point of a list

Binary search for where a predicate turns false. On a list that has such a point it finds it; on any
other it gives some index.
-/

namespace List

variable {α : Type*}

/-- The search between `lo` and `hi`. -/
def partitionBetween (p : α → Bool) (l : List α) (lo hi : ℕ) : ℕ :=
  if lo < hi then
    let mid := lo + (hi - lo) / 2
    if l[mid]?.any p then partitionBetween p l (mid + 1) hi
    else partitionBetween p l lo mid
  else lo
termination_by hi - lo

/-- The index of the first element that `p` is false of. -/
def partitionPoint (p : α → Bool) (l : List α) : ℕ := partitionBetween p l 0 l.length

variable {p : α → Bool} {l : List α}

/-- `p` is true before the index and false from it on. -/
structure PartitionedAt (p : α → Bool) (l : List α) (lo hi : ℕ) : Prop where
  before : ∀ i a, l[i]? = some a → i < lo → p a = true
  after : ∀ i a, l[i]? = some a → hi ≤ i → p a = false

/-- The search keeps what it knows of the elements outside its bounds. -/
theorem partitionBetween_spec (hl : l.Pairwise fun a b => p b = true → p a = true) {lo hi : ℕ}
    (hle : lo ≤ hi) (hhi : hi ≤ l.length) (h : PartitionedAt p l lo hi) :
    PartitionedAt p l (partitionBetween p l lo hi) (partitionBetween p l lo hi) := by
  have hmono (i j : ℕ) (a c : α) (ha : l[i]? = some a) (hc : l[j]? = some c) (hij : i < j)
      (hp : p c = true) : p a = true := by
    obtain ⟨hi', rfl⟩ := List.getElem?_eq_some_iff.mp ha
    obtain ⟨hj', rfl⟩ := List.getElem?_eq_some_iff.mp hc
    exact List.pairwise_iff_getElem.mp hl i j hi' hj' hij hp
  induction lo, hi using partitionBetween.induct p l with
  | case1 lo hi hlt mid hp ih =>
    rw [partitionBetween, if_pos hlt]
    simp only [mid] at hp ih
    rw [if_pos hp]
    -- the middle is before the index, and so is all ahead of it
    obtain ⟨c, hc, hpc⟩ := (Option.any_eq_true _ _).mp hp
    refine ih (by omega) hhi ⟨fun i a ha hi' => ?_, h.after⟩
    rcases Nat.lt_succ_iff_lt_or_eq.mp hi' with hlt' | heq
    · exact hmono i _ a c ha hc hlt' hpc
    · rw [heq, hc] at ha
      cases ha
      exact hpc
  | case2 lo hi hlt mid hp ih =>
    rw [partitionBetween, if_pos hlt]
    simp only [mid] at hp ih
    rw [if_neg hp]
    -- an element from the middle on of which `p` were true would make it true of the middle
    refine ih (by omega) (by omega) ⟨h.before, fun i a ha hi' => ?_⟩
    by_contra hpa
    rw [Bool.not_eq_false] at hpa
    apply hp
    obtain ⟨c, hc⟩ : ∃ c, l[lo + (hi - lo) / 2]? = some c :=
      ⟨_, List.getElem?_eq_getElem (by omega)⟩
    rw [hc]
    rcases Nat.lt_or_eq_of_le hi' with hlt' | heq
    · exact hmono _ i c a hc ha hlt' hpa
    · rw [← heq, hc] at ha
      cases ha
      exact hpa
  | case3 lo hi hge =>
    rw [partitionBetween, if_neg hge]
    have heq : lo = hi := by omega
    subst heq
    exact h

/-- The partition point of a partitioned list divides it. -/
theorem partitionPoint_spec (hl : l.Pairwise fun a b => p b = true → p a = true) :
    PartitionedAt p l (partitionPoint p l) (partitionPoint p l) :=
  partitionBetween_spec hl (Nat.zero_le _) (Nat.le_refl _)
    ⟨fun i a _ hi => absurd hi (Nat.not_lt_zero i), fun i a ha hi => by
      rw [List.getElem?_eq_none hi] at ha
      cases ha⟩

/-- **Dropping to the partition point** drops what `p` is true of. -/
theorem drop_partitionPoint (hl : l.Pairwise fun a b => p b = true → p a = true) :
    l.drop (partitionPoint p l) = l.filter fun a => !p a := by
  have h := partitionPoint_spec hl
  generalize partitionPoint p l = n at h
  conv_rhs => rw [← List.take_append_drop n l, List.filter_append]
  have htake : (l.take n).filter (fun a => !p a) = [] := by
    rw [List.filter_eq_nil_iff]
    intro a ha
    obtain ⟨i, hi⟩ := List.mem_iff_getElem?.mp ha
    rw [List.getElem?_take] at hi
    split_ifs at hi with hlt
    rw [h.before i a hi hlt]
    decide
  have hdrop : (l.drop n).filter (fun a => !p a) = l.drop n := by
    rw [List.filter_eq_self]
    intro a ha
    obtain ⟨i, hi⟩ := List.mem_iff_getElem?.mp ha
    rw [List.getElem?_drop] at hi
    rw [h.after (n + i) a hi (Nat.le_add_right n i)]
    rfl
  rw [htake, hdrop, List.nil_append]

/-- The element at the partition point. -/
theorem getElem?_partitionPoint {before after : List α} {x : α}
    (hl : (before ++ x :: after).Pairwise fun a b => p b = true → p a = true)
    (hbefore : ∀ a ∈ before, p a = true) (hx : p x = false) :
    (before ++ x :: after)[partitionPoint p (before ++ x :: after)]? = some x := by
  have hdrop := drop_partitionPoint hl
  have hfilter : before.filter (fun a => !p a) = [] :=
    List.filter_eq_nil_iff.mpr fun a ha => by rw [hbefore a ha]; decide
  rw [List.filter_append, hfilter, List.nil_append, List.filter_cons_of_pos (by rw [hx]; rfl)] at hdrop
  rw [← List.head?_drop, hdrop, List.head?_cons]

/-- A search in the rest of a list. -/
theorem partitionBetween_drop (p : α → Bool) (l : List α) (n lo hi : ℕ) :
    partitionBetween p l (n + lo) (n + hi) = n + partitionBetween p (l.drop n) lo hi := by
  induction lo, hi using partitionBetween.induct p (l.drop n) with
  | case1 lo hi hlt mid hp ih =>
    have hmid : n + lo + (n + hi - (n + lo)) / 2 = n + mid := by omega
    rw [partitionBetween, if_pos (by omega), partitionBetween, if_pos hlt]
    simp only [hmid]
    rw [List.getElem?_drop] at hp
    rw [if_pos hp, List.getElem?_drop, if_pos hp, ← ih, Nat.add_assoc]
  | case2 lo hi hlt mid hp ih =>
    have hmid : n + lo + (n + hi - (n + lo)) / 2 = n + mid := by omega
    rw [partitionBetween, if_pos (by omega), partitionBetween, if_pos hlt]
    simp only [hmid]
    rw [List.getElem?_drop] at hp
    rw [if_neg hp, List.getElem?_drop, if_neg hp, ← ih]
  | case3 lo hi hge =>
    rw [partitionBetween, if_neg (by omega), partitionBetween, if_neg hge]

/-- The partition point between two bounds stays between them. -/
theorem partitionBetween_mem (p : α → Bool) (l : List α) {lo hi : ℕ} (h : lo ≤ hi) :
    lo ≤ partitionBetween p l lo hi ∧ partitionBetween p l lo hi ≤ hi := by
  induction lo, hi using partitionBetween.induct p l with
  | case1 lo hi hlt mid hp ih =>
    rw [partitionBetween, if_pos hlt]
    simp only [mid] at hp ih
    rw [if_pos hp]
    have := ih (by omega)
    omega
  | case2 lo hi hlt mid hp ih =>
    rw [partitionBetween, if_pos hlt]
    simp only [mid] at hp ih
    rw [if_neg hp]
    have := ih (by omega)
    omega
  | case3 lo hi hge =>
    rw [partitionBetween, if_neg hge]
    omega

/-- Where `p` is true of all, the search ends at its upper bound. -/
theorem partitionBetween_of_forall (h : ∀ a ∈ l, p a = true) {lo hi : ℕ} (hle : lo ≤ hi)
    (hhi : hi ≤ l.length) : partitionBetween p l lo hi = hi := by
  induction lo, hi using partitionBetween.induct p l with
  | case1 lo hi hlt mid hp ih =>
    rw [partitionBetween, if_pos hlt]
    simp only [mid] at hp ih
    rw [if_pos hp]
    exact ih (by omega) hhi
  | case2 lo hi hlt mid hp ih =>
    refine absurd ?_ hp
    have hmid : mid < l.length := by omega
    rw [List.getElem?_eq_getElem hmid, Option.any_some]
    exact h _ (List.getElem_mem hmid)
  | case3 lo hi hge =>
    rw [partitionBetween, if_neg hge]
    omega

/-- A list is divided at one point only. -/
theorem PartitionedAt.eq {i j : ℕ} (hi : PartitionedAt p l i i) (hj : PartitionedAt p l j j)
    (hlt : i < l.length) : i = j := by
  rcases Nat.lt_trichotomy i j with h | h | h
  · have ha := List.getElem?_eq_getElem hlt
    exact absurd ((hi.after i _ ha (Nat.le_refl _)).symm.trans (hj.before i _ ha h)) (by decide)
  · exact h
  · have ha := List.getElem?_eq_getElem (Nat.lt_trans h hlt)
    exact absurd ((hj.after j _ ha (Nat.le_refl _)).symm.trans (hi.before j _ ha h)) (by decide)

/-- **A search that leaves out the last element** gives the partition point, or the last index where
`p` is true of all. -/
theorem partitionBetween_pred (hl : l.Pairwise fun a b => p b = true → p a = true) :
    partitionBetween p l 0 (l.length - 1) = min (partitionPoint p l) (l.length - 1) := by
  by_cases hall : ∀ a ∈ l, p a = true
  · rw [partitionPoint, partitionBetween_of_forall hall (Nat.zero_le _) (Nat.le_refl _),
      partitionBetween_of_forall hall (Nat.zero_le _) (Nat.sub_le _ _)]
    omega
  · obtain ⟨a, ha, hpa⟩ : ∃ a ∈ l, ¬p a = true := by simpa using hall
    have hlen : 0 < l.length := List.length_pos_of_mem ha
    -- `p` is false of the last element, or it would be true of all before it
    have hlast (c : α) (hc : l[l.length - 1]? = some c) : p c = false := by
      by_contra hpc
      obtain ⟨i, hi, rfl⟩ := List.getElem_of_mem ha
      obtain ⟨hj, rfl⟩ := List.getElem?_eq_some_iff.mp hc
      rcases Nat.lt_or_eq_of_le (Nat.le_sub_one_of_lt hi) with hlt | heq
      · exact hpa (List.pairwise_iff_getElem.mp hl i _ hi hj hlt (by simpa using hpc))
      · exact hpa (by simpa [heq] using hpc)
    have hspec := partitionBetween_spec hl (Nat.zero_le (l.length - 1)) (Nat.sub_le _ _)
      ⟨fun i c _ hi => absurd hi (Nat.not_lt_zero i), fun i c hc hi => by
        obtain ⟨hi', -⟩ := List.getElem?_eq_some_iff.mp hc
        obtain rfl : i = l.length - 1 := by omega
        exact hlast c hc⟩
    have hle := (partitionBetween_mem p l (Nat.zero_le (l.length - 1))).2
    rw [← hspec.eq (partitionPoint_spec hl) (by omega)]
    omega

end List
