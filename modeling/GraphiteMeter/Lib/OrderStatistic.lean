import Mathlib.Data.List.Count
import Mathlib.Data.List.Sort
import Mathlib.Order.MinMax
import Mathlib.Order.WithBot

/-!
# Order statistics of a list

The element at a rank is that of the sorted list. Two ways to find it without sorting: a split of the
list around an element with the lesser before it and the greater after it, and the running totals of how
often each of the ascending distinct elements stands in the list.
-/

namespace OrderStatistic

variable {α : Type*}

section Sorted

variable [LinearOrder α]

/-- The same elements in ascending order. -/
abbrev sorted (l : List α) : List α := l.insertionSort (· ≤ ·)

/-- Ascending elements are the sorted list of every list of the same elements. -/
theorem sorted_eq {l s : List α} (hs : s.Pairwise (· ≤ ·)) (h : s.Perm l) : sorted l = s :=
  ((List.perm_insertionSort _ l).trans h.symm).eq_of_pairwise' (List.pairwise_insertionSort _ l) hs

/-- Sorting forgets the order. -/
theorem sorted_perm {l l' : List α} (h : l.Perm l') : sorted l = sorted l' :=
  sorted_eq (List.pairwise_insertionSort _ l') ((List.perm_insertionSort _ l').trans h.symm)

/-- Sorting keeps the members. -/
theorem mem_sorted {l : List α} {a : α} : a ∈ sorted l ↔ a ∈ l :=
  (List.perm_insertionSort _ l).mem_iff

/-! ## A split around an element -/

variable {before after : List α} {x : α}

/-- Around a middle value each side is sorted by itself. -/
theorem sorted_append (hbefore : ∀ a ∈ before, a ≤ x) (hafter : ∀ a ∈ after, x ≤ a) :
    sorted (before ++ x :: after) = sorted before ++ x :: sorted after := by
  refine sorted_eq (List.pairwise_append.mpr ⟨List.pairwise_insertionSort _ _, ?_, ?_⟩) ?_
  · refine List.pairwise_cons.mpr ⟨fun a ha => ?_, List.pairwise_insertionSort _ _⟩
    exact hafter a (mem_sorted.mp ha)
  · intro a ha b hb
    have hax := hbefore a (mem_sorted.mp ha)
    rcases List.mem_cons.mp hb with rfl | hb
    · exact hax
    · exact hax.trans (hafter b (mem_sorted.mp hb))
  · exact (List.perm_insertionSort _ _).append ((List.perm_insertionSort _ _).cons x)

/-- The element that a list is split around has as its rank how many stand before it. -/
theorem getElem?_sorted_append (hbefore : ∀ a ∈ before, a ≤ x) (hafter : ∀ a ∈ after, x ≤ a) :
    (sorted (before ++ x :: after))[before.length]? = some x := by
  rw [sorted_append hbefore hafter, ← List.length_insertionSort (· ≤ ·) before,
    List.getElem?_append_right (Nat.le_refl _), Nat.sub_self, List.getElem?_cons_zero]

/-- The greatest of a list, found by one walk. -/
theorem foldl_max (l : List α) (m : WithBot α) :
    (∀ a ∈ l, ↑a ≤ l.foldl (fun m a => max m ↑a) m) ∧ m ≤ l.foldl (fun m a => max m ↑a) m ∧
      (l.foldl (fun m a => max m ↑a) m = m ∨ ∃ a ∈ l, l.foldl (fun m a => max m ↑a) m = ↑a) := by
  induction l generalizing m with
  | nil => exact ⟨fun _ h => absurd h List.not_mem_nil, le_rfl, .inl rfl⟩
  | cons b l ih =>
    obtain ⟨hall, hle, hfrom⟩ := ih (max m ↑b)
    rw [List.foldl_cons]
    refine ⟨fun a ha => ?_, (le_max_left _ _).trans hle, ?_⟩
    · rcases List.mem_cons.mp ha with rfl | ha
      · exact (le_max_right _ _).trans hle
      · exact hall a ha
    · rcases hfrom with heq | ⟨a, ha, heq⟩
      · rcases max_choice m (b : WithBot α) with hmax | hmax
        · exact .inl (heq.trans hmax)
        · exact .inr ⟨b, List.mem_cons_self, heq.trans hmax⟩
      · exact .inr ⟨a, List.mem_cons_of_mem b ha, heq⟩

/-- **The rank below the split** holds the greatest of what stands before it. -/
theorem getElem?_sorted_pred (hbefore : ∀ a ∈ before, a ≤ x) (hafter : ∀ a ∈ after, x ≤ a)
    (hne : before ≠ []) : ∃ a, (sorted (before ++ x :: after))[before.length - 1]? = some a ∧
      before.foldl (fun m a => max m ↑a) (⊥ : WithBot α) = ↑a := by
  obtain ⟨hall, -, hfrom⟩ := foldl_max before ⊥
  obtain ⟨a, ha, heq⟩ : ∃ a ∈ before, before.foldl (fun m a => max m ↑a) (⊥ : WithBot α) = ↑a := by
    rcases hfrom with hbot | hfrom
    · obtain ⟨b, hb⟩ := List.exists_mem_of_ne_nil before hne
      have hle := hall b hb
      rw [hbot, le_bot_iff] at hle
      exact absurd hle (WithBot.coe_ne_bot)
    · exact hfrom
  -- the greatest is moved to the end of what stands before
  obtain ⟨l, r, hsplit⟩ := List.append_of_mem ha
  have hperm : before.Perm (l ++ r ++ [a]) := by
    rw [hsplit]
    exact List.perm_middle.trans (List.perm_append_singleton a (l ++ r)).symm
  have hle : ∀ b ∈ l ++ r, b ≤ a := by
    intro b hb
    have hmem : b ∈ before := hperm.mem_iff.mpr (List.mem_append_left _ hb)
    have hmax := hall b hmem
    rwa [heq, WithBot.coe_le_coe] at hmax
  refine ⟨a, ?_, heq⟩
  have hwhole : sorted (before ++ x :: after) = sorted (l ++ r ++ a :: x :: after) := by
    apply sorted_perm
    rw [List.append_cons (l ++ r)]
    exact hperm.append_right _
  have hlength : before.length = (l ++ r).length + 1 := hperm.length_eq.trans List.length_append
  rw [hwhole, hlength, Nat.add_sub_cancel]
  refine getElem?_sorted_append hle fun b hb => ?_
  have hax : a ≤ x := hbefore a ha
  rcases List.mem_cons.mp hb with rfl | hb
  · exact hax
  · exact hax.trans (hafter b hb)

end Sorted

/-! ## Running totals -/

/-- Each key as often as it is counted. -/
def expand (count : α → ℕ) (keys : List α) : List α :=
  keys.flatMap fun key => List.replicate (count key) key

/-- How many are counted up to each key. -/
def totals (count : α → ℕ) : ℕ → List α → List ℕ
  | _, [] => []
  | total, key :: keys => (total + count key) :: totals count (total + count key) keys

variable (count : α → ℕ)

@[simp] theorem expand_cons (key : α) (keys : List α) :
    expand count (key :: keys) = List.replicate (count key) key ++ expand count keys := rfl

@[simp] theorem length_totals (total : ℕ) (keys : List α) :
    (totals count total keys).length = keys.length := by
  induction keys generalizing total with
  | nil => rfl
  | cons key keys ih => rw [totals, List.length_cons, ih, List.length_cons]

/-- The totals ascend. -/
theorem le_of_mem_totals {total : ℕ} {keys : List α} {c : ℕ} (h : c ∈ totals count total keys) :
    total ≤ c := by
  induction keys generalizing total with
  | nil => exact absurd h List.not_mem_nil
  | cons key keys ih =>
    rcases List.mem_cons.mp h with rfl | h
    · exact Nat.le_add_right _ _
    · exact (Nat.le_add_right _ _).trans (ih h)

/-- The running totals ascend. -/
theorem pairwise_totals (total : ℕ) (keys : List α) :
    (totals count total keys).Pairwise (· ≤ ·) := by
  induction keys generalizing total with
  | nil => exact List.Pairwise.nil
  | cons key keys ih => exact List.pairwise_cons.mpr ⟨fun _ => le_of_mem_totals count, ih _⟩

/-- The last total counts all. -/
theorem getElem?_totals_last (total : ℕ) {keys : List α} (hne : keys ≠ []) :
    (totals count total keys)[keys.length - 1]? = some (total + (expand count keys).length) := by
  induction keys generalizing total with
  | nil => exact absurd rfl hne
  | cons key keys ih =>
    rw [totals, expand_cons, List.length_append, List.length_replicate, List.length_cons,
      Nat.add_sub_cancel]
    by_cases hnil : keys = []
    · subst hnil
      rfl
    · have hpos := List.length_pos_iff.mpr hnil
      rw [← Nat.add_assoc, ← ih (total + count key) hnil,
        show keys.length = keys.length - 1 + 1 by omega, List.getElem?_cons_succ,
        Nat.add_sub_cancel]

/-- **The first key whose total passes a rank** is the element at that rank. -/
theorem getElem?_expand {total rank i c : ℕ} {keys : List α} (hrank : total ≤ rank)
    (hi : (totals count total keys)[i]? = some c) (hc : rank < c)
    (hbefore : ∀ j c', (totals count total keys)[j]? = some c' → j < i → c' ≤ rank) :
    (expand count keys)[rank - total]? = keys[i]? := by
  induction keys generalizing total i with
  | nil => cases hi
  | cons key keys ih =>
    rw [totals] at hi hbefore
    rw [expand_cons]
    cases i with
    | zero =>
      cases hi
      rw [List.getElem?_append_left (by rw [List.length_replicate]; omega), List.getElem?_replicate,
        if_pos (by omega), List.getElem?_cons_zero]
    | succ i =>
      have hfirst : total + count key ≤ rank :=
        hbefore 0 _ List.getElem?_cons_zero (Nat.succ_pos i)
      rw [List.getElem?_append_right (by rw [List.length_replicate]; omega), List.length_replicate,
        Nat.sub_sub, List.getElem?_cons_succ]
      refine ih hfirst hi fun j c' hj hlt => ?_
      exact hbefore (j + 1) c' hj (Nat.succ_lt_succ hlt)

/-! ## Sorting by counts -/

variable [LinearOrder α]

/-- Sorted keys expand to a sorted list. -/
theorem pairwise_expand {keys : List α} (h : keys.Pairwise (· < ·)) :
    (expand count keys).Pairwise (· ≤ ·) := by
  refine List.pairwise_flatMap.mpr ⟨fun key _ => ?_, h.imp fun {a b} hab x hx y hy => ?_⟩
  · exact List.pairwise_replicate.mpr (.inr le_rfl)
  · rw [(List.mem_replicate.mp hx).2, (List.mem_replicate.mp hy).2]
    exact hab.le

/-- A key is in the expansion as often as it counts. -/
theorem count_expand {keys : List α} (h : keys.Nodup) (a : α) :
    (expand count keys).count a = if a ∈ keys then count a else 0 := by
  induction keys with
  | nil => rfl
  | cons key keys ih =>
    obtain ⟨hkey, htail⟩ := List.nodup_cons.mp h
    rw [expand_cons, List.count_append, List.count_replicate, ih htail]
    by_cases heq : key = a
    · subst heq
      rw [if_pos (beq_self_eq_true key), if_neg hkey, if_pos List.mem_cons_self, Nat.add_zero]
    · rw [if_neg (by simpa using heq), Nat.zero_add]
      simp only [List.mem_cons, Ne.symm heq, false_or]

/-- **A list sorted by its counts**: its distinct elements in ascending order, each as often as it
stands in the list. -/
theorem sorted_eq_expand {l keys : List α} (hkeys : keys.Pairwise (· < ·))
    (hmem : ∀ a, a ∈ keys ↔ a ∈ l) : sorted l = expand (fun a => l.count a) keys := by
  refine sorted_eq (pairwise_expand _ hkeys) (List.perm_iff_count.mpr fun a => ?_)
  rw [count_expand _ (hkeys.imp ne_of_lt)]
  split_ifs with ha
  · rfl
  · exact (List.count_eq_zero.mpr fun h => ha ((hmem a).mpr h)).symm

end OrderStatistic
