import Mathlib.Data.List.Sort

/-!
# Keeping the first of what is ranked

A store that ranks what it is given and keeps the first `n` loses nothing of the first `n`: inserting
into what was kept and into all there ever was gives the same first `n` (`take_orderedInsert_take`).
What is left out of a ranked list leaves the rest ranked (`filter_insertionSort`).
-/

namespace FirstRanked

variable {α : Type*} {r : α → α → Prop} [DecidableRel r]

/-- Whatever stands past the first `n` does not matter to the first `n` of an insertion. -/
theorem take_orderedInsert_take (a : α) (l : List α) (n : ℕ) :
    ((l.take n).orderedInsert r a).take n = (l.orderedInsert r a).take n := by
  induction l generalizing n with
  | nil => rw [List.take_nil]
  | cons b l ih =>
    cases n with
    | zero => rfl
    | succ n =>
      rw [List.take_succ_cons, List.orderedInsert_cons, List.orderedInsert_cons]
      by_cases hab : r a b
      · rw [if_pos hab, if_pos hab, List.take_succ_cons, List.take_succ_cons]
        cases n with
        | zero => rfl
        | succ n => rw [List.take_succ_cons, List.take_succ_cons, List.take_take, min_eq_left n.le_succ]
      · rw [if_neg hab, if_neg hab, List.take_succ_cons, List.take_succ_cons, ih]

section Filter

variable [IsTrans α r]

/-- Leaving out what `p` refuses, before or after the insertion of what it takes. -/
theorem filter_orderedInsert_pos {p : α → Bool} {a : α} {l : List α} (hl : l.Pairwise r)
    (ha : p a = true) : (l.orderedInsert r a).filter p = (l.filter p).orderedInsert r a := by
  induction l with
  | nil => simp [ha]
  | cons b l ih =>
    obtain ⟨hb, hl⟩ := List.pairwise_cons.mp hl
    rw [List.orderedInsert_cons]
    by_cases hab : r a b
    · rw [if_pos hab, List.filter_cons_of_pos ha]
      -- What is left of the list stands behind `a` as the whole did.
      cases hrest : (b :: l).filter p with
      | nil => rfl
      | cons c rest =>
        have hc : c ∈ b :: l := List.mem_of_mem_filter (hrest ▸ List.mem_cons_self)
        have hac : r a c := by
          rcases List.mem_cons.mp hc with rfl | hc
          · exact hab
          · exact trans_of r hab (hb c hc)
        rw [List.orderedInsert_cons, if_pos hac]
    · rw [if_neg hab]
      cases hpb : p b with
      | true =>
        rw [List.filter_cons_of_pos hpb, List.filter_cons_of_pos hpb, List.orderedInsert_cons,
          if_neg hab, ih hl]
      | false =>
        rw [List.filter_cons_of_neg (by simp [hpb]), List.filter_cons_of_neg (by simp [hpb]), ih hl]

omit [IsTrans α r] in
/-- An insertion that does not pass is not seen by the filter. -/
theorem filter_orderedInsert_neg {p : α → Bool} {a : α} (l : List α) (ha : p a = false) :
    (l.orderedInsert r a).filter p = l.filter p := by
  induction l with
  | nil => simp [ha]
  | cons b l ih =>
    rw [List.orderedInsert_cons]
    split
    · rw [List.filter_cons_of_neg (by simp [ha])]
    · cases hpb : p b with
      | true => rw [List.filter_cons_of_pos hpb, List.filter_cons_of_pos hpb, ih]
      | false =>
        rw [List.filter_cons_of_neg (by simp [hpb]), List.filter_cons_of_neg (by simp [hpb]), ih]

variable [Std.Total r]

/-- Sorting and filtering commute. -/
theorem filter_insertionSort (p : α → Bool) (l : List α) :
    (l.insertionSort r).filter p = (l.filter p).insertionSort r := by
  induction l with
  | nil => rfl
  | cons a l ih =>
    rw [List.insertionSort_cons]
    cases ha : p a with
    | true =>
      rw [filter_orderedInsert_pos (List.pairwise_insertionSort r l) ha, ih,
        List.filter_cons_of_pos ha, List.insertionSort_cons]
    | false =>
      rw [filter_orderedInsert_neg _ ha, ih, List.filter_cons_of_neg (by simp [ha])]

end Filter

/-- Leaving out what stands past the first `n` by a key no two share. -/
theorem filter_not_mem_drop {β : Type*} [DecidableEq β] {key : α → β} (l : List α) (n : ℕ)
    (hnodup : (l.map key).Nodup) :
    l.filter (fun a => decide (key a ∉ (l.drop n).map key)) = l.take n := by
  conv_lhs => rw [← List.take_append_drop n l]
  rw [List.filter_append]
  have hsplit := hnodup
  rw [← List.take_append_drop n l, List.map_append, List.nodup_append] at hsplit
  have hkept : ∀ a ∈ l.take n, key a ∉ (l.drop n).map key := fun a ha hmem =>
    hsplit.2.2 _ (List.mem_map_of_mem ha) _ hmem rfl
  have htake : (l.take n).filter (fun a => decide (key a ∉ (l.drop n).map key)) = l.take n :=
    List.filter_eq_self.mpr fun a ha => decide_eq_true (hkept a ha)
  have hdrop : (l.drop n).filter (fun a => decide (key a ∉ (l.drop n).map key)) = [] :=
    List.filter_eq_nil_iff.mpr fun a ha => by
      have hmem : key a ∈ (l.drop n).map key := List.mem_map_of_mem ha
      simp only [decide_eq_true_eq]
      exact fun hnot => hnot hmem
  rw [List.take_append_drop, htake, hdrop, List.append_nil]

end FirstRanked
