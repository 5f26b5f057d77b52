import Mathlib.Data.List.Dedup
import Mathlib.Data.List.GetD
import GraphiteMeter.Measure.Browser.Population
import GraphiteMeter.Measure.Browser.Selection

/-!
# The ranks of a stage's outcomes in the browser

Reference: `client/src/engine/measure/latency.ts` (`Population`, `select`, `selectMedian`).

`Op.stored` says which values a run counts, without the map, the buffer or the merge. `Holds` ties the
population to them: the map counts each, the sorted part and the fresh values are the distinct ones.
-/

namespace GraphiteMeter.Measure.Browser

namespace Population

open Buckets (midpointMedian nearestRank)
open OrderStatistic

/-! ## The merge -/

/-- A slot written just before a run makes the run start there. -/
theorem drop_take_set (buffer : List ℕ) {w n : ℕ} (hw : w < n) (hn : n ≤ buffer.length) (v : ℕ) :
    ((buffer.set w v).take n).drop w = v :: (buffer.take n).drop (w + 1) := by
  have hlt : w < (buffer.take n).length := by
    rw [List.length_take]
    omega
  rw [List.take_set, List.drop_set, if_neg (Nat.lt_irrefl w), Nat.sub_self,
    List.drop_eq_getElem_cons hlt, List.set_cons_zero]

/-- One more value of a list joins the earlier ones. -/
theorem take_succ_perm {l : List ℕ} {i : ℕ} (hi : i < l.length) :
    (l.take (i + 1)).Perm (l.getD i 0 :: l.take i) := by
  rw [List.take_add_one, List.getElem?_eq_getElem hi, List.getD_eq_getElem l 0 hi]
  exact List.perm_append_singleton _ _

/-- The merge's loop: `i` sorted values still in place and `j` fresh ones are to be written, and
from `w` on stands the greater part of both, in order. -/
structure Merging (old fresh : List ℕ) (n i j w : ℕ) (buffer : List ℕ) : Prop where
  old_sorted : old.Pairwise (· ≤ ·)
  fresh_sorted : fresh.Pairwise (· ≤ ·)
  i_le : i ≤ old.length
  j_le : j ≤ fresh.length
  w_eq : w = i + j
  w_le : w ≤ n
  n_le : n ≤ buffer.length
  kept : buffer.take i = old.take i
  done : ((buffer.take n).drop w).Pairwise (· ≤ ·)
  below : ∀ a ∈ old.take i ++ fresh.take j, ∀ b ∈ (buffer.take n).drop w, a ≤ b
  perm : (old.take i ++ fresh.take j ++ (buffer.take n).drop w).Perm (old ++ fresh)

/-- An ascending list's element bounds what stands before it. -/
theorem le_getD {l : List ℕ} (h : l.Pairwise (· ≤ ·)) {i : ℕ} (hi : i < l.length) {a : ℕ}
    (ha : a ∈ l.take (i + 1)) : a ≤ l.getD i 0 := by
  obtain ⟨p, hp, rfl⟩ := List.mem_iff_getElem.mp ha
  rw [List.length_take] at hp
  rw [List.getElem_take, List.getD_eq_getElem l 0 hi]
  rcases Nat.lt_or_ge p i with hlt | hge
  · exact List.pairwise_iff_getElem.mp h p i (by omega) hi hlt
  · have : p = i := by omega
    subst this
    exact le_rfl

namespace Merging

variable {old fresh buffer : List ℕ} {n i j w : ℕ}

/-- A sorted value moves to the end of what is left. -/
theorem take_old (h : Merging old fresh n (i + 1) (j + 1) (w + 1) buffer)
    (hlt : fresh.getD j 0 < buffer.getD i 0) :
    Merging old fresh n i (j + 1) w (buffer.set w (buffer.getD i 0)) := by
  have hw := h.w_eq
  have hwn := h.w_le
  have hn := h.n_le
  have hold : i < old.length := h.i_le
  have hfresh : j < fresh.length := h.j_le
  have hvalue : buffer.getD i 0 = old.getD i 0 := by
    have hget := congrArg (·.getD i 0) h.kept
    simpa [List.getD_eq_getElem?_getD, List.getElem?_take_of_lt (Nat.lt_succ_self i)] using hget
  have hrest := drop_take_set buffer (w := w) (by omega) hn (buffer.getD i 0)
  refine ⟨h.old_sorted, h.fresh_sorted, by omega, h.j_le, by omega, by omega, ?_, ?_, ?_, ?_, ?_⟩
  · rw [List.length_set]
    exact hn
  · rw [List.take_set_of_le (by omega)]
    have hkept := congrArg (List.take i) h.kept
    rwa [List.take_take, List.take_take, min_eq_left (Nat.le_succ i)] at hkept
  · rw [hrest]
    refine List.pairwise_cons.mpr ⟨fun b hb => h.below _ ?_ b hb, h.done⟩
    rw [hvalue]
    exact List.mem_append_left _ ((take_succ_perm hold).mem_iff.mpr List.mem_cons_self)
  · intro a ha b hb
    rw [hrest] at hb
    have hle : a ≤ buffer.getD i 0 := by
      rcases List.mem_append.mp ha with ha | ha
      · rw [hvalue]
        exact le_getD h.old_sorted hold (List.take_subset_take_left old (Nat.le_succ i) ha)
      · exact (le_getD h.fresh_sorted hfresh ha).trans hlt.le
    rcases List.mem_cons.mp hb with rfl | hb
    · exact hle
    · refine h.below a ?_ b hb
      rcases List.mem_append.mp ha with ha | ha
      · exact List.mem_append_left _ (List.take_subset_take_left old (Nat.le_succ i) ha)
      · exact List.mem_append_right _ ha
  · rw [hrest, hvalue]
    refine .trans ?_ h.perm
    refine List.perm_middle.trans ?_
    rw [← List.cons_append, ← List.cons_append]
    exact ((take_succ_perm hold).symm.append_right _).append_right _

/-- A fresh value moves there. -/
theorem take_fresh (h : Merging old fresh n i (j + 1) (w + 1) buffer)
    (hge : 0 < i → buffer.getD (i - 1) 0 ≤ fresh.getD j 0) :
    Merging old fresh n i j w (buffer.set w (fresh.getD j 0)) := by
  have hw := h.w_eq
  have hwn := h.w_le
  have hn := h.n_le
  have hfresh : j < fresh.length := h.j_le
  have hrest := drop_take_set buffer (w := w) (by omega) hn (fresh.getD j 0)
  refine ⟨h.old_sorted, h.fresh_sorted, h.i_le, by omega, by omega, by omega, ?_, ?_, ?_, ?_, ?_⟩
  · rw [List.length_set]
    exact hn
  · rw [List.take_set_of_le (by omega)]
    exact h.kept
  · rw [hrest]
    refine List.pairwise_cons.mpr ⟨fun b hb => h.below _ ?_ b hb, h.done⟩
    exact List.mem_append_right _ ((take_succ_perm hfresh).mem_iff.mpr List.mem_cons_self)
  · intro a ha b hb
    rw [hrest] at hb
    have hle : a ≤ fresh.getD j 0 := by
      rcases List.mem_append.mp ha with ha | ha
      · -- what is left of the sorted values ends with the one compared
        cases i with
        | zero => exact absurd ha List.not_mem_nil
        | succ i =>
          have hvalue : buffer.getD i 0 = old.getD i 0 := by
            have hget := congrArg (·.getD i 0) h.kept
            simpa [List.getD_eq_getElem?_getD, List.getElem?_take_of_lt (Nat.lt_succ_self i)]
              using hget
          exact (le_getD h.old_sorted h.i_le ha).trans (hvalue ▸ hge (Nat.succ_pos i))
      · exact le_getD h.fresh_sorted hfresh (List.take_subset_take_left fresh (Nat.le_succ j) ha)
    rcases List.mem_cons.mp hb with rfl | hb
    · exact hle
    · refine h.below a ?_ b hb
      rcases List.mem_append.mp ha with ha | ha
      · exact List.mem_append_left _ ha
      · exact List.mem_append_right _ (List.take_subset_take_left fresh (Nat.le_succ j) ha)
  · rw [hrest]
    refine .trans ?_ h.perm
    refine List.perm_middle.trans ?_
    rw [← List.cons_append]
    refine .append_right _ (List.perm_middle.symm.trans ?_)
    exact (take_succ_perm hfresh).symm.append_left _

/-- With no fresh value left, the merge is done. -/
theorem finish (h : Merging old fresh n i 0 w buffer) :
    (buffer.take n).Pairwise (· ≤ ·) ∧ (buffer.take n).Perm (old ++ fresh) := by
  have hw : w = i := h.w_eq
  subst hw
  have hsplit : buffer.take n = old.take w ++ (buffer.take n).drop w := by
    have hkept := h.kept
    conv_lhs => rw [← List.take_append_drop w (buffer.take n), List.take_take, min_eq_left h.w_le]
    rw [hkept]
  have hperm := h.perm
  have hbelow := h.below
  rw [List.take_zero, List.append_nil] at hperm hbelow
  rw [hsplit]
  refine ⟨List.pairwise_append.mpr ⟨?_, h.done, hbelow⟩, hperm⟩
  exact h.old_sorted.sublist (List.take_sublist _ _)

end Merging

/-- **The merge in place**: from the back it overwrites only what it has moved. -/
theorem mergeBack_spec {old fresh : List ℕ} {n : ℕ} (i j w : ℕ) (buffer : List ℕ)
    (h : Merging old fresh n i j w buffer) :
    ((mergeBack fresh i j w buffer).take n).Pairwise (· ≤ ·) ∧
      ((mergeBack fresh i j w buffer).take n).Perm (old ++ fresh) := by
  induction i, j, w, buffer using mergeBack.induct fresh with
  | case1 i j w buffer hj hlt ih =>
    rw [mergeBack, if_pos hj, if_pos hlt]
    obtain ⟨i, rfl⟩ : ∃ i', i = i' + 1 := ⟨i - 1, by omega⟩
    obtain ⟨j, rfl⟩ : ∃ j', j = j' + 1 := ⟨j - 1, by omega⟩
    obtain ⟨w, rfl⟩ : ∃ w', w = w' + 1 := ⟨w - 1, by have := h.w_eq; omega⟩
    exact ih (h.take_old hlt.2)
  | case2 i j w buffer hj hge ih =>
    rw [mergeBack, if_pos hj, if_neg hge]
    obtain ⟨j, rfl⟩ : ∃ j', j = j' + 1 := ⟨j - 1, by omega⟩
    obtain ⟨w, rfl⟩ : ∃ w', w = w' + 1 := ⟨w - 1, by have := h.w_eq; omega⟩
    exact ih (h.take_fresh fun hi => not_lt.mp fun hlt => hge ⟨hi, hlt⟩)
  | case3 i j w buffer hj =>
    rw [mergeBack, if_neg hj]
    obtain rfl : j = 0 := by omega
    exact h.finish

/-! ## What is counted -/

/-- The population counts the stored values: the map says how often each, and the sorted part and the
fresh values are the distinct ones. -/
structure Holds (p : Population) (stored : List ℕ) : Prop where
  counts : ∀ ns, (p.counts.lookup ns).getD 0 = stored.count ns
  seen : ∀ ns, p.counts.lookup ns = none ↔ ns ∉ stored
  held_le : p.held ≤ p.buffer.length
  ascending : p.keys.Pairwise (· < ·)
  nodup : p.fresh.Nodup
  disjoint : ∀ ns ∈ p.keys, ns ∉ p.fresh
  distinct : ∀ ns, ns ∈ stored ↔ ns ∈ p.keys ∨ ns ∈ p.fresh
  rtts : p.rtts = stored.length

/-- An empty merging holds nothing. -/
theorem holds_empty : empty.Holds [] where
  counts _ := rfl
  seen _ := iff_of_true rfl List.not_mem_nil
  held_le := Nat.le_refl 0
  ascending := List.Pairwise.nil
  nodup := List.nodup_nil
  disjoint _ h := absurd h List.not_mem_nil
  distinct _ := by simp [keys, empty]
  rtts := rfl

/-- The map's size is how many distinct values are stored. -/
theorem Holds.size {p : Population} {stored : List ℕ} (h : p.Holds stored) :
    p.counts.len = stored.dedup.length := by
  have hperm : p.counts.keys.Perm stored.dedup := by
    refine (List.perm_ext_iff_of_nodup p.counts.keys_nodup stored.nodup_dedup).mpr fun ns => ?_
    rw [← AList.mem_keys, List.mem_dedup, ← not_iff_not, ← h.seen, AList.lookup_eq_none]
  rw [AList.len, ← hperm.length_eq, AList.keys, List.keys, List.length_map]

/-- A value stored is counted once more, and is fresh if it was not seen. -/
theorem Holds.store {p : Population} {stored : List ℕ} (h : p.Holds stored) (ns : ℕ) :
    (p.store ns).Holds (stored ++ [ns]) := by
  have hseen := h.seen ns
  have hfresh : (p.store ns).fresh = if ns ∈ stored then p.fresh else p.fresh ++ [ns] := by
    rw [Population.store]
    split_ifs with hnone hmem hmem
    · exact absurd hmem (hseen.mp hnone)
    · rfl
    · rfl
    · exact absurd (hseen.mpr hmem) hnone
  have hmem : ∀ a, a ∈ stored ++ [ns] ↔ a ∈ stored ∨ a = ns := fun a => by
    rw [List.mem_append, List.mem_singleton]
  constructor
  case counts =>
    intro a
    show ((p.counts.insert ns _).lookup a).getD 0 = _
    rw [List.count_append, ← h.counts a, List.count_singleton]
    by_cases heq : a = ns
    · subst heq
      rw [AList.lookup_insert, Option.getD_some, if_pos (beq_self_eq_true a)]
    · rw [AList.lookup_insert_ne heq, if_neg (by simpa using Ne.symm heq), Nat.add_zero]
  case seen =>
    intro a
    show (p.counts.insert ns _).lookup a = none ↔ _
    rw [hmem]
    by_cases heq : a = ns
    · subst heq
      simp
    · rw [AList.lookup_insert_ne heq, h.seen, or_iff_left heq]
  case held_le => exact h.held_le
  case ascending => exact h.ascending
  case nodup =>
    rw [hfresh]
    split_ifs with hns
    · exact h.nodup
    · refine List.nodup_append.mpr ⟨h.nodup, List.nodup_singleton ns, fun a ha b hb => ?_⟩
      rintro rfl
      rw [List.mem_singleton] at hb
      subst hb
      exact hns ((h.distinct a).mpr (.inr ha))
  case disjoint =>
    intro a ha
    have hstored : a ∈ stored := (h.distinct a).mpr (.inl ha)
    rw [hfresh]
    split_ifs with hns
    · exact h.disjoint a ha
    · rw [List.mem_append, List.mem_singleton]
      rintro (hfresh | rfl)
      · exact h.disjoint a ha hfresh
      · exact hns hstored
  case distinct =>
    intro a
    show _ ↔ a ∈ p.keys ∨ a ∈ (p.store ns).fresh
    rw [hmem, hfresh]
    split_ifs with hns
    · rw [← h.distinct, or_iff_left_of_imp]
      rintro rfl
      exact hns
    · rw [List.mem_append, List.mem_singleton, ← or_assoc, ← h.distinct]
  case rtts =>
    rw [List.length_append, List.length_singleton, ← h.rtts]
    rfl

/-- What counting does not read of the population may change. -/
theorem Holds.congr {p q : Population} {stored : List ℕ} (h : p.Holds stored)
    (hcounts : q.counts = p.counts) (hbuffer : q.buffer = p.buffer) (hheld : q.held = p.held)
    (hfresh : q.fresh = p.fresh) (hrtts : q.rtts = p.rtts) : q.Holds stored := by
  have hkeys : q.keys = p.keys := by rw [keys, keys, hbuffer, hheld]
  constructor
  case counts => exact hcounts ▸ h.counts
  case seen => exact hcounts ▸ h.seen
  case held_le => exact hbuffer ▸ hheld ▸ h.held_le
  case ascending => exact hkeys ▸ h.ascending
  case nodup => exact hfresh ▸ h.nodup
  case disjoint => exact hkeys ▸ hfresh ▸ h.disjoint
  case distinct => exact hkeys ▸ hfresh ▸ h.distinct
  case rtts => exact hrtts ▸ h.rtts

/-- The loop's start: nothing is moved yet. -/
theorem merging_start {old fresh buffer : List ℕ} (hold : old.Pairwise (· ≤ ·))
    (hfresh : fresh.Pairwise (· ≤ ·)) (hkept : buffer.take old.length = old)
    (hroom : old.length + fresh.length ≤ buffer.length) :
    Merging old fresh (old.length + fresh.length) old.length fresh.length
      (old.length + fresh.length) buffer := by
  have hdone : (buffer.take (old.length + fresh.length)).drop (old.length + fresh.length) = [] :=
    List.drop_eq_nil_of_le (List.length_take_le _ _)
  refine ⟨hold, hfresh, le_rfl, le_rfl, rfl, le_rfl, hroom, ?_, ?_, ?_, ?_⟩
  · rw [hkept, List.take_length]
  · rw [hdone]
    exact List.Pairwise.nil
  · intro a _ b hb
    rw [hdone] at hb
    exact absurd hb List.not_mem_nil
  · rw [hdone, List.append_nil, List.take_length, List.take_length]

/-- Merging in place keeps the buffer's length. -/
theorem length_mergeBack (fresh : List ℕ) (i j w : ℕ) (buffer : List ℕ) :
    (mergeBack fresh i j w buffer).length = buffer.length := by
  induction i, j, w, buffer using mergeBack.induct fresh with
  | case1 i j w buffer hj hlt ih =>
    rw [mergeBack, if_pos hj, if_pos hlt, ih, List.length_set]
  | case2 i j w buffer hj hge ih =>
    rw [mergeBack, if_pos hj, if_neg hge, ih, List.length_set]
  | case3 i j w buffer hj => rw [mergeBack, if_neg hj]

/-- **The merge keeps what is counted**, and leaves no fresh value. -/
theorem Holds.merge {p : Population} {stored : List ℕ} (h : p.Holds stored) :
    p.merge.Holds stored ∧ p.merge.fresh = [] := by
  by_cases hnone : p.fresh.length = 0
  · rw [Population.merge, if_pos hnone]
    exact ⟨h, List.eq_nil_of_length_eq_zero hnone⟩
  have hlen : p.keys.length = p.held := by
    rw [keys, List.length_take, min_eq_left h.held_le]
  have hfresh : (sorted p.fresh).length = p.fresh.length := List.length_insertionSort _ _
  -- the buffer merged into holds the sorted values and has room for the fresh ones
  obtain ⟨buffer, hmerge, hkept, hroom⟩ : ∃ buffer, p.merge = { p with
        buffer := mergeBack (sorted p.fresh) p.held p.fresh.length (p.held + p.fresh.length) buffer
        fresh := [], held := p.held + p.fresh.length } ∧
      buffer.take p.held = p.keys ∧ p.held + p.fresh.length ≤ buffer.length := by
    rw [Population.merge]
    dsimp only
    rw [if_neg hnone]
    refine ⟨_, rfl, ?_, ?_⟩
    · split_ifs with hroom
      · rw [← hlen, List.take_left]
      · rfl
    · split_ifs with hroom
      · rw [List.length_append, List.length_replicate, hlen]
        omega
      · exact not_lt.mp hroom
  rw [← hlen, ← hfresh] at hmerge hroom
  rw [← hlen] at hkept
  have hstart := merging_start (h.ascending.imp le_of_lt) (List.pairwise_insertionSort _ p.fresh)
    hkept hroom
  obtain ⟨hordered, hperm⟩ := mergeBack_spec _ _ _ _ hstart
  rw [hmerge]
  generalize hwritten : mergeBack (sorted p.fresh) _ _ _ buffer = written at hordered hperm
  have hmem : ∀ a, a ∈ written.take (p.keys.length + (sorted p.fresh).length) ↔
      a ∈ p.keys ∨ a ∈ p.fresh := fun a => by
    rw [hperm.mem_iff, List.mem_append, mem_sorted]
  refine ⟨?_, rfl⟩
  constructor
  case counts => exact h.counts
  case seen => exact h.seen
  case held_le =>
    show _ ≤ written.length
    rw [← hwritten, length_mergeBack]
    exact hroom
  case ascending =>
    -- the merged values are distinct, as those merged are
    have hnodup : (p.keys ++ sorted p.fresh).Nodup := by
      refine List.nodup_append.mpr ⟨h.ascending.imp ne_of_lt, ?_, fun a ha b hb hab => ?_⟩
      · exact (List.perm_insertionSort _ p.fresh).nodup_iff.mpr h.nodup
      · exact h.disjoint a ha (mem_sorted.mp (hab ▸ hb))
    exact (hordered.and (hperm.nodup_iff.mpr hnodup)).imp fun hab => lt_of_le_of_ne hab.1 hab.2
  case nodup => exact List.nodup_nil
  case disjoint => exact fun a _ => List.not_mem_nil
  case distinct =>
    intro a
    rw [h.distinct, ← hmem, or_iff_left List.not_mem_nil]
    rfl
  case rtts => exact h.rtts

/-! ## The ranks -/

/-- The value at a 0-based rank of the stored ones, in milliseconds. -/
def nth (stored : List ℕ) (rank : ℕ) : ℚ := (sorted stored).getD rank 0 / 10 ^ 6

/-- **A merged population's value at a rank** is the one at that rank of the sorted stored values. -/
theorem Holds.at_eq {p : Population} {stored : List ℕ} (h : p.Holds stored) (hfresh : p.fresh = [])
    {rank : ℕ} (hrank : rank < stored.length) : p.at_ rank = nth stored rank := by
  have hcounts : (fun key => (p.counts.lookup key).getD 0) = fun key => stored.count key :=
    funext h.counts
  have hexpand : sorted stored = expand (fun key => stored.count key) p.keys := by
    refine sorted_eq_expand h.ascending fun a => ?_
    rw [h.distinct, hfresh, or_iff_left List.not_mem_nil]
  have hlen : (expand (fun key => stored.count key) p.keys).length = stored.length := by
    rw [← hexpand, List.length_insertionSort]
  have hne : p.keys ≠ [] := by
    intro hnil
    rw [hnil, expand, List.flatMap_nil, List.length_nil] at hlen
    omega
  have hpos := List.length_pos_iff.mpr hne
  rw [at_, nth, hcounts, hexpand]
  generalize htotals : totals (fun key => stored.count key) 0 p.keys = cumulative
  have hlast : cumulative[p.keys.length - 1]? = some stored.length := by
    rw [← htotals, getElem?_totals_last _ 0 hne, hlen, Nat.zero_add]
  have hsize : cumulative.length = p.keys.length := by rw [← htotals, length_totals]
  -- the search starts with the last total past the rank
  have hspec := List.partitionBetween_spec (p := fun c => decide (c ≤ rank)) (l := cumulative)
    (by
      rw [← htotals]
      refine (pairwise_totals _ 0 p.keys).imp fun hab hb => ?_
      exact decide_eq_true (hab.trans (of_decide_eq_true hb)))
    (Nat.zero_le (p.keys.length - 1)) (by omega)
    ⟨fun i a _ hi => absurd hi (Nat.not_lt_zero i), fun i a hi hle => by
      have hlt := (List.getElem?_eq_some_iff.mp hi).1
      have heq : i = p.keys.length - 1 := by omega
      rw [heq, hlast] at hi
      cases hi
      exact decide_eq_false (not_le.mpr hrank)⟩
  generalize cumulative.partitionBetween (fun c => decide (c ≤ rank)) 0 (p.keys.length - 1) = lo
    at hspec ⊢
  have hlo : lo < cumulative.length := by
    by_contra hge
    have hle := hspec.before _ _ hlast (by omega)
    exact absurd (of_decide_eq_true hle) (not_le.mpr hrank)
  obtain ⟨c, hget⟩ : ∃ c, cumulative[lo]? = some c := ⟨_, List.getElem?_eq_getElem hlo⟩
  have hpast : rank < c := not_le.mp (of_decide_eq_false (hspec.after lo c hget le_rfl))
  rw [← htotals] at hget hspec
  have hrank' := getElem?_expand _ (Nat.zero_le rank) hget hpast fun j c hj hlt =>
    of_decide_eq_true (hspec.before j c hj hlt)
  rw [Nat.sub_zero] at hrank'
  rw [List.getD_eq_getElem?_getD, List.getD_eq_getElem?_getD, hrank']

/-- What a summary says of the stored values. -/
structure Ranks (s : LatencySummary) (stored : List ℕ) : Prop where
  none_of_nil : stored = [] → s.minMs = none ∧ s.maxMs = none ∧ s.p10Ms = none ∧ s.p50Ms = none ∧
    s.p90Ms = none ∧ s.p95Ms = none
  some_of_ne_nil : stored ≠ [] →
    s.minMs = some (nth stored 0) ∧ s.maxMs = some (nth stored (stored.length - 1)) ∧
    s.p10Ms = some (nth stored (nearestRank (1 / 10 : ℚ) stored.length)) ∧
    s.p50Ms = some (midpointMedian stored.length (nth stored)) ∧
    s.p90Ms = some (nth stored (nearestRank (9 / 10 : ℚ) stored.length)) ∧
    s.p95Ms = some (nth stored (nearestRank (19 / 20 : ℚ) stored.length))

/-- The nearest rank is one of the ranks. -/
theorem nearestRank_lt (p : ℚ) {n : ℕ} (h : 0 < n) : nearestRank p n < n := by
  rw [nearestRank]
  omega

/-- **A summary reads the ranks** of what is stored. -/
theorem Holds.summarize {p : Population} {stored : List ℕ} (h : p.Holds stored)
    (hfresh : p.fresh = []) : Ranks p.summarize stored := by
  constructor
  case none_of_nil =>
    rintro rfl
    have hrtts : p.rtts = 0 := h.rtts
    simp only [Population.summarize, hrtts, if_true, and_self]
  case some_of_ne_nil =>
    intro hne
    have hpos := List.length_pos_iff.mpr hne
    have hrtts : p.rtts ≠ 0 := by rw [h.rtts]; omega
    have hmedian : midpointMedian stored.length p.at_ =
        midpointMedian stored.length (nth stored) := by
      rw [midpointMedian, midpointMedian, h.at_eq hfresh (by omega), h.at_eq hfresh (by omega)]
    simp only [Population.summarize, if_neg hrtts]
    rw [h.rtts, h.at_eq hfresh hpos, h.at_eq hfresh (by omega), h.at_eq hfresh (nearestRank_lt _ hpos),
      h.at_eq hfresh (nearestRank_lt _ hpos), h.at_eq hfresh (nearestRank_lt _ hpos), hmedian]
    exact ⟨rfl, rfl, rfl, rfl, rfl, rfl⟩

/-! ## Runs -/

/-- What is done to a population. -/
inductive Op where
  | observe (outcome : Outcome) (continuity : ℕ)
  | interrupt (count : Option ℚ) (reason : Reason)
  | markIncomplete
  | summary
deriving DecidableEq

def apply (p : Population) : Op → Population
  | .observe outcome continuity => p.observe outcome continuity
  | .interrupt count reason => p.interrupt count reason
  | .markIncomplete => p.markIncomplete
  | .summary => p.summary.1

/-- The values stored after an operation: a reply within the window is stored, rounded by how many
distinct values there are. -/
def Op.store (stored : List ℕ) : Op → List ℕ
  | .observe ⟨some rttMs, false, _, true⟩ _ =>
    if rttMs < 0 then stored else stored ++ [value stored.dedup.length rttMs]
  | _ => stored

/-- All values stored by a run. -/
def Op.stored (ops : List Op) : List ℕ := ops.foldl Op.store []

/-- An open population counts what is stored, and the summary it keeps reads that. -/
structure Counts (p : Population) (stored : List ℕ) : Prop where
  holds : p.Holds stored
  final : p.final = none
  cached : ∀ s, p.cached = some (some s) → Ranks s stored
  /-- Nothing stored is missed by the summary that says nothing. -/
  blank : p.cached = some none → stored = []
  replies : stored.length ≤ p.replies

/-- An empty population counts nothing. -/
theorem counts_empty : empty.Counts [] where
  holds := holds_empty
  final := rfl
  cached _ h := nomatch h
  blank _ := rfl
  replies := Nat.le_refl 0

/-- Where nothing is stored and the summary kept is dropped, what is counted stays. -/
theorem Counts.other {p q : Population} {stored : List ℕ} (h : p.Counts stored)
    (hcounts : q.counts = p.counts) (hbuffer : q.buffer = p.buffer) (hheld : q.held = p.held)
    (hfresh : q.fresh = p.fresh) (hrtts : q.rtts = p.rtts) (hfinal : q.final = p.final)
    (hcached : q.cached = none) (hreplies : p.replies ≤ q.replies) : q.Counts stored where
  holds := h.holds.congr hcounts hbuffer hheld hfresh hrtts
  final := hfinal.trans h.final
  cached _ hs := nomatch hcached.symm.trans hs
  blank hs := nomatch hcached.symm.trans hs
  replies := h.replies.trans hreplies

/-- An observation is counted. -/
theorem Counts.observe {p : Population} {stored : List ℕ} (h : p.Counts stored) (outcome : Outcome)
    (continuity : ℕ) :
    (p.observe outcome continuity).Counts (Op.store stored (.observe outcome continuity)) := by
  match outcome with
  | ⟨some _, true, _, _⟩ | ⟨none, true, _, _⟩ | ⟨none, false, _, _⟩ =>
    show (p.observe _ continuity).Counts stored
    exact h.other rfl rfl rfl rfl rfl rfl rfl le_rfl
  | ⟨some rttMs, false, handlingMs, inWindow⟩ =>
    rw [Population.observe]
    dsimp only
    by_cases hneg : rttMs < 0
    · rw [if_neg Bool.false_ne_true, if_pos hneg]
      have hstored : Op.store stored (.observe ⟨some rttMs, false, handlingMs, inWindow⟩ continuity) =
          stored := by
        cases inWindow
        · rfl
        · exact if_pos hneg
      rw [hstored]
      exact h.other rfl rfl rfl rfl rfl rfl rfl le_rfl
    · rw [if_neg Bool.false_ne_true, if_neg hneg]
      cases inWindow with
      | false => exact h.other rfl rfl rfl rfl rfl rfl rfl (Nat.le_succ _)
      | true =>
        rw [if_neg (by decide), Op.store, if_neg hneg, h.holds.size]
        have hholds := h.holds.store (value stored.dedup.length rttMs)
        refine ⟨hholds.congr rfl rfl rfl rfl rfl, h.final, ?_, ?_, ?_⟩
        · exact fun _ hs => nomatch hs
        · exact fun hs => nomatch hs
        · rw [List.length_append]
          exact Nat.succ_le_succ h.replies

/-- An interruption keeps what is counted. -/
theorem Counts.interrupt {p : Population} {stored : List ℕ} (h : p.Counts stored) (count : Option ℚ)
    (reason : Reason) : (p.interrupt count reason).Counts stored := by
  unfold Population.interrupt
  split
  · exact h
  · split_ifs
    · exact h
    · cases reason <;> exact h.other rfl rfl rfl rfl rfl rfl rfl le_rfl

/-- **A summary changes nothing that is counted, and reads it.** -/
theorem Counts.summary {p : Population} {stored : List ℕ} (h : p.Counts stored) :
    p.summary.1.Counts stored ∧ (p.summary.2 = none → stored = []) ∧
      ∀ s, p.summary.2 = some s → Ranks s stored := by
  unfold Population.summary
  rw [h.final]
  match hcached : p.cached with
  | some cached =>
    refine ⟨h, fun hnone => ?_, fun s hs => ?_⟩
    · exact h.blank (hcached.trans (congrArg some hnone))
    · exact h.cached s (hcached.trans (congrArg some hs))
  | none =>
    by_cases hblank : p.count = 0 ∧ p.unresolved = 0 ∧ p.sendFailures = 0 ∧ p.complete = true
    · have hnil : stored = [] := by
        have hcount : p.replies + p.timeouts = 0 := hblank.1
        have hreplies := h.replies
        exact List.eq_nil_of_length_eq_zero (by omega)
      simp only [if_pos hblank]
      refine ⟨⟨h.holds.congr rfl rfl rfl rfl rfl, rfl, ?_, fun _ => hnil, h.replies⟩,
        fun _ => hnil, ?_⟩
      · exact fun _ hs => nomatch hs
      · exact fun _ hs => nomatch hs
    · obtain ⟨hholds, hfresh⟩ := h.holds.merge
      have hranks := hholds.summarize hfresh
      have hfinal : p.merge.final = none := by
        rw [Population.merge]
        split_ifs <;> exact h.final
      have hreplies : p.merge.replies = p.replies := by
        rw [Population.merge]
        split_ifs <;> rfl
      simp only [if_neg hblank]
      refine ⟨⟨hholds.congr rfl rfl rfl rfl rfl, hfinal, ?_, ?_, ?_⟩, ?_, ?_⟩
      · intro s hs
        cases hs
        exact hranks
      · exact fun hs => nomatch hs
      · exact h.replies.trans hreplies.ge
      · exact fun hs => nomatch hs
      · intro s hs
        cases hs
        exact hranks

/-- **Every operation** counts what it stores. -/
theorem Counts.apply {p : Population} {stored : List ℕ} (h : p.Counts stored) (op : Op) :
    (p.apply op).Counts (op.store stored) := by
  cases op with
  | observe outcome continuity => exact h.observe outcome continuity
  | interrupt count reason => exact h.interrupt count reason
  | markIncomplete => exact h.other rfl rfl rfl rfl rfl rfl rfl le_rfl
  | summary => exact h.summary.1

/-- A run of operations counts what it stored. -/
theorem counts_run (ops : List Op) : (ops.foldl apply empty).Counts (Op.stored ops) := by
  induction ops using List.reverseRecOn with
  | nil => exact counts_empty
  | append_singleton ops op ih =>
    rw [Op.stored, List.foldl_concat, List.foldl_concat]
    exact ih.apply op

/-- An observation does not finish a population. -/
theorem observe_final (p : Population) (outcome : Outcome) (continuity : ℕ) :
    (p.observe outcome continuity).final = p.final := by
  match outcome with
  | ⟨some _, true, _, _⟩ | ⟨none, true, _, _⟩ | ⟨none, false, _, _⟩ => rfl
  | ⟨some rttMs, false, handlingMs, inWindow⟩ =>
    rw [Population.observe]
    dsimp only
    rw [if_neg Bool.false_ne_true]
    by_cases hneg : rttMs < 0
    · rw [if_pos hneg]
    · rw [if_neg hneg]
      cases inWindow <;> rfl

/-- A closed population's summary is the one it had, whatever is done to it. -/
theorem close_summary (p : Population) (ops : List Op) :
    (ops.foldl apply p.close).summary.2 = p.summary.2 := by
  have hfinal : ∀ (ops : List Op) (q : Population), q.final = some p.summary.2 →
      (ops.foldl apply q).final = some p.summary.2 := by
    intro ops
    induction ops with
    | nil => exact fun q hq => hq
    | cons op ops ih =>
      intro q hq
      refine ih _ ?_
      cases op with
      | observe outcome continuity => exact (observe_final q outcome continuity).trans hq
      | interrupt count reason =>
        show (q.interrupt count reason).final = _
        unfold Population.interrupt
        split
        · exact hq
        · split_ifs
          · exact hq
          · cases reason <;> exact hq
      | markIncomplete => exact hq
      | summary =>
        show q.summary.1.final = _
        unfold Population.summary
        rw [hq]
        exact hq
  have hrun := hfinal ops p.close rfl
  unfold Population.summary
  rw [hrun]
  rfl

end Population

/-! ## Order statistics -/

open OrderStatistic Selection in
/-- **Order statistics in the browser.** A selection among the first `n` values returns the value that
their sorted list has at the rank, permuting these values and leaving the others, and the median the
middle one or the mean of the two. A population's value at a rank, after any run of outcomes, losses and
summaries, is the one at that rank of the sorted values stored, as is what a summary shows, which is
also what it shows once closed. -/
theorem order_statistics (values : Array ℚ) (n k : ℕ) (hn : n ≤ values.size) (hk : k < n)
    (ops later : List Population.Op) :
    ((∃ x, (sorted (values.toList.take n))[k]? = some x ∧ (select values n k).1 = some x) ∧
      ((select values n k).2.toList.take n).Perm (values.toList.take n) ∧
      (select values n k).2.toList.drop n = values.toList.drop n) ∧
    (∃ lower upper, (sorted (values.toList.take n))[(n - 1) / 2]? = some lower ∧
      (sorted (values.toList.take n))[n / 2]? = some upper ∧
      (selectMedian values n).1 = some ((lower + upper) / 2)) ∧
    let p := ops.foldl Population.apply .empty
    let stored := Population.Op.stored ops
    p.rtts = stored.length ∧
      (∀ rank < stored.length, p.merge.at_ rank = Population.nth stored rank) ∧
      (p.summary.2 = none → stored = []) ∧
      (∀ s, p.summary.2 = some s → Population.Ranks s stored) ∧
      (later.foldl Population.apply p.close).summary.2 = p.summary.2 := by
  obtain ⟨hselect, hperm, hdrop⟩ := select_eq values hk hn
  have hcounts := Population.counts_run ops
  obtain ⟨hmerged, hfresh⟩ := hcounts.holds.merge
  obtain ⟨-, hnone, hranks⟩ := hcounts.summary
  have hrank : k < (sorted (values.toList.take n)).length := by
    rw [List.length_insertionSort, List.length_take, Array.length_toList]
    omega
  refine ⟨⟨⟨_, List.getElem?_eq_getElem hrank, ?_⟩, hperm, hdrop⟩,
    selectMedian_eq values (by omega) hn, hcounts.holds.rtts, ?_, hnone, hranks, ?_⟩
  · rw [hselect, List.getElem?_eq_getElem hrank]
  · exact fun rank => hmerged.at_eq hfresh
  · exact Population.close_summary _ later

open OrderStatistic Selection in
/-- Four values with a tie, and replies before and after a summary, which has sorted the first two. -/
theorem order_statistics_four :
    let ops : List Population.Op := [.observe ⟨some 3, false, none, true⟩ 0,
      .observe ⟨some 1, false, none, true⟩ 0, .summary, .observe ⟨some 2, false, none, true⟩ 0,
      .observe ⟨some 3, false, none, true⟩ 0]
    let p := ops.foldl Population.apply .empty
    ((∃ x, (sorted [(3 : ℚ), 1, 2, 1])[1]? = some x ∧ (select #[3, 1, 2, 1] 4 1).1 = some x) ∧
      (selectMedian #[3, 1, 2, 1] 4).1 = some (3 / 2)) ∧
      p.keys = [1000000, 3000000] ∧ p.fresh = [2000000] ∧ p.rtts = 4 ∧
      p.merge.at_ 0 = 1 ∧ p.merge.at_ 1 = 2 ∧ p.merge.at_ 2 = 3 ∧ p.merge.at_ 3 = 3 := by
  intro ops p
  obtain ⟨⟨hselect, -⟩, ⟨lower, upper, hlower, hupper, hmedian⟩, hrtts, hat, -⟩ :=
    order_statistics #[3, 1, 2, 1] 4 1 (by decide) (by decide) ops []
  have hstored : Population.Op.stored ops = [3000000, 1000000, 2000000, 3000000] := by decide +kernel
  have hsorted : sorted (((#[3, 1, 2, 1] : Array ℚ).toList).take 4) = [1, 1, 2, 3] := by decide +kernel
  rw [hsorted] at hlower hupper
  cases hlower
  cases hupper
  rw [hstored] at hrtts hat
  refine ⟨⟨hselect, hmedian.trans (by norm_num)⟩, by decide +kernel, by decide +kernel, hrtts,
    (hat 0 (by decide)).trans ?_, (hat 1 (by decide)).trans ?_, (hat 2 (by decide)).trans ?_,
    (hat 3 (by decide)).trans ?_⟩ <;> decide +kernel

end GraphiteMeter.Measure.Browser
