import GraphiteMeter.Browser.SeriesKinds

/-!
# Buckets keep their totals and order

A merge carries what its bin carries, so a fold keeps every total (`fold_sum`). Buckets stay in start
order because a merge starts where its bin does, and a bucket is inserted at its place.
-/

namespace GraphiteMeter.Browser.Series

open GraphiteMeter.Measure.Browser.Buckets (LatencyBucket)
open Packing (Bin pack)

section Fold

variable {T G L : Type} [DecidableEq G] [DecidableEq L] {kind : Kind T G L} {items : List T}

/-- A sum over parts is the sum of the parts' sums. -/
theorem sum_flatMap {α M : Type} [AddCommMonoid M] (l : List α) (f : α → List T) (w : T → M) :
    ((l.flatMap f).map w).sum = (l.map fun a => ((f a).map w).sum).sum := by
  rw [List.map_flatMap, List.flatMap, List.sum_flatten, List.map_map]
  rfl

/-- What a merge carries of its bin, a fold carries of the items. -/
theorem fold_sum {M : Type} [AddCommMonoid M] (w : T → M)
    (hmerge : ∀ (b : Bin T) (start end_ : ℚ), (∀ x ∈ b.toList, x ∈ items) →
      w (kind.merge b start end_) = (b.toList.map w).sum)
    (group : G) (grid : Grid) (horizon : ℚ) (strict : Bool) :
    ((kind.fold items group grid horizon strict).map w).sum = (items.map w).sum := by
  have hpacks := Packing.pack_packs (kind.foldLane group horizon) (kind.fits grid strict) items
  rw [fold_eq, List.map_map, ← (hpacks.perm.map w).sum_eq, sum_flatMap]
  congr 1
  refine List.map_congr_left fun b hb => ?_
  have hmem : ∀ x ∈ b.toList, x ∈ items := fun x hx =>
    hpacks.perm.subset (List.mem_flatMap.mpr ⟨b, hb, hx⟩)
  rw [Function.comp_apply, Kind.value]
  split
  case isTrue => exact hmerge b _ _ hmem
  case isFalse hrest =>
    rw [Bin.toList, not_not.mp hrest, List.map_singleton, List.sum_singleton]

end Fold

/-! ## Latency buckets -/

def InStartOrder (items : List LatencyBucket) : Prop := items.Pairwise fun a b => a.startT ≤ b.startT

/-- Folding keeps the buckets in the order of their starts. -/
theorem fold_inStartOrder {items : List LatencyBucket} (h : InStartOrder items) (group : Phase)
    (grid : Grid) (horizon : ℚ) (strict : Bool) :
    InStartOrder (latencyKind.fold items group grid horizon strict) := by
  have hpacks := Packing.pack_packs (latencyKind.foldLane group horizon)
    (latencyKind.fits grid strict) items
  have hstart : ∀ b : Bin LatencyBucket, (latencyKind.value grid b).startT = b.first.startT := by
    intro b
    unfold Kind.value
    split
    · exact max_eq_left (grid.le_cell.mp le_rfl)
    · rfl
  have hheads := List.Pairwise.sublist hpacks.heads h
  rw [List.pairwise_map] at hheads
  rw [fold_eq, InStartOrder, List.pairwise_map]
  simpa only [hstart] using hheads

/-- Going back does not go past the end. -/
theorem back_le (p : ℕ → Bool) (n : ℕ) : back p n ≤ n := by
  induction n with
  | zero => exact le_rfl
  | succ n ih =>
    rw [back]
    split
    · exact ih.trans (Nat.le_succ n)
    · exact le_rfl

/-- What it goes back over passes, and where it stops does not. -/
theorem back_spec (p : ℕ → Bool) (n : ℕ) :
    (∀ j, back p n ≤ j → j < n → p j) ∧ (0 < back p n → ¬ p (back p n - 1)) := by
  induction n with
  | zero => exact ⟨fun j _ hj => absurd hj (Nat.not_lt_zero j), fun h => absurd h (lt_irrefl 0)⟩
  | succ n ih =>
    rw [back]
    split
    case isTrue hp =>
      refine ⟨fun j hj hlt => ?_, ih.2⟩
      rcases Nat.lt_succ_iff_lt_or_eq.mp hlt with hlt | rfl
      · exact ih.1 j hj hlt
      · exact hp
    case isFalse hp => exact ⟨fun j hj hlt => absurd hlt (by omega), fun _ => hp⟩

/-- A bucket stands among those that start by it and those that start later. -/
theorem back_splits {history : List LatencyBucket} (h : InStartOrder history) (bucket : LatencyBucket) :
    let n := back (fun j => history[j]?.any fun other => bucket.startT < other.startT) history.length
    n ≤ history.length ∧ (∀ x ∈ history.take n, x.startT ≤ bucket.startT) ∧
      ∀ x ∈ history.drop n, bucket.startT < x.startT := by
  intro n
  have hn : n ≤ history.length := back_le _ _
  obtain ⟨hafter, hbefore⟩ :=
    back_spec (fun j => history[j]?.any fun other => bucket.startT < other.startT) history.length
  refine ⟨hn, ?_, ?_⟩
  · intro x hx
    obtain ⟨j, hj, rfl⟩ := List.getElem_of_mem hx
    rw [List.getElem_take]
    have hj' : j < n := (List.length_take ▸ hj).trans_le (min_le_left _ _)
    have hlast : n - 1 < history.length := by omega
    have hle : history[n - 1].startT ≤ bucket.startT := by
      have hnot : ¬ (history[n - 1]?.any fun other => bucket.startT < other.startT) :=
        hbefore (Nat.zero_lt_of_lt hj')
      rwa [List.getElem?_eq_getElem hlast, Option.any_some, decide_eq_true_eq, not_lt] at hnot
    rcases Nat.lt_or_ge j (n - 1) with hlt | hge
    · exact (List.pairwise_iff_getElem.mp h j (n - 1) (by omega) hlast hlt).trans hle
    · obtain rfl : j = n - 1 := by omega
      exact hle
  · intro x hx
    obtain ⟨j, hj, rfl⟩ := List.getElem_of_mem hx
    rw [List.length_drop] at hj
    have hlater := hafter (n + j) (Nat.le_add_right n j) (by omega)
    rw [List.getElem?_eq_getElem (by omega), Option.any_some, decide_eq_true_eq] at hlater
    rw [List.getElem_drop]
    exact hlater

/-- An insertion stands between what is before and what is behind. -/
theorem insertIdx_eq {α : Type} (x : α) : ∀ (l : List α) (n : ℕ), n ≤ l.length →
    l.insertIdx n x = l.take n ++ x :: l.drop n
  | _, 0, _ => rfl
  | y :: l, n + 1, h => by
    rw [List.insertIdx_succ_cons, insertIdx_eq x l n (Nat.le_of_succ_le_succ h)]
    rfl

/-- Any bucket goes to its place in start order. -/
theorem insert_inStartOrder {history : List LatencyBucket} (h : InStartOrder history)
    (bucket : LatencyBucket) : InStartOrder (BucketSeries.insert history bucket) := by
  obtain ⟨hn, hbefore, hafter⟩ := back_splits h bucket
  unfold BucketSeries.insert
  dsimp only at hn hbefore hafter ⊢
  generalize back (fun j => history[j]?.any fun other => bucket.startT < other.startT)
    history.length = n at hn hbefore hafter
  split
  case isTrue hsame =>
    generalize back _ n = i at hsame ⊢
    -- The earlier version starts where the new one does.
    obtain ⟨other, hother, hstart⟩ := (Option.any_eq_true _ _).mp hsame.2
    rw [decide_eq_true_eq] at hstart
    obtain ⟨hlt, rfl⟩ := List.getElem?_eq_some_iff.mp hother
    have hmap : (history.set (i - 1) bucket).map (·.startT) = history.map (·.startT) := by
      have hlt' : i - 1 < (history.map (·.startT)).length := by rwa [List.length_map]
      have hself := List.set_getElem_self hlt'
      rw [List.getElem_map, hstart] at hself
      rw [List.map_set, hself]
    rw [InStartOrder, ← List.pairwise_map (f := fun bucket : LatencyBucket => bucket.startT), hmap,
      List.pairwise_map]
    exact h
  case isFalse =>
    rw [insertIdx_eq bucket history n hn, InStartOrder, List.pairwise_append, List.pairwise_cons]
    have hsplit := h
    rw [← List.take_append_drop n history, InStartOrder, List.pairwise_append] at hsplit
    refine ⟨hsplit.1, ⟨fun x hx => (hafter x hx).le, hsplit.2.1⟩, ?_⟩
    exact fun x hx => List.forall_mem_cons.mpr ⟨hbefore x hx, hsplit.2.2 x hx⟩

end GraphiteMeter.Browser.Series
