import GraphiteMeter.Lib.Levels
import GraphiteMeter.Browser.Streams

/-!
# Dealing the pools

The dealing loop shares a pool to a level (`deal_level`): in full, fairly, and to every lane if
there is a connection for each. No lane is in two pools, so settling them in turn leaves each with
its own deal (`foldlM_settle`).
-/

namespace GraphiteMeter.Browser.Streams

open Levels

/-! ## Dealing -/

section Dealing

variable {left k i j available : ℕ} {dealt ceilings : List ℕ}

/-- With nothing left to deal a round deals nothing. -/
theorem round_none : round 0 dealt ceilings = (0, dealt) := by
  induction dealt generalizing ceilings with
  | nil => rfl
  | cons d dealt ih => cases ceilings <;> simp [round, ih]

/-- With nothing left to deal no round does. -/
theorem rounds_none (passes : ℕ) : rounds passes 0 dealt ceilings = dealt := by
  cases passes <;> rfl

/-- A round only takes from what is left. -/
theorem round_left_le : (round left dealt ceilings).1 ≤ left := by
  induction dealt generalizing left ceilings with
  | nil => exact le_rfl
  | cons d dealt ih =>
    cases ceilings with
    | nil => exact le_rfl
    | cons c ceilings =>
      rw [round]
      split
      · exact ih.trans (Nat.sub_le left 1)
      · exact ih

/-- A pass over lanes filled to `k` fills the first `m` of them to `k + 1`, all if any are left. -/
theorem round_level (left k : ℕ) (ceilings : List ℕ) :
    ∃ m, (round left (ceilings.map (min · k)) ceilings).2 = level k m ceilings ∧
    (round left (ceilings.map (min · k)) ceilings).1 + (level k m ceilings).sum =
      left + (ceilings.map (min · k)).sum ∧
    (0 < (round left (ceilings.map (min · k)) ceilings).1 → m = ceilings.length) := by
  induction ceilings generalizing left with
  | nil => exact ⟨0, rfl, rfl, fun _ => rfl⟩
  | cons c ceilings ih =>
    rcases Nat.eq_zero_or_pos left with rfl | some_left
    · rw [round_none]
      exact ⟨0, level_zero.symm, by rw [level_zero], fun h => absurd h (lt_irrefl 0)⟩
    · by_cases below : k < c
      · obtain ⟨m, filled, kept, full⟩ := ih (left - 1)
        have taken : min c k < c := by omega
        refine ⟨m + 1, ?_, ?_, ?_⟩ <;>
          simp only [List.map_cons, round, some_left, taken, and_self, if_true, level,
            List.sum_cons, List.length_cons]
        · rw [filled, min_eq_right below.le, min_eq_right (Nat.succ_le_of_lt below)]
        · rw [min_eq_right below.le, min_eq_right (Nat.succ_le_of_lt below)]
          omega
        · intro h
          rw [full h]
      · obtain ⟨m, filled, kept, full⟩ := ih left
        have stays : ¬ min c k < c := by omega
        refine ⟨m + 1, ?_, ?_, ?_⟩ <;>
          simp only [List.map_cons, round, stays, and_false, if_false, level, List.sum_cons,
            List.length_cons]
        · rw [filled, min_eq_left (not_lt.1 below), min_eq_left (by omega)]
        · rw [min_eq_left (not_lt.1 below), min_eq_left (by omega)]
          omega
        · intro h
          rw [full h]

/-- A pass that gives nothing while some are left found every lane at its ceiling. -/
theorem round_still (some_left : 0 < left)
    (still : (round left (ceilings.map (min · k)) ceilings).1 = left) :
    ceilings.map (min · k) = ceilings := by
  induction ceilings with
  | nil => rfl
  | cons c ceilings ih =>
    rw [List.map_cons, round] at still
    split at still
    · have : (round (left - 1) (ceilings.map (min · k)) ceilings).1 ≤ left - 1 := round_left_le
      simp only at still
      omega
    · have full : min c k = c := by omega
      rw [List.map_cons, full, ih still]

/-- Rounds raise the level until nothing is left or every ceiling is met. -/
theorem rounds_level {passes : ℕ} (left k : ℕ) (ceilings : List ℕ) (enough : left ≤ passes) :
    ∃ k' m, rounds passes left (ceilings.map (min · k)) ceilings = level k' m ceilings ∧
      (level k' m ceilings).sum = min (left + (ceilings.map (min · k)).sum) ceilings.sum := by
  have within (k : ℕ) : (ceilings.map (min · k)).sum ≤ ceilings.sum := by
    rw [← level_zero]
    exact sum_level_le
  induction passes generalizing left k with
  | zero =>
    obtain rfl : left = 0 := Nat.le_zero.1 enough
    refine ⟨k, 0, by rw [level_zero]; rfl, ?_⟩
    rw [level_zero, zero_add, min_eq_left (within k)]
  | succ passes ih =>
    rw [rounds]
    rcases Nat.eq_zero_or_pos left with rfl | some_left
    · refine ⟨k, 0, by simp [level_zero], ?_⟩
      rw [level_zero, zero_add, min_eq_left (within k)]
    · obtain ⟨m, filled, kept, full⟩ := round_level left k ceilings
      rw [if_neg some_left.ne']
      split
      · rename_i gave
        rcases Nat.eq_zero_or_pos (round left (ceilings.map (min · k)) ceilings).1 with out | more
        · rw [out, rounds_none, filled]
          refine ⟨k, m, rfl, ?_⟩
          have : (level k m ceilings).sum ≤ ceilings.sum := sum_level_le
          omega
        · -- some are left, so the pass raised every lane to the next level
          rw [full more, level_full] at filled kept
          rw [filled, ← kept]
          exact ih _ (k + 1) (by omega)
      · rename_i gave
        have still := le_antisymm round_left_le (not_lt.1 gave)
        have all := round_still some_left still
        refine ⟨k, m, filled, ?_⟩
        rw [still, all] at kept
        rw [all]
        omega

/-- What is dealt stands at one level, a few one above it, and uses all it can. -/
theorem deal_level (available : ℕ) (ceilings : List ℕ) :
    ∃ k m, deal available ceilings = level k m ceilings ∧
      (level k m ceilings).sum = min available ceilings.sum := by
  obtain ⟨k, m, dealt, sum⟩ :=
    rounds_level available 0 ceilings le_rfl
  have none_yet : ceilings.map (min · 0) = ceilings.map fun _ => 0 := by simp
  rw [none_yet] at dealt sum
  exact ⟨k, m, dealt, by simpa using sum⟩

@[simp] theorem length_deal : (deal available ceilings).length = ceilings.length := by
  obtain ⟨k, m, dealt, -⟩ := deal_level available ceilings
  rw [dealt, length_level]

/-- What is dealt is what is there, or all that was asked. -/
theorem sum_deal : (deal available ceilings).sum = min available ceilings.sum := by
  obtain ⟨k, m, dealt, sum⟩ := deal_level available ceilings
  rw [dealt, sum]

/-- No share is above its ceiling. -/
theorem deal_le (available : ℕ) (ceilings : List ℕ) (i : ℕ)
    (hi : i < (deal available ceilings).length) (hc : i < ceilings.length) :
    (deal available ceilings)[i] ≤ ceilings[i] := by
  obtain ⟨k, m, dealt, -⟩ := deal_level available ceilings
  simp only [dealt]
  exact level_le _ hc

/-- A share below its ceiling is no smaller than any other, but for one lane to an earlier one. -/
theorem deal_fair (hi : i < (deal available ceilings).length)
    (hj : j < (deal available ceilings).length)
    (hc : i < ceilings.length) (below : (deal available ceilings)[i] < ceilings[i]) :
    (deal available ceilings)[j] ≤ (deal available ceilings)[i] + (if i < j then 0 else 1) := by
  obtain ⟨k, m, dealt, -⟩ := deal_level available ceilings
  simp only [dealt] at below ⊢
  exact level_fair _ _ hc below

/-- With a piece for every lane, none goes without. -/
theorem deal_pos (available : ℕ) (ceilings : List ℕ) (i : ℕ)
    (enough : ceilings.length ≤ available) (wanted : ∀ c ∈ ceilings, 1 ≤ c)
    (hi : i < (deal available ceilings).length) : 1 ≤ (deal available ceilings)[i] := by
  by_contra none
  have nothing : (deal available ceilings)[i] = 0 := by omega
  have hc : i < ceilings.length := by simpa using hi
  have below : (deal available ceilings)[i] < ceilings[i] := by
    rw [nothing]
    exact wanted _ (List.getElem_mem _)
  have single : ∀ d ∈ deal available ceilings, d ≤ 1 := by
    intro d mem
    obtain ⟨j, hj, rfl⟩ := List.getElem_of_mem mem
    have := deal_fair hi hj hc below
    split at this <;> omega
  have few : ((deal available ceilings).map id).sum
      < ((deal available ceilings).map fun _ => 1).sum :=
    List.sum_lt_sum _ _ single ⟨_, List.getElem_mem hi, by simp [nothing]⟩
  have many := List.length_le_sum_of_one_le ceilings wanted
  simp only [List.map_id, sum_deal, List.map_const', List.sum_replicate, length_deal,
    Nat.nsmul_eq_mul, mul_one] at few
  omega

end Dealing

/-! ## Writing a deal back -/

section Deals

variable {plan : StreamPlan} {slots : List Slot} {dealt : List ℕ} {slot : Slot}

@[simp] theorem Lanes.planned_deal (lanes : Lanes) (amount : ℕ) :
    (lanes.deal amount).planned = amount := rfl

/-- Lanes that do not share stay as they were. -/
theorem dealTo_of_notMem (others : slot ∉ slots) : dealTo plan slots dealt slot = plan slot := by
  induction slots generalizing plan dealt with
  | nil => cases dealt <;> rfl
  | cons s slots ih =>
    obtain ⟨ne, others⟩ := List.ne_and_not_mem_of_not_mem_cons others
    cases dealt with
    | nil => rfl
    | cons d dealt => rw [dealTo, ih others, Function.update_of_ne ne]

/-- Each slot takes the share at its place. -/
theorem dealTo_getElem (distinct : slots.Nodup) {i : ℕ} (hi : i < slots.length)
    (hd : i < dealt.length) :
    dealTo plan slots dealt slots[i] = (plan slots[i]).deal dealt[i] := by
  induction slots generalizing plan dealt i with
  | nil => simp at hi
  | cons s slots ih =>
    obtain ⟨notMem, distinct⟩ := List.nodup_cons.1 distinct
    cases dealt with
    | nil => simp at hd
    | cons d dealt =>
      cases i with
      | zero => simp only [List.getElem_cons_zero, dealTo, dealTo_of_notMem notMem,
          Function.update_self]
      | succ i =>
        have hi : i < slots.length := by simpa using hi
        have ne : slots[i] ≠ s := fun h => notMem (h ▸ List.getElem_mem hi)
        simp only [List.getElem_cons_succ, dealTo]
        rw [ih distinct hi (by simpa using hd), Function.update_of_ne ne]

end Deals

namespace OriginBudget

variable {budget : OriginBudget} {plan plan' : StreamPlan}

/-- The deal of one pool, as an amount for each of its lanes. -/
def share (budget : OriginBudget) (plan : StreamPlan) : List ℕ :=
  Streams.deal budget.available.toNat (budget.slots.map fun slot => (plan slot).planned)

@[simp] theorem length_share : (budget.share plan).length = budget.slots.length := by
  simp [share]

/-- Too few connections for a lane each. -/
def Short (budget : OriginBudget) : Prop :=
  budget.lanes ≠ [] ∧ budget.available < budget.lanes.length

/-- Only the lanes that share the origin matter. -/
theorem share_congr (same : ∀ slot ∈ budget.slots, plan slot = plan' slot) :
    budget.share plan = budget.share plan' := by
  rw [share, share, List.map_congr_left fun slot mem => congrArg Lanes.planned (same slot mem)]

/-- An origin that is not refused deals what it has. -/
theorem settle_ok (settled : budget.settle plan = .ok plan') :
    ¬ budget.Short ∧ plan' = dealTo plan budget.slots (budget.share plan) := by
  rw [settle] at settled
  split at settled
  · rename_i empty
    rw [List.isEmpty_iff] at empty
    obtain rfl : plan = plan' := by simpa using settled
    exact ⟨fun short => short.1 empty, by simp [slots, empty, dealTo]⟩
  · split at settled
    · cases settled
    · rename_i enough
      exact ⟨fun short => enough short.2, by simpa [share] using settled.symm⟩

/-- An origin that is refused is short. -/
theorem settle_error {refused : String} (settled : budget.settle plan = .error refused) :
    budget.Short ∧ refused = budget.refusal := by
  rw [settle] at settled
  split at settled
  · cases settled
  · rename_i lanes
    rw [List.isEmpty_iff] at lanes
    split at settled
    · rename_i short
      exact ⟨⟨lanes, short⟩, by simpa using settled.symm⟩
    · cases settled

end OriginBudget

/-! ## Settling the pools in turn -/

section Settling

variable {budget : String → OriginBudget} {origins : List String} {plan plan' : StreamPlan}

/-- No lane is in two pools, so the pools already settled change nothing for the others. -/
theorem foldlM_settle (budget : String → OriginBudget)
    (once : ∀ origin, (budget origin).slots.Nodup)
    (apart : ∀ origin origin' slot, slot ∈ (budget origin).slots →
      slot ∈ (budget origin').slots → origin = origin')
    (distinct : origins.Nodup)
    (settled : origins.foldlM (fun plan origin => (budget origin).settle plan) plan =
      .ok plan') :
    (∀ origin ∈ origins, ¬ (budget origin).Short ∧
      ∀ i (hi : i < (budget origin).slots.length) (hd : i < ((budget origin).share plan).length),
        plan' (budget origin).slots[i] =
          (plan (budget origin).slots[i]).deal ((budget origin).share plan)[i]) ∧
    ∀ slot, (∀ origin ∈ origins, slot ∉ (budget origin).slots) → plan' slot = plan slot := by
  induction origins generalizing plan with
  | nil =>
    obtain rfl : plan = plan' := by simpa [pure, Except.pure] using settled
    exact ⟨by simp, fun _ _ => rfl⟩
  | cons origin origins ih =>
    obtain ⟨notMem, distinct⟩ := List.nodup_cons.1 distinct
    rw [List.foldlM_cons] at settled
    cases first : (budget origin).settle plan with
    | error refused => rw [first] at settled; cases settled
    | ok next =>
      rw [first] at settled
      obtain ⟨enough, rfl⟩ := OriginBudget.settle_ok first
      obtain ⟨rest, others⟩ := ih distinct settled
      have untouched (slot) (mem : slot ∈ (budget origin).slots) :
          ∀ origin' ∈ origins, slot ∉ (budget origin').slots := by
        rintro origin' mem' again
        exact notMem (apart _ _ _ mem again ▸ mem')
      have still (origin') (mem' : origin' ∈ origins) (slot) (mem : slot ∈ (budget origin').slots) :
          dealTo plan (budget origin).slots ((budget origin).share plan) slot = plan slot :=
        dealTo_of_notMem fun again => untouched slot again origin' mem' mem
      refine ⟨?_, ?_⟩
      · rintro origin' (_ | ⟨_, mem'⟩)
        · refine ⟨enough, fun i hi hd => ?_⟩
          rw [others _ (untouched _ (List.getElem_mem hi)),
            dealTo_getElem (once _) hi hd]
        · have same := OriginBudget.share_congr (still origin' mem')
          refine ⟨(rest origin' mem').1, fun i hi hd => ?_⟩
          rw [(rest origin' mem').2 i hi (same ▸ hd), still origin' mem' _ (List.getElem_mem hi)]
          simp only [same]
      · intro slot elsewhere
        rw [others slot fun origin' mem' => elsewhere origin' (List.mem_cons_of_mem _ mem'),
          dealTo_of_notMem (elsewhere origin List.mem_cons_self)]

/-- A refusal comes from an origin that is short. -/
theorem foldlM_refused {refused : String}
    (failed : origins.foldlM (fun plan origin => (budget origin).settle plan) plan =
      .error refused) :
    ∃ origin ∈ origins, (budget origin).Short ∧ refused = (budget origin).refusal := by
  induction origins generalizing plan with
  | nil => cases failed
  | cons origin origins ih =>
    rw [List.foldlM_cons] at failed
    cases first : (budget origin).settle plan with
    | error message =>
      rw [first] at failed
      obtain rfl : message = refused := by simpa [bind, Except.bind] using failed
      exact ⟨origin, List.mem_cons_self, OriginBudget.settle_error first⟩
    | ok next =>
      rw [first] at failed
      obtain ⟨origin', mem, short⟩ := ih failed
      exact ⟨origin', List.mem_cons_of_mem _ mem, short⟩

end Settling

end GraphiteMeter.Browser.Streams
