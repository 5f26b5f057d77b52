import GraphiteMeter.Lib.HashMap
import GraphiteMeter.Server.Peer

/-!
# Quotas

Reference: `rust/server/src/limits/quota.rs`. A quota counts concurrency or weight against a total
and per-client shares, held until dropped.
-/

namespace GraphiteMeter.Server

inductive Full where
  | client
  | total
deriving DecidableEq, Repr

structure Quota where
  /-- The fixed total. -/
  total : ℕ
  /-- A client's narrowest key may hold this much. -/
  share : ℕ
  used : ℕ
  peak : ℕ
  held : HashMap ClientKey ℕ
  refusedTotal : ℕ
  refusedClient : ℕ

/-- A hold is a share of a quota, released when dropped. -/
structure Hold where
  keys : ClientKeys
  weight : ℕ
deriving DecidableEq, Repr

namespace Quota

def new (total share : ℕ) : Quota := ⟨total, share, 0, 0, ∅, 0, 0⟩

/-- Adds to what a key holds. -/
def charge (held : HashMap ClientKey ℕ) (key : ClientKey) (weight : ℕ) : HashMap ClientKey ℕ :=
  held.insert key ((held.lookup key).getD 0 + weight)

/-- Charges `weight` to the total and to every key at once, or refuses without charging. -/
def acquire (quota : Quota) (keys : ClientKeys) (weight : ℕ) : Except Full Hold × Quota :=
  let full := (keys.shares quota.share).any fun (key, share) =>
    share < Word.saturatingAdd ((quota.held.lookup key).getD 0) weight
  if full then (.error .client, { quota with refusedClient := quota.refusedClient + 1 })
  else if quota.total < Word.saturatingAdd quota.used weight then
    (.error .total, { quota with refusedTotal := quota.refusedTotal + 1 })
  else
    (.ok ⟨keys, weight⟩,
      { quota with
        used := quota.used + weight
        peak := max quota.peak (quota.used + weight)
        held := keys.iter.foldl (fun held key => charge held key weight) quota.held })

/-- Takes from what a key holds, and forgets a key that holds nothing. -/
def uncharge (held : HashMap ClientKey ℕ) (key : ClientKey) (weight : ℕ) : HashMap ClientKey ℕ :=
  match held.lookup key with
  | none => held
  | some amount =>
    if amount - weight = 0 then held.erase key else held.insert key (amount - weight)

/-- Drops a hold. -/
def release (quota : Quota) (hold : Hold) : Quota :=
  { quota with
    used := quota.used - hold.weight
    held := hold.keys.iter.foldl (fun held key => uncharge held key hold.weight) quota.held }

/-! ## What a quota's holds come to -/

/-- What a key holds. -/
def amount (quota : Quota) (key : ClientKey) : ℕ := (quota.held.lookup key).getD 0

/-- What holds charge a key with. -/
def charged (holds : List Hold) (key : ClientKey) : ℕ :=
  ((holds.filter fun hold => key ∈ hold.keys.iter).map (·.weight)).sum

/-- A quota counts exactly these holds. -/
structure Backs (quota : Quota) (holds : List Hold) : Prop where
  used : quota.used = (holds.map (·.weight)).sum
  held : ∀ key, quota.amount key = charged holds key

/-- One more hold charges each of its keys. -/
theorem charged_cons (hold : Hold) (holds : List Hold) (key : ClientKey) :
    charged (hold :: holds) key =
      (if key ∈ hold.keys.iter then hold.weight else 0) + charged holds key := by
  unfold charged
  by_cases hmem : key ∈ hold.keys.iter
  · rw [List.filter_cons_of_pos (by simpa using hmem), if_pos hmem, List.map_cons, List.sum_cons]
  · rw [List.filter_cons_of_neg (by simpa using hmem), if_neg hmem, Nat.zero_add]

/-- A charge adds its weight at each of its keys. -/
theorem lookup_foldl_charge {keys : List ClientKey} (hnodup : keys.Nodup) (weight : ℕ)
    (held : HashMap ClientKey ℕ) (key : ClientKey) :
    ((keys.foldl (fun held key => charge held key weight) held).lookup key).getD 0 =
      (held.lookup key).getD 0 + if key ∈ keys then weight else 0 := by
  induction keys generalizing held with
  | nil => simp
  | cons first keys ih =>
    obtain ⟨hfirst, hnodup⟩ := List.nodup_cons.mp hnodup
    rw [List.foldl_cons, ih hnodup]
    by_cases heq : key = first
    · subst heq
      rw [if_neg hfirst, if_pos List.mem_cons_self, charge, AList.lookup_insert]
      rfl
    · rw [charge, AList.lookup_insert_ne heq]
      simp only [List.mem_cons, heq, false_or]

/-- Taking a charge back subtracts its weight at its key. -/
theorem lookup_uncharge (weight : ℕ) (held : HashMap ClientKey ℕ) (first key : ClientKey) :
    ((uncharge held first weight).lookup key).getD 0 =
      (held.lookup key).getD 0 - if key = first then weight else 0 := by
  unfold uncharge
  by_cases heq : key = first
  · subst heq
    cases hlookup : held.lookup key with
    | none => simp [hlookup]
    | some amount =>
      simp only [if_true, Option.getD_some]
      split_ifs with hzero
      · rw [AList.lookup_erase, hzero]
        rfl
      · rw [AList.lookup_insert]
        rfl
  · rw [if_neg heq, Nat.sub_zero]
    cases held.lookup first with
    | none => rfl
    | some amount =>
      dsimp only
      split_ifs
      · rw [AList.lookup_erase_ne heq]
      · rw [AList.lookup_insert_ne heq]

/-- Taking a charge back subtracts its weight at each of its keys. -/
theorem lookup_foldl_uncharge {keys : List ClientKey} (hnodup : keys.Nodup) (weight : ℕ)
    (held : HashMap ClientKey ℕ) (key : ClientKey) :
    ((keys.foldl (fun held key => uncharge held key weight) held).lookup key).getD 0 =
      (held.lookup key).getD 0 - if key ∈ keys then weight else 0 := by
  induction keys generalizing held with
  | nil => simp
  | cons first keys ih =>
    obtain ⟨hfirst, hnodup⟩ := List.nodup_cons.mp hnodup
    rw [List.foldl_cons, ih hnodup, lookup_uncharge]
    by_cases heq : key = first
    · subst heq
      rw [if_neg hfirst, if_pos rfl, if_pos List.mem_cons_self, Nat.sub_zero]
    · simp only [List.mem_cons, heq, false_or, if_false, Nat.sub_zero]

namespace Backs

variable {quota : Quota} {holds holds' : List Hold} {hold : Hold}

/-- The order of the holds does not matter. -/
theorem perm (h : Backs quota holds) (hperm : holds.Perm holds') : Backs quota holds' where
  used := by
    rw [h.used]
    exact (hperm.map _).sum_nat
  held key := by
    rw [h.held]
    exact ((hperm.filter _).map _).sum_nat

/-- Dropping a hold takes exactly what it charged. -/
theorem release (h : Backs quota (hold :: holds)) : Backs (quota.release hold) holds where
  used := by
    have hused := h.used
    rw [List.map_cons, List.sum_cons] at hused
    show quota.used - hold.weight = _
    omega
  held key := by
    have hheld := h.held key
    rw [charged_cons] at hheld
    unfold amount Quota.release
    dsimp only
    rw [lookup_foldl_uncharge hold.keys.nodup_iter]
    unfold amount at hheld
    omega

/-- Dropping several takes what they charged. -/
theorem releases {dropped : List Hold} (h : Backs quota (dropped ++ holds)) :
    Backs (dropped.foldl Quota.release quota) holds := by
  induction dropped generalizing quota with
  | nil => exact h
  | cons hold dropped ih => exact ih h.release

end Backs

/-- A grant charges the hold it gives. -/
theorem acquire_ok {quota quota' : Quota} {keys : ClientKeys} {weight : ℕ} {hold : Hold}
    (h : quota.acquire keys weight = (.ok hold, quota')) :
    hold = ⟨keys, weight⟩ ∧ quota'.total = quota.total ∧ quota'.share = quota.share ∧
      Word.saturatingAdd quota.used weight ≤ quota.total ∧
      (∀ key share, (key, share) ∈ keys.shares quota.share →
        Word.saturatingAdd (quota.amount key) weight ≤ share) ∧
      ∀ holds, quota.Backs holds → quota'.Backs (hold :: holds) := by
  simp only [acquire] at h
  split_ifs at h with hclient htotal
  · cases h
  · cases h
  cases h
  refine ⟨rfl, rfl, rfl, Nat.not_lt.mp htotal, ?_, ?_⟩
  · intro key share hmem
    rw [List.any_eq_true, not_exists] at hclient
    have hkey := hclient (key, share)
    simp only [hmem, true_and, decide_eq_true_eq, Nat.not_lt] at hkey
    exact hkey
  · intro holds hbacks
    refine ⟨?_, fun key => ?_⟩
    · rw [List.map_cons, List.sum_cons, ← hbacks.used, Nat.add_comm]
    · rw [charged_cons, ← hbacks.held key]
      unfold amount
      dsimp only
      rw [lookup_foldl_charge keys.nodup_iter, Nat.add_comm]

/-- A refusal counts itself and charges nothing. The total is only asked once every key has room. -/
theorem acquire_error {quota quota' : Quota} {keys : ClientKeys} {weight : ℕ} {full : Full}
    (h : quota.acquire keys weight = (.error full, quota')) :
    quota'.total = quota.total ∧ quota'.share = quota.share ∧ quota'.used = quota.used ∧
      quota'.held = quota.held ∧
      (full = .total → quota.total < Word.saturatingAdd quota.used weight ∧
        ∀ key share, (key, share) ∈ keys.shares quota.share →
          Word.saturatingAdd (quota.amount key) weight ≤ share) := by
  simp only [acquire] at h
  split_ifs at h with hclient htotal
  · cases h
    exact ⟨rfl, rfl, rfl, rfl, nofun⟩
  · cases h
    refine ⟨rfl, rfl, rfl, rfl, fun _ => ⟨htotal, fun key share hmem => ?_⟩⟩
    rw [List.any_eq_true, not_exists] at hclient
    have hkey := hclient (key, share)
    simp only [hmem, true_and, decide_eq_true_eq, Nat.not_lt] at hkey
    exact hkey
  · cases h

/-- Where every key has room, only the total is left to refuse. -/
theorem acquire_of_shares {quota : Quota} {keys : ClientKeys} {weight : ℕ}
    (hkeys : ∀ key share, (key, share) ∈ keys.shares quota.share →
      Word.saturatingAdd (quota.amount key) weight ≤ share) :
    ∃ granted, quota.acquire keys weight =
      if quota.total < Word.saturatingAdd quota.used weight
      then (.error .total, { quota with refusedTotal := quota.refusedTotal + 1 })
      else (.ok ⟨keys, weight⟩, granted) := by
  have hclient : ¬ ((keys.shares quota.share).any fun (key, share) =>
      share < Word.saturatingAdd ((quota.held.lookup key).getD 0) weight) = true := by
    rw [List.any_eq_true, not_exists]
    rintro ⟨key, share⟩ ⟨hmem, hlt⟩
    rw [decide_eq_true_eq] at hlt
    exact absurd (hkeys key share hmem) (Nat.not_le.mpr hlt)
  unfold acquire
  simp only
  rw [if_neg hclient]
  exact ⟨_, rfl⟩

/-- What has room is granted. -/
theorem acquire_of_room {quota : Quota} {keys : ClientKeys} {weight : ℕ}
    (htotal : Word.saturatingAdd quota.used weight ≤ quota.total)
    (hkeys : ∀ key share, (key, share) ∈ keys.shares quota.share →
      Word.saturatingAdd (quota.amount key) weight ≤ share) :
    ∃ hold quota', quota.acquire keys weight = (.ok hold, quota') := by
  obtain ⟨granted, heq⟩ := acquire_of_shares hkeys
  rw [if_neg (Nat.not_lt.mpr htotal)] at heq
  exact ⟨_, granted, heq⟩

end Quota

end GraphiteMeter.Server
