import GraphiteMeter.Lib.HashMap
import GraphiteMeter.Server.Quota

/-!
# Quotas that hold quotas

Reference: `rust/server/src/limits/quota.rs`. A quota counts concurrency or weight against a total and
per-client shares. Its total is fixed or read off the buffer budget, one key may be exempt, and an
acquisition may charge an outer quota's total too.

Counters are `usize`: `used` and the shares are compared with saturating sums and added with wrapping
ones, as a release build does.
-/

namespace GraphiteMeter.Server.Limits

/-- A quota's total: fixed, or half the budget past its reservations. -/
inductive Total where
  | fixed (total : ℕ)
  | clientWindows
deriving DecidableEq, Repr

structure Quota where
  total : Total
  /-- A client's narrowest key may hold this much. -/
  share : ℕ
  /-- Many clients share this key, which bounds nothing. -/
  exempt : Option ClientKey
  used : ℕ
  peak : ℕ
  held : HashMap ClientKey ℕ
  refusedTotal : ℕ
  refusedClient : ℕ

namespace Quota

/-- A quota that holds nothing yet. -/
def with_ (total : Total) (share : ℕ) (exempt : Option ClientKey) : Quota :=
  ⟨total, share, exempt, 0, 0, ∅, 0, 0⟩

def new (total share : ℕ) : Quota := with_ (.fixed total) share none

def clientWindows (share : ℕ) (exempt : Option ClientKey) : Quota :=
  with_ .clientWindows share exempt

/-- The total in force, with what the budget gives when it is read. -/
def totalNow (q : Quota) (windows : ℕ) : ℕ :=
  match q.total with
  | .fixed total => total
  | .clientWindows => windows

def shares (q : Quota) (keys : ClientKeys) : List (ClientKey × ℕ) :=
  (keys.shares q.share).filter fun (key, _) => some key ≠ q.exempt

def keys (q : Quota) (keys : ClientKeys) : List ClientKey := (q.shares keys).map (·.1)

/-- What a key holds. -/
def amount (q : Quota) (key : ClientKey) : ℕ := (q.held.lookup key).getD 0

/-- A key would hold more than its share. -/
def clientFull (q : Quota) (keys : ClientKeys) (weight : ℕ) : Bool :=
  (q.shares keys).any fun (key, share) => share < Word.saturatingAdd (q.amount key) weight

def totalFull (q : Quota) (total weight : ℕ) : Bool := total < Word.saturatingAdd q.used weight

/-- Adds to what a key holds. -/
def chargeKey (weight : ℕ) (held : HashMap ClientKey ℕ) (key : ClientKey) : HashMap ClientKey ℕ :=
  held.insert key (Word.wrappingAdd ((held.lookup key).getD 0) weight)

/-- Keeps what a key holds, and forgets a key that holds nothing. -/
def keepKey (held : HashMap ClientKey ℕ) (key : ClientKey) (amount : ℕ) : HashMap ClientKey ℕ :=
  if amount = 0 then held.erase key else held.insert key amount

/-- Changes what a key holds, if it holds something. -/
def updateKey (f : ℕ → ℕ) (held : HashMap ClientKey ℕ) (key : ClientKey) : HashMap ClientKey ℕ :=
  match held.lookup key with
  | none => held
  | some amount => keepKey held key (f amount)

/-- Takes from what a key holds. -/
def unchargeKey (weight : ℕ) : HashMap ClientKey ℕ → ClientKey → HashMap ClientKey ℕ :=
  updateKey (Word.wrappingSub · weight)

def refuseClient (q : Quota) : Quota := { q with refusedClient := q.refusedClient + 1 }

def refuseTotal (q : Quota) : Quota := { q with refusedTotal := q.refusedTotal + 1 }

/-- Charges the total and every key at once. -/
def charge (q : Quota) (keys : ClientKeys) (weight : ℕ) : Quota :=
  let used := Word.wrappingAdd q.used weight
  { q with used, peak := max q.peak used, held := (q.keys keys).foldl (chargeKey weight) q.held }

/-- What dropping a hold does. -/
def release (q : Quota) (keys : ClientKeys) (weight : ℕ) : Quota :=
  { q with
    used := Word.wrappingSub q.used weight
    held := (q.keys keys).foldl (unchargeKey weight) q.held }

/-- An acquisition without an outer quota, under the one lock. -/
def acquire (q : Quota) (windows : ℕ) (keys : ClientKeys) (weight : ℕ) : Except Full Unit × Quota :=
  if q.clientFull keys weight then (.error .client, q.refuseClient)
  else if q.totalFull (q.totalNow windows) weight then (.error .total, q.refuseTotal)
  else (.ok (), q.charge keys weight)

end Quota

/-! ## The keys of a hold -/

namespace Quota

variable {q : Quota} {keys : ClientKeys} {weight windows : ℕ}

/-- The keys that count are the client's, less the exempt one. -/
theorem keys_eq (q : Quota) (keys : ClientKeys) :
    q.keys keys = keys.iter.filter fun key => some key ≠ q.exempt := by
  rw [Quota.keys, shares, ← keys.map_fst_shares q.share, List.filter_map]
  rfl

/-- A hold charges each of its keys once. -/
theorem nodup_keys (q : Quota) (keys : ClientKeys) : (q.keys keys).Nodup := by
  rw [keys_eq]
  exact keys.nodup_iter.filter _

@[simp] theorem keys_exempt (q : Quota) : q.keys .exempt = [] := by
  rw [keys_eq]
  rfl

/-- What a quota holds does not change what it charges. -/
theorem keys_congr {q q' : Quota} (h : q'.exempt = q.exempt) : q'.keys = q.keys := by
  funext keys
  rw [keys_eq, keys_eq, h]

@[simp] theorem keys_charge (q : Quota) (keys : ClientKeys) (weight : ℕ) :
    (q.charge keys weight).keys = q.keys := keys_congr rfl

@[simp] theorem keys_release (q : Quota) (keys : ClientKeys) (weight : ℕ) :
    (q.release keys weight).keys = q.keys := keys_congr rfl

@[simp] theorem shares_exempt (q : Quota) : q.shares .exempt = [] := rfl

/-- Each share belongs to a key that counts. -/
theorem mem_keys_of_shares {key : ClientKey} {share : ℕ} (h : (key, share) ∈ q.shares keys) :
    key ∈ q.keys keys :=
  List.mem_map_of_mem h

/-! ## What charging and releasing do to a key -/

/-- A charge adds its weight at each of its keys. -/
theorem lookup_charge {ks : List ClientKey} (hnodup : ks.Nodup) (held : HashMap ClientKey ℕ)
    (key : ClientKey) :
    (ks.foldl (chargeKey weight) held).lookup key =
      if key ∈ ks then some (Word.wrappingAdd ((held.lookup key).getD 0) weight)
      else held.lookup key := by
  induction ks generalizing held with
  | nil => simp
  | cons first ks ih =>
    obtain ⟨hfirst, hnodup⟩ := List.nodup_cons.mp hnodup
    rw [List.foldl_cons, ih hnodup]
    by_cases heq : key = first
    · subst heq
      rw [if_neg hfirst, if_pos List.mem_cons_self, chargeKey, AList.lookup_insert]
    · have hother : (chargeKey weight held first).lookup key = held.lookup key := by
        rw [chargeKey, AList.lookup_insert_ne heq]
      simp only [hother, List.mem_cons, heq, false_or]

/-- What is remembered of an amount. -/
def kept (amount : ℕ) : Option ℕ := if amount = 0 then none else some amount

/-- An amount that is kept reads back, and zero reads as nothing. -/
theorem getD_kept (amount : ℕ) : (kept amount).getD 0 = amount := by
  unfold kept
  split
  · rename_i hzero
    exact hzero.symm
  · rfl

/-- No key is kept at zero. -/
theorem kept_ne_zero (amount : ℕ) : kept amount ≠ some 0 := by
  unfold kept
  split
  · exact nofun
  · rename_i hne
    rw [Ne, Option.some.injEq]
    exact hne

/-- Keeping an amount at a key leaves the others. -/
theorem lookup_keepKey (held : HashMap ClientKey ℕ) (key first : ClientKey) (amount : ℕ) :
    (keepKey held first amount).lookup key =
      if key = first then kept amount else held.lookup key := by
  unfold keepKey kept
  by_cases heq : key = first
  · subst heq
    by_cases hzero : amount = 0
    · rw [if_pos hzero, if_pos rfl, if_pos hzero, AList.lookup_erase]
    · rw [if_neg hzero, if_pos rfl, if_neg hzero, AList.lookup_insert]
  · rw [if_neg heq]
    split
    · exact AList.lookup_erase_ne heq
    · exact AList.lookup_insert_ne heq

/-- An update changes each of its keys, and drops those that reach zero. -/
theorem lookup_updateKey {f : ℕ → ℕ} {ks : List ClientKey} (hnodup : ks.Nodup)
    (held : HashMap ClientKey ℕ) (key : ClientKey) :
    (ks.foldl (updateKey f) held).lookup key =
      if key ∈ ks then (held.lookup key).bind fun amount => kept (f amount)
      else held.lookup key := by
  induction ks generalizing held with
  | nil => simp
  | cons first ks ih =>
    obtain ⟨hfirst, hnodup⟩ := List.nodup_cons.mp hnodup
    rw [List.foldl_cons, ih hnodup]
    by_cases heq : key = first
    · subst heq
      rw [if_neg hfirst, if_pos List.mem_cons_self, updateKey]
      cases hlookup : held.lookup key with
      | none => exact hlookup
      | some amount => simp only [Option.bind_some, lookup_keepKey, if_true]
    · have hother : (updateKey f held first).lookup key = held.lookup key := by
        unfold updateKey
        split
        · rfl
        · rw [lookup_keepKey, if_neg heq]
      simp only [hother, List.mem_cons, heq, false_or]

/-- No key that holds nothing is remembered, and no key holds more than the quota. -/
structure Sound (q : Quota) : Prop where
  nonzero : ∀ key, q.held.lookup key ≠ some 0
  within : ∀ key, q.amount key ≤ q.used
  fits : q.used < 2 ^ 64

/-- Charging adds the weight to the total and to each key. -/
theorem charge_spec (keys : ClientKeys) (h : q.Sound) (hpos : 0 < weight) (hfits : q.used + weight < 2 ^ 64) :
    (q.charge keys weight).Sound ∧ (q.charge keys weight).used = q.used + weight ∧
      ∀ key, (q.charge keys weight).amount key =
        q.amount key + if key ∈ q.keys keys then weight else 0 := by
  have hused : (q.charge keys weight).used = q.used + weight := Word.wrappingAdd_of_lt hfits
  have hlookup : ∀ key, (q.charge keys weight).held.lookup key =
      if key ∈ q.keys keys then some (q.amount key + weight) else q.held.lookup key := by
    intro key
    have hle := h.within key
    have hadd : Word.wrappingAdd (q.amount key) weight = q.amount key + weight :=
      Word.wrappingAdd_of_lt (by omega)
    rw [← hadd]
    exact lookup_charge (q.nodup_keys keys) q.held key
  have hamount : ∀ key, (q.charge keys weight).amount key =
      q.amount key + if key ∈ q.keys keys then weight else 0 := by
    intro key
    rw [amount, hlookup]
    split
    · rfl
    · rfl
  refine ⟨⟨?_, ?_, by omega⟩, hused, hamount⟩
  · intro key
    rw [hlookup]
    split
    · rw [Ne, Option.some.injEq]
      omega
    · exact h.nonzero key
  · intro key
    have hle := h.within key
    rw [hamount, hused]
    split <;> omega

/-- Releasing takes the weight from the total and from each key, if they hold it. -/
theorem release_spec (keys : ClientKeys) (weight : ℕ) (h : q.Sound) (hused : weight ≤ q.used)
    (hkeys : ∀ key ∈ q.keys keys, weight ≤ q.amount key)
    (hrest : ∀ key, (if key ∈ q.keys keys then q.amount key - weight else q.amount key)
      ≤ q.used - weight) :
    (q.release keys weight).Sound ∧ (q.release keys weight).used + weight = q.used ∧
      ∀ key, (q.release keys weight).amount key + (if key ∈ q.keys keys then weight else 0) =
        q.amount key := by
  have hfits := h.fits
  have husedEq : (q.release keys weight).used = q.used - weight :=
    Word.wrappingSub_of_le hused
  have hlookup : ∀ key, (q.release keys weight).held.lookup key =
      if key ∈ q.keys keys then
        kept (q.amount key - weight)
      else q.held.lookup key := by
    intro key
    have hle := h.within key
    have hfold := lookup_updateKey (f := (Word.wrappingSub · weight)) (q.nodup_keys keys) q.held key
    by_cases hmem : key ∈ q.keys keys
    · -- a key that holds nothing has no entry, which its release leaves so
      have hge := hkeys key hmem
      rw [if_pos hmem] at hfold ⊢
      cases hheld : q.held.lookup key with
      | none =>
        have hzero : q.amount key = 0 := by rw [amount, hheld]; rfl
        rw [hheld] at hfold
        rw [hzero, Nat.zero_sub]
        exact hfold
      | some a =>
        have ha : q.amount key = a := by rw [amount, hheld]; rfl
        rw [hheld, Option.bind_some,
          Word.wrappingSub_of_le (by omega : weight ≤ a)] at hfold
        rw [ha]
        exact hfold
    · rw [if_neg hmem] at hfold ⊢
      exact hfold
  have hamount : ∀ key, (q.release keys weight).amount key =
      if key ∈ q.keys keys then q.amount key - weight else q.amount key := by
    intro key
    rw [amount, hlookup]
    split
    · exact getD_kept _
    · rfl
  refine ⟨⟨?_, ?_, by omega⟩, by omega, ?_⟩
  · intro key
    rw [hlookup]
    split
    · exact kept_ne_zero _
    · exact h.nonzero key
  · intro key
    rw [hamount, husedEq]
    exact hrest key
  · intro key
    rw [hamount]
    split
    · rename_i hmem
      have hge := hkeys key hmem
      omega
    · rfl

/-! ## The checks -/

/-- A sum compared with `usize::MAX` is one a `usize` holds. -/
def Fits (q : Quota) (total weight : ℕ) : Prop := Word.max ≤ total → q.used + weight ≤ Word.max

/-- A total that is not full has room, unless the sum is past what a `usize` holds. -/
theorem room_of_not_totalFull {total : ℕ} (h : q.totalFull total weight = false)
    (hfits : q.Fits total weight) : q.used + weight ≤ total ∧ q.used + weight < 2 ^ 64 := by
  have hroom : ¬ total < Word.saturatingAdd q.used weight := of_decide_eq_false h
  rw [Word.saturatingAdd, Word.saturate] at hroom
  unfold Fits at hfits
  have hmax : Word.max = 2 ^ 64 - 1 := rfl
  omega

/-- A client that is not full has room in each of its shares. -/
theorem share_of_not_clientFull (h : q.clientFull keys weight = false)
    (hfits : ∀ key, q.amount key + weight ≤ Word.max) {key : ClientKey} {share : ℕ}
    (hmem : (key, share) ∈ q.shares keys) : q.amount key + weight ≤ share := by
  rw [clientFull, List.any_eq_false] at h
  have hkey : ¬ share < Word.saturatingAdd (q.amount key) weight := by
    simpa using h (key, share) hmem
  have hle := hfits key
  rw [Word.saturatingAdd, Word.saturate] at hkey
  omega

end Quota

end GraphiteMeter.Server.Limits
