import GraphiteMeter.Lib.Machine
import GraphiteMeter.Server.Limits.Quota
import Mathlib.Algebra.Order.BigOperators.Group.Multiset
import Mathlib.Algebra.Order.Group.Nat

/-!
# Quotas conserve what they hand out

Reference: `rust/server/src/limits/quota.rs`.

Any number of quotas, holds and threads. Each quota is a mutex, so what happens under one lock is one
step; `acquire_within` charges the outer quota while it holds the inner lock, so it is two:
`reserve` and `settle`, and other threads may use the outer quota between them. Dropping a hold
releases it, and the hold linked to it is dropped after, by itself.

`Balanced` ties the quotas to the multiset of everything charged to them. Charging and releasing keep it
(`Balanced.charge`, `Balanced.release`), so every step does, as long as no counter passes what a
`usize` holds (`Fits`).
-/

namespace GraphiteMeter.Server.Limits

variable {ι : Type} [DecidableEq ι]

/-- A weight charged to one quota. -/
structure Charge (ι : Type) where
  quota : ι
  keys : ClientKeys
  weight : ℕ
deriving DecidableEq, Repr

/-! ## The balance -/

/-- What is charged to a quota. -/
def usedBy (quota : ι) (charges : Multiset (Charge ι)) : ℕ :=
  (charges.map fun c => if c.quota = quota then c.weight else 0).sum

/-- What is charged to a key of a quota, by the charges that name it. -/
def heldBy (q : Quota) (quota : ι) (key : ClientKey) (charges : Multiset (Charge ι)) : ℕ :=
  (charges.map fun c => if c.quota = quota ∧ key ∈ q.keys c.keys then c.weight else 0).sum

/-- One more charge counts its weight at its own quota. -/
theorem usedBy_cons (quota : ι) (c : Charge ι) (charges : Multiset (Charge ι)) :
    usedBy quota (c ::ₘ charges) = (if c.quota = quota then c.weight else 0) + usedBy quota charges := by
  simp [usedBy]

/-- One more charge counts its weight at every key of its own quota. -/
theorem heldBy_cons (q : Quota) (quota : ι) (key : ClientKey) (c : Charge ι)
    (charges : Multiset (Charge ι)) :
    heldBy q quota key (c ::ₘ charges) =
      (if c.quota = quota ∧ key ∈ q.keys c.keys then c.weight else 0) +
        heldBy q quota key charges := by
  simp [heldBy]

/-- Quotas that charge the same keys see the same charges held. -/
theorem heldBy_congr {q q' : Quota} (h : q'.keys = q.keys) {quota : ι} {key : ClientKey}
    {charges : Multiset (Charge ι)} : heldBy q' quota key charges = heldBy q quota key charges := by
  rw [heldBy, h, heldBy]

/-- A key never holds more than its quota. -/
theorem heldBy_le_usedBy (q : Quota) (quota : ι) (key : ClientKey) (charges : Multiset (Charge ι)) :
    heldBy q quota key charges ≤ usedBy quota charges := by
  apply Multiset.sum_map_le_sum_map
  intro c _
  by_cases hquota : c.quota = quota
  · rw [if_pos hquota]
    split
    · exact Nat.le_refl _
    · exact Nat.zero_le _
  · rw [if_neg hquota, if_neg fun h => hquota h.1]

/-- **The quotas hold exactly what is charged to them**, and no more than a fixed total. -/
structure Balanced (quotas : ι → Quota) (charges : Multiset (Charge ι)) : Prop where
  used : ∀ i, (quotas i).used = usedBy i charges
  held : ∀ i key, (quotas i).amount key = heldBy (quotas i) i key charges
  nonzero : ∀ i key, (quotas i).held.lookup key ≠ some 0
  total : ∀ i total, (quotas i).total = .fixed total → (quotas i).used ≤ total
  fits : ∀ i, (quotas i).used < 2 ^ 64

namespace Balanced

variable {quotas : ι → Quota} {charges : Multiset (Charge ι)} {i : ι}

/-- A quota that balances its charges is sound. -/
theorem sound (h : Balanced quotas charges) (i : ι) : (quotas i).Sound where
  nonzero := h.nonzero i
  within key := by
    rw [h.held, h.used]
    exact heldBy_le_usedBy _ _ _ _
  fits := h.fits i

/-- A balance stays where one quota changes and the charges to the others do not. -/
theorem update (h : Balanced quotas charges) {q : Quota} {charges' : Multiset (Charge ι)}
    (hother : ∀ j ≠ i, usedBy j charges' = usedBy j charges ∧
      ∀ key, heldBy (quotas j) j key charges' = heldBy (quotas j) j key charges)
    (hused : q.used = usedBy i charges') (hheld : ∀ key, q.amount key = heldBy q i key charges')
    (hsound : q.Sound) (htotal : ∀ total, q.total = .fixed total → q.used ≤ total) :
    Balanced (Function.update quotas i q) charges' := by
  constructor
  · intro j
    by_cases hj : j = i
    · subst hj
      rw [Function.update_self]
      exact hused
    · rw [Function.update_of_ne hj, h.used, (hother j hj).1]
  · intro j key
    by_cases hj : j = i
    · subst hj
      rw [Function.update_self]
      exact hheld key
    · rw [Function.update_of_ne hj, h.held, (hother j hj).2]
  · intro j
    by_cases hj : j = i
    · subst hj
      rw [Function.update_self]
      exact hsound.nonzero
    · rw [Function.update_of_ne hj]
      exact h.nonzero j
  · intro j
    by_cases hj : j = i
    · subst hj
      rw [Function.update_self]
      exact htotal
    · rw [Function.update_of_ne hj]
      exact h.total j
  · intro j
    by_cases hj : j = i
    · subst hj
      rw [Function.update_self]
      exact hsound.fits
    · rw [Function.update_of_ne hj]
      exact h.fits j

/-- Counting a refusal changes nothing that is charged. -/
theorem refuseClient (h : Balanced quotas charges) (i : ι) :
    Balanced (Function.update quotas i (quotas i).refuseClient) charges :=
  h.update (fun _ _ => ⟨rfl, fun _ => rfl⟩) (h.used i) (h.held i)
    ⟨h.nonzero i, (h.sound i).within, h.fits i⟩ (h.total i)

/-- A refusal for want of room keeps the balance. -/
theorem refuseTotal (h : Balanced quotas charges) (i : ι) :
    Balanced (Function.update quotas i (quotas i).refuseTotal) charges :=
  h.update (fun _ _ => ⟨rfl, fun _ => rfl⟩) (h.used i) (h.held i)
    ⟨h.nonzero i, (h.sound i).within, h.fits i⟩ (h.total i)

/-- A charge that fits is added on both sides. -/
theorem charge (h : Balanced quotas charges) (c : Charge ι) (hpos : 0 < c.weight)
    (hfits : (quotas c.quota).used + c.weight < 2 ^ 64)
    (hroom : ∀ total, (quotas c.quota).total = .fixed total →
      (quotas c.quota).used + c.weight ≤ total) :
    Balanced (Function.update quotas c.quota ((quotas c.quota).charge c.keys c.weight))
      (c ::ₘ charges) := by
  obtain ⟨hsound, hused, hamount⟩ := Quota.charge_spec c.keys (h.sound c.quota) hpos hfits
  apply h.update
  · intro j hj
    rw [usedBy_cons, if_neg (Ne.symm hj), Nat.zero_add]
    refine ⟨rfl, fun key => ?_⟩
    rw [heldBy_cons, if_neg fun hc => hj hc.1.symm, Nat.zero_add]
  · rw [hused, usedBy_cons, if_pos rfl, h.used, Nat.add_comm]
  · intro key
    rw [hamount, heldBy_congr (Quota.keys_charge _ _ _), heldBy_cons, h.held, Nat.add_comm]
    simp only [true_and]
  · exact hsound
  · intro total htotal
    rw [hused]
    exact hroom total htotal

/-- A charge is taken off both sides. -/
theorem release {c : Charge ι} (h : Balanced quotas (c ::ₘ charges)) :
    Balanced (Function.update quotas c.quota ((quotas c.quota).release c.keys c.weight)) charges := by
  have hused := h.used c.quota
  rw [usedBy_cons, if_pos rfl] at hused
  have hheld : ∀ key, (quotas c.quota).amount key =
      (if key ∈ (quotas c.quota).keys c.keys then c.weight else 0) +
        heldBy (quotas c.quota) c.quota key charges := by
    intro key
    rw [h.held, heldBy_cons]
    simp only [true_and]
  obtain ⟨hsound, husedEq, hamount⟩ := Quota.release_spec c.keys c.weight
    (h.sound c.quota) (by omega) (by
      intro key hkey
      rw [hheld, if_pos hkey]
      exact Nat.le_add_right _ _) (by
      intro key
      have hle := heldBy_le_usedBy (quotas c.quota) c.quota key charges
      rw [hheld]
      split <;> omega)
  apply h.update
  · intro j hj
    rw [usedBy_cons, if_neg (Ne.symm hj), Nat.zero_add]
    refine ⟨rfl, fun key => ?_⟩
    rw [heldBy_cons, if_neg fun hc => hj hc.1.symm, Nat.zero_add]
  · omega
  · intro key
    have hkey := hamount key
    rw [hheld] at hkey
    rw [heldBy_congr (Quota.keys_release _ _ _)]
    omega
  · exact hsound
  · intro total htotal
    have hle := h.total c.quota total htotal
    omega

end Balanced

/-! ## Threads and locks -/

/-- A hold: its own charge, and the hold on the outer quota it is linked to. That one was acquired
without an outer quota, so it links none itself. -/
structure Hold (ι : Type) where
  own : Charge ι
  linked : Option (Charge ι)
deriving DecidableEq, Repr

/-- An `acquire_within` that has passed its client's share and charged the outer quota, and keeps the
inner lock. The total is the inner one, read before the lock was taken. -/
structure Pending (ι : Type) where
  own : Charge ι
  total : ℕ
  outer : ι
deriving DecidableEq, Repr

/-- The hold on the outer quota, which charges no client. -/
def Pending.linked (p : Pending ι) : Charge ι := ⟨p.outer, .exempt, p.own.weight⟩

structure World (ι : Type) where
  quotas : ι → Quota
  live : List (Hold ι)
  pending : List (Pending ι)

/-- What one thread does under a lock. `windows` is what the budget gives a quota whose total is
read off it. -/
inductive Action (ι : Type) where
  | acquire (own : Charge ι) (windows : ℕ)
  /-- The first half of `acquire_within`. -/
  | reserve (own : Charge ι) (outer : ι) (windows outerWindows : ℕ)
  /-- The second half. -/
  | settle (pending : Pending ι)
  | drop (hold : Hold ι)
deriving DecidableEq, Repr

/-- What an action comes to. -/
inductive Outcome (ι : Type) where
  | granted (own : Charge ι)
  | refused (full : Full)
  | reserved (pending : Pending ι)
  | released
deriving DecidableEq, Repr

namespace World

/-- No acquisition under way keeps the lock of this quota. -/
def Unlocked (w : World ι) (quota : ι) : Prop := ∀ p ∈ w.pending, p.own.quota ≠ quota

instance (w : World ι) (quota : ι) : Decidable (w.Unlocked quota) :=
  inferInstanceAs (Decidable (∀ p ∈ w.pending, _))

/-- Everything charged to the quotas: each live hold, the hold linked to it, and what acquisitions
under way have charged. -/
def charges (w : World ι) : Multiset (Charge ι) :=
  Multiset.ofList (w.live.flatMap fun hold => hold.own :: hold.linked.toList) +
    Multiset.ofList (w.pending.map (·.linked))

def set (w : World ι) (quota : ι) (q : Quota) : World ι :=
  { w with quotas := Function.update w.quotas quota q }

/-- `Quota::acquire`, under the quota's lock. -/
def acquire (w : World ι) (own : Charge ι) (windows : ℕ) : World ι × Outcome ι :=
  match (w.quotas own.quota).acquire windows own.keys own.weight with
  | (.error full, q) => (w.set own.quota q, .refused full)
  | (.ok (), q) => ({ w.set own.quota q with live := ⟨own, none⟩ :: w.live }, .granted own)

/-- `Quota::acquire_within` up to the charge of the outer quota: the client's share, then the outer
total. -/
def reserve (w : World ι) (own : Charge ι) (outer : ι) (windows outerWindows : ℕ) :
    World ι × Outcome ι :=
  if (w.quotas own.quota).clientFull own.keys own.weight then
    (w.set own.quota (w.quotas own.quota).refuseClient, .refused .client)
  else
    match (w.quotas outer).acquire outerWindows .exempt own.weight with
    | (.error full, q) => (w.set outer q, .refused full)
    | (.ok (), q) =>
      let p := ⟨own, (w.quotas own.quota).totalNow windows, outer⟩
      ({ w.set outer q with pending := p :: w.pending }, .reserved p)

/-- The end of `Quota::acquire_within`: the inner total. A refusal drops the hold on the outer quota. -/
def settle (w : World ι) (p : Pending ι) : World ι × Outcome ι :=
  let w := { w with pending := w.pending.erase p }
  let q := w.quotas p.own.quota
  if q.totalFull p.total p.own.weight then
    let w := w.set p.own.quota q.refuseTotal
    (w.set p.outer ((w.quotas p.outer).release .exempt p.own.weight), .refused .total)
  else
    ({ w.set p.own.quota (q.charge p.own.keys p.own.weight) with
      live := ⟨p.own, some p.linked⟩ :: w.live }, .granted p.own)

/-- `Hold::drop`. The linked hold is dropped after it, by itself. -/
def drop (w : World ι) (hold : Hold ι) : World ι × Outcome ι :=
  ({ w.set hold.own.quota
      ((w.quotas hold.own.quota).release hold.own.keys hold.own.weight) with
    live := hold.linked.toList.map (⟨·, none⟩) ++ w.live.erase hold }, .released)

/-- A step needs the locks it takes; the weights are positive. -/
def step (w : World ι) : Action ι → Option (World ι × List (Outcome ι))
  | .acquire own windows =>
    if 0 < own.weight ∧ w.Unlocked own.quota then
      let (w', outcome) := w.acquire own windows
      some (w', [outcome])
    else none
  | .reserve own outer windows outerWindows =>
    if 0 < own.weight ∧ own.quota ≠ outer ∧ w.Unlocked own.quota ∧ w.Unlocked outer then
      let (w', outcome) := w.reserve own outer windows outerWindows
      some (w', [outcome])
    else none
  | .settle p =>
    -- only a refusal takes the outer lock again
    if p ∈ w.pending ∧ ((w.quotas p.own.quota).totalFull p.total p.own.weight →
        w.Unlocked p.outer) then
      let (w', outcome) := w.settle p
      some (w', [outcome])
    else none
  | .drop hold =>
    if hold ∈ w.live ∧ w.Unlocked hold.own.quota then
      let (w', outcome) := w.drop hold
      some (w', [outcome])
    else none

/-- The quotas as they are made, holding nothing. -/
def start (quotas : ι → Quota) : World ι := ⟨quotas, [], []⟩

variable {w w' : World ι}

/-! ## What the actions do to the charges -/

omit [DecidableEq ι] in
/-- A granted hold adds its own charge and the one it carries. -/
theorem charges_grant (own : Charge ι) (linked : Option (Charge ι)) (quotas : ι → Quota)
    (live : List (Hold ι)) (pending : List (Pending ι)) :
    charges ⟨quotas, ⟨own, linked⟩ :: live, pending⟩ =
      own ::ₘ (Multiset.ofList linked.toList + charges ⟨quotas, live, pending⟩) := by
  simp only [charges, List.flatMap_cons, ← Multiset.coe_add, ← Multiset.cons_coe,
    List.cons_append]
  rw [Multiset.cons_add, Multiset.add_assoc]

omit [DecidableEq ι] in
/-- A pending request adds the charge it has reserved outside. -/
theorem charges_reserve (p : Pending ι) (quotas : ι → Quota) (live : List (Hold ι))
    (pending : List (Pending ι)) :
    charges ⟨quotas, live, p :: pending⟩ = p.linked ::ₘ charges ⟨quotas, live, pending⟩ := by
  simp only [charges, List.map_cons, ← Multiset.cons_coe]
  rw [Multiset.add_cons]

/-- The charges split into a pending request's and the others. -/
theorem charges_settle {p : Pending ι} (hp : p ∈ w.pending) :
    w.charges = p.linked ::ₘ charges { w with pending := w.pending.erase p } := by
  rw [← charges_reserve]
  simp only [charges]
  congr 1
  exact Multiset.coe_eq_coe.mpr ((List.perm_cons_erase hp).map _)

omit [DecidableEq ι] in
/-- A hold by itself charges the same as one that is linked. -/
theorem charges_unlink (linked : Option (Charge ι)) (quotas : ι → Quota) (live : List (Hold ι))
    (pending : List (Pending ι)) :
    charges ⟨quotas, linked.toList.map (⟨·, none⟩) ++ live, pending⟩ =
      Multiset.ofList linked.toList + charges ⟨quotas, live, pending⟩ := by
  cases linked with
  | none => simp [charges]
  | some c =>
    show charges ⟨quotas, ⟨c, none⟩ :: live, pending⟩ = _
    rw [charges_grant]
    simp

/-- The charges split into a hold's own and the others. -/
theorem charges_drop {hold : Hold ι} (hhold : hold ∈ w.live) :
    w.charges = hold.own ::ₘ charges { w with
      live := hold.linked.toList.map (⟨·, none⟩) ++ w.live.erase hold } := by
  rw [charges_unlink, ← charges_grant]
  simp only [charges]
  congr 1
  exact Multiset.coe_eq_coe.mpr ((List.perm_cons_erase hhold).flatMap_right _)

/-! ## What a step keeps -/

/-- The locks acquisitions under way keep are distinct, and each still has its client's share. -/
structure Waiting (quotas : ι → Quota) (pending : List (Pending ι)) : Prop where
  positive : ∀ p ∈ pending, 0 < p.own.weight
  share : ∀ p ∈ pending, (quotas p.own.quota).clientFull p.own.keys p.own.weight = false
  total : ∀ p ∈ pending, ∀ total, (quotas p.own.quota).total = .fixed total → p.total = total
  locks : (pending.map (·.own.quota)).Nodup

namespace Waiting

variable {quotas : ι → Quota} {pending : List (Pending ι)}

/-- What happens under a free lock does not touch an acquisition under way. -/
theorem update (h : Waiting quotas pending) {i : ι} (hfree : ∀ p ∈ pending, p.own.quota ≠ i)
    (q : Quota) : Waiting (Function.update quotas i q) pending where
  positive := h.positive
  share p hp := by
    rw [Function.update_of_ne (hfree p hp)]
    exact h.share p hp
  total p hp := by
    rw [Function.update_of_ne (hfree p hp)]
    exact h.total p hp
  locks := h.locks

omit [DecidableEq ι] in
/-- One more request may wait, where no other waits for its quota. -/
theorem cons (h : Waiting quotas pending) {p : Pending ι} (hpositive : 0 < p.own.weight)
    (hshare : (quotas p.own.quota).clientFull p.own.keys p.own.weight = false)
    (htotal : ∀ total, (quotas p.own.quota).total = .fixed total → p.total = total)
    (hfree : ∀ p' ∈ pending, p'.own.quota ≠ p.own.quota) : Waiting quotas (p :: pending) where
  positive := List.forall_mem_cons.mpr ⟨hpositive, h.positive⟩
  share := List.forall_mem_cons.mpr ⟨hshare, h.share⟩
  total := List.forall_mem_cons.mpr ⟨htotal, h.total⟩
  locks := by
    rw [List.map_cons, List.nodup_cons]
    refine ⟨?_, h.locks⟩
    intro hmem
    obtain ⟨p', hp', heq⟩ := List.mem_map.mp hmem
    exact hfree p' hp' heq

/-- An acquisition that settles frees its lock. -/
theorem erase (h : Waiting quotas pending) {p : Pending ι} (hp : p ∈ pending) :
    Waiting quotas (pending.erase p) ∧ ∀ p' ∈ pending.erase p, p'.own.quota ≠ p.own.quota := by
  have hperm := List.perm_cons_erase hp
  have hnodup := (hperm.map (·.own.quota)).nodup_iff.mp h.locks
  rw [List.map_cons, List.nodup_cons] at hnodup
  have hmem : ∀ p' ∈ pending.erase p, p' ∈ pending := fun p' => List.mem_of_mem_erase
  constructor
  · exact ⟨fun p' hp' => h.positive p' (hmem p' hp'), fun p' hp' => h.share p' (hmem p' hp'),
      fun p' hp' => h.total p' (hmem p' hp'), hnodup.2⟩
  · intro p' hp' heq
    apply hnodup.1
    rw [← heq]
    exact List.mem_map_of_mem hp'

end Waiting

/-- **The invariant of every run**: the quotas balance what is charged to them, and the acquisitions
under way can still be settled. -/
structure Conserved (w : World ι) : Prop where
  balanced : Balanced w.quotas w.charges
  waiting : Waiting w.quotas w.pending

/-- Every sum an acquisition makes against a total of `usize::MAX` is one a `usize` holds. Below that
total the check itself sees to it. -/
def Fits (w : World ι) : Action ι → Prop
  | .acquire own windows =>
    (w.quotas own.quota).clientFull own.keys own.weight = false →
      (w.quotas own.quota).Fits ((w.quotas own.quota).totalNow windows) own.weight
  | .reserve own outer _ outerWindows =>
    (w.quotas own.quota).clientFull own.keys own.weight = false →
      (w.quotas outer).Fits ((w.quotas outer).totalNow outerWindows) own.weight
  | .settle p => (w.quotas p.own.quota).Fits p.total p.own.weight
  | .drop _ => True

/-- What the quotas hold is the same. -/
def Untouched (w w' : World ι) : Prop :=
  ∀ i, (w'.quotas i).used = (w.quotas i).used ∧ (w'.quotas i).held = (w.quotas i).held

/-- The hold an acquisition had on its outer quota is given back, and nothing else changes. -/
def GaveBack (p : Pending ι) (w w' : World ι) : Prop :=
  ∀ i, (w'.quotas i).used + (if p.outer = i then p.own.weight else 0) = (w.quotas i).used ∧
    (w'.quotas i).held = (w.quotas i).held

/-- What an action may come to: a client is granted nothing past a share, a refusal leaves no charge
behind, and an acquisition under way has charged what it gives back if it is refused. -/
def Accounted (w w' : World ι) : Action ι → Outcome ι → Prop
  | _, .granted own => ∀ key share, (key, share) ∈ (w'.quotas own.quota).shares own.keys →
    (w'.quotas own.quota).amount key ≤ share
  | .settle p, .refused _ => w.GaveBack p w'
  | _, .refused _ => w.Untouched w'
  | _, .reserved p => w'.GaveBack p w
  | _, .released => True

namespace Conserved

/-- A refusal at the share keeps a world conserved. -/
theorem refuseClient (h : w.Conserved) {i : ι} (hfree : w.Unlocked i) :
    (w.set i (w.quotas i).refuseClient).Conserved :=
  ⟨h.balanced.refuseClient i, h.waiting.update hfree _⟩

/-- A refusal for want of room keeps a world conserved. -/
theorem refuseTotal (h : w.Conserved) {i : ι} (hfree : w.Unlocked i) :
    (w.set i (w.quotas i).refuseTotal).Conserved :=
  ⟨h.balanced.refuseTotal i, h.waiting.update hfree _⟩

end Conserved

/-- A quota that keeps its counters leaves the others as they were too. -/
theorem untouched_set {i : ι} {q : Quota} (hused : q.used = (w.quotas i).used)
    (hheld : q.held = (w.quotas i).held) : w.Untouched (w.set i q) := by
  intro j
  by_cases hj : j = i
  · subst hj
    simp only [set, Function.update_self]
    exact ⟨hused, hheld⟩
  · simp only [set, Function.update_of_ne hj]
    exact ⟨trivial, trivial⟩

/-- Charging what passed both checks stays balanced and within every share. -/
theorem charge_granted (own : Charge ι) (h : Balanced w.quotas w.charges) {total : ℕ}
    (hpositive : 0 < own.weight)
    (hshare : (w.quotas own.quota).clientFull own.keys own.weight = false)
    (hroom : (w.quotas own.quota).totalFull total own.weight = false)
    (hfits : (w.quotas own.quota).Fits total own.weight)
    (htotal : ∀ fixed, (w.quotas own.quota).total = .fixed fixed → total = fixed) :
    Balanced (Function.update w.quotas own.quota ((w.quotas own.quota).charge own.keys own.weight))
        (own ::ₘ w.charges) ∧
      ∀ key share, (key, share) ∈ (w.quotas own.quota).shares own.keys →
        ((w.quotas own.quota).charge own.keys own.weight).amount key ≤ share := by
  obtain ⟨hle, hlt⟩ := Quota.room_of_not_totalFull hroom hfits
  constructor
  · apply h.charge own hpositive hlt
    intro fixed hfixed
    rw [← htotal fixed hfixed]
    exact hle
  · intro key share hmem
    have hsound := h.sound own.quota
    obtain ⟨-, -, hamount⟩ := Quota.charge_spec own.keys hsound hpositive hlt
    rw [hamount, if_pos (Quota.mem_keys_of_shares hmem)]
    apply Quota.share_of_not_clientFull hshare _ hmem
    intro key'
    have hwithin := hsound.within key'
    have hmax : Word.max = 2 ^ 64 - 1 := rfl
    omega

/-- A fixed total is the total now, whatever the windows. -/
theorem totalNow_fixed (q : Quota) (windows : ℕ) :
    ∀ fixed, q.total = .fixed fixed → q.totalNow windows = fixed := by
  intro fixed hfixed
  rw [Quota.totalNow, hfixed]

/-- Acquiring keeps a world conserved and answers as the quota does. -/
theorem acquire_spec (h : w.Conserved) {own : Charge ι} {windows : ℕ} (hpositive : 0 < own.weight)
    (hfree : w.Unlocked own.quota) (hfits : w.Fits (.acquire own windows)) :
    (w.acquire own windows).1.Conserved ∧
      w.Accounted (w.acquire own windows).1 (.acquire own windows) (w.acquire own windows).2 := by
  unfold acquire Quota.acquire
  by_cases hshare : (w.quotas own.quota).clientFull own.keys own.weight = true
  · rw [if_pos hshare]
    exact ⟨h.refuseClient hfree, untouched_set rfl rfl⟩
  rw [if_neg hshare]
  by_cases hroom : (w.quotas own.quota).totalFull
      ((w.quotas own.quota).totalNow windows) own.weight = true
  · rw [if_pos hroom]
    exact ⟨h.refuseTotal hfree, untouched_set rfl rfl⟩
  rw [if_neg hroom]
  rw [Bool.not_eq_true] at hshare hroom
  obtain ⟨hbalanced, hgranted⟩ := charge_granted own h.balanced hpositive hshare hroom (hfits hshare)
    (totalNow_fixed _ _)
  refine ⟨⟨?_, h.waiting.update hfree _⟩, ?_⟩
  · rw [charges_grant, Option.toList_none, Multiset.coe_nil, Multiset.zero_add]
    exact hbalanced
  · intro key share
    simp only [set, Function.update_self]
    exact hgranted key share

/-- A hold that charges no client takes nothing from one, and gives nothing back to it. -/
theorem held_charge_exempt (q : Quota) (weight : ℕ) : (q.charge .exempt weight).held = q.held := by
  rw [Quota.charge, Quota.keys_exempt]
  rfl

/-- Releasing an exempt hold leaves what the clients hold. -/
theorem held_release_exempt (q : Quota) (weight : ℕ) : (q.release .exempt weight).held = q.held := by
  rw [Quota.release, Quota.keys_exempt]
  rfl

/-- Reserving keeps a world conserved and answers as both quotas do. -/
theorem reserve_spec (h : w.Conserved) {own : Charge ι} {outer : ι} {windows outerWindows : ℕ}
    (hpositive : 0 < own.weight) (hne : own.quota ≠ outer) (hfree : w.Unlocked own.quota)
    (houter : w.Unlocked outer) (hfits : w.Fits (.reserve own outer windows outerWindows)) :
    (w.reserve own outer windows outerWindows).1.Conserved ∧
      w.Accounted (w.reserve own outer windows outerWindows).1
        (.reserve own outer windows outerWindows) (w.reserve own outer windows outerWindows).2 := by
  unfold reserve
  by_cases hshare : (w.quotas own.quota).clientFull own.keys own.weight = true
  · rw [if_pos hshare]
    exact ⟨h.refuseClient hfree, untouched_set rfl rfl⟩
  rw [if_neg hshare]
  unfold Quota.acquire
  -- an exempt hold has no share to pass
  have hexempt : (w.quotas outer).clientFull .exempt own.weight = false := rfl
  rw [if_neg (by rw [hexempt]; exact Bool.false_ne_true)]
  by_cases hroom : (w.quotas outer).totalFull
      ((w.quotas outer).totalNow outerWindows) own.weight = true
  · rw [if_pos hroom]
    exact ⟨h.refuseTotal houter, untouched_set rfl rfl⟩
  rw [if_neg hroom]
  rw [Bool.not_eq_true] at hshare hroom
  set p : Pending ι := ⟨own, (w.quotas own.quota).totalNow windows, outer⟩ with hp
  obtain ⟨hbalanced, -⟩ := charge_granted p.linked h.balanced hpositive hexempt hroom
    (hfits hshare) (totalNow_fixed _ _)
  refine ⟨⟨?_, ?_⟩, ?_⟩
  · rw [charges_reserve]
    exact hbalanced
  rotate_left
  · intro i
    constructor
    · rw [h.balanced.used i, Nat.add_comm]
      have hused := hbalanced.used i
      rw [usedBy_cons] at hused
      exact hused.symm
    · simp only [set]
      by_cases hi : i = outer
      · subst hi
        rw [Function.update_self, held_charge_exempt]
      · rw [Function.update_of_ne hi]
  · apply (h.waiting.update houter _).cons hpositive
    · simp only [hp, Function.update_of_ne hne]
      exact hshare
    · simp only [hp, Function.update_of_ne hne]
      exact totalNow_fixed _ _
    · exact hfree

/-- Refusing changes what is used alone. -/
theorem held_settle_refused (w : World ι) (p : Pending ι) (i : ι) :
    (Function.update (Function.update w.quotas p.own.quota (w.quotas p.own.quota).refuseTotal)
      p.outer ((Function.update w.quotas p.own.quota (w.quotas p.own.quota).refuseTotal p.outer).release
        .exempt p.own.weight) i).held = (w.quotas i).held := by
  have hrefused := fun j => (untouched_set (w := w) (i := p.own.quota)
    (q := (w.quotas p.own.quota).refuseTotal) rfl rfl j).2
  by_cases hi : i = p.outer
  · subst hi
    rw [Function.update_self, held_release_exempt]
    exact hrefused p.outer
  · rw [Function.update_of_ne hi]
    exact hrefused i

/-- Settling keeps a world conserved and answers as the inner quota does. -/
theorem settle_spec (h : w.Conserved) {p : Pending ι} (hp : p ∈ w.pending)
    (hfree : (w.quotas p.own.quota).totalFull p.total p.own.weight → w.Unlocked p.outer)
    (hfits : w.Fits (.settle p)) :
    (w.settle p).1.Conserved ∧ w.Accounted (w.settle p).1 (.settle p) (w.settle p).2 := by
  have hcharges := charges_settle hp
  obtain ⟨hwaiting, hlock⟩ := h.waiting.erase hp
  unfold settle
  by_cases hroom : (w.quotas p.own.quota).totalFull p.total p.own.weight = true
  · simp only [if_pos hroom]
    have hbalanced := h.balanced.refuseTotal p.own.quota
    rw [hcharges] at hbalanced
    have hreleased := hbalanced.release
    refine ⟨⟨hreleased, ?_⟩, ?_⟩
    · apply (hwaiting.update hlock _).update
      intro p' hp'
      exact hfree hroom p' (List.mem_of_mem_erase hp')
    · intro i
      constructor
      · have husedBy := h.balanced.used i
        rw [hcharges, usedBy_cons, Nat.add_comm] at husedBy
        have hused := hreleased.used i
        rw [husedBy, ← hused]
        rfl
      · exact held_settle_refused w p i
  · simp only [if_neg hroom]
    rw [Bool.not_eq_true] at hroom
    obtain ⟨hbalanced, hgranted⟩ := charge_granted p.own h.balanced (h.waiting.positive p hp)
      (h.waiting.share p hp) hroom hfits (h.waiting.total p hp)
    refine ⟨⟨?_, hwaiting.update hlock _⟩, ?_⟩
    · rw [charges_grant]
      rw [hcharges] at hbalanced
      exact hbalanced
    · intro key share
      simp only [set, Function.update_self]
      exact hgranted key share

/-- Dropping a hold keeps a world conserved. -/
theorem drop_spec (h : w.Conserved) {hold : Hold ι} (hhold : hold ∈ w.live)
    (hfree : w.Unlocked hold.own.quota) : (w.drop hold).1.Conserved := by
  have hbalanced := h.balanced
  rw [charges_drop hhold] at hbalanced
  exact ⟨hbalanced.release, h.waiting.update hfree _⟩

/-- **One step** of any thread keeps the balance. -/
theorem step_spec (h : w.Conserved) {a : Action ι} (hfits : w.Fits a) {outcomes : List (Outcome ι)}
    (hstep : w.step a = some (w', outcomes)) :
    w'.Conserved ∧ ∀ outcome ∈ outcomes, w.Accounted w' a outcome := by
  cases a with
  | acquire own windows =>
    simp only [step, Option.ite_none_right_eq_some, Option.some.injEq, Prod.mk.injEq] at hstep
    obtain ⟨⟨hpositive, hfree⟩, rfl, rfl⟩ := hstep
    rw [List.forall_mem_singleton]
    exact acquire_spec h hpositive hfree hfits
  | reserve own outer windows outerWindows =>
    simp only [step, Option.ite_none_right_eq_some, Option.some.injEq, Prod.mk.injEq] at hstep
    obtain ⟨⟨hpositive, hne, hfree, houter⟩, rfl, rfl⟩ := hstep
    rw [List.forall_mem_singleton]
    exact reserve_spec h hpositive hne hfree houter hfits
  | settle p =>
    simp only [step, Option.ite_none_right_eq_some, Option.some.injEq, Prod.mk.injEq] at hstep
    obtain ⟨⟨hp, hfree⟩, rfl, rfl⟩ := hstep
    rw [List.forall_mem_singleton]
    exact settle_spec h hp hfree hfits
  | drop hold =>
    simp only [step, Option.ite_none_right_eq_some, Option.some.injEq, Prod.mk.injEq] at hstep
    obtain ⟨⟨hhold, hfree⟩, rfl, rfl⟩ := hstep
    rw [List.forall_mem_singleton]
    exact ⟨drop_spec h hhold hfree, trivial⟩

/-- A world of new quotas is conserved. -/
theorem conserved_start {quotas : ι → Quota}
    (hnew : ∀ i, ∃ total share exempt, quotas i = .with_ total share exempt) :
    (start quotas).Conserved := by
  have hzero : ∀ i, (quotas i).used = 0 ∧ (quotas i).held = ∅ := by
    intro i
    obtain ⟨total, share, exempt, hq⟩ := hnew i
    rw [hq]
    exact ⟨rfl, rfl⟩
  refine ⟨⟨fun i => (hzero i).1, fun i key => ?_, fun i key => ?_, fun i total _ => ?_, fun i => ?_⟩,
    ⟨List.forall_mem_nil _, List.forall_mem_nil _, List.forall_mem_nil _, List.nodup_nil⟩⟩
  · simp only [start, Quota.amount, (hzero i).2]
    rfl
  · simp only [start, (hzero i).2]
    exact fun heq => by cases heq
  · simp only [start, (hzero i).1]
    exact Nat.zero_le _
  · simp only [start, (hzero i).1]
    decide

/-- An `acquire_within` that is refused at its own total leaves what it found. -/
theorem untouched_of_refused {w₁ w₂ : World ι} {p : Pending ι} (hreserved : w₁.GaveBack p w)
    (hrefused : w₁.GaveBack p w₂) : w.Untouched w₂ := by
  intro i
  constructor
  · exact Nat.add_right_cancel ((hrefused i).1.trans (hreserved i).1.symm)
  · exact (hrefused i).2.trans (hreserved i).2.symm

/-- **Conservation**: in every run of any threads over any quotas whose sums fit, each quota holds what
is charged to it, in all and by key, and stays within a fixed total. What any next action comes to is
accounted for, and an `acquire_within` refused after it charged the outer quota leaves all as it was. -/
theorem conserves {quotas : ι → Quota}
    (hnew : ∀ i, ∃ total share exempt, quotas i = .with_ total share exempt)
    {actions : List (Action ι)} {log : List (Outcome ι)}
    (hrun : Machine.run step (start quotas) actions = some (w, log))
    (hfit : Machine.Fit Fits step (start quotas) actions) :
    Balanced w.quotas w.charges ∧
      (∀ a w' outcomes, w.Fits a → w.step a = some (w', outcomes) →
        ∀ outcome ∈ outcomes, w.Accounted w' a outcome) ∧
      ∀ own outer windows outerWindows p full w₁ w₂,
        w.Fits (.reserve own outer windows outerWindows) → w₁.Fits (.settle p) →
        w.step (.reserve own outer windows outerWindows) = some (w₁, [.reserved p]) →
        w₁.step (.settle p) = some (w₂, [.refused full]) → w.Untouched w₂ := by
  have hinv : w.Conserved := Machine.run_keeps_of_fit Conserved
    (fun _ _ _ _ h hfits hstep => (step_spec h hfits hstep).1) (conserved_start hnew) hfit hrun
  refine ⟨hinv.balanced, ?_, ?_⟩
  · intro a w' outcomes hfits hstep
    exact (step_spec hinv hfits hstep).2
  · intro own outer windows outerWindows p full w₁ w₂ hfits hfits₁ hreserve hsettle
    obtain ⟨hinv₁, hreserved⟩ := step_spec hinv hfits hreserve
    obtain ⟨-, hrefused⟩ := step_spec hinv₁ hfits₁ hsettle
    exact untouched_of_refused (hreserved _ List.mem_cons_self) (hrefused _ List.mem_cons_self)

/-- A quota of ten within one of six, with four to a client. -/
def nested (outer : Bool) : Quota := if outer then .new 6 6 else .new 10 4

/-- An acquisition of three passes, one of two is refused, and the drop of the first leaves the hold
linked to it. -/
theorem conserves_nested :
    ((Machine.run step (start nested)
      [.reserve ⟨false, .v4 1, 3⟩ true 0 0, .settle ⟨⟨false, .v4 1, 3⟩, 10, true⟩,
        .acquire ⟨false, .v4 1, 2⟩ 0,
        .drop ⟨⟨false, .v4 1, 3⟩, some ⟨true, .exempt, 3⟩⟩]).map fun (w, log) => (w.live, log)) =
      some ([⟨⟨true, .exempt, 3⟩, none⟩], [.reserved ⟨⟨false, .v4 1, 3⟩, 10, true⟩,
        .granted ⟨false, .v4 1, 3⟩, .refused .client, .released]) ∧
    ∀ w log, Machine.run step (start nested)
      [.reserve ⟨false, .v4 1, 3⟩ true 0 0, .settle ⟨⟨false, .v4 1, 3⟩, 10, true⟩,
        .acquire ⟨false, .v4 1, 2⟩ 0,
        .drop ⟨⟨false, .v4 1, 3⟩, some ⟨true, .exempt, 3⟩⟩] = some (w, log) →
      Balanced w.quotas w.charges := by
  refine ⟨by decide, fun w log hrun => (conserves ?_ hrun ?_).1⟩
  · intro outer
    cases outer <;> exact ⟨_, _, _, rfl⟩
  · refine ⟨fun _ => ?_, ?_, fun _ => ?_, trivial, trivial⟩ <;> exact fun h => absurd h (by decide)

/-- **Two holds that come to 2⁶⁴** against a total of `usize::MAX`, the total of the handshakes: the sum
saturates, so the second passes, and `used` is back at nothing while both are held. -/
theorem unbalanced_at_max :
    ∃ w log, Machine.run step (start fun _ : Unit => .new Word.max Word.max)
      [.acquire ⟨(), .exempt, 2 ^ 63⟩ 0, .acquire ⟨(), .exempt, 2 ^ 63⟩ 0] = some (w, log) ∧
      (w.quotas ()).used = 0 ∧ usedBy () w.charges = 2 ^ 64 ∧ ¬ Balanced w.quotas w.charges := by
  refine ⟨_, _, rfl, by decide, by decide, ?_⟩
  intro h
  have hused := h.used ()
  exact absurd hused (by decide)

end World

end GraphiteMeter.Server.Limits
