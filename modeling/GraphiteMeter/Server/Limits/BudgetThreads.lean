import GraphiteMeter.Lib.Machine
import GraphiteMeter.Server.Limits.Budget
import Mathlib.Algebra.BigOperators.Group.List.Basic

/-!
# The budget under any interleaving

Reference: `rust/server/src/limits/budget.rs`.

Any number of threads take the atomic steps of their calls in any order. `reserve` counts its bytes
before it charges them and a dropped reservation counts as released after it is given back; a reader
takes the released total first and the reserved total last. So what a reader subtracts is never less
than what was reserved when it read `used`, and a torn read only lowers the pressure.
-/

namespace GraphiteMeter.Server.Limits.Budget

/-! ## Threads -/

/-- A read of the counters that is under way. `unreserved` is no part of the code: it is the use past
reservations when `used` was read. -/
inductive Reader where
  | sawReleased (released : ℕ)
  | sawUsed (released used unreserved : ℕ)
deriving DecidableEq, Repr

structure World where
  shared : Shared
  leases : List Lease
  /-- Charged apart from leases, or kept of one, and not refunded yet. -/
  charges : ℕ
  /-- Reservations counted and not charged yet. -/
  reserving : List ℕ
  /-- Reservations refused or given back, and not counted as released yet. -/
  releasing : List ℕ
  readers : List Reader
deriving DecidableEq, Repr

/-- One atomic step of some call. -/
inductive Action where
  | lease (bytes : ℕ)
  /-- `Budget::reserve` counts, and then charges. -/
  | reserve (bytes : ℕ)
  | chargeReserved (bytes : ℕ)
  | tryCharge (bytes : ℕ)
  | refund (bytes : ℕ)
  /-- `Lease::keep`, which drops what it does not keep. -/
  | keep (lease : Lease) (bytes : ℕ)
  | drop (lease : Lease)
  /-- The end of a refused `reserve` and of a reservation's drop. -/
  | release (bytes : ℕ)
  /-- The three reads of `unreserved`. -/
  | readReleased
  | readUsed (released : ℕ)
  | readReserved (released used unreserved : ℕ)
deriving DecidableEq, Repr

inductive Event where
  | charged (granted : Bool)
  /-- A read reports the limit past reservations and its use, if its subtractions do not underflow. -/
  | reported (unreserved : ℕ) (report : Option (ℕ × ℕ))
deriving DecidableEq, Repr

namespace World

def start (limit : ℕ) : World := ⟨.new limit, [], 0, [], [], []⟩

/-- What live reservations hold. -/
def reservedHeld (w : World) : ℕ := (w.leases.map fun l => if l.reserved then l.bytes else 0).sum

/-- What is held past reservations. -/
def unreservedHeld (w : World) : ℕ :=
  (w.leases.map fun l => if l.reserved then 0 else l.bytes).sum + w.charges

/-- Every live charge. -/
def held (w : World) : ℕ := (w.leases.map (·.bytes)).sum + w.charges

def step (w : World) : Action → Option (World × List Event)
  | .lease bytes =>
    match w.shared.charge bytes with
    | none => some (w, [.charged false])
    | some shared => some ({ w with shared, leases := ⟨bytes, false⟩ :: w.leases }, [.charged true])
  | .reserve bytes =>
    some ({ w with
      shared := w.shared.addReserved bytes
      reserving := bytes :: w.reserving }, [])
  | .chargeReserved bytes =>
    if bytes ∈ w.reserving then
      let w := { w with reserving := w.reserving.erase bytes }
      match w.shared.charge bytes with
      | none => some ({ w with releasing := bytes :: w.releasing }, [.charged false])
      | some shared =>
        some ({ w with shared, leases := ⟨bytes, true⟩ :: w.leases }, [.charged true])
    else none
  | .tryCharge bytes =>
    match w.shared.charge bytes with
    | none => some (w, [.charged false])
    | some shared => some ({ w with shared, charges := w.charges + bytes }, [.charged true])
  | .refund bytes =>
    if bytes ≤ w.charges then
      some ({ w with shared := w.shared.giveBack bytes, charges := w.charges - bytes }, [])
    else none
  | .keep lease bytes =>
    -- `keep` asserts that its lease is no reservation
    if lease ∈ w.leases ∧ lease.reserved = false ∧ bytes ≤ lease.bytes then
      some ({ w with
        shared := w.shared.giveBack (lease.bytes - bytes)
        leases := w.leases.erase lease
        charges := w.charges + bytes }, [])
    else none
  | .drop lease =>
    if lease ∈ w.leases then
      some ({ w with
        shared := w.shared.giveBack lease.bytes
        leases := w.leases.erase lease
        releasing := if lease.reserved then lease.bytes :: w.releasing else w.releasing }, [])
    else none
  | .release bytes =>
    if bytes ∈ w.releasing then
      some ({ w with
        shared := w.shared.addReleased bytes
        releasing := w.releasing.erase bytes }, [])
    else none
  | .readReleased => some ({ w with readers := .sawReleased w.shared.released :: w.readers }, [])
  | .readUsed released =>
    if .sawReleased released ∈ w.readers then
      some ({ w with
        readers := .sawUsed released w.shared.used w.unreservedHeld ::
          w.readers.erase (.sawReleased released) }, [])
    else none
  | .readReserved released used unreserved =>
    if .sawUsed released used unreserved ∈ w.readers then
      some ({ w with readers := w.readers.erase (.sawUsed released used unreserved) },
        [.reported unreserved (Budget.unreserved w.shared.limit released used w.shared.reserved)])
    else none

end World

/-! ## The invariant -/

/-- What a read under way has seen is not past what the counters now hold. -/
def Reader.Sound (b : Shared) : Reader → Prop
  | .sawReleased released => released ≤ b.released
  | .sawUsed released used unreserved =>
    used ≤ b.limit ∧ ∃ reserved, used = unreserved + reserved ∧ released + reserved ≤ b.reserved

/-- A read stays sound while the totals grow. -/
theorem Reader.Sound.mono {b b' : Shared} {r : Reader} (h : r.Sound b) (hlimit : b'.limit = b.limit)
    (hreleased : b.released ≤ b'.released) (hreserved : b.reserved ≤ b'.reserved) : r.Sound b' := by
  cases r with
  | sawReleased released => exact h.trans hreleased
  | sawUsed released used unreserved =>
    obtain ⟨hfits, reserved, hused, hle⟩ := h
    exact ⟨hlimit ▸ hfits, reserved, hused, hle.trans hreserved⟩

namespace World

variable {w w' : World}

/-- The invariant: `used` is every live charge, within the limit, and a reservation is counted from
before its charge until after it is given back. -/
structure Sound (w : World) : Prop where
  used : w.shared.used = w.held
  fits : w.shared.used ≤ w.shared.limit
  reserved : w.shared.reserved =
    w.shared.released + w.reserving.sum + w.releasing.sum + w.reservedHeld
  small : w.shared.reserved < 2 ^ 64
  readers : ∀ r ∈ w.readers, r.Sound w.shared

/-- All that is held is reserved or not. -/
theorem held_eq (w : World) : w.held = w.unreservedHeld + w.reservedHeld := by
  have hsum : ∀ leases : List Lease, (leases.map (·.bytes)).sum =
      (leases.map fun l => if l.reserved then 0 else l.bytes).sum +
        (leases.map fun l => if l.reserved then l.bytes else 0).sum := by
    intro leases
    rw [← List.sum_map_add]
    congr 1
    apply List.map_congr_left
    intro l _
    split <;> simp
  rw [held, unreservedHeld, reservedHeld, hsum]
  omega

/-- Reservations stay below what the counter holds. -/
def Fits (w : World) : Action → Prop
  | .reserve bytes => w.shared.reserved + bytes < 2 ^ 64
  | _ => True

/-- Charging for a lease, a reservation or apart from both. -/
theorem Sound.charge (h : w.Sound) {bytes : ℕ} {shared : Shared}
    (hcharge : w.shared.charge bytes = some shared) (hshared : w'.shared = shared)
    (hheld : w'.held = w.held + bytes)
    (hreserved : w'.reserving.sum + w'.releasing.sum + w'.reservedHeld =
      w.reserving.sum + w.releasing.sum + w.reservedHeld)
    (hreaders : w'.readers = w.readers) : w'.Sound := by
  obtain ⟨-, hle, rfl⟩ := Shared.charge_eq_some.mp hcharge
  have hused := h.used
  have htotal := h.reserved
  have hsmall := h.small
  constructor
  · rw [hshared, hheld]
    exact congrArg (· + bytes) hused
  · rw [hshared]
    exact hle
  · rw [hshared]
    dsimp only
    omega
  · rw [hshared]
    exact hsmall
  · rw [hshared, hreaders]
    intro r hr
    exact (h.readers r hr).mono rfl le_rfl le_rfl

/-- Giving back what is held. -/
theorem Sound.giveBack (h : w.Sound) {bytes : ℕ} (hshared : w'.shared = w.shared.giveBack bytes)
    (hheld : w'.held + bytes = w.held)
    (hreserved : w'.reserving.sum + w'.releasing.sum + w'.reservedHeld =
      w.reserving.sum + w.releasing.sum + w.reservedHeld)
    (hreaders : w'.readers = w.readers) : w'.Sound := by
  have hused := h.used
  have hfits := h.fits
  have htotal := h.reserved
  have hgiven : (w.shared.giveBack bytes).used = w.shared.used - bytes :=
    Shared.used_giveBack (by omega)
  constructor
  · rw [hshared, hgiven]
    omega
  · rw [hshared, hgiven]
    exact (Nat.sub_le _ _).trans hfits
  · rw [hshared]
    show w.shared.reserved = w.shared.released + _ + _ + _
    omega
  · rw [hshared]
    exact h.small
  · rw [hshared, hreaders]
    intro r hr
    exact (h.readers r hr).mono rfl le_rfl le_rfl

/-- Counting a reservation or its release. -/
theorem Sound.count (h : w.Sound) (hlimit : w'.shared.limit = w.shared.limit)
    (hused : w'.shared.used = w.shared.used) (hheld : w'.held = w.held)
    (hreserved : w'.shared.reserved =
      w'.shared.released + w'.reserving.sum + w'.releasing.sum + w'.reservedHeld)
    (hsmall : w'.shared.reserved < 2 ^ 64) (hreleased : w.shared.released ≤ w'.shared.released)
    (hmore : w.shared.reserved ≤ w'.shared.reserved) (hreaders : w'.readers = w.readers) :
    w'.Sound := by
  refine ⟨?_, ?_, hreserved, hsmall, ?_⟩
  · rw [hused, hheld]
    exact h.used
  · rw [hused, hlimit]
    exact h.fits
  · rw [hreaders]
    intro r hr
    exact (h.readers r hr).mono hlimit hreleased hmore

/-- What a read reports never underflows, nor is it more than the use past reservations it saw. -/
theorem unreserved_le {b : Shared} {released used unreserved : ℕ}
    (h : (Reader.sawUsed released used unreserved).Sound b) :
    ∃ limit' used', Budget.unreserved b.limit released used b.reserved = some (limit', used') ∧
      used' ≤ unreserved := by
  obtain ⟨hfits, reserved, hused, hle⟩ := h
  have hsub : Word.wrappingSub b.reserved released = b.reserved - released :=
    Word.wrappingSub_of_le (by omega)
  unfold Budget.unreserved
  rw [hsub]
  have hlimit : Word.checkedSub b.limit (min (b.reserved - released) used) =
      some (b.limit - min (b.reserved - released) used) := Word.checkedSub_eq_some.mpr ⟨by omega, rfl⟩
  have hrest : Word.checkedSub used (min (b.reserved - released) used) =
      some (used - min (b.reserved - released) used) := Word.checkedSub_eq_some.mpr ⟨by omega, rfl⟩
  simp only [hlimit, hrest]
  exact ⟨_, _, rfl, by omega⟩

/-- What a step logs of the reads is what they may report. -/
def Reported (events : List Event) : Prop :=
  ∀ unreserved report, .reported unreserved report ∈ events →
    ∃ limit used, report = some (limit, used) ∧ used ≤ unreserved

/-- A lease and the others. -/
theorem leases_erase {leases : List Lease} {lease : Lease} (h : lease ∈ leases) (f : Lease → ℕ) :
    f lease + ((leases.erase lease).map f).sum = (leases.map f).sum :=
  List.sum_map_erase f h

/-- Leasing keeps the world sound and reports what was there. -/
theorem step_lease (h : w.Sound) {bytes : ℕ} {events : List Event}
    (hstep : w.step (.lease bytes) = some (w', events)) : w'.Sound ∧ Reported events := by
  simp only [step] at hstep
  split at hstep
  · cases hstep
    exact ⟨h, by simp [Reported]⟩
  · rename_i shared hcharge
    cases hstep
    refine ⟨h.charge hcharge rfl ?_ ?_ rfl, by simp [Reported]⟩
    · simp only [held, List.map_cons, List.sum_cons]
      omega
    · simp [reservedHeld]

/-- Charging the reserve keeps the world sound and reports what was there. -/
theorem step_chargeReserved (h : w.Sound) {bytes : ℕ} {events : List Event}
    (hstep : w.step (.chargeReserved bytes) = some (w', events)) : w'.Sound ∧ Reported events := by
  simp only [step, Option.ite_none_right_eq_some] at hstep
  obtain ⟨hmem, hstep⟩ := hstep
  have hsum := List.sum_erase hmem
  have htotal := h.reserved
  split at hstep
  · cases hstep
    refine ⟨h.count rfl rfl rfl ?_ h.small le_rfl le_rfl rfl, by simp [Reported]⟩
    show w.shared.reserved = _ + _ + (bytes :: w.releasing).sum + w.reservedHeld
    rw [List.sum_cons]
    dsimp only
    omega
  · rename_i shared hcharge
    cases hstep
    refine ⟨h.charge hcharge rfl ?_ ?_ rfl, by simp [Reported]⟩
    · simp only [held, List.map_cons, List.sum_cons]
      omega
    · simp only [reservedHeld, List.map_cons, List.sum_cons, if_true]
      omega

/-- Keeping part of a lease keeps the world sound and reports what was there. -/
theorem step_keep (h : w.Sound) {lease : Lease} {bytes : ℕ} {events : List Event}
    (hstep : w.step (.keep lease bytes) = some (w', events)) : w'.Sound ∧ Reported events := by
  simp only [step, Option.ite_none_right_eq_some, Option.some.injEq, Prod.mk.injEq] at hstep
  obtain ⟨⟨hmem, hreserved, hle⟩, rfl, rfl⟩ := hstep
  refine ⟨h.giveBack rfl ?_ ?_ rfl, nofun⟩
  · have herase := leases_erase hmem (·.bytes)
    simp only [held]
    omega
  · have herase := leases_erase hmem fun l => if l.reserved then l.bytes else 0
    simp only [hreserved, Bool.false_eq_true, if_false] at herase
    simp only [reservedHeld]
    omega

/-- Dropping a lease keeps the world sound and reports what was there. -/
theorem step_drop (h : w.Sound) {lease : Lease} {events : List Event}
    (hstep : w.step (.drop lease) = some (w', events)) : w'.Sound ∧ Reported events := by
  simp only [step, Option.ite_none_right_eq_some, Option.some.injEq, Prod.mk.injEq] at hstep
  obtain ⟨hmem, rfl, rfl⟩ := hstep
  refine ⟨h.giveBack rfl ?_ ?_ rfl, nofun⟩
  · have herase := leases_erase hmem (·.bytes)
    simp only [held]
    omega
  · have herase := leases_erase hmem fun l => if l.reserved then l.bytes else 0
    simp only [reservedHeld]
    by_cases hreserved : lease.reserved = true
    · simp only [hreserved, if_true, List.sum_cons] at herase ⊢
      omega
    · simp only [hreserved, if_false, Bool.false_eq_true] at herase ⊢
      omega

/-- **One atomic step** of any thread. -/
theorem step_sound (h : w.Sound) {a : Action} (hfits : w.Fits a) {events : List Event}
    (hstep : w.step a = some (w', events)) : w'.Sound ∧ Reported events := by
  cases a with
  | lease bytes => exact step_lease h hstep
  | chargeReserved bytes => exact step_chargeReserved h hstep
  | keep lease bytes => exact step_keep h hstep
  | drop lease => exact step_drop h hstep
  | reserve bytes =>
    cases hstep
    have hadd : Word.wrappingAdd w.shared.reserved bytes = w.shared.reserved + bytes :=
      Word.wrappingAdd_of_lt hfits
    have htotal := h.reserved
    refine ⟨h.count rfl rfl rfl ?_ ?_ le_rfl ?_ rfl, nofun⟩
    · show Word.wrappingAdd w.shared.reserved bytes = w.shared.released + _ + _ + w.reservedHeld
      rw [hadd, List.sum_cons]
      dsimp only
      omega
    · show Word.wrappingAdd w.shared.reserved bytes < 2 ^ 64
      rw [hadd]
      exact hfits
    · show w.shared.reserved ≤ Word.wrappingAdd w.shared.reserved bytes
      rw [hadd]
      exact Nat.le_add_right _ _
  | tryCharge bytes =>
    simp only [step] at hstep
    split at hstep
    · cases hstep
      exact ⟨h, by simp [Reported]⟩
    · rename_i shared hcharge
      cases hstep
      exact ⟨h.charge hcharge rfl (Nat.add_assoc _ _ _).symm rfl rfl, by simp [Reported]⟩
  | refund bytes =>
    simp only [step, Option.ite_none_right_eq_some, Option.some.injEq, Prod.mk.injEq] at hstep
    obtain ⟨hle, rfl, rfl⟩ := hstep
    refine ⟨h.giveBack rfl ?_ rfl rfl, nofun⟩
    simp only [held]
    omega
  | release bytes =>
    simp only [step, Option.ite_none_right_eq_some, Option.some.injEq, Prod.mk.injEq] at hstep
    obtain ⟨hmem, rfl, rfl⟩ := hstep
    have hsum := List.sum_erase hmem
    have htotal := h.reserved
    have hsmall := h.small
    have hadd : Word.wrappingAdd w.shared.released bytes = w.shared.released + bytes :=
      Word.wrappingAdd_of_lt (by omega)
    refine ⟨h.count rfl rfl rfl ?_ hsmall ?_ le_rfl rfl, nofun⟩
    · show w.shared.reserved = Word.wrappingAdd w.shared.released bytes + _ + _ + w.reservedHeld
      rw [hadd]
      dsimp only
      omega
    · show w.shared.released ≤ Word.wrappingAdd w.shared.released bytes
      rw [hadd]
      exact Nat.le_add_right _ _
  | readReleased =>
    cases hstep
    refine ⟨⟨h.used, h.fits, h.reserved, h.small, ?_⟩, nofun⟩
    exact List.forall_mem_cons.mpr ⟨le_rfl, h.readers⟩
  | readUsed released =>
    simp only [step, Option.ite_none_right_eq_some, Option.some.injEq, Prod.mk.injEq] at hstep
    obtain ⟨hmem, rfl, rfl⟩ := hstep
    -- what was released since the first read only makes the report smaller
    have hreleased : released ≤ w.shared.released := h.readers _ hmem
    have hheld := h.used.trans w.held_eq
    have htotal := h.reserved
    have hle : released + w.reservedHeld ≤ w.shared.reserved := by omega
    refine ⟨⟨h.used, h.fits, h.reserved, h.small, ?_⟩, nofun⟩
    intro r hr
    rcases List.mem_cons.mp hr with rfl | hr
    · exact ⟨h.fits, w.reservedHeld, hheld, hle⟩
    · exact h.readers r (List.mem_of_mem_erase hr)
  | readReserved released used unreserved =>
    simp only [step, Option.ite_none_right_eq_some, Option.some.injEq, Prod.mk.injEq] at hstep
    obtain ⟨hmem, rfl, rfl⟩ := hstep
    refine ⟨⟨h.used, h.fits, h.reserved, h.small, ?_⟩, ?_⟩
    · intro r hr
      exact h.readers r (List.mem_of_mem_erase hr)
    · intro unreserved' report hreport
      cases List.mem_singleton.mp hreport
      exact unreserved_le (h.readers _ hmem)

/-! ## Every run -/

/-- A new world is sound. -/
theorem sound_start (limit : ℕ) : (start limit).Sound :=
  ⟨rfl, Nat.zero_le _, rfl, Nat.two_pow_pos 64, nofun⟩

/-- All that is ever reserved. -/
def reservations (actions : List Action) : ℕ :=
  (actions.map fun
    | .reserve bytes => bytes
    | _ => 0).sum

/-- A charge counts no reservation. -/
theorem reserved_charge {b b' : Shared} {bytes : ℕ} (h : b.charge bytes = some b') :
    b'.reserved = b.reserved ∧ b'.limit = b.limit := by
  obtain ⟨-, -, rfl⟩ := Shared.charge_eq_some.mp h
  exact ⟨rfl, rfl⟩

/-- Only a reservation counts as reserved. -/
theorem reserved_step {a : Action} {events : List Event} (hfits : w.Fits a)
    (hstep : w.step a = some (w', events)) :
    w'.shared.reserved = w.shared.reserved + reservations [a] ∧
      w'.shared.limit = w.shared.limit := by
  cases a with
  | reserve bytes =>
    cases hstep
    exact ⟨Word.wrappingAdd_of_lt hfits, rfl⟩
  | lease bytes =>
    simp only [step] at hstep
    split at hstep
    · cases hstep
      exact ⟨rfl, rfl⟩
    · rename_i shared hcharge
      cases hstep
      exact reserved_charge hcharge
  | tryCharge bytes =>
    simp only [step] at hstep
    split at hstep
    · cases hstep
      exact ⟨rfl, rfl⟩
    · rename_i shared hcharge
      cases hstep
      exact reserved_charge hcharge
  | chargeReserved bytes =>
    simp only [step, Option.ite_none_right_eq_some] at hstep
    obtain ⟨-, hstep⟩ := hstep
    split at hstep
    · cases hstep
      exact ⟨rfl, rfl⟩
    · rename_i shared hcharge
      cases hstep
      exact reserved_charge hcharge
  | readReleased =>
    cases hstep
    exact ⟨rfl, rfl⟩
  | _ =>
    simp only [step, Option.ite_none_right_eq_some, Option.some.injEq, Prod.mk.injEq] at hstep
    obtain ⟨-, rfl, -⟩ := hstep
    exact ⟨rfl, rfl⟩

/-- Reservations that come to less than the counter holds never wrap it. -/
theorem fits_of_reservations {actions : List Action}
    (h : w.shared.reserved + reservations actions < 2 ^ 64) :
    Machine.Fit Fits step w actions := by
  induction actions generalizing w with
  | nil => trivial
  | cons a actions ih =>
    have hsum : reservations (a :: actions) = reservations [a] + reservations actions := by
      simp [reservations]
    have hfits : w.Fits a := by
      cases a with
      | reserve bytes =>
        show w.shared.reserved + bytes < 2 ^ 64
        simp only [reservations, List.map_cons, List.sum_cons] at h
        omega
      | _ => trivial
    refine ⟨hfits, ?_⟩
    split
    · trivial
    · rename_i u events hstep
      apply ih
      rw [(reserved_step hfits hstep).1]
      omega

/-- What is held may be given back. -/
theorem le_held : (∀ lease ∈ w.leases, lease.bytes ≤ w.held) ∧ w.charges ≤ w.held := by
  constructor
  · intro lease hlease
    have herase := leases_erase hlease (·.bytes)
    rw [held]
    omega
  · exact Nat.le_add_left _ _

/-- **The budget under concurrency**: in every interleaving of the atomic steps of any calls, `used` is
the sum of the live charges and within the limit, no charge given back underflows it, and every read of
the counters reports, without underflow, no more than the use past reservations when it read
`used`. -/
theorem budget_holds {limit : ℕ} {actions : List Action} {log : List Event}
    (hreservations : reservations actions < 2 ^ 64)
    (hrun : Machine.run step (start limit) actions = some (w, log)) :
    w.shared.used = w.held ∧ w.shared.used ≤ limit ∧
      ((∀ lease ∈ w.leases, lease.bytes ≤ w.shared.used) ∧ w.charges ≤ w.shared.used) ∧
      ∀ unreserved report, .reported unreserved report ∈ log →
        ∃ limit used, report = some (limit, used) ∧ used ≤ unreserved := by
  have hfit : Machine.Fit Fits step (start limit) actions :=
    fits_of_reservations (by rw [start, Shared.new, Nat.zero_add]; exact hreservations)
  obtain ⟨hsound, hlimit, hreported⟩ := Machine.run_induct_of_fit
    (fun log w => w.Sound ∧ w.shared.limit = limit ∧ Reported log)
    (by
      rintro log s a t events ⟨hs, hlimit, hlog⟩ hfits hstep
      obtain ⟨ht, hevents⟩ := step_sound hs hfits hstep
      refine ⟨ht, (reserved_step hfits hstep).2.trans hlimit, ?_⟩
      intro unreserved report hmem
      rcases List.mem_append.mp hmem with hmem | hmem
      · exact hlog unreserved report hmem
      · exact hevents unreserved report hmem)
    [] ⟨sound_start limit, rfl, nofun⟩ hfit hrun
  refine ⟨hsound.used, hlimit ▸ hsound.fits, ?_, hreported⟩
  rw [hsound.used]
  exact le_held

/-- A read begins, a reservation of 900 comes and goes, and the read ends: it reports nothing of the 50
in use past it, since the reservation was counted when it read the last total. -/
def torn : List Action :=
  [.lease 50, .readReleased, .reserve 900, .chargeReserved 900, .readUsed 0, .drop ⟨900, true⟩,
    .release 900, .reserve 900, .chargeReserved 900, .readReserved 0 950 50]

/-- Charges, a drop and a release between the reads of a report. -/
theorem budget_holds_torn :
    (Machine.run step (start 1000) torn).map (·.2) =
      some [.charged true, .charged true, .charged true, .reported 50 (some (50, 0))] ∧
    ∀ w log, Machine.run step (start 1000) torn = some (w, log) →
      w.shared.used = w.held ∧ w.shared.used ≤ 1000 :=
  ⟨by decide, fun w log hrun =>
    have h := budget_holds (by decide) hrun
    ⟨h.1, h.2.1⟩⟩

end World

end GraphiteMeter.Server.Limits.Budget
