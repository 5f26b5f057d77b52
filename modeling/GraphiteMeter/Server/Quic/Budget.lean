import GraphiteMeter.Lib.Machine
import GraphiteMeter.Server.Limits.Budget
import Mathlib.Algebra.BigOperators.Group.List.Basic

/-!
# A connection's share of the buffer budget

Reference: `rust/server/src/transport/quic/budget.rs` (`Held`, `ConnectionBudget`).

A QUIC connection holds its floor of the budget, and while funded uploads read on it a credit that its
charges draw before they overdraw. What is refunded repays the overdraft first. The credit goes back
when the last upload stops reading, and what was drawn of it turns into overdraft.

Each function is what its call does under the connection's lock; `refund` gives back to the shared
budget after it, so other calls may come between. A subtraction that would underflow gives `none`.
-/

namespace GraphiteMeter.Server.Quic

open Limits.Budget (Shared Lease)

/-- The receive credit a funded QUIC connection holds past its floor: a window of 48 MiB less its floor
of 64 KiB. -/
def connectionCredit : ℕ := 48 * 2 ^ 20 - 64 * 2 ^ 10

/-- The client's share that comes with the credit is held and dropped with it. -/
structure Held where
  credit : Option Lease
  undrawn : ℕ
  overdraft : ℕ
  /-- Admitted uploads reading on the connection, funded or not. -/
  readers : ℕ
deriving DecidableEq, Repr

namespace Held

def empty : Held := ⟨none, 0, 0, 0⟩

/-- Reserves the credit, from the budget and the client's share, which `share` says is had; whether it
is reserved. -/
def reserve (held : Held) (b : Shared) (share : Bool) : Held × Shared × Bool :=
  if held.credit.isNone ∧ share then
    match b.charge connectionCredit with
    | none => (held, b, held.credit.isSome)
    | some b =>
      ({ held with
          undrawn := held.undrawn + connectionCredit
          credit := some ⟨connectionCredit, false⟩ }, b, true)
  else (held, b, held.credit.isSome)

/-- `Lease::keep`: gives back the lease but for `bytes`. -/
def keep (credit : Lease) (b : Shared) (bytes : ℕ) : Option Shared := do
  let rest ← Word.checkedSub credit.bytes bytes
  return b.giveBack rest

/-- An admitted upload began or stopped reading; whether the last to stop returned the credit, keeping
what it drew. -/
def reading (held : Held) (b : Shared) (reading : Bool) : Option (Held × Shared × Bool) :=
  if reading then some ({ held with readers := held.readers + 1 }, b, false)
  else do
    let readers ← Word.checkedSub held.readers 1
    if 0 < readers then some ({ held with readers }, b, false)
    else
      match held.credit with
      | none => some ({ held with readers }, b, false)
      | some credit => do
        let drawn ← Word.checkedSub connectionCredit held.undrawn
        let b ← keep credit b drawn
        return (⟨none, 0, held.overdraft + drawn, readers⟩, b, true)

/-- Charges the credit, and the shared budget past it; whether both fit. -/
def tryCharge (held : Held) (b : Shared) (bytes : ℕ) : Option (Held × Shared × Bool) := do
  let credit := min held.undrawn bytes
  let past ← Word.checkedSub bytes credit
  let charged := if credit < bytes then b.charge past else some b
  match charged with
  | none => return (held, b, false)
  | some b =>
    let undrawn ← Word.checkedSub held.undrawn credit
    return ({ held with undrawn, overdraft := held.overdraft + past }, b, true)

/-- Repays the overdraft and then the credit. Gives what the shared budget gets back after it. -/
def refund (held : Held) (bytes : ℕ) : Option (Held × ℕ) := do
  let overdraft := min held.overdraft bytes
  let rest ← Word.checkedSub bytes overdraft
  let left ← Word.checkedSub held.overdraft overdraft
  return ({ held with overdraft := left, undrawn := held.undrawn + rest }, overdraft)

/-! ## What each call does to the amounts -/

/-- Drawn of the credit. -/
def drawn (held : Held) : ℕ := if held.credit.isSome then connectionCredit - held.undrawn else 0

/-- What the credit has of the shared budget. -/
def funded (held : Held) : ℕ := if held.credit.isSome then connectionCredit else 0

/-- The credit is whole, and none of it is left undrawn without it. -/
structure Sound (held : Held) : Prop where
  credit : ∀ lease, held.credit = some lease → lease = ⟨connectionCredit, false⟩
  undrawn : held.undrawn ≤ connectionCredit
  none : held.credit = none → held.undrawn = 0

variable {held held' : Held} {b b' : Shared} {granted : Bool}

/-- Reserving charges the budget for what it grants. -/
theorem reserve_spec (h : held.Sound) {share : Bool}
    (hreserve : held.reserve b share = (held', b', granted)) :
    held'.Sound ∧ held'.overdraft + held'.drawn = held.overdraft + held.drawn ∧
      b'.used + (held.overdraft + held.funded) = b.used + (held'.overdraft + held'.funded) ∧
      granted = held'.credit.isSome := by
  unfold reserve at hreserve
  split at hreserve
  · rename_i hnone
    have hcredit : held.credit = .none := Option.isNone_iff_eq_none.mp hnone.1
    split at hreserve
    · cases hreserve
      exact ⟨h, rfl, rfl, rfl⟩
    · rename_i hcharge
      obtain ⟨-, -, rfl⟩ := Shared.charge_eq_some.mp hcharge
      cases hreserve
      have hundrawn := h.none hcredit
      refine ⟨⟨?_, ?_, nofun⟩, ?_, ?_, rfl⟩
      · rintro lease ⟨⟩
        rfl
      · rw [hundrawn, Nat.zero_add]
      · simp [drawn, hcredit, hundrawn]
      · simp only [funded, hcredit, Option.isSome_none, Option.isSome_some, if_true,
          Bool.false_eq_true, if_false]
        omega
  · cases hreserve
    exact ⟨h, rfl, rfl, rfl⟩

/-- The last upload to stop reading hands back what the connection did not draw. -/
theorem return_spec (h : held.Sound) {lease : Lease} (hcredit : held.credit = some lease)
    (hused : held.overdraft + held.funded ≤ b.used) :
    ∃ drawn, Word.checkedSub connectionCredit held.undrawn = some drawn ∧ drawn = held.drawn ∧
      keep lease b drawn = some (b.giveBack held.undrawn) ∧
      (b.giveBack held.undrawn).used + (held.overdraft + held.funded) =
        b.used + (held.overdraft + drawn) := by
  have hundrawn := h.undrawn
  have hfunded : held.funded = connectionCredit := by simp [funded, hcredit]
  refine ⟨connectionCredit - held.undrawn, Word.checkedSub_eq_some.mpr ⟨hundrawn, rfl⟩, ?_, ?_, ?_⟩
  · simp [drawn, hcredit]
  · have hrest : Word.checkedSub connectionCredit (connectionCredit - held.undrawn) =
        some held.undrawn := Word.checkedSub_eq_some.mpr ⟨Nat.sub_le _ _, by omega⟩
    rw [keep, h.credit lease hcredit]
    simp only [hrest]
    rfl
  · rw [Shared.used_giveBack (by omega)]
    omega

/-- Switching the reading returns what no reader needs. -/
theorem reading_spec (h : held.Sound) {reading : Bool} (hreaders : reading = false → 0 < held.readers)
    (hused : held.overdraft + held.funded ≤ b.used) :
    ∃ held' b' returned, held.reading b reading = some (held', b', returned) ∧ held'.Sound ∧
      held'.overdraft + held'.drawn = held.overdraft + held.drawn ∧
      b'.used + (held.overdraft + held.funded) = b.used + (held'.overdraft + held'.funded) := by
  unfold Held.reading
  cases reading with
  | true => exact ⟨_, _, _, rfl, ⟨h.credit, h.undrawn, h.none⟩, rfl, rfl⟩
  | false =>
    have hsub : Word.checkedSub held.readers 1 = some (held.readers - 1) :=
      Word.checkedSub_eq_some.mpr ⟨hreaders rfl, rfl⟩
    simp only [Bool.false_eq_true, if_false, hsub, Option.bind_eq_bind, Option.bind_some]
    by_cases hmore : 0 < held.readers - 1
    · rw [if_pos hmore]
      exact ⟨_, _, _, rfl, ⟨h.credit, h.undrawn, h.none⟩, rfl, rfl⟩
    rw [if_neg hmore]
    cases hcredit : held.credit with
    | none =>
      refine ⟨_, _, _, rfl, ⟨nofun, h.undrawn, fun _ => h.none hcredit⟩, ?_, ?_⟩
      · simp only [Held.drawn, hcredit]
      · simp only [funded, hcredit]
    | some lease =>
      obtain ⟨drawn, hdrawn, rfl, hkeep, hback⟩ := return_spec h hcredit hused
      simp only [hdrawn, hkeep, Option.bind_some]
      refine ⟨_, _, _, rfl, ⟨nofun, Nat.zero_le _, fun _ => rfl⟩, ?_, ?_⟩
      · simp only [Held.drawn, Option.isSome_none, Bool.false_eq_true, if_false, Nat.add_zero]
      · rw [hback]
        simp only [funded, Option.isSome_none, Bool.false_eq_true, if_false, Nat.add_zero]

/-- **A charge that is refused changes nothing.** -/
theorem tryCharge_spec (h : held.Sound) (bytes : ℕ) :
    ∃ held' b' granted, held.tryCharge b bytes = some (held', b', granted) ∧ held'.Sound ∧
      held'.overdraft + held'.drawn =
        held.overdraft + held.drawn + (if granted then bytes else 0) ∧
      b'.used + (held.overdraft + held.funded) = b.used + (held'.overdraft + held'.funded) ∧
      (granted = false → held' = held ∧ b' = b) := by
  have hundrawn := h.undrawn
  have hpast : Word.checkedSub bytes (min held.undrawn bytes) =
      some (bytes - min held.undrawn bytes) := Word.checkedSub_eq_some.mpr ⟨by omega, rfl⟩
  have hleft : Word.checkedSub held.undrawn (min held.undrawn bytes) =
      some (held.undrawn - min held.undrawn bytes) := Word.checkedSub_eq_some.mpr ⟨by omega, rfl⟩
  unfold tryCharge
  simp only [hpast, hleft, Option.bind_eq_bind, Option.bind_some]
  cases hcharged : (if min held.undrawn bytes < bytes then
      b.charge (bytes - min held.undrawn bytes) else some b) with
  | none => exact ⟨_, _, _, rfl, h, rfl, rfl, fun _ => ⟨rfl, rfl⟩⟩
  | some b' =>
    have hb : b'.used = b.used + (bytes - min held.undrawn bytes) := by
      split at hcharged
      · obtain ⟨-, -, rfl⟩ := Shared.charge_eq_some.mp hcharged
        rfl
      · cases hcharged
        omega
    refine ⟨_, _, _, rfl, ⟨h.credit, ?_, ?_⟩, ?_, ?_, nofun⟩
    · exact (Nat.sub_le _ _).trans hundrawn
    · intro hnone
      have hzero := h.none hnone
      dsimp only
      omega
    · simp only [drawn, if_true]
      split
      · omega
      · rename_i hnone
        have hzero := h.none (by simpa using hnone)
        omega
    · rw [hb]
      simp only [funded]
      omega

/-- A refund gives back what it can, the overdraft first. -/
theorem refund_spec (h : held.Sound) {bytes : ℕ} (hle : bytes ≤ held.overdraft + held.drawn) :
    ∃ held' back, held.refund bytes = some (held', back) ∧ held'.Sound ∧
      held'.overdraft + held'.drawn + bytes = held.overdraft + held.drawn ∧
      held'.overdraft + held'.funded + back = held.overdraft + held.funded := by
  have hundrawn := h.undrawn
  have hrest : Word.checkedSub bytes (min held.overdraft bytes) =
      some (bytes - min held.overdraft bytes) := Word.checkedSub_eq_some.mpr ⟨by omega, rfl⟩
  have hleft : Word.checkedSub held.overdraft (min held.overdraft bytes) =
      some (held.overdraft - min held.overdraft bytes) :=
    Word.checkedSub_eq_some.mpr ⟨by omega, rfl⟩
  unfold refund
  simp only [hrest, hleft, Option.bind_eq_bind, Option.bind_some]
  refine ⟨_, _, rfl, ?_⟩
  cases hcredit : held.credit with
  | none =>
    -- with no credit all that is outstanding is overdraft
    have hzero := h.none hcredit
    simp only [drawn, funded, hcredit, Option.isSome_none, Bool.false_eq_true, if_false] at hle ⊢
    refine ⟨⟨nofun, ?_, fun _ => ?_⟩, ?_, ?_⟩
    · dsimp only
      omega
    · dsimp only
      omega
    · omega
    · omega
  | some lease =>
    simp only [drawn, funded, hcredit, Option.isSome_some, if_true] at hle ⊢
    refine ⟨⟨fun lease' heq => h.credit lease' (hcredit.trans heq), ?_, nofun⟩, ?_, ?_⟩
    · dsimp only
      omega
    · omega
    · omega

end Held

/-! ## A connection among others -/

/-- A connection's budget and the shared one it draws on, with what the others hold of it. -/
structure Connection where
  shared : Shared
  floor : Lease
  held : Held
  /-- Charged and not refunded yet. -/
  outstanding : ℕ
  /-- What refunds under way have yet to give back. -/
  refunding : List ℕ
  others : ℕ
deriving DecidableEq, Repr

inductive Action where
  | reserve (share : Bool)
  | reading (reading : Bool)
  | tryCharge (bytes : ℕ)
  | refund (bytes : ℕ)
  /-- The end of a refund, after the lock. -/
  | giveBack (bytes : ℕ)
  | otherCharge (bytes : ℕ)
  | otherRefund (bytes : ℕ)
deriving DecidableEq, Repr

inductive Event where
  | reserved (granted : Bool)
  | read (returned : Bool)
  | charged (granted : Bool)
  | underflow
deriving DecidableEq, Repr

namespace Connection

/-- A new connection, whose floor was just charged. -/
def new (shared : Shared) (floor others : ℕ) : Connection :=
  ⟨shared, ⟨floor, false⟩, .empty, 0, [], others⟩

/-- Readers that stop have begun, and a refund is of what is outstanding. -/
def step (w : Connection) : Action → Option (Connection × List Event)
  | .reserve share =>
    let (held, shared, granted) := w.held.reserve w.shared share
    some ({ w with held, shared }, [.reserved granted])
  | .reading reading =>
    if reading = false → 0 < w.held.readers then
      match w.held.reading w.shared reading with
      | none => some (w, [.underflow])
      | some (held, shared, returned) => some ({ w with held, shared }, [.read returned])
    else none
  | .tryCharge bytes =>
    match w.held.tryCharge w.shared bytes with
    | none => some (w, [.underflow])
    | some (held, shared, granted) =>
      some ({ w with
        held
        shared
        outstanding := w.outstanding + if granted then bytes else 0 }, [.charged granted])
  | .refund bytes =>
    if bytes ≤ w.outstanding then
      match w.held.refund bytes with
      | none => some (w, [.underflow])
      | some (held, back) =>
        some ({ w with
          held
          outstanding := w.outstanding - bytes
          refunding := back :: w.refunding }, [])
    else none
  | .giveBack bytes =>
    if bytes ∈ w.refunding then
      some ({ w with
        shared := w.shared.giveBack bytes
        refunding := w.refunding.erase bytes }, [])
    else none
  | .otherCharge bytes =>
    match w.shared.charge bytes with
    | none => some (w, [])
    | some shared => some ({ w with shared, others := w.others + bytes }, [])
  | .otherRefund bytes =>
    if bytes ≤ w.others then
      some ({ w with shared := w.shared.giveBack bytes, others := w.others - bytes }, [])
    else none

variable {w w' : Connection} {floor : ℕ}

/-- **The invariant**: what is outstanding is overdraft or drawn of the credit, and what the shared
budget has of the connection is its floor, its overdraft and the credit it holds. -/
structure Sound (floor : ℕ) (w : Connection) : Prop where
  held : w.held.Sound
  outstanding : w.outstanding = w.held.overdraft + w.held.drawn
  used : w.shared.used =
    w.others + floor + (w.held.overdraft + w.held.funded) + w.refunding.sum

/-- **One step** keeps a connection sound and never underflows. -/
theorem step_sound (h : w.Sound floor) {a : Action} {events : List Event}
    (hstep : w.step a = some (w', events)) : w'.Sound floor ∧ .underflow ∉ events := by
  have houtstanding := h.outstanding
  have hused := h.used
  cases a with
  | reserve share =>
    obtain ⟨held, b, granted, heq⟩ : ∃ held b granted,
        w.held.reserve w.shared share = (held, b, granted) := ⟨_, _, _, rfl⟩
    obtain ⟨hheld, hsame, hcharged, -⟩ := Held.reserve_spec h.held heq
    simp only [step, heq] at hstep
    cases hstep
    refine ⟨⟨hheld, houtstanding.trans hsame.symm, ?_⟩, by simp⟩
    dsimp only
    omega
  | reading reading =>
    simp only [step, Option.ite_none_right_eq_some] at hstep
    obtain ⟨hreaders, hstep⟩ := hstep
    obtain ⟨held, b, returned, heq, hheld, hsame, hcharged⟩ :=
      Held.reading_spec (b := w.shared) h.held hreaders (by omega)
    rw [heq] at hstep
    cases hstep
    refine ⟨⟨hheld, houtstanding.trans hsame.symm, ?_⟩, by simp⟩
    dsimp only
    omega
  | tryCharge bytes =>
    obtain ⟨held, b, granted, heq, hheld, hmore, hcharged, -⟩ :=
      Held.tryCharge_spec (b := w.shared) h.held bytes
    simp only [step, heq] at hstep
    cases hstep
    refine ⟨⟨hheld, ?_, ?_⟩, by simp⟩
    · dsimp only
      omega
    · dsimp only
      omega
  | refund bytes =>
    simp only [step, Option.ite_none_right_eq_some] at hstep
    obtain ⟨hle, hstep⟩ := hstep
    obtain ⟨held, back, heq, hheld, hless, hback⟩ := Held.refund_spec h.held (houtstanding ▸ hle)
    rw [heq] at hstep
    cases hstep
    refine ⟨⟨hheld, ?_, ?_⟩, nofun⟩
    · dsimp only
      omega
    · simp only [List.sum_cons]
      omega
  | giveBack bytes =>
    simp only [step, Option.ite_none_right_eq_some, Option.some.injEq, Prod.mk.injEq] at hstep
    -- what was taken back from the connection leaves the shared count only now
    obtain ⟨hmem, rfl, rfl⟩ := hstep
    have hsum := List.sum_erase hmem
    refine ⟨⟨h.held, houtstanding, ?_⟩, nofun⟩
    rw [Shared.used_giveBack (by omega)]
    dsimp only
    omega
  | otherCharge bytes =>
    simp only [step] at hstep
    split at hstep
    · cases hstep
      exact ⟨h, nofun⟩
    · rename_i shared hcharge
      obtain ⟨-, -, rfl⟩ := Shared.charge_eq_some.mp hcharge
      cases hstep
      refine ⟨⟨h.held, houtstanding, ?_⟩, nofun⟩
      dsimp only
      omega
  | otherRefund bytes =>
    simp only [step, Option.ite_none_right_eq_some, Option.some.injEq, Prod.mk.injEq] at hstep
    obtain ⟨hle, rfl, rfl⟩ := hstep
    refine ⟨⟨h.held, houtstanding, ?_⟩, nofun⟩
    rw [Shared.used_giveBack (by omega)]
    dsimp only
    omega

/-- A new connection is sound. -/
theorem sound_new {b b' : Shared} (hfloor : b.charge floor = some b') :
    (new b' floor b.used).Sound floor := by
  obtain ⟨-, -, rfl⟩ := Shared.charge_eq_some.mp hfloor
  exact ⟨⟨nofun, Nat.zero_le _, fun _ => rfl⟩, rfl, rfl⟩

/-- **Conservation of the receive budget** over every sequence of calls on a connection and on the
shared budget it draws from: what is outstanding is overdraft or drawn of the credit; once no refund is
under way the shared budget has of the connection its floor, its overdraft and its credit; nothing
underflows, a refused charge changes nothing, and once all is refunded the floor and the credit are
left. -/
theorem receive_budget {b b' : Shared} (hfloor : b.charge floor = some b') {actions : List Action}
    {log : List Event} (hrun : Machine.run step (new b' floor b.used) actions = some (w, log)) :
    w.outstanding = w.held.overdraft + w.held.drawn ∧
      (w.refunding = [] →
        w.shared.used = w.others + (floor + w.held.overdraft + w.held.funded)) ∧
      w.held.undrawn ≤ connectionCredit ∧ (w.held.credit = none → w.held.undrawn = 0) ∧
      .underflow ∉ log ∧
      (∀ bytes w', w.step (.tryCharge bytes) = some (w', [.charged false]) → w' = w) ∧
      (w.refunding = [] → w.outstanding = 0 →
        w.shared.used = w.others + (floor + w.held.funded)) := by
  obtain ⟨hsound, hlog⟩ := Machine.run_induct (fun log w => w.Sound floor ∧ .underflow ∉ log)
    (by
      rintro log s a t events ⟨hs, hlog⟩ hstep
      obtain ⟨ht, hevents⟩ := step_sound hs hstep
      exact ⟨ht, fun hmem => (List.mem_append.mp hmem).elim hlog hevents⟩)
    (⟨sound_new hfloor, nofun⟩ : _ ∧ Event.underflow ∉ []) hrun
  rw [List.nil_append] at hlog
  have hused := hsound.used
  have houtstanding := hsound.outstanding
  refine ⟨houtstanding, ?_, hsound.held.undrawn, hsound.held.none, hlog, ?_, ?_⟩
  · intro hidle
    rw [hidle, List.sum_nil] at hused
    omega
  · intro bytes w' hstep
    obtain ⟨held, shared, granted, heq, -, -, -, hrefused⟩ :=
      Held.tryCharge_spec (b := w.shared) hsound.held bytes
    simp only [step, heq, Option.some.injEq, Prod.mk.injEq, List.cons.injEq, Event.charged.injEq,
      and_true] at hstep
    obtain ⟨rfl, rfl⟩ := hstep
    obtain ⟨rfl, rfl⟩ := hrefused rfl
    rfl
  · intro hidle hnone
    rw [hidle, List.sum_nil] at hused
    omega

/-- A funded upload draws the whole credit and five bytes more, the credit is returned while all of it
is outstanding, and seven bytes are refunded. -/
def overdrawn : List Action :=
  [.reserve true, .reading true, .tryCharge 50266117, .reading false, .refund 7, .giveBack 7]

/-- A connection that overdraws its budget and is refunded. -/
theorem receive_budget_overdrawn :
    (Machine.run step (new ⟨2 ^ 27, 100, 0, 0⟩ 100 0) overdrawn).map (fun r => (r.1.held, r.2)) =
      some (⟨none, 0, 50266110, 0⟩,
        [.reserved true, .read false, .charged true, .read true]) ∧
    ∀ w log, Machine.run step (new ⟨2 ^ 27, 100, 0, 0⟩ 100 0) overdrawn = some (w, log) →
      w.outstanding = w.held.overdraft + w.held.drawn ∧ .underflow ∉ log := by
  refine ⟨by decide, fun w log hrun => ?_⟩
  have hfloor : (Shared.new (2 ^ 27)).charge 100 = some ⟨2 ^ 27, 100, 0, 0⟩ := by decide
  have h := receive_budget hfloor hrun
  exact ⟨h.1, h.2.2.2.2.1⟩

end Connection

end GraphiteMeter.Server.Quic
