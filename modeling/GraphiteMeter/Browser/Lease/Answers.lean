import GraphiteMeter.Browser.Lease.Protocol
import GraphiteMeter.Server.Admission.Accounting

/-!
# What the server does to its leases

An answer to a `POST` gives its share to the lease it presents, or to one made for it, and leaves every
other lease as it is (`Posted`). Whatever else happens only ends leases (`Lasts`). A lease that ended is
never presented again.

Reference: `rust/server/src/app/control.rs`, `lease`; `rust/server/src/admission.rs`, `Leases`.
-/

namespace GraphiteMeter.Browser.Lease

open GraphiteMeter.Server
open GraphiteMeter.Server.Admission (Grant)

variable {η : Type}

/-! ## Answers -/

/-- What the answer to a `POST` says of every lease that can be presented afterwards. -/
structure Posted (s s' : Server η) (limits : Limits) (token : Option ℕ) (asked : Grant)
    (reply : Reply) : Prop where
  /-- A lease is as before, or holds the share of the ask. -/
  leases : ∀ t lease, s'.find t = some lease →
    s.find t = some lease ∨ lease.state.grant = limits.share asked
  /-- One ended is not presented again. -/
  gone : ∀ t, t < s.tokens → s.find t = none → s'.find t = none
  tokens : s.tokens ≤ s'.tokens
  unmade : (∀ t, s.tokens ≤ t → s.leases t = none) → ∀ t, s'.tokens ≤ t → s'.leases t = none
  /-- A lease answered holds the share, and is the one presented unless that one is gone. -/
  leased : (∀ t, s.tokens ≤ t → s.leases t = none) → ∀ t grant uploads,
    reply = .leased t grant uploads → grant = limits.share asked ∧ t < s'.tokens ∧
      (∀ lease, s'.find t = some lease → lease.state.grant = limits.share asked) ∧
      (token = some t ∨ ∀ old, token = some old → s'.find old = none)

/-- A lease that is set is found until it has ended. -/
theorem Server.find_set (s : Server η) (t u : ℕ) (lease : Admission.Lease η) :
    (s.set t lease).find u = if u = t then (if lease.ended then none else some lease) else s.find u := by
  rw [Server.find, Server.set]
  by_cases hu : u = t
  · subst hu
    simp only [Function.update_self, if_pos, Option.filter_some]
    cases lease.ended <;> rfl
  · rw [if_neg hu]
    exact congrArg (Option.filter _) (Function.update_of_ne hu ..)

/-- A lease is found when it is there and has not ended. -/
theorem Server.find_eq_some {s : Server η} {t : ℕ} {lease : Admission.Lease η} :
    s.find t = some lease ↔ s.leases t = some lease ∧ lease.ended = false := by
  rw [Server.find, Option.filter_eq_some_iff]
  simp

/-- A resize that is not refused leaves the grant asked, unless the lease has ended. -/
theorem resize_grant (lease : Admission.Lease η) (grant : Grant) (ask : ℕ → Except Full η) :
    (lease.resize grant ask).1.ended = lease.ended ∧
      (Server.refusal (lease.resize grant ask).2 ≠ none → (lease.resize grant ask).1 = lease) ∧
      (Server.refusal (lease.resize grant ask).2 = none → lease.ended = false →
        (lease.resize grant ask).1.state.grant = grant) := by
  obtain ⟨hended, heq⟩ | ⟨raised, more, full, heq⟩ | ⟨hended, raised, more, -, -, s, rfl, heq⟩ :=
    lease.resize_cases grant ask
  · rw [heq]
    exact ⟨rfl, fun _ => rfl, fun _ halive => by rw [hended] at halive; cases halive⟩
  · rw [heq]
    refine ⟨rfl, fun _ => rfl, fun hnone => ?_⟩
    rw [Server.refusal, List.findSome?_eq_none_iff] at hnone
    have hlast := hnone (.resized (.error (Upload.Refusal.ofFull full))) (by simp)
    cases hlast
  · rw [heq]
    refine ⟨rfl, fun hsome => absurd ?_ hsome, fun _ _ => rfl⟩
    rw [Server.refusal, List.findSome?_eq_none_iff]
    intro event hevent
    simp only [List.mem_append, List.mem_map, List.mem_singleton] at hevent
    obtain ((⟨_, -, rfl⟩ | ⟨_, -, rfl⟩) | ⟨_, -, rfl⟩) | rfl := hevent <;> rfl

/-- A lease resized, or found ended. -/
theorem posted_set {s : Server η} {limits : Limits} {token : Option ℕ} {asked : Grant}
    {lease lease' : Admission.Lease η} {t : ℕ} {reply : Reply} (hlease : s.leases t = some lease)
    (hended : lease'.ended = lease.ended)
    (hgrant : lease' = lease ∨ lease'.state.grant = limits.share asked) (htoken : token = some t)
    (hreply : ∀ u grant uploads, reply = .leased u grant uploads →
      u = t ∧ grant = limits.share asked ∧
        (lease.ended = false → lease'.state.grant = limits.share asked)) (mints : ℕ) :
    Posted s { s.set t lease' with mints } limits token asked reply := by
  have hfind : ∀ u, Server.find { s.set t lease' with mints } u
      = if u = t then (if lease.ended then none else some lease') else s.find u := by
    intro u
    rw [← hended]
    exact s.find_set t u lease'
  have hself : s.find t = if lease.ended then none else some lease := by
    rw [Server.find, hlease, Option.filter_some]
    cases lease.ended <;> rfl
  refine ⟨fun u found hu => ?_, fun u _ hnone => ?_, Nat.le_refl _, fun hunmade u hu => ?_,
    fun hunmade u grant uploads heq => ?_⟩
  · rw [hfind] at hu
    by_cases hut : u = t
    · rw [if_pos hut] at hu
      cases halive : lease.ended with
      | true =>
        rw [halive] at hu
        cases hu
      | false =>
        rw [halive, if_neg Bool.false_ne_true] at hu hself
        cases hu
        rcases hgrant with hsame | hgrant
        · exact .inl (by rw [hut, hself, hsame])
        · exact .inr hgrant
    · rw [if_neg hut] at hu
      exact .inl hu
  · rw [hfind]
    by_cases hut : u = t
    · rw [hut, hself] at hnone
      rw [if_pos hut]
      cases halive : lease.ended with
      | true => rfl
      | false =>
        rw [halive] at hnone
        cases hnone
    · rw [if_neg hut]
      exact hnone
  · have hut : u ≠ t := by
      rintro rfl
      rw [hunmade u hu] at hlease
      cases hlease
    exact (Function.update_of_ne hut ..).trans (hunmade u hu)
  · obtain ⟨rfl, hshare, halive⟩ := hreply u grant uploads heq
    refine ⟨hshare, ?_, fun found hfound => ?_, .inl htoken⟩
    · by_contra hle
      rw [hunmade u (not_lt.mp hle)] at hlease
      cases hlease
    · rw [hfind, if_pos rfl] at hfound
      cases hend : lease.ended with
      | true =>
        rw [hend] at hfound
        cases hfound
      | false =>
        rw [hend] at hfound
        cases hfound
        exact halive hend

/-- A lease made for an ask that presents none. -/
theorem posted_create {s : Server η} {limits : Limits} {token : Option ℕ} {asked : Grant}
    {lease : Admission.Lease η} (hgrant : lease.state.grant = limits.share asked)
    (halive : lease.ended = false) (hgone : ∀ old, token = some old → s.find old = none)
    (hlt : ∀ old, token = some old → old < s.tokens) (mints : ℕ) (uploads : List ℕ) :
    Posted s { s.set s.tokens lease with tokens := s.tokens + 1, mints } limits token asked
      (.leased s.tokens (limits.share asked) uploads) := by
  have hfind : ∀ u, Server.find { s.set s.tokens lease with tokens := s.tokens + 1, mints } u
      = if u = s.tokens then some lease else s.find u := by
    intro u
    have hset := s.find_set s.tokens u lease
    rw [halive, if_neg Bool.false_ne_true] at hset
    exact hset
  refine ⟨fun u found hu => ?_, fun u hu hnone => ?_, Nat.le_succ _, fun hunmade u hu => ?_,
    fun hunmade u grant uploads' heq => ?_⟩
  · rw [hfind] at hu
    by_cases hut : u = s.tokens
    · rw [if_pos hut] at hu
      cases hu
      exact .inr hgrant
    · rw [if_neg hut] at hu
      exact .inl hu
  · rw [hfind, if_neg (Nat.ne_of_lt hu)]
    exact hnone
  · have hut : u ≠ s.tokens := Nat.ne_of_gt hu
    exact (Function.update_of_ne hut ..).trans (hunmade u (Nat.le_of_succ_le hu))
  · cases heq
    refine ⟨rfl, Nat.lt_succ_self _, fun found hfound => ?_, .inr fun old hold => ?_⟩
    · rw [hfind, if_pos rfl] at hfound
      cases hfound
      exact hgrant
    · rw [hfind, if_neg (Nat.ne_of_lt (hlt old hold))]
      exact hgone old hold

/-- An answer that grants nothing leaves the server. -/
theorem posted_refl (s : Server η) (limits : Limits) (token : Option ℕ) (asked : Grant)
    {reply : Reply} (hreply : ∀ t grant uploads, reply ≠ .leased t grant uploads) :
    Posted s s limits token asked reply :=
  ⟨fun _ _ h => .inl h, fun _ _ h => h, Nat.le_refl _, fun h => h,
    fun _ t grant uploads h => absurd h (hreply t grant uploads)⟩

/-- **A post** does to the server what its answer says. -/
theorem posted (s : Server η) (limits : Limits) (token : Option ℕ) (asked : Grant) (uploads : ℕ)
    (late : Bool) (ask : ℕ → Except Full η) (hlt : ∀ t, token = some t → t < s.tokens) :
    Posted s (s.post limits token asked uploads late ask).1 limits token asked
      (s.post limits token asked uploads late ask).2 := by
  rw [Server.post]
  split
  · split
    next t lease hheld =>
      obtain ⟨t', htoken, hfound⟩ := Option.bind_eq_some_iff.mp hheld
      obtain ⟨lease', hlease', heq⟩ := Option.map_eq_some_iff.mp hfound
      cases heq
      have hlease : s.leases t = some lease := by
        cases late with
        | true => exact hlease'
        | false => exact (Server.find_eq_some.mp hlease').1
      obtain ⟨hended, hrefused, hgrant⟩ := resize_grant lease (limits.share asked) ask
      split
      next refusal hrefusal =>
        refine posted_set hlease hended (.inl (hrefused ?_)) htoken (fun _ _ _ h => ?_) s.mints
        · rw [hrefusal]
          exact Option.some_ne_none _
        · cases h
      next hnone =>
        refine posted_set hlease hended ?_ htoken (fun _ _ _ h => ?_) _
        · cases halive : lease.ended with
          | true =>
            left
            rw [Admission.Lease.resize, if_pos halive]
          | false => exact .inr (hgrant hnone halive)
        · cases h
          exact ⟨rfl, rfl, hgrant hnone⟩
    next hheld =>
      obtain ⟨hended, -, hgrant⟩ :=
        resize_grant (Admission.Lease.new : Admission.Lease η) (limits.share asked) ask
      split
      next => exact posted_refl _ _ _ _ fun _ _ _ h => by cases h
      next hnone =>
        refine posted_create (hgrant hnone rfl) hended (fun old hold => ?_) hlt _ _
        have hheld' := Option.bind_eq_none_iff.mp hheld old hold
        rw [Server.held, Option.map_eq_none_iff] at hheld'
        cases late with
        | true => rw [Server.find, show s.leases old = none from hheld', Option.filter_none]
        | false => exact hheld'
  · exact posted_refl _ _ _ _ fun _ _ _ h => by cases h

/-! ## What else happens -/

/-- What else happens at the server: leases end, and those that stay hold what they held. -/
structure Lasts (s s' : Server η) : Prop where
  leases : ∀ t lease, s'.find t = some lease →
    ∃ old, s.find t = some old ∧ lease.state.grant = old.state.grant
  tokens : s'.tokens = s.tokens
  unmade : (∀ t, s.tokens ≤ t → s.leases t = none) → ∀ t, s.tokens ≤ t → s'.leases t = none

/-- A server lasts as it is. -/
theorem Lasts.refl (s : Server η) : Lasts s s :=
  ⟨fun _ lease h => ⟨lease, h, rfl⟩, rfl, fun h => h⟩

/-- An ended lease is never found again. -/
theorem Lasts.gone {s s' : Server η} (h : Lasts s s') {t : ℕ} (hnone : s.find t = none) :
    s'.find t = none := by
  rw [Option.eq_none_iff_forall_ne_some]
  intro lease hlease
  obtain ⟨old, hold, -⟩ := h.leases t lease hlease
  rw [hnone] at hold
  cases hold

/-- Setting a lease lasts, if it keeps the grant while it runs. -/
theorem lasts_set {s : Server η} {t : ℕ} {lease lease' : Admission.Lease η}
    (hlease : s.leases t = some lease)
    (hkept : lease'.ended = false →
      lease.ended = false ∧ lease'.state.grant = lease.state.grant) : Lasts s (s.set t lease') := by
  refine ⟨fun u found hu => ?_, rfl, fun hunmade u hu => ?_⟩
  · rw [Server.find_set] at hu
    by_cases hut : u = t
    · rw [if_pos hut] at hu
      cases hended : lease'.ended with
      | true =>
        rw [hended] at hu
        cases hu
      | false =>
        rw [hended] at hu
        cases hu
        exact ⟨lease, Server.find_eq_some.mpr ⟨hut ▸ hlease, (hkept hended).1⟩, (hkept hended).2⟩
    · rw [if_neg hut] at hu
      exact ⟨found, hu, rfl⟩
  · have hut : u ≠ t := by
      rintro rfl
      rw [hunmade u hu] at hlease
      cases hlease
    exact (Function.update_of_ne hut ..).trans (hunmade u hu)

/-- Deleting a lease lasts for the others. -/
theorem lasts_delete (s : Server η) (token : ℕ) : Lasts s (s.delete token).1 := by
  rw [Server.delete]
  split
  next lease hlease =>
    exact lasts_set (Server.find_eq_some.mp hlease).1 fun h => (by cases h)
  next => exact .refl s

/-- A deleted lease is not found. -/
theorem find_delete (s : Server η) (token : ℕ) : (s.delete token).1.find token = none := by
  rw [Server.delete]
  split
  next lease hlease =>
    rw [Server.find_set, if_pos rfl]
    rfl
  next hnone => exact hnone

/-- What is not a resize keeps the grant of a lease, unless it ends it. -/
theorem lasts_work {s : Server η} {t : ℕ} {lease : Admission.Lease η}
    (hlease : s.leases t = some lease) {a : Admission.Action η} (hwork : World.isWork a = true)
    {result : Admission.Lease η × List (Admission.Event η)} (hstep : lease.step a = some result) :
    Lasts s (s.set t result.1) := by
  refine lasts_set hlease fun halive => ?_
  cases a with
  | resize grant ask => cases hwork
  | admitSlot session ask =>
    rw [Admission.Lease.step, Option.some.injEq] at hstep
    unfold Admission.Lease.admitSlot at hstep
    subst hstep
    split at halive
    next hgranted =>
      rw [if_pos hgranted]
      exact ⟨halive, rfl⟩
    next hpast =>
      rw [if_neg hpast]
      cases ask with
      | error full => exact ⟨halive, rfl⟩
      | ok hold => exact ⟨halive, rfl⟩
  | drop index =>
    obtain ⟨slot, -, rfl⟩ := Option.map_eq_some_iff.mp hstep
    refine ⟨halive, ?_⟩
    rw [Admission.Lease.dropSlot]
    cases slot.granted <;> rfl
  | cancel =>
    cases hstep
    cases halive
  | finish =>
    rw [Admission.Lease.step, Option.ite_none_right_eq_some, Option.some.injEq] at hstep
    obtain ⟨hended, rfl⟩ := hstep
    exact absurd (hended.symm.trans halive) (by decide)
  | watch now =>
    cases hstep
    rw [Admission.Lease.watch] at halive ⊢
    split at halive
    next hlive =>
      rw [if_pos hlive]
      exact ⟨halive, rfl⟩
    next hlive =>
      rw [if_neg hlive]
      exact ⟨halive, rfl⟩

end GraphiteMeter.Browser.Lease
