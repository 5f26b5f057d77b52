import GraphiteMeter.Server.Admission

/-!
# A lease accounts for what it holds

Reference: `rust/server/src/admission.rs`.

`Accounted` ties the counters and the holds of a lease to its grant and its live slots; `Ledger`
ties the holds to what the quotas gave and took back. Both are kept by every step, so they hold
along every run (`lease_accounts`).
-/

namespace GraphiteMeter.Server.Admission

variable {η : Type}

/-! ## The ledger -/

/-- The holds the quotas gave. -/
def acquired (log : List (Event η)) : Multiset η :=
  log.filterMap fun
    | .acquired _ hold => some hold
    | _ => none

/-- The holds that were given back. -/
def released (log : List (Event η)) : Multiset η :=
  log.filterMap fun
    | .released hold => some hold
    | _ => none

@[simp] theorem acquired_nil : acquired ([] : List (Event η)) = 0 := rfl

@[simp] theorem released_nil : released ([] : List (Event η)) = 0 := rfl

@[simp] theorem acquired_append (first later : List (Event η)) :
    acquired (first ++ later) = acquired first + acquired later := by
  rw [acquired, List.filterMap_append, ← Multiset.coe_add]
  rfl

@[simp] theorem released_append (first later : List (Event η)) :
    released (first ++ later) = released first + released later := by
  rw [released, List.filterMap_append, ← Multiset.coe_add]
  rfl

@[simp] theorem acquired_map_acquired (call : Call) (holds : List η) :
    acquired (holds.map (.acquired call)) = holds := by
  rw [acquired, List.filterMap_map]
  exact congrArg _ List.filterMap_some

@[simp] theorem released_map_acquired (call : Call) (holds : List η) :
    released (holds.map (.acquired call)) = 0 := by
  simp [released, List.filterMap_map]

@[simp] theorem acquired_map_released (holds : List η) :
    acquired (holds.map Event.released) = 0 := by
  simp [acquired, List.filterMap_map]

@[simp] theorem released_map_released (holds : List η) :
    released (holds.map Event.released) = holds := by
  rw [released, List.filterMap_map]
  exact congrArg _ List.filterMap_some

namespace Lease

/-- Every hold of the lease and of its live slots. -/
def holds (w : Lease η) : Multiset η :=
  ↑w.state.measurements + ↑w.state.sessions + ↑(w.slots.filterMap (·.past))

/-- The live slots of the grant. -/
def granted (w : Lease η) : ℕ := w.slots.countP (·.granted)

/-- Those of them that are sessions. -/
def grantedSessions (w : Lease η) : ℕ := w.slots.countP fun slot => slot.granted && slot.session

/-- **What a lease keeps**: holds for the larger of its grant and its slots, and counters that count its
slots. -/
structure Accounted (w : Lease η) : Prop where
  measurements : w.state.measurements.length = max w.state.grant.measurements w.granted
  sessions : w.state.sessions.length = max w.state.grant.sessions w.grantedSessions
  used : w.state.used = ⟨w.granted, w.grantedSessions⟩
  live : w.state.live = w.slots.length

/-- The sessions granted are among all that is granted. -/
theorem grantedSessions_le (w : Lease η) : w.grantedSessions ≤ w.granted := by
  apply List.countP_mono_left
  intro slot _ h
  exact (Bool.and_eq_true_iff.mp h).1

end Lease

/-! ## Fitting and taking -/

/-- What fitting releases and what it keeps are what there was. -/
theorem State.fit_holds (s : State η) :
    (s.measurements + s.sessions : Multiset η) =
      s.fit.1.measurements + s.fit.1.sessions + s.fit.2 := by
  have hm := List.take_append_drop (max s.grant.measurements s.used.measurements) s.measurements
  have hs := List.take_append_drop (max s.grant.sessions s.used.sessions) s.sessions
  nth_rewrite 1 [← hm, ← hs]
  simp only [State.fit, State.wanted, ← Multiset.coe_add]
  ac_rfl

/-- Fitting keeps exactly what is wanted, where there is enough. -/
theorem State.fit_length {s : State η}
    (hm : max s.grant.measurements s.used.measurements ≤ s.measurements.length)
    (hs : max s.grant.sessions s.used.sessions ≤ s.sessions.length) :
    s.fit.1.measurements.length = max s.grant.measurements s.used.measurements ∧
      s.fit.1.sessions.length = max s.grant.sessions s.used.sessions := by
  simp only [State.fit, State.wanted, List.length_take]
  omega

/-- A call that is not refused took all it asked for. -/
theorem length_take {ask : ℕ → Except Full η} {asked count : ℕ}
    (h : (take ask asked count).2 = none) : (take ask asked count).1.length = count := by
  induction count generalizing asked with
  | zero => rfl
  | succ count ih =>
    rw [take] at h ⊢
    split at h
    · cases h
    · simp only [List.length_cons]
      rw [ih h]

namespace Lease

variable {w w' : Lease η}

/-! ## What each call keeps -/

/-- A call that goes from one accounted lease to another, with every hold it took or gave back on
record. -/
structure Kept (w w' : Lease η) (events : List (Event η)) : Prop where
  accounted : w'.Accounted
  balance : acquired events + w.holds = w'.holds + released events

/-- A raise that fits has the holds it needs, and fits them. -/
theorem kept_raised (h : w.Accounted) (grant : Grant) {raised more : List η}
    (hraised : raised.length = max grant.sessions w.state.used.sessions - w.state.sessions.length)
    (hmore : more.length =
      max grant.measurements w.state.used.measurements - w.state.measurements.length)
    {s : State η} (hs : s = { w.state with
      sessions := w.state.sessions ++ raised
      measurements := w.state.measurements ++ more
      grant }) :
    Kept w { w with state := s.fit.1 } (raised.map (.acquired .sessionBesideHandler) ++
      more.map (.acquired .operation) ++ s.fit.2.map .released ++ [.resized (.ok ())]) := by
  have husedEq := h.used
  have hlength := State.fit_length (s := s)
    (by subst hs; simp only [List.length_append]; omega)
    (by subst hs; simp only [List.length_append]; omega)
  have hholds := s.fit_holds
  constructor
  · subst hs
    refine ⟨?_, ?_, husedEq, h.live⟩
    · rw [hlength.1]
      show max grant.measurements w.state.used.measurements = max grant.measurements w.granted
      rw [husedEq]
    · rw [hlength.2]
      show max grant.sessions w.state.used.sessions = max grant.sessions w.grantedSessions
      rw [husedEq]
  · have hwhole : (↑(w.state.measurements ++ more) + ↑(w.state.sessions ++ raised) : Multiset η) =
        s.fit.1.measurements + s.fit.1.sessions + s.fit.2 := by
      rw [← hholds, hs]
    have hacquired : acquired [(Event.resized (.ok ()) : Event η)] = 0 := rfl
    have hreleased : released [(Event.resized (.ok ()) : Event η)] = 0 := rfl
    simp only [acquired_append, released_append, acquired_map_acquired, acquired_map_released,
      released_map_acquired, released_map_released, hacquired, hreleased, add_zero, zero_add, holds]
    calc (↑raised + ↑more + (↑w.state.measurements + ↑w.state.sessions +
            ↑(w.slots.filterMap (·.past))) : Multiset η)
        = ↑(w.state.measurements ++ more) + ↑(w.state.sessions ++ raised) +
            ↑(w.slots.filterMap (·.past)) := by
          simp only [← Multiset.coe_add]
          ac_rfl
      _ = ↑s.fit.1.measurements + ↑s.fit.1.sessions + ↑(w.slots.filterMap (·.past)) + ↑s.fit.2 := by
          rw [hwhole]
          ac_rfl

/-- What a resize can do: nothing once the lease ended, take some holds and give them all back, or
take all it wants. -/
theorem resize_cases (w : Lease η) (grant : Grant) (ask : ℕ → Except Full η) :
    (w.ended = true ∧ w.resize grant ask = (w, [.resized (.ok ())])) ∨
      (∃ (raised more : List η) (full : Full), w.resize grant ask = (w,
        raised.map (.acquired .sessionBesideHandler) ++ more.map (.acquired .operation) ++
          more.map .released ++ raised.map .released ++
          [.resized (.error (Upload.Refusal.ofFull full))])) ∨
      (w.ended = false ∧ ∃ raised more : List η,
        raised.length = max grant.sessions w.state.used.sessions - w.state.sessions.length ∧
        more.length =
          max grant.measurements w.state.used.measurements - w.state.measurements.length ∧
        ∃ s : State η, s = { w.state with
            sessions := w.state.sessions ++ raised
            measurements := w.state.measurements ++ more
            grant } ∧
          w.resize grant ask = ({ w with state := s.fit.1 },
            raised.map (.acquired .sessionBesideHandler) ++ more.map (.acquired .operation) ++
              s.fit.2.map .released ++ [.resized (.ok ())])) := by
  unfold resize
  by_cases hended : w.ended = true
  · rw [if_pos hended]
    exact .inl ⟨hended, rfl⟩
  rw [if_neg hended]
  rw [Bool.not_eq_true] at hended
  refine .inr ?_
  simp only [State.wanted]
  match hraised : take ask 0 (max grant.sessions w.state.used.sessions - w.state.sessions.length) with
  | (raised, some full) => exact .inl ⟨raised, [], full, by simp⟩
  | (raised, none) =>
    have hlength := length_take (congrArg Prod.snd hraised)
    rw [hraised] at hlength
    match hmore : take ask raised.length
        (max grant.measurements w.state.used.measurements - w.state.measurements.length) with
    | (more, some full) =>
      refine .inl ⟨raised, more, full, ?_⟩
      simp only [hmore]
    | (more, none) =>
      have hlength' := length_take (congrArg Prod.snd hmore)
      rw [hmore] at hlength'
      refine .inr ⟨hended, raised, more, hlength, hlength', _, rfl, ?_⟩
      simp only [hmore]

/-- What is taken on the way is given back. -/
theorem released_refused (raised more : List η) (refusal : Refusal) {events : List (Event η)}
    (h : events = raised.map (.acquired .sessionBesideHandler) ++ more.map (.acquired .operation) ++
      more.map .released ++ raised.map .released ++ [.resized (.error refusal)]) :
    acquired events = released events := by
  have hacquired : acquired [(Event.resized (.error refusal) : Event η)] = 0 := rfl
  have hreleased : released [(Event.resized (.error refusal) : Event η)] = 0 := rfl
  subst h
  simp only [acquired_append, released_append, acquired_map_acquired, acquired_map_released,
    released_map_acquired, released_map_released, hacquired, hreleased, add_zero, zero_add]
  exact add_comm _ _

/-- **A refused resize changes nothing**, and gives back every hold it took on the way. -/
theorem resize_refused {grant : Grant} {ask : ℕ → Except Full η} {refusal : Refusal}
    (h : .resized (.error refusal) ∈ (w.resize grant ask).2) :
    (w.resize grant ask).1 = w ∧
      acquired (w.resize grant ask).2 = released (w.resize grant ask).2 := by
  obtain ⟨-, heq⟩ | ⟨raised, more, full, heq⟩ | ⟨-, raised, more, -, -, s, -, heq⟩ :=
    w.resize_cases grant ask
  · rw [heq] at h
    cases List.mem_singleton.mp h
  · rw [heq]
    exact ⟨rfl, released_refused raised more _ rfl⟩
  · rw [heq] at h
    simp at h

/-- A resize keeps the accounts. -/
theorem kept_resize (h : w.Accounted) (grant : Grant) (ask : ℕ → Except Full η) :
    Kept w (w.resize grant ask).1 (w.resize grant ask).2 := by
  obtain ⟨-, heq⟩ | ⟨raised, more, full, heq⟩ | ⟨-, raised, more, hraised, hmore, s, hs, heq⟩ :=
    w.resize_cases grant ask
  · rw [heq]
    exact ⟨h, add_comm _ _⟩
  · rw [heq]
    refine ⟨h, ?_⟩
    rw [released_refused raised more _ rfl]
    exact add_comm _ _
  · rw [heq]
    exact kept_raised h grant hraised hmore hs

/-- A slot is taken from the grant only while the grant has one left. -/
theorem kept_admit (h : w.Accounted) (session : Bool) (ask : Except Full η) :
    Kept w (w.admitSlot session ask).1 (w.admitSlot session ask).2 := by
  have husedEq := h.used
  unfold admitSlot
  split
  · rename_i hleft
    have hm := h.measurements
    have hs := h.sessions
    rw [husedEq] at hleft
    dsimp only at hleft
    refine ⟨⟨?_, ?_, ?_, ?_⟩, ?_⟩
    · show w.state.measurements.length = max w.state.grant.measurements (List.countP _ (_ :: w.slots))
      rw [List.countP_cons_of_pos rfl, hm]
      change _ = max _ (w.granted + 1)
      omega
    · cases session with
      | false => exact hs
      | true =>
        show w.state.sessions.length = max w.state.grant.sessions (List.countP _ (_ :: w.slots))
        rw [List.countP_cons_of_pos rfl, hs]
        change _ = max _ (w.grantedSessions + 1)
        have hroom := hleft.2.resolve_left (by decide)
        omega
    · cases session with
      | false => simp [admitGranted, granted, grantedSessions, husedEq]
      | true => simp [admitGranted, granted, grantedSessions, husedEq]
    · exact congrArg (· + 1) h.live
    · exact add_comm _ _
  · cases ask with
    | error full => exact ⟨h, add_comm _ _⟩
    | ok hold =>
      refine ⟨⟨h.measurements, h.sessions, husedEq, congrArg (· + 1) h.live⟩, ?_⟩
      show ({hold} + w.holds : Multiset η) = ↑w.state.measurements + ↑w.state.sessions +
        (hold ::ₘ ↑(w.slots.filterMap (·.past))) + 0
      rw [add_zero, Multiset.add_cons, Multiset.singleton_add]
      rfl

/-- The slot at an index and the others. -/
theorem slots_perm {index : ℕ} {slot : Slot η} (hslot : w.slots[index]? = some slot) :
    w.slots.Perm (slot :: w.slots.eraseIdx index) := by
  obtain ⟨hlt, heq⟩ := List.getElem?_eq_some_iff.mp hslot
  rw [← heq]
  exact (List.getElem_cons_eraseIdx_perm hlt).symm

/-- A call that only releases: what it gives back is what is gone from the lease and its slots. -/
theorem balance_release {dropped past : List η} {last : Event η} (hacquired : acquired [last] = 0)
    (hreleased : released [last] = 0)
    (hkept : (↑w.state.measurements + ↑w.state.sessions : Multiset η) =
      ↑w'.state.measurements + ↑w'.state.sessions + ↑dropped)
    (hpast : (↑(w.slots.filterMap (·.past)) : Multiset η) =
      ↑past + ↑(w'.slots.filterMap (·.past))) :
    acquired ((dropped ++ past).map .released ++ [last]) + w.holds =
      w'.holds + released ((dropped ++ past).map .released ++ [last]) := by
  rw [acquired_append, acquired_map_released, hacquired, released_append, released_map_released,
    hreleased, ← Multiset.coe_add, holds, holds, hkept, hpast]
  simp only [zero_add, add_zero]
  ac_rfl

/-- The slots but one hold what that one does not. -/
theorem past_perm {slots : List (Slot η)} {slot : Slot η} (hperm : w.slots.Perm (slot :: slots)) :
    (↑(w.slots.filterMap (·.past)) : Multiset η) =
      ↑slot.past.toList + ↑(slots.filterMap (·.past)) := by
  rw [Multiset.coe_eq_coe.mpr (hperm.filterMap (·.past)), List.filterMap_cons, Multiset.coe_add]
  cases slot.past <;> rfl

/-- The end of a slot frees what only it was kept for. -/
theorem kept_dropSlot (h : w.Accounted) {index : ℕ} {slot : Slot η}
    (hslot : w.slots[index]? = some slot) :
    Kept w (w.dropSlot index slot).1 (w.dropSlot index slot).2 := by
  have hperm := slots_perm hslot
  have hlive : w.state.live - 1 = (w.slots.eraseIdx index).length := by
    rw [h.live, hperm.length_eq]
    rfl
  have hgranted : w.granted = List.countP (·.granted) (slot :: w.slots.eraseIdx index) :=
    hperm.countP_eq _
  have hsessions : w.grantedSessions =
      List.countP (fun slot => slot.granted && slot.session) (slot :: w.slots.eraseIdx index) :=
    hperm.countP_eq _
  rw [List.countP_cons] at hgranted hsessions
  have hm := h.measurements
  have hs := h.sessions
  unfold dropSlot
  by_cases hslotGranted : slot.granted = true
  · simp only [hslotGranted, if_true, Bool.true_and] at hgranted hsessions ⊢
    -- the counters come down to the other slots before the holds are fitted to them
    have hused : (⟨w.state.used.measurements - 1,
        w.state.used.sessions - slot.session.toNat⟩ : Grant) =
        ⟨List.countP (·.granted) (w.slots.eraseIdx index),
          List.countP (fun slot => slot.granted && slot.session) (w.slots.eraseIdx index)⟩ := by
      rw [h.used, hgranted, hsessions]
      cases slot.session <;> rfl
    rw [hused]
    set s : State η := { w.state with used := _ } with hdef
    have hlength := State.fit_length (s := s)
      (by simp only [hdef]; omega) (by simp only [hdef]; omega)
    refine ⟨⟨hlength.1, hlength.2, rfl, hlive⟩, ?_⟩
    exact balance_release rfl rfl s.fit_holds (past_perm hperm)
  · rw [Bool.not_eq_true] at hslotGranted
    simp only [hslotGranted, Bool.false_and, Bool.false_eq_true, if_false, Nat.add_zero]
      at hgranted hsessions ⊢
    refine ⟨⟨?_, ?_, ?_, hlive⟩, ?_⟩
    · exact hm.trans (congrArg _ hgranted)
    · exact hs.trans (congrArg _ hsessions)
    · rw [h.used, hgranted, hsessions]
      rfl
    · exact balance_release rfl rfl (add_zero _).symm (past_perm hperm)

/-- Finishing keeps the accounts. -/
theorem kept_finish (h : w.Accounted) : Kept w w.finish.1 w.finish.2 := by
  have husedEq := h.used
  have hm := h.measurements
  have hs := h.sessions
  unfold finish
  set s : State η := { w.state with grant := ⟨0, 0⟩ } with hdef
  have hlength := State.fit_length (s := s)
    (by simp only [hdef, husedEq]; omega) (by simp only [hdef, husedEq]; omega)
  refine ⟨⟨?_, ?_, husedEq, h.live⟩, ?_⟩
  · rw [hlength.1]
    simp only [hdef, husedEq]
    rfl
  · rw [hlength.2]
    simp only [hdef, husedEq]
    rfl
  · have hevents : s.fit.2.map Event.released ++ [Event.ended] =
        (s.fit.2 ++ []).map Event.released ++ [Event.ended] := by rw [List.append_nil]
    show acquired (s.fit.2.map Event.released ++ [Event.ended]) + w.holds =
      holds { w with state := s.fit.1 } + released (s.fit.2.map Event.released ++ [Event.ended])
    rw [hevents]
    exact balance_release rfl rfl s.fit_holds (zero_add _).symm

/-- Watching the time keeps the accounts. -/
theorem kept_watch (h : w.Accounted) (now : ℕ) : Kept w (w.watch now) [] := by
  unfold watch
  split
  · exact ⟨h, add_comm _ _⟩
  · exact ⟨⟨h.measurements, h.sessions, h.used, h.live⟩, add_comm _ _⟩

/-- **One step** of a lease keeps its accounts. -/
theorem kept_step (h : w.Accounted) {a : Action η} {events : List (Event η)}
    (hstep : w.step a = some (w', events)) : Kept w w' events := by
  cases a with
  | resize grant ask =>
    rw [step, Option.some.injEq] at hstep
    have hkept := kept_resize h grant ask
    rw [hstep] at hkept
    exact hkept
  | admitSlot session ask =>
    rw [step, Option.some.injEq] at hstep
    have hkept := kept_admit h session ask
    rw [hstep] at hkept
    exact hkept
  | drop index =>
    rw [step, Option.map_eq_some_iff] at hstep
    obtain ⟨slot, hslot, hstep⟩ := hstep
    have hkept := kept_dropSlot h hslot
    rw [hstep] at hkept
    exact hkept
  | cancel =>
    cases hstep
    exact ⟨⟨h.measurements, h.sessions, h.used, h.live⟩, add_comm _ _⟩
  | finish =>
    rw [step, Option.ite_none_right_eq_some, Option.some.injEq] at hstep
    have hkept := kept_finish h
    rw [hstep.2] at hkept
    exact hkept
  | watch now =>
    cases hstep
    exact kept_watch h now

/-! ## The end -/

/-- Nothing is left of the grant. -/
def Over (w : Lease η) : Prop := w.ended = true ∧ w.state.grant = ⟨0, 0⟩

/-- Dropping a slot neither ends a lease nor revives one that is over. -/
theorem over_dropSlot (w : Lease η) (index : ℕ) (slot : Slot η) :
    .ended ∉ (w.dropSlot index slot).2 ∧ (w.Over → (w.dropSlot index slot).1.Over) := by
  unfold dropSlot
  constructor
  · simp
  · intro h
    by_cases hgranted : slot.granted = true
    · simp only [hgranted, if_true]
      exact h
    · simp only [hgranted]
      exact h

/-- The end of a lease is for good. -/
theorem over_step {a : Action η} {events : List (Event η)} (hstep : w.step a = some (w', events))
    (h : .ended ∈ events ∨ w.Over) : w'.Over := by
  cases a with
  | resize grant ask =>
    rw [step, Option.some.injEq] at hstep
    obtain ⟨-, heq⟩ | ⟨raised, more, full, heq⟩ | ⟨hended, raised, more, -, -, s, -, heq⟩ :=
      w.resize_cases grant ask
    · cases heq.symm.trans hstep
      simpa using h
    · cases heq.symm.trans hstep
      simpa using h
    · cases heq.symm.trans hstep
      simp [Over, hended] at h
  | admitSlot session ask =>
    rw [step, Option.some.injEq] at hstep
    unfold admitSlot at hstep
    split at hstep
    · cases hstep
      exact h.resolve_left (by simp)
    · cases ask with
      | error full =>
        cases hstep
        exact h.resolve_left (by simp)
      | ok hold =>
        cases hstep
        exact h.resolve_left (by simp)
  | drop index =>
    rw [step, Option.map_eq_some_iff] at hstep
    obtain ⟨slot, hslot, hstep⟩ := hstep
    have hover := over_dropSlot w index slot
    rw [hstep] at hover
    exact hover.2 (h.resolve_left hover.1)
  | cancel =>
    cases hstep
    exact ⟨rfl, (h.resolve_left nofun).2⟩
  | finish =>
    rw [step, Option.ite_none_right_eq_some, Option.some.injEq] at hstep
    obtain ⟨hended, hstep⟩ := hstep
    cases hstep
    exact ⟨hended, rfl⟩
  | watch now =>
    cases hstep
    unfold watch
    split
    · exact h.resolve_left nofun
    · exact h.resolve_left nofun

/-- What is left to a lease that ended: no slot is taken from it, no resize changes it, and its holds
are those of the slots still live. -/
structure Ended (w : Lease η) : Prop where
  admitSlot : ∀ session ask slot, .admitted (.ok slot) ∈ (w.admitSlot session ask).2 →
    slot.granted = false ∧ ∃ hold, ask = .ok hold ∧ slot.past = some hold
  resize : ∀ grant ask, (w.resize grant ask).1 = w
  measurements : w.state.measurements.length = w.granted
  sessions : w.state.sessions.length = w.grantedSessions
  free : w.granted = 0 → w.state.measurements = [] ∧ w.state.sessions = []

/-- An accounted lease that is over has ended. -/
theorem Over.toEnded (hover : w.Over) (h : w.Accounted) : w.Ended := by
  obtain ⟨hended, hgrant⟩ := hover
  have hm := h.measurements
  have hs := h.sessions
  rw [hgrant] at hm hs
  simp only [Nat.zero_max] at hm hs
  refine ⟨?_, ?_, hm, hs, ?_⟩
  · intro session ask slot hslot
    unfold Lease.admitSlot at hslot
    rw [if_neg (by rw [hgrant]; exact fun hleft => Nat.not_lt_zero _ hleft.1)] at hslot
    cases ask with
    | error full => simp at hslot
    | ok hold =>
      simp only [admitPast, List.mem_cons, reduceCtorEq, false_or, List.not_mem_nil, or_false,
        Event.admitted.injEq, Except.ok.injEq] at hslot
      subst hslot
      exact ⟨rfl, hold, rfl, rfl⟩
  · intro grant ask
    unfold Lease.resize
    rw [if_pos hended]
  · intro hnone
    have hle := w.grantedSessions_le
    exact ⟨List.eq_nil_of_length_eq_zero (by omega), List.eq_nil_of_length_eq_zero (by omega)⟩

/-! ## Every run -/

/-- What holds of a lease and its log. -/
structure Traced (log : List (Event η)) (w : Lease η) : Prop where
  accounted : w.Accounted
  ledger : acquired log = w.holds + released log
  ended : .ended ∈ log → w.Over

/-- A new lease has an empty log. -/
theorem traced_new : Traced [] (new : Lease η) := ⟨⟨rfl, rfl, rfl, rfl⟩, rfl, nofun⟩

/-- **One action** keeps the log and the accounts in step. -/
theorem Traced.step {log : List (Event η)} (h : Traced log w) {a : Action η}
    {events : List (Event η)} (hstep : w.step a = some (w', events)) :
    Traced (log ++ events) w' := by
  obtain ⟨haccounted, hbalance⟩ := kept_step h.accounted hstep
  refine ⟨haccounted, ?_, ?_⟩
  · rw [acquired_append, released_append, h.ledger]
    calc w.holds + released log + acquired events
        = acquired events + w.holds + released log := by ac_rfl
      _ = w'.holds + released events + released log := by rw [hbalance]
      _ = w'.holds + (released log + released events) := by ac_rfl
  · intro hended
    apply over_step hstep
    rcases List.mem_append.mp hended with hbefore | hnow
    · exact .inr (h.ended hbefore)
    · exact .inl hnow

/-- **A lease accounts for its capacity** after every sequence of resizes, admissions, ends of slots
and its end: its holds are the larger of its grant and the slots taken of it, its counters count them,
every hold it took is kept or was given back, a refused resize changes nothing, and once it ended its
holds are those of the slots still live. -/
theorem lease_accounts {actions : List (Action η)} {log : List (Event η)}
    (hrun : Machine.run step new actions = some (w, log)) :
    w.Accounted ∧ w.state.used.sessions ≤ w.state.used.measurements ∧
      acquired log = w.holds + released log ∧
      (∀ grant ask refusal, .resized (.error refusal) ∈ (w.resize grant ask).2 →
        (w.resize grant ask).1 = w ∧
          acquired (w.resize grant ask).2 = released (w.resize grant ask).2) ∧
      (.ended ∈ log → w.Ended) := by
  have hinv := Machine.run_induct Traced (fun _ _ _ _ _ h hstep => h.step hstep) traced_new hrun
  rw [List.nil_append] at hinv
  obtain ⟨haccounted, hledger, hover⟩ := hinv
  refine ⟨haccounted, ?_, hledger, fun _ _ _ => resize_refused, fun h => (hover h).toEnded haccounted⟩
  rw [haccounted.used]
  exact w.grantedSessions_le

/-- Two measurements, one of them a session, are taken; the grant is then lowered to none while the
session is live, a raise to two sessions is refused on its second hold, and the lease ends. -/
def lowered : List (Action ℕ) :=
  [.resize ⟨2, 1⟩ fun asked => .ok asked, .admitSlot true (.error .client),
    .resize ⟨0, 0⟩ fun _ => .error .client,
    .resize ⟨2, 3⟩ fun asked => if asked = 0 then .ok 7 else .error .total, .cancel, .finish]

/-- The lease ends with its live session's measurement held, and what was released accounted for. -/
theorem lease_accounts_lowered :
    ((Machine.run step new lowered).map fun (w, _) => w) =
      some ⟨⟨⟨0, 0⟩, ⟨1, 1⟩, [1], [0], 1, none⟩, true, [⟨true, true, none⟩]⟩ ∧
    ∀ w log, Machine.run step new lowered = some (w, log) →
      w.Accounted ∧ acquired log = w.holds + released log :=
  ⟨rfl, fun _ _ hrun => ⟨(lease_accounts hrun).1, (lease_accounts hrun).2.2.1⟩⟩

end Lease

end GraphiteMeter.Server.Admission
