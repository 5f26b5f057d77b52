import Mathlib.Data.List.Perm.Basic
import GraphiteMeter.Client.Probe
import GraphiteMeter.Lib.Machine

/-!
# Probe accounting

Reference: `rust/client/src/run/probe.rs`. What a schedule keeps over every order of its calls: each
probe is in flight or has its one outcome, the window is kept, and a late probe is not in flight.

Outcomes come from four places (`reply`, `expire`, `failed`, `lost`), and each takes out of `pending`
exactly the probes it resolves. So the numbers of the outcomes and of the probes in flight together
are those of the probes that went.
-/

namespace GraphiteMeter.Client

open Proto (Ping Pong)

namespace Schedule

/-- The numbers of the probes in flight. -/
def serials (s : Schedule) : List ℕ := s.pending.entries.map fun e => e.2.serial

/-- What every call keeps, with the outcomes given so far. -/
structure Inv (cadence : Cadence) (window start : ℕ) (log : List Outcome) (s : Schedule) : Prop where
  cadence_eq : s.cadence = cadence
  window_eq : s.window = window
  /-- Each probe that went is in flight or has one outcome. -/
  counted : (log.map (·.serial) ++ s.serials).Perm (List.range s.serial)
  pending_id : ∀ id flight, s.pending.lookup id = some flight → id.val = flight.serial % 2 ^ 32
  late_id : ∀ id late, s.late.lookup id = some late →
    id.val = late.serial % 2 ^ 32 ∧ late.serial < s.serial
  next_id : s.next.id.val = s.serial % 2 ^ 32
  room : s.pending.len ≤ window
  apart : ∀ id flight, s.pending.lookup id = some flight → s.late.lookup id = none
  grid : ∀ spacing, cadence = .every spacing → ∀ due ∈ s.due, ∃ k, due = start + k * spacing

/-! ## Probes in flight and late ones -/

/-- A pending probe's serial is among the pending ones. -/
theorem mem_serials {s : Schedule} {id : PingId} {flight : Flight}
    (h : s.pending.lookup id = some flight) : flight.serial ∈ s.serials :=
  List.mem_map.mpr ⟨⟨id, flight⟩, AList.mem_lookup_iff.mp h, rfl⟩

/-- The probes in flight are the pending ones, in some order. -/
theorem inFlight_perm (s : Schedule) : s.inFlight.Perm s.pending.entries :=
  List.mergeSort_perm _ _

/-- A flight taken out leaves the others. -/
theorem serials_erase {s : Schedule} {id : PingId} {flight : Flight}
    (h : s.pending.lookup id = some flight) :
    (flight.serial :: { s with pending := s.pending.erase id }.serials).Perm s.serials :=
  (AList.perm_cons_erase h).symm.map fun e : Sigma fun _ : PingId => Flight => e.2.serial

/-- The late probes after an expiry: remembered ones, and those that expired. -/
theorem lookup_foldl_late {expired : List (Sigma fun _ : PingId => Flight)}
    {late : HashMap PingId Late} {id : PingId} {found : Late}
    (h : (expired.foldl (fun late e => late.insert e.1 ⟨e.2.sent, e.2.serial⟩) late).lookup id =
      some found) :
    late.lookup id = some found ∨ ∃ flight, ⟨id, flight⟩ ∈ expired ∧ found.serial = flight.serial := by
  induction expired generalizing late with
  | nil => exact Or.inl h
  | cons e expired ih =>
    rcases ih h with h | ⟨flight, hmem, hserial⟩
    · rcases AList.lookup_insert_of_eq_some h with ⟨rfl, rfl⟩ | h
      · exact Or.inr ⟨e.2, List.mem_cons_self, rfl⟩
      · exact Or.inl h
    · exact Or.inr ⟨flight, List.mem_cons_of_mem _ hmem, hserial⟩

section
variable {cadence : Cadence} {window start : ℕ} {log : List Outcome} {s : Schedule}

/-- Pending serials have been issued. -/
theorem Inv.serial_lt (hinv : Inv cadence window start log s) {serial : ℕ} (h : serial ∈ s.serials) :
    serial < s.serial :=
  List.mem_range.mp (hinv.counted.subset (List.mem_append_right _ h))

/-- **The next id is free**: no probe of it is in flight or remembered as late. -/
theorem Inv.next_free (hinv : Inv cadence window start log s) {bound now : ℕ}
    (hbounded : s.Bounded bound now) :
    s.pending.lookup s.next.id = none ∧ s.late.lookup s.next.id = none := by
  -- A held probe of the same id went a multiple of 2^32 probes ago, and fewer went since.
  have hfree : ∀ serial ∈ s.held, serial < s.serial → s.next.id.val ≠ serial % 2 ^ 32 := by
    intro serial hmem hlt heq
    have hsince := hbounded.2 serial hmem
    rw [hinv.next_id] at heq
    omega
  constructor
  · rw [Option.eq_none_iff_forall_ne_some]
    intro flight hflight
    have hmem := mem_serials hflight
    exact hfree flight.serial (List.mem_append_left _ hmem) (hinv.serial_lt hmem)
      (hinv.pending_id _ _ hflight)
  · rw [Option.eq_none_iff_forall_ne_some]
    intro late hlate
    obtain ⟨hid, hlt⟩ := hinv.late_id _ _ hlate
    refine hfree late.serial (List.mem_append_right _ ?_) hlt hid
    exact List.mem_map.mpr ⟨⟨_, late⟩, AList.mem_lookup_iff.mp hlate, rfl⟩

/-- A new schedule keeps the invariant. -/
theorem inv_new : Inv cadence window start [] (new cadence window start) where
  cadence_eq := rfl
  window_eq := rfl
  counted := List.Perm.refl _
  pending_id _ _ h := by cases h
  late_id _ _ h := by cases h
  next_id := rfl
  room := Nat.zero_le _
  apart _ _ h := by cases h
  grid spacing _ due hdue := by
    cases hdue
    exact ⟨0, by omega⟩

/-! ## What each call keeps -/

/-- The slot after a send is one of the grid. -/
theorem Inv.grid_next (hinv : Inv cadence window start log s) {due now : ℕ} (hdue : s.due = some due)
    {spacing : ℕ} (hcadence : cadence = .every spacing) :
    ∃ k, s.nextDue due now = start + k * spacing := by
  obtain ⟨k, hk⟩ := hinv.grid spacing hcadence due hdue
  rw [nextDue, hinv.cadence_eq, hcadence]
  refine ⟨k + min (missed due spacing now + 1) (2 ^ 32 - 1), ?_⟩
  dsimp only
  rw [hk, Nat.add_mul, Nat.mul_comm spacing, Nat.add_assoc]

/-- Sending keeps the invariant. -/
theorem Inv.send (hinv : Inv cadence window start log s) {bound now : ℕ}
    (hbounded : s.Bounded bound now) : Inv cadence window start log (s.send now).2 := by
  obtain ⟨hpending, hlate⟩ := hinv.next_free hbounded
  have hnot : s.next.id ∉ s.pending := by
    rw [AList.mem_iff_exists_lookup]
    rintro ⟨flight, hflight⟩
    rw [hpending] at hflight
    cases hflight
  rw [Schedule.send]
  split
  · exact hinv
  next due hfilter =>
    obtain ⟨hdue, -⟩ := Option.filter_eq_some_iff.mp hfilter
    have hgrid : ∀ spacing, cadence = .every spacing →
        ∀ d ∈ some (s.nextDue due now), ∃ k, d = start + k * spacing := by
      rintro spacing hcadence d ⟨⟩
      exact hinv.grid_next hdue hcadence
    dsimp only
    split_ifs with hfull
    · exact { hinv with grid := hgrid }
    · refine ⟨hinv.cadence_eq, hinv.window_eq, ?_, ?_, ?_, ?_, ?_, ?_, hgrid⟩
      · -- The new probe is the one number more.
        have hentries : (s.pending.insert s.next.id
            ⟨now, now + s.deadline.get, s.serial⟩).entries =
              ⟨s.next.id, ⟨now, now + s.deadline.get, s.serial⟩⟩ :: s.pending.entries :=
          AList.entries_insert_of_notMem hnot
        rw [serials, hentries, List.map_cons, List.range_succ]
        exact List.perm_middle.trans ((List.Perm.cons _ hinv.counted).trans
          (List.perm_append_singleton _ _).symm)
      · intro id flight hflight
        rcases AList.lookup_insert_of_eq_some hflight with ⟨rfl, rfl⟩ | hflight
        · exact hinv.next_id
        · exact hinv.pending_id id flight hflight
      · intro id late hfound
        obtain ⟨hid, hlt⟩ := hinv.late_id id late hfound
        exact ⟨hid, Nat.lt_succ_of_lt hlt⟩
      · show (s.next.id + 1).val = (s.serial + 1) % 2 ^ 32
        rw [Fin.val_add, hinv.next_id, Nat.mod_add_mod]
        rfl
      · rw [AList.len_insert hnot]
        have := hinv.window_eq
        show s.pending.len + 1 ≤ window
        omega
      · intro id flight hflight
        rcases AList.lookup_insert_of_eq_some hflight with ⟨rfl, -⟩ | hflight
        · exact hlate
        · exact hinv.apart id flight hflight

/-- A flight taken out with its outcome. -/
theorem Inv.take (hinv : Inv cadence window start log s) {id : PingId} {flight : Flight}
    (h : s.pending.lookup id = some flight) (outcome : ProbeOutcome) :
    Inv cadence window start (log ++ [flight.resolve outcome])
      { s with pending := s.pending.erase id } where
  cadence_eq := hinv.cadence_eq
  window_eq := hinv.window_eq
  counted := by
    rw [List.map_append, List.append_assoc]
    exact ((serials_erase h).append_left _).trans hinv.counted
  pending_id other found hfound :=
    hinv.pending_id other found (AList.lookup_erase_eq_some.mp hfound).2
  late_id := hinv.late_id
  next_id := hinv.next_id
  room := (AList.entries_erase_sublist id s.pending).length_le.trans hinv.room
  apart other found hfound := hinv.apart other found (AList.lookup_erase_eq_some.mp hfound).2
  grid := hinv.grid

/-- Observing a round trip keeps the invariant. -/
theorem Inv.observe (hinv : Inv cadence window start log s) (rtt : ℕ) :
    Inv cadence window start log (s.observe rtt) :=
  ⟨hinv.cadence_eq, hinv.window_eq, hinv.counted, hinv.pending_id, hinv.late_id, hinv.next_id,
    hinv.room, hinv.apart, hinv.grid⟩

/-- A reply keeps the invariant. -/
theorem Inv.reply (hinv : Inv cadence window start log s) (pong : Pong) (now : ℕ) :
    Inv cadence window start (log ++ (s.reply pong now).1.toList) (s.reply pong now).2 := by
  rw [Schedule.reply]
  split
  next late _ =>
    rw [Option.toList_none, List.append_nil]
    refine Inv.observe ?_ _
    refine { hinv with late_id := ?_, apart := ?_ }
    · intro id found hfound
      exact hinv.late_id id found (AList.lookup_erase_eq_some.mp hfound).2
    · intro id flight hflight
      rw [Option.eq_none_iff_forall_ne_some]
      intro found hfound
      have := (AList.lookup_erase_eq_some.mp hfound).2
      rw [hinv.apart id flight hflight] at this
      cases this
  next =>
    split
    · rw [Option.toList_none, List.append_nil]
      exact hinv
    next flight hflight =>
      dsimp only
      rw [Option.toList_some]
      refine Inv.observe ?_ _
      generalize (if now < flight.deadline then ProbeOutcome.reply (now - flight.sent)
        pong.handlingNanos else .timeout) = outcome
      have htaken := hinv.take hflight outcome
      split_ifs with hdriven
      · -- A reply moves the next send only where no grid is kept.
        refine { htaken with grid := ?_ }
        intro spacing hcadence
        have := hinv.cadence_eq
        rw [hcadence, hdriven.1] at this
        cases this
      · exact htaken

/-- Expiring keeps the invariant. -/
theorem Inv.expire (hinv : Inv cadence window start log s) (now : ℕ) :
    Inv cadence window start (log ++ (s.expire now).1) (s.expire now).2 := by
  have hexpired : ∀ id flight, ⟨id, flight⟩ ∈ s.inFlight.filter (fun e => e.2.deadline ≤ now) →
      s.pending.lookup id = some flight ∧ flight.deadline ≤ now := by
    intro id flight hmem
    obtain ⟨hmem, hdeadline⟩ := List.mem_filter.mp hmem
    exact ⟨AList.mem_lookup_iff.mpr (s.inFlight_perm.subset hmem), of_decide_eq_true hdeadline⟩
  refine ⟨hinv.cadence_eq, hinv.window_eq, ?_, ?_, ?_, hinv.next_id, ?_, ?_, hinv.grid⟩
  · -- Those that expired and those that wait are the probes in flight.
    have hsplit : ((s.inFlight.filter fun e => e.2.deadline ≤ now) ++
        s.pending.entries.filter fun e => now < e.2.deadline).Perm s.pending.entries := by
      refine ((s.inFlight_perm.filter _).append_right _).trans ?_
      have hnot : (fun e : Sigma fun _ : PingId => Flight => decide (now < e.2.deadline)) =
          fun e => !decide (e.2.deadline ≤ now) := by
        funext e
        rw [← decide_not, decide_eq_decide, Nat.not_le]
      rw [hnot]
      exact List.filter_append_perm _ _
    have hserials := (hsplit.map fun e : Sigma fun _ : PingId => Flight => e.2.serial)
    rw [List.map_append] at hserials
    rw [List.map_append, List.append_assoc]
    refine (List.Perm.append_left _ ?_).trans hinv.counted
    show (((s.inFlight.filter _).map _).map _ ++ _).Perm _
    rw [List.map_map]
    exact hserials
  · intro id flight hflight
    exact hinv.pending_id id flight (AList.lookup_retain_eq_some.mp hflight).1
  · intro id late hlate
    rcases lookup_foldl_late hlate with hlate | ⟨flight, hmem, hserial⟩
    · exact hinv.late_id id late (AList.lookup_retain_eq_some.mp hlate).1
    · obtain ⟨hflight, -⟩ := hexpired id flight hmem
      rw [hserial]
      exact ⟨hinv.pending_id id flight hflight, hinv.serial_lt (mem_serials hflight)⟩
  · exact List.filter_sublist.length_le.trans hinv.room
  · intro id flight hflight
    obtain ⟨hflight, hwaiting⟩ := AList.lookup_retain_eq_some.mp hflight
    rw [Option.eq_none_iff_forall_ne_some]
    intro late hlate
    rcases lookup_foldl_late hlate with hlate | ⟨other, hmem, -⟩
    · have := (AList.lookup_retain_eq_some.mp hlate).1
      rw [hinv.apart id flight hflight] at this
      cases this
    · -- The probe of this id waits, so it is none of those that expired.
      obtain ⟨hother, hdeadline⟩ := hexpired id other hmem
      rw [hflight] at hother
      obtain rfl := Option.some.inj hother
      have := of_decide_eq_true hwaiting
      omega

/-- A failed send keeps the invariant. -/
theorem Inv.failed (hinv : Inv cadence window start log s) (ping : Ping) :
    Inv cadence window start (log ++ (s.failed ping).1.toList) (s.failed ping).2 := by
  rw [Schedule.failed]
  split
  · rw [Option.toList_none, List.append_nil]
    exact hinv
  next flight hflight => exact hinv.take hflight .sendFailed

/-- Losing the connection keeps the invariant. -/
theorem Inv.lost (hinv : Inv cadence window start log s) :
    Inv cadence window start (log ++ s.lost.1) s.lost.2 := by
  refine ⟨hinv.cadence_eq, hinv.window_eq, ?_, ?_, ?_, hinv.next_id, Nat.zero_le _, ?_, hinv.grid⟩
  · have hserials := s.inFlight_perm.map fun e : Sigma fun _ : PingId => Flight => e.2.serial
    rw [List.map_append, List.append_assoc]
    refine (List.Perm.append_left _ ?_).trans hinv.counted
    show (((s.inFlight.map _).map _) ++ []).Perm _
    rw [List.append_nil, List.map_map]
    exact hserials
  · intro id flight hflight
    cases hflight
  · intro id late hlate
    cases hlate
  · intro id flight hflight
    cases hflight

/-- Stopping keeps the invariant. -/
theorem Inv.stop (hinv : Inv cadence window start log s) :
    Inv cadence window start log s.stop :=
  { hinv with grid := fun _ _ _ hdue => by cases hdue }

/-- **Every call keeps the invariant.** -/
theorem Inv.step {bound : ℕ} {t : Schedule} {events : List Outcome} {action : Action}
    (hinv : Inv cadence window start log s) (hfit : s.Fit bound action)
    (hstep : s.step action = some (t, events)) : Inv cadence window start (log ++ events) t := by
  cases action with
  | send now =>
    obtain ⟨rfl, rfl⟩ := Prod.mk.inj (Option.some.inj hstep)
    rw [List.append_nil]
    exact hinv.send hfit
  | reply pong now =>
    obtain ⟨rfl, rfl⟩ := Prod.mk.inj (Option.some.inj hstep)
    exact hinv.reply pong now
  | expire now =>
    obtain ⟨rfl, rfl⟩ := Prod.mk.inj (Option.some.inj hstep)
    exact hinv.expire now
  | failed ping =>
    obtain ⟨rfl, rfl⟩ := Prod.mk.inj (Option.some.inj hstep)
    exact hinv.failed ping
  | lost =>
    obtain ⟨rfl, rfl⟩ := Prod.mk.inj (Option.some.inj hstep)
    exact hinv.lost
  | stop =>
    obtain ⟨rfl, rfl⟩ := Prod.mk.inj (Option.some.inj hstep)
    rw [List.append_nil]
    exact hinv.stop

/-- **Every run** that fits keeps the invariant. -/
theorem inv_of_run {bound : ℕ} {actions : List Action} {t : Schedule}
    (hfit : Machine.Fit (Fit bound) Schedule.step (new cadence window start) actions)
    (hrun : Machine.run Schedule.step (new cadence window start) actions = some (t, log)) :
    Inv cadence window start log t := by
  have h := Machine.run_induct_of_fit (Inv cadence window start)
    (fun log s a t events hinv hfit hstep => Inv.step hinv hfit hstep) [] inv_new hfit hrun
  rwa [List.nil_append] at h

/-! ## After a stop -/

/-- A stopped schedule sends nothing. -/
theorem send_stopped (h : s.due = none) (now : ℕ) : s.send now = (none, s) := by
  rw [Schedule.send, h]
  rfl

/-- A reply leaves a stopped schedule stopped. -/
theorem reply_stopped (h : s.due = none) (pong : Pong) (now : ℕ) :
    (s.reply pong now).2.due = none ∧ (s.reply pong now).2.serial = s.serial := by
  rw [Schedule.reply]
  split
  · exact ⟨h, rfl⟩
  · split
    · exact ⟨h, rfl⟩
    · have hdriven : ¬(s.cadence = .replyDriven ∧ s.due.isSome) := by
        rw [h]
        exact fun hsome => absurd hsome.2 Bool.false_ne_true
      dsimp only
      rw [if_neg hdriven]
      exact ⟨h, rfl⟩

/-- A failed send leaves a stopped schedule stopped. -/
theorem failed_stopped (h : s.due = none) (ping : Ping) :
    (s.failed ping).2.due = none ∧ (s.failed ping).2.serial = s.serial := by
  rw [Schedule.failed]
  split <;> exact ⟨h, rfl⟩

/-- **A stopped schedule sends nothing more.** -/
theorem run_stopped {actions : List Action} {t : Schedule} {events : List Outcome}
    (h : s.due = none) (hrun : Machine.run Schedule.step s actions = some (t, events)) :
    t.serial = s.serial := by
  refine (Machine.run_keeps (fun u : Schedule => u.due = none ∧ u.serial = s.serial) ?_
    ⟨h, rfl⟩ hrun).2
  rintro u action v logged ⟨hdue, hserial⟩ hstep
  cases action with
  | send now =>
    obtain ⟨rfl, -⟩ := Prod.mk.inj (Option.some.inj hstep)
    rw [send_stopped hdue]
    exact ⟨hdue, hserial⟩
  | reply pong now =>
    obtain ⟨rfl, -⟩ := Prod.mk.inj (Option.some.inj hstep)
    obtain ⟨hdue', hserial'⟩ := reply_stopped hdue pong now
    exact ⟨hdue', hserial'.trans hserial⟩
  | expire now =>
    obtain ⟨rfl, -⟩ := Prod.mk.inj (Option.some.inj hstep)
    exact ⟨hdue, hserial⟩
  | failed ping =>
    obtain ⟨rfl, -⟩ := Prod.mk.inj (Option.some.inj hstep)
    obtain ⟨hdue', hserial'⟩ := failed_stopped hdue ping
    exact ⟨hdue', hserial'.trans hserial⟩
  | lost =>
    obtain ⟨rfl, -⟩ := Prod.mk.inj (Option.some.inj hstep)
    exact ⟨hdue, hserial⟩
  | stop =>
    obtain ⟨rfl, -⟩ := Prod.mk.inj (Option.some.inj hstep)
    exact ⟨rfl, hserial⟩

/-! ## Waking -/

/-- The next slot lies ahead, where the slots missed at once are few enough to step over. -/
theorem lt_nextDue {due now : ℕ} (hbounded : s.Bounded (2 ^ 32 - 1) now) (hdue : s.due = some due) :
    now < s.nextDue due now := by
  rw [nextDue]
  split
  · have := s.deadline.get_pos
    omega
  next spacing hcadence =>
    obtain ⟨hpos, hmissed⟩ : 0 < spacing ∧ ∀ due ∈ s.due, missed due spacing now < 2 ^ 32 - 1 := by
      have hspaced := hbounded.1
      rwa [hcadence] at hspaced
    have hmissed := hmissed due hdue
    have hstep : now - due < spacing * ((now - due) / spacing + 1) := Nat.lt_mul_div_succ _ hpos
    rw [missed, Nat.max_eq_left hpos] at hmissed ⊢
    rw [Nat.min_eq_left (by omega)]
    omega

/-- A wake-up time is when the next probe is due, or a deadline. -/
theorem wake_cases {wake : ℕ} (h : s.wake = some wake) :
    s.due = some wake ∨ ∃ id flight, s.pending.lookup id = some flight ∧ flight.deadline = wake := by
  have hmem := List.min?_mem h
  rcases List.mem_append.mp hmem with hdue | hdeadline
  · exact Or.inl (Option.mem_toList.mp hdue)
  · obtain ⟨⟨id, flight⟩, hflight, rfl⟩ := List.mem_map.mp hdeadline
    exact Or.inr ⟨id, flight, AList.mem_lookup_iff.mpr (s.inFlight_perm.subset hflight), rfl⟩

/-- **After an expiry and a send the schedule wakes later.** -/
theorem lt_wake {now wake : ℕ} (hbounded : (s.expire now).2.Bounded (2 ^ 32 - 1) now)
    (h : ((s.expire now).2.send now).2.wake = some wake) : now < wake := by
  have hwaiting : ∀ id flight, (s.expire now).2.pending.lookup id = some flight →
      now < flight.deadline := by
    intro id flight hflight
    exact of_decide_eq_true (AList.lookup_retain_eq_some.mp hflight).2
  generalize (s.expire now).2 = t at hbounded h hwaiting
  rw [Schedule.send] at h
  split at h
  next hfilter =>
    rcases wake_cases h with hdue | ⟨id, flight, hflight, rfl⟩
    · have := Option.filter_eq_none_iff.mp hfilter wake hdue
      rw [decide_eq_true_eq] at this
      omega
    · exact hwaiting id flight hflight
  next due hfilter =>
    obtain ⟨hdue, -⟩ := Option.filter_eq_some_iff.mp hfilter
    have hnext := lt_nextDue hbounded hdue
    dsimp only at h
    split_ifs at h
    · rcases wake_cases h with hwake | ⟨id, flight, hflight, rfl⟩
      · rw [← Option.some.inj hwake]
        exact hnext
      · exact hwaiting id flight hflight
    · rcases wake_cases h with hwake | ⟨id, flight, hflight, rfl⟩
      · rw [← Option.some.inj hwake]
        exact hnext
      · rcases AList.lookup_insert_of_eq_some hflight with ⟨rfl, rfl⟩ | hflight
        · exact Nat.lt_add_of_pos_right t.deadline.get_pos
        · exact hwaiting id flight hflight

/-! ## Replies -/

/-- A reply that resolves a probe finds it in flight. -/
theorem reply_eq_none {pong : Pong} (h : s.pending.lookup pong.id = none) (now : ℕ) :
    (s.reply pong now).1 = none := by
  rw [Schedule.reply]
  split
  · rfl
  · rw [h]

/-- No reply of this id resolves another probe after one came. -/
theorem reply_again (hinv : Inv cadence window start log s) (pong : Pong) (now : ℕ) :
    (s.reply pong now).2.pending.lookup pong.id = none := by
  rw [Schedule.reply]
  split
  next late hlate =>
    -- A late probe is not in flight.
    show s.pending.lookup pong.id = none
    rw [Option.eq_none_iff_forall_ne_some]
    intro flight hflight
    rw [hinv.apart _ _ hflight] at hlate
    cases hlate
  next =>
    split
    next hnone => exact hnone
    next flight hflight =>
      dsimp only
      split_ifs <;> exact AList.lookup_erase pong.id s.pending

/-! ## The accounting -/

/-- The number of a probe that went is in flight or among the outcomes, and only once. -/
theorem Inv.resolved (hinv : Inv cadence window start log s) {serial : ℕ} (h : serial < s.serial) :
    (serial ∈ s.serials ∧ serial ∉ log.map (·.serial)) ∨
      serial ∉ s.serials ∧ (log.map (·.serial)).count serial = 1 := by
  have hone : (log.map (·.serial)).count serial + s.serials.count serial = 1 := by
    rw [← List.count_append, hinv.counted.count_eq]
    exact List.count_eq_one_of_mem List.nodup_range (List.mem_range.mpr h)
  by_cases hpending : serial ∈ s.serials
  · have hcount := List.count_pos_iff.mpr hpending
    exact Or.inl ⟨hpending, List.count_eq_zero.mp (by omega)⟩
  · have hcount := List.count_eq_zero.mpr hpending
    exact Or.inr ⟨hpending, by omega⟩

/-- **Probe accounting.** -/
theorem probe_accounting {actions : List Action}
    (hfit : Machine.Fit (Fit (2 ^ 32 - 1)) Schedule.step (new cadence window start) actions)
    (hrun : Machine.run Schedule.step (new cadence window start) actions = some (s, log)) :
    (∀ serial < s.serial, (serial ∈ s.serials ∧ serial ∉ log.map (·.serial)) ∨
        serial ∉ s.serials ∧ (log.map (·.serial)).count serial = 1) ∧
      (∀ outcome ∈ log, outcome.serial < s.serial) ∧
      s.pending.len ≤ window ∧
      (∀ id ∈ s.pending, id ∉ s.late) ∧
      (∀ (pong : Pong) (now : ℕ), pong.id ∉ s.pending → (s.reply pong now).1 = none) ∧
      (∀ (pong again : Pong) (now later : ℕ), again.id = pong.id →
        ((s.reply pong now).2.reply again later).1 = none) ∧
      (∀ (later : List Action) (t : Schedule) (events : List Outcome),
        Machine.run Schedule.step s (.stop :: later) = some (t, events) → t.serial = s.serial) ∧
      (∀ now wake, (s.expire now).2.Bounded (2 ^ 32 - 1) now →
        ((s.expire now).2.send now).2.wake = some wake → now < wake) ∧
      ∀ spacing, cadence = .every spacing → ∀ due ∈ s.due, ∃ k, due = start + k * spacing := by
  have hinv := inv_of_run hfit hrun
  refine ⟨fun serial => hinv.resolved, ?_, hinv.room, ?_, ?_, ?_, ?_, fun now wake => lt_wake,
    hinv.grid⟩
  · intro outcome hmem
    exact List.mem_range.mp
      (hinv.counted.subset (List.mem_append_left _ (List.mem_map_of_mem hmem)))
  · intro id hid
    obtain ⟨flight, hflight⟩ := AList.mem_iff_exists_lookup.mp hid
    rw [← AList.lookup_eq_none]
    exact hinv.apart id flight hflight
  · intro pong now hid
    exact reply_eq_none (AList.lookup_eq_none.mpr hid) now
  · intro pong again now later heq
    apply reply_eq_none
    rw [heq]
    exact reply_again hinv pong now
  · intro later t events hstopped
    obtain ⟨u, first, rest, hstop, hrest, -⟩ := Machine.run_cons_iff.mp hstopped
    obtain ⟨rfl, -⟩ := Prod.mk.inj (Option.some.inj hstop)
    exact run_stopped (s := s.stop) rfl hrest

end

/-- With one slot missed more than the next due time reaches over, the schedule wakes at once: the
grid's spacing is a nanosecond, and the first send comes after 2^32 - 1 of them. -/
theorem wakes_at_once :
    missed 0 1 (2 ^ 32 - 1) < 2 ^ 32 ∧
      ((new (.every 1) 16 0).expire (2 ^ 32 - 1)).2.Bounded (2 ^ 32) (2 ^ 32 - 1) ∧
      (((new (.every 1) 16 0).expire (2 ^ 32 - 1)).2.send (2 ^ 32 - 1)).2.wake =
        some (2 ^ 32 - 1) := by
  refine ⟨by decide, by decide +kernel, by decide +kernel⟩

/-- Two probes, a reply to the first, its duplicate, and the second's deadline. -/
def twoProbes : List Action :=
  [.send 0, .send 1000, .reply ⟨0, 5⟩ 2000, .reply ⟨0, 5⟩ 3000, .expire (10 ^ 9), .stop]

/-- Two probes, one answered and one timed out. -/
theorem probe_accounting_two :
    ∃ s log, Machine.run step (new (.every 1000) 2 0) twoProbes = some (s, log) ∧
      s.pending.len ≤ 2 ∧ s.serial = 2 ∧ log.map (·.outcome) = [.reply 2000 5, .timeout] ∧
      ∀ serial < s.serial, (serial ∈ s.serials ∧ serial ∉ log.map (·.serial)) ∨
        serial ∉ s.serials ∧ (log.map (·.serial)).count serial = 1 := by
  have hfit : Machine.Fit (Fit (2 ^ 32 - 1)) step (new (.every 1000) 2 0) twoProbes := by
    decide +kernel
  have heval : (Machine.run step (new (.every 1000) 2 0) twoProbes).map (fun (s, log) =>
      (s.serial, log.map (·.outcome))) = some (2, [.reply 2000 5, .timeout]) := by
    decide +kernel
  obtain ⟨⟨s, log⟩, hrun, hend⟩ := Option.map_eq_some_iff.mp heval
  obtain ⟨hserial, hlog⟩ := Prod.mk.inj hend
  obtain ⟨hresolved, -, hroom, -⟩ := probe_accounting hfit hrun
  exact ⟨s, log, hrun, hroom, hserial, hlog, hresolved⟩

end Schedule

end GraphiteMeter.Client
