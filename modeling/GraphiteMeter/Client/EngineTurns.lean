import GraphiteMeter.Client.Engine

/-!
# Turns of the stage engine

`Progress` is the protocol a stage's decisions keep to, whatever the engine does with its seats.
`Turn` holds midway through a tick: of the phase the tick has reached so far, the decisions it has
taken and the members it has removed. Each function of the engine takes a turn to a turn.
-/

namespace GraphiteMeter.Client

open GraphiteMeter.Measure (Aggregate ServerId Stage)

/-! ## The protocol of a stage -/

/-- How far a stage came. -/
inductive Progress where
  | before
  | opened
  | closed
  | ended
deriving DecidableEq, Repr

namespace Decision

def opens : Decision → Bool
  | .openWindow _ _ => true
  | _ => false

def closes : Decision → Bool
  | .closeWindow => true
  | _ => false

def finishes : Decision → Bool
  | .finish => true
  | _ => false

/-- A decision that leaves the stage where it is. -/
def idle : Decision → Bool
  | .checkpoint _ | .failed _ | .remove _ => true
  | _ => false

def leaver : Decision → Option ServerId
  | .remove failure => some failure.server
  | _ => none

end Decision

/-- The servers a log removes, in order. -/
def leavers (log : List Decision) : List ServerId := log.filterMap Decision.leaver

@[simp]
theorem leavers_append (first later : List Decision) :
    leavers (first ++ later) = leavers first ++ leavers later := List.filterMap_append

namespace Progress

/-- Where a decision takes the stage, if the protocol allows it there. -/
def advance : Progress → Decision → Option Progress
  | .ended, _ => none
  | .before, .openWindow _ _ => some .opened
  | .opened, .closeWindow => some .closed
  | _, .openWindow _ _ | _, .closeWindow => none
  | _, .finish => some .ended
  | p, .checkpoint _ | p, .failed _ | p, .remove _ => some p

/-- Where a log takes the stage. -/
def run (p : Progress) (log : List Decision) : Option Progress := log.foldlM advance p

variable {p q : Progress} {d : Decision} {log first later : List Decision}

/-- A log starts with one decision. -/
theorem run_cons (p : Progress) (d : Decision) (log : List Decision) :
    run p (d :: log) = (advance p d).bind fun q => run q log := rfl

/-- Two logs come one after the other. -/
theorem run_append (p : Progress) (first later : List Decision) :
    run p (first ++ later) = (run p first).bind fun q => run q later := List.foldlM_append

/-- The second log starts where the first came to. -/
theorem run_append_eq (hfirst : run p first = some q) : run p (first ++ later) = run q later := by
  rw [run_append, hfirst, Option.bind_some]

/-- A decision that opens and closes nothing leaves the progress. -/
theorem advance_idle (hp : p ≠ .ended) (hd : d.idle = true) : advance p d = some p := by
  cases d with
  | checkpoint | failed | remove => cases p <;> first | rfl | exact absurd rfl hp
  | openWindow | closeWindow | finish => cases hd

/-- So does a log of them. -/
theorem run_idle (hp : p ≠ .ended) (hlog : ∀ d ∈ log, d.idle = true) : run p log = some p := by
  induction log with
  | nil => rfl
  | cons d log ih =>
    rw [run_cons, advance_idle hp (hlog d List.mem_cons_self), Option.bind_some]
    exact ih fun d hd => hlog d (List.mem_cons_of_mem _ hd)

/-- A stage may finish from anywhere but its end. -/
theorem run_finish (hp : p ≠ .ended) : run p [.finish] = some .ended := by
  cases p <;> first | rfl | exact absurd rfl hp

/-- Nothing is decided once a stage ended. -/
theorem run_ended (h : run .ended log = some q) : log = [] := by
  cases log with
  | nil => rfl
  | cons d log => cases h

/-- A kind of decision that uses up a potential is taken no more often than there is of it. -/
theorem countP_add_le (potential : Progress → ℕ) (kind : Decision → Bool)
    (hadvance : ∀ p d q, advance p d = some q →
      (if kind d = true then 1 else 0) + potential q ≤ potential p)
    (h : run p log = some q) : log.countP kind + potential q ≤ potential p := by
  induction log generalizing p with
  | nil =>
    cases h
    simp
  | cons d log ih =>
    rw [run_cons] at h
    obtain ⟨r, hd, hlog⟩ := Option.bind_eq_some_iff.mp h
    have hhead := hadvance p d r hd
    have htail := ih hlog
    rw [List.countP_cons]
    omega

/-- How many windows may still open. -/
def opensLeft : Progress → ℕ
  | .before => 1
  | _ => 0

/-- How many windows may still close. -/
def closesLeft : Progress → ℕ
  | .before | .opened => 1
  | _ => 0

/-- A stage opens one window at most. -/
theorem countP_opens_le (h : run .before log = some q) : log.countP Decision.opens ≤ 1 := by
  have hle := countP_add_le opensLeft Decision.opens (by
    intro p d q hd
    cases p <;> cases d <;> cases hd <;> simp [Decision.opens, opensLeft]) h
  exact (Nat.le_add_right _ _).trans hle

/-- A stage closes one window at most. -/
theorem countP_closes_le (h : run .before log = some q) : log.countP Decision.closes ≤ 1 := by
  have hle := countP_add_le closesLeft Decision.closes (by
    intro p d q hd
    cases p <;> cases d <;> cases hd <;> simp [Decision.closes, closesLeft]) h
  exact (Nat.le_add_right _ _).trans hle

/-- A stage that finishes decides nothing more, and had not finished before. -/
theorem finish_last (h : run p (first ++ .finish :: later) = some q) :
    later = [] ∧ .finish ∉ first := by
  rw [run_append] at h
  obtain ⟨r, hfirst, hrest⟩ := Option.bind_eq_some_iff.mp h
  rw [run_cons] at hrest
  obtain ⟨s, hfinish, hlater⟩ := Option.bind_eq_some_iff.mp hrest
  have hended : s = .ended ∧ r ≠ .ended := by
    cases r <;> cases hfinish <;> exact ⟨rfl, nofun⟩
  rw [hended.1] at hlater
  refine ⟨run_ended hlater, fun hmem => ?_⟩
  obtain ⟨before, after, rfl⟩ := List.append_of_mem hmem
  rw [run_append] at hfirst
  obtain ⟨t, -, hrest⟩ := Option.bind_eq_some_iff.mp hfirst
  rw [run_cons] at hrest
  obtain ⟨u, hu, hafter⟩ := Option.bind_eq_some_iff.mp hrest
  have hu : u = .ended := by cases t <;> cases hu <;> rfl
  subst hu
  obtain rfl := run_ended hafter
  cases hafter
  exact hended.2 rfl

/-- Only opening a window makes it open. -/
theorem eq_open_of_advance (hp : p ≠ .opened) (h : advance p d = some .opened) :
    ∃ start end_, d = .openWindow start end_ := by
  cases p <;> cases d <;> first | exact ⟨_, _, rfl⟩ | exact absurd rfl hp | cases h

/-- A stage is open because its window was opened. -/
theorem exists_open_of_opened (hp : p ≠ .opened) (h : run p log = some .opened) :
    ∃ start end_, .openWindow start end_ ∈ log := by
  induction log generalizing p with
  | nil =>
    cases h
    exact absurd rfl hp
  | cons d log ih =>
    rw [run_cons] at h
    obtain ⟨r, hd, hlog⟩ := Option.bind_eq_some_iff.mp h
    by_cases hr : r = .opened
    · subst hr
      obtain ⟨start, end_, rfl⟩ := eq_open_of_advance hp hd
      exact ⟨start, end_, List.mem_cons_self⟩
    · obtain ⟨start, end_, hmem⟩ := ih hr hlog
      exact ⟨start, end_, List.mem_cons_of_mem _ hmem⟩

/-- A window that closes was opened before. -/
theorem open_of_close (h : run .before (first ++ .closeWindow :: later) = some q) :
    ∃ start end_, .openWindow start end_ ∈ first := by
  rw [run_append] at h
  obtain ⟨r, hfirst, hrest⟩ := Option.bind_eq_some_iff.mp h
  rw [run_cons] at hrest
  obtain ⟨s, hclose, -⟩ := Option.bind_eq_some_iff.mp hrest
  have hr : r = .opened := by
    cases r <;> cases hclose
    rfl
  subst hr
  exact exists_open_of_opened (by decide) hfirst

end Progress

def Phase.progress : Phase → Progress
  | .ready | .warmup _ | .opening _ => .before
  | .measuring _ _ => .opened
  | .draining _ _ => .closed
  | .done _ _ => .ended

/-! ## The members -/

namespace Engine

variable {e : Engine} {index : ℕ} {change : Seat → Seat}

/-- Who sits where and is still there, which is all that membership is about. -/
def roster (e : Engine) : List (ServerId × Bool) :=
  e.seats.map fun seat => (seat.server, seat.present)

/-- The index of a member that is present. -/
def Seated (e : Engine) (index : ℕ) : Prop := ∃ server, e.roster[index]? = some (server, true)

/-- Two engines that differ in no phase, plan or membership. -/
structure Alike (e e' : Engine) : Prop where
  phase : e'.phase = e.phase
  plan : e'.plan = e.plan
  roster : e'.roster = e.roster

/-- An engine is like itself. -/
theorem Alike.refl (e : Engine) : e.Alike e := ⟨rfl, rfl, rfl⟩

/-- Likeness goes on. -/
theorem Alike.trans {e' e'' : Engine} (h : e.Alike e') (h' : e'.Alike e'') : e.Alike e'' :=
  ⟨h'.phase.trans h.phase, h'.plan.trans h.plan, h'.roster.trans h.roster⟩

/-- A like engine seats the same servers. -/
theorem Seated.alike {e' : Engine} (h : e.Seated index) (halike : e.Alike e') : e'.Seated index := by
  rw [Seated, halike.roster]
  exact h

/-- The servers that remain are the present ones of the roster. -/
theorem remaining_eq (e : Engine) :
    e.remaining = (e.roster.filter fun seat => seat.2).map Prod.fst := by
  rw [remaining, present, roster, List.filter_map, List.map_map]
  rfl

/-- Engines with one roster have the same servers left. -/
theorem remaining_congr {e' : Engine} (h : e'.roster = e.roster) : e'.remaining = e.remaining := by
  rw [remaining_eq, remaining_eq, h]

/-- What a change commutes with reads the changed list. -/
theorem map_modify {α β : Type*} {f : α → α} {f' : β → β} {g : α → β}
    (hcomm : ∀ a, g (f a) = f' (g a)) (l : List α) (index : ℕ) :
    (l.modify index f).map g = (l.map g).modify index f' := by
  induction l generalizing index with
  | nil => rw [List.modify_nil, List.map_nil, List.modify_nil]
  | cons a l ih =>
    cases index with
    | zero => simp [hcomm]
    | succ index => simp [ih]

/-- A change that keeps server and presence keeps the engine alike. -/
theorem alike_modify (e : Engine) (index : ℕ) (change : Seat → Seat)
    (hkeeps : ∀ seat, ((change seat).server, (change seat).present) = (seat.server, seat.present)) :
    e.Alike (e.modify index change) where
  phase := rfl
  plan := rfl
  roster := (map_modify hkeeps e.seats index).trans (List.modify_id index e.roster)

/-- So does one of all seats. -/
theorem alike_map (e : Engine) (change : Seat → Seat)
    (hkeeps : ∀ seat, ((change seat).server, (change seat).present) = (seat.server, seat.present)) :
    e.Alike { e with seats := e.seats.map change } where
  phase := rfl
  plan := rfl
  roster := by
    rw [roster, roster, List.map_map]
    exact List.map_congr_left fun seat _ => hkeeps seat

/-- A failure that ends the membership takes the member off the roster, others leave it alone. -/
theorem fail_roster {seat : Seat} (hseat : e.seats[index]? = some seat) (scope : Scope)
    (cause : Failure) (at_ : ℕ) (leaves : Bool) (out : List Decision) :
    (e.fail index scope cause at_ leaves out).1.roster
      = e.roster.modify index fun seat => (seat.1, seat.2 && !leaves) := by
  rw [fail, hseat]
  have hcomm : ∀ s : Seat, (s.server, s.present && !leaves) =
      (fun seat : ServerId × Bool => (seat.1, seat.2 && !leaves)) (s.server, s.present) := fun _ => rfl
  exact map_modify (f := fun seat : Seat => { seat with present := seat.present && !leaves })
    (g := fun seat : Seat => (seat.server, seat.present)) hcomm e.seats index

@[simp]
theorem fail_phase (e : Engine) (index : ℕ) (scope : Scope) (cause : Failure) (at_ : ℕ)
    (leaves : Bool) (out : List Decision) :
    (e.fail index scope cause at_ leaves out).1.phase = e.phase := by
  rw [fail]
  split <;> rfl

@[simp]
theorem fail_plan (e : Engine) (index : ℕ) (scope : Scope) (cause : Failure) (at_ : ℕ)
    (leaves : Bool) (out : List Decision) :
    (e.fail index scope cause at_ leaves out).1.plan = e.plan := by
  rw [fail]
  split <;> rfl

/-- Who stays for a failure stays on the roster. -/
theorem fail_stays_roster (roster : List (ServerId × Bool)) (index : ℕ) :
    (roster.modify index fun seat => (seat.1, seat.2 && !false)) = roster := by
  have hstays : (fun seat : ServerId × Bool => (seat.1, seat.2 && !false)) = id := by
    funext seat
    rw [Bool.not_false, Bool.and_true, id]
  rw [hstays, List.modify_id]

/-- A failure is decided once: the server leaves, or has failed. -/
theorem fail_decisions {seat : Seat} (hseat : e.seats[index]? = some seat) (scope : Scope)
    (cause : Failure) (at_ : ℕ) (leaves : Bool) (out : List Decision) :
    (e.fail index scope cause at_ leaves out).2 = out ++
      [if leaves then .remove ⟨seat.server, scope, cause, at_⟩
        else .failed ⟨seat.server, scope, cause, at_⟩] := by
  rw [fail, hseat]

/-- A present seat is seated. -/
theorem seated_of_seat {seat : Seat} (hseat : e.seats[index]? = some seat)
    (hpresent : seat.present = true) : e.Seated index := by
  refine ⟨seat.server, ?_⟩
  rw [roster, List.getElem?_map, hseat, Option.map_some, hpresent]

/-- A server with an index is seated. -/
theorem seated_of_index {server : ServerId} (h : e.index server = some index) : e.Seated index := by
  obtain ⟨hindex, hseat, -⟩ := List.findIdx?_eq_some_iff_getElem.mp h
  rw [Bool.and_eq_true] at hseat
  exact seated_of_seat (List.getElem?_eq_getElem hindex) hseat.1

/-- A missed report changes only counts. -/
theorem missed_alike (e : Engine) (index : ℕ) (seat : Seat) (sample : Option Sample) (now : ℕ)
    (last : Bool) : e.Alike (e.missed index seat sample now last).2 := by
  unfold missed
  cases sample with
  | none => exact .refl e
  | some sample =>
    simp only
    split
    · exact e.alike_modify index _ fun _ => rfl
    · exact e.alike_modify index _ fun _ => rfl

/-- Whoever departs at a boundary was there, and the boundary itself moves nobody. -/
theorem departure_spec (e : Engine) (index : ℕ) (input : Input) (last : Bool) :
    e.Alike (e.departure index input last).2 ∧
      ∀ failure, (e.departure index input last).1 = some failure → e.Seated index := by
  rw [departure]
  cases hseat : e.seats[index]? with
  | none => exact ⟨.refl e, nofun⟩
  | some seat =>
    simp only
    by_cases habsent : seat.present = false
    · rw [if_pos habsent]
      exact ⟨.refl e, nofun⟩
    · rw [if_neg habsent]
      rw [Bool.not_eq_false] at habsent
      have halike := e.missed_alike index seat (input.sample seat.server) input.now last
      have hseated := seated_of_seat hseat habsent
      split
      · next hmissed =>
        rw [hmissed] at halike
        exact ⟨halike, fun _ _ => hseated⟩
      · next hmissed =>
        rw [hmissed] at halike
        exact ⟨halike, fun _ _ => hseated⟩

/-- A failure takes nobody else off the roster. -/
theorem Seated.fail {other : ℕ} (h : e.Seated other) (hne : index ≠ other) (scope : Scope)
    (cause : Failure) (at_ : ℕ) (leaves : Bool) (out : List Decision) :
    (e.fail index scope cause at_ leaves out).1.Seated other := by
  cases hseat : e.seats[index]? with
  | none =>
    rw [Engine.fail, hseat]
    exact h
  | some seat =>
    rw [Seated, fail_roster hseat, List.getElem?_modify_ne _ _ hne]
    exact h

/-- A failed probe leaves the other seats. -/
theorem Seated.latencyFailed {other : ℕ} (h : e.Seated other) (hne : index ≠ other)
    (failure : Failure) (at_ : ℕ) (out : List Decision) :
    (e.latencyFailed index failure at_ out).1.Seated other := by
  rw [Engine.latencyFailed]
  split
  · exact h
  · have hstill := h.alike (e.alike_modify index (fun seat => { seat with probing := .failed })
      fun _ => rfl)
    simp only
    split
    · exact hstill.fail hne _ _ _ _ _
    · exact hstill.fail hne _ _ _ _ _

/-- The late members are present ones. -/
theorem seated_of_late {input : Input} {late : ℕ × Bool} (h : late ∈ e.late input) :
    e.Seated late.1 := by
  obtain ⟨⟨seat, index⟩, hmem, hlate⟩ := List.mem_filterMap.mp h
  simp only at hlate
  split_ifs at hlate with hcond
  rw [Bool.and_eq_true] at hcond
  cases hlate
  exact seated_of_seat (List.mk_mem_zipIdx_iff_getElem?.mp hmem) hcond.1

/-- No member is late twice. -/
theorem late_nodup (e : Engine) (input : Input) : ((e.late input).map Prod.fst).Nodup := by
  have hindices : (e.seats.zipIdx.map Prod.snd).Nodup := by
    rw [List.zipIdx_map_snd]
    exact List.nodup_range'
  rw [List.Nodup, List.pairwise_map] at hindices ⊢
  refine hindices.filterMap _ fun a a' hne b hb b' hb' => ?_
  simp only at hb hb'
  split_ifs at hb hb'
  cases hb
  cases hb'
  exact hne

/-- Who leaves was there, and everyone else stays where they are. -/
theorem leave {server : ServerId} {roster : List (ServerId × Bool)}
    (h : roster[index]? = some (server, true)) :
    ∃ before after, (roster.filter fun seat => seat.2).map Prod.fst = before ++ server :: after ∧
      ((roster.modify index fun seat => (seat.1, false)).filter fun seat => seat.2).map Prod.fst
        = before ++ after := by
  induction roster generalizing index with
  | nil => cases h
  | cons seat roster ih =>
    cases index with
    | zero =>
      rw [List.getElem?_cons_zero, Option.some.injEq] at h
      subst h
      exact ⟨[], _, rfl, rfl⟩
    | succ index =>
      obtain ⟨before, after, hall, hrest⟩ := ih h
      obtain ⟨id, here⟩ := seat
      cases here with
      | false => exact ⟨before, after, hall, hrest⟩
      | true =>
        refine ⟨id :: before, after, ?_, ?_⟩
        · exact congrArg (List.cons id) hall
        · exact congrArg (List.cons id) hrest

end Engine

/-! ## Midway through a tick -/

/-- The members still there count in the window's current interval, and so did everyone in it when
the tick began. -/
def Crewed (stage : Stage) (survivors remaining : List ServerId) (window : Option Window) : Prop :=
  ∀ w, window = some w → stage.directions ≠ [] → remaining ≠ [] →
    ∃ aggregate, w.aggregate = some aggregate ∧ remaining.Sublist aggregate.participants ∧
      aggregate.participants.Sublist survivors

/-- Where there is no window nobody has to count in it. -/
theorem crewed_none {stage : Stage} {survivors remaining : List ServerId} :
    Crewed stage survivors remaining none := fun _ h => nomatch h

/-- A shorter list of members is still crewed. -/
theorem Crewed.mono {stage : Stage} {survivors remaining fewer : List ServerId}
    {window : Option Window} (h : Crewed stage survivors remaining window)
    (hsub : fewer.Sublist remaining) : Crewed stage survivors fewer window := by
  intro w hw hmoves hsome
  have hremaining : remaining ≠ [] := by
    rintro rfl
    exact hsome (List.sublist_nil.mp hsub)
  obtain ⟨aggregate, haggregate, hfirst, hlast⟩ := h w hw hmoves hremaining
  exact ⟨aggregate, haggregate, hsub.trans hfirst, hlast⟩

/-- A window opens with the members present as its crew. -/
theorem crewed_new {plan first : StagePlan} {survivors remaining : List ServerId} (hplan : plan = first)
    (hsub : remaining.Sublist survivors) (start end_ now : ℕ) (b : Measure.Boundary) :
    Crewed first.stage survivors remaining (some ⟨start, end_,
      if plan.stage.directions = [] then none
      else some ((Aggregate.new plan.stage remaining now).observe b).2⟩) := by
  intro w hw hmoves _
  cases hw
  subst hplan
  have hparticipants : ((Aggregate.new plan.stage remaining now).observe b).2.participants
      = remaining := Measure.Aggregate.observe_participants _ _
  refine ⟨_, if_neg hmoves, ?_, ?_⟩
  · rw [hparticipants]
  · rw [hparticipants]
    exact hsub

/-- What holds midway through a tick that began at `start` and has come to `reached`. -/
structure Turn (start : Engine) (reached : Phase) (s : Engine × List Decision) : Prop where
  phase : s.1.phase = reached
  plan : s.1.plan = start.plan
  alive : reached.progress ≠ .ended
  protocol : Progress.run start.phase.progress s.2 = some reached.progress
  shrinks : s.1.remaining.Sublist start.remaining
  left : (leavers s.2 ++ s.1.remaining).Perm start.remaining
  crew : Crewed start.plan.stage start.remaining s.1.remaining reached.window

namespace Turn

variable {start e e' : Engine} {reached next : Phase} {out : List Decision}
  {s : Engine × List Decision} {index : ℕ}

/-- A turn is the same for a like engine. -/
theorem congr (h : Turn start reached (e, out)) (halike : e.Alike e') :
    Turn start reached (e', out) := by
  have hremaining : e'.remaining = e.remaining := Engine.remaining_congr halike.roster
  obtain ⟨phaseEq, plan, alive, protocol, shrinks, left, crew⟩ := h
  simp only at phaseEq plan protocol shrinks left crew
  rw [← hremaining] at shrinks left crew
  exact ⟨halike.phase.trans phaseEq, halike.plan.trans plan, alive, protocol, shrinks, left, crew⟩

/-- A decision the protocol allows, into a phase whose window has the same crew. -/
theorem enter (h : Turn start reached (e, out)) (next : Phase) (decisions : List Decision)
    (hrun : Progress.run reached.progress decisions = some next.progress)
    (halive : next.progress ≠ .ended) (hleft : leavers decisions = [])
    (hcrew : Crewed start.plan.stage start.remaining e.remaining next.window) :
    Turn start next ({ e with phase := next }, out ++ decisions) where
  phase := rfl
  plan := h.plan
  alive := halive
  protocol := (Progress.run_append_eq h.protocol).trans hrun
  shrinks := h.shrinks
  left := by
    simp only [leavers_append, hleft, List.append_nil]
    exact h.left
  crew := hcrew

/-- A phase of the same progress, whose window has the same crew. -/
theorem pass (h : Turn start reached (e, out)) (next : Phase)
    (hprogress : next.progress = reached.progress)
    (hcrew : Crewed start.plan.stage start.remaining e.remaining next.window) :
    Turn start next ({ e with phase := next }, out) where
  phase := rfl
  plan := h.plan
  alive := by
    rw [hprogress]
    exact h.alive
  protocol := by
    rw [hprogress]
    exact h.protocol
  shrinks := h.shrinks
  left := h.left
  crew := hcrew

/-- A decision that removes nobody. -/
theorem push (h : Turn start reached (e, out)) {d : Decision} (hidle : d.idle = true)
    (hleaver : d.leaver = none) : Turn start reached (e, out ++ [d]) where
  phase := h.phase
  plan := h.plan
  alive := h.alive
  protocol := by
    rw [Progress.run_append_eq h.protocol]
    exact Progress.run_idle h.alive (by simpa using hidle)
  shrinks := h.shrinks
  left := by
    have hnone : leavers [d] = [] := by rw [leavers, List.filterMap_cons_none hleaver, List.filterMap_nil]
    simp only [leavers_append, hnone, List.append_nil]
    exact h.left
  crew := h.crew

/-- **A failure**: who leaves was there and is removed once; who stays is not removed. -/
theorem fail (h : Turn start reached s) (scope : Scope) (cause : Failure) (at_ : ℕ) {leaves : Bool}
    (hseated : leaves = true → s.1.Seated index) :
    Turn start reached (s.1.fail index scope cause at_ leaves s.2) := by
  obtain ⟨e, out⟩ := s
  cases hseat : e.seats[index]? with
  | none =>
    rw [Engine.fail, hseat]
    exact h
  | some seat =>
    have hroster := Engine.fail_roster hseat scope cause at_ leaves out
    have hdecisions := Engine.fail_decisions hseat scope cause at_ leaves out
    cases leaves with
    | false =>
      rw [Engine.fail_stays_roster] at hroster
      have hpush := h.push (d := .failed ⟨seat.server, scope, cause, at_⟩) rfl rfl
      have hcongr := hpush.congr ⟨e.fail_phase index scope cause at_ false out,
        e.fail_plan index scope cause at_ false out, hroster⟩
      rw [← Prod.eta (e.fail index scope cause at_ false out), hdecisions]
      exact hcongr
    | true =>
      -- The member is on the roster under its own name, so it is the one removed.
      obtain ⟨server, hserver⟩ := hseated rfl
      have hname : server = seat.server := by
        rw [Engine.roster, List.getElem?_map, hseat] at hserver
        exact (congrArg Prod.fst (Option.some.inj hserver)).symm
      subst hname
      obtain ⟨before, after, hall, hrest⟩ := Engine.leave hserver
      have hleaves : (fun seat : ServerId × Bool => (seat.1, seat.2 && !true))
          = fun seat => (seat.1, false) := by
        funext seat
        rw [Bool.not_true, Bool.and_false]
      rw [hleaves] at hroster
      have hnow : e.remaining = before ++ seat.server :: after := by rw [Engine.remaining_eq, hall]
      have hthen : (e.fail index scope cause at_ true out).1.remaining = before ++ after := by
        rw [Engine.remaining_eq, hroster, hrest]
      have hsub : (before ++ after).Sublist (before ++ seat.server :: after) :=
        (List.sublist_cons_self _ _).append_left _
      have hfewer : (e.fail index scope cause at_ true out).1.remaining.Sublist e.remaining := by
        rw [hthen, hnow]
        exact hsub
      have hperm : (leavers (e.fail index scope cause at_ true out).2 ++
          (e.fail index scope cause at_ true out).1.remaining).Perm (leavers out ++ e.remaining) := by
        rw [hdecisions, hthen, hnow, leavers_append, List.append_assoc]
        change (leavers out ++ seat.server :: (before ++ after)).Perm _
        exact List.perm_middle.symm.append_left _
      exact
        { phase := (e.fail_phase index scope cause at_ true out).trans h.phase
          plan := (e.fail_plan index scope cause at_ true out).trans h.plan
          alive := h.alive
          protocol := by
            rw [hdecisions, Progress.run_append_eq h.protocol]
            exact Progress.run_idle h.alive (by simp [Decision.idle])
          shrinks := hfewer.trans h.shrinks
          left := hperm.trans h.left
          crew := h.crew.mono hfewer }

/-! ### Failures and probes -/

/-- Departures keep the turn. -/
theorem departed (h : Turn start reached (e, out)) (input : Input) :
    Turn start reached (e.departed input out) := by
  refine List.foldlRecOn input.departed _ h fun s hs departed _ => ?_
  cases hindex : s.1.index departed.1 with
  | none => exact hs
  | some index => exact hs.fail _ _ _ fun _ => Engine.seated_of_index hindex

/-- Checking a lane keeps the turn. -/
theorem checkLane (h : Turn start reached s) (directions : List Measure.Direction)
    (closed : Option ℕ) (now : ℕ) (sample : Sample) :
    Turn start reached (Engine.checkLane directions closed now s.1 s.2 sample) := by
  rw [Engine.checkLane]
  split
  case h_1 index failure hindex hfailed =>
    simp only
    split
    · exact h
    · exact h.fail _ _ _ fun _ => Engine.seated_of_index hindex
  case h_2 => exact h

/-- So does checking all of them. -/
theorem checkLanes (h : Turn start reached (e, out)) (input : Input) :
    Turn start reached (e.checkLanes input out) :=
  List.foldlRecOn input.samples _ h fun _ hs sample _ => hs.checkLane _ _ _ sample

/-- A failed probe keeps the turn. -/
theorem latencyFailed (h : Turn start reached s) (failure : Failure) (at_ : ℕ)
    (hseated : s.1.Seated index) :
    Turn start reached (s.1.latencyFailed index failure at_ s.2) := by
  rw [Engine.latencyFailed]
  split
  · exact h
  · have halike := s.1.alike_modify index (fun seat => { seat with probing := .failed })
      fun _ => rfl
    have hfailed := h.congr halike
    have hstill := hseated.alike halike
    simp only
    split
    · exact hfailed.fail _ _ _ fun _ => hstill
    · exact hfailed.fail _ _ _ fun _ => hstill

/-- A probe's event keeps the turn. -/
theorem probe (h : Turn start reached s) (server : ServerId) (probe : ProberEvent) :
    Turn start reached (s.1.probe server probe s.2) := by
  rw [Engine.probe]
  cases hindex : s.1.index server with
  | none => exact h
  | some index =>
    cases probe with
    | outcome sent outcome =>
      simp only
      split
      · exact h.congr (s.1.alike_modify index _ fun _ => rfl)
      · exact h
    | up => exact h.congr (s.1.alike_modify index _ fun _ => rfl)
    | drained => exact h.congr (s.1.alike_modify index _ fun _ => rfl)
    | down at_ failure => exact h.latencyFailed failure at_ (Engine.seated_of_index hindex)

/-- So do all of them. -/
theorem probes (h : Turn start reached s) (input : Input) :
    Turn start reached
      (input.probes.foldl (fun s probe => s.1.probe probe.1 probe.2 s.2) s) :=
  List.foldlRecOn input.probes _ h fun _ hs probe _ => hs.probe probe.1 probe.2

/-- A loop over the seats keeps what each of its turns keeps. -/
theorem forSeats {turn : Engine → List Decision → ℕ → Engine × List Decision}
    (h : Turn start reached (e, out))
    (hturn : ∀ s index, Turn start reached s → Turn start reached (turn s.1 s.2 index)) :
    Turn start reached (e.forSeats turn out) :=
  List.foldlRecOn (List.range e.seats.length) _ h fun s hs index _ => hturn s index hs

/-- A refused lane keeps the turn. -/
theorem refuse (h : Turn start reached s) (input : Input) (index : ℕ) :
    Turn start reached (Engine.refuse input s.1 s.2 index) := by
  rw [Engine.refuse]
  cases hseat : s.1.seats[index]? with
  | none => exact h
  | some seat =>
    simp only
    split
    · split_ifs with hpresent
      · exact h.fail _ _ _ fun _ => Engine.seated_of_seat hseat hpresent
      · exact h
    · exact h

/-- A lane that did not open keeps the turn. -/
theorem unopened (h : Turn start reached s) (input : Input) (index : ℕ) :
    Turn start reached (Engine.unopened input s.1 s.2 index) := by
  rw [Engine.unopened]
  cases hseat : s.1.seats[index]? with
  | none => exact h
  | some seat =>
    simp only
    split_ifs with hstays
    · exact h
    · rw [not_or, not_or, Bool.not_eq_false, Bool.not_eq_false] at hstays
      exact h.fail _ _ _ fun _ => Engine.seated_of_seat hseat hstays.2.1

/-! ### Phases -/

/-- The late members fail one by one, each still there when its turn comes. -/
theorem lateFailed (failure : Failure) (now : ℕ) {late : List (ℕ × Bool)}
    (hnodup : (late.map Prod.fst).Nodup) (hseated : ∀ one ∈ late, s.1.Seated one.1)
    (h : Turn start reached s) :
    Turn start reached (late.foldl
      (fun s late =>
        if late.2 then s.1.fail late.1 .throughput failure now true s.2
        else s.1.latencyFailed late.1 failure now s.2) s) := by
  induction late generalizing s with
  | nil => exact h
  | cons one late ih =>
    obtain ⟨hnotMem, hnodup⟩ := List.nodup_cons.mp hnodup
    have hone := hseated one List.mem_cons_self
    rw [List.foldl_cons]
    refine ih hnodup (fun other hother => ?_) ?_
    · have hne : one.1 ≠ other.1 := by
        intro heq
        rw [heq] at hnotMem
        exact hnotMem (List.mem_map_of_mem hother)
      have hstill := hseated other (List.mem_cons_of_mem _ hother)
      split_ifs
      · exact hstill.fail hne _ _ _ _ _
      · exact hstill.latencyFailed hne _ _ _
    · split_ifs
      · exact h.fail _ _ _ fun _ => hone
      · exact h.latencyFailed _ _ hone

end Turn

/-- The engine and the decisions a tick's function leaves. -/
def decided (s : Engine × Tick) : Engine × List Decision := (s.1, s.2.decisions)

namespace Turn

variable {start e : Engine} {reached : Phase} {tick : Tick} {s : Engine × List Decision}

/-- Readying a stage is a turn. -/
theorem ready (h : Turn start .ready (e, tick.decisions)) (input : Input) :
    ∃ next, Turn start next (decided (e.ready input tick)) := by
  rw [Engine.ready]
  split
  · exact ⟨.ready, h⟩
  · have hfailed := h.lateFailed ⟨.pathFailed, "the test server was not ready within 10 s"⟩ input.now
      (e.late_nodup input) fun _ => Engine.seated_of_late
    exact ⟨.warmup _, hfailed.pass _ rfl crewed_none⟩

/-- A stage that is not ready yet waits, or starts to warm up. -/
theorem awaited (h : Turn start reached (e, tick.decisions)) (input : Input) :
    ∃ next, Turn start next (decided (if e.isReady then e.ready input tick else (e, tick))) := by
  split
  · next hready =>
    have hphase : e.phase = reached := h.phase
    rw [Engine.isReady, hphase] at hready
    cases reached with
    | ready => exact ready h input
    | warmup | opening | measuring | draining | done => cases hready
  · exact ⟨reached, h⟩

/-- Scheduling the measuring is a turn. -/
theorem schedule {window : Window} {last : Bool}
    (h : Turn start (.measuring window last) (e, tick.decisions)) (now : ℕ) :
    ∃ next, Turn start next (decided (e.schedule now tick)) := by
  have hphase : e.phase = .measuring window last := h.phase
  rw [Engine.schedule, hphase]
  simp only [decided]
  refine ⟨.measuring window (window.end_ ≤ max (min (now + tickLength) window.end_) now), ?_⟩
  split
  · exact (h.push rfl rfl).pass _ rfl h.crew
  · exact h.pass _ rfl h.crew

/-- The members present when the window opens are the first interval's. -/
theorem opened (h : Turn start reached (e, tick.decisions)) (hbefore : reached.progress = .before)
    (input : Input) : ∃ next, Turn start next (decided (e.opened input tick)) := by
  have hstayed := h.forSeats fun s index hs => hs.unopened input index
  rw [Engine.opened]
  generalize e.forSeats (Engine.unopened input) tick.decisions = stayed at hstayed
  obtain ⟨e, decisions⟩ := stayed
  simp only
  split
  · exact ⟨reached, hstayed⟩
  · let moved : Engine :=
      { e with seats := e.seats.map fun seat => { seat with moved := ⟨input.now, input.now⟩ } }
    have hmoved : Turn start reached (moved, decisions) := hstayed.congr (e.alike_map _ fun _ => rfl)
    have hcrew := crewed_new hstayed.plan hmoved.shrinks input.now (input.now + e.plan.duration)
      input.now (moved.boundary input false)
    have hopens : Progress.run reached.progress
        [.openWindow input.now (input.now + e.plan.duration)] = some .opened := by
      rw [hbefore]
      rfl
    exact schedule (hmoved.enter (.measuring ⟨_, _, _⟩ false) _ hopens nofun rfl hcrew) input.now

/-- Opening the window is a turn. -/
theorem open_ (h : Turn start reached (e, tick.decisions)) (hbefore : reached.progress = .before)
    (input : Input) : ∃ next, Turn start next (decided (e.open_ input tick)) := by
  rw [Engine.open_]
  split
  · have hrefused := h.forSeats fun s index hs => hs.refuse input index
    generalize e.forSeats (Engine.refuse input) tick.decisions = refused at hrefused
    obtain ⟨e, decisions⟩ := refused
    simp only
    split
    · exact ⟨reached, hrefused.push rfl rfl⟩
    · exact opened hrefused hbefore input
  · exact opened h hbefore input

/-- Warming up is a turn. -/
theorem warmed (h : Turn start reached (e, tick.decisions)) (hbefore : reached.progress = .before)
    (input : Input) : ∃ next, Turn start next (decided (e.warmed input tick)) := by
  rw [Engine.warmed]
  split
  · have hasked := h.push (d := .checkpoint checkpointBudget) rfl rfl
    exact ⟨_, hasked.pass (.opening (input.now + openingBound)) hbefore.symm crewed_none⟩
  · exact open_ h hbefore input

/-- A departure keeps the turn. -/
theorem depart (h : Turn start reached s) (input : Input) (last : Bool) (index : ℕ) :
    Turn start reached (Engine.depart input last s.1 s.2 index) := by
  obtain ⟨halike, hseated⟩ := s.1.departure_spec index input last
  rw [Engine.depart]
  generalize s.1.departure index input last = result at halike hseated
  obtain ⟨failure, e⟩ := result
  cases failure with
  | none => exact h.congr halike
  | some failure =>
    exact (h.congr halike).fail _ _ _ fun _ => (hseated failure rfl).alike halike

/-- A boundary keeps the crew, and only a member that was there fails at it. -/
theorem observe {window : Window} {final : Bool}
    (h : Turn start (.measuring window final) (e, tick.decisions)) (input : Input) (last : Bool) :
    ∃ window, Turn start (.measuring window final) (decided (e.observe input last tick)) := by
  have hphase : e.phase = .measuring window final := h.phase
  obtain ⟨begun, end_, aggregate⟩ := window
  rw [Engine.observe, hphase]
  cases aggregate with
  | none => exact ⟨_, h⟩
  | some aggregate =>
    have hkept := Measure.Aggregate.observe_participants aggregate (e.boundary input last)
    simp only
    generalize aggregate.observe (e.boundary input last) = result at hkept
    obtain ⟨sample, observed⟩ := result
    have hcrew : Crewed start.plan.stage start.remaining e.remaining
        (some ⟨begun, end_, some observed⟩) := by
      intro w hw hmoves hsome
      obtain ⟨first, hfirst, hsub, hsurvivors⟩ := h.crew _ rfl hmoves hsome
      cases hw
      cases hfirst
      exact ⟨observed, rfl, hkept ▸ hsub, hkept ▸ hsurvivors⟩
    have hobserved := h.pass (.measuring ⟨begun, end_, some observed⟩ final) rfl hcrew
    have hmoved := hobserved.congr (Engine.alike_map _ (fun seat =>
      { seat with moved := Measure.Dir.ofFn fun direction =>
          if aggregate.bytes seat.server direction < observed.bytes seat.server direction then input.now
          else seat.moved.get direction }) fun _ => rfl)
    exact ⟨_, hmoved.forSeats fun s index hs => hs.depart input last index⟩

/-- Measuring is a turn. -/
theorem measure {window : Window} {final : Bool}
    (h : Turn start (.measuring window final) (e, tick.decisions)) (input : Input) :
    ∃ next, Turn start next (decided (e.measure input tick)) := by
  have hphase : e.phase = .measuring window final := h.phase
  rw [Engine.measure, hphase]
  simp only
  generalize ((final || !e.plan.stage.moves .up) && decide (window.end_ ≤ input.now)) = last
  have hobserved : ∃ later, Turn start (.measuring later final)
      (decided (if window.aggregate.isSome then e.observe input last tick else (e, tick))) := by
    split
    · exact observe h input last
    · exact ⟨window, h⟩
  generalize (if window.aggregate.isSome then e.observe input last tick else (e, tick)) = result
    at hobserved
  obtain ⟨e, tick⟩ := result
  obtain ⟨later, hobserved⟩ := hobserved
  simp only
  split
  · exact schedule hobserved input.now
  · have hphase : e.phase = .measuring later final := hobserved.phase
    rw [hphase]
    exact ⟨_, hobserved.enter (.draining later input.now) [.closeWindow] rfl nofun rfl hobserved.crew⟩

/-- **What the phase does with a tick** is a turn of it. -/
theorem turn (h : Turn start reached (e, tick.decisions)) (input : Input) :
    ∃ next, Turn start next (decided (e.turn input tick)) := by
  have hphase : e.phase = reached := h.phase
  rw [Engine.turn, hphase]
  cases reached with
  | ready | draining | done => exact ⟨_, h⟩
  | warmup until_ =>
    simp only
    split
    · exact warmed h rfl input
    · exact ⟨_, h⟩
  | opening until_ => exact open_ h rfl input
  | measuring window final => exact measure h input

end Turn

end GraphiteMeter.Client
