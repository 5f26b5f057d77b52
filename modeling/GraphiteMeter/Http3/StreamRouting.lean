import GraphiteMeter.Http3.GoneSessions
import Mathlib.Data.List.Sort

/-!
# The routing of streams loses and duplicates nothing

Reference: `rust/http3/src/webtransport.rs` (`Registry::stream`, `expire`, `register`, `unregister`,
`end`).

A stream has one place: its session's queue, `early`, or a refusal. `Kept` is the invariant; the
streams that wait are in the order they came in, so `expire` and `register` take them out in that
order.
-/

namespace GraphiteMeter.Http3

/-! ## Reading the log -/

namespace RouteEvent

/-- The stream that came in. -/
def arrival : RouteEvent → Option (SessionId × ℕ)
  | .arrived session serial => some (session, serial)
  | _ => none

/-- The stream that is no longer the registry's: it was queued, refused or dropped. -/
def settled : RouteEvent → Option (SessionId × ℕ)
  | .routed _ _ .held => none
  | .routed session serial _ | .expired session serial | .dropped session serial =>
    some (session, serial)
  | _ => none

/-- The stream that was queued to the session. -/
def queuedTo (id : SessionId) : RouteEvent → Option ℕ
  | .routed session serial .queued => if session = id then some serial else none
  | _ => none

/-- The stream that left the session's queue: the application took it, or the queue went. -/
def takenFrom (id : SessionId) : RouteEvent → Option ℕ
  | .accepted session serial | .abandoned session serial => if session = id then some serial else none
  | _ => none

/-- Tells of the end of a session, or of what leaves its queue. -/
def ofQueue : RouteEvent → Bool
  | .unregistered _ | .hungUp _ | .accepted _ _ | .abandoned _ _ => true
  | _ => false

end RouteEvent

/-- The streams that came in, each with the session it names. -/
def arrivals (log : List RouteEvent) : List (SessionId × ℕ) := log.filterMap RouteEvent.arrival

def settled (log : List RouteEvent) : List (SessionId × ℕ) := log.filterMap RouteEvent.settled

/-- What reached the session's queue, in order. -/
def queuedTo (id : SessionId) (log : List RouteEvent) : List ℕ :=
  log.filterMap (RouteEvent.queuedTo id)

/-- What left the session's queue, in order. -/
def takenFrom (id : SessionId) (log : List RouteEvent) : List ℕ :=
  log.filterMap (RouteEvent.takenFrom id)

/-- What the session's queue holds. -/
def Registry.waiting (r : Registry) (id : SessionId) : List ℕ := (r.queued id).map (·.serial)

/-- The stream a waiting one is. -/
def Early.place (e : Early) : SessionId × ℕ := (e.session, e.stream.serial)

/-- The stream came in after the connection ended. -/
def Late (log : List RouteEvent) (session : SessionId) (serial : ℕ) : Prop :=
  ∃ before after, log = before ++ .arrived session serial :: after ∧ .ended ∈ before

section Log

variable {log later : List RouteEvent} {session id : SessionId} {serial : ℕ} {fate : Fate}

@[simp] theorem arrivals_append : arrivals (log ++ later) = arrivals log ++ arrivals later :=
  List.filterMap_append

@[simp] theorem settled_append : settled (log ++ later) = settled log ++ settled later :=
  List.filterMap_append

@[simp] theorem queuedTo_append : queuedTo id (log ++ later) = queuedTo id log ++ queuedTo id later :=
  List.filterMap_append

@[simp] theorem takenFrom_append :
    takenFrom id (log ++ later) = takenFrom id log ++ takenFrom id later :=
  List.filterMap_append

/-- A stream that is not held is settled. -/
theorem settled_routed (hfate : fate ≠ .held) :
    settled [.routed session serial fate] = [(session, serial)] := by
  cases fate with
  | held => exact absurd rfl hfate
  | queued => rfl
  | refused code => rfl

/-- A stream with another fate is not queued. -/
theorem queuedTo_routed (hfate : fate ≠ .queued) : queuedTo id [.routed session serial fate] = [] := by
  cases fate with
  | queued => exact absurd rfl hfate
  | held => rfl
  | refused code => rfl

/-- A queued stream is. -/
theorem queuedTo_queued : queuedTo id [.routed id serial .queued] = [serial] := by
  have htake : RouteEvent.queuedTo id (.routed id serial .queued) = some serial := if_pos rfl
  exact List.filterMap_cons_some htake

/-- A stream is not queued to another session. -/
theorem RouteEvent.queuedTo_of_ne (hother : session ≠ id) :
    RouteEvent.queuedTo id (.routed session serial fate) = none := by
  cases fate with
  | queued => exact if_neg hother
  | held => rfl
  | refused code => rfl

/-- Nor is it in a log of its own. -/
theorem queuedTo_other (hother : session ≠ id) : queuedTo id [.routed session serial fate] = [] :=
  List.filterMap_cons_none (RouteEvent.queuedTo_of_ne hother)

/-- What a session was queued was routed to it. -/
theorem mem_queuedTo :
    serial ∈ queuedTo id log ↔ RouteEvent.routed id serial .queued ∈ log := by
  unfold queuedTo
  rw [List.mem_filterMap]
  constructor
  · rintro ⟨e, he, heq⟩
    unfold RouteEvent.queuedTo at heq
    split at heq
    · split at heq
      · rename_i hid
        cases heq
        rw [← hid]
        exact he
      · cases heq
    · cases heq
  · intro he
    exact ⟨_, he, if_pos rfl⟩

/-- What is queued is settled. -/
theorem mem_settled_of_queued (h : serial ∈ queuedTo id log) : (id, serial) ∈ settled log :=
  List.mem_filterMap.mpr ⟨_, mem_queuedTo.mp h, rfl⟩

/-- What came late stays so. -/
theorem Late.append (h : Late log session serial) : Late (log ++ later) session serial := by
  obtain ⟨before, after, rfl, hended⟩ := h
  exact ⟨before, after ++ later, by rw [List.append_assoc]; rfl, hended⟩

/-- What a session's start queues is of the streams it routes, in their order. -/
theorem queuedTo_sublist (routed : List (Early × Fate)) :
    (queuedTo id (routed.map routedEvent)).Sublist (routed.map (·.1.stream.serial)) := by
  induction routed with
  | nil => exact List.Sublist.refl _
  | cons x routed ih =>
    have hhead : (queuedTo id [routedEvent x]).Sublist [x.1.stream.serial] := by
      unfold routedEvent
      by_cases hsession : x.1.session = id
      · by_cases hfate : x.2 = .queued
        · rw [hfate, hsession, queuedTo_queued]
        · rw [queuedTo_routed hfate]
          exact List.nil_sublist _
      · rw [queuedTo_other hsession]
        exact List.nil_sublist _
    rw [List.map_cons, ← List.singleton_append, queuedTo_append]
    exact hhead.append ih

/-- Each of a list of streams is settled by its event. -/
theorem settled_map {α : Type} {l : List α} {event : α → RouteEvent} {place : α → SessionId × ℕ}
    (h : ∀ x ∈ l, (event x).settled = some (place x)) : settled (l.map event) = l.map place := by
  unfold settled
  rw [List.filterMap_map, ← List.filterMap_eq_map]
  exact List.filterMap_congr h

/-- A log without arrivals has none. -/
theorem arrivals_eq_nil (h : ∀ e ∈ log, e.arrival = none) : arrivals log = [] :=
  List.filterMap_eq_nil_iff.mpr h

/-- A log that queues nothing to a session has nothing queued. -/
theorem queuedTo_eq_nil (h : ∀ e ∈ log, e.queuedTo id = none) : queuedTo id log = [] :=
  List.filterMap_eq_nil_iff.mpr h

/-- A log that takes nothing from it has nothing taken. -/
theorem takenFrom_eq_nil (h : ∀ e ∈ log, e.takenFrom id = none) : takenFrom id log = [] :=
  List.filterMap_eq_nil_iff.mpr h

/-- Abandoned streams are taken from the session. -/
theorem takenFrom_abandoned (serials : List ℕ) :
    takenFrom id (serials.map (.abandoned id)) = serials := by
  unfold takenFrom
  rw [List.filterMap_map]
  have hall : (RouteEvent.takenFrom id ∘ RouteEvent.abandoned id) = some := by
    funext serial
    exact if_pos rfl
  rw [hall, List.filterMap_some]

/-- Another session's queue gives up nothing. -/
theorem takenFrom_abandoned_of_ne (hother : session ≠ id) (serials : List ℕ) :
    takenFrom id (serials.map (.abandoned session)) = [] := by
  apply takenFrom_eq_nil
  intro e he
  obtain ⟨serial, -, rfl⟩ := List.mem_map.mp he
  exact if_neg hother

end Log

namespace Registry

variable {r : Registry} {now : ℕ} {id : SessionId}

/-- A session that leaves abandons what waits in its queue. -/
theorem abandon_eq (r : Registry) (id : SessionId) :
    r.abandon id = (r.waiting id).map (.abandoned id) := by
  rw [abandon, waiting, List.map_map]
  rfl

/-- What waits is the active session's queue. -/
theorem waiting_of_active {active : Active} (hactive : r.active = some active) (id : SessionId) :
    r.waiting id = if active.id = id then active.streams.queue.map (·.serial) else [] := by
  unfold waiting queued
  rw [hactive]
  by_cases hid : active.id = id
  · rw [if_pos hid, Option.filter_some, decide_eq_true hid]
    rfl
  · rw [if_neg hid, Option.filter_some, decide_eq_false hid]
    rfl

/-- Without a session nothing waits. -/
theorem waiting_of_none (hnone : r.active = none) (id : SessionId) : r.waiting id = [] := by
  unfold waiting queued
  rw [hnone]
  rfl

/-- What leaves a session's queue as it goes is all that it held. -/
theorem takenFrom_abandon (r : Registry) (id id' : SessionId) :
    takenFrom id' (r.abandon id) = if id = id' then r.waiting id' else [] := by
  rw [abandon_eq]
  split
  · rename_i hid
    rw [hid, takenFrom_abandoned]
  · rename_i hid
    rw [takenFrom_abandoned_of_ne hid]

/-- A change that leaves the active session's queue alone. -/
theorem waiting_onActive {change : Active → Active}
    (hkeep : ∀ active, ((change active).id, (change active).streams.queue) =
      (active.id, active.streams.queue)) (id' : SessionId) :
    (r.onActive id change).waiting id' = r.waiting id' := by
  match hactive : r.active with
  | none =>
    rw [waiting_of_none hactive, waiting_of_none]
    unfold onActive
    rw [hactive]
    rfl
  | some active =>
    have hafter : (r.onActive id change).active =
        some (if active.id = id then change active else active) := by
      unfold onActive
      rw [hactive]
      rfl
    rw [waiting_of_active hactive, waiting_of_active hafter]
    obtain ⟨hid, hqueue⟩ := Prod.mk.inj (hkeep active)
    split
    · rw [hid, hqueue]
    · rfl

/-- The application takes what was queued to its session first. -/
theorem acceptUni_waiting (r : Registry) (id id' : SessionId) :
    r.waiting id' = takenFrom id' ((r.acceptUni id).1.toList.map fun u => .accepted id u.serial) ++
      (r.acceptUni id).2.waiting id' := by
  match hactive : r.active with
  | none =>
    have hafter : (r.acceptUni id).2.active = none := by
      unfold acceptUni onActive
      rw [hactive]
      rfl
    have hnothing : (r.acceptUni id).1 = none := by
      unfold acceptUni
      rw [hactive]
      rfl
    rw [waiting_of_none hactive, waiting_of_none hafter, hnothing]
    rfl
  | some active =>
    by_cases hid : active.id = id
    · have hafter : (r.acceptUni id).2.active = some
          { active with streams := (active.streams.tryRecv).elim active.streams (·.2) } :=
        onActive_active hactive hid _
      have htaken : (r.acceptUni id).1 = (active.streams.tryRecv).map Prod.fst := by
        unfold acceptUni
        rw [hactive, Option.filter_some, decide_eq_true hid]
        rfl
      rw [waiting_of_active hactive, waiting_of_active hafter, htaken]
      simp only
      by_cases hid' : active.id = id'
      · rw [if_pos hid', if_pos hid']
        match hrecv : active.streams.tryRecv with
        | none => rfl
        | some (u, streams) =>
          have htake : RouteEvent.takenFrom id' (.accepted id u.serial) = some u.serial :=
            if_pos (hid.symm.trans hid')
          have htaken : takenFrom id' [.accepted id u.serial] = [u.serial] :=
            List.filterMap_cons_some htake
          simp only [Option.map_some, Option.toList_some, List.map_cons, List.map_nil, Option.elim_some]
          rw [htaken, (Channel.tryRecv_eq_some hrecv).1]
          rfl
      · rw [if_neg hid', if_neg hid', List.append_nil]
        symm
        apply takenFrom_eq_nil
        intro e he
        obtain ⟨u, -, rfl⟩ := List.mem_map.mp he
        exact if_neg fun heq => hid' (hid.trans heq)
    · have hafter : (r.acceptUni id).2.active = some active := by
        unfold acceptUni onActive
        rw [hactive, Option.map_some, if_neg hid]
      have hnothing : (r.acceptUni id).1 = none := by
        unfold acceptUni
        rw [hactive, Option.filter_some, decide_eq_false hid]
        rfl
      rw [waiting_of_active hactive, waiting_of_active hafter, hnothing]
      rfl

/-- A stream of the active session, where that still receives. -/
theorem stream_active {active : Active} (hactive : r.active = some active) (hid : active.id = id)
    (hopen : active.streams.closed = false) (now : ℕ) (u : Unrouted) :
    (∃ streams, r.stream now id u = (.queued, { r with active := some { active with streams } }) ∧
      streams.closed = false ∧ streams.queue = active.streams.queue ++ [u]) ∨
    r.stream now id u = (.refused .wtBufferedStreamRejected, r) := by
  unfold stream
  simp only [hactive, if_pos hid]
  match hsend : active.streams.trySend u with
  | .ok streams =>
    obtain ⟨-, -, hqueue, hclosed⟩ := Channel.trySend_eq_ok hsend
    exact .inl ⟨streams, rfl, hclosed.trans hopen, hqueue⟩
  | .error .full => exact .inr rfl
  | .error .closed =>
    rw [Channel.trySend_eq_closed hsend] at hopen
    cases hopen

/-- What a session's start makes of the streams that waited: its own are queued, or refused where its
queue is full, and the others wait on in their order. -/
structure Rerouted (r : Registry) (active : Active) (waiting : List Early)
    (result : List (Early × Fate) × Registry) : Prop where
  routed : result.1.map Prod.fst = waiting.filter (·.session = active.id)
  fates : ∀ x ∈ result.1, x.2 = .queued ∨ x.2 = .refused .wtBufferedStreamRejected
  early : result.2.early = r.early ++ waiting.filter (·.session ≠ active.id)
  ended : result.2.ended = r.ended
  queue : ∃ active', result.2.active = some active' ∧ active'.id = active.id ∧
    active'.streams.queue.map (·.serial) = active.streams.queue.map (·.serial) ++
      queuedTo active.id (result.1.map routedEvent)

/-- Everything that routing the waiting streams can do. -/
theorem reroute_rerouted (waiting : List Early) {active : Active} (hactive : r.active = some active)
    (hopen : active.streams.closed = false) :
    Rerouted r active waiting (r.reroute now active.id waiting) := by
  induction waiting generalizing r active with
  | nil =>
    refine ⟨rfl, fun x hx => ?_, (List.append_nil _).symm, rfl, active, hactive, rfl,
      (List.append_nil _).symm⟩
    cases hx
  | cons e waiting ih =>
    by_cases hsession : e.session = active.id
    · have hpos : (e :: waiting).filter (·.session = active.id) =
          e :: waiting.filter (·.session = active.id) :=
        List.filter_cons_of_pos (decide_eq_true hsession)
      have hneg : (e :: waiting).filter (·.session ≠ active.id) =
          waiting.filter (·.session ≠ active.id) :=
        List.filter_cons_of_neg (by simpa using hsession)
      have hstep : r.reroute now active.id (e :: waiting) =
          ((e, (r.stream now active.id e.stream).1) ::
            ((r.stream now active.id e.stream).2.reroute now active.id waiting).1,
            ((r.stream now active.id e.stream).2.reroute now active.id waiting).2) := by
        rw [reroute, if_pos hsession, hsession]
      rw [hstep]
      -- it is queued and the queue goes on with it, or it is refused and nothing changes
      rcases stream_active hactive rfl hopen now e.stream with
        ⟨streams, hstream, hclosed, hqueue⟩ | hstream
      · rw [hstream]
        let active' : Active := { active with streams }
        let r' : Registry := { r with active := some active' }
        have h : Rerouted r' active' waiting (r'.reroute now active'.id waiting) := ih rfl hclosed
        obtain ⟨last, hlast, hid, htaken⟩ := h.queue
        have hfirst : queuedTo active.id [routedEvent (e, .queued)] = [e.stream.serial] := by
          unfold routedEvent
          rw [hsession]
          exact queuedTo_queued
        refine ⟨?_, ?_, ?_, h.ended, last, hlast, hid, ?_⟩
        · rw [hpos, List.map_cons, h.routed]
        · intro x hx
          rcases List.mem_cons.mp hx with rfl | hx
          · exact .inl rfl
          · exact h.fates x hx
        · rw [hneg]
          exact h.early
        · rw [htaken, List.map_cons, ← List.singleton_append, queuedTo_append, hfirst,
            ← List.append_assoc]
          congr 1
          show streams.queue.map _ = _
          rw [hqueue, List.map_append]
          rfl
      · rw [hstream]
        have h := ih hactive hopen
        refine ⟨?_, ?_, ?_, h.ended, h.queue⟩
        · rw [hpos, List.map_cons, h.routed]
        · intro x hx
          rcases List.mem_cons.mp hx with rfl | hx
          · exact .inr rfl
          · exact h.fates x hx
        · rw [hneg]
          exact h.early
    · -- another session's stream goes back to `early`, behind those that went back before it
      have hpos : (e :: waiting).filter (·.session ≠ active.id) =
          e :: waiting.filter (·.session ≠ active.id) :=
        List.filter_cons_of_pos (by simpa using hsession)
      have hneg : (e :: waiting).filter (·.session = active.id) =
          waiting.filter (·.session = active.id) :=
        List.filter_cons_of_neg (by simpa using hsession)
      rw [reroute, if_neg hsession]
      have h := ih (r := { r with early := r.early ++ [e] }) hactive hopen
      refine ⟨?_, h.fates, ?_, h.ended, h.queue⟩
      · rw [hneg]
        exact h.routed
      · rw [hpos, h.early, List.append_assoc]
        rfl

end Registry

/-! ## The invariant -/

/-- The registry against what happened to streams so far. -/
structure Kept (log : List RouteEvent) (s : Routing) : Prop where
  known : Known log s.registry
  finished : .ended ∈ log → s.registry.active = none ∧ s.registry.ended = true
  placed : (settled log ++ s.registry.early.map Early.place).Perm (arrivals log)
  numbered : (arrivals log).map Prod.snd = List.range s.given
  order : ∀ id, (queuedTo id log).Pairwise (· < ·)
  queued : ∀ id, queuedTo id log ≠ [] → .registered id ∈ log
  queue : ∀ id, queuedTo id log = takenFrom id log ++ s.registry.waiting id
  room : s.registry.early.length ≤ maxEarly
  waiting : s.registry.early.Pairwise fun a b => a.stream.serial < b.stream.serial
  deadlines : s.registry.early.Pairwise fun a b => a.deadline ≤ b.deadline
  due : ∀ e ∈ s.registry.early, e.deadline ≤ s.clock + earlyWait
  early : ∀ e ∈ s.registry.early, .registered e.session ∉ log ∨ Late log e.session e.stream.serial

namespace Kept

variable {log events : List RouteEvent} {s t : Routing} {session id : SessionId} {serial : ℕ}

/-- No stream came yet. -/
theorem new : Kept [] .new where
  known := .new
  finished := fun h => by cases h
  placed := List.Perm.nil
  numbered := rfl
  order := fun _ => List.Pairwise.nil
  queued := fun _ h => absurd rfl h
  queue := fun _ => rfl
  room := Nat.zero_le _
  waiting := List.Pairwise.nil
  deadlines := List.Pairwise.nil
  due := fun _ h => by cases h
  early := fun _ h => by cases h

/-- The streams that have a place are those that came in. -/
theorem lt_given (h : Kept log s)
    (hmem : (session, serial) ∈ settled log ++ s.registry.early.map Early.place) :
    serial < s.given := by
  have harrived : (session, serial) ∈ arrivals log := h.placed.subset hmem
  have hserial : serial ∈ (arrivals log).map Prod.snd := List.mem_map_of_mem harrived
  rw [h.numbered] at hserial
  exact List.mem_range.mp hserial

/-- A queued stream has come. -/
theorem queued_lt (h : Kept log s) (hmem : serial ∈ queuedTo id log) : serial < s.given :=
  h.lt_given (List.mem_append_left _ (mem_settled_of_queued hmem))

/-- A step that places no stream: what leaves a session's queue was in it. -/
theorem still (h : Kept log s) (hknown : Known (log ++ events) t.registry)
    (hevents : ∀ e ∈ events, e.ofQueue = true)
    (hearly : t.registry.early = s.registry.early) (hended : t.registry.ended = s.registry.ended)
    (hgiven : t.given = s.given) (hclock : s.clock ≤ t.clock)
    (hnone : s.registry.active = none → t.registry.active = none)
    (hqueue : ∀ id, s.registry.waiting id = takenFrom id events ++ t.registry.waiting id) :
    Kept (log ++ events) t := by
  have hmem (e : RouteEvent) (hother : e.ofQueue = false) : e ∈ log ++ events ↔ e ∈ log := by
    rw [List.mem_append, or_iff_left]
    intro he
    rw [hevents e he] at hother
    cases hother
  have hplaces (e : RouteEvent) (he : e ∈ events) :
      e.arrival = none ∧ e.settled = none ∧ ∀ id, e.queuedTo id = none := by
    have hkind := hevents e he
    match e with
    | .unregistered _ | .hungUp _ | .accepted _ _ | .abandoned _ _ => exact ⟨rfl, rfl, fun _ => rfl⟩
    | .arrived _ _ | .routed _ _ _ | .expired _ _ | .dropped _ _ | .registered _ | .ended =>
      cases hkind
  have harrivals : arrivals events = [] := arrivals_eq_nil fun e he => (hplaces e he).1
  have hsettled : settled events = [] :=
    List.filterMap_eq_nil_iff.mpr fun e he => (hplaces e he).2.1
  have hqueued (id : SessionId) : queuedTo id events = [] :=
    queuedTo_eq_nil fun e he => (hplaces e he).2.2 id
  constructor
  · exact hknown
  · intro hover
    obtain ⟨hno, htrue⟩ := h.finished ((hmem _ rfl).mp hover)
    exact ⟨hnone hno, hended.trans htrue⟩
  · rw [settled_append, hsettled, List.append_nil, arrivals_append, harrivals, List.append_nil, hearly]
    exact h.placed
  · rw [arrivals_append, harrivals, List.append_nil, hgiven]
    exact h.numbered
  · intro id
    rw [queuedTo_append, hqueued, List.append_nil]
    exact h.order id
  · intro id hne
    rw [queuedTo_append, hqueued, List.append_nil] at hne
    exact List.mem_append_left _ (h.queued id hne)
  · intro id
    rw [queuedTo_append, hqueued, List.append_nil, takenFrom_append, List.append_assoc, ← hqueue]
    exact h.queue id
  · rw [hearly]
    exact h.room
  · rw [hearly]
    exact h.waiting
  · rw [hearly]
    exact h.deadlines
  · intro e he
    rw [hearly] at he
    exact (h.due e he).trans (Nat.add_le_add_right hclock _)
  · intro e he
    rw [hearly] at he
    rw [hmem _ rfl]
    exact (h.early e he).imp_right Late.append

/-- A stream comes in and goes to its session's queue, or is refused. -/
theorem settles (h : Kept log s) {fate : Fate} (hfate : fate ≠ .held) {r : Registry} {now : ℕ}
    (hclock : s.clock ≤ now) (hknown : Known log r) (hearly : r.early = s.registry.early)
    (hended : r.ended = s.registry.ended) (hnone : s.registry.active = none → r.active = none)
    (hreg : fate = .queued → .registered session ∈ log)
    (hqueue : ∀ id, r.waiting id =
      s.registry.waiting id ++ queuedTo id [.routed session s.given fate]) :
    Kept (log ++ [.arrived session s.given, .routed session s.given fate])
      ⟨r, now, s.given + 1⟩ := by
  have hquiet : ∀ e ∈ [RouteEvent.arrived session s.given, .routed session s.given fate],
      e.ofStream = true := by
    intro e he
    rcases List.mem_pair.mp he with rfl | rfl <;> rfl
  have harrivals : arrivals [.arrived session s.given, .routed session s.given fate] =
      [(session, s.given)] := rfl
  have hsettled : settled [.arrived session s.given, .routed session s.given fate] =
      [(session, s.given)] := settled_routed hfate
  have hqueued (id : SessionId) :
      queuedTo id [.arrived session s.given, .routed session s.given fate] =
        queuedTo id [.routed session s.given fate] := rfl
  have hcases (id : SessionId) : queuedTo id [.routed session s.given fate] = [] ∨
      session = id ∧ fate = .queued ∧ queuedTo id [.routed session s.given fate] = [s.given] := by
    by_cases hid : session = id
    · by_cases hqueue : fate = .queued
      · rw [hid, hqueue]
        exact .inr ⟨rfl, rfl, queuedTo_queued⟩
      · exact .inl (queuedTo_routed hqueue)
    · exact .inl (queuedTo_other hid)
  constructor
  · exact hknown.quiet hquiet
  · intro hover
    obtain ⟨hno, htrue⟩ := h.finished ((mem_append_quiet hquiet rfl).mp hover)
    exact ⟨hnone hno, hended.trans htrue⟩
  · show (settled _ ++ r.early.map _).Perm _
    rw [settled_append, hsettled, arrivals_append, harrivals, hearly]
    refine List.Perm.trans ?_ (h.placed.append_right _)
    rw [List.append_assoc, List.append_assoc]
    exact List.perm_append_comm.append_left _
  · rw [arrivals_append, harrivals, List.map_append, h.numbered]
    exact List.range_succ.symm
  · -- the new stream's number is past all that were given before
    intro id
    rw [queuedTo_append, hqueued]
    rcases hcases id with hnil | ⟨-, -, hlast⟩
    · rw [hnil, List.append_nil]
      exact h.order id
    · rw [hlast, List.pairwise_append]
      refine ⟨h.order id, List.pairwise_singleton _ _, fun serial hserial last hmem => ?_⟩
      rw [List.mem_singleton.mp hmem]
      exact h.queued_lt hserial
  · intro id hne
    rw [queuedTo_append, hqueued] at hne
    apply List.mem_append_left
    rcases hcases id with hnil | ⟨hid, hqueue, -⟩
    · rw [hnil, List.append_nil] at hne
      exact h.queued id hne
    · rw [← hid]
      exact hreg hqueue
  · intro id
    have hkept : takenFrom id [.arrived session s.given, .routed session s.given fate] = [] := rfl
    show queuedTo id _ = takenFrom id _ ++ r.waiting id
    rw [hqueue, queuedTo_append, hqueued, takenFrom_append, hkept, List.append_nil, h.queue id,
      List.append_assoc]
  · show r.early.length ≤ maxEarly
    rw [hearly]
    exact h.room
  · show r.early.Pairwise _
    rw [hearly]
    exact h.waiting
  · show r.early.Pairwise _
    rw [hearly]
    exact h.deadlines
  · intro e he
    have hbefore : e ∈ s.registry.early := hearly ▸ he
    exact (h.due e hbefore).trans (Nat.add_le_add_right hclock _)
  · intro e he
    have hbefore : e ∈ s.registry.early := hearly ▸ he
    rw [mem_append_quiet hquiet rfl]
    exact (h.early e hbefore).imp_right Late.append

/-- A stream comes in and waits for its session. -/
theorem holds (h : Kept log s) {now : ℕ} {u : Unrouted} (hu : u.serial = s.given)
    (hclock : s.clock ≤ now) (hother : ∀ active ∈ s.registry.active, active.id ≠ session)
    (hgone : ∀ gone ∈ s.registry.goneThrough, ¬ session ≤ gone)
    (hroom : s.registry.early.length < maxEarly) :
    Kept (log ++ [.arrived session s.given, .routed session s.given .held])
      ⟨{ s.registry with early := s.registry.early ++ [⟨now + earlyWait, session, u⟩] }, now,
        s.given + 1⟩ := by
  have hquiet : ∀ e ∈ [RouteEvent.arrived session s.given, .routed session s.given .held],
      e.ofStream = true := by
    intro e he
    rcases List.mem_pair.mp he with rfl | rfl <;> rfl
  have harrivals : arrivals [.arrived session s.given, .routed session s.given .held] =
      [(session, s.given)] := rfl
  have hsettled : settled [.arrived session s.given, .routed session s.given .held] = [] := rfl
  have hqueued (id : SessionId) :
      queuedTo id [.arrived session s.given, .routed session s.given .held] = [] := rfl
  constructor
  · exact (h.known.quiet hquiet).congr rfl rfl
  · intro hover
    exact h.finished ((mem_append_quiet hquiet rfl).mp hover)
  · show (settled _ ++ (s.registry.early ++ [_]).map _).Perm _
    rw [settled_append, hsettled, List.append_nil, arrivals_append, harrivals, List.map_append,
      ← List.append_assoc]
    have hplace : [(⟨now + earlyWait, session, u⟩ : Early)].map Early.place =
        [(session, s.given)] := by rw [← hu]; rfl
    rw [hplace]
    exact h.placed.append_right _
  · rw [arrivals_append, harrivals, List.map_append, h.numbered]
    exact List.range_succ.symm
  · intro id
    rw [queuedTo_append, hqueued, List.append_nil]
    exact h.order id
  · intro id hne
    rw [queuedTo_append, hqueued, List.append_nil] at hne
    exact List.mem_append_left _ (h.queued id hne)
  · intro id
    have hkept : takenFrom id [.arrived session s.given, .routed session s.given .held] = [] := rfl
    rw [queuedTo_append, hqueued, List.append_nil, takenFrom_append, hkept, List.append_nil]
    exact h.queue id
  · show (s.registry.early ++ [_]).length ≤ maxEarly
    rw [List.length_append]
    exact hroom
  · show (s.registry.early ++ [_]).Pairwise _
    rw [List.pairwise_append]
    refine ⟨h.waiting, List.pairwise_singleton _ _, fun e he last hmem => ?_⟩
    rw [List.mem_singleton.mp hmem, hu]
    exact h.lt_given (List.mem_append_right _ (List.mem_map_of_mem (f := Early.place) he))
  · show (s.registry.early ++ [_]).Pairwise _
    rw [List.pairwise_append]
    refine ⟨h.deadlines, List.pairwise_singleton _ _, fun e he last hmem => ?_⟩
    -- no deadline is further off than one that is set now
    rw [List.mem_singleton.mp hmem]
    exact (h.due e he).trans (Nat.add_le_add_right hclock _)
  · intro e he
    rcases List.mem_append.mp he with he | he
    · exact (h.due e he).trans (Nat.add_le_add_right hclock _)
    · rw [List.mem_singleton.mp he]
  · intro e he
    rw [mem_append_quiet hquiet rfl]
    rcases List.mem_append.mp he with he | he
    · exact (h.early e he).imp_right Late.append
    · -- a session that was registered is active or gone, unless the connection ended
      rw [List.mem_singleton.mp he]
      by_cases hreg : .registered session ∈ log
      · rcases h.known.registered session hreg with ⟨closed, hroute⟩ | hover | hover
        · obtain ⟨active, hactive, hid, -⟩ := Registry.exists_of_route hroute
          exact absurd hid (hother active hactive)
        · obtain ⟨gone, hmem, hle⟩ := h.known.above session hover
          exact absurd hle (hgone gone hmem)
        · exact .inr ⟨log, [.routed session s.given .held], by rw [hu], hover⟩
      · exact .inl hreg

/-- A stream comes in and is refused. -/
theorem refuses (h : Kept log s) (code : Code) {now : ℕ} (hclock : s.clock ≤ now) :
    Kept (log ++ [.arrived session s.given, .routed session s.given (.refused code)])
      ⟨s.registry, now, s.given + 1⟩ := by
  have hqueued : Fate.refused code ≠ .queued := Fate.noConfusion
  refine h.settles Fate.noConfusion hclock h.known rfl rfl (fun hnone => hnone) ?_ ?_
  · intro hfate
    exact absurd hfate hqueued
  · intro id
    rw [queuedTo_routed hqueued, List.append_nil]

/-- A stream comes in. -/
theorem stream (h : Kept log s) {now : ℕ} (hclock : s.clock ≤ now) {u : Unrouted}
    (hu : u.serial = s.given) :
    Kept (log ++ [.arrived session s.given,
        .routed session s.given (s.registry.stream now session u).1])
      ⟨(s.registry.stream now session u).2, now, s.given + 1⟩ := by
  have hknown : Known log (s.registry.stream now session u).2 := h.known.stream
  have hrouted := Registry.stream_routed s.registry now session u
  generalize s.registry.stream now session u = result at hrouted hknown ⊢
  cases hrouted with
  | @queued active streams hactive hid hsend =>
    refine h.settles Fate.noConfusion hclock hknown rfl rfl ?_ ?_ ?_
    · intro hnone
      rw [hactive] at hnone
      cases hnone
    · intro _
      rw [← hid]
      exact (h.known.active _ _ (Registry.route_of_active hactive)).1
    · intro id
      let after : Registry := { s.registry with active := some { active with streams } }
      have hafter : after.active = some { active with streams } := rfl
      show after.waiting id = _
      rw [Registry.waiting_of_active hactive, Registry.waiting_of_active hafter]
      simp only
      by_cases hmatch : active.id = id
      · rw [if_pos hmatch, if_pos hmatch, (Channel.trySend_eq_ok hsend).2.2.1, List.map_append, ← hid,
          hmatch, queuedTo_queued, ← hu]
        rfl
      · rw [if_neg hmatch, if_neg hmatch, queuedTo_other fun heq => hmatch (hid.trans heq)]
        rfl
  | full hactive hid hopen => exact h.refuses _ hclock
  | hungUp hactive hid hclosed => exact h.refuses _ hclock
  | gone hother hgone hle => exact h.refuses _ hclock
  | held hother hgone hroom => exact h.holds hu hclock hother hgone hroom
  | crowded hother hgone hroom => exact h.refuses _ hclock

/-- A step that takes some streams out of `early`, and settles each of them. -/
theorem leaves (h : Kept log s) (gone : List Early) (hknown : Known (log ++ events) t.registry)
    (hover : .ended ∈ log ++ events → t.registry.active = none ∧ t.registry.ended = true)
    (hgiven : t.given = s.given) (hclock : s.clock ≤ t.clock)
    (hsub : t.registry.early.Sublist s.registry.early)
    (hperm : (gone ++ t.registry.early).Perm s.registry.early)
    (hsettled : settled events = gone.map Early.place) (harrivals : arrivals events = [])
    (horder : ∀ id, (queuedTo id log ++ queuedTo id events).Pairwise (· < ·))
    (hqueued : ∀ id, queuedTo id events ≠ [] → .registered id ∈ log ++ events)
    (hqueue : ∀ id, s.registry.waiting id ++ queuedTo id events =
      takenFrom id events ++ t.registry.waiting id)
    (hearly : ∀ e ∈ t.registry.early,
      .registered e.session ∈ log ++ events → .registered e.session ∈ log) :
    Kept (log ++ events) t := by
  constructor
  · exact hknown
  · exact hover
  · rw [settled_append, hsettled, arrivals_append, harrivals, List.append_nil, List.append_assoc,
      ← List.map_append]
    exact ((hperm.map _).append_left _).trans h.placed
  · rw [arrivals_append, harrivals, List.append_nil, hgiven]
    exact h.numbered
  · intro id
    rw [queuedTo_append]
    exact horder id
  · intro id hne
    rw [queuedTo_append] at hne
    by_cases hnew : queuedTo id events = []
    · rw [hnew, List.append_nil] at hne
      exact List.mem_append_left _ (h.queued id hne)
    · exact hqueued id hnew
  · intro id
    rw [queuedTo_append, takenFrom_append, h.queue id, List.append_assoc, hqueue id,
      List.append_assoc]
  · exact hsub.length_le.trans h.room
  · exact h.waiting.sublist hsub
  · exact h.deadlines.sublist hsub
  · intro e he
    exact (h.due e (hsub.subset he)).trans (Nat.add_le_add_right hclock _)
  · intro e he
    exact (h.early e (hsub.subset he)).imp (fun hnot hreg => hnot (hearly e he hreg)) Late.append

/-- A step that settles streams without a session's start queues none. -/
theorem unqueued (h : Kept log s) (hqueued : ∀ id, queuedTo id events = []) :
    (∀ id, (queuedTo id log ++ queuedTo id events).Pairwise (· < ·)) ∧
      ∀ id, queuedTo id events ≠ [] → .registered id ∈ log ++ events := by
  constructor
  · intro id
    rw [hqueued, List.append_nil]
    exact h.order id
  · intro id hne
    exact absurd (hqueued id) hne

/-- Expiry settles the streams that were held too long. -/
theorem expire (h : Kept log s) {now : ℕ} (hclock : s.clock ≤ now) :
    Kept (log ++ (s.registry.expire now).1.map fun e => .expired e.session e.stream.serial)
      ⟨(s.registry.expire now).2, now, s.given⟩ := by
  have hquiet : ∀ e ∈ (s.registry.expire now).1.map fun e =>
      RouteEvent.expired e.session e.stream.serial, e.ofStream = true ∧ e.arrival = none ∧
        ∀ id, e.queuedTo id = none := by
    intro e he
    obtain ⟨expired, -, rfl⟩ := List.mem_map.mp he
    exact ⟨rfl, rfl, fun id => rfl⟩
  have hqueued (id : SessionId) : queuedTo id ((s.registry.expire now).1.map fun e =>
      .expired e.session e.stream.serial) = [] :=
    queuedTo_eq_nil fun e he => (hquiet e he).2.2 id
  have hunqueued := h.unqueued hqueued
  -- the front of `early` leaves, whatever the deadlines behind it are
  refine h.leaves (s.registry.expire now).1 ?_ ?_ rfl hclock ?_ ?_ ?_ ?_ hunqueued.1
    hunqueued.2 ?_ ?_
  · exact (h.known.quiet fun e he => (hquiet e he).1).congr rfl rfl
  · intro hover
    exact h.finished ((mem_append_quiet (fun e he => (hquiet e he).1) rfl).mp hover)
  · exact List.dropWhile_sublist _
  · unfold Registry.expire
    rw [List.takeWhile_append_dropWhile]
  · exact settled_map fun e _ => rfl
  · exact arrivals_eq_nil fun e he => (hquiet e he).2.1
  · intro id
    have hkept : takenFrom id ((s.registry.expire now).1.map fun e =>
        .expired e.session e.stream.serial) = [] := by
      apply takenFrom_eq_nil
      intro e he
      obtain ⟨expired, -, rfl⟩ := List.mem_map.mp he
      rfl
    rw [hqueued, List.append_nil, hkept]
    rfl
  · intro e _ hreg
    exact (mem_append_quiet (fun e he => (hquiet e he).1) rfl).mp hreg

/-- The connection ends: what waits is dropped, and the active session's queue goes. -/
theorem finish (h : Kept log s) :
    Kept (log ++ (.ended :: (s.registry.finish.1.map fun e => .dropped e.session e.stream.serial) ++
        s.registry.active.elim [] fun active => s.registry.abandon active.id))
      ⟨s.registry.finish.2, s.clock, s.given⟩ := by
  let dropped : List RouteEvent :=
    s.registry.finish.1.map fun e => .dropped e.session e.stream.serial
  let gone : List RouteEvent := s.registry.active.elim [] fun active => s.registry.abandon active.id
  show Kept (log ++ (.ended :: dropped ++ gone)) _
  have hdropped : ∀ e ∈ dropped, e.ofStream = true ∧ e.arrival = none ∧
      (∀ id, e.queuedTo id = none) ∧ ∀ id, e.takenFrom id = none := by
    intro e he
    obtain ⟨waiting, -, rfl⟩ := List.mem_map.mp he
    exact ⟨rfl, rfl, fun id => rfl, fun id => rfl⟩
  have hgone : ∀ e ∈ gone, ∃ id serial, e = .abandoned id serial := by
    intro e he
    obtain ⟨active, -, he⟩ : ∃ active ∈ s.registry.active, e ∈ s.registry.abandon active.id := by
      match hactive : s.registry.active with
      | none =>
        have hnil : gone = [] := by
          show s.registry.active.elim _ _ = _
          rw [hactive]
          rfl
        rw [hnil] at he
        cases he
      | some active =>
        refine ⟨active, rfl, ?_⟩
        have hall : gone = s.registry.abandon active.id := by
          show s.registry.active.elim _ _ = _
          rw [hactive]
          rfl
        rw [← hall]
        exact he
    obtain ⟨u, -, rfl⟩ := List.mem_map.mp he
    exact ⟨active.id, u.serial, rfl⟩
  -- nothing of it places a stream in a queue
  have hevents : ∀ e ∈ .ended :: dropped ++ gone, e.arrival = none ∧ ∀ id, e.queuedTo id = none := by
    intro e he
    rcases List.mem_append.mp he with he | he
    · rcases List.mem_cons.mp he with rfl | he
      · exact ⟨rfl, fun id => rfl⟩
      · exact ⟨(hdropped e he).2.1, (hdropped e he).2.2.1⟩
    · obtain ⟨id, serial, rfl⟩ := hgone e he
      exact ⟨rfl, fun id => rfl⟩
  have hqueued (id : SessionId) : queuedTo id (.ended :: dropped ++ gone) = [] :=
    queuedTo_eq_nil fun e he => (hevents e he).2 id
  have hunqueued := h.unqueued hqueued
  refine h.leaves s.registry.finish.1 ?_ (fun _ => ⟨rfl, rfl⟩) rfl le_rfl ?_ ?_ ?_ ?_ hunqueued.1
    hunqueued.2 ?_ ?_
  · rw [List.cons_append, List.append_cons]
    refine h.known.finish.quiet fun e he => ?_
    rcases List.mem_append.mp he with he | he
    · exact (hdropped e he).1
    · obtain ⟨id, serial, rfl⟩ := hgone e he
      rfl
  · exact List.nil_sublist _
  · exact List.Perm.of_eq (List.append_nil _)
  · have hnone : settled gone = [] := by
      apply List.filterMap_eq_nil_iff.mpr
      intro e he
      obtain ⟨id, serial, rfl⟩ := hgone e he
      rfl
    have hended : settled (.ended :: dropped) = settled dropped := rfl
    rw [settled_append, hnone, List.append_nil, hended]
    exact settled_map fun e _ => rfl
  · exact arrivals_eq_nil fun e he => (hevents e he).1
  · intro id
    have hended : takenFrom id (.ended :: dropped) = [] := by
      apply takenFrom_eq_nil
      intro e he
      rcases List.mem_cons.mp he with rfl | he
      · rfl
      · exact (hdropped e he).2.2.2 id
    rw [hqueued, List.append_nil, takenFrom_append, hended, List.nil_append,
      Registry.waiting_of_none (r := s.registry.finish.2) rfl, List.append_nil]
    show _ = takenFrom id (s.registry.active.elim _ _)
    match hactive : s.registry.active with
    | none => exact Registry.waiting_of_none hactive id
    | some active =>
      rw [Option.elim_some, Registry.takenFrom_abandon]
      split
      · rfl
      · rename_i hid
        rw [Registry.waiting_of_active hactive, if_neg hid]
  · intro e he
    cases he

/-- A new session takes the streams that wait for it. -/
theorem register (h : Kept log s) (hvacant : s.registry.vacant) {now : ℕ} (hclock : s.clock ≤ now) :
    Kept (log ++ .registered id :: (s.registry.register now id).1.map routedEvent)
      ⟨(s.registry.register now id).2, now, s.given⟩ := by
  let fresh : Active := ⟨id, .empty, .empty, s.registry.shutdown⟩
  have hspec : Registry.Rerouted { s.registry with active := some fresh, early := [] } fresh
      s.registry.early (s.registry.register now id) := Registry.reroute_rerouted _ rfl rfl
  have hopen : .ended ∉ log := by
    intro hover
    unfold Registry.vacant at hvacant
    rw [(h.finished hover).2, Bool.not_true, Bool.and_false] at hvacant
    cases hvacant
  have hevents : ∀ e ∈ (s.registry.register now id).1.map routedEvent,
      e.ofStream = true ∧ e.arrival = none ∧ ∀ id', id' ≠ id → e.queuedTo id' = none := by
    intro e he
    obtain ⟨x, hx, rfl⟩ := List.mem_map.mp he
    have hmem : x.1 ∈ s.registry.early.filter (·.session = id) := by
      rw [← hspec.routed]
      exact List.mem_map_of_mem hx
    have hsession : x.1.session = id := of_decide_eq_true (List.mem_filter.mp hmem).2
    refine ⟨rfl, rfl, fun id' hne => RouteEvent.queuedTo_of_ne ?_⟩
    rw [hsession]
    exact hne.symm
  have hmem (e : RouteEvent) (he : e.ofStream = false) (hne : e ≠ .registered id) :
      e ∈ log ++ .registered id :: (s.registry.register now id).1.map routedEvent ↔ e ∈ log := by
    rw [List.append_cons, mem_append_quiet (fun e he => (hevents e he).1) he, List.mem_append,
      List.mem_singleton, or_iff_left hne]
  -- what is queued is of the streams that waited for this session
  have hnew : (queuedTo id ((s.registry.register now id).1.map routedEvent)).Sublist
      ((s.registry.early.filter (·.session = id)).map (·.stream.serial)) := by
    have hsub := @queuedTo_sublist id (s.registry.register now id).1
    have hmap : (s.registry.register now id).1.map (·.1.stream.serial) =
        ((s.registry.register now id).1.map Prod.fst).map (·.stream.serial) := by
      rw [List.map_map]
      rfl
    rw [hmap, hspec.routed] at hsub
    exact hsub
  have hother (id' : SessionId) (hne : id' ≠ id) :
      queuedTo id' ((s.registry.register now id).1.map routedEvent) = [] :=
    queuedTo_eq_nil fun e he => (hevents e he).2.2 id' hne
  have hqueued (id' : SessionId) :
      queuedTo id' (.registered id :: (s.registry.register now id).1.map routedEvent) =
        queuedTo id' ((s.registry.register now id).1.map routedEvent) := rfl
  refine h.leaves (s.registry.early.filter (·.session = id)) ?_ ?_ rfl hclock ?_ ?_ ?_ ?_ ?_ ?_ ?_ ?_
  · rw [List.append_cons]
    exact ((h.known.register hvacant).reroute _).quiet fun e he => (hevents e he).1
  · intro hover
    exact absurd ((hmem _ rfl RouteEvent.noConfusion).mp hover) hopen
  · show (s.registry.register now id).2.early.Sublist _
    rw [hspec.early]
    exact List.filter_sublist
  · show (_ ++ (s.registry.register now id).2.early).Perm _
    rw [hspec.early]
    have hnot : (fun e : Early => decide (e.session ≠ fresh.id)) =
        fun e => !decide (e.session = id) := by
      funext e
      exact decide_not
    rw [hnot]
    exact List.filter_append_perm _ _
  · have hsettled : settled ((s.registry.register now id).1.map routedEvent) =
        (s.registry.register now id).1.map (·.1.place) := by
      apply settled_map
      intro x hx
      unfold routedEvent
      rcases hspec.fates x hx with hfate | hfate
      · rw [hfate]
        rfl
      · rw [hfate]
        rfl
    rw [← hspec.routed, List.map_map]
    exact hsettled
  · apply arrivals_eq_nil
    intro e he
    rcases List.mem_cons.mp he with rfl | he
    · rfl
    · exact (hevents e he).2.1
  · intro id'
    rw [hqueued]
    by_cases hid : id' = id
    · rw [hid]
      by_cases hreg : .registered id ∈ log
      · -- no stream waits for a session that was registered before
        have hnone : s.registry.early.filter (·.session = id) = [] := by
          rw [List.filter_eq_nil_iff]
          intro e he hsession
          rcases h.early e he with hnot | ⟨before, after, heq, hended⟩
          · rw [of_decide_eq_true hsession] at hnot
            exact hnot hreg
          · rw [heq] at hopen
            exact hopen (List.mem_append_left _ hended)
        rw [hnone, List.map_nil, List.sublist_nil] at hnew
        rw [hnew, List.append_nil]
        exact h.order id
      · -- nothing was queued to the session before, so its queue begins with those that waited
        have hnil : queuedTo id log = [] := by
          by_contra hne
          exact hreg (h.queued id hne)
        rw [hnil, List.nil_append]
        exact (List.pairwise_map.mpr (h.waiting.filter _)).sublist hnew
    · rw [hother id' hid, List.append_nil]
      exact h.order id'
  · intro id' hne
    rw [hqueued] at hne
    by_cases hid : id' = id
    · rw [hid]
      exact List.mem_append_right _ List.mem_cons_self
    · exact absurd (hother id' hid) hne
  · intro id'
    -- the session's queue holds what its start put there
    have hkept : takenFrom id' (.registered id :: (s.registry.register now id).1.map routedEvent) =
        [] := by
      apply takenFrom_eq_nil
      intro e he
      rcases List.mem_cons.mp he with rfl | he
      · rfl
      · obtain ⟨x, -, rfl⟩ := List.mem_map.mp he
        rfl
    obtain ⟨active, hactive, hid, hqueue⟩ := hspec.queue
    have hvacancy : s.registry.active = none := by
      unfold Registry.vacant at hvacant
      exact Option.isNone_iff_eq_none.mp (Bool.and_eq_true_iff.mp hvacant).1
    rw [hqueued, hkept, Registry.waiting_of_none hvacancy, Registry.waiting_of_active hactive, hid]
    by_cases hmatch : id = id'
    · rw [if_pos hmatch, hqueue, ← hmatch]
      rfl
    · rw [if_neg hmatch, hother id' (Ne.symm hmatch)]
  · intro e he hreg
    have hne : e.session ≠ id := by
      have he : e ∈ (s.registry.register now id).2.early := he
      rw [hspec.early] at he
      exact of_decide_eq_true (List.mem_filter.mp he).2
    refine (hmem _ rfl ?_).mp hreg
    intro heq
    exact hne (RouteEvent.registered.inj heq)

end Kept

/-! ## Runs -/

/-- The quiet actions take from a queue only what they log. -/
theorem step_waiting {s t : Routing} {a : RouteAction} {events : List RouteEvent}
    (hquiet : a.quiet = true) (hstep : s.step a = some (t, events)) (id : SessionId) :
    s.registry.waiting id = takenFrom id events ++ t.registry.waiting id := by
  cases a with
  | datagram session payload =>
    cases hstep
    refine (Registry.waiting_onActive (fun active => ?_) id).symm
    split <;> rfl
  | shutDown code reason =>
    cases hstep
    show s.registry.waiting id = (s.registry.shutDown code reason).waiting id
    match hactive : s.registry.active with
    | none =>
      have hafter : (s.registry.shutDown code reason).active = none := by
        unfold Registry.shutDown
        rw [hactive]
        rfl
      rw [Registry.waiting_of_none hactive, Registry.waiting_of_none hafter]
    | some active =>
      have hafter : (s.registry.shutDown code reason).active =
          some { active with close := active.close <|> some ⟨code, reason⟩ } := by
        unfold Registry.shutDown
        rw [hactive]
        rfl
      rw [Registry.waiting_of_active hactive, Registry.waiting_of_active hafter]
  | requestClose session code reason =>
    cases hstep
    have hkept : (s.registry.requestClose session code reason).waiting id = s.registry.waiting id := by
      refine Registry.waiting_onActive (fun active => ?_) id
      rfl
    exact hkept.symm
  | acceptUni session =>
    cases hstep
    exact Registry.acceptUni_waiting s.registry session id
  | readDatagram session =>
    cases hstep
    have hkept : (s.registry.readDatagram session).waiting id = s.registry.waiting id := by
      refine Registry.waiting_onActive (fun active => ?_) id
      rfl
    exact hkept.symm
  | stream _ _ _ | expire _ | finish | register _ _ | unregister _ | hangUp _ => cases hquiet

/-- A session that leaves the registry leaves with its queue. -/
theorem unregister_waiting (r : Registry) (id id' : SessionId) :
    r.waiting id' = takenFrom id' (.unregistered id :: r.abandon id) ++
      (r.unregister id).waiting id' := by
  have htaken : takenFrom id' (.unregistered id :: r.abandon id) = takenFrom id' (r.abandon id) := rfl
  rw [htaken, Registry.takenFrom_abandon]
  match hactive : r.active with
  | none =>
    have hafter : (r.unregister id).active = none := by
      unfold Registry.unregister
      rw [hactive]
      rfl
    rw [Registry.waiting_of_none hactive, Registry.waiting_of_none hafter]
    split <;> rfl
  | some active =>
    by_cases hid : active.id = id
    · have hafter : (r.unregister id).active = none := by
        unfold Registry.unregister
        rw [hactive, Option.filter_some]
        simp [hid]
      rw [Registry.waiting_of_none hafter, List.append_nil]
      split
      · rfl
      · rename_i hother
        rw [Registry.waiting_of_active hactive, if_neg fun heq => hother (hid.symm.trans heq)]
    · have hafter : (r.unregister id).active = some active := by
        unfold Registry.unregister
        rw [hactive, Option.filter_some]
        simp [hid]
      rw [Registry.waiting_of_active hafter, Registry.waiting_of_active hactive]
      split
      · rename_i heq
        rw [if_neg fun hmatch => hid (heq.trans hmatch.symm)]
        rfl
      · rw [ite_self]
        rfl

/-- The application's drop of its session takes what was queued. -/
theorem hangUp_waiting {r : Registry} {id : SessionId} (hany : r.active.any (·.id = id))
    (id' : SessionId) :
    r.waiting id' = takenFrom id' (.hungUp id :: r.abandon id) ++ (r.hangUp id).waiting id' := by
  have htaken : takenFrom id' (.hungUp id :: r.abandon id) = takenFrom id' (r.abandon id) := rfl
  obtain ⟨active, hactive, hid⟩ := (Option.any_eq_true _ _).mp hany
  have hid : active.id = id := of_decide_eq_true hid
  have hafter := Registry.onActive_active (Registry.onActive_active hactive hid fun active =>
    { active with close := active.close <|> some ⟨0, ""⟩ }) hid fun active =>
      { active with streams := active.streams.hangUp, datagrams := active.datagrams.hangUp }
  have hactive' : (r.hangUp id).active = _ := hafter
  rw [htaken, Registry.takenFrom_abandon, Registry.waiting_of_active hactive,
    Registry.waiting_of_active hactive']
  simp only [Channel.hangUp_queue, List.map_nil, ite_self, List.append_nil, hid]
  split <;> rfl

/-- **One step** keeps every stream's one fate. -/
theorem step_kept {log events : List RouteEvent} {s t : Routing} {a : RouteAction} (h : Kept log s)
    (hfit : s.Monotone a) (hstep : s.step a = some (t, events)) : Kept (log ++ events) t := by
  have habandon (r : Registry) (id : SessionId) : ∀ e ∈ r.abandon id, e.ofQueue = true := by
    intro e he
    obtain ⟨u, -, rfl⟩ := List.mem_map.mp he
    rfl
  cases a with
  | stream now session first =>
    cases hstep
    let u : Unrouted := ⟨s.given, first⟩
    have hstream : Kept (log ++ [.arrived session s.given,
        .routed session s.given (s.registry.stream now session u).1])
        ⟨(s.registry.stream now session u).2, now, s.given + 1⟩ := h.stream hfit rfl
    exact hstream
  | expire now =>
    cases hstep
    exact h.expire hfit
  | finish =>
    cases hstep
    exact h.finish
  | register now id =>
    simp only [Routing.step] at hstep
    split at hstep
    · rename_i hvacant
      cases hstep
      exact h.register hvacant hfit
    · cases hstep
  | unregister id =>
    cases hstep
    refine h.still ?_ ?_ rfl rfl rfl hfit ?_ (unregister_waiting s.registry id)
    · rw [List.append_cons]
      exact h.known.unregister.quiet fun e he => by
        obtain ⟨u, -, rfl⟩ := List.mem_map.mp he
        rfl
    · exact List.forall_mem_cons.mpr ⟨rfl, habandon s.registry id⟩
    · intro hnone
      show s.registry.active.filter _ = none
      rw [hnone]
      rfl
  | hangUp id =>
    simp only [Routing.step] at hstep
    split at hstep
    · rename_i hactive
      cases hstep
      refine h.still ?_ ?_ rfl rfl rfl hfit ?_ (hangUp_waiting hactive)
      · rw [List.append_cons]
        exact (h.known.hangUp hactive).quiet fun e he => by
          obtain ⟨u, -, rfl⟩ := List.mem_map.mp he
          rfl
      · exact List.forall_mem_cons.mpr ⟨rfl, habandon s.registry id⟩
      · intro hnone
        rw [hnone] at hactive
        cases hactive
    · cases hstep
  | datagram _ _ | shutDown _ _ | requestClose _ _ _ | acceptUni _ | readDatagram _ =>
    obtain ⟨haccepted, hstill, hgiven, hclock⟩ := step_still rfl hstep
    have hkind : ∀ e ∈ events, e.ofQueue = true ∧ e.ofStream = true := by
      intro e he
      obtain ⟨id, serial, rfl⟩ := haccepted e he
      exact ⟨rfl, rfl⟩
    refine h.still ?_ (fun e he => (hkind e he).1) hstill.early hstill.ended hgiven
      (Nat.le_of_eq hclock.symm) ?_ (step_waiting rfl hstep)
    · exact (h.known.quiet fun e he => (hkind e he).2).congr hstill.route hstill.gone
    · intro hnone
      have hroute := hstill.route
      unfold Registry.route at hroute
      rw [hnone, Option.map_none] at hroute
      exact Option.map_eq_none_iff.mp hroute

end GraphiteMeter.Http3
