import GraphiteMeter.Http3.Registry

/-!
# Streams of sessions that are gone

Reference: `rust/http3/src/webtransport.rs` (`Registry::stream`, `gone_through`, `unregister`).

The registry remembers of the sessions that ended only the greatest ID. That stands for all of them
where sessions start in the order of their IDs, which nothing asks for: a CONNECT may be answered after
a later one's session ended. `gone_sessions` says exactly which streams are refused rightly.
-/

namespace GraphiteMeter.Http3

namespace RouteEvent

/-- What happens to a stream, and not to a session. -/
def ofStream : RouteEvent → Bool
  | .arrived _ _ | .routed _ _ _ | .expired _ _ | .dropped _ _ | .accepted _ _ | .abandoned _ _ => true
  | .registered _ | .unregistered _ | .hungUp _ | .ended => false

end RouteEvent

/-- What happens to streams tells nothing of sessions. -/
theorem mem_append_quiet {log events : List RouteEvent} {e : RouteEvent}
    (hquiet : ∀ e ∈ events, e.ofStream = true) (he : e.ofStream = false) :
    e ∈ log ++ events ↔ e ∈ log := by
  rw [List.mem_append, or_iff_left]
  intro hin
  rw [hquiet e hin] at he
  cases he

/-- The session has ended, or its streams are no longer received. -/
def Over (log : List RouteEvent) (id : SessionId) : Prop :=
  .unregistered id ∈ log ∨ .ended ∈ log ∨ .hungUp id ∈ log

/-- A stream for `session` goes where it should: one is refused as gone only if its session was
registered earlier and is over, and one that is early is held or refused as buffered. -/
structure Rightly (log : List RouteEvent) (session : SessionId) (fate : Fate) : Prop where
  gone : fate = .refused .wtSessionGone → .registered session ∈ log ∧ Over log session
  early : .registered session ∉ log →
    fate = .held ∨ fate = .refused .wtBufferedStreamRejected

/-- The stream does not name a session that was never registered, at or below one that ended. -/
def InOrder (log : List RouteEvent) (session : SessionId) : Prop :=
  .registered session ∉ log → ∀ id, .unregistered id ∈ log → ¬ session ≤ id

/-- A stream goes where it should exactly where it is in order. -/
def Exact (log : List RouteEvent) : RouteEvent → Prop
  | .routed session _ fate => Rightly log session fate ↔ InOrder log session
  | _ => True

/-! ## What the registry knows of the sessions -/

namespace Registry

/-- Where streams of the active session go: its ID, and whether its queue is closed. -/
def route (r : Registry) : Option (SessionId × Bool) :=
  r.active.map fun active => (active.id, active.streams.closed)

/-- A change that keeps the identifier and the closing keeps the route. -/
theorem route_onActive {r : Registry} {id : SessionId} {change : Active → Active}
    (hkeep : ∀ active, ((change active).id, (change active).streams.closed) =
      (active.id, active.streams.closed)) :
    (r.onActive id change).route = r.route := by
  unfold route onActive
  rw [Option.map_map]
  congr 1
  funext active
  simp only [Function.comp_apply]
  split
  · exact hkeep active
  · rfl

/-- The active session is the route. -/
theorem route_of_active {r : Registry} {active : Active} (h : r.active = some active) :
    r.route = some (active.id, active.streams.closed) := by
  rw [route, h]
  rfl

/-- A route is an active session's. -/
theorem exists_of_route {r : Registry} {id : SessionId} {closed : Bool}
    (h : r.route = some (id, closed)) :
    ∃ active, r.active = some active ∧ active.id = id ∧ active.streams.closed = closed := by
  obtain ⟨active, hactive, heq⟩ := Option.map_eq_some_iff.mp h
  cases heq
  exact ⟨active, hactive, rfl, rfl⟩

/-- Two registries that hold back the same streams, and route alike. -/
structure Still (r r' : Registry) : Prop where
  route : r'.route = r.route
  gone : r'.goneThrough = r.goneThrough
  early : r'.early = r.early
  ended : r'.ended = r.ended

/-- A change that keeps the identifier and the closing keeps what is known. -/
theorem Still.onActive {r : Registry} {id : SessionId} {change : Active → Active}
    (hkeep : ∀ active, ((change active).id, (change active).streams.closed) =
      (active.id, active.streams.closed)) : Still r (r.onActive id change) :=
  ⟨route_onActive hkeep, rfl, rfl, rfl⟩

end Registry

/-- The actions that neither route a stream nor start or end a session. -/
def RouteAction.quiet : RouteAction → Bool
  | .datagram _ _ | .shutDown _ _ | .requestClose _ _ _ | .acceptUni _ | .readDatagram _ => true
  | _ => false

/-- What these actions log is what the application takes. -/
theorem step_still {s t : Routing} {a : RouteAction} {events : List RouteEvent}
    (hquiet : a.quiet = true) (hstep : s.step a = some (t, events)) :
    (∀ e ∈ events, ∃ id serial, e = .accepted id serial) ∧ Registry.Still s.registry t.registry ∧
      t.given = s.given ∧ t.clock = s.clock := by
  have hnone : ∀ e ∈ ([] : List RouteEvent), ∃ id serial, e = .accepted id serial := by
    intro e he
    cases he
  cases a with
  | datagram session payload =>
    cases hstep
    refine ⟨hnone, Registry.Still.onActive ?_, rfl, rfl⟩
    intro active
    split <;> rfl
  | shutDown code reason =>
    cases hstep
    refine ⟨hnone, ⟨?_, rfl, rfl, rfl⟩, rfl, rfl⟩
    unfold Registry.shutDown Registry.route
    rw [Option.map_map]
    rfl
  | requestClose id code reason =>
    cases hstep
    exact ⟨hnone, Registry.Still.onActive fun _ => rfl, rfl, rfl⟩
  | acceptUni id =>
    cases hstep
    refine ⟨?_, Registry.Still.onActive ?_, rfl, rfl⟩
    · intro e he
      obtain ⟨u, -, rfl⟩ := List.mem_map.mp he
      exact ⟨id, u.serial, rfl⟩
    · intro active
      match hrecv : active.streams.tryRecv with
      | none => rfl
      | some (u, streams) =>
        simp only [Option.elim_some]
        rw [(Channel.tryRecv_eq_some hrecv).2]
  | readDatagram id =>
    cases hstep
    exact ⟨hnone, Registry.Still.onActive fun _ => rfl, rfl, rfl⟩
  | stream _ _ _ | expire _ | finish | register _ _ | unregister _ | hangUp _ => cases hquiet

/-- The registry against what happened to sessions so far. -/
structure Known (log : List RouteEvent) (r : Registry) : Prop where
  active : ∀ id closed, r.route = some (id, closed) →
    .registered id ∈ log ∧ (closed = true → .hungUp id ∈ log)
  registered : ∀ id, .registered id ∈ log →
    (∃ closed, r.route = some (id, closed)) ∨ .unregistered id ∈ log ∨ .ended ∈ log
  gone : ∀ id ∈ r.goneThrough, .unregistered id ∈ log
  above : ∀ id, .unregistered id ∈ log → ∃ gone ∈ r.goneThrough, id ≤ gone

namespace Known

variable {log events : List RouteEvent} {r r' : Registry} {now : ℕ} {session id : SessionId}
  {u : Unrouted}

/-- Nothing is known of a new registry. -/
theorem new : Known [] .new where
  active := by
    intro id closed hroute
    cases hroute
  registered := by
    intro id hid
    cases hid
  gone := by
    intro id hid
    cases hid
  above := by
    intro id hid
    cases hid

/-- What happens to streams changes nothing of it. -/
theorem quiet (h : Known log r) (hquiet : ∀ e ∈ events, e.ofStream = true) :
    Known (log ++ events) r := by
  have hmem (e : RouteEvent) (he : e.ofStream = false) : e ∈ log ++ events ↔ e ∈ log :=
    mem_append_quiet hquiet he
  constructor
  · intro id closed hroute
    rw [hmem _ rfl, hmem _ rfl]
    exact h.active id closed hroute
  · intro id hid
    rw [hmem _ rfl] at hid
    rw [hmem _ rfl, hmem _ rfl]
    exact h.registered id hid
  · intro id hid
    rw [hmem _ rfl]
    exact h.gone id hid
  · intro id hid
    rw [hmem _ rfl] at hid
    exact h.above id hid

/-- What is known reads the route and what has gone. -/
theorem congr (h : Known log r) (hroute : r'.route = r.route)
    (hgone : r'.goneThrough = r.goneThrough) : Known log r' := by
  constructor
  · rw [hroute]
    exact h.active
  · rw [hroute]
    exact h.registered
  · rw [hgone]
    exact h.gone
  · rw [hgone]
    exact h.above

/-- Routing a stream keeps what is known. -/
theorem stream (h : Known log r) : Known log (r.stream now session u).2 := by
  have hrouted := Registry.stream_routed r now session u
  generalize r.stream now session u = result at hrouted ⊢
  cases hrouted with
  | queued hactive hid hsend =>
    refine h.congr ?_ rfl
    rw [Registry.route_of_active hactive, Registry.route, (Channel.trySend_eq_ok hsend).2.2.2.symm]
    rfl
  | full hactive hid hopen => exact h
  | hungUp hactive hid hclosed => exact h
  | gone hother hgone hle => exact h
  | held hother hgone hroom => exact h.congr rfl rfl
  | crowded hother hgone hroom => exact h

/-- Routing the waiting streams keeps what is known. -/
theorem reroute (waiting : List Early) (h : Known log r) :
    Known log (r.reroute now id waiting).2 := by
  induction waiting generalizing r with
  | nil => exact h
  | cons e waiting ih =>
    unfold Registry.reroute
    split
    · exact ih h.stream
    · exact ih (h.congr rfl rfl)

/-- **What a stream meets.** It goes where it should exactly where it is in order. -/
theorem meets (h : Known log r) :
    Rightly log session (r.stream now session u).1 ↔ InOrder log session := by
  -- the active session was registered
  have hactive' {active : Active} (hactive : r.active = some active) (hid : active.id = session) :
      .registered session ∈ log := by
    rw [← hid]
    exact (h.active _ _ (Registry.route_of_active hactive)).1
  -- one in order that finds its session gone had it registered, and it is not the active one
  have hgone' {gone : SessionId} (hother : ∀ active ∈ r.active, active.id ≠ session)
      (hgone : gone ∈ r.goneThrough) (hle : session ≤ gone) (horder : InOrder log session) :
      .registered session ∈ log ∧ Over log session := by
    have hreg : .registered session ∈ log := by
      by_contra hnot
      exact horder hnot gone (h.gone gone hgone) hle
    refine ⟨hreg, ?_⟩
    rcases h.registered session hreg with ⟨closed, hroute⟩ | hover | hover
    · obtain ⟨active, hactive, hid, -⟩ := Registry.exists_of_route hroute
      exact absurd hid (hother active hactive)
    · exact .inl hover
    · exact .inr (.inl hover)
  -- one whose session is not gone is in order
  have horder (hgone : ∀ gone ∈ r.goneThrough, ¬ session ≤ gone) : InOrder log session := by
    intro _ id hid hle
    obtain ⟨gone, hmem, habove⟩ := h.above id hid
    exact hgone gone hmem (hle.trans habove)
  have hrouted := Registry.stream_routed r now session u
  generalize r.stream now session u = result at hrouted ⊢
  cases hrouted with
  | queued hactive hid hsend =>
    have hreg := hactive' hactive hid
    refine iff_of_true ⟨?_, fun hnot => absurd hreg hnot⟩ fun hnot => absurd hreg hnot
    intro hfate
    cases hfate
  | full hactive hid hopen =>
    have hreg := hactive' hactive hid
    refine iff_of_true ⟨?_, fun hnot => absurd hreg hnot⟩ fun hnot => absurd hreg hnot
    intro hfate
    cases hfate
  | @hungUp active hactive hid hclosed =>
    have hreg := hactive' hactive hid
    refine iff_of_true ⟨fun _ => ⟨hreg, ?_⟩, fun hnot => absurd hreg hnot⟩
      fun hnot => absurd hreg hnot
    rw [← hid]
    exact .inr (.inr ((h.active _ _ (Registry.route_of_active hactive)).2 hclosed))
  | @gone gone hother hgone hle =>
    constructor
    · intro hright hnot
      rcases hright.early hnot with hfate | hfate <;> cases hfate
    · intro hin
      have hboth := hgone' hother hgone hle hin
      exact ⟨fun _ => hboth, fun hnot => absurd hboth.1 hnot⟩
  | held hother hgone hroom =>
    refine iff_of_true ⟨?_, fun _ => .inl rfl⟩ (horder hgone)
    intro hfate
    cases hfate
  | crowded hother hgone hroom =>
    refine iff_of_true ⟨?_, fun _ => .inr rfl⟩ (horder hgone)
    intro hfate
    cases hfate

/-- An unregistered session is known to have gone. -/
theorem unregister (h : Known log r) : Known (log ++ [.unregistered id]) (r.unregister id) := by
  have hroute {id' : SessionId} {closed : Bool} :
      (r.unregister id).route = some (id', closed) ↔ r.route = some (id', closed) ∧ id' ≠ id := by
    unfold Registry.unregister Registry.route
    simp only [Option.map_eq_some_iff, Option.filter_eq_some_iff, Prod.mk.injEq]
    constructor
    · rintro ⟨active, ⟨hactive, hne⟩, rfl, rfl⟩
      exact ⟨⟨active, hactive, rfl, rfl⟩, of_decide_eq_true hne⟩
    · rintro ⟨⟨active, hactive, rfl, rfl⟩, hne⟩
      exact ⟨active, ⟨hactive, decide_eq_true hne⟩, rfl, rfl⟩
  constructor
  · intro id' closed hactive
    obtain ⟨hreg, hhung⟩ := h.active id' closed (hroute.mp hactive).1
    exact ⟨List.mem_append_left _ hreg, fun hclosed => List.mem_append_left _ (hhung hclosed)⟩
  · intro id' hid'
    have hbefore : .registered id' ∈ log := by simpa using hid'
    rcases h.registered id' hbefore with ⟨closed, hactive⟩ | hover | hover
    · -- the active session stays, unless it is the one that goes
      by_cases hid : id' = id
      · rw [hid]
        exact .inr (.inl (List.mem_append_right _ List.mem_cons_self))
      · exact .inl ⟨closed, hroute.mpr ⟨hactive, hid⟩⟩
    · exact .inr (.inl (List.mem_append_left _ hover))
    · exact .inr (.inr (List.mem_append_left _ hover))
  · intro gone hgone
    unfold Registry.unregister at hgone
    match hbefore : r.goneThrough with
    | none =>
      rw [hbefore] at hgone
      cases hgone
      exact List.mem_append_right _ List.mem_cons_self
    | some before =>
      rw [hbefore] at hgone
      cases hgone
      show RouteEvent.unregistered (max before id) ∈ _
      rcases le_total before id with hle | hle
      · rw [max_eq_right hle]
        exact List.mem_append_right _ List.mem_cons_self
      · rw [max_eq_left hle]
        exact List.mem_append_left _ (h.gone before hbefore)
  · intro id' hid'
    unfold Registry.unregister
    rw [List.mem_append, List.mem_singleton, RouteEvent.unregistered.injEq] at hid'
    match hbefore : r.goneThrough with
    | none =>
      rcases hid' with hid' | rfl
      · obtain ⟨gone, hgone, -⟩ := h.above id' hid'
        rw [hbefore] at hgone
        cases hgone
      · exact ⟨id', rfl, le_rfl⟩
    | some before =>
      refine ⟨max before id, rfl, ?_⟩
      rcases hid' with hid' | rfl
      · obtain ⟨gone, hgone, hle⟩ := h.above id' hid'
        rw [hbefore] at hgone
        cases hgone
        exact hle.trans (le_max_left _ _)
      · exact le_max_right _ _

/-- A session that hangs up is known to have closed. -/
theorem hangUp (h : Known log r) (hactive : r.active.any (·.id = id)) :
    Known (log ++ [.hungUp id]) (r.hangUp id) := by
  obtain ⟨active, hactive, hid⟩ := (Option.any_eq_true _ _).mp hactive
  have hid : active.id = id := of_decide_eq_true hid
  -- the session stays the active one, with its queue closed
  have hroute : (r.hangUp id).route = some (id, true) := by
    unfold Registry.hangUp Registry.requestClose
    rw [Registry.route_of_active (Registry.onActive_active
      (Registry.onActive_active hactive hid _) hid _), Channel.hangUp_closed, hid]
  have hreg : .registered id ∈ log := by
    rw [← hid]
    exact (h.active _ _ (Registry.route_of_active hactive)).1
  constructor
  · intro id' closed heq
    rw [hroute] at heq
    cases heq
    exact ⟨List.mem_append_left _ hreg, fun _ => List.mem_append_right _ List.mem_cons_self⟩
  · intro id' hid'
    have hbefore : .registered id' ∈ log := by simpa using hid'
    rcases h.registered id' hbefore with ⟨closed, heq⟩ | hover | hover
    · rw [Registry.route_of_active hactive] at heq
      cases heq
      rw [hid]
      exact .inl ⟨true, hroute⟩
    · exact .inr (.inl (List.mem_append_left _ hover))
    · exact .inr (.inr (List.mem_append_left _ hover))
  · intro gone hgone
    exact List.mem_append_left _ (h.gone gone hgone)
  · intro id' hid'
    have hbefore : .unregistered id' ∈ log := by simpa using hid'
    exact h.above id' hbefore

/-- A finished registry is known to have ended. -/
theorem finish (h : Known log r) : Known (log ++ [.ended]) r.finish.2 := by
  constructor
  · intro id closed hroute
    cases hroute
  · intro id _
    exact .inr (.inr (List.mem_append_right _ List.mem_cons_self))
  · intro gone hgone
    exact List.mem_append_left _ (h.gone gone hgone)
  · intro id hid
    have hbefore : .unregistered id ∈ log := by simpa using hid
    exact h.above id hbefore

/-- A session starts where there is none. -/
theorem register (h : Known log r) (hvacant : r.vacant) {close : Option SessionClose} :
    Known (log ++ [.registered id])
      { r with active := some ⟨id, .empty, .empty, close⟩, early := [] } := by
  have hnone : r.active = none := by
    unfold Registry.vacant at hvacant
    exact Option.isNone_iff_eq_none.mp (Bool.and_eq_true_iff.mp hvacant).1
  constructor
  · intro id' closed hroute
    cases hroute
    exact ⟨List.mem_append_right _ List.mem_cons_self, fun hclosed => by cases hclosed⟩
  · intro id' hid'
    rw [List.mem_append, List.mem_singleton, RouteEvent.registered.injEq] at hid'
    rcases hid' with hid' | rfl
    · rcases h.registered id' hid' with ⟨closed, hroute⟩ | hover | hover
      · rw [Registry.route, hnone] at hroute
        cases hroute
      · exact .inr (.inl (List.mem_append_left _ hover))
      · exact .inr (.inr (List.mem_append_left _ hover))
    · exact .inl ⟨false, rfl⟩
  · intro gone hgone
    exact List.mem_append_left _ (h.gone gone hgone)
  · intro id' hid'
    have hbefore : .unregistered id' ∈ log := by simpa using hid'
    exact h.above id' hbefore

end Known

/-! ## Runs -/

/-- What the registry knows, and that every stream so far met what `Exact` says. -/
structure Traced (log : List RouteEvent) (r : Registry) : Prop where
  known : Known log r
  exact : Machine.Justified Exact log

namespace Traced

variable {log events : List RouteEvent} {r r' : Registry} {now : ℕ} {session id : SessionId}
  {u : Unrouted}

/-- A step that routes no stream. -/
theorem other (h : Traced log r) (hknown : Known (log ++ events) r')
    (hother : ∀ session serial fate, .routed session serial fate ∉ events) :
    Traced (log ++ events) r' := by
  refine ⟨hknown, h.exact.append fun before e he => ?_⟩
  match e with
  | .routed session serial fate => exact absurd he (hother session serial fate)
  | .arrived _ _ | .expired _ _ | .dropped _ _ | .accepted _ _ | .abandoned _ _ | .registered _
  | .unregistered _ | .hungUp _ | .ended => trivial

/-- What leaves a session's queue, or waits no longer, changes nothing that the registry knows. -/
theorem quiet (h : Traced log r) (hquiet : ∀ e ∈ events, e.ofStream = true)
    (hother : ∀ session serial fate, .routed session serial fate ∉ events) :
    Traced (log ++ events) r :=
  h.other (h.known.quiet hquiet) hother

/-- What is queued to a session leaves with its queue. -/
theorem abandon (h : Traced log r) (r' : Registry) (id : SessionId) :
    Traced (log ++ r'.abandon id) r := by
  refine h.quiet ?_ ?_
  · intro e he
    obtain ⟨u, -, rfl⟩ := List.mem_map.mp he
    rfl
  · intro session serial fate he
    obtain ⟨u, -, heq⟩ := List.mem_map.mp he
    cases heq

/-- A routed stream is logged with its fate. -/
theorem stream (h : Traced log r) :
    Traced (log ++ [.routed session u.serial (r.stream now session u).1])
      (r.stream now session u).2 := by
  refine ⟨h.known.stream.quiet ?_, h.exact.snoc h.known.meets⟩
  intro e he
  cases List.mem_singleton.mp he
  rfl

/-- The streams that waited are routed one after the other. -/
theorem reroute (waiting : List Early) (h : Traced log r) :
    Traced (log ++ (r.reroute now id waiting).1.map routedEvent)
      (r.reroute now id waiting).2 := by
  induction waiting generalizing log r with
  | nil =>
    rw [Registry.reroute, List.map_nil, List.append_nil]
    exact h
  | cons e waiting ih =>
    unfold Registry.reroute
    split
    · simp only [List.map_cons]
      rw [List.append_cons]
      exact ih h.stream
    · exact ih ⟨h.known.congr rfl rfl, h.exact⟩

end Traced

/-- **One action** keeps the log and the registry in step. -/
theorem step_traced {log events : List RouteEvent} {s t : Routing} {a : RouteAction}
    (h : Traced log s.registry) (hstep : s.step a = some (t, events)) :
    Traced (log ++ events) t.registry := by
  cases a with
  | stream now session first =>
    cases hstep
    have harrived : Traced (log ++ [.arrived session s.given]) s.registry := by
      refine h.other (h.known.quiet ?_) ?_
      · intro e he
        cases List.mem_singleton.mp he
        rfl
      · intro session' serial fate he
        cases List.mem_singleton.mp he
    -- it arrives, and is then routed by what the registry knew before
    rw [List.append_cons]
    let u : Unrouted := ⟨s.given, first⟩
    have hrouted : Traced (log ++ [.arrived session s.given] ++
        [.routed session u.serial (s.registry.stream now session u).1])
        (s.registry.stream now session u).2 := harrived.stream
    exact hrouted
  | expire now =>
    cases hstep
    refine h.other ((h.known.quiet ?_).congr rfl rfl) ?_
    · intro e he
      obtain ⟨expired, -, rfl⟩ := List.mem_map.mp he
      rfl
    · intro session serial fate he
      obtain ⟨expired, -, heq⟩ := List.mem_map.mp he
      cases heq
  | finish =>
    cases hstep
    rw [List.cons_append, List.append_cons, ← List.append_assoc]
    have hended : Traced (log ++ [.ended]) s.registry.finish.2 := by
      refine h.other h.known.finish ?_
      intro session serial fate he
      cases List.mem_singleton.mp he
    have hdropped : Traced (log ++ [.ended] ++
        s.registry.finish.1.map fun e => .dropped e.session e.stream.serial) s.registry.finish.2 := by
      refine hended.quiet ?_ ?_
      · intro e he
        obtain ⟨waiting, -, rfl⟩ := List.mem_map.mp he
        rfl
      · intro session serial fate he
        obtain ⟨waiting, -, heq⟩ := List.mem_map.mp he
        cases heq
    match hactive : s.registry.active with
    | none =>
      rw [Option.elim_none, List.append_nil]
      exact hdropped
    | some active => exact hdropped.abandon s.registry active.id
  | register now id =>
    simp only [Routing.step] at hstep
    split at hstep
    · rename_i hvacant
      cases hstep
      -- the session is registered before the streams that waited are routed
      rw [List.append_cons]
      apply Traced.reroute
      refine h.other (h.known.register hvacant) ?_
      intro session serial fate he
      cases List.mem_singleton.mp he
    · cases hstep
  | unregister id =>
    cases hstep
    rw [List.append_cons]
    have hgone : Traced (log ++ [.unregistered id]) (s.registry.unregister id) := by
      refine h.other h.known.unregister ?_
      intro session serial fate he
      cases List.mem_singleton.mp he
    exact hgone.abandon s.registry id
  | hangUp id =>
    simp only [Routing.step] at hstep
    split at hstep
    · rename_i hactive
      cases hstep
      rw [List.append_cons]
      have hgone : Traced (log ++ [.hungUp id]) (s.registry.hangUp id) := by
        refine h.other (h.known.hangUp hactive) ?_
        intro session serial fate he
        cases List.mem_singleton.mp he
      exact hgone.abandon s.registry id
    · cases hstep
  | datagram _ _ | shutDown _ _ | requestClose _ _ _ | acceptUni _ | readDatagram _ =>
    obtain ⟨haccepted, hstill, -⟩ := step_still rfl hstep
    have hknown := h.known.congr hstill.route hstill.gone
    refine h.other (hknown.quiet ?_) ?_
    · intro e he
      obtain ⟨id, serial, rfl⟩ := haccepted e he
      rfl
    · intro session serial fate he
      obtain ⟨id, serial', heq⟩ := haccepted _ he
      cases heq

/-- **Every run** keeps the log and the registry in step. -/
theorem run_traced {s : Routing} {as : List RouteAction} {log : List RouteEvent}
    (hrun : Machine.run Routing.step .new as = some (s, log)) : Traced log s.registry := by
  have hstart : Traced [] Routing.new.registry := ⟨.new, .nil⟩
  exact Machine.run_induct (fun log (s : Routing) => Traced log s.registry)
    (fun _ _ _ _ _ h hstep => step_traced h hstep) hstart hrun

/-- **Gone sessions.** In every run, a stream is refused as gone only where its session was registered
and is over, and waits or is refused as buffered where it comes before its session, if and only if it
does not name a session that was never registered, at or below one that ended. So a run does right by
every stream if and only if each of them is in order. -/
theorem gone_sessions {s : Routing} {as : List RouteAction} {log : List RouteEvent}
    (hrun : Machine.run Routing.step .new as = some (s, log)) :
    (∀ before session serial fate after,
      log = before ++ .routed session serial fate :: after →
        (Rightly before session fate ↔ InOrder before session)) ∧
    ((∀ before session serial fate after,
        log = before ++ .routed session serial fate :: after → Rightly before session fate) ↔
      ∀ before session serial fate after,
        log = before ++ .routed session serial fate :: after → InOrder before session) := by
  have hexact (before : List RouteEvent) (session : SessionId) (serial : ℕ) (fate : Fate)
      (after : List RouteEvent) (heq : log = before ++ .routed session serial fate :: after) :
      Rightly before session fate ↔ InOrder before session :=
    (run_traced hrun).exact before _ after heq
  refine ⟨hexact, ?_⟩
  constructor
  · intro h before session serial fate after heq
    exact (hexact before session serial fate after heq).mp (h before session serial fate after heq)
  · intro h before session serial fate after heq
    exact (hexact before session serial fate after heq).mpr (h before session serial fate after heq)

/-- The session at 4 starts and ends, and a later stream finds it gone. -/
theorem gone_sessions_ended :
    Rightly [.registered ⟨4, rfl, by decide⟩, .unregistered ⟨4, rfl, by decide⟩,
      .arrived ⟨4, rfl, by decide⟩ 0] ⟨4, rfl, by decide⟩ (.refused .wtSessionGone) := by
  have hrun : (Machine.run Routing.step .new [.register 0 ⟨4, rfl, by decide⟩,
      .unregister ⟨4, rfl, by decide⟩, .stream 1 ⟨4, rfl, by decide⟩ []]).isSome := rfl
  refine ((gone_sessions (Option.some_get hrun).symm).1 _ _ 0 _ [] rfl).mpr ?_
  intro hnot
  exact absurd List.mem_cons_self hnot

/-- Where the session at 4 ended before the one at 0 starts, a stream that is early for it is refused
as gone. -/
theorem gone_sessions_late : ∃ s log, Machine.run Routing.step .new [
      .register 0 ⟨4, rfl, by decide⟩, .unregister ⟨4, rfl, by decide⟩,
      .stream 1 ⟨0, rfl, by decide⟩ []] = some (s, log) ∧
    log = [.registered ⟨4, rfl, by decide⟩, .unregistered ⟨4, rfl, by decide⟩,
      .arrived ⟨0, rfl, by decide⟩ 0, .routed ⟨0, rfl, by decide⟩ 0 (.refused .wtSessionGone)] ∧
    ¬ Rightly [.registered ⟨4, rfl, by decide⟩, .unregistered ⟨4, rfl, by decide⟩,
      .arrived ⟨0, rfl, by decide⟩ 0] ⟨0, rfl, by decide⟩ (.refused .wtSessionGone) := by
  refine ⟨_, _, rfl, rfl, ?_⟩
  intro hright
  have hreg := (hright.gone rfl).1
  exact absurd hreg (by decide)

end GraphiteMeter.Http3
