import GraphiteMeter.Http3.SessionHeard

/-!
# How a session ends

Reference: `rust/http3/src/webtransport.rs` (`Connect::poll`, `close`, `poll_read`, `end`,
`Registry::shutdown`, `request_close`, `requested_close`).

The peer's CLOSE, a FIN, a failure and this side's CLOSE are the `causes` of an end. The phase
records the first of them, and what the log has of the peer is what its stream says (`heard`);
`session_end` says what holds of every run.
-/

namespace GraphiteMeter.Http3.Session

/-! ## Reading the log -/

namespace Event

/-- The ending that the event is a cause of. -/
def cause : Event → Option (Except Error SessionClose)
  | .peerClose close _ | .closeQueued close _ => some (.ok close)
  | .fin => some (.ok ⟨0, ""⟩)
  | .failed error | .lost error => some (.error error)
  | .aborted code => some (.error (abortError code))
  | .data _ | .requested _ => none

def request : Event → Option SessionClose
  | .requested close => some close
  | _ => none

def isPeerClose : Event → Bool
  | .peerClose _ _ => true
  | _ => false

/-- What a poll reads of the peer, or meets: neither a request of this side nor its CLOSE. -/
def ofPeer : Event → Bool
  | .requested _ | .closeQueued _ _ => false
  | _ => true

end Event

def causes (log : List Event) : List (Except Error SessionClose) := log.filterMap Event.cause

/-- What the application and the shutdown asked for, in order. -/
def requests (log : List Event) : List SessionClose := log.filterMap Event.request

/-- Bytes that are read behind the peer's CLOSE abort the stream at once. `closed` is whether it came
before. -/
def TrailingAborts : Bool → List Event → Prop
  | _, [] => True
  | closed, e :: events =>
    match e with
    | .peerClose _ behind =>
      (behind ≠ [] → events.head? = some (.aborted .h3MessageError)) ∧ TrailingAborts true events
    | .data bytes =>
      (closed = true → bytes ≠ [] → events.head? = some (.aborted .h3MessageError)) ∧
        TrailingAborts closed events
    | _ => TrailingAborts closed events

/-- A CLOSE is queued where the session had not ended. It is the only one, and carries what was
asked for first. -/
def CloseDue (log : List Event) : Event → Prop
  | .closeQueued close capsule =>
    causes log = [] ∧ (∀ close capsule, .closeQueued close capsule ∉ log) ∧
      (requests log).head? = some close ∧ capsule = Capsule.close close.code close.reason
  | _ => True

section Log

variable {log later : List Event}

@[simp] theorem causes_append : causes (log ++ later) = causes log ++ causes later :=
  List.filterMap_append

@[simp] theorem requests_append : requests (log ++ later) = requests log ++ requests later :=
  List.filterMap_append

/-- Aborts trail in a longer log as they do in its parts. -/
theorem TrailingAborts.append {closed : Bool} (h : TrailingAborts closed log)
    (hlater : TrailingAborts (closed || log.any Event.isPeerClose) later) :
    TrailingAborts closed (log ++ later) := by
  induction log generalizing closed with
  | nil =>
    rw [List.any_nil, Bool.or_false] at hlater
    exact hlater
  | cons e log ih =>
    -- what stood first in the part still stands first
    have hhead (h : log.head? = some (.aborted .h3MessageError)) :
        (log ++ later).head? = some (.aborted .h3MessageError) := by
      rw [List.head?_append, h]
      rfl
    rw [List.any_cons, ← Bool.or_assoc] at hlater
    match e with
    | .peerClose close behind =>
      refine ⟨fun hbehind => hhead (h.1 hbehind), ih h.2 ?_⟩
      have htrue : (closed || (Event.peerClose close behind).isPeerClose) = true := Bool.or_true _
      rw [htrue] at hlater
      exact hlater
    | .data bytes =>
      refine ⟨fun hclosed hbytes => hhead (h.1 hclosed hbytes), ih h.2 ?_⟩
      exact Bool.or_false closed ▸ hlater
    | .fin | .failed _ | .lost _ | .aborted _ | .requested _ | .closeQueued _ _ =>
      exact ih h (Bool.or_false closed ▸ hlater)

end Log

/-! ## Reading -/

namespace Connect

variable {c : Connect} {ending : Except Error SessionClose}

/-- Only the first ending counts. -/
theorem finish_ending (c : Connect) (ending : Except Error SessionClose) :
    (c.finish ending).phase.ending = c.phase.ending.or (some ending) := by
  unfold finish
  match hphase : c.phase with
  | .ended _ => rw [hphase]; rfl
  | .opening => rfl
  | .opened => rfl

/-- Two streams that differ in their phase alone. -/
structure Same (c c' : Connect) : Prop where
  id : c'.id = c.id
  input : c'.input = c.input
  deadline : c'.deadline = c.deadline
  finished : c'.peerFinished = c.peerFinished
  closed : c'.peerClosed = c.peerClosed

/-- Finishing leaves the rest of the connection. -/
theorem finish_same (c : Connect) (ending : Except Error SessionClose) : Same c (c.finish ending) := by
  unfold finish
  split <;> exact ⟨rfl, rfl, rfl, rfl, rfl⟩

/-- Opening ends nothing. -/
theorem opened_ending (c : Connect) : c.opened.phase.ending = c.phase.ending := by
  unfold opened
  match hphase : c.phase with
  | .opening => rfl
  | .opened => rw [hphase]
  | .ended _ => rw [hphase]

/-- Opening leaves the rest of the connection. -/
theorem opened_same (c : Connect) : Same c c.opened := by
  unfold opened
  split <;> exact ⟨rfl, rfl, rfl, rfl, rfl⟩

end Connect

/-- The connection after a read that may have failed. -/
def settle (error : Option Error) (c : Connect) : Connect :=
  error.elim c fun error => c.finish (.error error)

/-- What a read does. -/
structure Reads (c : Connect) (result : Option Error × Connect × List Event) : Prop where
  id : result.2.1.id = c.id
  deadline : result.2.1.deadline = c.deadline
  ending : (settle result.1 result.2.1).phase.ending =
    c.phase.ending.or (causes result.2.2).head?
  closed : result.2.1.peerClosed = (c.peerClosed || result.2.2.any Event.isPeerClose)
  trailing : TrailingAborts c.peerClosed result.2.2
  ofPeer : ∀ e ∈ result.2.2, e.ofPeer = true
  aborted : result.1 = none → ∀ code, .aborted code ∉ result.2.2

section Reads

variable {c c' : Connect}

/-- Nothing is read. -/
theorem Reads.nothing (hid : c'.id = c.id) (hdeadline : c'.deadline = c.deadline)
    (hending : c'.phase.ending = c.phase.ending) (hclosed : c'.peerClosed = c.peerClosed) :
    Reads c (none, c', []) where
  id := hid
  deadline := hdeadline
  ending := by
    show c'.phase.ending = c.phase.ending.or none
    rw [hending, Option.or_none]
  closed := hclosed.trans (Bool.or_false _).symm
  trailing := trivial
  ofPeer := fun e he => by cases he
  aborted := fun _ code he => by cases he

/-- An abort is a way to read. -/
theorem Reads.abort (hid : c'.id = c.id) (hdeadline : c'.deadline = c.deadline)
    (hending : c'.phase.ending = c.phase.ending) (hclosed : c'.peerClosed = c.peerClosed) (code : Code) :
    Reads c (c'.abort code) where
  id := hid
  deadline := hdeadline
  ending := by
    show (Connect.finish _ (.error _)).phase.ending = _
    rw [Connect.finish_ending]
    show c'.phase.ending.or _ = _
    rw [hending]
    rfl
  closed := hclosed.trans (Bool.or_false _).symm
  trailing := trivial
  ofPeer := by
    intro e he
    cases List.mem_singleton.mp he
    rfl
  aborted := fun h => by cases h

/-- A read or a write that fails. -/
theorem Reads.failed (hid : c'.id = c.id) (hdeadline : c'.deadline = c.deadline)
    (hending : c'.phase.ending = c.phase.ending) (hclosed : c'.peerClosed = c.peerClosed) (error : Error)
    {e : Event} (he : e = .failed error ∨ e = .lost error) : Reads c (some error, c', [e]) where
  id := hid
  deadline := hdeadline
  ending := by
    show (Connect.finish _ (.error _)).phase.ending = _
    rw [Connect.finish_ending, hending]
    rcases he with rfl | rfl <;> rfl
  closed := by
    rcases he with rfl | rfl <;> exact hclosed.trans (Bool.or_false _).symm
  trailing := by
    rcases he with rfl | rfl <;> trivial
  ofPeer := by
    intro e' he'
    cases List.mem_singleton.mp he'
    rcases he with rfl | rfl <;> rfl
  aborted := fun h => by cases h

/-- What follows a read that went well. -/
theorem Reads.andThen {error : Option Error} {c'' : Connect} {first later : List Event}
    (h : Reads c (none, c', first)) (hlater : Reads c' (error, c'', later)) :
    Reads c (error, c'', first ++ later) where
  id := hlater.id.trans h.id
  deadline := hlater.deadline.trans h.deadline
  ending := by
    have hending : c'.phase.ending = c.phase.ending.or (causes first).head? := h.ending
    rw [hlater.ending, hending, Option.or_assoc, causes_append, List.head?_append]
  closed := by
    rw [hlater.closed, h.closed, List.any_append, Bool.or_assoc]
  trailing := by
    have htrailing := hlater.trailing
    rw [h.closed] at htrailing
    exact h.trailing.append htrailing
  ofPeer := by
    intro e he
    rcases List.mem_append.mp he with he | he
    · exact h.ofPeer e he
    · exact hlater.ofPeer e he
  aborted := by
    intro hnone code he
    rcases List.mem_append.mp he with he | he
    · exact h.aborted rfl code he
    · exact hlater.aborted hnone code he

end Reads

/-- Bytes behind the peer's CLOSE abort the stream. -/
theorem pollRead_behind {c : Connect} (data : List Data) (hfinished : ¬ c.peerFinished = true)
    (hclosed : c.peerClosed = true) (hinput : c.input ≠ []) :
    (c.pollRead data).2.2.head? = some (.aborted .h3MessageError) := by
  rw [Connect.pollRead, if_neg hfinished, if_pos ⟨hclosed, hinput⟩]
  rfl

/-- Everything that polling the receiving half can do. -/
theorem pollRead_reads (c : Connect) (data : List Data) : Reads c (c.pollRead data) := by
  fun_induction Connect.pollRead c data with
  | case1 c data hfinished => exact Reads.nothing rfl rfl rfl rfl
  | case2 c data hfinished hbehind => exact Reads.abort rfl rfl rfl rfl _
  | case3 c data hfinished hbehind code hread => exact Reads.abort rfl rfl rfl rfl _
  | case4 c data hfinished hbehind close capsules input hread closed error c' events heq ih =>
    have hsame := Connect.finish_same closed (.ok close)
    have hclosed : (closed.finish (.ok close)).peerClosed = true := hsame.closed
    have hstill : ¬ (closed.finish (.ok close)).peerFinished = true := by
      rw [hsame.finished]
      exact hfinished
    have hbehind := @pollRead_behind (closed.finish (.ok close)) data hstill hclosed
    rw [heq] at ih hbehind
    refine ⟨ih.id.trans hsame.id, ih.deadline.trans hsame.deadline, ?_, ?_, ?_, ?_, ?_⟩
    · -- the CLOSE is the first cause, and what is read behind it comes later
      rw [ih.ending, Connect.finish_ending, Option.or_assoc]
      rfl
    · rw [ih.closed, hsame.closed]
      show (true || _) = (c.peerClosed || (true || _))
      rw [Bool.true_or, Bool.or_true]
    · have htrailing := ih.trailing
      rw [hclosed] at htrailing
      refine ⟨fun hinput => hbehind ?_, htrailing⟩
      rw [hsame.input]
      exact hinput
    · intro e he
      rcases List.mem_cons.mp he with rfl | he
      · rfl
      · exact ih.ofPeer e he
    · intro hnone code he
      rcases List.mem_cons.mp he with heq | he
      · cases heq
      · exact ih.aborted hnone code he
  | case5 c hfinished hbehind capsules input hread read =>
    exact Reads.nothing rfl rfl rfl rfl
  | case6 c hfinished hbehind capsules input hread read bytes data error c' events heq ih =>
    have hbehind := @pollRead_behind { read with input := bytes } data hfinished
    rw [heq] at ih hbehind
    refine ⟨ih.id, ih.deadline, ih.ending, ih.closed, ⟨hbehind, ih.trailing⟩, ?_, ?_⟩
    · intro e he
      rcases List.mem_cons.mp he with rfl | he
      · rfl
      · exact ih.ofPeer e he
    · intro hnone code he
      rcases List.mem_cons.mp he with heq | he
      · cases heq
      · exact ih.aborted hnone code he
  | case7 c hfinished hbehind capsules input hread read rest hboundary =>
    have hsame := Connect.finish_same { read with peerFinished := true } (.ok ⟨0, ""⟩)
    refine ⟨hsame.id, hsame.deadline, ?_, hsame.closed.trans (Bool.or_false _).symm, trivial, ?_, ?_⟩
    · show (Connect.finish _ _).phase.ending = _
      rw [Connect.finish_ending]
      rfl
    · intro e he
      cases List.mem_singleton.mp he
      rfl
    · intro _ code he
      cases List.mem_singleton.mp he
  | case8 c hfinished hbehind capsules input hread read rest hboundary =>
    exact @Reads.abort c read rfl rfl rfl rfl _
  | case9 c hfinished hbehind capsules input hread read error rest =>
    exact @Reads.failed c read rfl rfl rfl rfl error _ (.inl rfl)

/-- Everything that polling the sending half can do. -/
theorem pollWrite_reads (c : Connect) (e : Polling) : Reads c (c.pollWrite e) := by
  unfold Connect.pollWrite
  split
  · exact Reads.nothing rfl rfl rfl rfl
  · let written : Connect := { c with send := (c.send.pollReady e.writes).left }
    simp only
    match (c.send.pollReady e.writes).result with
    | .ready =>
      have hsame := Connect.opened_same written
      exact @Reads.nothing c written.opened hsame.id hsame.deadline (Connect.opened_ending written)
        hsame.closed
    | .failed => exact @Reads.failed c written rfl rfl rfl rfl e.error _ (.inr rfl)
    | .pending => exact @Reads.nothing c written rfl rfl rfl rfl

/-! ## Closing -/

/-- Who is active after one left was so before. -/
theorem active_unregister {r : Registry} {id : SessionId} {active : Active}
    (h : (r.unregister id).active = some active) : r.active = some active :=
  (Option.filter_eq_some_iff.mp h).1

/-- What the close does: at most it queues the CLOSE that was asked for, where the session had not
ended. -/
structure Closes (c : Connect) (r : Registry) (result : Bool × Connect × Registry × List Event) :
    Prop where
  closed : result.2.1.peerClosed = c.peerClosed
  id : result.2.1.id = c.id
  ending : result.2.1.phase.ending = c.phase.ending.or (causes result.2.2.2).head?
  events : result.2.2.2 = [] ∨ ∃ close,
    result.2.2.2 = [.closeQueued close (Capsule.close close.code close.reason)] ∧
      c.phase.ending = none ∧ r.requestedClose c.id = some close
  active : ∀ active, result.2.2.1.active = some active → r.active = some active

/-- Nothing happens. -/
theorem Closes.nothing {c c' : Connect} {r r' : Registry} (done : Bool)
    (hclosed : c'.peerClosed = c.peerClosed) (hid : c'.id = c.id) (hphase : c'.phase = c.phase)
    (hactive : ∀ active, r'.active = some active → r.active = some active) :
    Closes c r (done, c', r', []) where
  closed := hclosed
  id := hid
  ending := by
    show c'.phase.ending = c.phase.ending.or none
    rw [hphase, Option.or_none]
  events := .inl rfl
  active := hactive

/-- The CLOSE that was asked for is queued. -/
theorem Closes.queued {c : Connect} {r : Registry} {close : SessionClose} (now : ℕ) (done : Bool)
    (hending : c.phase.ending = none) (hclose : r.requestedClose c.id = some close) :
    let capsule := Capsule.close close.code close.reason
    let c' : Connect := { c with send := c.send.queueAfter .data capsule }
    Closes c r (done,
      { c'.finish (.ok close) with closedHere := true, deadline := some (now + closeWait) },
      r.unregister c.id, [.closeQueued close capsule]) := by
  intro capsule c'
  have hsame := Connect.finish_same c' (.ok close)
  refine ⟨hsame.closed, hsame.id, ?_, .inr ⟨close, rfl, hending, hclose⟩, fun _ => active_unregister⟩
  show (c'.finish (.ok close)).phase.ending = _
  rw [Connect.finish_ending]
  rfl

/-- Where the close starts. -/
theorem close_closes {c c' : Connect} {r r' : Registry} {now deadline : ℕ} {events : List Event}
    (h : c.close r now = some (deadline, c', r', events)) (done : Bool) :
    Closes c r (done, c', r', events) := by
  obtain ⟨id, send, capsules, input, phase, deadline', peerFinished, peerClosed, closedHere⟩ := c
  unfold Connect.close at h
  match phase with
  | .ended ending =>
    cases h
    exact Closes.nothing done rfl rfl rfl fun _ => active_unregister
  | .opening =>
    obtain ⟨close, hclose, heq⟩ := Option.map_eq_some_iff.mp h
    cases heq
    exact Closes.queued now done rfl hclose
  | .opened =>
    obtain ⟨close, hclose, heq⟩ := Option.map_eq_some_iff.mp h
    cases heq
    exact Closes.queued now done rfl hclose

/-- What ends the stream changes only its sending half, and gives up the registration. -/
theorem Closes.ends {c c' : Connect} {r r' : Registry} {events : List Event}
    (h : Closes c r (false, c', r', events)) (done : Bool) (send : SendHalf) {r'' : Registry}
    (hactive : ∀ active, r''.active = some active → r'.active = some active) :
    Closes c r (done, { c' with send }, r'', events) where
  closed := h.closed
  id := h.id
  ending := h.ending
  events := h.events
  active := fun active h' => h.active active (hactive active h')

/-- Everything that polling a close can do. -/
theorem pollClose_closes (c : Connect) (r : Registry) (e : Polling) :
    Closes c r (c.pollClose r e) := by
  have hends {deadline : ℕ} {c' : Connect} {r' : Registry} {events : List Event}
      (hcloses : Closes c r (false, c', r', events)) :
      let polled := c'.send.pollFinish e.lastWrites e.finishes
      let finished := polled.1 != .pending
      let send := polled.2.2
      Closes c r
        (if ¬ (finished ∧ c'.peerFinished) ∧ e.now < deadline then (false, { c' with send }, r', events)
        else
          (true, { c' with send := (send.reset .wtSessionGone).2 }, r'.unregister c'.id, events)) := by
    simp only
    split
    · exact hcloses.ends _ _ fun _ => id
    · exact hcloses.ends _ _ fun _ => active_unregister
  unfold Connect.pollClose
  cases hdeadline : c.deadline with
  | some deadline => exact hends (Closes.nothing _ rfl rfl rfl fun _ => id)
  | none =>
    simp only
    rcases hclose : c.close r e.now with _ | ⟨deadline, c', r', events⟩
    · exact Closes.nothing _ rfl rfl rfl fun _ => id
    · exact hends (close_closes hclose false)

/-! ## A poll -/

/-- What a poll does: it reads and writes, and may then queue the CLOSE. -/
structure Polls (c : Connect) (r : Registry) (result : Bool × Connect × Registry × List Event) :
    Prop where
  id : result.2.1.id = c.id
  ending : result.2.1.phase.ending = c.phase.ending.or (causes result.2.2.2).head?
  closed : result.2.1.peerClosed = (c.peerClosed || result.2.2.2.any Event.isPeerClose)
  trailing : TrailingAborts c.peerClosed result.2.2.2
  events : ∃ read closing, result.2.2.2 = read ++ closing ∧ (∀ e ∈ read, e.ofPeer = true) ∧
    (closing = [] ∨ ∃ close,
      closing = [.closeQueued close (Capsule.close close.code close.reason)] ∧
        c.phase.ending.or (causes read).head? = none ∧ r.requestedClose c.id = some close)
  aborted : result.1 = false → ∀ code, .aborted code ∉ result.2.2.2
  active : ∀ active, result.2.2.1.active = some active → r.active = some active

/-- A read that fails ends the session. -/
theorem Reads.fails {c c' : Connect} {r : Registry} {error : Error} {events : List Event}
    (h : Reads c (some error, c', events)) :
    Polls c r (true, c'.finish (.error error), r.unregister c'.id, events) where
  id := (Connect.finish_same c' _).id.trans h.id
  ending := h.ending
  closed := (Connect.finish_same c' _).closed.trans h.closed
  trailing := h.trailing
  events := ⟨events, [], (List.append_nil _).symm, h.ofPeer, .inl rfl⟩
  aborted := fun hdone => by cases hdone
  active := fun _ => active_unregister

/-- After a read that went well, the close goes on. -/
theorem Reads.closes {c c' : Connect} {r : Registry} {events : List Event}
    {result : Bool × Connect × Registry × List Event} (h : Reads c (none, c', events))
    (hcloses : Closes c' r result) :
    Polls c r (result.1, result.2.1, result.2.2.1, events ++ result.2.2.2) := by
  have hending : c'.phase.ending = c.phase.ending.or (causes events).head? := h.ending
  have hid : c'.id = c.id := h.id
  -- the close tells nothing of the peer
  have hquiet : ∀ e ∈ result.2.2.2, e.isPeerClose = false ∧ ∀ code, e ≠ .aborted code := by
    intro e he
    rcases hcloses.events with hnil | ⟨close, hqueued, -⟩
    · rw [hnil] at he
      cases he
    · rw [hqueued] at he
      cases List.mem_singleton.mp he
      exact ⟨rfl, fun code => Event.noConfusion⟩
  constructor
  · exact hcloses.id.trans hid
  · rw [hcloses.ending, hending, Option.or_assoc, causes_append, List.head?_append]
  · rw [hcloses.closed, List.any_append]
    have hnone : result.2.2.2.any Event.isPeerClose = false := by
      rw [List.any_eq_false]
      intro e he htrue
      rw [(hquiet e he).1] at htrue
      cases htrue
    rw [hnone, Bool.or_false]
    exact h.closed
  · apply h.trailing.append
    rcases hcloses.events with hnil | ⟨close, hqueued, -⟩
    · rw [hnil]
      trivial
    · rw [hqueued]
      trivial
  · refine ⟨events, result.2.2.2, rfl, h.ofPeer, ?_⟩
    rw [← hending, ← hid]
    exact hcloses.events
  · intro _ code he
    rcases List.mem_append.mp he with he | he
    · exact h.aborted rfl code he
    · exact (hquiet _ he).2 code rfl
  · exact hcloses.active

/-- Everything that one poll can do. -/
theorem poll_polls (c : Connect) (r : Registry) (e : Polling) : Polls c r (c.poll r e) := by
  have hread := pollRead_reads c e.data
  unfold Connect.poll
  generalize c.pollRead e.data = result at hread ⊢
  obtain ⟨_ | error, c', events⟩ := result
  · have hwrite := pollWrite_reads c' e
    simp only
    generalize c'.pollWrite e = result at hwrite ⊢
    obtain ⟨_ | error, c'', written⟩ := result
    · exact (hread.andThen hwrite).closes (pollClose_closes c'' r e)
    · exact (hread.andThen hwrite).fails
  · simp only [List.append_nil]
    exact hread.fails

/-! ## The registry -/

/-- Routing changes neither whose session is active nor what was asked of it. -/
theorem stream_close {r : Registry} {now : ℕ} {session : SessionId} {u : Unrouted} {active : Active}
    (h : (r.stream now session u).2.active = some active) :
    ∃ before, r.active = some before ∧ active.id = before.id ∧ active.close = before.close := by
  have hrouted := Registry.stream_routed r now session u
  generalize r.stream now session u = result at hrouted h
  cases hrouted with
  | @queued before streams hactive hid hsend =>
    cases h
    exact ⟨before, hactive, rfl, rfl⟩
  | full | hungUp | gone | held | crowded => exact ⟨active, h, rfl, rfl⟩

/-- Routing the waiting streams requests no close. -/
theorem reroute_close {r : Registry} {now : ℕ} {id : SessionId} (waiting : List Early)
    {active : Active} (h : (r.reroute now id waiting).2.active = some active) :
    ∃ before, r.active = some before ∧ active.id = before.id ∧ active.close = before.close := by
  induction waiting generalizing r with
  | nil => exact ⟨active, h, rfl, rfl⟩
  | cons e waiting ih =>
    unfold Registry.reroute at h
    split at h
    · obtain ⟨between, hbetween, hid, hclose⟩ := ih h
      obtain ⟨before, hbefore, hid', hclose'⟩ := stream_close hbetween
      exact ⟨before, hbefore, hid.trans hid', hclose.trans hclose'⟩
    · obtain ⟨before, hbefore, hsame⟩ := ih h
      exact ⟨before, hbefore, hsame⟩

/-- A session starts with the close of the shutdown, if there was one. -/
theorem register_close {r : Registry} {now : ℕ} {id : SessionId} {active : Active}
    (h : (r.register now id).2.active = some active) :
    active.id = id ∧ active.close = r.shutdown := by
  obtain ⟨before, hbefore, hid, hclose⟩ := reroute_close r.early h
  cases hbefore
  exact ⟨hid, hclose⟩

/-- A close is requested of the active session. -/
theorem requestedClose_eq_some {r : Registry} {id : SessionId} {close : SessionClose}
    (h : r.requestedClose id = some close) :
    ∃ active, r.active = some active ∧ active.id = id ∧ active.close = some close := by
  unfold Registry.requestedClose at h
  obtain ⟨active, hactive, hclose⟩ := Option.bind_eq_some_iff.mp h
  obtain ⟨hactive, hid⟩ := Option.filter_eq_some_iff.mp hactive
  exact ⟨active, hactive, of_decide_eq_true hid, hclose⟩

/-! ## Runs -/

/-- A session and its connection against what happened so far. -/
structure Settled (log : List Event) (s : Ending) : Prop where
  phase : ∀ c, s.connect = some c → c.phase.ending = (causes log).head?
  closed : ∀ c, s.connect = some c → c.peerClosed = log.any Event.isPeerClose
  active : ∀ c active, s.connect = some c → s.registry.active = some active →
    active.id = c.id ∧ active.close = (requests log).head?
  unregistered : s.connect = none →
    s.registry.active = none ∧ s.registry.shutdown = (requests log).head? ∧
      (s.drain = false → requests log = []) ∧ causes log = [] ∧
      log.any Event.isPeerClose = false
  due : Machine.Justified CloseDue log
  trailing : TrailingAborts false log
  aborted : ∀ code, .aborted code ∈ log → s.done = true

section Settled

variable {log events : List Event} {s t : Ending}

/-- A CLOSE that is queued is a cause. -/
theorem causes_ne_nil {close : SessionClose} {capsule : Bytes} (h : .closeQueued close capsule ∈ log) :
    causes log ≠ [] := by
  intro hnil
  have hmem : Except.ok close ∈ causes log := List.mem_filterMap.mpr ⟨_, h, rfl⟩
  rw [hnil] at hmem
  cases hmem

/-- What the peer does requests nothing. -/
theorem requests_ofPeer (h : ∀ e ∈ events, e.ofPeer = true) : requests events = [] := by
  apply List.filterMap_eq_nil_iff.mpr
  intro e he
  match e with
  | .requested close => exact absurd (h _ he) Bool.false_ne_true
  | .data _ | .peerClose _ _ | .fin | .failed _ | .lost _ | .aborted _ | .closeQueued _ _ => rfl

/-- Nor does it close by itself. -/
theorem due_ofPeer {before : List Event} {e : Event} (h : e.ofPeer = true) : CloseDue before e := by
  match e with
  | .closeQueued close capsule => cases h
  | .data _ | .peerClose _ _ | .fin | .failed _ | .lost _ | .aborted _ | .requested _ => trivial

/-- **One poll** keeps what the log settles. -/
theorem Settled.poll (h : Settled log s) {c : Connect} (hconnect : s.connect = some c)
    (hdone : s.done = false) (e : Polling) :
    Settled (log ++ (c.poll s.registry e).2.2.2) { s with
      registry := (c.poll s.registry e).2.2.1
      connect := some (c.poll s.registry e).2.1
      done := (c.poll s.registry e).1 } := by
  have hpoll := poll_polls c s.registry e
  generalize c.poll s.registry e = result at hpoll ⊢
  obtain ⟨done, c', registry, events⟩ := result
  -- what is read comes before the CLOSE, so a cause that was read is ahead of it
  obtain ⟨read, closing, hevents, hread, hclosing⟩ := hpoll.events
  simp only at hevents
  have hphase := h.phase c hconnect
  have hrequests : requests events = [] := by
    rw [hevents, requests_append, requests_ofPeer hread]
    rcases hclosing with rfl | ⟨close, rfl, -⟩ <;> rfl
  constructor
  · intro c'' hc''
    cases hc''
    rw [hpoll.ending, hphase, causes_append, List.head?_append]
  · intro c'' hc''
    cases hc''
    rw [hpoll.closed, h.closed c hconnect, List.any_append]
  · intro c'' active hc'' hactive
    cases hc''
    obtain ⟨hid, hclose⟩ := h.active c active hconnect (hpoll.active active hactive)
    rw [requests_append, hrequests, List.append_nil]
    exact ⟨hid.trans hpoll.id.symm, hclose⟩
  · intro hnone
    cases hnone
  · rw [hevents, ← List.append_assoc]
    have hpeer : Machine.Justified CloseDue (log ++ read) :=
      h.due.append fun before e he => due_ofPeer (hread e he)
    rcases hclosing with rfl | ⟨close, rfl, hnone, hclose⟩
    · rw [List.append_nil]
      exact hpeer
    · -- the CLOSE is queued where nothing has ended the session
      have hcauses : causes (log ++ read) = [] := by
        rw [← List.head?_eq_none_iff, causes_append, List.head?_append, ← hphase]
        exact hnone
      obtain ⟨active, hactive, -, hasked⟩ := requestedClose_eq_some hclose
      refine hpeer.snoc ⟨hcauses, fun close capsule hin => causes_ne_nil hin hcauses, ?_, rfl⟩
      rw [requests_append, requests_ofPeer hread, List.append_nil,
        ← (h.active c active hconnect hactive).2]
      exact hasked
  · apply h.trailing.append
    rw [Bool.false_or, ← h.closed c hconnect]
    exact hpoll.trailing
  · intro code he
    rcases List.mem_append.mp he with he | he
    · rw [h.aborted code he] at hdone
      cases hdone
    · match done with
      | true => rfl
      | false => exact absurd he (hpoll.aborted rfl code)

/-- Requests abort nothing. -/
theorem trailing_requests (h : ∀ e ∈ events, ∃ close, e = .requested close) {closed : Bool} :
    TrailingAborts closed events := by
  induction events with
  | nil => trivial
  | cons e events ih =>
    obtain ⟨close, rfl⟩ := h e List.mem_cons_self
    exact ih fun e he => h e (List.mem_cons_of_mem _ he)

/-- This side asks, or nothing is logged. -/
theorem Settled.asks (h : Settled log s) {registry : Registry} {drain : Bool}
    (hevents : ∀ e ∈ events, ∃ close, e = .requested close)
    (hactive : ∀ active, registry.active = some active → ∃ before,
      s.registry.active = some before ∧ active.id = before.id ∧
        active.close = before.close.or (requests events).head?)
    (hunregistered : s.connect = none → registry.shutdown =
      (requests log).head?.or (requests events).head? ∧
        (drain = false → requests log = [] ∧ requests events = [])) :
    Settled (log ++ events) { s with registry, drain } := by
  have hcauses : causes events = [] := by
    apply List.filterMap_eq_nil_iff.mpr
    intro e he
    obtain ⟨close, rfl⟩ := hevents e he
    rfl
  have hpeer : events.any Event.isPeerClose = false := by
    rw [List.any_eq_false]
    intro e he
    obtain ⟨close, rfl⟩ := hevents e he
    exact Bool.false_ne_true
  constructor
  · intro c hc
    rw [causes_append, hcauses, List.append_nil]
    exact h.phase c hc
  · intro c hc
    rw [List.any_append, hpeer, Bool.or_false]
    exact h.closed c hc
  · intro c active hc hactive'
    obtain ⟨before, hbefore, hid, hclose⟩ := hactive active hactive'
    obtain ⟨hid', hclose'⟩ := h.active c before hc hbefore
    rw [requests_append, List.head?_append, ← hclose']
    exact ⟨hid.trans hid', hclose⟩
  · intro hnone
    obtain ⟨hno, -, -, hnil, hfalse⟩ := h.unregistered hnone
    obtain ⟨hshutdown, hdrain⟩ := hunregistered hnone
    refine ⟨?_, ?_, ?_, ?_, ?_⟩
    · show registry.active = none
      match hmatch : registry.active with
      | none => rfl
      | some active =>
        obtain ⟨before, hbefore, -⟩ := hactive active hmatch
        rw [hno] at hbefore
        cases hbefore
    · rw [requests_append, List.head?_append]
      exact hshutdown
    · intro hfalse
      obtain ⟨hlog, hnew⟩ := hdrain hfalse
      rw [requests_append, hlog, hnew]
      rfl
    · rw [causes_append, hnil, hcauses]
      rfl
    · rw [List.any_append, hfalse, hpeer]
      rfl
  · apply h.due.append
    intro before e he
    obtain ⟨close, rfl⟩ := hevents e he
    trivial
  · exact h.trailing.append (trailing_requests hevents)
  · intro code he
    rcases List.mem_append.mp he with he | he
    · exact h.aborted code he
    · obtain ⟨close, heq⟩ := hevents _ he
      cases heq

/-- Registering a session keeps what the log settles. -/
theorem Settled.register (h : Settled log s) (hnone : s.connect = none) (now : ℕ) (id : SessionId)
    (send : SendHalf) (opened : Bool) :
    Settled log { s with
      registry := (s.registry.register now id).2
      connect := some (.new id send (if opened then .opened else .opening)) } := by
  obtain ⟨-, hshutdown, -, hcauses, hpeer⟩ := h.unregistered hnone
  constructor
  · intro c hc
    cases hc
    rw [hcauses]
    cases opened <;> rfl
  · intro c hc
    cases hc
    exact hpeer.symm
  · intro c active hc hactive
    cases hc
    obtain ⟨hid, hclose⟩ := register_close hactive
    exact ⟨hid, hclose.trans hshutdown⟩
  · intro hno
    cases hno
  · exact h.due
  · exact h.trailing
  · exact h.aborted

/-- The connection ends. -/
theorem Settled.finish (h : Settled log s) {c : Connect} (hconnect : s.connect = some c)
    (error : Error) :
    Settled (log ++ [.lost error]) { s with
      registry := s.registry.finish.2
      connect := some (c.finish (.error error))
      done := true } := by
  constructor
  · intro c' hc'
    cases hc'
    rw [Connect.finish_ending, h.phase c hconnect, causes_append, List.head?_append]
    rfl
  · intro c' hc'
    cases hc'
    rw [(Connect.finish_same c _).closed, h.closed c hconnect, List.any_append]
    exact (Bool.or_false _).symm
  · intro c' active hc' hactive
    cases hactive
  · intro hno
    cases hno
  · exact h.due.snoc trivial
  · apply h.trailing.append
    trivial
  · intro code he
    rfl

end Settled

/-- What the receiving half gives in an action. -/
def Action.told : Action → List Data
  | .poll e => e.data
  | .shutDown _ _ | .register _ _ _ _ | .requestClose _ _ _ | .finish _ => []

/-- All that the receiving half gave, in order. -/
def told (as : List Action) : List Data := as.flatMap Action.told

/-- A session has heard all that the peer said so far, and its stream goes on with what follows. -/
structure Attends (as : List Action) (log : List Event) (s : Ending) : Prop where
  heard : heardIn log = heard (told as)
  before : s.connect = none → told as = []
  finished : ∀ c, s.connect = some c → s.done = false → c.peerFinished = true → stop (told as) ≠ none
  listens : ∀ c, s.connect = some c → s.done = false → c.peerFinished = false →
    stop (told as) = none ∧ c.input = [] ∧ Listens (spoken (told as)) c

/-- An action that gives no DATA and hears nothing. -/
theorem Attends.quiet {as : List Action} {log events : List Event} {s t : Ending} {a : Action}
    (h : Attends as log s) (htold : a.told = []) (hevents : heardIn events = [])
    (hbefore : t.connect = none → s.connect = none)
    (hconnect : ∀ c, t.connect = some c → t.done = false → s.connect = some c ∧ s.done = false) :
    Attends (as ++ [a]) (log ++ events) t := by
  have hall : told (as ++ [a]) = told as := by
    rw [told, told, List.flatMap_append, List.flatMap_singleton, htold, List.append_nil]
  constructor
  · rw [heardIn_append, hevents, List.append_nil, hall]
    exact h.heard
  · intro hnone
    rw [hall]
    exact h.before (hbefore hnone)
  · intro c hc hdone
    rw [hall]
    exact h.finished c (hconnect c hc hdone).1 (hconnect c hc hdone).2
  · intro c hc hdone
    rw [hall]
    exact h.listens c (hconnect c hc hdone).1 (hconnect c hc hdone).2

/-- A poll hears what its DATA adds to what the peer said. -/
theorem Attends.poll {as : List Action} {log : List Event} {s : Ending} (h : Attends as log s)
    {c : Connect} (hconnect : s.connect = some c) (hdone : s.done = false) (e : Polling) :
    Attends (as ++ [.poll e]) (log ++ (c.poll s.registry e).2.2.2) { s with
      registry := (c.poll s.registry e).2.2.1
      connect := some (c.poll s.registry e).2.1
      done := (c.poll s.registry e).1 } := by
  have hall : told (as ++ [.poll e]) = told as ++ e.data := by
    rw [told, told, List.flatMap_append, List.flatMap_singleton]
    rfl
  match hfin : c.peerFinished with
  | true =>
    -- the FIN came, and what is given behind it is not read
    obtain ⟨hquiet, hstill⟩ := poll_finished hfin s.registry e
    have hstop := h.finished c hconnect hdone hfin
    constructor
    · rw [heardIn_append, hquiet, List.append_nil, hall, heard_append, if_neg hstop]
      exact h.heard
    · intro hnone
      cases hnone
    · intro c' hc' _ _
      rw [hall]
      exact stop_append_ne_none hstop e.data
    · intro c' hc' _ hfalse
      cases hc'
      rw [hstill] at hfalse
      cases hfalse
  | false =>
    obtain ⟨hstop, hinput, hlistens⟩ := h.listens c hconnect hdone hfin
    obtain ⟨hheard, hgoes⟩ := poll_hears hlistens hfin hinput s.registry e
    have hbefore : Session.heard (told as) = hear (spoken (told as)) none := by
      rw [Session.heard, hstop]
    constructor
    · rw [heardIn_append, h.heard, hbefore, hall, heard_append, if_pos hstop]
      exact hheard
    · intro hnone
      cases hnone
    · intro c' hc' hdone' htrue
      cases hc'
      rw [hall, stop_append hstop]
      exact (hgoes hdone').1 htrue
    · intro c' hc' hdone' hfalse
      cases hc'
      rw [hall, stop_append hstop, spoken_append hstop]
      exact (hgoes hdone').2 hfalse

end GraphiteMeter.Http3.Session
