import GraphiteMeter.Http3.Encode
import GraphiteMeter.Lib.Machine

/-!
# The sending half of a request stream

Reference: `rust/http3/src/stream.rs` (`SendHalf`, `poll_write_header`) and `rust/http3/src/frame.rs`
(`Header`).

A frame is its header and its payload, written in as many parts as the transport takes. What was queued
is at any time what the transport accepted, and then what is `pending`. The transport keeps an unwritten
suffix in place.
-/

namespace GraphiteMeter.Http3

def Code.h3RequestCancelled : Code := ⟨0x10c⟩

/-- What the transport makes of one write: it takes up to `count` bytes, waits (having taken up to
`count` bytes of a chunk it was leased), or fails. -/
inductive Write where
  | took (count : ℕ)
  | blocked (count : ℕ)
  | failed
deriving DecidableEq, Repr

inductive Poll where
  | pending
  | ready
  | failed
deriving DecidableEq, Repr

/-- What a poll comes to, the bytes the transport accepted, what is left to write, and the writes that
were not made. -/
structure Polled (α : Type) where
  result : Poll
  accepted : Bytes
  left : α
  writes : List Write
deriving DecidableEq, Repr

/-- The poll wrote a first part of what there was, and all of it where it is ready. -/
structure Polled.Writes {α : Type} (content : α → Bytes) (before : α) (p : Polled α) : Prop where
  accepted : p.accepted ++ content p.left = content before
  ready : p.result = .ready → content p.left = []

/-! ## Headers -/

/-- Two varints, such as a frame header, written in as many parts as it takes. -/
structure Header where
  bytes : Bytes
  written : ℕ
  within : written ≤ bytes.length
deriving DecidableEq, Repr

namespace Header

def empty : Header := ⟨[], 0, nothing_within⟩

/-- Lays out `kind`, then a frame's length. -/
def new (kind : FrameType) (second : ℕ) : Header := ⟨putHeader kind second, 0, Nat.zero_le _⟩

def rest (h : Header) : Bytes := h.bytes.drop h.written

def advance (h : Header) (written : ℕ) : Header where
  bytes := h.bytes
  written := h.written + (h.rest.take written).length
  within := by
    have hwithin := h.within
    rw [List.length_take, rest, List.length_drop]
    omega

def isWritten (h : Header) : Bool := h.written == h.bytes.length

/-- A header is written once nothing of it is left. -/
theorem isWritten_iff {h : Header} : h.isWritten = true ↔ h.rest = [] := by
  unfold isWritten rest
  rw [beq_iff_eq, List.drop_eq_nil_iff]
  have hwithin := h.within
  omega

/-- What a write takes of a header and what it leaves make the header. -/
theorem take_advance (h : Header) (count : ℕ) :
    h.rest.take count ++ (h.advance count).rest = h.rest := by
  unfold advance rest
  dsimp only
  rw [← List.drop_drop, List.length_take, List.take_eq_take_min, List.take_append_drop]

end Header

/-- `poll_write_header`. Where no further write is given, the transport waits. -/
def pollWriteHeader (header : Header) : List Write → Polled Header
  | [] => ⟨if header.isWritten then .ready else .pending, [], header, []⟩
  | write :: writes =>
    if header.isWritten then ⟨.ready, [], header, write :: writes⟩
    else
      match write with
      | .took count =>
        let polled := pollWriteHeader (header.advance count) writes
        { polled with accepted := header.rest.take count ++ polled.accepted }
      | .blocked _ => ⟨.pending, [], header, writes⟩
      | .failed => ⟨.failed, [], header, writes⟩

/-- Polling a header writes a prefix of it and keeps the rest. -/
theorem pollWriteHeader_writes (header : Header) (writes : List Write) :
    (pollWriteHeader header writes).Writes Header.rest header := by
  induction writes generalizing header with
  | nil =>
    refine ⟨rfl, fun hready => ?_⟩
    have hwritten : header.isWritten = true := by
      by_contra hnot
      unfold pollWriteHeader at hready
      rw [if_neg hnot] at hready
      cases hready
    exact Header.isWritten_iff.mp hwritten
  | cons write writes ih =>
    unfold pollWriteHeader
    split
    · rename_i hwritten
      exact ⟨rfl, fun _ => Header.isWritten_iff.mp hwritten⟩
    · match write with
      | .took count =>
        refine ⟨?_, (ih (header.advance count)).ready⟩
        show _ ++ _ ++ _ = _
        rw [List.append_assoc, (ih (header.advance count)).accepted, Header.take_advance]
      | .blocked count => exact ⟨rfl, fun hready => by cases hready⟩
      | .failed => exact ⟨rfl, fun hready => by cases hready⟩

/-- The payload's writes: the transport is leased the payload as a chunk, and keeps the suffix it did
not write in its place. -/
def pollWritePayload (payload : Bytes) : List Write → Polled Bytes
  | [] => ⟨if payload.isEmpty then .ready else .pending, [], payload, []⟩
  | write :: writes =>
    if payload.isEmpty then ⟨.ready, [], payload, write :: writes⟩
    else
      match write with
      | .took count =>
        let polled := pollWritePayload (payload.drop count) writes
        { polled with accepted := payload.take count ++ polled.accepted }
      -- what the chunk gave before the transport waits is accepted
      | .blocked count => ⟨.pending, payload.take count, payload.drop count, writes⟩
      | .failed => ⟨.failed, [], payload, writes⟩

/-- Polling a payload writes a prefix of it and keeps the rest. -/
theorem pollWritePayload_writes (payload : Bytes) (writes : List Write) :
    (pollWritePayload payload writes).Writes id payload := by
  induction writes generalizing payload with
  | nil =>
    refine ⟨rfl, fun hready => ?_⟩
    have hempty : payload.isEmpty = true := by
      by_contra hnot
      unfold pollWritePayload at hready
      rw [if_neg hnot] at hready
      cases hready
    exact List.isEmpty_iff.mp hempty
  | cons write writes ih =>
    unfold pollWritePayload
    split
    · rename_i hempty
      exact ⟨rfl, fun _ => List.isEmpty_iff.mp hempty⟩
    · match write with
      | .took count =>
        refine ⟨?_, (ih (payload.drop count)).ready⟩
        show _ ++ _ ++ _ = _
        rw [List.append_assoc, (ih (payload.drop count)).accepted]
        exact List.take_append_drop count payload
      | .blocked count =>
        exact ⟨List.take_append_drop count payload, fun hready => by cases hready⟩
      | .failed => exact ⟨rfl, fun hready => by cases hready⟩

/-! ## The sending half -/

inductive End where
  | open
  | finished
  | cut
deriving DecidableEq, Repr

/-- Writes frames. A partly written frame stays owned here. -/
structure SendHalf where
  header : Header
  payload : Bytes
  end_ : End
deriving DecidableEq, Repr

namespace SendHalf

def new : SendHalf := ⟨.empty, [], .open⟩

/-- What is still to be written. -/
def pending (s : SendHalf) : Bytes := s.header.rest ++ s.payload

def pollReady (s : SendHalf) (writes : List Write) : Polled SendHalf :=
  let header := pollWriteHeader s.header writes
  match header.result with
  | .ready =>
    let payload := pollWritePayload s.payload header.writes
    { payload with
      accepted := header.accepted ++ payload.accepted
      left := { s with header := header.left, payload := payload.left } }
  | _ => { header with left := { s with header := header.left } }

/-- The header and the payload are written. -/
def isReady (s : SendHalf) : Bool := s.header.isWritten && s.payload.isEmpty

/-- Queues a frame; the previous one must be written. -/
def queue (s : SendHalf) (kind : FrameType) (payload : Bytes) : SendHalf :=
  { s with header := .new kind payload.length, payload }

/-- Queues a frame after the pending one, which may be partly written. -/
def queueAfter (s : SendHalf) (kind : FrameType) (payload : Bytes) : SendHalf :=
  { s with payload := s.payload ++ putHeader kind payload.length ++ payload }

/-- A half is ready once nothing waits. -/
theorem isReady_iff {s : SendHalf} : s.isReady = true ↔ s.pending = [] := by
  unfold isReady pending
  rw [Bool.and_eq_true_iff, Header.isWritten_iff, List.isEmpty_iff, List.append_eq_nil_iff]

/-- **A poll writes a first part of what is pending**, and all of it where it is ready. -/
theorem pollReady_writes (s : SendHalf) (writes : List Write) :
    (s.pollReady writes).Writes pending s := by
  have hheader := pollWriteHeader_writes s.header writes
  unfold pollReady
  generalize pollWriteHeader s.header writes = header at hheader ⊢
  obtain ⟨result, accepted, left, writes⟩ := header
  have hkept : accepted ++ (left.rest ++ s.payload) = s.pending := by
    rw [← List.append_assoc, hheader.accepted]
    rfl
  cases result with
  | ready =>
    -- the header is written, and the payload follows
    have hpayload := pollWritePayload_writes s.payload writes
    have hwritten : left.rest = [] := hheader.ready rfl
    constructor
    · show accepted ++ _ ++ (left.rest ++ _) = _
      rw [← hkept, hwritten, List.nil_append, List.nil_append, List.append_assoc]
      exact congrArg _ hpayload.accepted
    · intro hready
      show left.rest ++ _ = []
      rw [hwritten, List.nil_append]
      exact hpayload.ready hready
  | pending => exact ⟨hkept, fun hready => by cases hready⟩
  | failed => exact ⟨hkept, fun hready => by cases hready⟩

/-- Polling for readiness leaves the end as it was. -/
theorem pollReady_end (s : SendHalf) (writes : List Write) :
    (s.pollReady writes).left.end_ = s.end_ := by
  unfold pollReady
  generalize pollWriteHeader s.header writes = header
  obtain ⟨result, accepted, left, writes⟩ := header
  cases result <;> rfl

/-- Queueing on a ready half makes the whole frame wait. -/
theorem queue_pending {s : SendHalf} (hready : s.isReady = true) (kind : FrameType)
    (payload : Bytes) :
    (s.queue kind payload).pending = s.pending ++ (putHeader kind payload.length ++ payload) := by
  rw [isReady_iff.mp hready]
  rfl

/-- Queueing behind another frame makes the whole frame wait after it. -/
theorem queueAfter_pending (s : SendHalf) (kind : FrameType) (payload : Bytes) :
    (s.queueAfter kind payload).pending =
      s.pending ++ (putHeader kind payload.length ++ payload) := by
  unfold queueAfter pending
  simp only [List.append_assoc]

end SendHalf

/-! ## Runs -/

/-- What is queued, and what happens to the transport's stream. -/
inductive SendEvent where
  | queued (frame : Bytes)
  | accepted (bytes : Bytes)
  /-- A write failed. -/
  | failed
  /-- The transport is told to finish, and does so or not. -/
  | finished (done : Bool)
  | reset (code : Code)
  | dropped
deriving DecidableEq, Repr

/-- What a poll does to the transport's stream. -/
def Polled.events {α : Type} (p : Polled α) : List SendEvent :=
  .accepted p.accepted :: if p.result = .failed then [.failed] else []

namespace SendHalf

/-- Ends the stream once pending frames are written; a stream cut short stays an error. -/
def pollFinish (s : SendHalf) (writes : List Write) (done : Bool) :
    Poll × List SendEvent × SendHalf :=
  match s.end_ with
  | .finished => (.ready, [], s)
  | .cut => (.failed, [], s)
  | .open =>
    let polled := s.pollReady writes
    match polled.result with
    | .pending => (.pending, polled.events, polled.left)
    | .failed => (.failed, polled.events, { polled.left with end_ := .cut })
    | .ready =>
      (if done then .ready else .failed, polled.events ++ [.finished done],
        { polled.left with end_ := if done then .finished else .cut })

def reset (s : SendHalf) (code : Code) : List SendEvent × SendHalf :=
  if s.end_ = .open then ([.reset code], { s with end_ := .cut }) else ([], s)

end SendHalf

inductive SendAction where
  | queue (kind : FrameType) (payload : Bytes)
  | queueAfter (kind : FrameType) (payload : Bytes)
  | pollReady (writes : List Write)
  | pollFinish (writes : List Write) (done : Bool)
  | reset (code : Code)
  | drop
deriving DecidableEq, Repr

/-- A sending half, and whether it was dropped. -/
structure Sending where
  half : SendHalf
  dropped : Bool
deriving DecidableEq, Repr

namespace Sending

def new : Sending := ⟨.new, false⟩

/-- A frame is only queued where the previous one is written, as a poll that is ready leaves it. -/
def Queues (s : Sending) : SendAction → Prop
  | .queue _ _ => s.half.isReady = true
  | _ => True

instance (s : Sending) : (a : SendAction) → Decidable (s.Queues a)
  | .queue _ _ => inferInstanceAs (Decidable (_ = true))
  | .queueAfter _ _ | .pollReady _ | .pollFinish _ _ | .reset _ | .drop => isTrue trivial

/-- The calls of a sending half, up to its drop. -/
def step (s : Sending) (a : SendAction) : Option (Sending × List SendEvent) :=
  if s.dropped then none
  else
    match a with
    | .queue kind payload =>
      some ({ s with half := s.half.queue kind payload },
        [.queued (putHeader kind payload.length ++ payload)])
    | .queueAfter kind payload =>
      some ({ s with half := s.half.queueAfter kind payload },
        [.queued (putHeader kind payload.length ++ payload)])
    | .pollReady writes =>
      let polled := s.half.pollReady writes
      some ({ s with half := polled.left }, polled.events)
    | .pollFinish writes done =>
      let (_, events, half) := s.half.pollFinish writes done
      some ({ s with half }, events)
    | .reset code =>
      let (events, half) := s.half.reset code
      some ({ s with half }, events)
    | .drop =>
      let (events, half) := s.half.reset .h3RequestCancelled
      some (⟨half, true⟩, events ++ [.dropped])

end Sending

/-! ## Frames stay whole -/

namespace SendEvent

def queuedBytes : SendEvent → Bytes
  | .queued frame => frame
  | _ => []

def acceptedBytes : SendEvent → Bytes
  | .accepted bytes => bytes
  | _ => []

end SendEvent

/-- The encoded frames, in the order they were queued. -/
def queuedBytes (log : List SendEvent) : Bytes := log.flatMap SendEvent.queuedBytes

/-- What the transport accepted. -/
def acceptedBytes (log : List SendEvent) : Bytes := log.flatMap SendEvent.acceptedBytes

/-- What the transport is told to finish relies on: it accepted all that was queued, was told so neither
before nor after a reset, and the half is not dropped. -/
def Whole (log : List SendEvent) : SendEvent → Prop
  | .finished _ => acceptedBytes log = queuedBytes log ∧ (∀ done, .finished done ∉ log) ∧
      (∀ code, .reset code ∉ log) ∧ .dropped ∉ log
  | _ => True

/-- A sending half against what was queued and what happened to the transport's stream. -/
structure Sent (log : List SendEvent) (s : Sending) : Prop where
  bytes : acceptedBytes log ++ s.half.pending = queuedBytes log
  whole : Machine.Justified Whole log
  opened : s.half.end_ = .open → (∀ done, .finished done ∉ log) ∧ ∀ code, .reset code ∉ log
  finished : s.half.end_ = .finished → ∃ done, .finished done ∈ log
  cut : s.half.end_ = .cut →
    (∃ code, .reset code ∈ log) ∨ (∃ done, .finished done ∈ log) ∨ .failed ∈ log
  dropped : .dropped ∈ log ↔ s.dropped = true
  shut : s.dropped = true → s.half.end_ ≠ .open

section Log

variable {log later : List SendEvent}

@[simp] theorem queuedBytes_append :
    queuedBytes (log ++ later) = queuedBytes log ++ queuedBytes later := List.flatMap_append

@[simp] theorem acceptedBytes_append :
    acceptedBytes (log ++ later) = acceptedBytes log ++ acceptedBytes later := List.flatMap_append

/-- A frame that is queued is all its event queues. -/
theorem queuedBytes_queued (frame : Bytes) : queuedBytes [.queued frame] = frame :=
  List.append_nil _

end Log

section Polled

variable {α : Type} (p : Polled α)

/-- Polling queues nothing. -/
theorem Polled.queuedBytes_events : queuedBytes p.events = [] := by
  unfold Polled.events
  split <;> rfl

/-- Polling logs the bytes that were accepted, all of them. -/
theorem Polled.acceptedBytes_events : acceptedBytes p.events = p.accepted := by
  unfold Polled.events
  split <;> exact List.append_nil _

/-- Polling logs what was accepted and, if it failed, that it did. -/
theorem Polled.mem_events {e : SendEvent} (h : e ∈ p.events) :
    e = .accepted p.accepted ∨ e = .failed ∧ p.result = .failed := by
  unfold Polled.events at h
  rcases List.mem_cons.mp h with rfl | h
  · exact .inl rfl
  · split at h
    · rename_i hfailed
      exact .inr ⟨List.mem_singleton.mp h, hfailed⟩
    · cases h

end Polled

namespace Sent

variable {log events : List SendEvent} {s : Sending}

/-- A new half has sent nothing. -/
theorem new : Sent [] .new where
  bytes := rfl
  whole := .nil
  opened := by
    intro _
    constructor
    · intro done h
      cases h
    · intro code h
      cases h
  finished := by
    intro h
    cases h
  cut := by
    intro h
    cases h
  dropped := by
    constructor
    · intro h
      cases h
    · intro h
      cases h
  shut := by
    intro h
    cases h

/-- Frames are queued and bytes accepted, and the stream goes on as it was. -/
theorem moves (h : Sent log s) {half : SendHalf} (hend : half.end_ = s.half.end_)
    (hevents : ∀ e ∈ events,
      (∃ frame, e = .queued frame) ∨ (∃ bytes, e = .accepted bytes) ∨ e = .failed)
    (hbytes : acceptedBytes events ++ half.pending = s.half.pending ++ queuedBytes events) :
    Sent (log ++ events) { s with half } := by
  -- none of the events is one that the stream's end is read from
  have hmem (e : SendEvent)
      (hother : (∀ frame, e ≠ .queued frame) ∧ (∀ bytes, e ≠ .accepted bytes) ∧ e ≠ .failed) :
      e ∈ log ++ events ↔ e ∈ log := by
    rw [List.mem_append, or_iff_left]
    intro he
    rcases hevents e he with ⟨frame, rfl⟩ | ⟨bytes, rfl⟩ | rfl
    · exact hother.1 frame rfl
    · exact hother.2.1 bytes rfl
    · exact hother.2.2 rfl
  have hfinished (done : Bool) : .finished done ∈ log ++ events ↔ .finished done ∈ log :=
    hmem _ ⟨fun _ => SendEvent.noConfusion, fun _ => SendEvent.noConfusion, SendEvent.noConfusion⟩
  have hreset (code : Code) : .reset code ∈ log ++ events ↔ .reset code ∈ log :=
    hmem _ ⟨fun _ => SendEvent.noConfusion, fun _ => SendEvent.noConfusion, SendEvent.noConfusion⟩
  have hdropped : .dropped ∈ log ++ events ↔ .dropped ∈ log :=
    hmem _ ⟨fun _ => SendEvent.noConfusion, fun _ => SendEvent.noConfusion, SendEvent.noConfusion⟩
  constructor
  · rw [acceptedBytes_append, queuedBytes_append, List.append_assoc]
    show _ ++ (_ ++ half.pending) = _
    rw [hbytes, ← List.append_assoc, h.bytes]
  · apply h.whole.append
    intro before e he
    rcases hevents e he with ⟨frame, rfl⟩ | ⟨bytes, rfl⟩ | rfl <;> trivial
  · intro hopen
    simp only [hfinished, hreset]
    exact h.opened (hend.symm.trans hopen)
  · intro hdone
    simp only [hfinished]
    exact h.finished (hend.symm.trans hdone)
  · intro hcut
    simp only [hfinished, hreset]
    rcases h.cut (hend.symm.trans hcut) with hreset | hfinished | hfailed
    · exact .inl hreset
    · exact .inr (.inl hfinished)
    · exact .inr (.inr (List.mem_append_left _ hfailed))
  · rw [hdropped]
    exact h.dropped
  · intro hover
    show half.end_ ≠ .open
    rw [hend]
    exact h.shut hover

/-- An event that neither queues nor accepts bytes. -/
theorem bytes_snoc (h : Sent log s) {e : SendEvent} (hqueued : queuedBytes [e] = [])
    (haccepted : acceptedBytes [e] = []) :
    acceptedBytes (log ++ [e]) ++ s.half.pending = queuedBytes (log ++ [e]) := by
  rw [acceptedBytes_append, queuedBytes_append, hqueued, haccepted, List.append_nil,
    List.append_nil, h.bytes]

/-- A poll that writes. -/
theorem polls (h : Sent log s) (writes : List Write) :
    Sent (log ++ (s.half.pollReady writes).events)
      { s with half := (s.half.pollReady writes).left } := by
  refine h.moves (s.half.pollReady_end writes) ?_ ?_
  · intro e he
    rcases (s.half.pollReady writes).mem_events he with rfl | ⟨rfl, -⟩
    · exact .inr (.inl ⟨_, rfl⟩)
    · exact .inr (.inr rfl)
  · rw [Polled.acceptedBytes_events, Polled.queuedBytes_events, List.append_nil]
    exact (s.half.pollReady_writes writes).accepted

/-- A stream that failed is cut short. -/
theorem cuts (h : Sent log s) (hfailed : .failed ∈ log) :
    Sent log { s with half := { s.half with end_ := .cut } } where
  bytes := h.bytes
  whole := h.whole
  opened := by
    intro hopen
    cases hopen
  finished := by
    intro hdone
    cases hdone
  cut := fun _ => .inr (.inr hfailed)
  dropped := h.dropped
  shut := fun _ => End.noConfusion

/-- The transport is told to finish, all being written. -/
theorem finishes (h : Sent log s) (hdropped : s.dropped = false) (hopen : s.half.end_ = .open)
    (hpending : s.half.pending = []) (done : Bool) :
    Sent (log ++ [.finished done])
      { s with half := { s.half with end_ := if done then .finished else .cut } } := by
  obtain ⟨hfinished, hreset⟩ := h.opened hopen
  have hlast : .finished done ∈ log ++ [.finished done] :=
    List.mem_append_right _ List.mem_cons_self
  have hbytes : acceptedBytes log = queuedBytes log := by
    rw [← h.bytes, hpending, List.append_nil]
  constructor
  · exact h.bytes_snoc rfl rfl
  · apply h.whole.snoc
    refine ⟨hbytes, hfinished, hreset, fun hin => ?_⟩
    rw [h.dropped, hdropped] at hin
    cases hin
  · intro hstill
    cases done <;> cases hstill
  · intro _
    exact ⟨done, hlast⟩
  · intro _
    exact .inr (.inl ⟨done, hlast⟩)
  · rw [List.mem_append, or_iff_left (by simp), h.dropped]
  · intro hover
    rw [hdropped] at hover
    cases hover

/-- A reset keeps what was sent whole. -/
theorem resets (h : Sent log s) (code : Code) :
    Sent (log ++ [.reset code]) { s with half := { s.half with end_ := .cut } } := by
  have hlast : .reset code ∈ log ++ [.reset code] := List.mem_append_right _ List.mem_cons_self
  constructor
  · exact h.bytes_snoc rfl rfl
  · exact h.whole.snoc trivial
  · intro hopen
    cases hopen
  · intro hdone
    cases hdone
  · intro _
    exact .inl ⟨code, hlast⟩
  · rw [List.mem_append, or_iff_left (by simp), h.dropped]
  · intro _
    exact End.noConfusion

/-- The half is dropped, with its stream finished or cut. -/
theorem drops (h : Sent log s) (hend : s.half.end_ ≠ .open) :
    Sent (log ++ [.dropped]) ⟨s.half, true⟩ := by
  constructor
  · exact h.bytes_snoc rfl rfl
  · exact h.whole.snoc trivial
  · intro hopen
    exact absurd hopen hend
  · intro hdone
    obtain ⟨done, hmem⟩ := h.finished hdone
    exact ⟨done, List.mem_append_left _ hmem⟩
  · intro hcut
    rcases h.cut hcut with ⟨code, hreset⟩ | ⟨done, hfinished⟩ | hfailed
    · exact .inl ⟨code, List.mem_append_left _ hreset⟩
    · exact .inr (.inl ⟨done, List.mem_append_left _ hfinished⟩)
    · exact .inr (.inr (List.mem_append_left _ hfailed))
  · exact iff_of_true (List.mem_append_right _ List.mem_cons_self) rfl
  · intro _
    exact hend

/-- Polling the finish keeps what was sent whole. -/
theorem pollFinish (h : Sent log s) (hdropped : s.dropped = false) (writes : List Write)
    (done : Bool) :
    Sent (log ++ (s.half.pollFinish writes done).2.1)
      { s with half := (s.half.pollFinish writes done).2.2 } := by
  have hpolls := h.polls writes
  unfold SendHalf.pollFinish
  match hend : s.half.end_ with
  | .finished =>
    simp only [List.append_nil]
    exact h
  | .cut =>
    simp only [List.append_nil]
    exact h
  | .open =>
    simp only
    match hresult : (s.half.pollReady writes).result with
    | .pending => exact hpolls
    | .failed =>
      -- the failure that the poll logged is why the stream is cut
      refine hpolls.cuts (List.mem_append_right _ ?_)
      unfold Polled.events
      rw [if_pos hresult]
      exact List.mem_cons_of_mem _ List.mem_cons_self
    | .ready =>
      simp only
      rw [← List.append_assoc]
      exact hpolls.finishes hdropped ((s.half.pollReady_end writes).trans hend)
        ((s.half.pollReady_writes writes).ready hresult) done

/-- A stream that is still open is reset. -/
theorem reset (h : Sent log s) (code : Code) :
    Sent (log ++ (s.half.reset code).1) { s with half := (s.half.reset code).2 } ∧
      (s.half.reset code).2.end_ ≠ .open := by
  unfold SendHalf.reset
  split
  · exact ⟨h.resets code, End.noConfusion⟩
  · rename_i hend
    simp only [List.append_nil]
    exact ⟨h, hend⟩

end Sent

/-- **One action** keeps what was sent whole. -/
theorem step_sent {log events : List SendEvent} {s t : Sending} {a : SendAction} (h : Sent log s)
    (hfit : s.Queues a) (hstep : s.step a = some (t, events)) : Sent (log ++ events) t := by
  unfold Sending.step at hstep
  split at hstep
  · cases hstep
  rename_i hdropped
  have hdropped : s.dropped = false := Bool.eq_false_iff.mpr hdropped
  cases a with
  | queue kind payload =>
    cases hstep
    refine h.moves rfl ?_ ?_
    · intro e he
      exact .inl ⟨_, List.mem_singleton.mp he⟩
    · rw [queuedBytes_queued]
      exact SendHalf.queue_pending hfit kind payload
  | queueAfter kind payload =>
    cases hstep
    refine h.moves rfl ?_ ?_
    · intro e he
      exact .inl ⟨_, List.mem_singleton.mp he⟩
    · rw [queuedBytes_queued]
      exact s.half.queueAfter_pending kind payload
  | pollReady writes =>
    cases hstep
    exact h.polls writes
  | pollFinish writes done =>
    cases hstep
    exact h.pollFinish hdropped writes done
  | reset code =>
    cases hstep
    exact (h.reset code).1
  | drop =>
    cases hstep
    -- a stream that is still open is reset before the half goes
    obtain ⟨hreset, hend⟩ := h.reset .h3RequestCancelled
    rw [← List.append_assoc]
    exact hreset.drops hend

/-- **Sent frames stay whole.** However the transport takes the bytes and wherever a poll is left, it
accepted a first part of the encoded frames in the order they were queued. It is told to finish only
once it accepted all of them, at most once, and neither after a reset nor after the drop; and where
the half is dropped without that, the transport not having failed, it is reset. -/
theorem sent_whole {s : Sending} {as : List SendAction} {log : List SendEvent}
    (hfit : Machine.Fit Sending.Queues Sending.step .new as)
    (hrun : Machine.run Sending.step .new as = some (s, log)) :
    acceptedBytes log <+: queuedBytes log ∧ Machine.Justified Whole log ∧
    (.dropped ∈ log → .failed ∉ log → (∀ done, .finished done ∉ log) →
      ∃ code, .reset code ∈ log) := by
  have h : Sent ([] ++ log) s := Machine.run_induct_of_fit Sent
    (fun _ _ _ _ _ h hfit hstep => step_sent h hfit hstep) [] Sent.new hfit hrun
  rw [List.nil_append] at h
  refine ⟨⟨s.half.pending, h.bytes⟩, h.whole, ?_⟩
  intro hdropped hfailed hfinished
  match hend : s.half.end_ with
  | .open => exact absurd hend (h.shut (h.dropped.mp hdropped))
  | .finished =>
    obtain ⟨done, hmem⟩ := h.finished hend
    exact absurd hmem (hfinished done)
  | .cut =>
    rcases h.cut hend with hreset | ⟨done, hmem⟩ | hmem
    · exact hreset
    · exact absurd hmem (hfinished done)
    · exact absurd hmem hfailed

/-- A frame that is written in parts, another one behind it, and then the end. -/
theorem sent_whole_parts : ∃ s log, Machine.run Sending.step .new [
      .queue .data [1, 2, 3], .pollReady [.took 1, .blocked 0], .queueAfter .data [4],
      .pollReady [.took 3, .blocked 1], .pollFinish [.took 9] true] = some (s, log) ∧
    acceptedBytes log = [0, 3, 1, 2, 3, 0, 1, 4] ∧ acceptedBytes log <+: queuedBytes log := by
  refine ⟨_, _, rfl, rfl, ?_⟩
  exact (@sent_whole _ [.queue .data [1, 2, 3], .pollReady [.took 1, .blocked 0],
    .queueAfter .data [4], .pollReady [.took 3, .blocked 1], .pollFinish [.took 9] true] _
    (by decide) rfl).1

end GraphiteMeter.Http3
