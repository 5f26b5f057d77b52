import GraphiteMeter.Http3.Message
import GraphiteMeter.Http3.Settings

/-!
# The peer's control stream

Reference: `rust/http3/src/driver.rs` (`ControlReader`; RFC 9114 §6.2.1): SETTINGS, then GOAWAY,
MAX_PUSH_ID and CANCEL_PUSH.

`ControlReader.read` is the source's loop over the pieces of a chunk; `event` is what its caller
does with an event, which may refuse it. A chunk reads as its first byte followed by its rest
(`read_cons`), where the settings reader and the frame reader agree on what remains of the frame
(`Aligned`), so every chunking of a stream gives the same events and the same end (`read_chunks`).
-/

namespace GraphiteMeter.Http3

open Chunked

inductive ControlEvent where
  | settings (peer : Settings.Peer)
  | goaway
deriving DecidableEq, Repr

structure ControlReader where
  frames : Reader FrameType
  settings : Option Settings.Reader
  started : Bool
  kind : FrameType
  /-- The one varint a GOAWAY, MAX_PUSH_ID or CANCEL_PUSH frame holds. -/
  value : Varint.Partial
  goaway : Option ℕ
deriving DecidableEq, Repr

namespace ControlReader

def empty : ControlReader := ⟨.empty, none, false, .data, .empty, none⟩

/-- Frames whose payload is one varint. -/
def oneVarint : List FrameType := [.goaway, .maxPushId, .cancelPush]

def header (c : ControlReader) (kind : FrameType) (length : ℕ) (peer : Role) :
    Except Code ControlReader :=
  if kind = .maxPushId ∧ peer = .server then .error .h3FrameUnexpected
  -- We send no MAX_PUSH_ID, so a server's CANCEL_PUSH names a push ID over our limit.
  else if kind = .cancelPush ∧ peer = .server then .error .h3IdError
  else if kind ∈ oneVarint ∧ ¬ (1 ≤ length ∧ length ≤ 8) then .error .h3FrameError
  else if kind ∈ [.settings, .data, .headers, .pushPromise] then .error .h3FrameUnexpected
  else if kind = .webtransportBidi then .error .h3FrameError
  else if kind.isHttp2 then .error .h3FrameUnexpected
  else .ok { c with kind }

/-- Takes a server's GOAWAY. -/
def takeGoaway (c : ControlReader) (id : ℕ) : Except Code (Option ℕ × ControlReader) :=
  if id % 4 ≠ 0 ∨ c.goaway.any (· < id) then .error .h3IdError
  else .ok (some id, { c with goaway := some id })

/-- Reads a one-varint frame's payload; returns a server's GOAWAY once it is complete. -/
def readValue (c : ControlReader) (payload : Bytes) (peer : Role) :
    Except Code (Option ℕ × ControlReader) :=
  if c.kind ∉ oneVarint then .ok (none, c)
  else
    let (value, left, rest) := c.value.read payload
    let c := { c with value := left }
    -- The varint must end exactly where the frame does.
    if rest ≠ [] ∨ value.isSome ≠ decide (c.frames.remaining = 0) then .error .h3FrameError
    else
      -- A client's GOAWAY names push IDs, and we never push.
      match value.filter fun _ => c.kind = .goaway ∧ peer = .server with
      | none => .ok (none, c)
      | some id => c.takeGoaway id

section Read

variable (event : ControlEvent → Except Code Unit) (peer : Role)

/-- Hands an event to the caller, which may refuse it. -/
def emit (c : ControlReader) (e : ControlEvent) : Outcome Code ControlReader ControlEvent :=
  ⟨[e], (event e).map fun () => c⟩

/-- The settings reader took a part of its frame: the frame may be complete with it. -/
def settled (c : ControlReader) :
    Except Code (Option Settings.Peer × Settings.Reader) → Outcome Code ControlReader ControlEvent
  | .error code => ⟨[], .error code⟩
  | .ok (some p, _) => emit event { c with settings := none } (.settings p)
  | .ok (none, settings) => ⟨[], .ok { c with settings := some settings }⟩

/-- The header of the first frame, which must be SETTINGS. -/
def first (c : ControlReader) (kind : FrameType) (length : ℕ) :
    Outcome Code ControlReader ControlEvent :=
  if kind ≠ .settings then ⟨[], .error .h3MissingSettings⟩
  else
    match Settings.Reader.new length with
    | .error code => ⟨[], .error code⟩
    | .ok settings => settled event { c with started := true } (settings.read [])

/-- What the reader makes of one piece. -/
def piece (c : ControlReader) : Piece FrameType → Outcome Code ControlReader ControlEvent
  | .header kind length =>
    if c.started then ⟨[], c.header kind length peer⟩ else first event c kind length
  | .payload payload =>
    match c.settings with
    | some settings => settled event c (settings.read payload)
    | none =>
      match c.readValue payload peer with
      | .error code => ⟨[], .error code⟩
      | .ok (none, c) => ⟨[], .ok c⟩
      | .ok (some _, c) => emit event c .goaway

def read (c : ControlReader) (input : Bytes) : Outcome Code ControlReader ControlEvent :=
  match _hnext : c.frames.next input with
  | (none, frames, _) => ⟨[], .ok { c with frames }⟩
  | (some p, frames, rest) =>
    match piece event peer { c with frames } p with
    | ⟨events, .error code⟩ => ⟨events, .error code⟩
    | ⟨events, .ok c'⟩ =>
      let later := read c' rest
      ⟨events ++ later.events, later.state⟩
termination_by input.length
decreasing_by exact Reader.length_lt_of_next _hnext

/-- One round of the source's loop. -/
theorem read_eq (c : ControlReader) (input : Bytes) :
    read event peer c input =
      match c.frames.next input with
      | (none, frames, _) => .start { c with frames }
      | (some p, frames, rest) =>
        (piece event peer { c with frames } p).andThen fun c' => read event peer c' rest := by
  rw [read]
  split
  · rename_i hnext
    rw [hnext]
    rfl
  · rename_i hnext
    rw [hnext]
    simp only
    match piece event peer { c with frames := _ } _ with
    | ⟨events, .error code⟩ => rfl
    | ⟨events, .ok c'⟩ => rfl

@[simp] theorem read_nil (c : ControlReader) : read event peer c [] = .start c := by
  rw [read_eq, Reader.next_nil]

end Read

/-! ## Any chunks -/

/-- While SETTINGS is read, its reader and the frame reader agree on what remains, which is
something. -/
def Aligned (c : ControlReader) : Prop :=
  ∀ settings, c.settings = some settings →
    settings.remaining = c.frames.remaining ∧ 0 < c.frames.remaining

variable (event : ControlEvent → Except Code Unit) (peer : Role)

/-- A part of SETTINGS cut after its first byte. -/
theorem settings_read_cons {settings : Settings.Reader} {remaining : ℕ} (b : UInt8) {q : Bytes}
    (hremaining : settings.remaining = remaining + q.length + 1) (hq : q ≠ []) :
    (∃ code, settings.read [b] = .error code ∧ settings.read (b :: q) = .error code) ∨
      ∃ settings', settings.read [b] = .ok (none, settings') ∧
        settings'.remaining = remaining + q.length ∧ settings.read (b :: q) = settings'.read q := by
  have hlen : 0 < q.length := List.length_pos_iff.mpr hq
  have hone : settings.remaining - [b].length = remaining + q.length := by
    rw [hremaining, List.length_singleton, Nat.add_sub_cancel]
  have hall : settings.remaining - (b :: q).length = remaining := by
    rw [hremaining, List.length_cons]
    omega
  have hfirst := settings.drainPairs_remaining (remaining + q.length) [b]
  have hwhole := settings.drainPairs_remaining remaining (b :: q)
  have hcut := settings.drainPairs_append [b] q
  rw [List.singleton_append] at hcut
  rw [hcut] at hwhole
  unfold Settings.Reader.read
  rw [hone, hall, hfirst, hwhole]
  match settings.drainPairs [b] with
  | .error code => exact .inl ⟨code, rfl, rfl⟩
  | .ok settings' =>
    right
    refine ⟨{ settings' with remaining := remaining + q.length }, ?_, rfl, ?_⟩
    · obtain ⟨n, hn⟩ : ∃ n, remaining + q.length = n + 1 := ⟨remaining + q.length - 1, by omega⟩
      simp only [Except.map, hn]
    · have hsub : remaining + q.length - q.length = remaining := Nat.add_sub_cancel _ _
      have hsecond := settings'.drainPairs_remaining remaining q
      simp only [hsub]
      rw [hsecond]
      rfl

/-- A one-varint payload cut after its first byte. -/
theorem readValue_cons (c : ControlReader) (header : Pair) (remaining : ℕ) (b : UInt8) {q : Bytes}
    (hq : q ≠ []) :
    (∃ code, readValue { c with frames := ⟨header, remaining + q.length⟩ } [b] peer = .error code ∧
        readValue { c with frames := ⟨header, remaining⟩ } (b :: q) peer = .error code) ∨
      ∃ value, readValue { c with frames := ⟨header, remaining + q.length⟩ } [b] peer =
          .ok (none, { c with frames := ⟨header, remaining + q.length⟩, value }) ∧
        readValue { c with frames := ⟨header, remaining⟩ } (b :: q) peer =
          readValue { c with frames := ⟨header, remaining⟩, value } q peer := by
  have hlen : 0 < q.length := List.length_pos_iff.mpr hq
  have hzero : decide (remaining + q.length = 0) = false := decide_eq_false (by omega)
  unfold readValue
  by_cases hkind : c.kind ∉ oneVarint
  · simp only [if_pos hkind]
    exact .inr ⟨c.value, rfl, rfl⟩
  · simp only [if_neg hkind, hzero]
    rw [Varint.Partial.read_resumable.cons c.value b q]
    obtain ⟨value, used, -, hread⟩ | ⟨-, hwait, hread⟩ := c.value.read_eq [b]
    · -- the varint ends before its frame does
      left
      simp only [hread, hq, ne_eq, not_false_eq_true, true_or, if_true, Option.isSome_some,
        Bool.true_eq_false, or_true]
      exact ⟨_, rfl, rfl⟩
    · right
      simp only [hread, ne_eq, not_true_eq_false, Option.isSome_none, or_self, if_false,
        Option.filter_none]
      exact ⟨_, rfl, rfl⟩

/-- **A payload cut after its first byte** gives the same events and the same state. -/
theorem piece_payload_cons (c : ControlReader) (header : Pair) (remaining : ℕ) (b : UInt8)
    {q : Bytes} (hq : q ≠ [])
    (haligned : ∀ settings, c.settings = some settings →
      settings.remaining = remaining + q.length + 1) :
    piece event peer { c with frames := ⟨header, remaining⟩ } (.payload (b :: q)) =
      (piece event peer { c with frames := ⟨header, remaining + q.length⟩ }
        (.payload [b])).andThen fun c' =>
          piece event peer { c' with frames := ⟨header, remaining⟩ } (.payload q) := by
  unfold piece
  cases hsettings : c.settings with
  | some settings =>
    obtain ⟨code, hone, hall⟩ | ⟨settings', hone, -, hall⟩ :=
      settings_read_cons b (haligned settings hsettings) hq
    · simp only [hone, hall, settled, Outcome.andThen_error]
    · simp only [hone, hall, settled, Outcome.andThen_ok, List.nil_append]
  | none =>
    obtain ⟨code, hone, hall⟩ | ⟨value, hone, hall⟩ := readValue_cons peer c header remaining b hq
    · rw [hsettings] at hone hall
      simp only [hone, hall, Outcome.andThen_error]
    · rw [hsettings] at hone hall
      simp only [hone, hall, Outcome.andThen_ok, List.nil_append]

/-! ### What the settings reader and the frame reader agree on -/

variable {event peer} {c c' : ControlReader}

/-- Emitting keeps the reader, and the event was accepted. -/
theorem emit_state {e : ControlEvent} (h : (emit event c e).state = .ok c') :
    c' = c ∧ event e = .ok () := by
  unfold emit at h
  match hevent : event e with
  | .error code =>
    rw [hevent] at h
    cases h
  | .ok () =>
    rw [hevent] at h
    cases h
    exact ⟨rfl, rfl⟩

/-- Reading settings keeps the reader aligned. -/
theorem settled_aligned {settings : Settings.Reader} {payload : Bytes}
    (hremaining : settings.remaining = c.frames.remaining + payload.length)
    (h : (settled event c (settings.read payload)).state = .ok c') :
    Aligned c' ∧ c'.frames = c.frames := by
  match hread : settings.read payload with
  | .error code =>
    rw [hread] at h
    cases h
  | .ok (some p, settings') =>
    rw [hread] at h
    obtain ⟨rfl, -⟩ := emit_state h
    exact ⟨nofun, rfl⟩
  | .ok (none, settings') =>
    rw [hread] at h
    cases h
    obtain ⟨hleft, hpos⟩ := Settings.Reader.remaining_of_read hread
    rw [hremaining, Nat.add_sub_cancel] at hleft
    refine ⟨?_, rfl⟩
    rintro settings'' ⟨⟩
    exact ⟨hleft, hleft ▸ hpos⟩

/-- Reading a value keeps the settings and the frames. -/
theorem readValue_keeps {payload : Bytes} {id : Option ℕ}
    (h : c.readValue payload peer = .ok (id, c')) :
    c'.settings = c.settings ∧ c'.frames = c.frames := by
  unfold readValue takeGoaway at h
  grind

/-- A payload keeps the reader aligned. -/
theorem piece_payload_aligned {payload : Bytes}
    (haligned : ∀ settings, c.settings = some settings →
      settings.remaining = c.frames.remaining + payload.length)
    (h : (piece event peer c (.payload payload)).state = .ok c') :
    Aligned c' ∧ c'.frames = c.frames := by
  unfold piece at h
  cases hsettings : c.settings with
  | some settings =>
    simp only [hsettings] at h
    exact settled_aligned (haligned settings hsettings) h
  | none =>
    simp only [hsettings] at h
    match hvalue : c.readValue payload peer with
    | .error code =>
      rw [hvalue] at h
      cases h
    | .ok (none, c'') =>
      rw [hvalue] at h
      cases h
      obtain ⟨hkeeps, hframes⟩ := readValue_keeps hvalue
      refine ⟨?_, hframes⟩
      intro settings hsome
      rw [hkeeps, hsettings] at hsome
      cases hsome
    | .ok (some id, c'') =>
      rw [hvalue] at h
      obtain ⟨rfl, -⟩ := emit_state h
      obtain ⟨hkeeps, hframes⟩ := readValue_keeps hvalue
      refine ⟨?_, hframes⟩
      intro settings hsome
      rw [hkeeps, hsettings] at hsome
      cases hsome

/-- A header changes the kind alone. -/
theorem header_keeps {kind : FrameType} {length : ℕ} (h : c.header kind length peer = .ok c') :
    c' = { c with kind } := by
  unfold header at h
  split at h
  · cases h
  split at h
  · cases h
  split at h
  · cases h
  split at h
  · cases h
  split at h
  · cases h
  split at h
  · cases h
  · cases h
    rfl

/-- A header keeps the reader aligned. -/
theorem piece_header_aligned {kind : FrameType} {length : ℕ} (hnone : c.settings = none)
    (hlength : c.frames.remaining = length)
    (h : (piece event peer c (.header kind length)).state = .ok c') :
    Aligned c' ∧ c'.frames = c.frames := by
  unfold piece at h
  by_cases hstarted : c.started = true
  · simp only [hstarted, if_true] at h
    rw [header_keeps h]
    exact ⟨fun settings hsome => (by rw [hnone] at hsome; cases hsome), rfl⟩
  · simp only [hstarted, if_false, Bool.false_eq_true, first] at h
    split at h
    · cases h
    · unfold Settings.Reader.new at h
      split at h
      · cases h
      · rename_i settings hnew
        split at hnew
        · cases hnew
        · cases hnew
          have hsettled := settled_aligned (c := { c with started := true }) hlength.symm h
          exact hsettled

/-- The piece the frame reader finds keeps both readers aligned. -/
theorem piece_aligned (h : c.Aligned) {frames : Reader FrameType} {input rest : Bytes}
    {p : Piece FrameType} (hnext : c.frames.next input = (some p, frames, rest))
    (hpiece : (piece event peer { c with frames } p).state = .ok c') :
    Aligned c' ∧ c'.frames = frames := by
  obtain ⟨hrem, kind, length, rfl, hlength⟩ | ⟨hrem, bytes, rfl, hbytes⟩ := Reader.next_some hnext
  · have hnone : c.settings = none := by
      by_contra hsome
      obtain ⟨settings, hsome⟩ := Option.ne_none_iff_exists'.mp hsome
      have hpos := (h settings hsome).2
      omega
    exact piece_header_aligned (by exact hnone) (by exact hlength) hpiece
  · apply piece_payload_aligned _ hpiece
    intro settings hsome
    rw [(h settings hsome).1]
    exact hbytes

/-- **Reading** keeps the reader aligned. -/
theorem read_aligned (h : c.Aligned) {input : Bytes}
    (hread : (read event peer c input).state = .ok c') : Aligned c' := by
  induction hlen : input.length using Nat.strongRecOn generalizing c input with
  | ind n ih =>
    subst hlen
    rw [read_eq] at hread
    match hnext : c.frames.next input with
    | (none, frames, rest) =>
      rw [hnext] at hread
      cases hread
      intro settings hsome
      have hrem := h settings hsome
      rw [Reader.next_none hnext (Nat.ne_of_gt hrem.2)]
      exact hrem
    | (some p, frames, rest) =>
      simp only [hnext] at hread
      match hpiece : (piece event peer { c with frames } p).state with
      | .error code =>
        rw [Outcome.andThen_state_error hpiece] at hread
        cases hread
      | .ok c'' =>
        rw [Outcome.andThen_state_ok hpiece] at hread
        exact ih rest.length (Reader.length_lt_of_next hnext) (piece_aligned h hnext hpiece).1 hread
          rfl

/-- **A chunk cut after its first byte** gives the same events and the same state. -/
theorem read_cons (h : c.Aligned) (b : UInt8) (rest : Bytes) :
    read event peer c (b :: rest) =
      (read event peer c [b]).andThen fun c' => read event peer c' rest := by
  refine @feed_cons FrameType _ ControlReader Code ControlEvent ControlReader.frames
    (fun c frames => { c with frames }) (piece event peer) (read event peer) ?_ ?_
    (fun _ _ => rfl) (fun _ => rfl) (fun _ _ _ => rfl) c ?_ ?_ b rest
  · intro c input frames rest hnext
    rw [read_eq, hnext]
  · intro c input p frames rest hnext
    rw [read_eq, hnext]
  · intro header remaining b c' hframes hc'
    refine (piece_payload_aligned ?_ hc').2
    intro settings hsome
    rw [(h settings hsome).1, hframes]
    rfl
  · intro header remaining b q hq hframes
    refine piece_payload_cons event peer c header remaining b hq ?_
    intro settings hsome
    rw [(h settings hsome).1, hframes]

/-- What a stream in chunks comes to: the events, and how it ends. -/
def readAll (event : ControlEvent → Except Code Unit) (peer : Role) (chunks : List Bytes) :
    List ControlEvent × Except Code Unit :=
  let outcome := feedAll (read event peer) empty chunks
  (outcome.events, outcome.state.map fun _ => ())

/-- **A control stream reads the same in any chunks**: the events and the end of its bytes in one. -/
theorem readAll_eq (event : ControlEvent → Except Code Unit) (peer : Role) (chunks : List Bytes) :
    readAll event peer chunks =
      ((read event peer empty chunks.flatten).events,
        (read event peer empty chunks.flatten).state.map fun _ => ()) := by
  have haligned : Aligned empty := nofun
  have heach := feedAll_eq_each (read event peer) Aligned (fun _ _ _ h hread => read_aligned h hread)
    (read_nil event peer) (fun _ b rest h => read_cons h b rest) haligned
  have hone : feedAll (read event peer) empty [chunks.flatten] =
      read event peer empty chunks.flatten := Outcome.andThen_start _
  rw [heach, List.flatten_singleton, ← heach chunks] at hone
  rw [readAll, hone]

end ControlReader

end GraphiteMeter.Http3
