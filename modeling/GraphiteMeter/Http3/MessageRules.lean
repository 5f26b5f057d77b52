import GraphiteMeter.Http3.MessageChunks

/-!
# The rules of a request stream

Which rule a byte stream breaks first, said about the frames it holds rather than about the reader's
state, and that a `Message` reports that one.

`violation` names the rule a frame breaks behind the frames before it; `firstViolation` takes the first
one along the stream, and the end of the stream is judged last. `Behind` ties the reader between two
frames to the frames it has read, `drain_frame` carries it over one frame, and `drain_verdict` over the
stream.

Reference: `rust/http3/src/message.rs`, `rust/http3/src/frame.rs` (RFC 9114 §4.1, §7.2).
-/

namespace GraphiteMeter.Http3

/-- A frame type this protocol gives no meaning to: it is skipped wherever it stands. -/
def FrameType.IsExtension (kind : FrameType) : Prop :=
  kind ∉ [.data, .headers, .settings, .goaway, .maxPushId, .cancelPush, .pushPromise,
    .webtransportBidi] ∧ kind.isHttp2 = false

instance (kind : FrameType) : Decidable kind.IsExtension :=
  inferInstanceAs (Decidable (_ ∧ _))

namespace Message

open Chunked

/-! ## Violations -/

/-- The bytes of the body among `frames`. -/
def bodyLength (frames : List (Frame FrameType)) : ℕ :=
  ((frames.filter (·.kind = .data)).map (·.payload.length)).sum

/-- How many field sections stand among `frames`. -/
def sectionCount (frames : List (Frame FrameType)) : ℕ :=
  frames.countP (·.kind = .headers)

/-- The content length the head among `frames` declares. -/
def declaredLength (declared : Bytes → Option ℕ) (frames : List (Frame FrameType)) : Option ℕ :=
  (frames.find? (·.kind = .headers)).bind (declared ·.payload)

/-- The rule that a frame of this type and length breaks behind the frames `before`, whatever its
payload. -/
def headerViolation (limit : ℕ) (peer : Role) (before : List (Frame FrameType)) (kind : FrameType)
    (length : ℕ) : Option Code :=
  if kind = .headers then
    if 2 ≤ sectionCount before then some .h3FrameUnexpected
    else if limit < length then some .h3ExcessiveLoad
    else none
  else if kind = .data then
    if sectionCount before = 1 then none else some .h3FrameUnexpected
  else if kind = .webtransportBidi then
    -- the signal may only open a client's stream, and no route takes it there
    if before ≠ [] ∨ peer = .server then some .h3FrameError
    else if sessionId length = none then some .h3IdError
    else some .wtCancelled
  else if kind = .pushPromise ∧ peer = .server then some .h3IdError
  else if kind.IsExtension then none
  else some .h3FrameUnexpected

/-- The rule that `frame` breaks behind the frames `before`. -/
def violation (limit : ℕ) (peer : Role) (declared : Bytes → Option ℕ)
    (before : List (Frame FrameType)) (frame : Frame FrameType) : Option Code :=
  match headerViolation limit peer before frame.kind frame.length with
  | some code => some code
  | none =>
    if frame.kind = .data ∧
        (declaredLength declared before).any (· < bodyLength before + frame.payload.length) then
      some .h3MessageError
    else none

/-- The rule that a stream of `frames` breaks by ending, with the bytes `left` behind the last of
them. -/
def endViolation (declared : Bytes → Option ℕ) (frames : List (Frame FrameType)) (left : Bytes) :
    Option Code :=
  if left ≠ [] ∨ ∃ frame ∈ frames, ¬ frame.Whole then some .h3FrameError
  else if sectionCount frames = 0 then some .h3RequestIncomplete
  else if (declaredLength declared frames).any (bodyLength frames < ·) then some .h3MessageError
  else none

/-- The first rule that a stream breaks, behind the frames `before` of it. -/
def firstViolation (limit : ℕ) (peer : Role) (declared : Bytes → Option ℕ) (left : Bytes) :
    List (Frame FrameType) → List (Frame FrameType) → Option Code
  | before, [] => endViolation declared before left
  | before, frame :: frames =>
    match violation limit peer declared before frame with
    | some code => some code
    | none => firstViolation limit peer declared left (before ++ [frame]) frames

/-- How a stream ends that breaks this rule first, if any. -/
def verdict : Option Code → Except Code Unit
  | none => .ok ()
  | some code => .error code

section Counts

variable (before : List (Frame FrameType)) (frame : Frame FrameType)

/-- One more frame counts if it is a field section. -/
theorem sectionCount_concat :
    sectionCount (before ++ [frame]) =
      sectionCount before + if frame.kind = .headers then 1 else 0 := by
  simp [sectionCount, List.countP_append, List.countP_cons]

/-- One more frame adds its payload if it is of the body. -/
theorem bodyLength_concat :
    bodyLength (before ++ [frame]) =
      bodyLength before + if frame.kind = .data then frame.payload.length else 0 := by
  by_cases h : frame.kind = .data
  · simp [bodyLength, List.filter_append, h]
  · simp [bodyLength, List.filter_append, h]

/-- Only the first field section declares a length. -/
theorem declaredLength_concat (declared : Bytes → Option ℕ) :
    declaredLength declared (before ++ [frame]) =
      if sectionCount before = 0 ∧ frame.kind = .headers then declared frame.payload
      else declaredLength declared before := by
  unfold declaredLength
  rw [List.find?_append]
  cases hfind : before.find? (·.kind = .headers) with
  | some head =>
    have hcount : sectionCount before ≠ 0 := by
      have hmem := List.mem_of_find?_eq_some hfind
      have hkind := List.find?_some hfind
      rw [sectionCount, Ne, List.countP_eq_zero]
      exact fun hall => hall head hmem hkind
    rw [if_neg fun h => hcount h.1]
    rfl
  | none =>
    have hcount : sectionCount before = 0 := by
      rw [sectionCount, List.countP_eq_zero]
      exact fun a ha => List.find?_eq_none.mp hfind a ha
    by_cases hkind : frame.kind = .headers
    · simp [hcount, hkind]
    · simp [hkind]

end Counts

/-! ## The reader between two frames -/

/-- The phase behind so many field sections. -/
def phaseBehind : ℕ → Phase
  | 0 => .head
  | 1 => .body
  | _ => .trailers

/-- The reader `m` has read the frames `before`, all of them whole and none against a rule. -/
structure Behind (limit : ℕ) (peer : Role) (declared : Bytes → Option ℕ)
    (before : List (Frame FrameType)) (m : Message) : Prop where
  phase : m.phase = phaseBehind (sectionCount before)
  started : m.started = !before.isEmpty
  collected : m.fieldSection = []
  limit : m.limit = limit
  response : m.response = decide (peer = .server)
  owed : m.owed = (declaredLength declared before).map (· - bodyLength before)
  within : ∀ length, declaredLength declared before = some length → bodyLength before ≤ length
  sections : sectionCount before ≤ 2
  bare : sectionCount before = 0 → bodyLength before = 0
  whole : ∀ frame ∈ before, frame.Whole

variable {limit : ℕ} {peer : Role} {declared : Bytes → Option ℕ} {before : List (Frame FrameType)}
  {m : Message}

/-- A new message has read no frame. -/
theorem new_behind : Behind limit peer declared [] (new limit peer) where
  phase := rfl
  started := rfl
  collected := rfl
  limit := rfl
  response := rfl
  owed := rfl
  within := nofun
  sections := Nat.zero_le _
  bare _ := rfl
  whole := fun _ h => absurd h List.not_mem_nil

/-- Where the reader is in a frame does not matter to what it has read. -/
theorem Behind.with_frames (h : Behind limit peer declared before m) (frames : Reader FrameType) :
    Behind limit peer declared before { m with frames } :=
  { h with }

/-- The body read so far is within the declared length. -/
theorem Behind.not_over (h : Behind limit peer declared before m) :
    (declaredLength declared before).any (· < bodyLength before) = false := by
  cases hdeclared : declaredLength declared before with
  | none => rfl
  | some length => simpa using h.within length hdeclared

/-- The reader inside the frame whose header it has just read. -/
def opened (m : Message) (kind : FrameType) (length : ℕ) : Message :=
  { m with frames := ⟨.empty, length⟩, started := true, kind }

/-! ## The match of `Message::header`, by type of frame -/

/-- What a field section's header does depends on those before it and on its length. -/
theorem header_headers (h : Behind limit peer declared before m) (length : ℕ) :
    m.header .headers length =
      if 2 ≤ sectionCount before then .error .h3FrameUnexpected
      else if limit < length then .error .h3ExcessiveLoad
      else if length = 0 then
        let m := { m with started := true, kind := .headers }
        .ok (some (m.fields []).1, (m.fields []).2)
      else .ok (none, { m with started := true, kind := .headers }) := by
  have hbidi : FrameType.headers ≠ .webtransportBidi := by decide
  have hpush : FrameType.headers ≠ .pushPromise := by decide
  have hphase := h.phase
  have hlimit := h.limit
  have hcount := h.sections
  unfold header
  match hn : sectionCount before with
  | 0 => simp [hphase, hn, phaseBehind, hlimit]
  | 1 => simp [hphase, hn, phaseBehind, hlimit]
  | n + 2 => simp [hphase, hn, phaseBehind, hbidi, hpush, unexpected]

/-- A body's header is read after the first field section and before the second. -/
theorem header_data (h : Behind limit peer declared before m) (length : ℕ) :
    m.header .data length =
      if sectionCount before = 1 then .ok (none, { m with started := true, kind := .data })
      else .error .h3FrameUnexpected := by
  have hheaders : FrameType.data ≠ .headers := by decide
  have hbidi : FrameType.data ≠ .webtransportBidi := by decide
  have hpush : FrameType.data ≠ .pushPromise := by decide
  have hphase := h.phase
  unfold header
  match hn : sectionCount before with
  | 0 => simp [hphase, hn, phaseBehind, hheaders, hbidi, hpush, unexpected]
  | 1 => simp [hphase, hn, phaseBehind, hheaders]
  | n + 2 => simp [hphase, hn, phaseBehind, hheaders, hbidi, hpush, unexpected]

/-- A bidirectional stream's header is always an error inside a message. -/
theorem header_bidi (h : Behind limit peer declared before m) (length : ℕ) :
    m.header .webtransportBidi length =
      .error (if before ≠ [] ∨ peer = .server then .h3FrameError
        else if sessionId length = none then .h3IdError
        else .wtCancelled) := by
  have hheaders : FrameType.webtransportBidi ≠ .headers := by decide
  have hdata : FrameType.webtransportBidi ≠ .data := by decide
  have hstarted := h.started
  have hresponse := h.response
  unfold header
  by_cases hopening : before ≠ [] ∨ peer = .server
  · rw [if_pos hopening]
    have hno : ¬ (before = [] ∧ ¬ peer = .server) := fun hno => hopening.elim (· hno.1) hno.2
    simp [hheaders, hdata, hstarted, hresponse, hno]
  · rw [if_neg hopening]
    obtain ⟨hnil, hclient⟩ : before = [] ∧ ¬ peer = .server := by
      rwa [not_or, not_not] at hopening
    by_cases hid : sessionId length = none
    · simp [hheaders, hdata, hstarted, hresponse, hnil, hclient, hid]
    · simp [hheaders, hdata, hstarted, hresponse, hnil, hclient, hid]

/-- The signal apart, what is skipped is what the match of `header` has no arm for. -/
theorem isExtension_iff {kind : FrameType} (hbidi : kind ≠ .webtransportBidi) :
    kind.IsExtension ↔ kind ∉ unexpected ∧ kind.isHttp2 = false := by
  unfold FrameType.IsExtension unexpected
  simp only [List.mem_cons, List.not_mem_nil, or_false, hbidi]

/-- A type without a place of its own on a request stream: skipped, or refused as another stream's. -/
theorem header_other (h : Behind limit peer declared before m) {kind : FrameType}
    (hheaders : kind ≠ .headers) (hdata : kind ≠ .data) (hbidi : kind ≠ .webtransportBidi)
    (length : ℕ) :
    m.header kind length =
      if kind = .pushPromise ∧ peer = .server then .error .h3IdError
      else if kind.IsExtension then .ok (none, { m with started := true, kind })
      else .error .h3FrameUnexpected := by
  have hresponse : (m.response = true) = (peer = .server) := by rw [h.response, decide_eq_true_eq]
  unfold header
  simp only [hheaders, hdata, hbidi, false_and, or_self, if_false, hresponse,
    isExtension_iff hbidi]
  by_cases hpush : kind = .pushPromise ∧ peer = .server
  · rw [if_pos hpush, if_pos hpush]
  · rw [if_neg hpush, if_neg hpush]
    by_cases hun : kind ∈ unexpected
    · rw [if_pos hun, if_neg fun hext => hext.1 hun]
    · cases hhttp2 : kind.isHttp2 <;> simp [hun]

/-- **A header, by rule**: the violation it is, or the reader inside its frame. -/
theorem pieceOutcome_header (h : Behind limit peer declared before m) (kind : FrameType)
    (length : ℕ) :
    pieceOutcome declared { m with frames := ⟨.empty, length⟩ } (.header kind length) =
      match headerViolation limit peer before kind length with
      | some code => ⟨[], .error code⟩
      | none =>
        if kind = .headers ∧ length = 0 then sectionOutcome declared (m.opened kind length) []
        else ⟨[], .ok (m.opened kind length)⟩ := by
  have hm := h.with_frames ⟨.empty, length⟩
  unfold pieceOutcome headerViolation
  simp only [piece]
  by_cases hheaders : kind = .headers
  · rw [if_pos hheaders, hheaders, header_headers hm]
    by_cases hcount : 2 ≤ sectionCount before
    · rw [if_pos hcount, if_pos hcount]
    · rw [if_neg hcount, if_neg hcount]
      by_cases hlimit : limit < length
      · rw [if_pos hlimit, if_pos hlimit]
      · rw [if_neg hlimit, if_neg hlimit]
        by_cases hzero : length = 0
        · simp [hzero, sectionOutcome, opened]
        · simp [hzero, opened]
  · rw [if_neg hheaders]
    simp only [hheaders, false_and, if_false]
    by_cases hdata : kind = .data
    · rw [if_pos hdata, hdata, header_data hm]
      by_cases hcount : sectionCount before = 1
      · rw [if_pos hcount, if_pos hcount]
        rfl
      · rw [if_neg hcount, if_neg hcount]
    · rw [if_neg hdata]
      by_cases hbidi : kind = .webtransportBidi
      · rw [if_pos hbidi, hbidi, header_bidi hm]
        split_ifs <;> rfl
      · rw [if_neg hbidi, header_other hm hheaders hdata hbidi]
        split_ifs <;> rfl

/-! ## A frame behind the others -/

/-- One more whole frame leaves all of them whole. -/
theorem whole_concat (h : Behind limit peer declared before m) {frame : Frame FrameType}
    (hwhole : frame.Whole) : ∀ f ∈ before ++ [frame], f.Whole := by
  intro f hf
  rcases List.mem_append.mp hf with hf | hf
  · exact h.whole f hf
  · rwa [List.mem_singleton.mp hf]

/-- A skipped frame leaves the reader as it was. -/
theorem Behind.skip (h : Behind limit peer declared before m) (frame : Frame FrameType)
    (hheaders : frame.kind ≠ .headers) (hdata : frame.kind ≠ .data) (hwhole : frame.Whole) :
    Behind limit peer declared (before ++ [frame])
      (m.opened frame.kind 0) := by
  have hcount : sectionCount (before ++ [frame]) = sectionCount before := by
    rw [sectionCount_concat, if_neg hheaders, Nat.add_zero]
  have hbody : bodyLength (before ++ [frame]) = bodyLength before := by
    rw [bodyLength_concat, if_neg hdata, Nat.add_zero]
  have hdeclared : declaredLength declared (before ++ [frame]) = declaredLength declared before := by
    rw [declaredLength_concat, if_neg fun hc => hheaders hc.2]
  exact {
    phase := by rw [hcount]; exact h.phase
    started := by simp [opened]
    collected := h.collected
    limit := h.limit
    response := h.response
    owed := by rw [hdeclared, hbody]; exact h.owed
    within := by rw [hdeclared, hbody]; exact h.within
    sections := by rw [hcount]; exact h.sections
    bare := by rw [hcount, hbody]; exact h.bare
    whole := whole_concat h hwhole }

/-- A DATA frame takes its payload off what is owed. -/
theorem Behind.data (h : Behind limit peer declared before m) (frame : Frame FrameType)
    (hdata : frame.kind = .data) (hone : sectionCount before = 1) (hwhole : frame.Whole)
    (hfits : ∀ length, declaredLength declared before = some length →
      bodyLength before + frame.payload.length ≤ length) :
    Behind limit peer declared (before ++ [frame])
      { m with
        frames := .empty, started := true, kind := .data,
        owed := m.owed.map (· - frame.payload.length) } := by
  have hheaders : frame.kind ≠ .headers := by rw [hdata]; decide
  have hcount : sectionCount (before ++ [frame]) = sectionCount before := by
    rw [sectionCount_concat, if_neg hheaders, Nat.add_zero]
  have hbody : bodyLength (before ++ [frame]) = bodyLength before + frame.payload.length := by
    rw [bodyLength_concat, if_pos hdata]
  have hdeclared : declaredLength declared (before ++ [frame]) = declaredLength declared before := by
    rw [declaredLength_concat, if_neg fun hc => hheaders hc.2]
  exact {
    phase := by rw [hcount]; exact h.phase
    started := by simp
    collected := h.collected
    limit := h.limit
    response := h.response
    owed := by
      rw [hdeclared, hbody, h.owed, Option.map_map]
      simp only [Function.comp_def, Nat.sub_sub]
    within := by rw [hdeclared, hbody]; exact hfits
    sections := by rw [hcount]; exact h.sections
    bare := by rw [hcount, hone]; exact nofun
    whole := whole_concat h hwhole }

/-- A field section moves the phase on, and the head's declares what is owed. -/
theorem Behind.headers (h : Behind limit peer declared before m) (frame : Frame FrameType)
    (hkind : frame.kind = .headers) (hfew : sectionCount before < 2) (hwhole : frame.Whole) :
    ∃ m', (sectionOutcome declared
        { m with frames := .empty, started := true, kind := .headers, fieldSection := [] }
        frame.payload).state = .ok m' ∧
      m'.frames = .empty ∧ Behind limit peer declared (before ++ [frame]) m' := by
  have hdata : frame.kind ≠ .data := by rw [hkind]; decide
  have hcount : sectionCount (before ++ [frame]) = sectionCount before + 1 := by
    rw [sectionCount_concat, if_pos hkind]
  have hbody : bodyLength (before ++ [frame]) = bodyLength before := by
    rw [bodyLength_concat, if_neg hdata, Nat.add_zero]
  refine ⟨_, rfl, ?_⟩
  obtain hzero | hone : sectionCount before = 0 ∨ sectionCount before = 1 := by omega
  · -- the head
    have hphase : m.phase = .head := by rw [h.phase, hzero]; rfl
    have hdeclared : declaredLength declared (before ++ [frame]) = declared frame.payload := by
      rw [declaredLength_concat, if_pos ⟨hzero, hkind⟩]
    simp only [fields, hphase, if_true, declare, true_and]
    exact {
      phase := by rw [hcount, hzero]; rfl
      started := by simp
      collected := rfl
      limit := h.limit
      response := h.response
      owed := by
        rw [hdeclared, hbody, h.bare hzero]
        simp
      within := by
        intro length _
        rw [hbody, h.bare hzero]
        exact Nat.zero_le length
      sections := by rw [hcount]; omega
      bare := by rw [hcount]; exact fun hnone => absurd hnone (Nat.succ_ne_zero _)
      whole := whole_concat h hwhole }
  · -- the trailers
    have hphase : m.phase = .body := by rw [h.phase, hone]; rfl
    have hdeclared :
        declaredLength declared (before ++ [frame]) = declaredLength declared before := by
      rw [declaredLength_concat, if_neg fun hc => by omega]
    simp only [fields, hphase, reduceCtorEq, if_false, declare, true_and]
    exact {
      phase := by rw [hcount, hone]; rfl
      started := by simp
      collected := rfl
      limit := h.limit
      response := h.response
      owed := by rw [hdeclared, hbody]; exact h.owed
      within := by rw [hdeclared, hbody]; exact h.within
      sections := by rw [hcount]; omega
      bare := by rw [hcount]; exact fun hnone => absurd hnone (Nat.succ_ne_zero _)
      whole := whole_concat h hwhole }

/-! ## A frame in the stream -/

/-- Inside a frame with a payload, the reader takes what the stream holds of it. -/
theorem drain_opened (m : Message) (kind : FrameType) {length : ℕ} (hlength : length ≠ 0)
    {rest : Bytes} (hrest : rest ≠ []) :
    (m.opened kind length).drain declared rest =
      (pieceOutcome declared (m.opened kind (length - rest.length))
        (.payload (rest.take length))).andThen fun m' => m'.drain declared (rest.drop length) := by
  obtain ⟨b, bs, rfl⟩ := List.exists_cons_of_ne_nil hrest
  obtain ⟨n, rfl⟩ : ∃ n, length = n + 1 := ⟨length - 1, by omega⟩
  rw [drain_eq, show (m.opened kind (n + 1)).frames = ⟨.empty, n + 1⟩ from rfl,
    Reader.next_payload hlength]
  simp only [Nat.add_sub_cancel, List.take_succ_cons, List.drop_succ_cons, List.length_cons,
    Nat.add_sub_add_right]
  rfl

/-- Bytes of the body are taken off what is owed, unless they exceed it. -/
theorem pieceOutcome_data (h : Behind limit peer declared before m) (remaining : ℕ)
    (bytes : Bytes) :
    (pieceOutcome declared (m.opened .data remaining) (.payload bytes)).state =
      if (declaredLength declared before).any (· < bodyLength before + bytes.length) then
        .error .h3MessageError
      else .ok { m with
        frames := ⟨.empty, remaining⟩, started := true, kind := .data,
        owed := m.owed.map (· - bytes.length) } := by
  have howed : (m.opened .data remaining).owed = _ := h.owed
  cases hdeclared : declaredLength declared before with
  | none =>
    rw [hdeclared] at howed
    have hnone : m.owed = none := howed
    rw [pieceOutcome_data_unbounded declared rfl howed]
    simp [opened, hnone]
  | some length =>
    have hwithin := h.within length hdeclared
    rw [hdeclared] at howed
    have hsome : m.owed = some (length - bodyLength before) := howed
    rw [pieceOutcome_data_owed declared rfl (howed.trans (Option.map_some ..))]
    by_cases hover : length < bodyLength before + bytes.length
    · rw [if_neg (by omega)]
      simp [hover]
    · rw [if_pos (by omega)]
      simp [hover, hsome, opened]

/-- How a stream of `frame` and `rest` is read behind the frames `before`, by the state it ends in:
the frame's violation ends it, a whole frame joins those before it, and inside a frame that the stream
cuts short the reader stays waiting. -/
inductive Reads (limit : ℕ) (peer : Role) (declared : Bytes → Option ℕ)
    (before : List (Frame FrameType)) (frame : Frame FrameType) (rest : Bytes) :
    Except Code Message → Prop
  | against {code : Code} (hviolation : violation limit peer declared before frame = some code) :
    Reads limit peer declared before frame rest (.error code)
  | whole {m' : Message} (hviolation : violation limit peer declared before frame = none)
    (hwhole : frame.Whole) (hframes : m'.frames = .empty)
    (hbehind : Behind limit peer declared (before ++ [frame]) m') :
    Reads limit peer declared before frame rest (m'.drain declared rest).state
  | cut {m' : Message} (hviolation : violation limit peer declared before frame = none)
    (hcut : ¬ frame.Whole) (hwaiting : m'.frames.remaining ≠ 0) :
    Reads limit peer declared before frame rest (.ok m')

/-- DATA that breaks no rule by its header comes behind the head alone. -/
theorem sectionCount_of_data {length : ℕ}
    (hheader : headerViolation limit peer before .data length = none) : sectionCount before = 1 := by
  by_contra hne
  rw [headerViolation, if_neg (by decide), if_pos rfl, if_neg hne] at hheader
  cases hheader

/-- A field section that is allowed is the first or the second. -/
theorem sectionCount_of_headers {length : ℕ}
    (hheader : headerViolation limit peer before .headers length = none) :
    sectionCount before < 2 := by
  by_contra hmany
  rw [headerViolation, if_pos rfl, if_pos (by omega)] at hheader
  cases hheader

/-- A header that violates the rules is the frame's violation. -/
theorem violation_of_header {kind : FrameType} {length : ℕ} {code : Code}
    (hheader : headerViolation limit peer before kind length = some code) (payload : Bytes) :
    violation limit peer declared before ⟨kind, length, payload⟩ = some code := by
  simp only [violation, hheader]

/-- Only the body can violate a rule past its header. -/
theorem violation_of_ne_data (declared : Bytes → Option ℕ) {kind : FrameType} {length : ℕ}
    (hheader : headerViolation limit peer before kind length = none) (hdata : kind ≠ .data)
    (payload : Bytes) : violation limit peer declared before ⟨kind, length, payload⟩ = none := by
  simp only [violation, hheader, hdata, false_and, if_false]

/-- A body that is allowed violates the rules by its length alone. -/
theorem violation_data (declared : Bytes → Option ℕ) {length : ℕ}
    (hheader : headerViolation limit peer before .data length = none) (payload : Bytes) :
    violation limit peer declared before ⟨.data, length, payload⟩ =
      if (declaredLength declared before).any (· < bodyLength before + payload.length) then
        some .h3MessageError
      else none := by
  simp only [violation, hheader, true_and]

/-- A frame that breaks no rule by its header, of which the stream holds no byte of payload. -/
theorem reads_empty (h : Behind limit peer declared before m) {kind : FrameType} {length : ℕ}
    (hheader : headerViolation limit peer before kind length = none)
    (hempty : ¬ (kind = .headers ∧ length = 0)) {rest : Bytes} (hrest : length = 0 ∨ rest = []) :
    Reads limit peer declared before ⟨kind, length, []⟩ (rest.drop length)
      ((m.opened kind length).drain declared rest).state := by
  have hviolation : violation limit peer declared before ⟨kind, length, []⟩ = none := by
    simp only [violation, hheader, List.length_nil, Nat.add_zero, h.not_over, and_false,
      Bool.false_eq_true, if_false]
  by_cases hzero : length = 0
  · subst hzero
    refine .whole hviolation rfl rfl ?_
    by_cases hdata : kind = .data
    · subst hdata
      have hnext := h.data ⟨.data, 0, []⟩ rfl (sectionCount_of_data hheader) rfl
        fun n hn => h.within n hn
      simpa [opened, Reader.empty] using hnext
    · exact h.skip ⟨kind, 0, []⟩ (fun hk => hempty ⟨hk, rfl⟩) hdata rfl
  · -- the frame announces a payload, and the stream ends behind its header
    obtain rfl : rest = [] := hrest.resolve_left hzero
    rw [drain_nil]
    exact .cut hviolation (Ne.symm hzero) hzero

section Payload

variable (h : Behind limit peer declared before m) {length : ℕ} (hlength : length ≠ 0)
  {rest : Bytes} (hrest : rest ≠ [])

/-- What is read of a frame is whole once nothing of it is missing. -/
theorem whole_iff (kind : FrameType) (length : ℕ) (rest : Bytes) :
    (⟨kind, length, rest.take length⟩ : Frame FrameType).Whole ↔ length - rest.length = 0 := by
  simp only [Frame.Whole, List.length_take]
  omega

/-- Behind a frame that the stream cuts short nothing is left. -/
theorem drop_of_cut (hcut : length - rest.length ≠ 0) : rest.drop length = [] :=
  List.drop_of_length_le (by omega)

include h hlength hrest

/-- A frame of an unknown type is read and skipped. -/
theorem reads_skipped {kind : FrameType}
    (hheader : headerViolation limit peer before kind length = none) (hheaders : kind ≠ .headers)
    (hdata : kind ≠ .data) :
    Reads limit peer declared before ⟨kind, length, rest.take length⟩ (rest.drop length)
      ((m.opened kind length).drain declared rest).state := by
  have hviolation := violation_of_ne_data declared hheader hdata (rest.take length)
  have hwhole := whole_iff kind length rest
  rw [drain_opened m kind hlength hrest, pieceOutcome_other declared hdata hheaders,
    Outcome.andThen_ok]
  by_cases hdone : length - rest.length = 0
  · rw [hdone]
    exact .whole hviolation (hwhole.mpr hdone) rfl
      (h.skip ⟨kind, length, rest.take length⟩ hheaders hdata (hwhole.mpr hdone))
  · rw [drop_of_cut hdone, drain_nil]
    exact .cut hviolation (fun hw => hdone (hwhole.mp hw)) hdone

/-- A field section is read up to its length. -/
theorem reads_headers (hheader : headerViolation limit peer before .headers length = none) :
    Reads limit peer declared before ⟨.headers, length, rest.take length⟩ (rest.drop length)
      ((m.opened .headers length).drain declared rest).state := by
  have hviolation := violation_of_ne_data declared hheader (by decide)
    (rest.take length)
  have hwhole := whole_iff .headers length rest
  rw [drain_opened m .headers hlength hrest, pieceOutcome_headers declared rfl]
  by_cases hdone : length - rest.length = 0
  · -- the section is whole: it is the head or the trailers
    obtain ⟨m', hstate, hframes, hbehind⟩ :=
      h.headers ⟨.headers, length, rest.take length⟩ rfl (sectionCount_of_headers hheader)
        (hwhole.mpr hdone)
    have hzero : ¬ 0 < (m.opened .headers (length - rest.length)).frames.remaining := by
      simp [opened, hdone]
    rw [if_neg hzero]
    simp only [opened, h.collected, List.nil_append, hdone]
    rw [show (⟨.empty, 0⟩ : Reader FrameType) = .empty from rfl, Outcome.andThen_state_ok hstate]
    exact .whole hviolation (hwhole.mpr hdone) hframes hbehind
  · have hpos : 0 < (m.opened .headers (length - rest.length)).frames.remaining := by
      simp only [opened]
      omega
    rw [if_pos hpos, Outcome.andThen_ok, drop_of_cut hdone, drain_nil]
    exact .cut hviolation (fun hw => hdone (hwhole.mp hw)) hdone

/-- A body's frame is read up to its length. -/
theorem reads_data (hheader : headerViolation limit peer before .data length = none) :
    Reads limit peer declared before ⟨.data, length, rest.take length⟩ (rest.drop length)
      ((m.opened .data length).drain declared rest).state := by
  have hviolation := violation_data declared hheader (rest.take length)
  have hwhole := whole_iff .data length rest
  have hpiece := pieceOutcome_data h (length - rest.length) (rest.take length)
  rw [drain_opened m .data hlength hrest]
  by_cases hover : (declaredLength declared before).any
      (· < bodyLength before + (rest.take length).length)
  · rw [if_pos hover] at hpiece hviolation
    rw [Outcome.andThen_state_error hpiece]
    exact .against hviolation
  · rw [if_neg hover] at hpiece hviolation
    rw [Outcome.andThen_state_ok hpiece]
    by_cases hdone : length - rest.length = 0
    · rw [hdone]
      refine .whole hviolation (hwhole.mpr hdone) rfl ?_
      refine h.data ⟨.data, length, rest.take length⟩ rfl (sectionCount_of_data hheader)
        (hwhole.mpr hdone) ?_
      intro n hn
      rw [hn] at hover
      simpa using hover
    · rw [drop_of_cut hdone, drain_nil]
      exact .cut hviolation (fun hw => hdone (hwhole.mp hw)) hdone

end Payload

/-- **One frame of the stream.** -/
theorem drain_frame (h : Behind limit peer declared before m) (hframes : m.frames = .empty)
    {stream rest : Bytes} {kind length : ℕ}
    (hheader : headerOf stream = some (kind, length, rest)) :
    Reads limit peer declared before ⟨⟨kind⟩, length, rest.take length⟩ (rest.drop length)
      (m.drain declared stream).state := by
  rw [drain_eq, hframes]
  obtain ⟨kind', length', rest', hheader', hnext⟩ | ⟨hnone, -⟩ :=
    Reader.next_empty (K := FrameType) stream
  · rw [hheader] at hheader'
    cases hheader'
    rw [hnext]
    simp only
    rw [show (Kind.fromWire kind : FrameType) = ⟨kind⟩ from rfl, pieceOutcome_header h]
    generalize (⟨kind⟩ : FrameType) = kind
    cases hviolation : headerViolation limit peer before kind length with
    | some code => exact .against (violation_of_header hviolation _)
    | none =>
      simp only
      by_cases hempty : kind = .headers ∧ length = 0
      · -- a field section of no bytes has no payload piece: its header completes it
        obtain ⟨rfl, rfl⟩ := hempty
        obtain ⟨m', hstate, hframes', hbehind⟩ :=
          h.headers ⟨.headers, 0, []⟩ rfl (sectionCount_of_headers hviolation) rfl
        have hsection : (m.opened .headers 0) =
            { m with frames := .empty, started := true, kind := .headers, fieldSection := [] } := by
          rw [opened, h.collected]
          rfl
        rw [if_pos ⟨rfl, rfl⟩, hsection, Outcome.andThen_state_ok hstate, List.take_zero]
        exact .whole (violation_of_ne_data declared hviolation (by decide) []) rfl hframes' hbehind
      · rw [if_neg hempty, Outcome.andThen_ok]
        by_cases hnone : length = 0 ∨ rest = []
        · have hread := reads_empty h hviolation hempty hnone
          have hpayload : rest.take length = [] := by
            rcases hnone with rfl | rfl
            · exact List.take_zero
            · exact List.take_nil
          rwa [hpayload]
        · obtain ⟨hlength, hrest⟩ := not_or.mp hnone
          by_cases hdata : kind = .data
          · subst hdata
            exact reads_data h hlength hrest hviolation
          · by_cases hheaders : kind = .headers
            · subst hheaders
              exact reads_headers h hlength hrest hviolation
            · exact reads_skipped h hlength hrest hviolation hheaders hdata
  · rw [hheader] at hnone
    cases hnone

/-! ## The stream as a whole -/

/-- The checks of `Message::finish`, by rule. -/
theorem finish_behind (h : Behind limit peer declared before m) {header : Pair} {left : Bytes}
    (hheader : header.isEmpty = true ↔ left = []) :
    finish { m with frames := ⟨header, 0⟩ } = verdict (endViolation declared before left) := by
  have hwhole : ¬ ∃ frame ∈ before, ¬ frame.Whole := fun ⟨frame, hmem, hcut⟩ =>
    hcut (h.whole frame hmem)
  unfold finish endViolation
  by_cases hleft : left = []
  · simp only [Reader.atBoundary, hheader.mpr hleft, hleft, hwhole, ne_eq, not_true, or_self,
      if_false, beq_self_eq_true, Bool.and_self, Bool.not_true, Bool.false_eq_true]
    have hphase : m.phase = .head ↔ sectionCount before = 0 := by
      rw [h.phase]
      match sectionCount before with
      | 0 => simp [phaseBehind]
      | 1 => simp [phaseBehind]
      | n + 2 => simp [phaseBehind]
    by_cases hcount : sectionCount before = 0
    · rw [if_pos (hphase.mpr hcount), if_pos hcount]
      rfl
    · rw [if_neg (fun hp => hcount (hphase.mp hp)), if_neg hcount, h.owed]
      cases declaredLength declared before with
      | none => rfl
      | some length =>
        have hshort : 0 < length - bodyLength before ↔ bodyLength before < length := by omega
        simp only [Option.map_some, Option.any_some, hshort, decide_eq_true_eq]
        split_ifs <;> rfl
  · have hopen : header.isEmpty = false := by
      rw [← Bool.not_eq_true, hheader]
      exact hleft
    simp [Reader.atBoundary, hopen, hleft, verdict]

/-- **A stream ends with its first violation**, wherever in it the reader stands. -/
theorem drain_verdict (h : Behind limit peer declared before m) (hframes : m.frames = .empty)
    (stream : Bytes) :
    (m.drain declared stream).state.bind finish =
      verdict (firstViolation limit peer declared (framesOf (K := FrameType) stream).2 before
        (framesOf stream).1) := by
  induction hlen : stream.length using Nat.strongRecOn generalizing m before stream with
  | ind n ih =>
    subst hlen
    match hheader : headerOf stream with
    | none =>
      obtain ⟨_, _, _, hsome, -⟩ | ⟨-, header, hnext, hempty⟩ :=
        Reader.next_empty (K := FrameType) stream
      · rw [hheader] at hsome
        cases hsome
      · rw [framesOf_none hheader, drain_eq, hframes, hnext]
        exact finish_behind h hempty
    | some (kind, length, rest) =>
      have hlt := length_lt_of_headerOf hheader
      rw [framesOf_some hheader]
      simp only [firstViolation]
      have hread := drain_frame h hframes hheader
      generalize (m.drain declared stream).state = state at hread
      rw [show (Kind.fromWire kind : FrameType) = ⟨kind⟩ from rfl]
      cases hread with
      | against hviolation => rw [hviolation]; rfl
      | whole hviolation _ hframes' hbehind =>
        rw [hviolation]
        exact ih _ (by rw [List.length_drop]; omega) hbehind hframes' _ rfl
      | cut hviolation hcut hwaiting =>
        -- the frame is the last of the stream, and only its end is against a rule
        have hnil : rest.drop length = [] := by
          apply List.drop_of_length_le
          by_contra hlong
          apply hcut
          simp only [Frame.Whole, List.length_take]
          omega
        rw [hviolation, hnil, framesOf_nil]
        rename_i m'
        have hopen : m'.frames.atBoundary = false := by
          simp [Reader.atBoundary, hwaiting]
        have hend : endViolation declared
            (before ++ [⟨⟨kind⟩, length, rest.take length⟩]) [] = some .h3FrameError :=
          if_pos (.inr ⟨_, List.mem_append_right _ (List.mem_singleton_self _), hcut⟩)
        simp only [firstViolation, hend]
        simp [Except.bind, finish, hopen, verdict]

end Message

end GraphiteMeter.Http3
