import GraphiteMeter.Http3.Control

/-!
# What a control stream may hold

What the frames of a control stream that is accepted look like, said about the frames and not about the
reader (`Admitted`): SETTINGS first and once, its settings acceptable, and a server's GOAWAY identifiers
multiples of 4 that never rise. `Behind` ties the reader between two frames to the frames it has read;
`Reads` carries it over one frame, `read_frames` over the stream, and `control_stream` says it of any
chunks.

Reference: `rust/http3/src/driver.rs` (`ControlReader`), `rust/http3/src/settings.rs`.
-/

namespace GraphiteMeter.Http3.ControlReader

open Chunked

/-- The identifier of a whole GOAWAY frame a server sent. -/
def goawayId (peer : Role) (frame : Frame FrameType) : Option ℕ :=
  if frame.kind = .goaway ∧ peer = .server ∧ frame.Whole then
    (Varint.decode frame.payload).map (·.1)
  else none

def goawayIds (peer : Role) (frames : List (Frame FrameType)) : List ℕ :=
  frames.filterMap (goawayId peer)

/-- What a whole frame tells the caller. -/
def eventsOf (peer : Role) (frame : Frame FrameType) : List ControlEvent :=
  if ¬ frame.Whole then []
  else if frame.kind = .settings then
    [.settings (Settings.peerOf (Settings.pairsOf frame.payload).1)]
  else if frame.kind = .goaway ∧ peer = .server then [.goaway]
  else []

/-- The settings of a frame are acceptable, and a whole frame ends with the last of them. -/
structure SettingsFrame (frame : Frame FrameType) : Prop where
  kind : frame.kind = .settings
  acceptable : Settings.Acceptable (Settings.pairsOf frame.payload).1
  complete : frame.Whole → (Settings.pairsOf frame.payload).2 = []

/-- The frames of a control stream that is accepted so far. -/
structure Admitted (peer : Role) (frames : List (Frame FrameType)) : Prop where
  first : ∀ frame ∈ frames.head?, SettingsFrame frame
  rest : ∀ frame ∈ frames.tail, frame.kind ≠ .settings
  named : ∀ frame ∈ frames, frame.kind = .goaway → frame.Whole →
    ∃ id, Varint.decode frame.payload = some (id, frame.payload.length)
  aligned : ∀ id ∈ goawayIds peer frames, id % 4 = 0
  falling : (goawayIds peer frames).Pairwise (· ≥ ·)

/-- The reader has read these frames, all of them whole. -/
structure Behind (peer : Role) (before : List (Frame FrameType)) (c : ControlReader) : Prop where
  admitted : Admitted peer before
  started : c.started = !before.isEmpty
  settings : c.settings = none
  value : c.value = .empty
  goaway : c.goaway = (goawayIds peer before).getLast?

variable {event : ControlEvent → Except Code Unit} {peer : Role}
  {before : List (Frame FrameType)} {frame : Frame FrameType} {c c' : ControlReader}

/-- A new reader has read no frame. -/
theorem behind_empty : Behind peer [] empty :=
  ⟨⟨nofun, nofun, nofun, nofun, List.Pairwise.nil⟩, rfl, rfl, rfl, rfl⟩

/-! ## One frame more -/

/-- Only settings and a server's goodbye tell anything. -/
theorem eventsOf_eq_nil (hkind : frame.kind ≠ .settings)
    (hgoaway : ¬ (frame.kind = .goaway ∧ peer = .server)) : eventsOf peer frame = [] := by
  rw [eventsOf, if_neg hkind, if_neg hgoaway]
  split <;> rfl

/-- Only a server's goodbye has an identifier. -/
theorem goawayId_eq_none (hgoaway : ¬ (frame.kind = .goaway ∧ peer = .server)) :
    goawayId peer frame = none := by
  rw [goawayId, if_neg fun h => hgoaway ⟨h.1, h.2.1⟩]

/-- Settings have no such identifier. -/
theorem SettingsFrame.goawayId_eq_none (h : SettingsFrame frame) : goawayId peer frame = none := by
  apply ControlReader.goawayId_eq_none
  rw [h.kind]
  exact fun hgoaway => absurd hgoaway.1 (by decide)

/-- The first frame is SETTINGS. -/
theorem admitted_first (h : SettingsFrame frame) : Admitted peer [frame] where
  first := by
    rintro _ ⟨⟩
    exact h
  rest := nofun
  named := by
    intro frame' hmem hgoaway
    rw [List.mem_singleton.mp hmem, h.kind] at hgoaway
    exact absurd hgoaway (by decide)
  aligned := by simp [goawayIds, h.goawayId_eq_none]
  falling := by simp [goawayIds, h.goawayId_eq_none]

/-- A later frame is not SETTINGS, and its GOAWAY names no more than the last. -/
theorem Admitted.concat (h : Admitted peer before) (hne : before ≠ [])
    (hkind : frame.kind ≠ .settings)
    (hnamed : frame.kind = .goaway → frame.Whole →
      ∃ id, Varint.decode frame.payload = some (id, frame.payload.length))
    (hid : ∀ id ∈ goawayId peer frame, id % 4 = 0 ∧ ∀ last ∈ (goawayIds peer before).getLast?,
      id ≤ last) :
    Admitted peer (before ++ [frame]) where
  first := by
    rw [List.head?_append_of_ne_nil _ hne]
    exact h.first
  rest := by
    rw [List.tail_append_of_ne_nil hne]
    intro frame' hmem
    rcases List.mem_append.mp hmem with hmem | hmem
    · exact h.rest frame' hmem
    · rw [List.mem_singleton.mp hmem]
      exact hkind
  named := by
    intro frame' hmem
    rcases List.mem_append.mp hmem with hmem | hmem
    · exact h.named frame' hmem
    · rw [List.mem_singleton.mp hmem]
      exact hnamed
  aligned := by
    intro id hmem
    rw [goawayIds, List.filterMap_append] at hmem
    rcases List.mem_append.mp hmem with hmem | hmem
    · exact h.aligned id hmem
    · exact (hid id (by simpa using hmem)).1
  falling := by
    rw [goawayIds, List.filterMap_append, ← goawayIds, List.pairwise_append]
    refine ⟨h.falling, ?_, ?_⟩
    · cases hgoaway : goawayId peer frame <;> simp [hgoaway]
    · intro a ha id hmem
      have hmem' : id ∈ goawayId peer frame := by simpa using hmem
      rcases List.eq_nil_or_concat (goawayIds peer before) with hnil | ⟨ids, last, hids⟩
      · rw [hnil] at ha
        cases ha
      · -- the new ID is at most the last one, and so at most all of them
        have hle := (hid id hmem').2 last (by rw [hids]; simp)
        have hfalling := h.falling
        rw [hids, List.concat_eq_append] at ha hfalling
        rcases List.mem_append.mp ha with ha | ha
        · exact Nat.le_trans hle ((List.pairwise_append.mp hfalling).2.2 a ha last (by simp))
        · rw [List.mem_singleton.mp ha]
          exact hle

/-! ## The payload of a frame -/

/-- Behind its header, a frame's payload is read in one piece, as far as the stream holds it. -/
theorem read_opened (event : ControlEvent → Except Code Unit) (peer : Role) (c : ControlReader)
    {length : ℕ} (hlength : length ≠ 0) (rest : Bytes) :
    (rest = [] ∧ read event peer { c with frames := ⟨.empty, length⟩ } rest =
        .start { c with frames := ⟨.empty, length⟩ }) ∨
      (rest ≠ [] ∧ read event peer { c with frames := ⟨.empty, length⟩ } rest =
        (piece event peer { c with frames := ⟨.empty, length - rest.length⟩ }
          (.payload (rest.take length))).andThen fun c' =>
            read event peer c' (rest.drop length)) := by
  match rest with
  | [] => exact .inl ⟨rfl, read_nil _ _ _⟩
  | b :: rest =>
    right
    obtain ⟨n, rfl⟩ : ∃ n, length = n + 1 := ⟨length - 1, by omega⟩
    refine ⟨List.cons_ne_nil _ _, ?_⟩
    rw [read_eq, Reader.next_payload (Nat.succ_ne_zero n)]
    simp only [Nat.add_sub_cancel, List.take_succ_cons, List.drop_succ_cons, List.length_cons]
    rw [show n + 1 - (rest.length + 1) = n - rest.length by omega]

/-! ## A frame -/

/-- How a stream that is accepted goes on behind the header of a frame: over the whole frame, which
told the caller what it holds, or to its own end inside the frame, with nothing told. -/
inductive Reads (event : ControlEvent → Except Code Unit) (peer : Role)
    (before : List (Frame FrameType)) (frame : Frame FrameType) (left : Bytes)
    (outcome : Outcome Code ControlReader ControlEvent) : Prop
  | whole (hwhole : frame.Whole) (c : ControlReader) (hbehind : Behind peer (before ++ [frame]) c)
      (hframes : c.frames = .empty)
      (heq : outcome = (⟨eventsOf peer frame, .ok c⟩ : Outcome _ _ _).andThen fun c =>
        read event peer c left)
  | cut (hcut : ¬ frame.Whole) (hadmitted : Admitted peer (before ++ [frame])) (hleft : left = [])
      (hevents : outcome.events = [])

/-- A frame that is read is admitted behind the others. -/
theorem Reads.admitted {left : Bytes} {outcome : Outcome Code ControlReader ControlEvent}
    (h : Reads event peer before frame left outcome) : Admitted peer (before ++ [frame]) := by
  cases h with
  | whole hwhole c hbehind hframes heq => exact hbehind.admitted
  | cut hcut hadmitted hleft hevents => exact hadmitted

/-- The payload of a frame is whole where the stream is long enough. -/
theorem whole_take {kind : FrameType} {length : ℕ} {rest : Bytes} :
    (⟨kind, length, rest.take length⟩ : Frame FrameType).Whole ↔ length ≤ rest.length := by
  rw [Frame.Whole, List.length_take]
  dsimp only
  omega

/-- The settings of the first frame were told. -/
theorem reads_told (frame : Frame FrameType) (h : Behind peer [] c)
    (hframe : SettingsFrame frame) (hwhole : frame.Whole) {left : Bytes} {c₀ : ControlReader}
    (hc₀ : c₀ = { c with frames := .empty, started := true, settings := none })
    (hstate : ((emit event c₀
      (.settings (Settings.peerOf (Settings.pairsOf frame.payload).1))).andThen fun c =>
        read event peer c left).state = .ok c') :
    Reads event peer [] frame left ((emit event c₀
      (.settings (Settings.peerOf (Settings.pairsOf frame.payload).1))).andThen fun c =>
        read event peer c left) := by
  have hevents : eventsOf peer frame =
      [.settings (Settings.peerOf (Settings.pairsOf frame.payload).1)] := by
    rw [eventsOf, if_neg (not_not.mpr hwhole), if_pos hframe.kind]
  match hevent : event (.settings (Settings.peerOf (Settings.pairsOf frame.payload).1)) with
  | .error code =>
    simp only [emit, hevent, Except.map, Outcome.andThen_error] at hstate
    cases hstate
  | .ok () =>
    apply Reads.whole hwhole c₀
    · subst hc₀
      refine ⟨admitted_first hframe, rfl, rfl, h.value, ?_⟩
      rw [h.goaway]
      simp [goawayIds, hframe.goawayId_eq_none]
    · rw [hc₀]
    · rw [hevents, emit, hevent]
      rfl

/-- The first frame is read as settings. -/
theorem reads_settings (h : Behind peer [] c) {length : ℕ} {rest : Bytes}
    (hstate : ((settled event { c with frames := ⟨.empty, length⟩, started := true }
      (Settings.Reader.read ⟨.empty, length, [], .empty⟩ [])).andThen fun c =>
        read event peer c rest).state = .ok c') :
    Reads event peer [] ⟨.settings, length, rest.take length⟩ (rest.drop length)
      ((settled event { c with frames := ⟨.empty, length⟩, started := true }
        (Settings.Reader.read ⟨.empty, length, [], .empty⟩ [])).andThen fun c =>
          read event peer c rest) := by
  have hnone : Settings.pairsOf [] = ([], []) := Settings.pairsOf_none rfl
  have hnil : Settings.Acceptable [] := ⟨List.nodup_nil, nofun, Nat.zero_le _, nofun⟩
  by_cases hlength : length = 0
  · -- an empty frame holds no setting
    subst hlength
    have hread : Settings.Reader.read ⟨.empty, 0, [], .empty⟩ [] =
        .ok (some (Settings.peerOf (Settings.pairsOf []).1), ⟨.empty, 0, [], .empty⟩) := by
      simp only [Settings.Reader.read, Settings.Reader.drainPairs_nil, List.length_nil, hnone]
      rfl
    simp only [hread, settled, List.take_zero, List.drop_zero] at hstate ⊢
    exact reads_told ⟨.settings, 0, []⟩ h
      ⟨rfl, by rw [hnone]; exact hnil, fun _ => by rw [hnone]⟩ rfl rfl hstate
  · have hread : Settings.Reader.read ⟨.empty, length, [], .empty⟩ [] =
        .ok (none, ⟨.empty, length, [], .empty⟩) := by
      obtain ⟨n, rfl⟩ : ∃ n, length = n + 1 := ⟨length - 1, by omega⟩
      simp only [Settings.Reader.read, Settings.Reader.drainPairs_nil, List.length_nil,
        Nat.sub_zero]
    simp only [hread, settled, Outcome.andThen_ok, List.nil_append] at hstate ⊢
    obtain ⟨rfl, hopened⟩ | ⟨hrest, hopened⟩ := read_opened event peer
      { c with started := true, settings := some ⟨.empty, length, [], .empty⟩ } hlength rest
    · rw [hopened]
      refine .cut ?_ (admitted_first ⟨rfl, ?_, ?_⟩) (List.drop_nil) rfl
      · rw [whole_take, List.length_nil]
        omega
      · rw [List.take_nil, hnone]
        exact hnil
      · intro _
        rw [List.take_nil, hnone]
    · rw [hopened] at hstate ⊢
      simp only [piece] at hstate ⊢
      have hle : (rest.take length).length ≤ length := by
        rw [List.length_take]
        omega
      obtain ⟨code, hpart⟩ | ⟨hacceptable, ⟨hwhole, hend, r, hpart⟩ | ⟨hcut, r, hpart⟩⟩ :=
        Settings.read_part hle
      · simp only [hpart, settled, Outcome.andThen_error] at hstate
        cases hstate
      · have hzero : length - rest.length = 0 := by
          rw [List.length_take] at hwhole
          omega
        simp only [hpart, settled, hzero] at hstate ⊢
        exact reads_told ⟨.settings, length, rest.take length⟩ h ⟨rfl, hacceptable, fun _ => hend⟩
          hwhole rfl hstate
      · have hleft : rest.drop length = [] := by
          rw [List.length_take] at hcut
          exact List.drop_of_length_le (by omega)
        refine .cut hcut (admitted_first ⟨rfl, hacceptable, fun hwhole => absurd hwhole hcut⟩) hleft
          ?_
        simp only [hpart, settled, hleft, read_nil, Outcome.andThen_start]

/-- SETTINGS, the first frame. -/
theorem reads_first (h : Behind peer [] c) {kind : FrameType} {length : ℕ} {rest : Bytes}
    (hstate : ((first event { c with frames := ⟨.empty, length⟩ } kind length).andThen fun c =>
      read event peer c rest).state = .ok c') :
    Reads event peer [] ⟨kind, length, rest.take length⟩ (rest.drop length)
      ((first event { c with frames := ⟨.empty, length⟩ } kind length).andThen fun c =>
        read event peer c rest) := by
  unfold first at hstate ⊢
  by_cases hkind : kind = .settings
  · rw [if_neg (not_not.mpr hkind)] at hstate ⊢
    unfold Settings.Reader.new at hstate ⊢
    by_cases hlong : Settings.maxLength < length
    · simp only [if_pos hlong] at hstate
      cases hstate
    · subst hkind
      simp only [if_neg hlong] at hstate ⊢
      exact reads_settings h hstate
  · rw [if_pos hkind] at hstate
    cases hstate

/-- Behind SETTINGS no further SETTINGS is admitted, and a one-varint frame holds something. -/
theorem header_admits {kind : FrameType} {length : ℕ} (h : c.header kind length peer = .ok c') :
    kind ≠ .settings ∧ (kind ∈ oneVarint → length ≠ 0) := by
  unfold header at h
  split at h
  · cases h
  split at h
  · cases h
  split at h
  · cases h
  rename_i hlength
  split at h
  · cases h
  rename_i hkind
  constructor
  · rintro rfl
    exact hkind (by simp)
  · intro hone hzero
    apply hlength
    refine ⟨hone, ?_⟩
    omega

/-- What a part of a payload is, that is no failure: of no concern here, an incomplete varint, a whole
one, or a whole identifier of a server's GOAWAY. -/
theorem readValue_cases (hvalue : c.value = .empty) {payload : Bytes} {id : Option ℕ}
    (h : c.readValue payload peer = .ok (id, c')) :
    (c.kind ∉ oneVarint ∧ id = none ∧ c' = c) ∨
      (c.kind ∈ oneVarint ∧ c.frames.remaining ≠ 0 ∧ id = none) ∨
      (c.kind ∈ oneVarint ∧ c.frames.remaining = 0 ∧
        ∃ value, Varint.decode payload = some (value, payload.length) ∧
          ((¬ (c.kind = .goaway ∧ peer = .server) ∧ id = none ∧ c' = c) ∨
            (c.kind = .goaway ∧ peer = .server ∧ value % 4 = 0 ∧ (∀ last ∈ c.goaway, value ≤ last) ∧
              id = some value ∧ c' = { c with goaway := some value }))) := by
  unfold readValue at h
  by_cases hkind : c.kind ∉ oneVarint
  · rw [if_pos hkind] at h
    cases h
    exact .inl ⟨hkind, rfl, rfl⟩
  rw [if_neg hkind] at h
  rw [not_not] at hkind
  right
  rw [hvalue] at h
  obtain ⟨value, used, hdecode, hread⟩ | ⟨-, hwait, hread⟩ := Varint.Partial.empty.read_eq payload
  · right
    -- a value that was read in full must end the payload, or the frame is refused
    have hdecode' : Varint.decode payload = some (value, used) := hdecode
    have hread' : Varint.Partial.empty.read payload = (some value, .empty, payload.drop used) := hread
    simp only [hread', Option.isSome_some] at h
    split at h
    · cases h
    rename_i hends
    obtain ⟨hall, hzero⟩ := not_or.mp hends
    rw [not_not] at hall hzero
    have hzero' : c.frames.remaining = 0 := of_decide_eq_true hzero.symm
    have hused : used = payload.length := by
      have hle := (Varint.decode_bounds hdecode').2
      have hdrop := List.drop_eq_nil_iff.mp hall
      omega
    subst hused
    have hsame : ({ c with value := .empty } : ControlReader) = c := by rw [← hvalue]
    refine ⟨hkind, hzero', value, hdecode', ?_⟩
    by_cases hgoaway : c.kind = .goaway ∧ peer = .server
    · right
      simp only [Option.filter_some, hgoaway, and_self, decide_true, if_true, takeGoaway] at h
      split at h
      · cases h
      rename_i hid
      obtain ⟨hfour, hlast⟩ := not_or.mp hid
      rw [not_not] at hfour
      cases h
      refine ⟨hgoaway.1, hgoaway.2, hfour, ?_, rfl, ?_⟩
      · intro last hmem
        rw [Option.mem_def.mp hmem] at hlast
        simpa using hlast
      · rw [← hgoaway.1, ← hvalue]
    · left
      simp only [Option.filter_some, hgoaway, decide_false, Bool.false_eq_true, if_false] at h
      cases h
      exact ⟨hgoaway, rfl, hsame⟩
  · left
    simp only [hread, Option.isSome_none, Option.filter_none] at h
    split at h
    · cases h
    rename_i hends
    obtain ⟨-, hzero⟩ := not_or.mp hends
    rw [not_not] at hzero
    cases h
    exact ⟨hkind, of_decide_eq_false hzero.symm, rfl⟩

/-- A frame that names no GOAWAY leaves the reader behind it as it was. -/
theorem Behind.skip (h : Behind peer before c) (hne : before ≠ []) (hkind : frame.kind ≠ .settings)
    (hnamed : frame.kind = .goaway → frame.Whole →
      ∃ id, Varint.decode frame.payload = some (id, frame.payload.length))
    (hnone : goawayId peer frame = none) (kind : FrameType) (frames : Reader FrameType) :
    Behind peer (before ++ [frame]) { c with kind, frames } where
  admitted := h.admitted.concat hne hkind hnamed (by simp [hnone])
  started := by
    rw [h.started]
    cases before with
    | nil => exact absurd rfl hne
    | cons => rfl
  settings := h.settings
  value := h.value
  goaway := by
    rw [h.goaway]
    simp [goawayIds, hnone]

/-- A GOAWAY is the last one read. -/
theorem Behind.goes (h : Behind peer before c) (hne : before ≠ []) (hkind : frame.kind ≠ .settings)
    {id : ℕ} (hdecode : Varint.decode frame.payload = some (id, frame.payload.length))
    (hid : goawayId peer frame = some id) (hfour : id % 4 = 0) (hle : ∀ last ∈ c.goaway, id ≤ last)
    (kind : FrameType) (frames : Reader FrameType) :
    Behind peer (before ++ [frame]) { c with kind, frames, goaway := some id } where
  admitted := by
    apply h.admitted.concat hne hkind (fun _ _ => ⟨id, hdecode⟩)
    intro id' hid'
    rw [hid] at hid'
    cases hid'
    exact ⟨hfour, h.goaway ▸ hle⟩
  started := by
    rw [h.started]
    cases before with
    | nil => exact absurd rfl hne
    | cons => rfl
  settings := h.settings
  value := h.value
  goaway := by simp [goawayIds, hid]

/-- A goodbye that is not whole has no identifier. -/
theorem goawayId_of_not_whole (h : ¬ frame.Whole) : goawayId peer frame = none := by
  rw [goawayId, if_neg fun hgoaway => h hgoaway.2.2]

/-- The stream ends inside a frame behind SETTINGS. -/
theorem Reads.cut_later (h : Behind peer before c) (hne : before ≠ [])
    (hkind : frame.kind ≠ .settings) (hcut : ¬ frame.Whole) {left : Bytes} (hleft : left = [])
    {outcome : Outcome Code ControlReader ControlEvent} (hevents : outcome.events = []) :
    Reads event peer before frame left outcome := by
  refine .cut hcut (h.admitted.concat hne hkind (fun _ hwhole => absurd hwhole hcut) ?_) hleft
    hevents
  rw [goawayId_of_not_whole hcut]
  exact nofun

/-- Behind the settings a payload is read as a value. -/
theorem piece_of_none (hnone : c.settings = none) (payload : Bytes) :
    piece event peer c (.payload payload) =
      match c.readValue payload peer with
      | .error code => ⟨[], .error code⟩
      | .ok (none, c) => ⟨[], .ok c⟩
      | .ok (some _, c) => emit event c .goaway := by
  obtain ⟨frames, settings, started, kind, value, goaway⟩ := c
  dsimp only at hnone
  subst hnone
  rfl

/-- The payload of a frame behind SETTINGS. -/
theorem reads_payload (h : Behind peer before c) (hne : before ≠ []) {kind : FrameType}
    (hkind : kind ≠ .settings) {length : ℕ} (hlength : length ≠ 0) {rest : Bytes}
    (hstate : (read event peer { c with frames := ⟨.empty, length⟩, kind } rest).state = .ok c') :
    Reads event peer before ⟨kind, length, rest.take length⟩ (rest.drop length)
      (read event peer { c with frames := ⟨.empty, length⟩, kind } rest) := by
  obtain ⟨rfl, hopened⟩ | ⟨hrest, hopened⟩ := read_opened event peer
    { c with kind } hlength rest
  · rw [hopened]
    refine Reads.cut_later h hne hkind ?_ List.drop_nil rfl
    rw [whole_take, List.length_nil]
    omega
  have hleft : length - rest.length ≠ 0 → rest.drop length = [] :=
    fun hcut => List.drop_of_length_le (by omega)
  obtain ⟨d, hd⟩ : ∃ d : ControlReader,
      d = { c with kind, frames := ⟨.empty, length - rest.length⟩ } := ⟨_, rfl⟩
  have hdkind : d.kind = kind := by rw [hd]
  have hdrem : d.frames.remaining = length - rest.length := by rw [hd]
  dsimp only at hopened
  rw [hopened, ← hd, piece_of_none (by rw [hd]; exact h.settings)] at hstate
  rw [hopened, ← hd, piece_of_none (by rw [hd]; exact h.settings)]
  match hread : d.readValue (rest.take length) peer with
  | .error code =>
    rw [hread] at hstate
    cases hstate
  | .ok (id, c₂) =>
    rw [hread] at hstate
    obtain ⟨hother, rfl, rfl⟩ | ⟨hone, hcut, rfl⟩ | ⟨hone, hzero, value, hdecode, hcase⟩ :=
      readValue_cases (by rw [hd]; exact h.value) hread
    · -- a payload of no concern here
      rw [hdkind] at hother
      have hgoaway : kind ≠ .goaway := by
        rintro rfl
        exact hother (by simp [oneVarint])
      by_cases hzero : length - rest.length = 0
      · refine .whole (whole_take.mpr (by omega)) c₂ ?_ ?_ ?_
        · rw [hd]
          exact h.skip hne hkind (fun hk => absurd hk hgoaway)
            (goawayId_eq_none fun hk => hgoaway hk.1) kind _
        · rw [hd, hzero]
          rfl
        · rw [eventsOf_eq_nil hkind fun hk => hgoaway hk.1]
      · refine Reads.cut_later h hne hkind (by rw [whole_take]; omega) (hleft hzero) ?_
        simp only [hleft hzero, read_nil, Outcome.andThen_start]
    · rw [hdrem] at hcut
      refine Reads.cut_later h hne hkind (by rw [whole_take]; omega) (hleft hcut) ?_
      simp only [hleft hcut, read_nil, Outcome.andThen_start]
    · rw [hdrem] at hzero
      have hwhole : (⟨kind, length, rest.take length⟩ : Frame FrameType).Whole :=
        whole_take.mpr (by omega)
      rw [hdkind] at hcase
      obtain ⟨hgoaway, rfl, rfl⟩ | ⟨rfl, rfl, hfour, hle, rfl, rfl⟩ := hcase
      · refine .whole hwhole c₂ ?_ ?_ ?_
        · rw [hd]
          exact h.skip hne hkind (fun _ _ => ⟨value, hdecode⟩) (goawayId_eq_none hgoaway) kind _
        · rw [hd, hzero]
          rfl
        · rw [eventsOf_eq_nil hkind hgoaway]
      · -- a server's GOAWAY is told, and the caller takes it
        have hevents : eventsOf .server ⟨.goaway, length, rest.take length⟩ = [.goaway] := by
          rw [eventsOf, if_neg (not_not.mpr hwhole), if_neg hkind, if_pos ⟨rfl, rfl⟩]
        have hid : goawayId .server ⟨.goaway, length, rest.take length⟩ = some value := by
          rw [goawayId, if_pos ⟨rfl, rfl, hwhole⟩]
          simp only [hdecode, Option.map_some]
        match hevent : event .goaway with
        | .error code =>
          simp only [emit, hevent, Except.map, Outcome.andThen_error] at hstate
          cases hstate
        | .ok () =>
          refine .whole hwhole { d with kind := .goaway, goaway := some value } ?_ ?_ ?_
          · rw [hd] at hle ⊢
            exact h.goes hne hkind hdecode hid hfour hle .goaway _
          · rw [hd, hzero]
            rfl
          · rw [hevents]
            simp only [emit, hevent]
            rfl

/-- A frame behind SETTINGS. -/
theorem reads_later (h : Behind peer before c) (hne : before ≠ []) {kind : FrameType} {length : ℕ}
    {rest : Bytes}
    (hstate : ((⟨[], header { c with frames := ⟨.empty, length⟩ } kind length peer⟩ :
      Outcome Code ControlReader ControlEvent).andThen fun c =>
        read event peer c rest).state = .ok c') :
    Reads event peer before ⟨kind, length, rest.take length⟩ (rest.drop length)
      ((⟨[], header { c with frames := ⟨.empty, length⟩ } kind length peer⟩ :
        Outcome Code ControlReader ControlEvent).andThen fun c => read event peer c rest) := by
  match hheader : header { c with frames := ⟨.empty, length⟩ } kind length peer with
  | .error code =>
    rw [hheader] at hstate
    cases hstate
  | .ok c₁ =>
    obtain ⟨hkind, hone⟩ := header_admits hheader
    rw [hheader] at hstate
    obtain rfl := header_keeps hheader
    rw [Outcome.andThen_ok] at hstate ⊢
    dsimp only at hstate ⊢
    by_cases hlength : length = 0
    · subst hlength
      have hgoaway : ¬ (kind = .goaway ∧ peer = .server) := by
        rintro ⟨rfl, -⟩
        exact hone (by simp [oneVarint]) rfl
      refine .whole rfl _ (h.skip hne hkind ?_ (goawayId_eq_none hgoaway) kind .empty) rfl ?_
      · rintro rfl
        exact absurd rfl (hone (by simp [oneVarint]))
      · rw [eventsOf_eq_nil hkind hgoaway, List.drop_zero]
        rfl
    · exact reads_payload h hne hkind hlength hstate

/-! ## A stream -/

/-- **A stream that is accepted** holds admitted frames, and tells what the whole ones hold. -/
theorem read_frames (h : Behind peer before c) (hframes : c.frames = .empty) {stream : Bytes}
    (hstate : (read event peer c stream).state = .ok c') :
    Admitted peer (before ++ (framesOf stream).1) ∧
      (read event peer c stream).events = (framesOf stream).1.flatMap (eventsOf peer) := by
  induction hlen : stream.length using Nat.strongRecOn generalizing c before stream with
  | ind n ih =>
    subst hlen
    obtain ⟨kind, length, rest, hheader, hnext⟩ | ⟨hheader, header, hnext, -⟩ :=
      Reader.next_empty (K := FrameType) stream
    · have hreads : Reads event peer before ⟨Kind.fromWire kind, length, rest.take length⟩
          (rest.drop length) (read event peer c stream) := by
        rw [read_eq, hframes, hnext] at hstate ⊢
        unfold piece at hstate ⊢
        dsimp only at hstate ⊢
        by_cases hbefore : before = []
        · subst hbefore
          have hstarted : ¬ c.started = true := by simp [h.started]
          rw [if_neg hstarted] at hstate ⊢
          exact reads_first h hstate
        · have hstarted : c.started = true := by simp [h.started, hbefore]
          rw [if_pos hstarted] at hstate ⊢
          exact reads_later h hbefore hstate
      rw [framesOf_some hheader, List.append_cons, List.flatMap_cons]
      cases hreads with
      | whole hwhole c₁ hbehind hframes₁ heq =>
        have hlt := length_lt_of_headerOf hheader
        rw [heq, Outcome.andThen_ok] at hstate ⊢
        obtain ⟨hadmitted, hevents⟩ := ih (rest.drop length).length
          (by rw [List.length_drop]; omega) hbehind hframes₁ hstate rfl
        exact ⟨hadmitted, congrArg _ hevents⟩
      | cut hcut hadmitted hleft hevents =>
        rw [hleft, framesOf_nil, List.append_nil, hevents, eventsOf, if_pos hcut]
        exact ⟨hadmitted, rfl⟩
    · rw [framesOf_none hheader, List.append_nil, read_eq, hframes, hnext]
      exact ⟨h.admitted, rfl⟩

/-! ## What the caller is told of SETTINGS -/

/-- The settings among the events. -/
def settingsTold (events : List ControlEvent) : List Settings.Peer :=
  events.filterMap fun
    | .settings p => some p
    | .goaway => none

/-- A frame that is not SETTINGS tells none. -/
theorem settingsTold_eventsOf (peer : Role) (hkind : frame.kind ≠ .settings) :
    settingsTold (eventsOf peer frame) = [] := by
  rw [eventsOf, if_neg hkind]
  split
  · rfl
  split <;> rfl

/-- **Settings are told once**, of the first frame when it is whole. -/
theorem Admitted.settingsTold_eq {frames : List (Frame FrameType)} (h : Admitted peer frames) :
    settingsTold (frames.flatMap (eventsOf peer)) =
      (frames.head?.filter (·.Whole)).toList.map fun frame =>
        Settings.peerOf (Settings.pairsOf frame.payload).1 := by
  cases frames with
  | nil => rfl
  | cons frame frames =>
    have hkind : frame.kind = .settings := (h.first frame rfl).kind
    have hrest : settingsTold (frames.flatMap (eventsOf peer)) = [] := by
      rw [settingsTold, List.filterMap_eq_nil_iff]
      intro e he
      obtain ⟨frame', hmem, he⟩ := List.mem_flatMap.mp he
      have hnone := settingsTold_eventsOf peer (h.rest frame' hmem)
      exact List.filterMap_eq_nil_iff.mp hnone e he
    rw [List.flatMap_cons, settingsTold, List.filterMap_append, ← settingsTold, ← settingsTold,
      hrest, List.append_nil, eventsOf, List.head?_cons]
    by_cases hwhole : frame.Whole
    · rw [if_neg (not_not.mpr hwhole), if_pos hkind, Option.filter_some,
        if_pos (by simpa using hwhole)]
      rfl
    · rw [if_pos hwhole, Option.filter_some, if_neg (by simpa using hwhole)]
      rfl

/-- What is accepted of a stream, in chunks. -/
theorem readAll_admitted {chunks : List Bytes} (h : (readAll event peer chunks).2 = .ok ()) :
    Admitted peer (framesOf chunks.flatten).1 ∧
      (readAll event peer chunks).1 = (framesOf chunks.flatten).1.flatMap (eventsOf peer) := by
  rw [readAll_eq] at h ⊢
  dsimp only at h ⊢
  match hstate : (read event peer empty chunks.flatten).state with
  | .error code =>
    rw [hstate] at h
    cases h
  | .ok c => exact read_frames behind_empty rfl hstate

/-- **A control stream**: its chunks do not matter. Where it is accepted, its first frame is SETTINGS
and no other is, the caller is told the settings once when that frame is whole and never before, and
a server's GOAWAY identifiers are multiples of 4 that never rise. The settings of the first frame have
distinct identifiers, none of them reserved and at most 64, or the stream is refused; in another order
they are decoded to the same value. -/
theorem control_stream (event : ControlEvent → Except Code Unit) (peer : Role)
    (chunks : List Bytes) :
    (∀ chunks' : List Bytes, chunks'.flatten = chunks.flatten →
      readAll event peer chunks' = readAll event peer chunks) ∧
    ((readAll event peer chunks).2 = .ok () →
      (∀ frame ∈ (framesOf (K := FrameType) chunks.flatten).1.head?, frame.kind = .settings ∧
        (frame.Whole → ∃ p, Settings.decode frame.payload = .ok (some p) ∧
          settingsTold (readAll event peer chunks).1 = [p]) ∧
        (¬ frame.Whole → settingsTold (readAll event peer chunks).1 = [])) ∧
      ((framesOf (K := FrameType) chunks.flatten).1 = [] →
        settingsTold (readAll event peer chunks).1 = []) ∧
      (∀ frame ∈ (framesOf (K := FrameType) chunks.flatten).1.tail, frame.kind ≠ .settings) ∧
      (∀ frame ∈ (framesOf (K := FrameType) chunks.flatten).1, frame.kind = .goaway → frame.Whole →
        ∃ id, Varint.decode frame.payload = some (id, frame.payload.length)) ∧
      (∀ id ∈ goawayIds peer (framesOf chunks.flatten).1, id % 4 = 0) ∧
      (goawayIds peer (framesOf chunks.flatten).1).Pairwise (· ≥ ·)) ∧
    (∀ frame ∈ (framesOf (K := FrameType) chunks.flatten).1.head?,
      ¬ ((Settings.pairsOf frame.payload).1.map (·.1)).Nodup ∨
        (∃ pair ∈ (Settings.pairsOf frame.payload).1, Settings.Reserved pair.1) ∨
        64 < (Settings.pairsOf frame.payload).1.length →
      ∃ code, (readAll event peer chunks).2 = .error code) ∧
    (∀ payload payload' : Bytes, (Settings.pairsOf payload).2 = (Settings.pairsOf payload').2 →
      (Settings.pairsOf payload).1.Perm (Settings.pairsOf payload').1 →
      ((Settings.pairsOf payload).1.map (·.1)).Nodup →
      (Settings.decode payload).toOption = (Settings.decode payload').toOption) := by
  refine ⟨?_, ?_, ?_, fun _ _ => Settings.decode_perm⟩
  · intro chunks' hsame
    rw [readAll_eq, readAll_eq, hsame]
  · intro haccepted
    obtain ⟨hadmitted, hevents⟩ := readAll_admitted haccepted
    have htold := hadmitted.settingsTold_eq
    rw [← hevents] at htold
    refine ⟨?_, ?_, hadmitted.rest, hadmitted.named, hadmitted.aligned, hadmitted.falling⟩
    · intro frame hhead
      have hfirst := hadmitted.first frame hhead
      -- the settings are told once their frame is whole
      rw [Option.mem_def.mp hhead, Option.filter_some] at htold
      refine ⟨hfirst.kind, fun hwhole => ?_, fun hcut => ?_⟩
      · rw [if_pos (by simpa using hwhole)] at htold
        obtain ⟨-, -, hdecode⟩ | ⟨hbad, -⟩ := Settings.decode_cases frame.payload
        · exact ⟨_, hdecode, htold⟩
        · exact absurd ⟨hfirst.acceptable, hfirst.complete hwhole⟩ hbad
      · rw [if_neg (by simpa using hcut)] at htold
        exact htold
    · intro hnone
      rw [hnone] at htold
      exact htold
  · intro frame hhead hbad
    match hend : (readAll event peer chunks).2 with
    | .error code => exact ⟨code, rfl⟩
    | .ok () =>
      have hacceptable := ((readAll_admitted hend).1.first frame hhead).acceptable
      rcases hbad with hduplicate | ⟨pair, hpair, hreserved⟩ | hmany
      · exact absurd hacceptable.distinct hduplicate
      · exact absurd hreserved (hacceptable.unreserved pair hpair)
      · exact absurd hacceptable.few (Nat.not_le.mpr hmany)

/-- SETTINGS with one setting, then GOAWAY 8 and GOAWAY 4, cut inside the setting. -/
def fallingGoaways : List Bytes :=
  [[0x04, 0x02, 0x06], [0x05, 0x07, 0x01, 0x08, 0x07, 0x01, 0x04]]

/-- Settings and two goodbyes, the second of a lower identifier. -/
theorem control_stream_falling :
    (readAll (fun _ => .ok ()) .server fallingGoaways).2 = .ok () ∧
      settingsTold (readAll (fun _ => .ok ()) .server fallingGoaways).1 =
        [⟨some 5, false, false, false, false, false⟩] ∧
      goawayIds .server (framesOf fallingGoaways.flatten).1 = [8, 4] ∧
      readAll (fun _ => .ok ()) .server [fallingGoaways.flatten] =
        readAll (fun _ => .ok ()) .server fallingGoaways := by
  have haccepted : (readAll (fun _ => .ok ()) .server fallingGoaways).2 = .ok () := by
    decide +kernel
  have hframe : (framesOf (K := FrameType) fallingGoaways.flatten).1.head? =
      some ⟨.settings, 2, [0x06, 0x05]⟩ := by
    decide +kernel
  have hdecode : Settings.decode [0x06, 0x05] =
      .ok (some ⟨some 5, false, false, false, false, false⟩) := by
    decide +kernel
  obtain ⟨hchunks, hwhole, -, -⟩ := control_stream (fun _ => .ok ()) .server fallingGoaways
  obtain ⟨p, hp, htold⟩ := ((hwhole haccepted).1 _ hframe).2.1 rfl
  rw [hdecode] at hp
  cases hp
  refine ⟨haccepted, htold, by decide +kernel, ?_⟩
  exact hchunks [fallingGoaways.flatten] (by rw [List.flatten_singleton])

/-- A stream without a byte is accepted so far, and tells no settings. -/
theorem unsettled_while_empty :
    ¬ ∀ (event : ControlEvent → Except Code Unit) (peer : Role) (chunks : List Bytes),
      (readAll event peer chunks).2 = .ok () →
        (∃ frame ∈ (framesOf (K := FrameType) chunks.flatten).1.head?, frame.kind = .settings) ∧
          (settingsTold (readAll event peer chunks).1).length = 1 := by
  intro h
  obtain ⟨⟨frame, hhead, -⟩, -⟩ := h (fun _ => .ok ()) .server [] rfl
  rw [List.flatten_nil, framesOf_nil] at hhead
  cases hhead

end GraphiteMeter.Http3.ControlReader
