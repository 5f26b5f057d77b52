import GraphiteMeter.Http3.Varint

/-!
# Frames and their incremental reader

Reference: `rust/http3/src/frame.rs` (RFC 9114 §7.2) and the codes of `rust/http3/src/code.rs`.

`Pair.read` and `Reader.next` are resumable in the sense of `Chunked.Resumable` up to one point: a
payload is cut where its chunk is. `Reader.next_cons_header` covers the header bytes and
`Reader.next_payload` the payload.
-/

namespace GraphiteMeter.Http3

/-- An application error code, always a varint. -/
structure Code where
  wire : ℕ
deriving DecidableEq, Repr

namespace Code

def h3FrameUnexpected : Code := ⟨0x105⟩
def h3FrameError : Code := ⟨0x106⟩
def h3ExcessiveLoad : Code := ⟨0x107⟩
def h3IdError : Code := ⟨0x108⟩
def h3SettingsError : Code := ⟨0x109⟩
def h3MissingSettings : Code := ⟨0x10a⟩
def h3RequestIncomplete : Code := ⟨0x10d⟩
def h3MessageError : Code := ⟨0x10e⟩
def qpackDecompressionFailed : Code := ⟨0x200⟩
/-- A cancelled lane resets with this, WebTransport application code 0. -/
def wtCancelled : Code := ⟨0x52e4a40fa8db⟩

end Code

/-- A type leading a frame, a capsule or a unidirectional stream, each with its own space of varint
codes. -/
class Kind (K : Type) where
  fromWire : ℕ → K
  wire : K → ℕ

/-- A frame type. Peers may send ones not named here. -/
structure FrameType where
  code : ℕ
deriving DecidableEq, Repr, Inhabited

namespace FrameType

def data : FrameType := ⟨0x00⟩
def headers : FrameType := ⟨0x01⟩
def cancelPush : FrameType := ⟨0x03⟩
def settings : FrameType := ⟨0x04⟩
def pushPromise : FrameType := ⟨0x05⟩
def goaway : FrameType := ⟨0x07⟩
def maxPushId : FrameType := ⟨0x0d⟩
/-- Opens a peer's WebTransport bidirectional stream in place of a frame type. -/
def webtransportBidi : FrameType := ⟨0x41⟩

/-- The type is reserved for its HTTP/2 meaning, and receiving it is `H3_FRAME_UNEXPECTED`. -/
def isHttp2 (kind : FrameType) : Bool :=
  kind.code == 0x02 || kind.code == 0x06 || kind.code == 0x08 || kind.code == 0x09

end FrameType

instance : Kind FrameType := ⟨FrameType.mk, FrameType.code⟩

/-! ## Two varints in a row -/

/-- The header of a frame while it is being read: its first varint, then its second. -/
structure Pair where
  first : Option ℕ
  varint : Varint.Partial
deriving DecidableEq, Repr

namespace Pair

def empty : Pair := ⟨none, .empty⟩

def isEmpty (p : Pair) : Bool := p.first.isNone && p.varint.isEmpty

/-- Reads the second varint once the first is known. -/
def readSecond (first : ℕ) (varint : Varint.Partial) (input : Bytes) :
    Option (ℕ × ℕ) × Pair × Bytes :=
  match varint.read input with
  | (none, varint, rest) => (none, ⟨some first, varint⟩, rest)
  | (some second, varint, rest) => (some (first, second), ⟨none, varint⟩, rest)

def read (p : Pair) (input : Bytes) : Option (ℕ × ℕ) × Pair × Bytes :=
  match p.first with
  | some first => readSecond first p.varint input
  | none =>
    match p.varint.read input with
    | (none, varint, rest) => (none, ⟨none, varint⟩, rest)
    | (some first, varint, rest) => readSecond first varint rest

/-- A frame header reads the same however its bytes are cut. -/
theorem read_resumable : Chunked.Resumable read where
  nil p := by
    obtain ⟨_ | first, varint⟩ := p <;> simp [read, readSecond]
  cons p b rest := by
    obtain ⟨_ | first, varint⟩ := p
    · -- the first varint may end at `b`, and then the second starts with `rest`
      simp only [read, Varint.Partial.read_resumable.cons varint b rest]
      have hone := Varint.Partial.read_resumable.cons varint b []
      match hread : varint.read [b] with
      | (none, varint', _) => rfl
      | (some first, varint', left) =>
        have hleft : left = [] := by
          rw [hread] at hone
          exact congrArg (·.2.2) hone
        subst hleft
        simp only [readSecond, Varint.Partial.read_nil]
    · simp only [read, readSecond, Varint.Partial.read_resumable.cons varint b rest]
      match varint.read [b] with
      | (none, varint', _) => rfl
      | (some second, varint', _) => rfl

end Pair

/-! ## Frames -/

/-- What one step of a `Reader` finds: a frame's header, or a part of its payload. -/
inductive Piece (K : Type) where
  | header (kind : K) (length : ℕ)
  | payload (bytes : Bytes)
deriving DecidableEq, Repr

/-- Reads frames of kind `K`: the header being read, and how much of a payload remains. -/
structure Reader (K : Type) where
  header : Pair
  remaining : ℕ
deriving DecidableEq, Repr

namespace Reader

variable {K : Type}

def empty : Reader K := ⟨.empty, 0⟩

/-- Nothing of a frame is outstanding. -/
def atBoundary (r : Reader K) : Bool := r.remaining == 0 && r.header.isEmpty

/-- The next piece in `input`, the reader after it and the bytes left; `none` when `input` holds no
whole header, or nothing of an outstanding payload. -/
def next [Kind K] (r : Reader K) (input : Bytes) : Option (Piece K) × Reader K × Bytes :=
  if r.remaining = 0 then
    match r.header.read input with
    | (none, header, rest) => (none, ⟨header, r.remaining⟩, rest)
    | (some (kind, length), header, rest) =>
      (some (.header (Kind.fromWire kind) length), ⟨header, length⟩, rest)
  else if input.isEmpty then (none, r, input)
  else
    let take := min r.remaining input.length
    (some (.payload (input.take take)), ⟨r.header, r.remaining - take⟩, input.drop take)

variable [Kind K]

/-- No bytes give no piece. -/
theorem next_nil (r : Reader K) : r.next [] = (none, r, []) := by
  obtain ⟨header, remaining⟩ := r
  by_cases h : remaining = 0
  · simp [next, h, Pair.read_resumable.nil]
  · simp [next, h]

/-- Between payloads a chunk is its first byte followed by its rest. -/
theorem next_cons_header {r : Reader K} (h : r.remaining = 0) (b : UInt8) (rest : Bytes) :
    r.next (b :: rest) =
      match r.next [b] with
      | (none, r', _) => r'.next rest
      | (some piece, r', _) => (some piece, r', rest) := by
  simp only [next, h, if_true]
  rw [Pair.read_resumable.cons r.header b rest]
  match r.header.read [b] with
  | (none, header, _) => simp
  | (some (kind, length), header, _) => rfl

/-- Inside a payload the piece is what the chunk holds of it. -/
theorem next_payload {r : Reader K} (h : r.remaining ≠ 0) (b : UInt8) (rest : Bytes) :
    r.next (b :: rest) =
      (some (.payload (b :: rest.take (r.remaining - 1))),
        ⟨r.header, r.remaining - 1 - rest.length⟩, rest.drop (r.remaining - 1)) := by
  obtain ⟨n, hn⟩ : ∃ n, r.remaining = n + 1 := ⟨r.remaining - 1, by omega⟩
  have hmin : min (n + 1) (rest.length + 1) = min n rest.length + 1 := by omega
  simp only [next, hn, Nat.add_one_ne_zero, if_false, List.isEmpty_cons, Bool.false_eq_true,
    List.length_cons, hmin, List.take_succ_cons, List.drop_succ_cons, Nat.add_sub_cancel]
  have hdrop : rest.drop (min n rest.length) = rest.drop n := by
    by_cases hle : n ≤ rest.length
    · rw [Nat.min_eq_left hle]
    · rw [Nat.min_eq_right (by omega), List.drop_length, List.drop_of_length_le (by omega)]
  rw [← List.take_eq_take_min, hdrop,
    show n + 1 - (min n rest.length + 1) = n - rest.length by omega]

/-- A piece is a header between payloads, and inside one a part of what remains of it. -/
theorem next_some {r r' : Reader K} {input rest : Bytes} {piece : Piece K}
    (h : r.next input = (some piece, r', rest)) :
    (r.remaining = 0 ∧ ∃ kind length, piece = .header kind length ∧ r'.remaining = length) ∨
      (r.remaining ≠ 0 ∧
        ∃ bytes, piece = .payload bytes ∧ r.remaining = r'.remaining + bytes.length) := by
  unfold next at h
  by_cases hrem : r.remaining = 0
  · rw [if_pos hrem] at h
    left
    match hread : r.header.read input with
    | (none, header, left) =>
      rw [hread] at h
      cases h
    | (some (kind, length), header, left) =>
      rw [hread] at h
      cases h
      exact ⟨hrem, _, _, rfl, rfl⟩
  · rw [if_neg hrem] at h
    right
    by_cases hempty : input.isEmpty = true
    · rw [if_pos hempty] at h
      cases h
    · rw [if_neg hempty] at h
      cases h
      refine ⟨hrem, _, rfl, ?_⟩
      rw [List.length_take]
      dsimp only
      omega

/-- Inside a payload only an empty chunk holds no piece. -/
theorem next_none {r r' : Reader K} {input rest : Bytes} (h : r.next input = (none, r', rest))
    (hrem : r.remaining ≠ 0) : r' = r := by
  unfold next at h
  rw [if_neg hrem] at h
  split at h
  · cases h
    rfl
  · cases h

/-- Where there is no piece, what remains of a payload stays. -/
theorem remaining_of_next_none {r r' : Reader K} {input rest : Bytes}
    (h : r.next input = (none, r', rest)) : r'.remaining = r.remaining := by
  by_cases hrem : r.remaining = 0
  · unfold next at h
    rw [if_pos hrem] at h
    split at h
    · cases h
      rfl
    · cases h
  · rw [next_none h hrem]

/-- Every piece takes at least one byte. -/
theorem length_lt_of_next {r r' : Reader K} {input rest : Bytes} {piece : Piece K}
    (h : r.next input = (some piece, r', rest)) : rest.length < input.length := by
  match input with
  | [] =>
    rw [next_nil] at h
    cases h
  | b :: bs =>
    by_cases hrem : r.remaining = 0
    · simp only [next, hrem, if_true] at h
      match hread : r.header.read (b :: bs) with
      | (none, header, left) =>
        rw [hread] at h
        cases h
      | (some (kind, length), header, left) =>
        rw [hread] at h
        cases h
        exact Pair.read_resumable.length_lt hread
    · rw [next_payload hrem] at h
      cases h
      rw [List.length_drop, List.length_cons]
      omega

end Reader

/-! ## Readers on top of the frame reader

A reader that handles one piece after another keeps the frame reader in its state. If it handles a
payload as it does the payload's first byte and then the rest, it reads a chunk so as well.
-/

section Layer

open Chunked

variable {K : Type} [Kind K] {σ ε ι : Type} {frames : σ → Reader K} {put : σ → Reader K → σ}
  {piece : σ → Piece K → Outcome ε σ ι} {feed : σ → Bytes → Outcome ε σ ι}

/-- **A chunk cut after its first byte** gives the same events and the same state. -/
theorem feed_cons
    (hnone : ∀ s input f rest, (frames s).next input = (none, f, rest) →
      feed s input = .start (put s f))
    (hsome : ∀ s input p f rest, (frames s).next input = (some p, f, rest) →
      feed s input = (piece (put s f) p).andThen fun s' => feed s' rest)
    (hget : ∀ s f, frames (put s f) = f) (hput : ∀ s, put s (frames s) = s)
    (hputs : ∀ s f f', put (put s f) f' = put s f') {s : σ}
    (hkeeps : ∀ header remaining b s', frames s = ⟨header, remaining + 1⟩ →
      (piece (put s ⟨header, remaining⟩) (.payload [b])).state = .ok s' →
      frames s' = ⟨header, remaining⟩)
    (hcut : ∀ header remaining b q, q ≠ [] → frames s = ⟨header, remaining + q.length + 1⟩ →
      piece (put s ⟨header, remaining⟩) (.payload (b :: q)) =
        (piece (put s ⟨header, remaining + q.length⟩) (.payload [b])).andThen fun s' =>
          piece (put s' ⟨header, remaining⟩) (.payload q)) (b : UInt8) (rest : Bytes) :
    feed s (b :: rest) = (feed s [b]).andThen fun s' => feed s' rest := by
  have hnil : ∀ s, feed s [] = .start s := by
    intro s
    rw [hnone s [] _ _ (Reader.next_nil _), hput]
  by_cases hrem : (frames s).remaining = 0
  · -- header bytes: the reader goes on where it stopped
    have hcons := Reader.next_cons_header hrem b rest
    match hone : (frames s).next [b] with
    | (none, f, _) =>
      rw [hone] at hcons
      rw [hnone _ _ _ _ hone, Outcome.start_andThen]
      match hnext : f.next rest with
      | (none, f', left) =>
        rw [hnone _ _ _ _ (hcons.trans hnext), hnone (put s f) rest f' left (by rw [hget, hnext]),
          hputs]
      | (some p, f', left) =>
        rw [hsome _ _ _ _ _ (hcons.trans hnext),
          hsome (put s f) rest p f' left (by rw [hget, hnext]), hputs]
    | (some p, f, left) =>
      have hleft : left = [] := by
        have hlt := Reader.length_lt_of_next hone
        exact List.length_eq_zero_iff.mp (by simpa using hlt)
      subst hleft
      rw [hone] at hcons
      rw [hsome _ _ _ _ _ hcons, hsome _ _ _ _ _ hone]
      simp only [hnil, Outcome.andThen_start]
  · match rest with
    | [] => simp only [hnil, Outcome.andThen_start]
    | a :: rest =>
      obtain ⟨header, remaining, hframes⟩ :
          ∃ header remaining, frames s = ⟨header, remaining + 1⟩ :=
        ⟨(frames s).header, (frames s).remaining - 1, by
          rw [Nat.sub_add_cancel (Nat.pos_of_ne_zero hrem)]⟩
      have hinside : ∀ s n c rest, frames s = ⟨header, n + 1⟩ →
          feed s (c :: rest) =
            (piece (put s ⟨header, n - rest.length⟩) (.payload (c :: rest.take n))).andThen
              fun s' => feed s' (rest.drop n) := by
        intro s n c rest hs
        apply hsome
        rw [hs, Reader.next_payload (Nat.succ_ne_zero n)]
        rfl
      rw [hinside s remaining b (a :: rest) hframes, hinside s remaining b [] hframes]
      simp only [hnil, Outcome.andThen_start, List.take_nil, List.drop_nil, List.length_nil,
        Nat.sub_zero]
      match remaining with
      | 0 =>
        -- the payload ends with `b`
        simp only [Nat.zero_sub, List.take_zero, List.drop_zero]
      | n + 1 =>
        have hcount : n - rest.length + (a :: rest.take n).length = n + 1 := by
          rw [List.length_cons, List.length_take]
          omega
        have hcut' := hcut header (n - rest.length) b (a :: rest.take n) (List.cons_ne_nil _ _)
          (by rw [hframes, hcount])
        rw [hcount] at hcut'
        -- what follows `b` goes on inside the payload
        have hsecond : ∀ s', (piece (put s ⟨header, n + 1⟩) (.payload [b])).state = .ok s' →
            feed s' (a :: rest) =
              (piece (put s' ⟨header, n - rest.length⟩) (.payload (a :: rest.take n))).andThen
                fun s'' => feed s'' (rest.drop n) := by
          intro s' hs'
          exact hinside s' n a rest (hkeeps header (n + 1) b s' hframes hs')
        rw [List.take_succ_cons, List.drop_succ_cons, List.length_cons,
          Outcome.andThen_congr hsecond, ← Outcome.andThen_assoc, ← hcut',
          show n + 1 - (rest.length + 1) = n - rest.length by omega]

end Layer

/-! ## The frames of a whole stream

What a byte sequence holds, said without a reader: `headerOf` decodes the two integers that open a
frame, and `framesOf` goes on behind the payload they announce. -/

/-- The two integers that open a frame, and the bytes after them. -/
def headerOf (stream : Bytes) : Option (ℕ × ℕ × Bytes) :=
  match Varint.decode stream with
  | none => none
  | some (first, used) =>
    match Varint.decode (stream.drop used) with
    | none => none
    | some (second, used') => some (first, second, (stream.drop used).drop used')

/-- A frame with what its stream holds of the payload. -/
structure Frame (K : Type) where
  kind : K
  length : ℕ
  payload : Bytes
deriving DecidableEq, Repr

/-- The stream holds the whole payload. -/
def Frame.Whole {K : Type} (frame : Frame K) : Prop := frame.payload.length = frame.length

instance {K : Type} (frame : Frame K) : Decidable frame.Whole :=
  inferInstanceAs (Decidable (_ = _))

/-- A header takes at least one byte. -/
theorem length_lt_of_headerOf {stream rest : Bytes} {first second : ℕ}
    (h : headerOf stream = some (first, second, rest)) : rest.length < stream.length := by
  unfold headerOf at h
  split at h
  · cases h
  · rename_i value used hfirst
    split at h
    · cases h
    · cases h
      obtain ⟨hused, hle⟩ := Varint.decode_bounds hfirst
      have hpos := Varint.need_pos stream
      rw [List.length_drop, List.length_drop]
      omega

/-- The two integers take sixteen bytes at most. -/
theorem length_le_of_headerOf {stream rest : Bytes} {first second : ℕ}
    (h : headerOf stream = some (first, second, rest)) : stream.length ≤ rest.length + 16 := by
  unfold headerOf at h
  split at h
  · cases h
  · rename_i value used hfirst
    split at h
    · cases h
    · rename_i value' used' hsecond
      cases h
      have hused := (Varint.decode_bounds hfirst).1
      have hused' := (Varint.decode_bounds hsecond).1
      have hle := Varint.need_le stream
      have hle' := Varint.need_le (stream.drop used)
      rw [List.length_drop, List.length_drop]
      omega

/-- A frame's own bytes open the stream they begin. -/
theorem headerOf_append {type length : Bytes} {first second : ℕ}
    (htype : Varint.decode type = some (first, type.length))
    (hlength : Varint.decode length = some (second, length.length)) (rest : Bytes) :
    headerOf (type ++ (length ++ rest)) = some (first, second, rest) := by
  unfold headerOf
  rw [Varint.decode_append htype]
  simp only [List.drop_left]
  rw [Varint.decode_append hlength]
  simp only [List.drop_left]

/-- A header is two integers. -/
theorem exists_of_headerOf {stream rest : Bytes} {first second : ℕ}
    (h : headerOf stream = some (first, second, rest)) :
    ∃ type length, stream = type ++ (length ++ rest) ∧
      Varint.decode type = some (first, type.length) ∧
      Varint.decode length = some (second, length.length) := by
  unfold headerOf at h
  split at h
  · cases h
  · rename_i first used hfirst
    split at h
    · cases h
    · rename_i second used' hsecond
      cases h
      have htype : (stream.take used).length = used :=
        List.length_take_of_le (Varint.decode_bounds hfirst).2
      have hlength : ((stream.drop used).take used').length = used' :=
        List.length_take_of_le (Varint.decode_bounds hsecond).2
      refine ⟨stream.take used, (stream.drop used).take used', ?_, ?_, ?_⟩
      · rw [List.take_append_drop, List.take_append_drop]
      · rw [htype]
        exact Varint.decode_take hfirst
      · rw [hlength]
        exact Varint.decode_take hsecond

/-- The frames of a stream, of which the last may be cut short, and the bytes of a header that is
not complete. -/
def framesOf {K : Type} [Kind K] (stream : Bytes) : List (Frame K) × Bytes :=
  match _h : headerOf stream with
  | none => ([], stream)
  | some (kind, length, rest) =>
    let (frames, left) := framesOf (rest.drop length)
    (⟨Kind.fromWire kind, length, rest.take length⟩ :: frames, left)
termination_by stream.length
decreasing_by
  have := length_lt_of_headerOf _h
  rw [List.length_drop]
  omega

section Streams

variable {K : Type} [Kind K]

/-- Bytes without a header are left over. -/
theorem framesOf_none {stream : Bytes} (h : headerOf stream = none) :
    framesOf (K := K) stream = ([], stream) := by
  rw [framesOf]
  split <;> simp_all

/-- A frame is read before the others. -/
theorem framesOf_some {stream rest : Bytes} {kind length : ℕ}
    (h : headerOf stream = some (kind, length, rest)) :
    framesOf (K := K) stream =
      (⟨Kind.fromWire kind, length, rest.take length⟩ :: (framesOf (K := K) (rest.drop length)).1,
        (framesOf (K := K) (rest.drop length)).2) := by
  rw [framesOf]
  split <;> simp_all

@[simp] theorem framesOf_nil : framesOf (K := K) [] = ([], []) :=
  framesOf_none rfl

/-- Two integers are read as `headerOf` decodes them, or what there is of them is kept. -/
theorem Pair.read_empty (input : Bytes) :
    (∃ first second rest, headerOf input = some (first, second, rest) ∧
      Pair.empty.read input = (some (first, second), .empty, rest)) ∨
    (headerOf input = none ∧ ∃ pair, Pair.empty.read input = (none, pair, []) ∧
      (pair.isEmpty = true ↔ input = [])) := by
  obtain ⟨first, used, hfirst, hread⟩ | ⟨hfirst, hwait, hread⟩ := Varint.Partial.empty.read_eq input
  · -- the first is complete: the second follows it
    have hfirst' : Varint.decode input = some (first, used) := hfirst
    have hread' : Varint.Partial.empty.read input = (some first, .empty, input.drop used) := hread
    obtain ⟨second, used', hsecond, hread''⟩ | ⟨hsecond, hwait, hread''⟩ :=
      Varint.Partial.empty.read_eq (input.drop used)
    · left
      refine ⟨first, second, (input.drop used).drop used', ?_, ?_⟩
      · have hsecond' : Varint.decode (input.drop used) = some (second, used') := hsecond
        rw [headerOf, hfirst']
        simp only [hsecond']
      · simp only [Pair.read, Pair.empty, hread', Pair.readSecond, hread'']
        rfl
    · right
      have hsecond' : Varint.decode (input.drop used) = none := hsecond
      refine ⟨by rw [headerOf, hfirst']; simp only [hsecond'], ⟨some first, ⟨_, hwait⟩⟩, ?_, ?_⟩
      · simp only [Pair.read, Pair.empty, hread', Pair.readSecond, hread'']
      · refine ⟨fun h => by simp [Pair.isEmpty] at h, fun h => ?_⟩
        rw [h] at hfirst'
        cases hfirst'
  · right
    have hfirst' : Varint.decode input = none := hfirst
    refine ⟨by rw [headerOf, hfirst'], ⟨none, ⟨_, hwait⟩⟩, ?_, ?_⟩
    · simp only [Pair.read, Pair.empty, hread]
    · simp [Pair.isEmpty, Varint.Partial.isEmpty, Varint.Partial.empty]

/-- **A header is read as it is decoded**: between frames the reader finds the header that `headerOf`
does, or keeps what there is of one. -/
theorem Reader.next_empty (input : Bytes) :
    (∃ kind length rest, headerOf input = some (kind, length, rest) ∧
      (empty : Reader K).next input =
        (some (.header (Kind.fromWire kind) length), ⟨.empty, length⟩, rest)) ∨
    (headerOf input = none ∧ ∃ header : Pair,
      (empty : Reader K).next input = (none, ⟨header, 0⟩, []) ∧
        (header.isEmpty = true ↔ input = [])) := by
  obtain ⟨kind, length, rest, hheader, hread⟩ | ⟨hheader, header, hread, hempty⟩ :=
    Pair.read_empty input
  · exact .inl ⟨kind, length, rest, hheader, by simp only [next, empty, if_true, hread]⟩
  · exact .inr ⟨hheader, header, by simp only [next, empty, if_true, hread], hempty⟩

end Streams

end GraphiteMeter.Http3
