import GraphiteMeter.Http3.Encode
import Mathlib.Data.Nat.Find

/-!
# Capsules on a WebTransport session's CONNECT stream

Reference: `rust/http3/src/capsule.rs` (RFC 9297).

`Capsule.Reader.read` is the source's loop up to a CLOSE, and `Capsule.Reader.drain` what its callers do
with a chunk: they read until it holds no further one. The reader is a layer on the frame reader, so
every chunking of a stream gives the same closes and the same end (`drain_chunks`).
-/

namespace GraphiteMeter.Http3

open Chunked

/-- A capsule type: laid out as a frame, but its own space of codes. -/
structure CapsuleType where
  code : ℕ
deriving DecidableEq, Repr

instance : Kind CapsuleType := ⟨CapsuleType.mk, CapsuleType.code⟩

namespace CapsuleType

def close : CapsuleType := ⟨0x2843⟩

/-- WT_MAX_STREAM_DATA and WT_STREAM_DATA_BLOCKED exist only over HTTP/2. -/
def http2Only : List CapsuleType := [⟨0x190b4d3e⟩, ⟨0x190b4d42⟩]

end CapsuleType

/-- Why a session ended. -/
structure SessionClose where
  code : UInt32
  reason : String
deriving DecidableEq, Repr

namespace Capsule

def maxReason : ℕ := 1024

/-- Reads CLOSE capsules, as code and reason, from a CONNECT stream's DATA; others, DRAIN included,
skip unbuffered. -/
structure Reader where
  frames : Http3.Reader CapsuleType
  kind : CapsuleType
  close : Bytes
deriving DecidableEq, Repr

namespace Reader

def empty : Reader := ⟨.empty, ⟨0⟩, []⟩

def atBoundary (r : Reader) : Bool := r.frames.atBoundary

end Reader

/-- The code and the reason that a CLOSE capsule's payload holds. -/
def parse (close : Bytes) : Except Code SessionClose :=
  if close.length < 4 then .error .h3MessageError
  else
    let (code, reason) := close.splitAt 4
    match String.fromUTF8? ⟨reason.toArray⟩ with
    | none => .error .h3MessageError
    | some reason =>
      .ok ⟨UInt32.ofNat (code.foldl (fun value byte => value <<< 8 ||| byte.toNat) 0), reason⟩

namespace Reader

/-- What the reader makes of one piece. -/
def piece (r : Reader) : Piece CapsuleType → Except Code (Option SessionClose × Reader)
  | .header kind length =>
    if kind ∈ CapsuleType.http2Only ∨ kind = .close ∧ ¬ (4 ≤ length ∧ length ≤ 4 + maxReason) then
      .error .h3MessageError
    else .ok (none, { r with kind })
  | .payload body =>
    if r.kind = .close then
      let r := { r with close := r.close ++ body }
      if r.frames.remaining = 0 then
        (parse r.close).map fun close => (some close, { r with close := [] })
      else .ok (none, r)
    else .ok (none, r)

/-- The next CLOSE that `input` completes, with the reader and the bytes after it. -/
def read (r : Reader) (input : Bytes) : Except Code (Option SessionClose × Reader × Bytes) :=
  match _hnext : r.frames.next input with
  | (none, frames, rest) => .ok (none, { r with frames }, rest)
  | (some p, frames, rest) =>
    match piece { r with frames } p with
    | .error code => .error code
    | .ok (some close, r') => .ok (some close, r', rest)
    | .ok (none, r') => read r' rest
termination_by input.length
decreasing_by exact Http3.Reader.length_lt_of_next _hnext

/-- One round of the source's loop. -/
theorem read_eq (r : Reader) (input : Bytes) :
    r.read input =
      match r.frames.next input with
      | (none, frames, rest) => .ok (none, { r with frames }, rest)
      | (some p, frames, rest) =>
        match piece { r with frames } p with
        | .error code => .error code
        | .ok (some close, r') => .ok (some close, r', rest)
        | .ok (none, r') => r'.read rest := by
  rw [read]
  split <;> rename_i hnext <;> simp only [hnext]

/-- A CLOSE takes at least one byte off the chunk. -/
theorem length_lt_of_read {r r' : Reader} {input rest : Bytes} {close : SessionClose}
    (h : r.read input = .ok (some close, r', rest)) : rest.length < input.length := by
  induction hlen : input.length using Nat.strongRecOn generalizing r input with
  | ind n ih =>
    subst hlen
    rw [read_eq] at h
    match hnext : r.frames.next input with
    | (none, frames, left) =>
      simp only [hnext] at h
      cases h
    | (some p, frames, left) =>
      have hlt := Http3.Reader.length_lt_of_next hnext
      simp only [hnext] at h
      match hpiece : piece { r with frames } p with
      | .error code =>
        simp only [hpiece] at h
        cases h
      | .ok (some close', r'') =>
        simp only [hpiece] at h
        cases h
        exact hlt
      | .ok (none, r'') =>
        simp only [hpiece] at h
        exact Nat.lt_trans (ih _ hlt h rfl) hlt

/-- Reads until the chunk holds no further CLOSE. -/
def drain (r : Reader) (input : Bytes) : Outcome Code Reader SessionClose :=
  match _hread : r.read input with
  | .error code => ⟨[], .error code⟩
  | .ok (none, r', _) => ⟨[], .ok r'⟩
  | .ok (some close, r', rest) =>
    let later := drain r' rest
    ⟨close :: later.events, later.state⟩
termination_by input.length
decreasing_by exact length_lt_of_read _hread

/-- The piece as an outcome: a CLOSE at most, and the reader after it. -/
def pieceOutcome (r : Reader) (p : Piece CapsuleType) : Outcome Code Reader SessionClose :=
  match r.piece p with
  | .error code => ⟨[], .error code⟩
  | .ok (close, r') => ⟨close.toList, .ok r'⟩

/-- Draining reads one piece and drains the rest. -/
theorem drain_unfold (r : Reader) (input : Bytes) :
    r.drain input =
      match r.read input with
      | .error code => ⟨[], .error code⟩
      | .ok (none, r', _) => ⟨[], .ok r'⟩
      | .ok (some close, r', rest) => ⟨close :: (r'.drain rest).events, (r'.drain rest).state⟩ := by
  rw [drain]
  split <;> rename_i hread <;> simp only [hread]

/-- A chunk with no piece leaves the reader with what there is of a header. -/
theorem drain_none {r : Reader} {input rest : Bytes} {frames : Http3.Reader CapsuleType}
    (h : r.frames.next input = (none, frames, rest)) : r.drain input = .start { r with frames } := by
  rw [drain_unfold, read_eq, h]
  rfl

/-- **Both loops, piece by piece**: draining handles the first piece and drains the rest. -/
theorem drain_some {r : Reader} {input rest : Bytes} {p : Piece CapsuleType}
    {frames : Http3.Reader CapsuleType} (h : r.frames.next input = (some p, frames, rest)) :
    r.drain input = (pieceOutcome { r with frames } p).andThen fun r' => r'.drain rest := by
  rw [drain_unfold, read_eq, h]
  simp only [pieceOutcome]
  match piece { r with frames } p with
  | .error code => rfl
  | .ok (some close, r') => rfl
  | .ok (none, r') =>
    simp only [Outcome.andThen_ok, Option.toList_none, List.nil_append]
    rw [drain_unfold r' rest]

@[simp] theorem drain_nil (r : Reader) : r.drain [] = .start r :=
  drain_none (Http3.Reader.next_nil _)

/-! ## Any chunks -/

/-- The payload of any capsule but a close is skipped. -/
theorem pieceOutcome_skip {r : Reader} (h : r.kind ≠ .close) (body : Bytes) :
    r.pieceOutcome (.payload body) = .start r := by
  simp only [pieceOutcome, piece, if_neg h]
  rfl

/-- A CLOSE's payload collects until its capsule ends. -/
theorem pieceOutcome_close {r : Reader} (h : r.kind = .close) (body : Bytes) :
    r.pieceOutcome (.payload body) =
      if r.frames.remaining = 0 then
        match parse (r.close ++ body) with
        | .error code => ⟨[], .error code⟩
        | .ok close => ⟨[close], .ok { r with close := [] }⟩
      else .start { r with close := r.close ++ body } := by
  simp only [pieceOutcome, piece, if_pos h]
  by_cases hrem : r.frames.remaining = 0
  · simp only [if_pos hrem]
    match parse (r.close ++ body) with
    | .error code => rfl
    | .ok close => rfl
  · simp only [if_neg hrem]
    rfl

/-- A payload leaves the frames that are being read. -/
theorem pieceOutcome_payload_frames {r r' : Reader} {body : Bytes}
    (h : (r.pieceOutcome (.payload body)).state = .ok r') : r'.frames = r.frames := by
  by_cases hkind : r.kind = .close
  · rw [pieceOutcome_close hkind] at h
    split at h
    · split at h <;> cases h
      rfl
    · cases h
      rfl
  · rw [pieceOutcome_skip hkind] at h
    cases h
    rfl

/-- **A chunk cut after its first byte** gives the same closes and the same state. -/
theorem drain_cons (r : Reader) (b : UInt8) (rest : Bytes) :
    r.drain (b :: rest) = (r.drain [b]).andThen fun r' => r'.drain rest := by
  refine @feed_cons CapsuleType _ Reader Code SessionClose Reader.frames
    (fun r frames => { r with frames }) pieceOutcome drain ?_ ?_
    (fun _ _ => rfl) (fun _ => rfl) (fun _ _ _ => rfl) r ?_ ?_ b rest
  · intro r input frames rest hnext
    exact drain_none hnext
  · intro r input p frames rest hnext
    exact drain_some hnext
  · intro header remaining b r' _ hr'
    exact pieceOutcome_payload_frames hr'
  · intro header remaining b q hq _
    have hlen : 0 < q.length := List.length_pos_iff.mpr hq
    by_cases hkind : r.kind = .close
    · rw [pieceOutcome_close (by exact hkind), pieceOutcome_close (by exact hkind),
        if_neg (show ¬ remaining + q.length = 0 by omega), Outcome.start_andThen,
        pieceOutcome_close (by exact hkind), List.append_assoc, List.singleton_append]
    · rw [pieceOutcome_skip (by exact hkind), pieceOutcome_skip (by exact hkind),
        Outcome.start_andThen, pieceOutcome_skip (by exact hkind)]

/-- **A chunk in two parts** gives the closes of the first and then those of the second. -/
theorem drain_append (r : Reader) (first rest : Bytes) :
    r.drain (first ++ rest) = (r.drain first).andThen fun r' => r'.drain rest := by
  induction first generalizing r with
  | nil => rw [List.nil_append, drain_nil, Outcome.start_andThen]
  | cons b first ih =>
    rw [List.cons_append, drain_cons r b (first ++ rest), drain_cons r b first,
      Outcome.andThen_assoc]
    exact congrArg _ (funext ih)

/-- Reads the chunks one after another. -/
def readAll (chunks : List Bytes) : Outcome Code Reader SessionClose := feedAll drain empty chunks

/-- **Capsules read the same in any chunks**: the closes and the end of their bytes in one. -/
theorem readAll_eq (chunks : List Bytes) : readAll chunks = drain empty chunks.flatten := by
  have hall : ∀ r, feedAll drain r chunks = drain r chunks.flatten := by
    induction chunks with
    | nil =>
      intro r
      exact (drain_nil r).symm
    | cons chunk chunks ih =>
      intro r
      rw [List.flatten_cons, drain_append]
      exact congrArg _ (funext ih)
  exact hall empty

end Reader

/-! ## Writing a CLOSE -/

/-- The greatest index up to `index` at which a character of the text begins, or the text ends. -/
def floorCharBoundary (text : String) (index : ℕ) : ℕ :=
  Nat.findGreatest (fun i => (⟨i⟩ : String.Pos.Raw).IsValid text) index

/-- A CLOSE_WEBTRANSPORT_SESSION capsule; the reason is cut at a character boundary within its
limit. -/
def close (code : UInt32) (reason : String) : Bytes :=
  let stop := floorCharBoundary reason maxReason
  putHeader CapsuleType.close (4 + stop) ++
    (Varint.beBytes 4 code.toNat ++ reason.toUTF8.data.toList.take stop)

end Capsule

end GraphiteMeter.Http3
