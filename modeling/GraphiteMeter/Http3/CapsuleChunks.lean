import GraphiteMeter.Http3.Capsule

/-!
# What a capsule reader finds

Reference: `rust/http3/src/capsule.rs`.

`Raw` is a capsule as it stands on the wire. A reader between two capsules skips one that is not a CLOSE
(`drain_other`) and takes what `close` wrote (`drain_close`); `drain_boundary` says of any bytes
when they end between two capsules, and `drain_holds` how much of them a reader keeps.
`capsules_read` puts them together for a stream of other capsules and a CLOSE, cut anywhere.
-/

namespace GraphiteMeter.Http3.Capsule

open Chunked

/-! ## Capsules on the wire -/

/-- A capsule on the wire: its type and its length as integers of any size, then its payload. -/
structure Raw where
  type : Bytes
  length : Bytes
  payload : Bytes
  kind : ℕ
  type_eq : Varint.decode type = some (kind, type.length)
  length_eq : Varint.decode length = some (payload.length, length.length)

namespace Raw

def bytes (c : Raw) : Bytes := c.type ++ (c.length ++ c.payload)

/-- Neither a CLOSE nor one of the types that exist only over HTTP/2. -/
def Other (c : Raw) : Prop :=
  (⟨c.kind⟩ : CapsuleType) ≠ .close ∧ (⟨c.kind⟩ : CapsuleType) ∉ CapsuleType.http2Only

/-- A capsule begins with its header. -/
theorem headerOf_bytes (c : Raw) (rest : Bytes) :
    headerOf (c.bytes ++ rest) = some (c.kind, c.payload.length, c.payload ++ rest) := by
  unfold bytes
  rw [List.append_assoc, List.append_assoc]
  exact headerOf_append c.type_eq c.length_eq _

end Raw

/-- The bytes are a whole number of capsules. -/
def WholeCapsules (bytes : Bytes) : Prop := ∃ capsules : List Raw, bytes = capsules.flatMap Raw.bytes

/-- No bytes are whole capsules. -/
theorem wholeCapsules_nil : WholeCapsules [] := ⟨[], rfl⟩

/-- Bytes without a header are no whole capsules. -/
theorem not_wholeCapsules {bytes : Bytes} (h : headerOf bytes = none) (hne : bytes ≠ []) :
    ¬ WholeCapsules bytes := by
  rintro ⟨capsules, rfl⟩
  cases capsules with
  | nil => exact hne rfl
  | cons c capsules =>
    rw [List.flatMap_cons, c.headerOf_bytes] at h
    cases h

/-- Bytes that begin with a header are whole capsules if they hold its payload and whole capsules
after it. -/
theorem wholeCapsules_iff {bytes rest : Bytes} {kind length : ℕ}
    (h : headerOf bytes = some (kind, length, rest)) :
    WholeCapsules bytes ↔ length ≤ rest.length ∧ WholeCapsules (rest.drop length) := by
  constructor
  · rintro ⟨capsules, rfl⟩
    cases capsules with
    | nil => cases h
    | cons c capsules =>
      rw [List.flatMap_cons, c.headerOf_bytes] at h
      cases h
      refine ⟨?_, capsules, List.drop_left⟩
      rw [List.length_append]
      exact Nat.le_add_right _ _
  · rintro ⟨hle, capsules, hrest⟩
    obtain ⟨type, len, rfl, htype, hlen⟩ := exists_of_headerOf h
    have htake : (rest.take length).length = length := List.length_take_of_le hle
    refine ⟨⟨type, len, rest.take length, kind, htype, by rw [htake, hlen]⟩ :: capsules, ?_⟩
    rw [List.flatMap_cons, ← hrest]
    unfold Raw.bytes
    rw [List.append_assoc, List.append_assoc, List.take_append_drop]

namespace Reader

/-! ## Between two capsules -/

variable {kind : CapsuleType} {close : Bytes}

/-- The header of a capsule, from between two of them. -/
theorem drain_header {bytes rest : Bytes} {code length : ℕ}
    (h : headerOf bytes = some (code, length, rest)) :
    drain ⟨.empty, kind, close⟩ bytes =
      (pieceOutcome ⟨⟨.empty, length⟩, kind, close⟩ (.header ⟨code⟩ length)).andThen
        fun r => r.drain rest := by
  obtain ⟨code', length', rest', hheader, hnext⟩ | ⟨hnone, -⟩ :=
    @Http3.Reader.next_empty CapsuleType _ bytes
  · rw [h] at hheader
    cases hheader
    exact drain_some hnext
  · rw [h] at hnone
    cases hnone

/-- Inside a capsule the chunk's next bytes are its payload's. -/
theorem drain_payload {length : ℕ} (hlength : length ≠ 0) {rest : Bytes} (hrest : rest ≠ []) :
    drain ⟨⟨.empty, length⟩, kind, close⟩ rest =
      (pieceOutcome ⟨⟨.empty, length - rest.length⟩, kind, close⟩
        (.payload (rest.take length))).andThen fun r => r.drain (rest.drop length) := by
  match rest with
  | [] => exact absurd rfl hrest
  | b :: rest =>
    obtain ⟨n, rfl⟩ : ∃ n, length = n + 1 := ⟨length - 1, by omega⟩
    apply drain_some
    rw [Http3.Reader.next_payload (Nat.succ_ne_zero n)]
    simp only [Nat.add_sub_cancel, List.take_succ_cons, List.drop_succ_cons, List.length_cons]
    rw [show n + 1 - (rest.length + 1) = n - rest.length by omega]

/-- A whole payload. -/
theorem drain_whole {payload : Bytes} (hne : payload ≠ []) (rest : Bytes) :
    drain ⟨⟨.empty, payload.length⟩, kind, close⟩ (payload ++ rest) =
      (pieceOutcome ⟨.empty, kind, close⟩ (.payload payload)).andThen fun r => r.drain rest := by
  have hlength : payload.length ≠ 0 := mt List.length_eq_zero_iff.mp hne
  have happend : payload ++ rest ≠ [] := fun h => hne (List.append_eq_nil_iff.mp h).1
  rw [drain_payload hlength happend, List.take_left, List.drop_left, List.length_append,
    Nat.sub_eq_zero_of_le (Nat.le_add_right _ _)]
  rfl

/-- A header opens its capsule, if its type and length are allowed. -/
theorem pieceOutcome_header {r : Reader} {code : CapsuleType} {length : ℕ}
    (hhttp2 : code ∉ CapsuleType.http2Only)
    (hclose : code = .close → 4 ≤ length ∧ length ≤ 4 + maxReason) :
    r.pieceOutcome (.header code length) = .start { r with kind := code } := by
  have haccepted : ¬ (code ∈ CapsuleType.http2Only ∨
      code = .close ∧ ¬ (4 ≤ length ∧ length ≤ 4 + maxReason)) := by
    rintro (hmem | ⟨heq, hlong⟩)
    · exact hhttp2 hmem
    · exact hlong (hclose heq)
  simp only [pieceOutcome, piece, if_neg haccepted]
  rfl

/-- A header is refused, or opens its capsule. -/
theorem pieceOutcome_header_cases (r : Reader) (code : CapsuleType) (length : ℕ) :
    r.pieceOutcome (.header code length) = ⟨[], .error .h3MessageError⟩ ∨
      (code = .close → 4 ≤ length ∧ length ≤ 4 + maxReason) ∧
        r.pieceOutcome (.header code length) = .start { r with kind := code } := by
  by_cases hrefused : code ∈ CapsuleType.http2Only ∨
      code = .close ∧ ¬ (4 ≤ length ∧ length ≤ 4 + maxReason)
  · left
    simp only [pieceOutcome, piece, if_pos hrefused]
  · right
    have hclose : code = .close → 4 ≤ length ∧ length ≤ 4 + maxReason :=
      fun h => not_not.mp fun hlong => hrefused (.inr ⟨h, hlong⟩)
    exact ⟨hclose, pieceOutcome_header (fun h => hrefused (.inl h)) hclose⟩

/-- **Another capsule is skipped**, whatever it holds. -/
theorem drain_other {c : Raw} (hc : c.Other) (rest : Bytes) :
    drain ⟨.empty, kind, close⟩ (c.bytes ++ rest) = drain ⟨.empty, ⟨c.kind⟩, close⟩ rest := by
  rw [drain_header (c.headerOf_bytes rest), pieceOutcome_header hc.2 (fun h => absurd h hc.1),
    Outcome.start_andThen]
  by_cases hnil : c.payload = []
  · rw [hnil]
    rfl
  · rw [drain_whole hnil, pieceOutcome_skip (by exact hc.1), Outcome.start_andThen]

/-- Any number of them are. -/
theorem drain_others {others : List Raw} (h : ∀ c ∈ others, c.Other) :
    ∃ later, ∀ rest, drain ⟨.empty, kind, close⟩ (others.flatMap Raw.bytes ++ rest) =
      drain ⟨.empty, later, close⟩ rest := by
  induction others generalizing kind with
  | nil => exact ⟨kind, fun _ => rfl⟩
  | cons c others ih =>
    obtain ⟨later, hlater⟩ := @ih ⟨c.kind⟩ fun c' hc' => h c' (List.mem_cons_of_mem _ hc')
    refine ⟨later, fun rest => ?_⟩
    rw [List.flatMap_cons, List.append_assoc, drain_other (h c List.mem_cons_self), hlater]

/-! ## At a boundary -/

/-- **A reader is at a boundary exactly behind whole capsules**, where it takes the bytes at all. -/
theorem drain_boundary {bytes : Bytes} {r : Reader}
    (h : (drain ⟨.empty, kind, close⟩ bytes).state = .ok r) :
    r.atBoundary = true ↔ WholeCapsules bytes := by
  induction hlen : bytes.length using Nat.strongRecOn generalizing kind close bytes with
  | ind n ih =>
    subst hlen
    obtain ⟨code, length, rest, hheader, -⟩ | ⟨hnone, header, hnext, hempty⟩ :=
      @Http3.Reader.next_empty CapsuleType _ bytes
    · have hlt := length_lt_of_headerOf hheader
      rw [drain_header hheader] at h
      rw [wholeCapsules_iff hheader]
      obtain hrefused | ⟨-, hopened⟩ :=
        pieceOutcome_header_cases ⟨⟨.empty, length⟩, kind, close⟩ ⟨code⟩ length
      · rw [hrefused] at h
        cases h
      rw [hopened, Outcome.start_andThen] at h
      by_cases hzero : length = 0
      · subst hzero
        rw [ih _ hlt h rfl, List.drop_zero]
        exact (and_iff_right (Nat.zero_le _)).symm
      by_cases hnil : rest = []
      · subst hnil
        rw [drain_nil] at h
        cases h
        simp [atBoundary, Http3.Reader.atBoundary, hzero]
      rw [drain_payload hzero hnil] at h
      -- the payload is taken as far as the bytes go
      match hpiece : (pieceOutcome ⟨⟨.empty, length - rest.length⟩, ⟨code⟩, close⟩
          (.payload (rest.take length))).state with
      | .error e =>
        rw [Outcome.andThen_state_error hpiece] at h
        cases h
      | .ok ⟨frames, kind', close'⟩ =>
        have hframes := pieceOutcome_payload_frames hpiece
        dsimp only at hframes
        rw [Outcome.andThen_state_ok hpiece] at h
        by_cases hle : length ≤ rest.length
        · rw [Nat.sub_eq_zero_of_le hle] at hframes
          subst hframes
          rw [ih _ (by rw [List.length_drop]; omega) h rfl]
          exact (and_iff_right hle).symm
        · rw [List.drop_of_length_le (by omega), drain_nil] at h
          cases h
          have hremaining : length - rest.length ≠ 0 := by omega
          simp [atBoundary, Http3.Reader.atBoundary, hframes, hremaining, hle]
    · rw [drain_none hnext] at h
      cases h
      by_cases hnil : bytes = []
      · have hheader := hempty.mpr hnil
        subst hnil
        simp [atBoundary, Http3.Reader.atBoundary, hheader, wholeCapsules_nil]
      · have hheader : header.isEmpty ≠ true := fun h => hnil (hempty.mp h)
        simp [atBoundary, Http3.Reader.atBoundary, hheader, not_wholeCapsules hnone hnil]

/-! ## What is kept -/

/-- A reader keeps only what it has of a CLOSE that is not complete. -/
structure Holds (r : Reader) : Prop where
  collecting : r.kind = .close → r.close.length + r.frames.remaining ≤ 4 + maxReason
  idle : r.kind ≠ .close ∨ r.frames.remaining = 0 → r.close = []

/-- A new reader holds nothing. -/
theorem empty_holds : empty.Holds := ⟨nofun, fun _ => rfl⟩

/-- The next piece of a payload never takes the reader over its limit. -/
theorem Holds.piece {r : Reader} (h : r.Holds) {input rest body : Bytes}
    {frames : Http3.Reader CapsuleType} (hkind : r.kind = .close)
    (hnext : r.frames.next input = (some (.payload body), frames, rest)) :
    (r.close ++ body).length + frames.remaining ≤ 4 + maxReason := by
  obtain ⟨-, _, _, hheader, -⟩ | ⟨-, body', hbody, hremaining⟩ := Http3.Reader.next_some hnext
  · cases hheader
  · cases hbody
    have hcollecting := h.collecting hkind
    rw [List.length_append]
    omega

/-- What one piece keeps. -/
theorem Holds.pieceOutcome {r r' : Reader} (h : r.Holds) {input rest : Bytes}
    {p : Piece CapsuleType} {frames : Http3.Reader CapsuleType}
    (hnext : r.frames.next input = (some p, frames, rest))
    (hpiece : (Reader.pieceOutcome { r with frames } p).state = .ok r') : r'.Holds := by
  obtain ⟨hzero, code, length, rfl, hlength⟩ | ⟨-, body, rfl, hremaining⟩ :=
    Http3.Reader.next_some hnext
  · have hclose : r.close = [] := h.idle (.inr hzero)
    obtain hrefused | ⟨hfits, hopened⟩ :=
      pieceOutcome_header_cases { r with frames } code length
    · rw [hrefused] at hpiece
      cases hpiece
    · rw [hopened] at hpiece
      cases hpiece
      refine ⟨fun hkind => ?_, fun _ => hclose⟩
      rw [hclose, hlength, List.length_nil, Nat.zero_add]
      exact (hfits hkind).2
  · -- only a CLOSE is collected, and its header bounded what is to come
    by_cases hkind : r.kind = .close
    · have hlimit := h.piece hkind hnext
      rw [pieceOutcome_close (by exact hkind)] at hpiece
      split at hpiece
      · rename_i hend
        split at hpiece
        · cases hpiece
        · cases hpiece
          refine ⟨fun _ => ?_, fun _ => rfl⟩
          dsimp only at hend ⊢
          rw [hend]
          exact Nat.zero_le _
      · rename_i hmore
        cases hpiece
        refine ⟨fun _ => hlimit, ?_⟩
        rintro (hother | hend)
        · exact absurd hkind hother
        · exact absurd hend hmore
    · rw [pieceOutcome_skip (by exact hkind)] at hpiece
      cases hpiece
      exact ⟨fun h => absurd h hkind, fun _ => h.idle (.inl hkind)⟩

/-- **However long the stream**, a reader keeps at most one CLOSE. -/
theorem Holds.drain {r r' : Reader} (h : r.Holds) {input : Bytes}
    (hdrain : (r.drain input).state = .ok r') : r'.Holds := by
  induction hlen : input.length using Nat.strongRecOn generalizing r input with
  | ind n ih =>
    subst hlen
    match hnext : r.frames.next input with
    | (none, frames, rest) =>
      have hremaining := Http3.Reader.remaining_of_next_none hnext
      rw [drain_none hnext] at hdrain
      cases hdrain
      refine ⟨?_, ?_⟩
      · rw [hremaining]
        exact h.collecting
      · rw [hremaining]
        exact h.idle
    | (some p, frames, rest) =>
      rw [drain_some hnext] at hdrain
      match hpiece : (Reader.pieceOutcome { r with frames } p).state with
      | .error code =>
        rw [Outcome.andThen_state_error hpiece] at hdrain
        cases hdrain
      | .ok r'' =>
        rw [Outcome.andThen_state_ok hpiece] at hdrain
        exact ih _ (Http3.Reader.length_lt_of_next hnext) (h.pieceOutcome hnext hpiece) hdrain rfl

end Reader

/-! ## A CLOSE -/

/-- The longest beginning of a text, in whole characters, that takes at most `limit` bytes. -/
structure Longest (limit : ℕ) (text kept : String) : Prop where
  begins : ∃ cut, text = kept ++ cut
  fits : kept.utf8ByteSize ≤ limit
  longest : ∀ other cut, text = other ++ cut → other.utf8ByteSize ≤ limit →
    other.utf8ByteSize ≤ kept.utf8ByteSize

/-- **The cut is the longest beginning that fits.** -/
theorem longest_floorCharBoundary (text : String) (limit : ℕ) :
    ∃ kept, Longest limit text kept ∧ floorCharBoundary text limit = kept.utf8ByteSize ∧
      text.toUTF8.data.toList.take (floorCharBoundary text limit) = kept.toUTF8.data.toList := by
  have hzero : (⟨0⟩ : String.Pos.Raw).IsValid text :=
    String.Pos.Raw.isValid_iff_exists_append.mpr ⟨"", text, (String.empty_append).symm, rfl⟩
  have hvalid : (⟨floorCharBoundary text limit⟩ : String.Pos.Raw).IsValid text :=
    Nat.findGreatest_spec (P := fun i => (⟨i⟩ : String.Pos.Raw).IsValid text) (Nat.zero_le limit) hzero
  obtain ⟨kept, cut, rfl, heq⟩ := String.Pos.Raw.isValid_iff_exists_append.mp hvalid
  have hsize : floorCharBoundary (kept ++ cut) limit = kept.utf8ByteSize :=
    congrArg String.Pos.Raw.byteIdx heq
  refine ⟨kept, ⟨⟨cut, rfl⟩, ?_, ?_⟩, hsize, ?_⟩
  · rw [← hsize]
    exact Nat.findGreatest_le limit
  · intro other cut' heq' hfits
    rw [← hsize]
    apply Nat.le_findGreatest hfits
    exact String.Pos.Raw.isValid_iff_exists_append.mpr ⟨other, cut', heq', rfl⟩
  · rw [hsize]
    have hlen : kept.utf8ByteSize = kept.toUTF8.data.toList.length := by simp
    have happend : (kept ++ cut).toUTF8.data.toList =
        kept.toUTF8.data.toList ++ cut.toUTF8.data.toList := by simp
    rw [happend, hlen, List.take_left]

/-- What a CLOSE's payload is parsed to. -/
theorem parse_payload (code : UInt32) (reason : String) :
    parse (Varint.beBytes 4 code.toNat ++ reason.toUTF8.data.toList) = .ok ⟨code, reason⟩ := by
  have hlen : (Varint.beBytes 4 code.toNat).length = 4 := Varint.length_beBytes 4 _
  have hutf8 : String.fromUTF8? ⟨reason.toUTF8.data.toList.toArray⟩ = some reason := by
    unfold String.fromUTF8?
    exact dif_pos reason.isValidUTF8
  have hcode : (Varint.beBytes 4 code.toNat).foldl
      (fun value byte => value <<< 8 ||| byte.toNat) 0 = code.toNat := by
    have hfold := Varint.foldl_beBytes 4 code.toNat
    have hzero : code.toNat >>> (8 * 4) = 0 := by
      rw [Nat.shiftRight_eq_div_pow]
      exact Nat.div_eq_of_lt code.toNat_lt
    rwa [hzero] at hfold
  unfold parse
  rw [if_neg (by rw [List.length_append, hlen]; omega), List.splitAt_eq]
  simp only [List.take_left' hlen, List.drop_left' hlen, hutf8, hcode, UInt32.ofNat_toNat]

namespace Reader

variable {kind : CapsuleType}

/-- **What `close` writes is read back**, and nothing is told before its last byte. -/
theorem drain_close (code : UInt32) (reason : String) :
    ∃ kept, Longest maxReason reason kept ∧
      drain ⟨.empty, kind, []⟩ (Capsule.close code reason) =
        ⟨[⟨code, kept⟩], .ok ⟨.empty, .close, []⟩⟩ ∧
      ∃ r, drain ⟨.empty, kind, []⟩ (Capsule.close code reason).dropLast = .start r := by
  obtain ⟨kept, hlongest, hsize, htake⟩ := longest_floorCharBoundary reason maxReason
  refine ⟨kept, hlongest, ?_⟩
  unfold Capsule.close
  dsimp only
  rw [htake, hsize]
  generalize hpayload : Varint.beBytes 4 code.toNat ++ kept.toUTF8.data.toList = payload
  have hparse : parse payload = .ok ⟨code, kept⟩ := hpayload ▸ parse_payload code kept
  have hlen : payload.length = 4 + kept.utf8ByteSize := by
    rw [← hpayload, List.length_append, Varint.length_beBytes]
    simp
  have hfits' : 4 + kept.utf8ByteSize ≤ 4 + maxReason := Nat.add_le_add_left hlongest.fits _
  -- behind the header the reader collects the payload, whatever capsule it read before
  have hopened : ∀ rest, drain ⟨.empty, kind, []⟩
      (putHeader CapsuleType.close (4 + kept.utf8ByteSize) ++ rest) =
        drain ⟨⟨.empty, payload.length⟩, .close, []⟩ rest := by
    intro rest
    have hheader : headerOf (Varint.put (Kind.wire CapsuleType.close) ++
        Varint.put (4 + kept.utf8ByteSize) ++ rest) =
          some (Kind.wire CapsuleType.close, 4 + kept.utf8ByteSize, rest) :=
      headerOf_put (by decide) (hfits'.trans (by decide)) rest
    have haccepted : (⟨Kind.wire CapsuleType.close⟩ : CapsuleType) ∉ CapsuleType.http2Only := by
      decide
    rw [putHeader, drain_header hheader, pieceOutcome_header haccepted (fun _ => ⟨by omega, hfits'⟩),
      Outcome.start_andThen, hlen]
    rfl
  have hne : payload ≠ [] := by
    rintro rfl
    rw [List.length_nil] at hlen
    omega
  constructor
  · have hwhole := @drain_whole .close [] payload hne []
    rw [List.append_nil] at hwhole
    rw [hopened, hwhole, pieceOutcome_close (by rfl)]
    simp only [List.nil_append, hparse]
    rw [if_pos (show Http3.Reader.empty.remaining = 0 from rfl), Outcome.andThen_ok, drain_nil]
    rfl
  · -- without its last byte the payload is still being collected
    rw [List.dropLast_append_of_ne_nil hne, hopened]
    have hshort : payload.dropLast.length = payload.length - 1 := List.length_dropLast
    have hrest : payload.dropLast ≠ [] := by
      intro h
      rw [h, List.length_nil] at hshort
      omega
    rw [drain_payload (by omega) hrest, pieceOutcome_close (by rfl)]
    rw [if_neg (show ¬ payload.length - payload.dropLast.length = 0 by omega),
      List.drop_of_length_le (by omega), Outcome.start_andThen, drain_nil]
    exact ⟨_, rfl⟩

end Reader

/-! ## Other capsules, then a CLOSE -/

/-- A close that is held is within its bound. -/
theorem Reader.Holds.length_close {r : Reader} (h : r.Holds) : r.close.length ≤ 4 + maxReason := by
  by_cases hkind : r.kind = .close
  · have hcollecting := h.collecting hkind
    omega
  · rw [h.idle (.inl hkind)]
    exact Nat.zero_le _

/-- Where a stream tells nothing and goes on, so does its beginning. -/
theorem start_of_append {first rest : Bytes} {r r' : Reader}
    (h : r.drain (first ++ rest) = .start r') : ∃ r'', r.drain first = .start r'' := by
  rw [Reader.drain_append] at h
  match hfirst : r.drain first with
  | ⟨events, .error code⟩ =>
    rw [hfirst] at h
    cases h
  | ⟨events, .ok r''⟩ =>
    rw [hfirst, Outcome.andThen_ok] at h
    have hevents := congrArg Outcome.events h
    exact ⟨r'', by rw [(List.append_eq_nil_iff.mp hevents).1]; rfl⟩

/-- **Capsules.** Behind any number of other capsules of any length, a reader finds exactly the CLOSE
that `close` wrote, with its code and the longest beginning of the reason that fits, and only at its
last byte. However the bytes are cut, and as far as they came, it keeps no more of them than one
CLOSE and is at a boundary exactly behind whole capsules. -/
theorem capsules_read {others : List Raw} (hothers : ∀ c ∈ others, c.Other) (code : UInt32)
    (reason : String) :
    ∃ kept, Longest maxReason reason kept ∧ ∀ (chunks : List Bytes) (more : Bytes),
      chunks.flatten ++ more = others.flatMap Raw.bytes ++ close code reason →
      ∃ r, Reader.readAll chunks = ⟨if more = [] then [⟨code, kept⟩] else [], .ok r⟩ ∧
        r.close.length ≤ 4 + maxReason ∧
        (∀ input body frames rest, r.kind = .close →
          r.frames.next input = (some (.payload body), frames, rest) →
          (r.close ++ body).length ≤ 4 + maxReason) ∧
        (r.atBoundary = true ↔ WholeCapsules chunks.flatten) := by
  obtain ⟨later, hlater⟩ := @Reader.drain_others ⟨0⟩ [] others hothers
  obtain ⟨kept, hlongest, hclose, cut, hcut⟩ := @Reader.drain_close later code reason
  refine ⟨kept, hlongest, fun chunks more hstream => ?_⟩
  have hread : ∃ r, Reader.readAll chunks = ⟨if more = [] then [⟨code, kept⟩] else [], .ok r⟩ := by
    rw [Reader.readAll_eq]
    by_cases hmore : more = []
    · rw [hmore, List.append_nil] at hstream
      rw [if_pos hmore, hstream]
      exact ⟨_, (hlater _).trans hclose⟩
    · -- What came ends before the last byte of the CLOSE, where nothing is told yet.
      have hne : close code reason ≠ [] := by
        intro hnil
        rw [hnil, Reader.drain_nil] at hclose
        cases hclose
      have hshort := congrArg List.dropLast hstream
      rw [List.dropLast_append_of_ne_nil hmore, List.dropLast_append_of_ne_nil hne] at hshort
      have hquiet : Reader.drain .empty (chunks.flatten ++ more.dropLast) = .start cut := by
        rw [hshort]
        exact (hlater _).trans hcut
      obtain ⟨r, hr⟩ := start_of_append hquiet
      rw [if_neg hmore]
      exact ⟨r, hr⟩
  obtain ⟨r, hr⟩ := hread
  have hstate : (Reader.drain .empty chunks.flatten).state = .ok r := by
    rw [← Reader.readAll_eq, hr]
  have hholds : r.Holds := Reader.empty_holds.drain hstate
  refine ⟨r, hr, hholds.length_close, ?_, Reader.drain_boundary hstate⟩
  intro input body frames rest hkind hnext
  exact Nat.le_of_add_right_le (hholds.piece hkind hnext)

/-- The first chunk ends in the length of a grease capsule. -/
theorem capsules_read_grease :
    ∃ kept r, Longest maxReason "done" kept ∧
      Reader.readAll [[0x40, 0x92], [0x02, 0x67, 0x72] ++ close 0xf1234567 "done"] =
        ⟨[⟨0xf1234567, kept⟩], .ok r⟩ := by
  have hothers : ∀ c ∈ [Raw.mk [0x40, 0x92] [0x02] [0x67, 0x72] 146 rfl rfl], c.Other := by
    intro c hc
    rw [List.mem_singleton.mp hc]
    exact ⟨by decide, by decide⟩
  obtain ⟨kept, hlongest, hread⟩ := capsules_read hothers 0xf1234567 "done"
  obtain ⟨r, hr, -⟩ :=
    hread [[0x40, 0x92], [0x02, 0x67, 0x72] ++ close 0xf1234567 "done"] [] (by simp [Raw.bytes])
  exact ⟨kept, r, hlongest, hr⟩

end GraphiteMeter.Http3.Capsule
