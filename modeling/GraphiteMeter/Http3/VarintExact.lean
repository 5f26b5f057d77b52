import GraphiteMeter.Http3.Encode

/-!
# Integers put and read back, whole or in chunks

Reference: `rust/http3/src/varint.rs` (`put`, `decode`, `Partial::read`).

`readChunks` is how a caller uses `Partial::read`: chunk after chunk until a value completes. What a
chunk leaves unread is kept, so that `readChunks_eq` accounts for every byte of the stream: those of the
integer are read, those after it are not. `varint_exact` puts it beside the writer's side, where the
encoding written is the shortest of all that decode to the value.
-/

namespace GraphiteMeter.Http3

namespace Varint

/-! ## How much a length holds -/

/-- Bytes read into a value stay within its width. -/
theorem foldl_lt (bytes : Bytes) {value width : ℕ} (h : value < 2 ^ width) :
    bytes.foldl (fun value byte => value <<< 8 ||| byte.toNat) value <
      2 ^ (width + 8 * bytes.length) := by
  induction bytes generalizing value width with
  | nil => simpa using h
  | cons byte bytes ih =>
    have hbyte : byte.toNat < 2 ^ 8 := byte.toNat_lt
    have hstep : value <<< 8 ||| byte.toNat < 2 ^ (width + 8) := by
      apply Nat.or_lt_two_pow
      · rw [Nat.shiftLeft_eq, Nat.pow_add]
        exact Nat.mul_lt_mul_of_pos_right h (Nat.two_pow_pos 8)
      · exact hbyte.trans_le (Nat.pow_le_pow_right Nat.two_pos (by omega))
    rw [List.foldl_cons, List.length_cons, show width + 8 * (bytes.length + 1) =
      width + 8 + 8 * bytes.length by omega]
    exact ih hstep

/-- A decoded integer has two bits less than its bytes: no shift of the source's fold loses one. -/
theorem decode_lt {bytes : Bytes} {value used : ℕ} (h : decode bytes = some (value, used)) :
    value < 2 ^ (8 * used - 2) := by
  cases bytes with
  | nil => cases h
  | cons first rest =>
    rw [decode_cons] at h
    split at h
    · rename_i hle
      cases h
      have hfirst : first.toNat &&& 0x3f < 2 ^ 6 := Nat.and_lt_two_pow _ (by decide)
      have hpos := size_pos first
      have hlen : (rest.take (size first - 1)).length = size first - 1 := by
        rw [List.length_take]
        omega
      have hlt := foldl_lt (rest.take (size first - 1)) hfirst
      rw [hlen] at hlt
      exact hlt.trans_eq (congrArg _ (by omega))
    · cases h

/-- The lengths an encoding can have. -/
theorem size_cases (first : UInt8) : ∃ mark < 4, size first = 2 ^ mark := by
  refine ⟨first.toNat >>> 6, ?_, Nat.one_shiftLeft _⟩
  rw [Nat.shiftRight_eq_div_pow]
  have := first.toNat_lt
  omega

/-- A value that fits a length takes no longer one. -/
theorem len_le_of_lt {value mark : ℕ} (hmark : mark < 4) (h : value < 2 ^ (8 * 2 ^ mark - 2)) :
    len value ≤ 2 ^ mark := by
  unfold len
  match mark, hmark with
  | 0, _ => exact (if_pos (by omega)).le
  | 1, _ => split_ifs <;> omega
  | 2, _ => split_ifs <;> omega
  | 3, _ => split_ifs <;> omega

/-- **No encoding of a value is shorter than the one `put` writes.** -/
theorem len_le_used {bytes : Bytes} {value used : ℕ} (h : decode bytes = some (value, used)) :
    len value ≤ used := by
  obtain ⟨rfl, -⟩ := decode_bounds h
  have hlt := decode_lt h
  cases bytes with
  | nil => cases h
  | cons first rest =>
    obtain ⟨mark, hmark, hsize⟩ := size_cases first
    rw [need, hsize] at hlt ⊢
    exact len_le_of_lt hmark hlt

/-! ## Chunk after chunk -/

namespace Partial

/-- Reads chunk after chunk until a value completes: it, the state left, and what is unread of each
chunk. -/
def readChunks (p : Partial) : List Bytes → Option ℕ × Partial × List Bytes
  | [] => (none, p, [])
  | chunk :: chunks =>
    match p.read chunk with
    | (some value, p', rest) => (some value, p', rest :: chunks)
    | (none, p', rest) =>
      let (value, p'', left) := readChunks p' chunks
      (value, p'', rest :: left)

/-- **The stream is decoded as if it had arrived whole**: the kept bytes and all chunks in one run. -/
theorem readChunks_eq (p : Partial) (chunks : List Bytes) :
    (∃ value used left, decode (p.bytes ++ chunks.flatten) = some (value, used) ∧
      p.readChunks chunks = (some value, empty, left) ∧
      left.flatten = (p.bytes ++ chunks.flatten).drop used) ∨
    (decode (p.bytes ++ chunks.flatten) = none ∧
      ∃ p' left, p.readChunks chunks = (none, p', left) ∧
        p'.bytes = p.bytes ++ chunks.flatten ∧ left.flatten = []) := by
  induction chunks generalizing p with
  | nil =>
    right
    rw [List.flatten_nil, List.append_nil]
    exact ⟨decode_eq_none p.waiting, p, [], rfl, rfl, rfl⟩
  | cons chunk chunks ih =>
    rw [List.flatten_cons, ← List.append_assoc, readChunks]
    obtain ⟨value, used, hdecode, hread⟩ | ⟨-, hwait, hread⟩ := p.read_eq chunk
    · -- the integer ends in this chunk: what follows it stays
      left
      refine ⟨value, used, (p.bytes ++ chunk).drop used :: chunks, decode_append hdecode _, ?_, ?_⟩
      · rw [hread]
      · rw [List.flatten_cons, List.drop_append_of_le_length (decode_bounds hdecode).2]
    · -- the chunk is read whole, and the rest of the stream is read from its bytes
      rw [hread]
      obtain ⟨value, used, rest, hdecode, heq, hrest⟩ | ⟨hnone, p', rest, heq, hbytes, hrest⟩ :=
        ih ⟨p.bytes ++ chunk, hwait⟩
      · exact .inl ⟨value, used, [] :: rest, hdecode, by simp only [heq], hrest⟩
      · exact .inr ⟨hnone, p', [] :: rest, by simp only [heq], hbytes, hrest⟩

end Partial

/-- **Written minimally, read exactly.** A value up to `max` is put in the least number of bytes that
decode to it, 1, 2, 4 or 8, and decoding reads these and no more; and a stream read in chunks gives the
value that decoding it whole gives, and leaves every byte after it, or gives nothing when it is too
short. -/
theorem varint_exact :
    (∀ value ≤ max,
      decode (put value) = some (value, (put value).length) ∧
      (put value).length ∈ [1, 2, 4, 8] ∧
      ∀ bytes used, decode bytes = some (value, used) → (put value).length ≤ used) ∧
    ∀ chunks : List Bytes, match decode chunks.flatten with
      | some (value, used) => ∃ left, Partial.empty.readChunks chunks = (some value, .empty, left) ∧
          left.flatten = chunks.flatten.drop used
      | none => ∃ p left, Partial.empty.readChunks chunks = (none, p, left) ∧
          p.bytes = chunks.flatten ∧ left.flatten = [] := by
  constructor
  · intro value hvalue
    rw [length_put hvalue]
    obtain ⟨mark, hmark, hlen, -⟩ := len_cases hvalue
    refine ⟨length_put hvalue ▸ decode_put hvalue, ?_, fun _ _ => len_le_used⟩
    rw [hlen]
    match mark, hmark with
    | 0, _ | 1, _ | 2, _ | 3, _ => decide
  · intro chunks
    obtain ⟨value, used, left, hdecode, hread, hleft⟩ | ⟨hnone, p, left, hread, hbytes, hleft⟩ :=
      Partial.empty.readChunks_eq chunks
    · rw [show decode chunks.flatten = some (value, used) from hdecode]
      exact ⟨left, hread, hleft⟩
    · rw [show decode chunks.flatten = none from hnone]
      exact ⟨p, left, hread, hbytes, hleft⟩

end Varint

end GraphiteMeter.Http3
