import GraphiteMeter.Lib.Bits
import GraphiteMeter.Lib.CanonicalCode
import GraphiteMeter.Http3.Frame
import Mathlib.Tactic.Set

/-!
# The HPACK Huffman code

Reference: `rust/http3/src/qpack/huffman.rs` (RFC 7541 Appendix B). The code is canonical, so the
code lengths define it.

`canonical` runs the source's three loops over `lengths`. What the proofs need of its tables is the
recurrence between the lengths (`first_succ`, with `first_last` for completeness) and that a code
leads back to its symbol (`symbols_codes`), both by evaluation. From the recurrence no proper prefix
of a code is a code (`le_prefix`), so the decoder's walk reaches each symbol exactly at the end of
its code (`walk_codeBits`); the encoder writes those codes back to back with at most seven one bits
of padding (`ofBytes_encode`).
-/

namespace GraphiteMeter.Http3.Qpack

/-- Why a field section is refused. -/
inductive Invalid where
  | qpack
  | malformed
  /-- Over the size limit: a 431 response to requests. -/
  | tooLarge
  /-- Well formed, but not a request the routes serve: a 400 response. -/
  | unsupported
deriving DecidableEq, Repr

namespace Huffman

/-- Each symbol's code length, 16 per row. The last is EOS. -/
@[irreducible] def lengths : List ℕ := [
  13, 23, 28, 28, 28, 28, 28, 28, 28, 24, 30, 28, 28, 30, 28, 28,
  28, 28, 28, 28, 28, 28, 30, 28, 28, 28, 28, 28, 28, 28, 28, 28,
  6, 10, 10, 12, 13, 6, 8, 11, 10, 10, 8, 11, 8, 6, 6, 6,
  5, 5, 5, 6, 6, 6, 6, 6, 6, 6, 7, 8, 15, 6, 12, 10,
  13, 6, 7, 7, 7, 7, 7, 7, 7, 7, 7, 7, 7, 7, 7, 7,
  7, 7, 7, 7, 7, 7, 7, 7, 8, 7, 8, 13, 19, 13, 14, 6,
  15, 5, 6, 5, 6, 5, 6, 6, 6, 5, 7, 7, 6, 6, 6, 5,
  6, 7, 6, 5, 5, 6, 7, 7, 7, 7, 7, 15, 11, 14, 13, 28,
  20, 22, 20, 20, 22, 22, 22, 23, 22, 23, 23, 23, 23, 23, 24, 23,
  24, 24, 22, 23, 24, 23, 23, 23, 23, 21, 22, 23, 22, 23, 23, 24,
  22, 21, 20, 22, 22, 23, 23, 21, 23, 22, 22, 24, 21, 22, 23, 23,
  21, 21, 22, 21, 23, 22, 23, 23, 20, 22, 22, 22, 23, 22, 22, 23,
  26, 26, 20, 19, 22, 23, 22, 25, 26, 26, 26, 27, 27, 26, 24, 25,
  19, 21, 26, 27, 27, 26, 27, 24, 21, 21, 26, 26, 28, 27, 27, 27,
  20, 24, 20, 21, 22, 21, 21, 23, 22, 22, 25, 25, 24, 24, 26, 23,
  26, 27, 26, 26, 27, 27, 27, 27, 27, 28, 27, 27, 27, 27, 27, 26,
  30]

def eos : ℕ := 256

/-- The tables: each symbol's code and, per length, the first code, how many codes there are and where
their symbols start. -/
structure Tables where
  codes : List ℕ
  first : List ℕ
  count : List ℕ
  start : List ℕ
  symbols : List ℕ

/-- The source's `canonical`, over the loops of `CanonicalCode`. -/
def canonical : Tables :=
  let count := CanonicalCode.countLengths 31 lengths
  let firsts := CanonicalCode.firstCodes 31 count
  let assigned := CanonicalCode.assign lengths firsts.1 firsts.2
  { codes := assigned.1, first := firsts.1, count, start := firsts.2, symbols := assigned.2 }

def length (symbol : ℕ) : ℕ := lengths.getD symbol 0
def code (symbol : ℕ) : ℕ := canonical.codes.getD symbol 0
def first (length : ℕ) : ℕ := canonical.first.getD length 0
def count (length : ℕ) : ℕ := canonical.count.getD length 0
def start (length : ℕ) : ℕ := canonical.start.getD length 0
def symbolAt (index : ℕ) : ℕ := canonical.symbols.getD index 0

/-! ## Encoding -/

/-- The encoded length in bytes, the last one padded. -/
def encodedLen (input : Bytes) : ℕ :=
  ((input.map fun byte => length byte.toNat).sum + 7) / 8

/-- Writes whole bytes off the top of `pending` bits; how many bits stay. -/
def emit (bits pending : ℕ) (output : Bytes) : ℕ × Bytes :=
  if 8 ≤ pending then
    emit bits (pending - 8) (output ++ [UInt8.ofNat (bits >>> (pending - 8))])
  else (pending, output)
termination_by pending

/-- The encoder's accumulator: bits not yet written, fewer than eight between symbols, and the bytes
written. At most 37 bits are ever held, which the source's `u64` fits. -/
structure Writer where
  bits : ℕ
  pending : ℕ
  output : Bytes

def Writer.put (w : Writer) (byte : UInt8) : Writer :=
  let length := length byte.toNat
  let bits := w.bits <<< length ||| code byte.toNat
  let (pending, output) := emit bits (w.pending + length) w.output
  { bits := bits &&& (1 <<< pending - 1), pending, output }

/-- Pads the last byte with the most significant bits of EOS. -/
def Writer.close (w : Writer) : Bytes :=
  if 0 < w.pending then
    w.output ++ [UInt8.ofNat (w.bits <<< (8 - w.pending)) ||| UInt8.ofNat (0xff >>> w.pending)]
  else w.output

def encode (input : Bytes) : Bytes := (input.foldl Writer.put ⟨0, 0, []⟩).close

/-! ## Decoding -/

/-- The decoder's walk: the bits of the code so far, how many, and the symbols read. -/
structure Walk where
  code : ℕ
  length : ℕ
  output : Bytes
deriving DecidableEq, Repr

/-- Takes one bit. The subtraction wraps in `u32`, so a code below the first of its length is not
among them. -/
def Walk.step (w : Walk) (bit : ℕ) : Except Invalid Walk :=
  let code := w.code <<< 1 ||| bit
  let length := w.length + 1
  let index := (code + 2 ^ 32 - first length) % 2 ^ 32
  if index < count length then
    let symbol := symbolAt (start length + index)
    if symbol = eos then .error .qpack
    else .ok ⟨0, 0, w.output ++ [UInt8.ofNat symbol]⟩
  else .ok ⟨code, length, w.output⟩

/-- Takes a byte, from its highest bit to its lowest. -/
def Walk.byte (w : Walk) (byte : UInt8) : Except Invalid Walk :=
  (List.range 8).reverse.foldlM (fun w shift => w.step (byte.toNat >>> shift &&& 1)) w

def decode (input : Bytes) : Except Invalid Bytes := do
  let w ← input.foldlM Walk.byte ⟨0, 0, []⟩
  -- Padding is a prefix of EOS, so at most seven one bits.
  if w.length > 7 ∨ w.code ≠ 1 <<< w.length - 1 then .error .qpack
  else .ok w.output

/-! ## The tables -/

/-- There are 257 symbols, the last of them EOS. -/
theorem length_lengths : lengths.length = 257 := by decide +kernel

/-- A code has 1 to 30 bits. -/
theorem lengths_bound : ∀ l ∈ lengths, 1 ≤ l ∧ l < 31 := by decide +kernel

/-- Every symbol has a length. -/
theorem lt_lengths {symbol : ℕ} (h : symbol < 257) : symbol < lengths.length := by
  rw [length_lengths]
  exact h

/-- The code of a symbol has 1 to 30 bits. -/
theorem length_bound {symbol : ℕ} (h : symbol < 257) : 1 ≤ length symbol ∧ length symbol ≤ 30 := by
  have hs := lt_lengths h
  rw [length, List.getD_eq_getElem _ _ hs]
  have hbound := lengths_bound _ (List.getElem_mem hs)
  omega

/-- The table's first codes are those of the canonical code. -/
theorem first_eq {l : ℕ} (hpos : 1 ≤ l) (hl : l ≤ 30) : first l = CanonicalCode.firstCode lengths l :=
  ((CanonicalCode.firstCodes_spec lengths_bound).2.2 l hpos (by omega)).1

/-- The table counts the codes of each length. -/
theorem count_eq (l : ℕ) : count l = lengths.count l :=
  CanonicalCode.getD_countLengths (fun l hl => (lengths_bound l hl).2) l

/-- A symbol's code is its rank above the first code of its length. -/
theorem code_eq {symbol : ℕ} (h : symbol < 257) :
    code symbol = first (length symbol) + CanonicalCode.rank lengths symbol := by
  obtain ⟨hf, hs, htab⟩ := CanonicalCode.firstCodes_spec lengths_bound
  exact (CanonicalCode.assign_spec lengths_bound hf hs (fun l hl hn => (htab l hl hn).2)
    (lt_lengths h)).1

/-- The symbol table leads from a code back to its symbol. -/
theorem symbolAt_code {symbol : ℕ} (h : symbol < 257) :
    symbolAt (start (length symbol) + (code symbol - first (length symbol))) = symbol := by
  obtain ⟨hf, hs, htab⟩ := CanonicalCode.firstCodes_spec lengths_bound
  obtain ⟨hpos, hle⟩ := length_bound h
  have hstart : start (length symbol) = CanonicalCode.shorter lengths (length symbol) :=
    (htab _ hpos (by omega)).2
  rw [code_eq h, Nat.add_sub_cancel_left, hstart]
  exact (CanonicalCode.assign_spec lengths_bound hf hs (fun l hl hn => (htab l hl hn).2)
    (lt_lengths h)).2

/-- A code is among those of its length. -/
theorem code_lt {symbol : ℕ} (h : symbol < 257) :
    code symbol < first (length symbol) + count (length symbol) := by
  rw [code_eq h, count_eq]
  exact Nat.add_lt_add_left (CanonicalCode.rank_lt_count (lt_lengths h)) _

/-- The code is complete: the 30-bit codes end with all ones, which is EOS. -/
theorem firstCode_last : CanonicalCode.firstCode lengths 30 + lengths.count 30 = 2 ^ 30 := by
  decide +kernel

/-- A proper prefix of a code lies behind the codes of its length, so the walk goes on. -/
theorem le_prefix {symbol l k : ℕ} (h : symbol < 257) (hpos : 1 ≤ l)
    (hlen : length symbol = l + k + 1) : first l + count l ≤ code symbol >>> (k + 1) := by
  obtain ⟨-, hle⟩ := length_bound h
  rw [first_eq hpos (by omega), count_eq]
  refine CanonicalCode.le_prefix ?_
  rw [code_eq h, hlen, first_eq (by omega) (by omega)]
  exact Nat.le_add_right _ _

/-- The codes of a length fit in it. -/
theorem first_add_count_le {l : ℕ} (hpos : 1 ≤ l) (hl : l ≤ 30) : first l + count l ≤ 2 ^ l := by
  rw [first_eq hpos hl, count_eq]
  obtain rfl | hlt := Nat.eq_or_lt_of_le hl
  · exact Nat.le_of_eq firstCode_last
  · have hadd := CanonicalCode.firstCode_add lengths l (29 - l)
    rw [show l + (29 - l) + 1 = 30 by omega, show 29 - l + 1 = 30 - l by omega] at hadd
    refine Nat.le_of_mul_le_mul_right (c := 2 ^ (30 - l)) ?_ (Nat.two_pow_pos _)
    rw [← Nat.pow_add, show l + (30 - l) = 30 by omega, ← firstCode_last]
    exact Nat.le_trans hadd (Nat.le_add_right _ _)

/-- A code fits its length. -/
theorem code_lt_two_pow {symbol : ℕ} (h : symbol < 257) : code symbol < 2 ^ length symbol := by
  obtain ⟨hpos, hle⟩ := length_bound h
  exact Nat.lt_of_lt_of_le (code_lt h) (first_add_count_le hpos hle)

/-- EOS is 30 ones. -/
theorem code_eos : code eos = 2 ^ 30 - 1 := by
  have hlen : length eos = 30 := by decide +kernel
  have hrank : CanonicalCode.rank lengths eos + 1 = lengths.count 30 := by decide +kernel
  rw [code_eq (by decide), hlen, first_eq (by decide) (by decide), ← firstCode_last, ← hrank]
  omega

/-! ## What the encoder writes -/

/-- The code of a byte as it is written. -/
def codeBits (byte : UInt8) : List Bool := Bits.msb (length byte.toNat) (code byte.toNat)

/-- Every byte is a symbol. -/
theorem byte_lt (byte : UInt8) : byte.toNat < 257 :=
  Nat.lt_succ_of_lt byte.toNat_lt

/-- Emitting writes whole bytes and keeps the bits that are left. -/
theorem emit_spec (bits pending : ℕ) (output : Bytes) :
    (emit bits pending output).1 = pending % 8 ∧
      Bits.ofBytes (emit bits pending output).2 ++ Bits.msb (pending % 8) bits
        = Bits.ofBytes output ++ Bits.msb pending bits := by
  fun_induction emit bits pending output with
  | case1 pending output h ih =>
    have hmod : (pending - 8) % 8 = pending % 8 := by omega
    rw [hmod] at ih
    refine ⟨ih.1, ih.2.trans ?_⟩
    have hsplit := Bits.msb_add 8 (pending - 8) bits
    rw [show 8 + (pending - 8) = pending by omega] at hsplit
    rw [Bits.ofBytes_append, Bits.ofBytes_singleton, Bits.msb_ofNat, hsplit, List.append_assoc]
  | case2 pending output h =>
    rw [Nat.mod_eq_of_lt (by omega)]
    exact ⟨rfl, rfl⟩

/-- The accumulator holds `bits`: those of the bytes written, then fewer than eight pending ones. -/
structure Writer.Holds (w : Writer) (bits : List Bool) : Prop where
  fits : w.bits < 2 ^ w.pending
  short : w.pending < 8
  eq : Bits.ofBytes w.output ++ Bits.msb w.pending w.bits = bits

/-- A byte adds the bits of its code. -/
theorem Writer.Holds.put {w : Writer} {bits : List Bool} (h : w.Holds bits) (byte : UInt8) :
    (w.put byte).Holds (bits ++ codeBits byte) := by
  set l := length byte.toNat with hl
  set v := w.bits <<< l ||| code byte.toNat with hv
  obtain ⟨hpending, hbits⟩ := emit_spec v (w.pending + l) w.output
  have hput : w.put byte = ⟨v % 2 ^ ((w.pending + l) % 8), (w.pending + l) % 8,
      (emit v (w.pending + l) w.output).2⟩ := by
    rw [Writer.put, ← hl, ← hv]
    simp only [hpending, Nat.shiftLeft_eq, Nat.one_mul, Nat.and_two_pow_sub_one_eq_mod]
  rw [hput]
  refine ⟨Nat.mod_lt _ (Nat.two_pow_pos _), Nat.mod_lt _ (by omega), ?_⟩
  rw [Bits.msb_mod_of_le (Nat.le_refl _), hbits, hv,
    Bits.msb_shiftLeft_or _ _ _ _ (code_lt_two_pow (byte_lt byte)), ← List.append_assoc, h.eq,
    codeBits]

/-- An input adds the bits of its codes. -/
theorem Writer.holds_foldl (input : Bytes) {w : Writer} {bits : List Bool} (h : w.Holds bits) :
    (input.foldl Writer.put w).Holds (bits ++ input.flatMap codeBits) := by
  induction input generalizing w bits with
  | nil => simpa using h
  | cons byte input ih =>
    rw [List.foldl_cons, List.flatMap_cons, ← List.append_assoc]
    exact ih (h.put byte)

/-- Closing pads with fewer than eight ones. -/
theorem Writer.Holds.close {w : Writer} {bits : List Bool} (h : w.Holds bits) :
    ∃ pad < 8, Bits.ofBytes w.close = bits ++ List.replicate pad true := by
  obtain ⟨hfits, hshort, heq⟩ := h
  by_cases hpending : 0 < w.pending
  · refine ⟨8 - w.pending, by omega, ?_⟩
    have hbyte : w.bits <<< (8 - w.pending) < 2 ^ 8 := by
      have hscaled := Nat.mul_lt_mul_of_pos_right hfits (Nat.two_pow_pos (8 - w.pending))
      rw [← Nat.pow_add, show w.pending + (8 - w.pending) = 8 by omega] at hscaled
      rw [Nat.shiftLeft_eq]
      exact hscaled
    have hpad : 0xff >>> w.pending = 2 ^ (8 - w.pending) - 1 := by
      have hones := Bits.ones_shiftRight (8 - w.pending) w.pending
      rwa [show 8 - w.pending + w.pending = 8 by omega] at hones
    have hones : 2 ^ (8 - w.pending) - 1 < 2 ^ (8 - w.pending) :=
      Nat.sub_lt (Nat.two_pow_pos _) Nat.one_pos
    have hle : 2 ^ (8 - w.pending) ≤ 2 ^ 8 := Nat.pow_le_pow_right (by omega) (by omega)
    rw [Writer.close, if_pos hpending, Bits.ofBytes_append, Bits.ofBytes_singleton, UInt8.toNat_or,
      UInt8.toNat_ofNat', UInt8.toNat_ofNat', Nat.mod_eq_of_lt hbyte, hpad,
      Nat.mod_eq_of_lt (by omega), show (8 : ℕ) = w.pending + (8 - w.pending) by omega]
    conv_lhs => rw [show w.pending + (8 - w.pending) - w.pending = 8 - w.pending by omega]
    rw [Bits.msb_shiftLeft_or _ _ _ _ hones, Bits.msb_ones, ← List.append_assoc, heq]
    congr 2
    omega
  · have hzero : w.pending = 0 := by omega
    rw [hzero, Bits.msb_zero, List.append_nil] at heq
    exact ⟨0, by omega, by rw [Writer.close, if_neg hpending, heq, List.replicate_zero,
      List.append_nil]⟩

/-- **The encoder writes the codes back to back**, padded to a whole byte with one bits. -/
theorem ofBytes_encode (input : Bytes) :
    ∃ pad < 8, Bits.ofBytes (encode input) = input.flatMap codeBits ++ List.replicate pad true := by
  have hstart : (⟨0, 0, []⟩ : Writer).Holds [] := ⟨by decide, by decide, rfl⟩
  obtain ⟨pad, hpad, hclose⟩ := (Writer.holds_foldl input hstart).close
  exact ⟨pad, hpad, by rw [encode, hclose, List.nil_append]⟩

/-- The length is known before encoding. -/
theorem encodedLen_eq (input : Bytes) : encodedLen input = (encode input).length := by
  obtain ⟨pad, hpad, hbits⟩ := ofBytes_encode input
  have hlen := congrArg List.length hbits
  rw [Bits.length_ofBytes, List.length_append, List.length_replicate, List.length_flatMap] at hlen
  simp only [codeBits, Bits.length_msb] at hlen
  rw [encodedLen]
  omega

/-! ## What the decoder reads -/

/-- The decoder's walk over bits. -/
def walk (w : Walk) (bits : List Bool) : Except Invalid Walk :=
  bits.foldlM (fun w bit => w.step bit.toNat) w

/-- Walking two parts is walking the first and then the second. -/
theorem walk_append (w : Walk) (xs ys : List Bool) :
    walk w (xs ++ ys) = (walk w xs).bind fun w' => walk w' ys :=
  List.foldlM_append

/-- The second part is walked from where the first came to. -/
theorem walk_append_of_ok {w w' : Walk} {xs : List Bool} (h : walk w xs = .ok w')
    (ys : List Bool) : walk w (xs ++ ys) = walk w' ys := by
  rw [walk_append, h]
  rfl

/-- Decoding a byte walks its eight bits. -/
theorem byte_eq_walk (w : Walk) (byte : UInt8) : w.byte byte = walk w (Bits.msb 8 byte.toNat) := by
  have hbit : ∀ i, byte.toNat >>> i &&& 1 = (byte.toNat.testBit i).toNat := by
    intro i
    rw [Nat.and_one_is_mod, Nat.shiftRight_eq_div_pow, Nat.toNat_testBit]
  simp only [Walk.byte, walk, Bits.msb, hbit]
  rfl

/-- Decoding an input walks its bits. -/
theorem foldlM_byte_eq_walk (input : Bytes) (w : Walk) :
    input.foldlM Walk.byte w = walk w (Bits.ofBytes input) := by
  induction input generalizing w with
  | nil => rfl
  | cons byte input ih =>
    rw [List.foldlM_cons, ← List.singleton_append, Bits.ofBytes_append, walk_append,
      Bits.ofBytes_singleton, byte_eq_walk]
    exact congrArg _ (funext ih)

/-- A code behind those of its length is not one of them yet. -/
theorem step_miss {w : Walk} {bit code' : ℕ} (hcode : w.code <<< 1 ||| bit = code')
    (hlt : code' < 2 ^ 32) (hge : first (w.length + 1) + count (w.length + 1) ≤ code') :
    w.step bit = .ok ⟨code', w.length + 1, w.output⟩ := by
  have hindex : (code' + 2 ^ 32 - first (w.length + 1)) % 2 ^ 32 = code' - first (w.length + 1) := by
    rw [show code' + 2 ^ 32 - first (w.length + 1) = code' - first (w.length + 1) + 2 ^ 32 by omega,
      Nat.add_mod_right, Nat.mod_eq_of_lt (by omega)]
  simp only [Walk.step, hcode, hindex]
  rw [if_neg (by omega)]

/-- The last bit of a byte's code gives the byte. -/
theorem step_hit {w : Walk} {bit : ℕ} (byte : UInt8) (hcode : w.code <<< 1 ||| bit = code byte.toNat)
    (hlen : w.length + 1 = length byte.toNat) :
    w.step bit = .ok ⟨0, 0, w.output ++ [byte]⟩ := by
  have hbyte := byte_lt byte
  obtain ⟨hpos, hle⟩ := length_bound hbyte
  have hfirst : first (length byte.toNat) ≤ code byte.toNat := code_eq hbyte ▸ Nat.le_add_right _ _
  have hlt := code_lt hbyte
  have hfits : code byte.toNat < 2 ^ 32 := Nat.lt_of_lt_of_le (code_lt_two_pow hbyte)
    (Nat.pow_le_pow_right (by omega) (by omega))
  have hindex : (code byte.toNat + 2 ^ 32 - first (length byte.toNat)) % 2 ^ 32
      = code byte.toNat - first (length byte.toNat) := by
    rw [show code byte.toNat + 2 ^ 32 - first (length byte.toNat)
      = code byte.toNat - first (length byte.toNat) + 2 ^ 32 by omega, Nat.add_mod_right,
      Nat.mod_eq_of_lt (by omega)]
  have heos : byte.toNat ≠ eos := by
    have := byte.toNat_lt
    simp only [eos]
    omega
  simp only [Walk.step, hcode, hlen, hindex]
  rw [if_pos (by omega), symbolAt_code hbyte, if_neg heos, UInt8.ofNat_toNat]

/-- A number is its upper bits and its last. -/
theorem shiftLeft_or_testBit (v : ℕ) : (v >>> 1) <<< 1 ||| (v.testBit 0).toNat = v := by
  rw [Nat.toNat_testBit, Nat.pow_zero, Nat.div_one, Nat.shiftLeft_eq, Nat.shiftRight_eq_div_pow,
    Nat.mul_comm, ← Nat.two_pow_add_eq_or_of_lt (by omega)]
  omega

/-- Along the code of a symbol the walk finds nothing before its end. -/
theorem walk_prefix {symbol : ℕ} (h : symbol < 257) (output : Bytes) (k : ℕ)
    (hk : k < length symbol) :
    walk ⟨0, 0, output⟩ (Bits.msb k (code symbol >>> (length symbol - k)))
      = .ok ⟨code symbol >>> (length symbol - k), k, output⟩ := by
  induction k with
  | zero =>
    rw [Nat.sub_zero, Nat.shiftRight_eq_div_pow, Nat.div_eq_of_lt (code_lt_two_pow h)]
    rfl
  | succ k ih =>
    obtain ⟨-, hle⟩ := length_bound h
    set v := code symbol >>> (length symbol - (k + 1)) with hv
    have hhalf : v >>> 1 = code symbol >>> (length symbol - k) := by
      rw [hv, ← Nat.shiftRight_add]
      congr 1
      omega
    have hsmall : v < 2 ^ 32 := by
      rw [hv, Nat.shiftRight_eq_div_pow]
      exact Nat.lt_of_le_of_lt (Nat.div_le_self _ _) (Nat.lt_of_lt_of_le (code_lt_two_pow h)
        (Nat.pow_le_pow_right (by omega) (by omega)))
    have hbehind := le_prefix (l := k + 1) (k := length symbol - (k + 1) - 1) h (by omega) (by omega)
    rw [show length symbol - (k + 1) - 1 + 1 = length symbol - (k + 1) by omega, ← hv] at hbehind
    have hbit : (code symbol >>> (length symbol - k)) <<< 1 ||| (v.testBit 0).toNat = v := by
      rw [← hhalf, shiftLeft_or_testBit]
    rw [Bits.msb_succ_last, hhalf, walk_append_of_ok (ih (by omega)), walk, List.foldlM_cons,
      step_miss hbit hsmall hbehind]
    rfl

/-- **The code of a byte reads back as the byte.** -/
theorem walk_codeBits (output : Bytes) (byte : UInt8) :
    walk ⟨0, 0, output⟩ (codeBits byte) = .ok ⟨0, 0, output ++ [byte]⟩ := by
  have hbyte := byte_lt byte
  obtain ⟨hpos, hle⟩ := length_bound hbyte
  have hprefix := walk_prefix hbyte output (length byte.toNat - 1) (by omega)
  rw [show length byte.toNat - (length byte.toNat - 1) = 1 by omega] at hprefix
  have hlast := Bits.msb_succ_last (length byte.toNat - 1) (code byte.toNat)
  rw [show length byte.toNat - 1 + 1 = length byte.toNat by omega] at hlast
  rw [codeBits, hlast, walk_append_of_ok hprefix, walk, List.foldlM_cons, step_hit byte (by
    simp only
    rw [shiftLeft_or_testBit]) (by simp only; omega)]
  rfl

/-- Walking the codes of an input gives it back. -/
theorem walk_flatMap_codeBits (input output : Bytes) :
    walk ⟨0, 0, output⟩ (input.flatMap codeBits) = .ok ⟨0, 0, output ++ input⟩ := by
  induction input generalizing output with
  | nil => rw [List.append_nil]; rfl
  | cons byte input ih =>
    rw [List.flatMap_cons, walk_append_of_ok (walk_codeBits output byte), ih, List.append_assoc,
      List.singleton_append]

/-- Padding is the start of EOS, which the walk does not reach. -/
theorem walk_padding (output : Bytes) {pad : ℕ} (hpad : pad < 8) :
    walk ⟨0, 0, output⟩ (List.replicate pad true) = .ok ⟨2 ^ pad - 1, pad, output⟩ := by
  have hlen : length eos = 30 := by decide +kernel
  have hprefix := walk_prefix (show eos < 257 by decide) output pad (by omega)
  have hones := Bits.ones_shiftRight pad (30 - pad)
  rw [show pad + (30 - pad) = 30 by omega] at hones
  rw [hlen, code_eos, hones, Bits.msb_ones] at hprefix
  exact hprefix

/-- What is left at the end must be fewer than eight ones. -/
theorem decode_of_walk {input : Bytes} {w : Walk}
    (h : walk ⟨0, 0, []⟩ (Bits.ofBytes input) = .ok w) :
    decode input =
      if w.length > 7 ∨ w.code ≠ 1 <<< w.length - 1 then .error .qpack else .ok w.output := by
  rw [decode, foldlM_byte_eq_walk, h]
  rfl

/-- The codes of `x` back to back, with at most seven one bits of padding, decode to `x`. -/
theorem decode_of_bits {x y : Bytes} {pad : ℕ} (hpad : pad < 8)
    (hbits : Bits.ofBytes y = x.flatMap codeBits ++ List.replicate pad true) :
    decode y = .ok x := by
  have hwalk : walk ⟨0, 0, []⟩ (Bits.ofBytes y) = .ok ⟨2 ^ pad - 1, pad, x⟩ := by
    rw [hbits, walk_append_of_ok (walk_flatMap_codeBits x []), List.nil_append, walk_padding x hpad]
  rw [decode_of_walk hwalk, if_neg]
  simp only [Nat.shiftLeft_eq, Nat.one_mul]
  omega

/-- **Decoding what was encoded gives it back.** -/
theorem decode_encode (input : Bytes) : decode (encode input) = .ok input := by
  obtain ⟨pad, hpad, hbits⟩ := ofBytes_encode input
  exact decode_of_bits hpad hbits

end Huffman

end GraphiteMeter.Http3.Qpack
