import GraphiteMeter.Http3.Qpack.Huffman

/-!
# The decoder accepts exactly what the encoder writes

Reference: `rust/http3/src/qpack/huffman.rs`.

The code is complete, so the walk knows at every bit what it has read: `Walk.Read` says that the bits
taken so far are the codes of the symbols found, followed by the bits of the code under way, and that
those lie behind the codes of their length. Behind the codes of length 30 there is nothing left, so the
walk never asks the tables for a longer one (`Walk.Read.step`).
-/

namespace GraphiteMeter.Http3.Qpack.Huffman

/-- The first code of a length stands behind the codes of the previous one, doubled. -/
theorem first_succ {l : ℕ} (hpos : 1 ≤ l) (hl : l < 30) :
    first (l + 1) = (first l + count l) * 2 := by
  rw [first_eq (by omega) (by omega), first_eq hpos (by omega), count_eq]
  rfl

/-- The first code of one bit is zero. -/
theorem first_one : first 1 = 0 := by
  rw [first_eq (by omega) (by omega)]
  exact CanonicalCode.firstCode_one fun l hl => (lengths_bound l hl).1

/-- Every code from the first of its length on, as many as there are, is a symbol's, and the tables
lead to it. -/
theorem exists_symbol {l index : ℕ} (hindex : index < count l) :
    ∃ symbol < 257, symbolAt (start l + index) = symbol ∧ length symbol = l ∧
      code symbol = first l + index := by
  rw [count_eq] at hindex
  obtain ⟨symbol, hlt, hlen, hrank⟩ := CanonicalCode.exists_rank hindex
  have hsymbol : symbol < 257 := length_lengths ▸ hlt
  have hlength : length symbol = l := hlen
  have hcode : code symbol = first l + index := by
    rw [code_eq hsymbol, hlength, hrank]
  refine ⟨symbol, hsymbol, ?_, hlength, hcode⟩
  have hback := symbolAt_code hsymbol
  rwa [hlength, hcode, Nat.add_sub_cancel_left] at hback

/-! ## What a walk has read -/

/-- The walk has read `bits`: the codes of its symbols, then the bits of a code under way. -/
structure Walk.Read (w : Walk) (bits : List Bool) : Prop where
  eq : bits = w.output.flatMap codeBits ++ Bits.msb w.length w.code
  fits : w.code < 2 ^ w.length
  short : w.length < 30
  behind : 1 ≤ w.length → first w.length + count w.length ≤ w.code

/-- A walk has read nothing at its start. -/
theorem Walk.read_start : Walk.Read ⟨0, 0, []⟩ [] where
  eq := rfl
  fits := Nat.one_pos
  short := by decide
  behind := by simp

section Step

variable {w : Walk} {bits : List Bool} (h : w.Read bits) (bit : Bool)
include h

/-- The code under way is not below the first of its length. -/
theorem Walk.Read.first_le : first (w.length + 1) ≤ w.code <<< 1 ||| bit.toNat := by
  have hshift : w.code * 2 ≤ w.code <<< 1 ||| bit.toNat := by
    rw [Nat.shiftLeft_eq, Nat.pow_one]
    exact Nat.left_le_or
  by_cases hzero : w.length = 0
  · rw [hzero, first_one]
    exact Nat.zero_le _
  · have hbehind := h.behind (by omega)
    rw [first_succ (by omega) h.short]
    exact Nat.le_trans (Nat.mul_le_mul_right 2 hbehind) hshift

/-- One more bit keeps a walk's code within its length. -/
theorem Walk.Read.code_lt : w.code <<< 1 ||| bit.toNat < 2 ^ (w.length + 1) := by
  apply Nat.or_lt_two_pow
  · rw [Nat.shiftLeft_eq, Nat.pow_succ]
    exact Nat.mul_lt_mul_of_pos_right h.fits (by decide)
  · have hbit := Bool.toNat_lt bit
    have hpow : 2 ^ 1 ≤ 2 ^ (w.length + 1) := Nat.pow_le_pow_right (by decide) (by omega)
    omega

/-- The wrapping subtraction does not wrap. -/
theorem Walk.Read.index_eq :
    ((w.code <<< 1 ||| bit.toNat) + 2 ^ 32 - first (w.length + 1)) % 2 ^ 32 =
      (w.code <<< 1 ||| bit.toNat) - first (w.length + 1) := by
  have hfirst := h.first_le bit
  have hlt := h.code_lt bit
  have hpow : 2 ^ (w.length + 1) ≤ 2 ^ 32 :=
    Nat.pow_le_pow_right (by decide) (by have := h.short; omega)
  generalize w.code <<< 1 ||| bit.toNat = code' at hfirst hlt ⊢
  rw [show code' + 2 ^ 32 - first (w.length + 1) = code' - first (w.length + 1) + 2 ^ 32 by omega,
    Nat.add_mod_right, Nat.mod_eq_of_lt (by omega)]

omit h in
/-- One more bit of a code stands behind the others. -/
theorem msb_concat :
    Bits.msb (w.length + 1) (w.code <<< 1 ||| bit.toNat) = Bits.msb w.length w.code ++ [bit] := by
  rw [Bits.msb_shiftLeft_or _ _ _ _ (Bool.toNat_lt bit)]
  cases bit <;> rfl

/-- **One bit.** The walk has read it too, unless it completes EOS. -/
theorem Walk.Read.step {w' : Walk} (hstep : w.step bit.toNat = .ok w') : w'.Read (bits ++ [bit]) := by
  have hfirst := h.first_le bit
  have hlt := h.code_lt bit
  have hmsb := msb_concat (w := w) bit
  have hshort := h.short
  unfold Walk.step at hstep
  simp only [h.index_eq bit] at hstep
  generalize w.code <<< 1 ||| bit.toNat = code' at *
  by_cases hhit : code' - first (w.length + 1) < count (w.length + 1)
  · rw [if_pos hhit] at hstep
    obtain ⟨symbol, hsymbol, hat, hlength, hcode⟩ := exists_symbol hhit
    rw [hat] at hstep
    by_cases heos : symbol = eos
    · rw [if_pos heos] at hstep
      cases hstep
    · rw [if_neg heos] at hstep
      cases hstep
      have hbyte : (UInt8.ofNat symbol).toNat = symbol := by
        rw [UInt8.toNat_ofNat', Nat.mod_eq_of_lt]
        unfold eos at heos
        omega
      exact {
        eq := by
          have hcode' : Huffman.code symbol = code' := by omega
          rw [List.flatMap_append, h.eq, List.append_assoc, ← hmsb, List.flatMap_singleton, codeBits,
            hbyte, hlength, hcode', Bits.msb_zero, List.append_nil]
        fits := Nat.one_pos
        short := Nat.succ_pos 29
        behind := by simp }
  · rw [if_neg hhit] at hstep
    cases hstep
    have hnext : w.length + 1 < 30 := by
      -- behind the codes of length 30 there is no code left
      by_contra hlast
      have hlen : w.length + 1 = 30 := by omega
      have hfull := firstCode_last
      rw [← first_eq (by decide) (by decide), ← count_eq] at hfull
      rw [hlen] at hhit hlt hfirst
      omega
    exact {
      eq := by rw [h.eq, List.append_assoc, ← hmsb]
      fits := hlt
      short := hnext
      behind := fun _ => show first (w.length + 1) + count (w.length + 1) ≤ code' by omega }

end Step

/-- **What a walk has read**, after any bits. -/
theorem walk_read {w w' : Walk} {bits more : List Bool} (h : w.Read bits)
    (hwalk : walk w more = .ok w') : w'.Read (bits ++ more) := by
  induction more generalizing w bits with
  | nil =>
    cases hwalk
    rwa [List.append_nil]
  | cons bit more ih =>
    rw [walk, List.foldlM_cons] at hwalk
    cases hstep : w.step bit.toNat with
    | error e =>
      rw [hstep] at hwalk
      cases hwalk
    | ok w₁ =>
      rw [hstep] at hwalk
      rw [List.append_cons]
      exact ih (h.step bit hstep) hwalk

/-! ## The image of the encoder -/

/-- The decoder accepts the codes of its output, padded with at most seven one bits. -/
theorem decode_eq_ok {x y : Bytes} :
    decode y = .ok x ↔
      ∃ pad < 8, Bits.ofBytes y = x.flatMap codeBits ++ List.replicate pad true := by
  constructor
  · intro hdecode
    match hwalk : walk ⟨0, 0, []⟩ (Bits.ofBytes y) with
    | .error e =>
      rw [decode, foldlM_byte_eq_walk, hwalk] at hdecode
      cases hdecode
    | .ok w =>
      have hread := walk_read Walk.read_start hwalk
      rw [decode_of_walk hwalk] at hdecode
      split at hdecode
      · cases hdecode
      · rename_i hpad
        cases hdecode
        rw [not_or, not_not, Nat.shiftLeft_eq, Nat.one_mul] at hpad
        refine ⟨w.length, by omega, ?_⟩
        have heq := hread.eq
        rwa [List.nil_append, hpad.2, Bits.msb_ones] at heq
  · rintro ⟨pad, hpad, hbits⟩
    exact decode_of_bits hpad hbits

/-- Padding to a whole byte is determined by the codes it follows. -/
theorem encode_eq_of_ofBytes {x y : Bytes} {pad : ℕ} (hpad : pad < 8)
    (h : Bits.ofBytes y = x.flatMap codeBits ++ List.replicate pad true) : encode x = y := by
  obtain ⟨pad', hpad', h'⟩ := ofBytes_encode x
  have hlen := congrArg List.length h
  have hlen' := congrArg List.length h'
  rw [Bits.length_ofBytes, List.length_append, List.length_replicate] at hlen hlen'
  obtain rfl : pad = pad' := by omega
  exact Bits.ofBytes_injective (h'.trans h.symm)

/-- The walks with which the decoder enters the body of its inner loop on `input`: after whole bytes
of it, and the first `bits` of the next one. -/
def Enters (input : Bytes) (w : Walk) : Prop :=
  ∃ before byte after bits, input = before ++ byte :: after ∧ bits < 8 ∧
    (before.foldlM Walk.byte ⟨0, 0, []⟩ >>= fun w =>
      ((List.range 8).reverse.take bits).foldlM
        (fun w shift => w.step (byte.toNat >>> shift &&& 1)) w) = .ok w

/-- Part of a byte is a walk over its bits. -/
theorem foldlM_shifts_eq_walk (w : Walk) (byte : UInt8) (bits : ℕ) :
    ((List.range 8).reverse.take bits).foldlM
        (fun w shift => w.step (byte.toNat >>> shift &&& 1)) w =
      walk w ((Bits.msb 8 byte.toNat).take bits) := by
  have hmsb : Bits.msb 8 byte.toNat = (List.range 8).reverse.map byte.toNat.testBit := rfl
  have hbit : ∀ i, byte.toNat >>> i &&& 1 = (byte.toNat.testBit i).toNat := by
    intro i
    rw [Nat.and_one_is_mod, Nat.shiftRight_eq_div_pow, Nat.toNat_testBit]
  rw [hmsb, ← List.map_take, walk, List.foldlM_map]
  simp only [hbit]

/-- A walk that is entered has read some bits. -/
theorem Enters.read {input : Bytes} {w : Walk} (h : Enters input w) : ∃ bits, w.Read bits := by
  obtain ⟨before, byte, after, bits, -, -, hw⟩ := h
  rw [foldlM_byte_eq_walk] at hw
  simp only [foldlM_shifts_eq_walk] at hw
  have hwalk : walk ⟨0, 0, []⟩ (Bits.ofBytes before ++ (Bits.msb 8 byte.toNat).take bits) = .ok w := by
    rw [walk_append]
    exact hw
  exact ⟨_, walk_read Walk.read_start hwalk⟩

/-- **The Huffman code is exact.** Encoding then decoding gives the bytes back, in as many bytes as
announced; the decoder accepts exactly what the encoder writes, which is the codes of the bytes followed
by at most seven one bits; and on no input does its code length run past the tables. -/
theorem huffman_exact :
    (∀ x, decode (encode x) = .ok x ∧ encodedLen x = (encode x).length) ∧
    (∀ x y, decode y = .ok x ↔ encode x = y) ∧
    (∀ x y, decode y = .ok x ↔
      ∃ pad < 8, Bits.ofBytes y = x.flatMap codeBits ++ List.replicate pad true) ∧
    ∀ input w, Enters input w →
      w.length + 1 < canonical.first.length ∧ w.length + 1 < canonical.count.length ∧
        w.length + 1 < canonical.start.length := by
  refine ⟨fun x => ⟨decode_encode x, encodedLen_eq x⟩, fun x y => ⟨?_, ?_⟩,
    fun x y => decode_eq_ok, ?_⟩
  · intro hdecode
    obtain ⟨pad, hpad, hbits⟩ := decode_eq_ok.mp hdecode
    exact encode_eq_of_ofBytes hpad hbits
  · rintro rfl
    exact decode_encode x
  · intro input w hw
    obtain ⟨bits, hread⟩ := hw.read
    have hshort := hread.short
    have hfirst : canonical.first.length = 31 := (CanonicalCode.firstCodes_spec lengths_bound).1
    have hstart : canonical.start.length = 31 := (CanonicalCode.firstCodes_spec lengths_bound).2.1
    have hcount : canonical.count.length = 31 := by decide +kernel
    omega

end GraphiteMeter.Http3.Qpack.Huffman
