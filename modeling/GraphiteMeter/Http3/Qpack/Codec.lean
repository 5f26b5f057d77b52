import GraphiteMeter.Http3.Qpack.Huffman
import GraphiteMeter.Http3.Qpack.Table

/-!
# Field sections in static-only QPACK

Reference: `rust/http3/src/qpack/mod.rs` (RFC 9204). A dynamic table capacity of 0 is advertised by
omission, so lines refer to the static table or hold their strings.

The decoder hands each field to its caller as it reads it, which may refuse it. `decode_encode` says
that for every such caller, decoding an encoded list is going through the list.
-/

namespace GraphiteMeter.Http3.Qpack

namespace Invalid

/-- The code a stream that cannot answer with a status ends with. -/
def code : Invalid → Code
  | .qpack => .qpackDecompressionFailed
  | .tooLarge => .h3ExcessiveLoad
  | .malformed | .unsupported => .h3MessageError

end Invalid

/-! ## Reading -/

/-- The continuation bytes of a prefixed integer, one for each of `shifts`. -/
def continued : List ℕ → ℕ → Bytes → Except Invalid (ℕ × Bytes)
  | [], _, _ => .error .qpack
  | _ :: _, _, [] => .error .qpack
  | shift :: shifts, value, byte :: rest =>
    let value := value + (byte.toNat &&& 0x7f) <<< shift
    if byte &&& 0x80 = 0 then .ok (value, rest) else continued shifts value rest

/-- A prefixed integer (RFC 7541 §5.1) whose value fits the section anyway, so at most 2^35. -/
def integer (bits : ℕ) : Bytes → Except Invalid (ℕ × Bytes)
  | [] => .error .qpack
  | first :: rest =>
    let max := 1 <<< bits - 1
    let value := first.toNat &&& max
    if value = max then continued [0, 7, 14, 21, 28] value rest else .ok (value, rest)

/-- A string literal after a prefix of `bits` length bits and one Huffman bit. -/
def string (bits : ℕ) (input : Bytes) : Except Invalid (Bytes × Bytes) :=
  let huffman := input.head?.any fun first => first.toNat &&& 1 <<< bits != 0
  match integer bits input with
  | .error invalid => .error invalid
  | .ok (length, rest) =>
    if length ≤ rest.length then
      if huffman then (Huffman.decode (rest.take length)).map fun text => (text, rest.drop length)
      else .ok (rest.take length, rest.drop length)
    else .error .qpack

def entry (index : ℕ) : Except Invalid (Bytes × Bytes) :=
  match Table.static[index]? with
  | some field => .ok field
  | none => .error .qpack

/-- One field line, with its name, its value and what follows it. -/
def line (input : Bytes) : Except Invalid (Bytes × Bytes × Bytes) :=
  match input with
  | [] => .error .qpack
  | first :: _ =>
    -- Indexed field line; T=0 would reference the dynamic table.
    if 0xc0 ≤ first.toNat then do
      let (index, rest) ← integer 6 input
      let (name, value) ← entry index
      .ok (name, value, rest)
    -- Literal field line with a static name reference.
    else if (0x50 ≤ first.toNat ∧ first.toNat ≤ 0x5f) ∨ (0x70 ≤ first.toNat ∧ first.toNat ≤ 0x7f)
    then do
      let (index, rest) ← integer 4 input
      let (name, _) ← entry index
      let (value, rest) ← string 7 rest
      .ok (name, value, rest)
    -- Literal field line with a literal name.
    else if 0x20 ≤ first.toNat ∧ first.toNat ≤ 0x3f then do
      let (name, rest) ← string 3 input
      let (value, rest) ← string 7 rest
      .ok (name, value, rest)
    else .error .qpack

/-- A sequence of fallible steps that succeeds, taken apart. -/
theorem bind_eq_ok {ε α β : Type} {x : Except ε α} {f : α → Except ε β} {b : β}
    (h : x >>= f = .ok b) : ∃ a, x = .ok a ∧ f a = .ok b := by
  cases x with
  | error e => cases h
  | ok a => exact ⟨a, rfl, h⟩

/-- A continued integer takes at least one byte. -/
theorem length_lt_of_continued {shifts : List ℕ} {value value' : ℕ} {input rest : Bytes}
    (h : continued shifts value input = .ok (value', rest)) : rest.length < input.length := by
  induction shifts generalizing value input with
  | nil => cases h
  | cons shift shifts ih =>
    cases input with
    | nil => cases h
    | cons byte input =>
      simp only [continued] at h
      split at h
      · cases h
        exact Nat.lt_succ_self _
      · exact Nat.lt_succ_of_lt (ih h)

/-- An integer takes at least one byte. -/
theorem length_lt_of_integer {bits value : ℕ} {input rest : Bytes}
    (h : integer bits input = .ok (value, rest)) : rest.length < input.length := by
  cases input with
  | nil => cases h
  | cons first input =>
    simp only [integer] at h
    split at h
    · exact Nat.lt_succ_of_lt (length_lt_of_continued h)
    · cases h
      exact Nat.lt_succ_self _

/-- A string takes at least one byte. -/
theorem length_lt_of_string {bits : ℕ} {input text rest : Bytes}
    (h : string bits input = .ok (text, rest)) : rest.length < input.length := by
  simp only [string] at h
  match hint : integer bits input with
  | .error invalid =>
    rw [hint] at h
    cases h
  | .ok (length, left) =>
    have hleft := length_lt_of_integer hint
    have hdrop : (left.drop length).length ≤ left.length := by simp
    simp only [hint] at h
    split_ifs at h
    · cases hdec : Huffman.decode (left.take length) with
      | error invalid =>
        rw [hdec] at h
        cases h
      | ok decoded =>
        rw [hdec] at h
        cases h
        exact Nat.lt_of_le_of_lt hdrop hleft
    · cases h
      exact Nat.lt_of_le_of_lt hdrop hleft

/-- A field line takes at least one byte. -/
theorem length_lt_of_line {input name value rest : Bytes}
    (h : line input = .ok (name, value, rest)) : rest.length < input.length := by
  cases input with
  | nil => cases h
  | cons first input =>
    simp only [line] at h
    split_ifs at h
    · obtain ⟨⟨index, left⟩, hint, h⟩ := bind_eq_ok h
      obtain ⟨⟨n, v⟩, -, h⟩ := bind_eq_ok h
      cases h
      exact length_lt_of_integer hint
    · obtain ⟨⟨index, left⟩, hint, h⟩ := bind_eq_ok h
      obtain ⟨⟨n, v⟩, -, h⟩ := bind_eq_ok h
      obtain ⟨⟨text, left'⟩, hstr, h⟩ := bind_eq_ok h
      cases h
      exact Nat.lt_trans (length_lt_of_string hstr) (length_lt_of_integer hint)
    · obtain ⟨⟨n, left⟩, hname, h⟩ := bind_eq_ok h
      obtain ⟨⟨text, left'⟩, hstr, h⟩ := bind_eq_ok h
      cases h
      exact Nat.lt_trans (length_lt_of_string hstr) (length_lt_of_string hname)

section Decode

variable {σ : Type} (field : σ → Bytes → Bytes → Except Invalid σ)

/-- Reads the lines up to the end, handing each field to `field`. -/
def decodeLines (s : σ) (input : Bytes) : Except Invalid σ :=
  if input = [] then .ok s
  else
    match _hline : line input with
    | .error invalid => .error invalid
    | .ok (name, value, rest) =>
      match field s name value with
      | .error invalid => .error invalid
      | .ok s => decodeLines s rest
termination_by input.length
decreasing_by exact length_lt_of_line _hline

/-- Required Insert Count 0; with nothing to reference, any non-negative Base (sign bit 0) is moot. -/
def decode (s : σ) (input : Bytes) : Except Invalid σ :=
  match input with
  | 0 :: base :: rest =>
    if base &&& 0x80 ≠ 0 then .error .qpack
    else
      match integer 7 (base :: rest) with
      | .error invalid => .error invalid
      | .ok (_, rest) => decodeLines field s rest
  | _ => .error .qpack

end Decode

/-! ## Writing -/

def putRest (rest : ℕ) : Bytes :=
  if 0x80 ≤ rest then (0x80 ||| UInt8.ofNat rest) :: putRest (rest >>> 7) else [UInt8.ofNat rest]
termination_by rest
decreasing_by
  rw [Nat.shiftRight_eq_div_pow]
  omega

def putInteger (value bits : ℕ) (pattern : UInt8) : Bytes :=
  let max := 1 <<< bits - 1
  if value < max then [pattern ||| UInt8.ofNat value]
  else (pattern ||| UInt8.ofNat max) :: putRest (value - max)

def putString (text : Bytes) (bits : ℕ) (pattern : UInt8) : Bytes :=
  let huffman := Huffman.encodedLen text
  if huffman < text.length then
    putInteger huffman bits (pattern ||| UInt8.ofNat (1 <<< bits)) ++ Huffman.encode text
  else putInteger text.length bits pattern ++ text

/-- A field's line, with a static reference where one exists. -/
def putLine (name value : Bytes) : Bytes :=
  match Table.find name value with
  | .field index => putInteger index 6 0xc0
  | .name index => putInteger index 4 0x50 ++ putString value 7 0x00
  | .none => putString name 3 0x20 ++ putString value 7 0x00

/-- A field section, with static references where they exist and Huffman where it is shorter. -/
def encode (fields : List (Bytes × Bytes)) : Bytes :=
  [0, 0] ++ fields.flatMap fun (name, value) => putLine name value

/-! ## Reading back what was written -/

/-- Masking the low bits is a remainder. -/
theorem and_max (n bits : ℕ) : n &&& (1 <<< bits - 1) = n % 2 ^ bits := by
  rw [Nat.shiftLeft_eq, Nat.one_mul, Nat.and_two_pow_sub_one_eq_mod]

/-- A pattern keeps its low bits free, so a number put there adds to it. -/
theorem toNat_pattern_or {pattern : UInt8} {bits a m : ℕ} (hpat : pattern.toNat = 2 ^ bits * a)
    (hfit : pattern.toNat + 2 ^ bits ≤ 256) (hm : m < 2 ^ bits) :
    (pattern ||| UInt8.ofNat m).toNat = 2 ^ bits * a + m := by
  rw [UInt8.toNat_or, UInt8.toNat_ofNat', Nat.mod_eq_of_lt (by omega), hpat,
    ← Nat.two_pow_add_eq_or_of_lt hm]

/-- A continuation byte carries the low seven bits. -/
theorem toNat_continuation (rest : ℕ) : (0x80 ||| UInt8.ofNat rest).toNat % 128 = rest % 128 := by
  rw [UInt8.toNat_or, UInt8.toNat_ofNat', show 128 = 2 ^ 7 from rfl, Nat.or_mod_two_pow]
  simp only [show (0x80 : UInt8).toNat % 2 ^ 7 = 0 from rfl, Nat.zero_or]
  omega

/-- A continuation byte has its high bit set. -/
theorem continuation_flag (rest : ℕ) : (0x80 ||| UInt8.ofNat rest) &&& 0x80 ≠ 0 := by
  intro h
  have hnat := congrArg UInt8.toNat h
  rw [UInt8.toNat_and, UInt8.toNat_or] at hnat
  have hbit := congrArg (·.testBit 7) hnat
  have hflag : Nat.testBit (0x80 : UInt8).toNat 7 = true := by decide
  simp only [Nat.testBit_and, Nat.testBit_or, hflag, Bool.true_or, Bool.and_self] at hbit
  exact absurd hbit (by decide)

/-- The last byte has its high bit clear. -/
theorem last_flag {rest : ℕ} (h : rest < 128) : UInt8.ofNat rest &&& 0x80 = 0 := by
  refine UInt8.toNat_inj.mp ?_
  rw [UInt8.toNat_and, UInt8.toNat_ofNat', Nat.mod_eq_of_lt (by omega)]
  refine Nat.eq_of_testBit_eq fun i => ?_
  rw [Nat.testBit_and, show (0x80 : UInt8).toNat = 2 ^ 7 from rfl, Nat.testBit_two_pow]
  by_cases hi : 7 = i
  · subst hi
    simp [Nat.testBit_lt_two_pow (show rest < 2 ^ 7 by omega)]
  · simp [hi]

/-- The continuation bytes carry seven bits each, from the lowest on. -/
theorem continued_putRest (n start value rest : ℕ) (tail : Bytes) (hrest : rest < 128 ^ n)
    (hn : n ≠ 0) :
    continued ((List.range n).map fun i => 7 * (start + i)) value (putRest rest ++ tail)
      = .ok (value + rest * 2 ^ (7 * start), tail) := by
  induction n generalizing start value rest with
  | zero => exact absurd rfl hn
  | succ n ih =>
    have hshifts : ((List.range (n + 1)).map fun i => 7 * (start + i))
        = 7 * start :: (List.range n).map fun i => 7 * (start + 1 + i) := by
      rw [List.range_succ_eq_map, List.map_cons, List.map_map, Nat.add_zero]
      refine congrArg _ (List.map_congr_left fun i _ => ?_)
      simp only [Function.comp_apply]
      omega
    rw [hshifts, putRest]
    have hmask : ∀ b : UInt8, b.toNat &&& 0x7f = b.toNat % 128 :=
      fun b => Nat.and_two_pow_sub_one_eq_mod b.toNat 7
    by_cases hmore : 0x80 ≤ rest
    · have hn' : n ≠ 0 := by
        rintro rfl
        omega
      have hsmall : rest >>> 7 < 128 ^ n := by
        rw [Nat.shiftRight_eq_div_pow, Nat.div_lt_iff_lt_mul (by omega)]
        rw [Nat.pow_succ] at hrest
        omega
      rw [if_pos hmore, List.cons_append, continued, if_neg (continuation_flag rest), hmask,
        toNat_continuation, ih _ _ _ hsmall hn', Nat.shiftLeft_eq, Nat.shiftRight_eq_div_pow,
        show 7 * (start + 1) = 7 + 7 * start by omega, Nat.pow_add, ← Nat.mul_assoc, Nat.add_assoc,
        ← Nat.add_mul]
      congr 4
      omega
    · rw [if_neg hmore, List.singleton_append, continued, if_pos (last_flag (by omega)), hmask,
        UInt8.toNat_ofNat', Nat.shiftLeft_eq]
      congr 4
      omega

/-- More continuation bytes than there are shifts are refused. -/
theorem continued_putRest_long (n start value rest : ℕ) (tail : Bytes) (hrest : 128 ^ n ≤ rest) :
    continued ((List.range n).map fun i => 7 * (start + i)) value (putRest rest ++ tail)
      = .error .qpack := by
  induction n generalizing start value rest with
  | zero => rfl
  | succ n ih =>
    have hshifts : ((List.range (n + 1)).map fun i => 7 * (start + i))
        = 7 * start :: (List.range n).map fun i => 7 * (start + 1 + i) := by
      rw [List.range_succ_eq_map, List.map_cons, List.map_map, Nat.add_zero]
      refine congrArg _ (List.map_congr_left fun i _ => ?_)
      simp only [Function.comp_apply]
      omega
    have hpos : 0 < 128 ^ n := Nat.pow_pos (by omega)
    rw [Nat.pow_succ] at hrest
    have hlong : 128 ^ n ≤ rest >>> 7 := by
      rw [Nat.shiftRight_eq_div_pow, Nat.le_div_iff_mul_le (by omega)]
      exact hrest
    rw [hshifts, putRest, if_pos (show 0x80 ≤ rest by omega), List.cons_append, continued,
      if_neg (continuation_flag rest), ih _ _ _ hlong]

/-- What was written is read back, or refused where a length in it is too long for the reader. -/
def ReadsBack {α : Type} (size : ℕ) (read : Except Invalid α) (a : α) : Prop :=
  read = .ok a ∨ 2 ^ 35 ≤ size ∧ read = .error .qpack

/-- Below the largest size what is written reads back. -/
theorem ReadsBack.eq_ok {α : Type} {size : ℕ} {read : Except Invalid α} {a : α}
    (h : ReadsBack size read a) (hsize : size < 2 ^ 35) : read = .ok a :=
  h.resolve_right fun hlong => absurd hlong.1 (Nat.not_le.mpr hsize)

/-- **An integer reads back**, in its prefix or continued. -/
theorem integer_putInteger {bits a : ℕ} {pattern : UInt8} (value : ℕ) (tail : Bytes)
    (hpat : pattern.toNat = 2 ^ bits * a) (hfit : pattern.toNat + 2 ^ bits ≤ 256) :
    ReadsBack value (integer bits (putInteger value bits pattern ++ tail)) (value, tail) := by
  have hpos : 0 < 2 ^ bits := Nat.two_pow_pos bits
  have hmax : 1 <<< bits - 1 = 2 ^ bits - 1 := by rw [Nat.shiftLeft_eq, Nat.one_mul]
  have hmask : ∀ m < 2 ^ bits, (pattern ||| UInt8.ofNat m).toNat &&& (1 <<< bits - 1) = m := by
    intro m hm
    rw [and_max, toNat_pattern_or hpat hfit hm, Nat.mul_add_mod, Nat.mod_eq_of_lt hm]
  rw [putInteger]
  split_ifs with hlt
  · left
    rw [List.singleton_append, integer]
    simp only [hmask value (by omega)]
    rw [if_neg (by omega)]
  · rw [List.cons_append, integer]
    simp only [hmask (1 <<< bits - 1) (by omega), if_true]
    by_cases hshort : value - (1 <<< bits - 1) < 2 ^ 35
    · left
      have hread := continued_putRest 5 0 (1 <<< bits - 1) (value - (1 <<< bits - 1)) tail
        (by omega) (by omega)
      rw [Nat.mul_zero, Nat.pow_zero, Nat.mul_one,
        show 1 <<< bits - 1 + (value - (1 <<< bits - 1)) = value by omega] at hread
      exact hread
    · right
      exact ⟨by omega, continued_putRest_long 5 0 _ _ tail (by omega)⟩

/-- The first byte of an integer is its pattern with a number in the prefix. -/
theorem putInteger_head {bits a : ℕ} {pattern : UInt8} (value : ℕ)
    (hpat : pattern.toNat = 2 ^ bits * a) (hfit : pattern.toNat + 2 ^ bits ≤ 256) :
    ∃ first rest, putInteger value bits pattern = first :: rest ∧
      ∃ m < 2 ^ bits, first.toNat = 2 ^ bits * a + m := by
  have hpos : 0 < 2 ^ bits := Nat.two_pow_pos bits
  have hmax : 1 <<< bits - 1 = 2 ^ bits - 1 := by rw [Nat.shiftLeft_eq, Nat.one_mul]
  rw [putInteger]
  split_ifs with hlt
  · exact ⟨_, [], rfl, value, by omega, toNat_pattern_or hpat hfit (by omega)⟩
  · exact ⟨_, _, rfl, 1 <<< bits - 1, by omega, toNat_pattern_or hpat hfit (by omega)⟩

/-- The bytes a string literal takes after its length: the shorter of its two forms. -/
def stringLen (text : Bytes) : ℕ := min (Huffman.encodedLen text) text.length

/-- The bit above the low ones tells whether the rest is odd. -/
theorem and_flag (bits a m : ℕ) (hm : m < 2 ^ bits) :
    ((2 ^ bits * a + m) &&& 1 <<< bits != 0) = decide (a % 2 = 1) := by
  have hbit : (2 ^ bits * a + m).testBit bits = decide (a % 2 = 1) := by
    rw [Nat.testBit_eq_decide_div_mod_eq, Nat.mul_add_div (Nat.two_pow_pos bits),
      Nat.div_eq_of_lt hm, Nat.add_zero]
  rw [Nat.shiftLeft_eq, Nat.one_mul, Nat.and_two_pow, hbit]
  by_cases ha : a % 2 = 1
  · simp [ha]
  · simp [ha]

/-- The Huffman bit is the one above the length prefix. -/
theorem head_flag {bits a : ℕ} {pattern : UInt8} (value : ℕ) (tail : Bytes)
    (hpat : pattern.toNat = 2 ^ bits * a) (hfit : pattern.toNat + 2 ^ bits ≤ 256) :
    ((putInteger value bits pattern ++ tail).head?.any
      fun first => first.toNat &&& 1 <<< bits != 0) = decide (a % 2 = 1) := by
  obtain ⟨first, rest, hput, m, hm, hfirst⟩ := putInteger_head value hpat hfit
  rw [hput, List.cons_append, List.head?_cons, Option.any_some, hfirst, and_flag bits a m hm]

/-- **A string reads back**, raw or Huffman coded. -/
theorem string_putString {bits a : ℕ} {pattern : UInt8} (text tail : Bytes)
    (hpat : pattern.toNat = 2 ^ (bits + 1) * a) (hfit : pattern.toNat + 2 ^ (bits + 1) ≤ 256) :
    ReadsBack (stringLen text) (string bits (putString text bits pattern ++ tail)) (text, tail) := by
  have hpow : 2 ^ (bits + 1) = 2 ^ bits * 2 := Nat.pow_succ 2 bits
  have hpos : 0 < 2 ^ bits := Nat.two_pow_pos bits
  rw [stringLen, putString]
  split_ifs with hshorter
  · have hbit : 1 <<< bits = 2 ^ bits := by rw [Nat.shiftLeft_eq, Nat.one_mul]
    have hor := toNat_pattern_or hpat hfit (show 1 <<< bits < 2 ^ (bits + 1) by omega)
    have hflag : (pattern ||| UInt8.ofNat (1 <<< bits)).toNat = 2 ^ bits * (2 * a + 1) := by
      rw [hor, hbit, hpow, Nat.mul_assoc, Nat.mul_add, Nat.mul_one]
    have hfit' : (pattern ||| UInt8.ofNat (1 <<< bits)).toNat + 2 ^ bits ≤ 256 := by
      omega
    rw [string, List.append_assoc, head_flag _ _ hflag hfit']
    obtain hread | ⟨hlong, hread⟩ := integer_putInteger (Huffman.encodedLen text)
      (Huffman.encode text ++ tail) hflag hfit'
    · left
      rw [hread]
      simp [Huffman.encodedLen_eq, Huffman.decode_encode, Except.map]
    · right
      rw [hread]
      exact ⟨by omega, rfl⟩
  · have hflag : pattern.toNat = 2 ^ bits * (2 * a) := by rw [hpat, hpow, Nat.mul_assoc]
    rw [string, List.append_assoc, head_flag _ _ hflag (by omega)]
    obtain hread | ⟨hlong, hread⟩ := integer_putInteger text.length (text ++ tail) hflag (by omega)
    · left
      rw [hread]
      simp
    · right
      rw [hread]
      exact ⟨by omega, rfl⟩

/-- A literal name starts with `001`, whichever Huffman bit follows. -/
theorem putString_head (text : Bytes) :
    ∃ first rest, putString text 3 0x20 = first :: rest ∧ 0x20 ≤ first.toNat ∧
      first.toNat ≤ 0x3f := by
  rw [putString]
  split_ifs with hshorter
  · obtain ⟨first, rest, hput, m, hm, hfirst⟩ := putInteger_head (Huffman.encodedLen text)
      (show ((0x20 : UInt8) ||| UInt8.ofNat (1 <<< 3)).toNat = 2 ^ 3 * 5 by decide) (by decide)
    rw [hput]
    exact ⟨first, _, rfl, by omega, by omega⟩
  · obtain ⟨first, rest, hput, m, hm, hfirst⟩ := putInteger_head text.length
      (show (0x20 : UInt8).toNat = 2 ^ 3 * 4 by decide) (by decide)
    rw [hput]
    exact ⟨first, _, rfl, by omega, by omega⟩

/-- The static table has its ninety-nine entries. -/
theorem length_static : Table.static.length = 99 := by
  rw [Table.static, List.length_map]
  rfl

/-- A reference the encoder found is an index of the table, and small enough to read back. -/
theorem index_lt {index : ℕ} {field : Bytes × Bytes} (h : Table.static[index]? = some field) :
    index < 2 ^ 35 := by
  have hindex := (List.getElem?_eq_some_iff.mp h).1
  rw [length_static] at hindex
  omega

/-- The longer of a field's two strings. -/
def fieldLen (name value : Bytes) : ℕ := max (stringLen name) (stringLen value)

/-- **A line reads back as its field**, whichever form the encoder chose. -/
theorem line_putLine (name value tail : Bytes) :
    ReadsBack (fieldLen name value) (line (putLine name value ++ tail)) (name, value, tail) := by
  have hvalue : ReadsBack (stringLen value) (string 7 (putString value 7 0x00 ++ tail))
      (value, tail) :=
    string_putString value tail (show (0x00 : UInt8).toNat = 2 ^ 8 * 0 by decide) (by decide)
  have hvalueLe : stringLen value ≤ fieldLen name value := Nat.le_max_right _ _
  have hfound := Table.find_sound name value
  rw [putLine]
  match hfind : Table.find name value with
  | .field index =>
    rw [hfind, Table.Match.Sound] at hfound
    -- an indexed line is told from the others by its first two bits
    have hpat : (0xc0 : UInt8).toNat = 2 ^ 6 * 3 := by decide
    have hread := (integer_putInteger index tail hpat (by decide)).eq_ok (index_lt hfound)
    obtain ⟨first, rest, hput, m, hm, hfirst⟩ := putInteger_head index hpat (by decide)
    simp only [hput, List.cons_append] at hread ⊢
    rw [line, if_pos (by omega), hread]
    left
    simp only [bind, Except.bind, entry, hfound]
  | .name index =>
    rw [hfind, Table.Match.Sound] at hfound
    obtain ⟨other, hentry⟩ := hfound
    have hpat : (0x50 : UInt8).toNat = 2 ^ 4 * 5 := by decide
    have hread := (integer_putInteger index (putString value 7 0x00 ++ tail) hpat (by decide)).eq_ok
      (index_lt hentry)
    obtain ⟨first, rest, hput, m, hm, hfirst⟩ := putInteger_head index hpat (by decide)
    simp only [hput, List.cons_append, List.append_assoc] at hread ⊢
    rw [line, if_neg (by omega), if_pos (by omega), hread]
    obtain hvalue | ⟨hlong, hvalue⟩ := hvalue
    · left
      simp only [bind, Except.bind, entry, hentry, hvalue]
    · right
      refine ⟨hlong.trans hvalueLe, ?_⟩
      simp only [bind, Except.bind, entry, hentry, hvalue]
  | .none =>
    have hpat : (0x20 : UInt8).toNat = 2 ^ 4 * 2 := by decide
    have hname := string_putString name (putString value 7 0x00 ++ tail) hpat (by decide)
    have hnameLe : stringLen name ≤ fieldLen name value := Nat.le_max_left _ _
    obtain ⟨first, rest, hput, hlow, hhigh⟩ := putString_head name
    simp only [hput, List.cons_append, List.append_assoc] at hname ⊢
    -- either string may be too long to be read, the name first
    rw [line, if_neg (by omega), if_neg (by omega), if_pos (by omega)]
    obtain hname | ⟨hlong, hname⟩ := hname
    · rw [hname]
      obtain hvalue | ⟨hlong, hvalue⟩ := hvalue
      · left
        simp only [bind, Except.bind, hvalue]
      · right
        refine ⟨hlong.trans hvalueLe, ?_⟩
        simp only [bind, Except.bind, hvalue]
    · right
      rw [hname]
      exact ⟨hlong.trans hnameLe, rfl⟩

/-! ## The round trip -/

/-- A field line is never empty. -/
theorem putLine_ne_nil (name value tail : Bytes) : putLine name value ++ tail ≠ [] := by
  have hinteger : ∀ value bits pattern, putInteger value bits pattern ≠ [] := by
    intro value bits pattern
    rw [putInteger]
    split_ifs <;> exact List.cons_ne_nil _ _
  have hstring : ∀ text bits pattern, putString text bits pattern ≠ [] := by
    intro text bits pattern
    rw [putString]
    split_ifs <;> exact List.append_ne_nil_of_left_ne_nil (hinteger _ _ _) _
  have hline : putLine name value ≠ [] := by
    rw [putLine]
    split
    · exact hinteger _ _ _
    · exact List.append_ne_nil_of_left_ne_nil (hinteger _ _ _) _
    · exact List.append_ne_nil_of_left_ne_nil (hstring _ _ _) _
  exact List.append_ne_nil_of_left_ne_nil hline _

section RoundTrip

variable {σ : Type} (field : σ → Bytes → Bytes → Except Invalid σ)

/-- A field is handed on as it was written, or refused before it is, for a string that is too long. -/
theorem decodeLines_cons (name value : Bytes) (s : σ) (tail : Bytes) :
    decodeLines field s (putLine name value ++ tail)
        = (field s name value >>= fun s => decodeLines field s tail) ∨
      2 ^ 35 ≤ fieldLen name value ∧
        decodeLines field s (putLine name value ++ tail) = .error .qpack := by
  rw [decodeLines, if_neg (putLine_ne_nil name value tail)]
  obtain hread | ⟨hlong, hread⟩ := line_putLine name value tail
  · left
    split
    case h_1 invalid hline =>
      rw [hread] at hline
      cases hline
    case h_2 n v rest hline =>
      rw [hread] at hline
      cases hline
      cases field s name value with
      | error invalid => rfl
      | ok s => rfl
  · right
    split
    case h_1 invalid hline =>
      rw [hread] at hline
      cases hline
      exact ⟨hlong, rfl⟩
    case h_2 n v rest hline =>
      rw [hread] at hline
      cases hline

/-- **Every visitor goes through the fields that were written**, in order, up to one that is too long
to read back. -/
theorem decodeLines_flatMap (fields : List (Bytes × Bytes)) (s : σ) :
    decodeLines field s (fields.flatMap fun (name, value) => putLine name value)
        = fields.foldlM (fun s f => field s f.1 f.2) s ∨
      (∃ f ∈ fields, 2 ^ 35 ≤ fieldLen f.1 f.2) ∧
        decodeLines field s (fields.flatMap fun (name, value) => putLine name value)
          = .error .qpack := by
  induction fields generalizing s with
  | nil =>
    left
    rw [List.flatMap_nil, decodeLines, if_pos rfl]
    rfl
  | cons f fields ih =>
    rw [List.flatMap_cons, List.foldlM_cons]
    obtain hcons | ⟨hlong, hcons⟩ := decodeLines_cons field f.1 f.2 s
      (fields.flatMap fun (name, value) => putLine name value)
    · rw [hcons]
      cases field s f.1 f.2 with
      | error invalid => exact .inl rfl
      | ok s' =>
        obtain hrest | ⟨⟨g, hg, hlong⟩, hrest⟩ := ih s'
        · exact .inl hrest
        · exact .inr ⟨⟨g, List.mem_cons_of_mem _ hg, hlong⟩, hrest⟩
    · exact .inr ⟨⟨f, List.mem_cons_self, hlong⟩, hcons⟩

/-- A section reads back, unless a line of it is too long to be read. -/
theorem decode_encode_cases (fields : List (Bytes × Bytes)) (s : σ) :
    decode field s (encode fields) = fields.foldlM (fun s f => field s f.1 f.2) s ∨
      (∃ f ∈ fields, 2 ^ 35 ≤ fieldLen f.1 f.2) ∧
        decode field s (encode fields) = .error .qpack := by
  have hbase : integer 7 (0 :: fields.flatMap fun (name, value) => putLine name value)
      = .ok (0, fields.flatMap fun (name, value) => putLine name value) :=
    (integer_putInteger 0 _ (show (0x00 : UInt8).toNat = 2 ^ 7 * 0 by decide) (by decide)).eq_ok
      (show 0 < 2 ^ 35 by decide)
  rw [encode, List.cons_append, List.singleton_append, decode, if_neg (by decide), hbase]
  exact decodeLines_flatMap field fields s

/-- A section whose lines are short reads back to its fields. -/
theorem decode_encode_foldlM (fields : List (Bytes × Bytes)) (s : σ)
    (hlen : ∀ f ∈ fields, stringLen f.1 < 2 ^ 35 ∧ stringLen f.2 < 2 ^ 35) :
    decode field s (encode fields) = fields.foldlM (fun s f => field s f.1 f.2) s := by
  refine (decode_encode_cases field fields s).resolve_right ?_
  rintro ⟨⟨f, hf, hlong⟩, -⟩
  obtain ⟨hname, hvalue⟩ := hlen f hf
  exact absurd hlong (Nat.not_le.mpr (Nat.max_lt.mpr ⟨hname, hvalue⟩))

end RoundTrip

/-- A visitor that keeps every field it is given. -/
def collect (seen : List (Bytes × Bytes)) (name value : Bytes) :
    Except Invalid (List (Bytes × Bytes)) :=
  .ok (seen ++ [(name, value)])

/-- Collecting keeps the fields in order. -/
theorem foldlM_collect (fields seen : List (Bytes × Bytes)) :
    fields.foldlM (fun s f => collect s f.1 f.2) seen = .ok (seen ++ fields) := by
  induction fields generalizing seen with
  | nil =>
    rw [List.append_nil]
    rfl
  | cons f fields ih =>
    have hstep := ih (seen ++ [(f.1, f.2)])
    rw [List.append_assoc, List.singleton_append] at hstep
    exact hstep

/-- **What a visitor is given does not depend on it.** A visitor that accepts a section has gone
through the fields of the section, those that `collect` keeps. -/
theorem decodeLines_collect {σ : Type} {field : σ → Bytes → Bytes → Except Invalid σ} {s s' : σ}
    {input : Bytes} (seen : List (Bytes × Bytes)) (h : decodeLines field s input = .ok s') :
    ∃ fields, decodeLines collect seen input = .ok (seen ++ fields) ∧
      fields.foldlM (fun s f => field s f.1 f.2) s = .ok s' := by
  induction hlen : input.length using Nat.strongRecOn generalizing s input seen with
  | ind n ih =>
    subst hlen
    rw [decodeLines] at h ⊢
    by_cases hnil : input = []
    · rw [if_pos hnil] at h ⊢
      cases h
      exact ⟨[], by rw [List.append_nil], rfl⟩
    · rw [if_neg hnil] at h ⊢
      split at h
      · cases h
      · rename_i name value rest hline
        split at h
        · cases h
        · rename_i s₁ hfield
          obtain ⟨fields, hcollect, hfold⟩ :=
            ih _ (length_lt_of_line hline) (seen ++ [(name, value)]) h rfl
          refine ⟨(name, value) :: fields, ?_, ?_⟩
          · rw [List.append_assoc] at hcollect
            exact hcollect
          · rw [List.foldlM_cons, hfield]
            exact hfold

/-- A section that decodes for a visitor decodes to fields that the visitor accepts. -/
theorem decode_collect {σ : Type} {field : σ → Bytes → Bytes → Except Invalid σ} {s s' : σ}
    {input : Bytes} (h : decode field s input = .ok s') :
    ∃ fields, decode collect [] input = .ok fields ∧
      fields.foldlM (fun s f => field s f.1 f.2) s = .ok s' := by
  unfold decode at h ⊢
  split at h
  · rename_i base rest
    split at h
    · cases h
    · rename_i hbase
      split at h
      · cases h
      · rename_i value left hinteger
        obtain ⟨fields, hcollect, hfold⟩ := decodeLines_collect [] h
        refine ⟨fields, ?_, hfold⟩
        simp only [hbase, if_false]
        exact hcollect
  · cases h

/-- **A section reads back as its fields.** Decoding what `encode` wrote visits exactly the fields,
in order: every visitor ends as if it had gone through the list itself, refusing where it would
refuse there, and the one that refuses nothing is given all of them. -/
theorem decode_encode_section (fields : List (Bytes × Bytes))
    (hlen : ∀ f ∈ fields, stringLen f.1 < 2 ^ 35 ∧ stringLen f.2 < 2 ^ 35) :
    decode collect [] (encode fields) = .ok fields ∧
      ∀ (σ : Type) (field : σ → Bytes → Bytes → Except Invalid σ) (s : σ),
        decode field s (encode fields) = fields.foldlM (fun s f => field s f.1 f.2) s := by
  refine ⟨?_, fun σ field s => decode_encode_foldlM field fields s hlen⟩
  rw [decode_encode_foldlM collect fields [] hlen, foldlM_collect, List.nil_append]

/-- An entry of the table, a name of it with another value, and a repeated name that is not there. -/
theorem decode_encode_section_request :
    let fields : List (Bytes × Bytes) :=
      [(":method", "GET"), ("accept", "text/html"), ("x-lane", "0"), ("x-lane", "1")].map
        fun (name, value) => (name.toUTF8.toList, value.toUTF8.toList)
    decode collect [] (encode fields) = .ok fields := by
  refine (decode_encode_section _ fun f hf => ?_).1
  have hshort : ∀ f ∈ [(":method", "GET"), ("accept", "text/html"), ("x-lane", "0"),
      ("x-lane", "1")], f.1.toUTF8.toList.length < 2 ^ 35 ∧ f.2.toUTF8.toList.length < 2 ^ 35 := by
    decide +kernel
  obtain ⟨g, hg, rfl⟩ := List.mem_map.mp hf
  obtain ⟨hname, hvalue⟩ := hshort g hg
  exact ⟨Nat.lt_of_le_of_lt (min_le_right _ _) hname,
    Nat.lt_of_le_of_lt (min_le_right _ _) hvalue⟩

end GraphiteMeter.Http3.Qpack
