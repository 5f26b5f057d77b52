import GraphiteMeter.Http3.Settings
import Mathlib.Data.List.Range

/-!
# What this side puts on a stream: integers, frame headers, SETTINGS

Reference: `rust/http3/src/varint.rs` (`len`, `put`), `rust/http3/src/frame.rs` (`put_header`),
`rust/http3/src/settings.rs` (`SERVER`, `control_stream`).

`Varint.put` writes the eight bytes of a word, marks the first that counts with the length and leaves
the others out. `Varint.decode_put` is its round trip; `headerOf_put` and `Settings.pairsOf_encode`
carry it to a frame header and to a list of settings.
-/

namespace GraphiteMeter.Http3

namespace Varint

def max : ℕ := (1 <<< 62) - 1

def len (value : ℕ) : ℕ :=
  if value < 64 then 1
  else if value < 16384 then 2
  else if value < 1073741824 then 4
  else 8

/-- The low `count` bytes of a number, the highest first. -/
def beBytes : ℕ → ℕ → Bytes
  | 0, _ => []
  | count + 1, value => UInt8.ofNat (value >>> (8 * count)) :: beBytes count value

/-- The minimal encoding of `value`, which must not exceed `max`. The length is a power of two, so its
trailing zeros are its logarithm. -/
def put (value : ℕ) : Bytes :=
  let size := len value
  let bytes := (beBytes 8 value).modify (8 - size) (· ||| UInt8.ofNat (size.log2 <<< 6))
  bytes.drop (8 - size)

/-! ## The round trip -/

@[simp] theorem length_beBytes (count value : ℕ) : (beBytes count value).length = count := by
  induction count with
  | zero => rfl
  | succ count ih => rw [beBytes, List.length_cons, ih]

/-- The leading bytes left out, the others stay. -/
theorem drop_beBytes (skip count value : ℕ) :
    (beBytes (skip + count) value).drop skip = beBytes count value := by
  induction skip with
  | zero => rw [Nat.zero_add, List.drop_zero]
  | succ skip ih => rw [Nat.succ_add, beBytes, List.drop_succ_cons, ih]

/-- Read from the highest byte on, the bytes of a number complete what stands above them. -/
theorem foldl_beBytes (count value : ℕ) :
    (beBytes count value).foldl (fun value byte => value <<< 8 ||| byte.toNat)
      (value >>> (8 * count)) = value := by
  induction count with
  | zero => rw [beBytes, Nat.mul_zero, Nat.shiftRight_zero, List.foldl_nil]
  | succ count ih =>
    have hbyte : (UInt8.ofNat (value >>> (8 * count))).toNat = (value >>> (8 * count)) % 2 ^ 8 :=
      UInt8.toNat_ofNat'
    have hstep : (value >>> (8 * (count + 1))) <<< 8 ||| (value >>> (8 * count)) % 2 ^ 8 =
        value >>> (8 * count) := by
      rw [Nat.mul_succ, Nat.shiftRight_add, Nat.shiftLeft_eq, Nat.mul_comm _ (2 ^ 8),
        ← Nat.two_pow_add_eq_or_of_lt (Nat.mod_lt _ (Nat.two_pow_pos 8)),
        Nat.shiftRight_eq_div_pow _ 8, Nat.div_add_mod]
    rw [beBytes, List.foldl_cons, hbyte, hstep, ih]

/-- The first byte of an integer: its top bits beside the length's two. -/
theorem first_bits {top mark : ℕ} (htop : top < 64) (hmark : mark < 4) :
    (UInt8.ofNat top ||| UInt8.ofNat (mark <<< 6)).toNat &&& 0x3f = top ∧
      (UInt8.ofNat top ||| UInt8.ofNat (mark <<< 6)).toNat >>> 6 = mark := by
  have hor : (UInt8.ofNat top ||| UInt8.ofNat (mark <<< 6)).toNat = 2 ^ 6 * mark + top := by
    rw [UInt8.toNat_or, UInt8.toNat_ofNat', UInt8.toNat_ofNat', Nat.shiftLeft_eq,
      Nat.mod_eq_of_lt (by omega), Nat.mod_eq_of_lt (by omega), Nat.or_comm, Nat.mul_comm,
      Nat.two_pow_add_eq_or_of_lt (by omega)]
  rw [hor]
  constructor
  · show (2 ^ 6 * mark + top) &&& (2 ^ 6 - 1) = top
    rw [Nat.and_two_pow_sub_one_eq_mod]
    omega
  · rw [Nat.shiftRight_eq_div_pow]
    omega

/-- The length of an encoding is one of four, and has room for the value beside its mark. -/
theorem len_cases {value : ℕ} (h : value ≤ max) :
    ∃ mark < 4, len value = 2 ^ mark ∧ value < 2 ^ (8 * 2 ^ mark - 2) := by
  unfold len
  have hmax : value < 2 ^ 62 := by
    rw [max, Nat.one_shiftLeft] at h
    omega
  split
  · exact ⟨0, by decide, rfl, by omega⟩
  split
  · exact ⟨1, by decide, rfl, by omega⟩
  split
  · exact ⟨2, by decide, rfl, by omega⟩
  · exact ⟨3, by decide, rfl, by omega⟩

/-- What `put` writes: the marked first byte, and the bytes below it. -/
theorem put_eq {value mark : ℕ} (hmark : mark < 4) (hlen : len value = 2 ^ mark) :
    put value = (UInt8.ofNat (value >>> (8 * (2 ^ mark - 1))) ||| UInt8.ofNat (mark <<< 6)) ::
      beBytes (2 ^ mark - 1) value := by
  have hle : 2 ^ mark ≤ 2 ^ 3 := Nat.pow_le_pow_right Nat.two_pos (by omega)
  obtain ⟨count, hcount⟩ : ∃ count, 2 ^ mark = count + 1 :=
    ⟨2 ^ mark - 1, (Nat.succ_pred_eq_of_pos (Nat.two_pow_pos mark)).symm⟩
  have hdrop : (beBytes 8 value).drop (8 - 2 ^ mark) = beBytes (2 ^ mark) value := by
    have hskip := drop_beBytes (8 - 2 ^ mark) (2 ^ mark) value
    rw [Nat.sub_add_cancel (by omega)] at hskip
    exact hskip
  unfold put
  dsimp only
  rw [hlen, Nat.log2_two_pow, List.modify_eq_take_drop, List.drop_append, List.length_take,
    length_beBytes, hdrop, List.drop_take]
  rw [hcount]
  rw [show min (8 - (count + 1)) 8 = 8 - (count + 1) by omega, Nat.sub_self, List.drop_zero,
    List.take_zero, List.nil_append, beBytes]
  rfl

/-- **What is put is decoded again**, and nothing more is read. -/
theorem decode_put {value : ℕ} (h : value ≤ max) :
    decode (put value) = some (value, (put value).length) := by
  obtain ⟨mark, hmark, hlen, hlt⟩ := len_cases h
  have hpos := Nat.two_pow_pos mark
  have htop : value >>> (8 * (2 ^ mark - 1)) < 64 := by
    rw [Nat.shiftRight_eq_div_pow, Nat.div_lt_iff_lt_mul (Nat.two_pow_pos _)]
    calc value < 2 ^ (8 * 2 ^ mark - 2) := hlt
      _ = 2 ^ (6 + 8 * (2 ^ mark - 1)) := by congr 1; omega
      _ = 64 * 2 ^ (8 * (2 ^ mark - 1)) := by rw [Nat.pow_add]
  obtain ⟨hlow, hhigh⟩ := first_bits htop hmark
  have hsize : size (UInt8.ofNat (value >>> (8 * (2 ^ mark - 1))) ||| UInt8.ofNat (mark <<< 6)) =
      2 ^ mark := by
    rw [size, hhigh, Nat.one_shiftLeft]
  have htake : (beBytes (2 ^ mark - 1) value).take (2 ^ mark - 1) = beBytes (2 ^ mark - 1) value := by
    apply List.take_of_length_le
    rw [length_beBytes]
  rw [put_eq hmark hlen, decode_cons, hsize, length_beBytes, if_pos (by omega), hlow, htake,
    foldl_beBytes, List.length_cons, length_beBytes, Nat.sub_add_cancel hpos]

/-- A variable-length integer takes the bytes of its length. -/
theorem length_put {value : ℕ} (h : value ≤ max) : (put value).length = len value := by
  obtain ⟨mark, hmark, hlen, -⟩ := len_cases h
  rw [put_eq hmark hlen, List.length_cons, length_beBytes, hlen,
    Nat.sub_add_cancel (Nat.two_pow_pos mark)]

/-- A variable-length integer takes at least one byte. -/
theorem len_pos (value : ℕ) : 0 < len value := by
  unfold len
  split_ifs <;> decide

/-- A variable-length integer takes at most eight bytes. -/
theorem len_le (value : ℕ) : len value ≤ 8 := by
  unfold len
  split_ifs <;> decide

example : put 0 = [0x00] ∧ put 63 = [0x3f] ∧ put 64 = [0x40, 0x40] ∧
    put (max - 3) = [0xff, 0xff, 0xff, 0xff, 0xff, 0xff, 0xff, 0xfc] := by
  decide +kernel

end Varint

/-! ## Frame headers -/

/-- The type that opens a unidirectional stream. -/
structure StreamType where
  code : ℕ
deriving DecidableEq, Repr

def StreamType.control : StreamType := ⟨0x00⟩

def putHeader {K : Type} [Kind K] (kind : K) (length : ℕ) : Bytes :=
  Varint.put (Kind.wire kind) ++ Varint.put length

/-- Two integers that are written are read back. -/
theorem headerOf_put {first second : ℕ} (hfirst : first ≤ Varint.max)
    (hsecond : second ≤ Varint.max) (rest : Bytes) :
    headerOf (Varint.put first ++ Varint.put second ++ rest) = some (first, second, rest) := by
  rw [List.append_assoc]
  exact headerOf_append (Varint.decode_put hfirst) (Varint.decode_put hsecond) rest

/-! ## SETTINGS -/

namespace Settings

def serverFieldSection : ℕ := 4096

/-- Static-only QPACK and no WebTransport flow control. -/
def server : List (ℕ × ℕ) :=
  [(maxFieldSectionSize, serverFieldSection), (enableConnectProtocol, 1), (h3Datagram, 1),
    (wtEnableDraft02, 1), (wtEnabled, 1)]

/-- The payload of the SETTINGS frame. -/
def encode (settings : List (ℕ × ℕ)) : Bytes :=
  settings.flatMap fun (id, value) => Varint.put id ++ Varint.put value

/-- A control stream's first bytes: its stream type, then the SETTINGS frame. -/
def controlStream (settings : List (ℕ × ℕ)) : Bytes :=
  let length := (settings.map fun (id, value) => Varint.len id + Varint.len value).sum
  Varint.put StreamType.control.code ++ (putHeader FrameType.settings length ++ encode settings)

variable {settings : List (ℕ × ℕ)}

/-- **The settings that were put are the settings of the payload.** -/
theorem pairsOf_encode (h : ∀ pair ∈ settings, pair.1 ≤ Varint.max ∧ pair.2 ≤ Varint.max) :
    pairsOf (encode settings) = (settings, []) := by
  induction settings with
  | nil => exact pairsOf_none rfl
  | cons pair settings ih =>
    obtain ⟨hid, hvalue⟩ := h pair List.mem_cons_self
    have hrest := ih fun pair hmem => h pair (List.mem_cons_of_mem _ hmem)
    have hheader : headerOf (encode (pair :: settings)) = some (pair.1, pair.2, encode settings) :=
      headerOf_put hid hvalue _
    rw [pairsOf_some hheader, hrest]

/-- The length announced is that of the payload. -/
theorem length_encode (h : ∀ pair ∈ settings, pair.1 ≤ Varint.max ∧ pair.2 ≤ Varint.max) :
    (settings.map fun (id, value) => Varint.len id + Varint.len value).sum =
      (encode settings).length := by
  induction settings with
  | nil => rfl
  | cons pair settings ih =>
    obtain ⟨hid, hvalue⟩ := h pair List.mem_cons_self
    have hrest := ih fun pair hmem => h pair (List.mem_cons_of_mem _ hmem)
    have hsplit : encode (pair :: settings) =
        Varint.put pair.1 ++ Varint.put pair.2 ++ encode settings := rfl
    rw [List.map_cons, List.sum_cons, hrest, hsplit, List.length_append, List.length_append,
      Varint.length_put hid, Varint.length_put hvalue]

/-- A whole payload of settings a reader takes is read to its end. -/
theorem read_whole {payload : Bytes} (h : Acceptable (pairsOf payload).1)
    (hend : (pairsOf payload).2 = []) :
    ∃ r, Reader.read ⟨.empty, payload.length, [], .empty⟩ payload =
      .ok (some (peerOf (pairsOf payload).1), r) := by
  have htook : Took [] ⟨.empty, payload.length - payload.length, [], .empty⟩ :=
    ⟨⟨List.nodup_nil, nofun, Nat.zero_le _, nofun⟩, rfl, rfl⟩
  unfold Reader.read
  obtain ⟨code, -, hbad⟩ | ⟨r, hdrain, hr, hremaining, hempty⟩ := drainPairs_took htook rfl payload
  · exact absurd h hbad
  · rw [hdrain]
    simp only [hremaining, Nat.sub_self, hempty.mpr hend, hr.peer]
    exact ⟨r, rfl⟩

/-- The server's settings are acceptable. -/
theorem server_acceptable : Acceptable server where
  distinct := by decide
  unreserved := by decide
  few := by decide
  flags := by decide

theorem server_fits : ∀ pair ∈ server, pair.1 ≤ Varint.max ∧ pair.2 ≤ Varint.max := by decide

end Settings

end GraphiteMeter.Http3
