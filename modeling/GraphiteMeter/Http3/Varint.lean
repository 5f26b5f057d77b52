import GraphiteMeter.Lib.Chunked
import Mathlib.Algebra.GroupWithZero.Nat

/-!
# QUIC variable-length integers, whole or split across chunks

Reference: `rust/http3/src/varint.rs` (RFC 9000 §16).

`Partial` keeps the bytes of an integer that has not ended yet, and its invariant says that it has
not: the buffer is shorter than its first byte asks for. `Partial.read_cons` gives the loop of
`Partial::read` byte by byte, and everything above this module uses only that equation.
-/

namespace GraphiteMeter.Http3

/-- Bytes in wire order. -/
abbrev Bytes := List UInt8

instance Bytes.lawfulBEq : LawfulBEq Bytes := inferInstance

/-- Of no bytes, none are written. -/
theorem nothing_within : 0 ≤ ([] : Bytes).length := Nat.le_refl 0

namespace Varint

/-- The encoded length that the first byte's two high bits announce. -/
def size (first : UInt8) : ℕ := 1 <<< (first.toNat >>> 6)

/-- Decodes the integer starting `input` with its length, or `none` when incomplete. -/
def decode (input : Bytes) : Option (ℕ × ℕ) :=
  match input with
  | [] => none
  | first :: rest =>
    if size first ≤ input.length then
      let bytes := rest.take (size first - 1)
      some (bytes.foldl (fun value byte => value <<< 8 ||| byte.toNat) (first.toNat &&& 0x3f),
        size first)
    else none

/-- An integer takes at least one byte. -/
theorem size_pos (first : UInt8) : 0 < size first := by
  rw [size, Nat.shiftLeft_eq, Nat.one_mul]
  exact Nat.two_pow_pos _

/-- How many bytes the integer starting with `bytes` takes; before its first byte, one. -/
def need : Bytes → ℕ
  | [] => 1
  | first :: _ => size first

/-- An integer needs at least one byte. -/
theorem need_pos (bytes : Bytes) : 0 < need bytes := by
  cases bytes with
  | nil => exact Nat.one_pos
  | cons first _ => exact size_pos first

/-- No integer takes more than eight bytes. -/
theorem need_le (bytes : Bytes) : need bytes ≤ 8 := by
  cases bytes with
  | nil => exact Nat.le_of_ble_eq_true rfl
  | cons first _ =>
    show 1 <<< (first.toNat >>> 6) ≤ 8
    have hlt := first.toNat_lt
    have htop : first.toNat >>> 6 ≤ 3 := by
      rw [Nat.shiftRight_eq_div_pow]
      omega
    rw [Nat.one_shiftLeft]
    exact Nat.pow_le_pow_right Nat.two_pos htop

/-- Bytes that do not reach the length they announce decode to nothing. -/
theorem decode_eq_none {bytes : Bytes} (h : bytes.length < need bytes) : decode bytes = none := by
  cases bytes with
  | nil => rfl
  | cons first rest => exact if_neg (Nat.not_le.mpr h)

/-- An integer is read from its first byte and as many as that one says. -/
theorem decode_cons (first : UInt8) (rest : Bytes) :
    decode (first :: rest) =
      if size first ≤ rest.length + 1 then
        some ((rest.take (size first - 1)).foldl (fun value byte => value <<< 8 ||| byte.toNat)
          (first.toNat &&& 0x3f), size first)
      else none := rfl

/-- An integer is read from the bytes it needs. -/
theorem decode_bounds {bytes : Bytes} {value used : ℕ} (h : decode bytes = some (value, used)) :
    used = need bytes ∧ used ≤ bytes.length := by
  cases bytes with
  | nil => cases h
  | cons first rest =>
    rw [decode_cons] at h
    split at h
    · rename_i hle
      cases h
      exact ⟨rfl, hle⟩
    · cases h

/-- What follows an integer does not change it. -/
theorem decode_append {bytes : Bytes} {value used : ℕ} (h : decode bytes = some (value, used))
    (more : Bytes) : decode (bytes ++ more) = some (value, used) := by
  cases bytes with
  | nil => cases h
  | cons first rest =>
    rw [decode_cons] at h
    split at h
    · rename_i hle
      have hmore : size first ≤ (rest ++ more).length + 1 := by
        rw [List.length_append]
        omega
      rw [List.cons_append, decode_cons, if_pos hmore,
        List.take_append_of_le_length (by omega), h]
    · cases h

/-- An integer decodes the same from its own bytes alone. -/
theorem decode_take {bytes : Bytes} {value used : ℕ} (h : decode bytes = some (value, used)) :
    decode (bytes.take used) = some (value, used) := by
  cases bytes with
  | nil => cases h
  | cons first rest =>
    obtain ⟨rfl, hle⟩ := decode_bounds h
    have hpos := size_pos first
    obtain ⟨n, hn⟩ : ∃ n, size first = n + 1 := ⟨size first - 1, by omega⟩
    simp only [need, List.length_cons] at hle
    rw [← h, need, hn, List.take_succ_cons, decode_cons, decode_cons, hn, Nat.add_sub_cancel,
      List.take_take, Nat.min_self, List.length_take, if_pos (by omega), if_pos (by omega)]

/-- An integer split across chunks: the bytes of it read so far, which do not complete it. -/
structure Partial where
  bytes : Bytes
  waiting : bytes.length < need bytes
deriving DecidableEq, Repr

namespace Partial

/-- No byte of an integer read yet, as after each complete one. -/
def empty : Partial := ⟨[], Nat.one_pos⟩

instance : Inhabited Partial := ⟨empty⟩

def isEmpty (p : Partial) : Bool := p.bytes.isEmpty

/-- Copies what the integer still needs from `input`: its value once complete, the state left, and
the bytes not read. The source's loop tests for completeness first, which `waiting` answers on
entry. -/
def read (p : Partial) (input : Bytes) : Option ℕ × Partial × Bytes :=
  let take := min (need p.bytes - p.bytes.length) input.length
  if take = 0 then (none, p, input)
  else
    let bytes := p.bytes ++ input.take take
    if h : bytes.length < need bytes then read ⟨bytes, h⟩ (input.drop take)
    else ((decode bytes).map Prod.fst, empty, input.drop take)
termination_by input.length
decreasing_by
  simp only [List.length_drop]
  have : take ≤ input.length := Nat.min_le_right _ _
  omega

@[simp] theorem read_nil (p : Partial) : p.read [] = (none, p, []) := by
  rw [read]
  simp

/-- What is needed is said by the first byte. -/
private theorem need_append {bytes : Bytes} (h : bytes ≠ []) (more : Bytes) :
    need (bytes ++ more) = need bytes := by
  cases bytes with
  | nil => exact absurd rfl h
  | cons first rest => rfl

/-- A buffer that is no longer waiting decodes: the source's loop returns a value there. -/
theorem decode_of_not_waiting {p : Partial} {b : UInt8}
    (h : ¬ (p.bytes ++ [b]).length < need (p.bytes ++ [b])) :
    ∃ value, decode (p.bytes ++ [b]) = some value := by
  match hbytes : p.bytes ++ [b] with
  | [] => simp at hbytes
  | first :: rest =>
    rw [hbytes] at h
    refine ⟨_, if_pos ?_⟩
    simpa [need] using h

/-- **The loop, byte by byte.** Reading a chunk takes its first byte and, when the integer is still
incomplete, goes on with the rest. -/
theorem read_cons (p : Partial) (b : UInt8) (rest : Bytes) :
    p.read (b :: rest) =
      if h : (p.bytes ++ [b]).length < need (p.bytes ++ [b]) then
        read ⟨p.bytes ++ [b], h⟩ rest
      else ((decode (p.bytes ++ [b])).map Prod.fst, empty, rest) := by
  obtain ⟨bytes, hwait⟩ := p
  by_cases hnil : bytes = []
  · -- the first byte is always read alone, since only it tells how many follow
    subst hnil
    rw [read]
    have htake : min (need [] - ([] : Bytes).length) (b :: rest).length = 1 := by
      simp [need]
    simp only [htake, List.take_succ_cons, List.take_zero, List.drop_succ_cons, List.drop_zero]
    rfl
  · have hpos : 0 < need bytes - bytes.length := by omega
    have hneed := need_append hnil
    rw [read]
    simp only [List.length_cons]
    rw [if_neg (by omega)]
    by_cases hmore : bytes.length + 1 < need bytes
    · -- more is needed: the copied run is `b` and a run of `rest`
      have htake : min (need bytes - bytes.length) (rest.length + 1)
          = min (need bytes - (bytes.length + 1)) rest.length + 1 := by omega
      rw [dif_pos (c := (bytes ++ [b]).length < need (bytes ++ [b])) (by
        rw [hneed, List.length_append]; exact hmore)]
      conv_rhs => rw [read]
      simp only [htake, List.take_succ_cons, List.drop_succ_cons, hneed, List.length_append,
        List.length_singleton, List.append_assoc, List.singleton_append]
      by_cases hrest : min (need bytes - (bytes.length + 1)) rest.length = 0
      · have hz : rest = [] := by
          rw [← List.length_eq_zero_iff]
          omega
        subst hz
        simp [hmore]
      · rw [if_neg hrest]
    · have htake : min (need bytes - bytes.length) (rest.length + 1) = 1 := by omega
      rw [dif_neg (c := (bytes ++ [b]).length < need (bytes ++ [b])) (by
        rw [hneed, List.length_append]; exact hmore)]
      simp only [htake, List.take_succ_cons, List.take_zero, List.drop_succ_cons, List.drop_zero]
      rw [dif_neg (by rw [hneed, List.length_append]; exact hmore)]

/-- **The loop in one step**: the kept bytes and the chunk are decoded as one run of bytes. -/
theorem read_eq (p : Partial) (input : Bytes) :
    (∃ value used, decode (p.bytes ++ input) = some (value, used) ∧
      p.read input = (some value, empty, (p.bytes ++ input).drop used)) ∨
    (decode (p.bytes ++ input) = none ∧
      ∃ h, p.read input = (none, ⟨p.bytes ++ input, h⟩, [])) := by
  induction input generalizing p with
  | nil =>
    right
    have hnil := List.append_nil p.bytes
    refine ⟨hnil.symm ▸ decode_eq_none p.waiting, hnil.symm ▸ p.waiting, ?_⟩
    simp only [hnil, read_nil]
  | cons b rest ih =>
    rw [read_cons, List.append_cons]
    split
    · rename_i hmore
      exact ih ⟨p.bytes ++ [b], hmore⟩
    · -- the integer ends with `b`: its length is what was needed
      rename_i hend
      left
      obtain ⟨⟨value, used⟩, hvalue⟩ := decode_of_not_waiting hend
      obtain ⟨hused, hle⟩ := decode_bounds hvalue
      have hlen : used = (p.bytes ++ [b]).length := by
        have hwait := p.waiting
        rw [hused] at hle ⊢
        by_cases hnil : p.bytes = []
        · have hpos := need_pos (p.bytes ++ [b])
          rw [hnil] at hle hend hpos ⊢
          simp only [List.nil_append, List.length_singleton] at hle hend hpos ⊢
          omega
        · rw [need_append hnil] at hle hend ⊢
          rw [List.length_append, List.length_singleton] at hle hend ⊢
          omega
      refine ⟨value, used, decode_append hvalue rest, ?_⟩
      rw [hvalue, hlen, List.drop_left]
      rfl

/-- An integer reads the same however its bytes are cut. -/
theorem read_resumable : Chunked.Resumable read where
  nil := read_nil
  cons p b rest := by
    rw [read_cons p b rest, read_cons p b []]
    split
    · rw [read_nil]
    · obtain ⟨value, hvalue⟩ := decode_of_not_waiting (by assumption)
      rw [hvalue]
      rfl

end Partial

end Varint

end GraphiteMeter.Http3
