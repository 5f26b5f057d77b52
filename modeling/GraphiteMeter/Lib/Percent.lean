import Mathlib.Data.List.Basic
import GraphiteMeter.Lib.Text

/-!
# Percent-encoding

What a percent-encoding library documents of itself: it writes the UTF-8 bytes of a text one by one,
each as it is or as `%` and two hexadecimal digits, and reads such texts back. `Codec` is any library
that does, `Codec.plain` one of them.
-/

namespace Percent

/-- The bytes of a text. -/
def utf8 (t : Text) : List UInt8 := t.flatMap String.utf8EncodeChar

def hexDigit (n : ℕ) : Char := "0123456789ABCDEF".toList.getD n '0'

def hexValue (c : Char) : Option ℕ :=
  if c.isDigit then some (c.toNat - 48)
  else if 'A' ≤ c ∧ c ≤ 'F' then some (c.toNat - 55)
  else if 'a' ≤ c ∧ c ≤ 'f' then some (c.toNat - 87)
  else none

/-- A hexadecimal digit has its value, and is a letter or a digit. -/
theorem hexDigit_spec {n : ℕ} (h : n < 16) : hexValue (hexDigit n) = some n ∧
    (hexDigit n).isAlphanum ∧ (hexDigit n = '0' ↔ n = 0) ∧ (hexDigit n = '2' ↔ n = 2) := by
  have hall : ∀ n : Fin 16, hexValue (hexDigit n) = some n.val ∧
      (hexDigit n).isAlphanum ∧ (hexDigit n = '0' ↔ n.val = 0) ∧ (hexDigit n = '2' ↔ n.val = 2) := by
    decide
  exact hall ⟨n, h⟩

/-- A byte as `%` and its two digits. -/
def escape (b : UInt8) : Text := ['%', hexDigit (b.toNat / 16), hexDigit (b.toNat % 16)]

/-- A byte as it is written where the ASCII characters of a set are escaped. -/
def encodeByte (escaped : Char → Bool) (b : UInt8) : Text :=
  if b.toNat < 128 ∧ escaped (Char.ofNat b.toNat) = false then [Char.ofNat b.toNat] else escape b

/-- What an encoded text is made of. -/
inductive Piece where
  | plain (c : Char) (ascii : c.toNat < 128) (ne : c ≠ '%')
  | escape (b : UInt8)

namespace Piece

def text : Piece → Text
  | .plain c _ _ => [c]
  | .escape b => Percent.escape b

/-- The byte that is meant. -/
def byte : Piece → UInt8
  | .plain c _ _ => UInt8.ofNat c.toNat
  | .escape b => b

end Piece

/-- What is used of a percent-encoding library. -/
structure Codec where
  encode : (Char → Bool) → Text → Text
  decode : Text → Text
  encode_eq : ∀ escaped t, encode escaped t = (utf8 t).flatMap (encodeByte escaped)
  decode_pieces : ∀ (pieces : List Piece) (t : Text), pieces.map Piece.byte = utf8 t →
    decode (pieces.flatMap Piece.text) = t

/-! ## A library -/

/-- Reads the bytes a text means; a `%` without two digits stays. -/
def decodeBytes : Text → List UInt8
  | [] => []
  | '%' :: high :: low :: t =>
    match hexValue high, hexValue low with
    | some high, some low => UInt8.ofNat (16 * high + low) :: decodeBytes t
    | _, _ => String.utf8EncodeChar '%' ++ decodeBytes (high :: low :: t)
  | c :: t => String.utf8EncodeChar c ++ decodeBytes t

/-- An escaped byte is read back. -/
theorem decodeBytes_escape (b : UInt8) (t : Text) :
    decodeBytes (escape b ++ t) = b :: decodeBytes t := by
  have hb : b.toNat < 256 := UInt8.toNat_lt b
  show decodeBytes ('%' :: hexDigit (b.toNat / 16) :: hexDigit (b.toNat % 16) :: t) = _
  rw [decodeBytes, (hexDigit_spec (by omega : b.toNat / 16 < 16)).1,
    (hexDigit_spec (by omega : b.toNat % 16 < 16)).1]
  simp only [Nat.div_add_mod, UInt8.ofNat_toNat]

/-- An ASCII character is one byte. -/
theorem utf8EncodeChar_of_ascii {c : Char} (h : c.toNat < 128) :
    String.utf8EncodeChar c = [UInt8.ofNat c.toNat] :=
  if_pos (Nat.le_of_lt_succ h)

/-- A plain character is its own byte. -/
theorem decodeBytes_plain {c : Char} (hascii : c.toNat < 128) (hne : c ≠ '%') (t : Text) :
    decodeBytes (c :: t) = UInt8.ofNat c.toNat :: decodeBytes t := by
  rw [decodeBytes.eq_3 c t fun _ _ _ h => absurd h hne, utf8EncodeChar_of_ascii hascii]
  rfl

/-- Pieces are read back byte by byte. -/
theorem decodeBytes_pieces (pieces : List Piece) :
    decodeBytes (pieces.flatMap Piece.text) = pieces.map Piece.byte := by
  induction pieces with
  | nil => rfl
  | cons piece pieces ih =>
    rw [List.flatMap_cons, List.map_cons, ← ih]
    cases piece with
    | plain c ascii ne => exact decodeBytes_plain ascii ne _
    | escape b => exact decodeBytes_escape b _

/-- Bytes as a text; bytes that are none become the replacement character. -/
def ofUtf8 (bytes : List UInt8) : Text :=
  match bytes.toByteArray.utf8Decode? with
  | some chars => chars.toList
  | none => [Char.ofNat 0xfffd]

/-- A text is read back from its bytes. -/
theorem ofUtf8_utf8 (t : Text) : ofUtf8 (utf8 t) = t := by
  have h : (utf8 t).toByteArray.utf8Decode? = some t.toArray := List.utf8Decode?_utf8Encode
  rw [ofUtf8, h]

def Codec.plain : Codec where
  encode := fun escaped t => (utf8 t).flatMap (encodeByte escaped)
  decode := fun t => ofUtf8 (decodeBytes t)
  encode_eq := fun _ _ => rfl
  decode_pieces := by
    intro pieces t h
    rw [decodeBytes_pieces, h, ofUtf8_utf8]

end Percent
