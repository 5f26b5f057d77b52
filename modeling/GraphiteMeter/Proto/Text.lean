import GraphiteMeter.Lib.Text

/-!
# Fields of digits

Reference: `rust/proto/src/text.rs`.
-/

namespace GraphiteMeter.Proto

/-- A field of digits only, at most `digits` of them, that names a number below `bound`. -/
def decimal (bound : ℕ) (field : Text) (digits : ℕ) : Option (Fin bound) :=
  if field ≠ [] ∧ field.byteLen ≤ digits ∧ field.all Char.isDigit then
    if h : field.value < bound then some ⟨field.value, h⟩ else none
  else none

/-- Of a field of digits that is not too long, only the number decides. -/
theorem decimal_of_digits {bound digits : ℕ} {field : Text} (hne : field ≠ [])
    (hlen : field.length ≤ digits) (hdigits : ∀ c ∈ field, c.isDigit) :
    decimal bound field digits =
      if h : field.value < bound then some ⟨field.value, h⟩ else none := by
  have hbytes : field.byteLen = field.length :=
    Text.byteLen_of_ascii fun c hc => Text.ascii_of_isDigit (hdigits c hc)
  rw [decimal, if_pos ⟨hne, by omega, List.all_eq_true.mpr hdigits⟩]

/-- A decimal is read from digits, few enough and below the bound. -/
theorem decimal_eq_some {bound digits : ℕ} {field : Text} {n : Fin bound} :
    decimal bound field digits = some n ↔
      field ≠ [] ∧ field.length ≤ digits ∧ (∀ c ∈ field, c.isDigit) ∧ field.value = n := by
  constructor
  · intro h
    rw [decimal] at h
    split_ifs at h with hfield hlt
    obtain ⟨hne, hlen, hdigits⟩ := hfield
    refine ⟨hne, (Text.length_le_byteLen field).trans hlen, List.all_eq_true.mp hdigits, ?_⟩
    rw [← Option.some.inj h]
  · rintro ⟨hne, hlen, hdigits, hvalue⟩
    rw [decimal_of_digits hne hlen hdigits, dif_pos (by rw [hvalue]; exact n.isLt)]
    exact congrArg some (Fin.ext hvalue)

/-- A number's own digits are a field that names it. -/
theorem decimal_toDigits {bound digits : ℕ} (n : Fin bound) (hpos : 0 < digits)
    (hbound : bound ≤ 10 ^ digits) : decimal bound (Nat.toDigits 10 n) digits = some n := by
  rw [decimal_eq_some]
  refine ⟨Nat.toDigits_ne_nil, ?_, fun c => Text.isDigit_of_mem_toDigits, Text.value_toDigits n⟩
  rw [Nat.length_toDigits_le_iff (by decide) hpos]
  exact n.isLt.trans_le hbound

end GraphiteMeter.Proto
