import GraphiteMeter.Proto.Text

/-!
# The latency bus messages

Reference: `rust/proto/src/bus.rs`, and `client/src/protocol/wire.ts`, where the browser reads the
same replies. One message per WebSocket text message or WebTransport datagram.
-/

namespace GraphiteMeter.Proto

instance neZero_ids : NeZero (2 ^ 32) := ⟨by decide⟩

/-- `PING,<id>`: a client probe. -/
structure Ping where
  id : Fin (2 ^ 32)
deriving DecidableEq, Repr

/-- `PONG,<id>,<handling-ns>`: the reflector's reply and how long it handled the probe. -/
structure Pong where
  id : Fin (2 ^ 32)
  handlingNanos : Fin (2 ^ 64)
deriving DecidableEq, Repr

namespace Ping

def encode (ping : Ping) : String := "PING," ++ ping.id.val.repr

/-- Reads a probe; `none` for a malformed message. -/
def decode (message : ByteArray) : Option Ping := do
  let text ← String.fromUTF8? message
  let id ← text.toList.dropPrefix? "PING,".toList
  let id ← decimal (2 ^ 32) id 10
  some ⟨id⟩

/-- The bus's next probe; ids wrap at 2^32. -/
def next (ping : Ping) : Ping := ⟨ping.id + 1⟩

def reply (ping : Ping) (handlingNanos : Fin (2 ^ 64)) : Pong := ⟨ping.id, handlingNanos⟩

end Ping

namespace Pong

def encode (pong : Pong) : String :=
  "PONG," ++ pong.id.val.repr ++ "," ++ pong.handlingNanos.val.repr

/-- Reads a reply; `none` for a malformed message. -/
def decode (message : ByteArray) : Option Pong := do
  let text ← String.fromUTF8? message
  let rest ← text.toList.dropPrefix? "PONG,".toList
  let (id, nanos) ← Text.splitOnce ",".toList rest
  let id ← decimal (2 ^ 32) id 10
  let handlingNanos ← decimal (2 ^ 64) nanos 20
  some ⟨id, handlingNanos⟩

end Pong

/-! ## The browser's reader -/

namespace Browser

/-- `Number` of a whole number: the nearest double, the even one of two that are as near. -/
def number (n : ℕ) : ℕ :=
  if n < 2 ^ 53 then n
  else
    let unit := 2 ^ (n.log2 - 52)
    let significand := n / unit
    let rest := n % unit
    if unit < 2 * rest ∨ 2 * rest = unit ∧ significand % 2 = 1 then (significand + 1) * unit
    else significand * unit

/-- `Number.isSafeInteger` of a whole number. -/
def isSafeInteger (x : ℕ) : Bool := x ≤ 2 ^ 53 - 1

/-- The groups of `/^PONG,(\d{1,10}),(\d{1,20})$/`. -/
def exec (message : Text) : Option (Text × Text) := do
  let rest ← message.dropPrefix? "PONG,".toList
  let id := rest.takeWhile Char.isDigit
  let digits ← (rest.dropWhile Char.isDigit).dropPrefix? ",".toList
  if (1 ≤ id.length ∧ id.length ≤ 10) ∧ (1 ≤ digits.length ∧ digits.length ≤ 20) ∧
      digits.all Char.isDigit then
    some (id, digits)
  else none

/-- A reply's id, and its handling time unless that is past a double's exact range. -/
def pong (message : String) : Option (ℕ × Option ℕ) := do
  let (first, digits) ← exec message.toList
  let id := number (Text.value first)
  if id > 0xffffffff ∨ digits.length = 20 ∧ digits > "18446744073709551615".toList then none
  else
    let handlingNs := number (Text.value digits)
    some (id, if isSafeInteger handlingNs then some handlingNs else none)

end Browser

/-! ## Round trips -/

/-- A text is read back from its bytes. -/
theorem fromUTF8_toUTF8 (text : String) : String.fromUTF8? text.toUTF8 = some text := by
  unfold String.fromUTF8?
  exact dif_pos text.isValidUTF8

namespace Ping

/-- A ping is its tag and its number. -/
theorem toList_encode (ping : Ping) :
    ping.encode.toList = "PING,".toList ++ Nat.toDigits 10 ping.id := by
  rw [encode, String.toList_append, Nat.toList_repr]

/-- **A ping** is read back from its message. -/
theorem decode_encode (ping : Ping) : decode ping.encode.toUTF8 = some ping := by
  have hid : decimal (2 ^ 32) (Nat.toDigits 10 ping.id) 10 = some ping.id :=
    decimal_toDigits ping.id (by decide) (by decide)
  rw [decode, fromUTF8_toUTF8, Option.bind_eq_bind, Option.bind_some, toList_encode,
    Text.dropPrefix_append]
  show (do let id ← decimal (2 ^ 32) (Nat.toDigits 10 ping.id) 10; some (Ping.mk id)) = some ping
  rw [hid]
  rfl

end Ping

namespace Pong

/-- A pong is its tag and its two numbers. -/
theorem toList_encode (pong : Pong) :
    pong.encode.toList = "PONG,".toList ++
      (Nat.toDigits 10 pong.id ++ [','] ++ Nat.toDigits 10 pong.handlingNanos) := by
  rw [encode, String.toList_append, String.toList_append, String.toList_append, Nat.toList_repr,
    Nat.toList_repr, List.append_assoc, List.append_assoc, List.append_assoc]
  rfl

/-- What a reply is: its two fields behind the word, with a comma between them. -/
theorem decode_eq_some {text : String} {pong : Pong} :
    decode text.toUTF8 = some pong ↔
      ∃ first digits : Text, text.toList = "PONG,".toList ++ (first ++ [','] ++ digits) ∧
        decimal (2 ^ 32) first 10 = some pong.id ∧
        decimal (2 ^ 64) digits 20 = some pong.handlingNanos := by
  simp only [decode, fromUTF8_toUTF8, Option.bind_eq_bind, Option.bind_some]
  constructor
  · intro h
    obtain ⟨rest, hrest, h⟩ := Option.bind_eq_some_iff.mp h
    obtain ⟨⟨first, digits⟩, hcut, h⟩ := Option.bind_eq_some_iff.mp h
    obtain ⟨id, hid, h⟩ := Option.bind_eq_some_iff.mp h
    obtain ⟨nanos, hnanos, h⟩ := Option.bind_eq_some_iff.mp h
    obtain rfl := Option.some.inj h
    refine ⟨first, digits, ?_, hid, hnanos⟩
    rw [Text.eq_append_of_dropPrefix hrest, Text.eq_of_splitOnce hcut]
    rfl
  · rintro ⟨first, digits, htext, hid, hnanos⟩
    have hcomma : ',' ∉ first := fun h =>
      absurd ((decimal_eq_some.mp hid).2.2.1 ',' h) (by decide)
    have hcut : Text.splitOnce ",".toList (first ++ [','] ++ digits) = some (first, digits) :=
      Text.splitOnce_append hcomma
    rw [htext, Text.dropPrefix_append, Option.bind_some, hcut]
    simp only [Option.bind_some, hid, hnanos]

/-- **A pong** is read back from its message. -/
theorem decode_encode (pong : Pong) : decode pong.encode.toUTF8 = some pong := by
  refine decode_eq_some.mpr ⟨_, _, toList_encode pong, ?_, ?_⟩
  · exact decimal_toDigits pong.id (by decide) (by decide)
  · exact decimal_toDigits pong.handlingNanos (by decide) (by decide)

end Pong

/-! ## The browser reads the same replies -/

namespace Browser

/-- Below two to the fifty-third a number is exact. -/
theorem number_of_lt {n : ℕ} (h : n < 2 ^ 53) : number n = n :=
  if_pos h

/-- Rounding does not take a number below the exact range's end. -/
theorem le_number {n : ℕ} (h : 2 ^ 53 ≤ n) : 2 ^ 53 ≤ number n := by
  have hne : n ≠ 0 := by
    rintro rfl
    exact absurd h (by decide)
  have hlog : 53 ≤ n.log2 := (Nat.le_log2 hne).mpr h
  have hunit : 2 ^ 52 * 2 ^ (n.log2 - 52) = 2 ^ n.log2 := by
    rw [← Nat.pow_add]
    congr 1
    omega
  -- The significand keeps its top bit, and the unit is at least two.
  have hsignificand : 2 ^ 52 ≤ n / 2 ^ (n.log2 - 52) := by
    rw [Nat.le_div_iff_mul_le (Nat.two_pow_pos _), hunit]
    exact Nat.log2_self_le hne
  have hfloor : 2 ^ 53 ≤ n / 2 ^ (n.log2 - 52) * 2 ^ (n.log2 - 52) :=
    calc 2 ^ 53 ≤ 2 ^ n.log2 := Nat.pow_le_pow_right (by decide) hlog
      _ = 2 ^ 52 * 2 ^ (n.log2 - 52) := hunit.symm
      _ ≤ _ := Nat.mul_le_mul_right _ hsignificand
  rw [number, if_neg (by omega)]
  dsimp only
  split_ifs
  · exact hfloor.trans (Nat.mul_le_mul_right _ (Nat.le_succ _))
  · exact hfloor

/-- A handling time is a number exactly where it is one of the exact range. -/
theorem safe_number (n : ℕ) :
    (if isSafeInteger (number n) then some (number n) else none) =
      if n ≤ 2 ^ 53 - 1 then some n else none := by
  simp only [isSafeInteger, decide_eq_true_eq]
  by_cases h : n ≤ 2 ^ 53 - 1
  · rw [number_of_lt (by omega)]
  · have hle : 2 ^ 53 ≤ number n := le_number (by omega)
    rw [if_neg h, if_neg (by omega)]

/-- The regular expression's groups. -/
theorem exec_eq_some {message first digits : Text} :
    exec message = some (first, digits) ↔
      message = "PONG,".toList ++ (first ++ [','] ++ digits) ∧
        (first ≠ [] ∧ first.length ≤ 10 ∧ ∀ c ∈ first, c.isDigit) ∧
        (digits ≠ [] ∧ digits.length ≤ 20 ∧ ∀ c ∈ digits, c.isDigit) := by
  rw [exec, Option.bind_eq_bind]
  constructor
  · intro h
    obtain ⟨rest, hrest, h⟩ := Option.bind_eq_some_iff.mp h
    obtain ⟨after, hafter, h⟩ := Option.bind_eq_some_iff.mp h
    split_ifs at h with hgroups
    obtain ⟨rfl, rfl⟩ := Prod.mk.inj (Option.some.inj h)
    obtain ⟨⟨hfirst, hfirst'⟩, ⟨hdigits, hdigits'⟩, hall⟩ := hgroups
    refine ⟨?_, ⟨List.length_pos_iff.mp hfirst, hfirst', ?_⟩, List.length_pos_iff.mp hdigits,
      hdigits', List.all_eq_true.mp hall⟩
    · rw [Text.eq_append_of_dropPrefix hrest, List.append_assoc]
      congr 1
      exact (List.takeWhile_append_dropWhile).symm.trans
        (congrArg _ (Text.eq_append_of_dropPrefix hafter))
    · intro c hc
      exact List.all_eq_true.mp List.all_takeWhile c hc
  · rintro ⟨rfl, ⟨hfirst, hfirst', hall⟩, hdigits, hdigits', hall'⟩
    have hhead : ∀ c ∈ ([','] ++ digits).head?, ¬c.isDigit := by
      rintro c ⟨⟩
      decide
    rw [Text.dropPrefix_append, Option.bind_some, List.append_assoc,
      Text.takeWhile_append_of_all hall hhead, Text.dropWhile_append_of_all hall hhead]
    show (List.dropPrefix? (",".toList ++ digits) ",".toList).bind _ = _
    rw [Text.dropPrefix_append, Option.bind_some, if_pos]
    exact ⟨⟨List.length_pos_iff.mpr hfirst, hfirst'⟩, ⟨List.length_pos_iff.mpr hdigits, hdigits'⟩,
      List.all_eq_true.mpr hall'⟩

/-- The comparison as text finds the numbers that do not fit 64 bits. -/
theorem tooLong_iff {digits : Text} (hlen : digits.length ≤ 20) (hall : ∀ c ∈ digits, c.isDigit) :
    (digits.length = 20 ∧ digits > "18446744073709551615".toList) ↔ ¬digits.value < 2 ^ 64 := by
  have hmax : Text.value "18446744073709551615".toList = 2 ^ 64 - 1 := by decide
  have hdigits : "18446744073709551615".toList.all Char.isDigit := by decide
  by_cases h : digits.length = 20
  · have horder := Text.lt_iff_value_lt (List.all_eq_true.mp hdigits) hall h.symm
    rw [gt_iff_lt, horder, hmax]
    omega
  · have hlt : digits.value < 10 ^ 19 :=
      (Text.value_lt hall).trans_le (Nat.pow_le_pow_right (by decide) (by omega))
    have hfits : (10 : ℕ) ^ 19 ≤ 2 ^ 64 := by decide
    exact ⟨fun hlong => absurd hlong.1 h, fun hlong => absurd (hlt.trans_le hfits) hlong⟩

end Browser

/-- What the browser keeps of a reply. -/
def Pong.browser (pong : Pong) : ℕ × Option ℕ :=
  (pong.id, if pong.handlingNanos.val ≤ 2 ^ 53 - 1 then some pong.handlingNanos.val else none)

namespace Browser

/-- The browser reads a pong as the server's own parser does. -/
theorem pong_eq (message : String) :
    pong message = (Pong.decode message.toUTF8).map Pong.browser := by
  cases hexec : exec message.toList with
  | none =>
    -- A reply the other side accepts has the two groups, so it has none here.
    have hnone : Pong.decode message.toUTF8 = none := by
      rw [Option.eq_none_iff_forall_ne_some]
      intro reply hreply
      obtain ⟨first, digits, htext, hid, hnanos⟩ := Pong.decode_eq_some.mp hreply
      obtain ⟨hne, hlen, hall, -⟩ := decimal_eq_some.mp hid
      obtain ⟨hne', hlen', hall', -⟩ := decimal_eq_some.mp hnanos
      have hsome := exec_eq_some.mpr ⟨htext, ⟨hne, hlen, hall⟩, hne', hlen', hall'⟩
      rw [hexec] at hsome
      cases hsome
    rw [hnone, pong, hexec]
    rfl
  | some groups =>
    obtain ⟨first, digits⟩ := groups
    obtain ⟨htext, ⟨hne, hlen, hall⟩, hne', hlen', hall'⟩ := exec_eq_some.mp hexec
    have hvalue : first.value < 10 ^ 10 :=
      (Text.value_lt hall).trans_le (Nat.pow_le_pow_right (by decide) hlen)
    have hexact : number first.value = first.value := number_of_lt (by omega)
    have hcomma : ',' ∉ first := fun h => absurd (hall ',' h) (by decide)
    have hcut : Text.splitOnce ",".toList (first ++ [','] ++ digits) = some (first, digits) :=
      Text.splitOnce_append hcomma
    have hdecode : Pong.decode message.toUTF8 = (do
        let id ← decimal (2 ^ 32) first 10
        let handlingNanos ← decimal (2 ^ 64) digits 20
        some ⟨id, handlingNanos⟩) := by
      rw [Pong.decode, fromUTF8_toUTF8, Option.bind_eq_bind, Option.bind_some, htext,
        Text.dropPrefix_append]
      simp only [Option.bind_eq_bind, Option.bind_some, hcut]
    rw [hdecode, decimal_of_digits hne hlen hall, decimal_of_digits hne' hlen' hall', pong, hexec]
    simp only [Option.bind_eq_bind, Option.bind_some, hexact, safe_number, tooLong_iff hlen' hall']
    by_cases hid : first.value < 2 ^ 32
    · by_cases hnanos : digits.value < 2 ^ 64
      · rw [if_neg (by omega), dif_pos hid, dif_pos hnanos]
        rfl
      · rw [if_pos (Or.inr hnanos), dif_pos hid, dif_neg hnanos]
        rfl
    · rw [if_pos (Or.inl (by omega)), dif_neg hid]
      rfl

end Browser

/-- **The bus messages**: what is written reads back, and the browser reads the same replies, with
the same id and the handling time of the exact range. -/
theorem bus_messages :
    (∀ ping : Ping, Ping.decode ping.encode.toUTF8 = some ping) ∧
      (∀ pong : Pong, Pong.decode pong.encode.toUTF8 = some pong) ∧
      ∀ message : String,
        Browser.pong message = (Pong.decode message.toUTF8).map fun pong =>
          (pong.id.val,
            if pong.handlingNanos.val ≤ 2 ^ 53 - 1 then some pong.handlingNanos.val else none) :=
  ⟨Ping.decode_encode, Pong.decode_encode, Browser.pong_eq⟩

end GraphiteMeter.Proto
