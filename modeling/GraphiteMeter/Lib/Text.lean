import Mathlib.Algebra.BigOperators.Group.List.Basic
import Mathlib.Algebra.GroupWithZero.Nat
import Mathlib.Data.Nat.Basic

/-!
# Texts

A text is the list of its characters. The operations are those a string library offers on UTF-8
text: lengths count bytes, and the ASCII operations leave every other character alone.
-/

abbrev Text := List Char

instance Text.lawfulBEq : LawfulBEq Text := inferInstance

namespace Text

/-! ## Lengths -/

/-- The length of the text's UTF-8 encoding. -/
def byteLen (t : Text) : ℕ := (t.map Char.utf8Size).sum

@[simp]
theorem byteLen_nil : byteLen [] = 0 := rfl

@[simp]
theorem byteLen_cons (c : Char) (t : Text) : byteLen (c :: t) = c.utf8Size + byteLen t := by
  rw [byteLen, byteLen, List.map_cons, List.sum_cons]

@[simp]
theorem byteLen_append (s t : Text) : byteLen (s ++ t) = byteLen s + byteLen t := by
  rw [byteLen, byteLen, byteLen, List.map_append, List.sum_append]

/-- A character of the ASCII range takes one byte. -/
theorem utf8Size_of_ascii {c : Char} (h : c.toNat < 128) : c.utf8Size = 1 := by
  rw [Char.utf8Size_eq_one_iff, UInt32.le_iff_toNat_le]
  exact Nat.le_of_lt_succ h

/-- An ASCII text has one byte a character. -/
theorem byteLen_of_ascii {t : Text} (h : ∀ c ∈ t, c.toNat < 128) : byteLen t = t.length := by
  induction t with
  | nil => rfl
  | cons c t ih =>
    rw [byteLen_cons, utf8Size_of_ascii (h c List.mem_cons_self),
      ih fun d hd => h d (List.mem_cons_of_mem _ hd), List.length_cons, Nat.add_comm]

/-- A character has a byte at least. -/
theorem length_le_byteLen (t : Text) : t.length ≤ byteLen t := by
  induction t with
  | nil => exact Nat.le_refl 0
  | cons c t ih =>
    rw [byteLen_cons, List.length_cons]
    have := c.utf8Size_pos
    omega

/-! ## Cutting -/

/-- Cuts at the first place where `sep` stands, and leaves it out. -/
def splitOnce (sep : Text) : Text → Option (Text × Text)
  | [] => if sep = [] then some ([], []) else none
  | c :: t =>
    match (c :: t).dropPrefix? sep with
    | some rest => some ([], rest)
    | none => (splitOnce sep t).map fun (before, after) => (c :: before, after)

/-- A prefix can be dropped from what it starts. -/
theorem dropPrefix_append (p t : Text) : (p ++ t).dropPrefix? p = some t := by
  rw [List.dropPrefix?_eq_some_iff]
  exact ⟨p, rfl, beq_self_eq_true p⟩

/-- A text is its prefix and the rest. -/
theorem eq_append_of_dropPrefix {p t rest : Text} (h : t.dropPrefix? p = some rest) :
    t = p ++ rest := by
  obtain ⟨p', rfl, hp⟩ := List.dropPrefix?_eq_some_iff.mp h
  rw [eq_of_beq hp]

/-- A text is the rest and its suffix. -/
theorem dropSuffix_eq_some {p t rest : Text} : t.dropSuffix? p = some rest ↔ t = rest ++ p := by
  rw [List.dropSuffix?_eq_some_iff]
  constructor
  · rintro ⟨p', rfl, hp⟩
    rw [eq_of_beq hp]
  · rintro rfl
    exact ⟨p, rfl, beq_self_eq_true p⟩

/-- The two sides of the cut, with the separator between them, are the text. -/
theorem eq_of_splitOnce {sep t before after : Text} (h : splitOnce sep t = some (before, after)) :
    t = before ++ sep ++ after := by
  induction t generalizing before with
  | nil =>
    rw [splitOnce] at h
    split_ifs at h with hsep
    obtain ⟨rfl, rfl⟩ := Prod.mk.inj (Option.some.inj h)
    rw [hsep]
    rfl
  | cons c t ih =>
    rw [splitOnce] at h
    split at h
    next rest hrest =>
      obtain ⟨rfl, rfl⟩ := Prod.mk.inj (Option.some.inj h)
      exact eq_append_of_dropPrefix hrest
    next =>
      obtain ⟨⟨before', after'⟩, hcut, heq⟩ := Option.map_eq_some_iff.mp h
      obtain ⟨rfl, rfl⟩ := Prod.mk.inj heq
      rw [ih hcut, List.cons_append, List.cons_append]

/-- The first place where `sep` stands is found where its first character does not occur before. -/
theorem splitOnce_append {a : Char} {sep before after : Text} (h : a ∉ before) :
    splitOnce (a :: sep) (before ++ (a :: sep) ++ after) = some (before, after) := by
  induction before with
  | nil =>
    show splitOnce (a :: sep) (a :: (sep ++ after)) = _
    rw [splitOnce, ← List.cons_append, dropPrefix_append]
  | cons c before ih =>
    obtain ⟨hc, hbefore⟩ := not_or.mp (List.mem_cons.not.mp h)
    have hnone : (c :: (before ++ (a :: sep) ++ after)).dropPrefix? (a :: sep) = none := by
      rw [Option.eq_none_iff_forall_ne_some]
      intro rest hrest
      exact hc (List.cons.inj (eq_append_of_dropPrefix hrest)).1.symm
    show splitOnce (a :: sep) (c :: (before ++ (a :: sep) ++ after)) = _
    rw [splitOnce, hnone, ih hbefore]
    rfl

/-- Taking stops where the second part starts. -/
theorem takeWhile_append_of_all {p : Char → Bool} {s t : Text} (hs : ∀ c ∈ s, p c)
    (ht : ∀ c ∈ t.head?, ¬p c) : (s ++ t).takeWhile p = s := by
  rw [List.takeWhile_append_of_pos hs]
  cases t with
  | nil => exact List.append_nil s
  | cons c t => rw [List.takeWhile_cons_of_neg (ht c rfl), List.append_nil]

/-- Dropping stops where the second part starts. -/
theorem dropWhile_append_of_all {p : Char → Bool} {s t : Text} (hs : ∀ c ∈ s, p c)
    (ht : ∀ c ∈ t.head?, ¬p c) : (s ++ t).dropWhile p = t := by
  rw [List.dropWhile_append_of_pos hs]
  cases t with
  | nil => rfl
  | cons c t => rw [List.dropWhile_cons_of_neg (ht c rfl)]

/-- A joined text holds only the separator and what its parts hold. -/
theorem mem_intercalate {sep c : Char} {parts : List Text} (h : c ∈ [sep].intercalate parts) :
    c = sep ∨ ∃ part ∈ parts, c ∈ part := by
  induction parts with
  | nil => cases h
  | cons part parts ih =>
    cases parts with
    | nil =>
      rw [List.intercalate_singleton] at h
      exact Or.inr ⟨part, List.mem_singleton_self part, h⟩
    | cons next parts =>
      rw [List.intercalate_cons_cons, List.mem_append, List.mem_append, List.mem_singleton] at h
      rcases h with (h | h) | h
      · exact Or.inr ⟨part, List.mem_cons_self, h⟩
      · exact Or.inl h
      · rcases ih h with h | ⟨other, hother, hc⟩
        · exact Or.inl h
        · exact Or.inr ⟨other, List.mem_cons_of_mem _ hother, hc⟩

/-- Every character stands in a part or is a separator. -/
theorem mem_splitOn (sep : Char) {c : Char} {t : Text} (h : c ∈ t) :
    c = sep ∨ ∃ part ∈ t.splitOn sep, c ∈ part := by
  have hjoin : [sep].intercalate (t.splitOn sep) = t := List.intercalate_splitOn sep
  rw [← hjoin] at h
  exact mem_intercalate h

/-- A separator at the end leaves an empty last part. -/
theorem splitOn_append_self (sep : Char) (t : Text) :
    (t ++ [sep]).splitOn sep = t.splitOn sep ++ [[]] := by
  rw [List.splitOn_append_cons_self, List.splitOn_nil]

/-! ## Lower case -/

def toAsciiLowercase (t : Text) : Text := t.map Char.toLower

def eqIgnoreAsciiCase (s t : Text) : Bool := toAsciiLowercase s = toAsciiLowercase t

/-- Lower case adds 32 to an upper case letter. -/
theorem toLower_toNat (c : Char) :
    c.toLower.toNat = if 65 ≤ c.toNat ∧ c.toNat ≤ 90 then c.toNat + 32 else c.toNat := by
  have hupper : (c.val ≥ 'A'.val ∧ c.val ≤ 'Z'.val) ↔ 65 ≤ c.toNat ∧ c.toNat ≤ 90 := by
    rw [ge_iff_le, UInt32.le_iff_toNat_le, UInt32.le_iff_toNat_le]
    rfl
  by_cases h : 65 ≤ c.toNat ∧ c.toNat ≤ 90
  · have hlower : c.toLower.toNat = (c.val + 32).toNat :=
      congrArg Char.toNat (dif_pos (hupper.mpr h))
    rw [if_pos h, hlower, UInt32.toNat_add]
    exact Nat.mod_eq_of_lt (show c.toNat + 32 < 2 ^ 32 by omega)
  · have hsame : c.toLower = c := dif_neg (hupper.not.mpr h)
    rw [if_neg h, hsame]

/-- The digits are 48 to 57. -/
theorem isDigit_iff (c : Char) : c.isDigit ↔ 48 ≤ c.toNat ∧ c.toNat ≤ 57 :=
  Char.isDigit_iff_toNat

/-- The letters are 65 to 90 and 97 to 122. -/
theorem isAlpha_iff (c : Char) :
    c.isAlpha ↔ 65 ≤ c.toNat ∧ c.toNat ≤ 90 ∨ 97 ≤ c.toNat ∧ c.toNat ≤ 122 := by
  show (decide (c.val ≥ 'A'.val ∧ c.val ≤ 'Z'.val)
    || decide (c.val ≥ 'a'.val) && decide (c.val ≤ 'z'.val)) = true ↔ _
  simp only [ge_iff_le, UInt32.le_iff_toNat_le, Bool.or_eq_true, Bool.and_eq_true, decide_eq_true_eq]
  rfl

/-- A letter or a digit. -/
theorem isAlphanum_iff (c : Char) : c.isAlphanum ↔ c.isAlpha ∨ c.isDigit := by
  rw [Char.isAlphanum, Bool.or_eq_true]

@[simp]
theorem isDigit_toLower (c : Char) : c.toLower.isDigit = c.isDigit := by
  rw [Bool.eq_iff_iff, isDigit_iff, isDigit_iff, toLower_toNat]
  split_ifs <;> omega

@[simp]
theorem isAlphanum_toLower (c : Char) : c.toLower.isAlphanum = c.isAlphanum := by
  rw [Bool.eq_iff_iff, isAlphanum_iff, isAlphanum_iff, isDigit_toLower, isDigit_iff, isAlpha_iff,
    isAlpha_iff, toLower_toNat]
  split_ifs <;> omega

@[simp]
theorem toLower_toLower (c : Char) : c.toLower.toLower = c.toLower := by
  apply Char.toNat_inj.mp
  rw [toLower_toNat c.toLower, toLower_toNat c]
  split_ifs <;> omega

@[simp]
theorem toAsciiLowercase_idem (t : Text) :
    toAsciiLowercase (toAsciiLowercase t) = toAsciiLowercase t := by
  rw [toAsciiLowercase, toAsciiLowercase, List.map_map]
  exact List.map_congr_left fun c _ => toLower_toLower c

/-- Lower case moves no character across a byte length. -/
@[simp]
theorem byteLen_toAsciiLowercase (t : Text) : byteLen (toAsciiLowercase t) = byteLen t := by
  induction t with
  | nil => rfl
  | cons c t ih =>
    have hc : c.toLower.utf8Size = c.utf8Size := by
      by_cases h : 65 ≤ c.toNat ∧ c.toNat ≤ 90
      · rw [utf8Size_of_ascii (c := c) (by omega)]
        apply utf8Size_of_ascii
        rw [toLower_toNat, if_pos h]
        omega
      · congr 1
        apply Char.toNat_inj.mp
        rw [toLower_toNat, if_neg h]
    rw [toAsciiLowercase, List.map_cons, byteLen_cons, byteLen_cons, hc]
    exact congrArg _ ih

/-- Texts equal but for case are of one length. -/
theorem length_eq_of_eqIgnoreAsciiCase {s t : Text} (h : eqIgnoreAsciiCase s t) :
    byteLen s = byteLen t := by
  rw [← byteLen_toAsciiLowercase s, ← byteLen_toAsciiLowercase t, of_decide_eq_true h]

/-- A character that is its own only spelling stays where it is. -/
theorem toLower_eq_iff {c d : Char} (hd : d.isAlpha = false) : c.toLower = d ↔ c = d := by
  rw [← Char.toNat_inj, ← Char.toNat_inj, toLower_toNat]
  have hd' := (isAlpha_iff d).not.mp (by rw [hd]; exact Bool.false_ne_true)
  split_ifs <;> omega

/-- A last character that is no letter is cut off whichever case the rest has. -/
theorem dropSuffix_toAsciiLowercase {d : Char} (hd : d.isAlpha = false) (t : Text) :
    (toAsciiLowercase t).dropSuffix? [d] = (t.dropSuffix? [d]).map toAsciiLowercase := by
  ext rest
  rw [dropSuffix_eq_some, Option.map_eq_some_iff]
  constructor
  · intro h
    obtain ⟨before, last, rfl, hbefore, hlast⟩ := List.map_eq_append_iff.mp h
    obtain ⟨c, rfl, hc⟩ := List.map_eq_singleton_iff.mp hlast
    obtain rfl := (toLower_eq_iff hd).mp hc
    exact ⟨before, dropSuffix_eq_some.mpr rfl, hbefore⟩
  · rintro ⟨before, hbefore, rfl⟩
    rw [dropSuffix_eq_some.mp hbefore, toAsciiLowercase, List.map_append, List.map_singleton,
      (toLower_eq_iff hd).mpr rfl]
    rfl

/-- A separator that is no letter cuts whichever case the parts have. -/
theorem splitOn_toAsciiLowercase {d : Char} (hd : d.isAlpha = false) (t : Text) :
    (toAsciiLowercase t).splitOn d = (t.splitOn d).map toAsciiLowercase := by
  induction t with
  | nil => rfl
  | cons c t ih =>
    have hbeq : (c.toLower == d) = (c == d) := by
      rw [Bool.eq_iff_iff, beq_iff_eq, beq_iff_eq, toLower_eq_iff hd]
    show (c.toLower :: toAsciiLowercase t).splitOn d = _
    rw [List.splitOn_cons_eq_if_modifyHead, List.splitOn_cons_eq_if_modifyHead, hbeq, ih]
    split_ifs
    · rfl
    · obtain ⟨part, parts, hparts⟩ := List.exists_cons_of_ne_nil (List.splitOn_ne_nil d t)
      rw [hparts]
      rfl

/-! ## Numbers -/

/-- The number a text of digits names. -/
def value (t : Text) : ℕ := Nat.ofDigitChars 10 t 0

/-- The digits of a number have its value. -/
theorem value_toDigits (n : ℕ) : value (Nat.toDigits 10 n) = n :=
  Nat.ofDigitChars_ten_toDigits

/-- They are digits. -/
theorem isDigit_of_mem_toDigits {n : ℕ} {c : Char} (h : c ∈ Nat.toDigits 10 n) : c.isDigit :=
  Nat.isDigit_of_mem_toDigits (by decide) (by decide) h

/-- A digit is ASCII. -/
theorem ascii_of_isDigit {c : Char} (h : c.isDigit) : c.toNat < 128 := by
  have := (isDigit_iff c).mp h
  omega

/-- The first digit counts for its place. -/
theorem value_cons (c : Char) (t : Text) :
    value (c :: t) = 10 ^ t.length * (c.toNat - 48) + value t := by
  rw [value, Nat.ofDigitChars_cons, Nat.ofDigitChars_eq_ofDigitChars_zero]
  simp [value]

/-- As many digits name no more numbers. -/
theorem value_lt {t : Text} (h : ∀ c ∈ t, c.isDigit) : value t < 10 ^ t.length := by
  induction t with
  | nil => exact Nat.one_pos
  | cons c t ih =>
    have hc := (isDigit_iff c).mp (h c List.mem_cons_self)
    have ht := ih fun d hd => h d (List.mem_cons_of_mem _ hd)
    rw [value_cons, List.length_cons, Nat.pow_succ]
    have hle : 10 ^ t.length * (c.toNat - 48) ≤ 10 ^ t.length * 9 := Nat.mul_le_mul_left _ (by omega)
    omega

/-- No text of digits is shorter than its number's own. -/
theorem length_toDigits_value_le {t : Text} (hne : t ≠ []) (h : ∀ c ∈ t, c.isDigit) :
    (Nat.toDigits 10 (value t)).length ≤ t.length :=
  (Nat.length_toDigits_le_iff (by decide) (List.length_pos_iff.mpr hne)).mpr (value_lt h)

/-- Texts of as many digits are ordered as their numbers. -/
theorem lt_iff_value_lt {s t : Text} (hs : ∀ c ∈ s, c.isDigit) (ht : ∀ c ∈ t, c.isDigit)
    (hlen : s.length = t.length) : s < t ↔ value s < value t := by
  induction s generalizing t with
  | nil =>
    obtain rfl := List.eq_nil_of_length_eq_zero hlen.symm
    simp [value]
  | cons c s ih =>
    cases t with
    | nil => cases hlen
    | cons d t =>
      have hlen' : s.length = t.length := Nat.succ.inj hlen
      have hs' : ∀ x ∈ s, x.isDigit := fun x hx => hs x (List.mem_cons_of_mem _ hx)
      have ht' : ∀ x ∈ t, x.isDigit := fun x hx => ht x (List.mem_cons_of_mem _ hx)
      have hc := (isDigit_iff c).mp (hs c List.mem_cons_self)
      have hd := (isDigit_iff d).mp (ht d List.mem_cons_self)
      have hsv := value_lt hs'
      have htv := value_lt ht'
      rw [List.cons_lt_cons_iff, value_cons, value_cons, ← hlen', ih hs' ht' hlen', Char.lt_def,
        UInt32.lt_iff_toNat_lt]
      rw [← hlen'] at htv
      show c.toNat < d.toNat ∨ c = d ∧ value s < value t ↔ _
      -- The first digit that differs decides: the rest names less than its place is worth.
      rcases Nat.lt_trichotomy c.toNat d.toNat with hlt | heq | hgt
      · have hstep : 10 ^ s.length * (c.toNat - 48) + 10 ^ s.length
            ≤ 10 ^ s.length * (d.toNat - 48) := by
          rw [← Nat.mul_succ]
          exact Nat.mul_le_mul_left _ (by omega)
        exact ⟨fun _ => by omega, fun _ => Or.inl hlt⟩
      · obtain rfl := Char.toNat_inj.mp heq
        simp
      · have hstep : 10 ^ s.length * (d.toNat - 48) + 10 ^ s.length
            ≤ 10 ^ s.length * (c.toNat - 48) := by
          rw [← Nat.mul_succ]
          exact Nat.mul_le_mul_left _ (by omega)
        refine ⟨?_, fun h => by omega⟩
        rintro (h | ⟨rfl, -⟩) <;> omega

end Text
