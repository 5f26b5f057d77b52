import Mathlib.Data.List.DropRight
import Mathlib.Data.List.TakeWhile
import Mathlib.Data.Nat.Log
import Mathlib.Tactic.Ring
import GraphiteMeter.Proto.Text

/-!
# Durations

Reference: `rust/proto/src/duration.rs`. Durations as flags and environment variables spell them, such
as `800ms`, `10s`, `1m30s` or `1.5h`; they are nanoseconds here. Numbers are 128 bits wide while a
text is read.

A text is read one component after another. `Component` is what may stand there, and `parse_render`
says once what reading any list of them comes to.
-/

namespace GraphiteMeter.Proto.Duration

def units : List (Text × ℕ) :=
  [("ns".toList, 1), ("us".toList, 1000), ("ms".toList, 1000000), ("s".toList, 1000000000),
    ("m".toList, 60000000000), ("h".toList, 3600000000000)]

/-- Fraction digits past this many stay below a nanosecond in every unit. -/
def fractionDigits : ℕ := 20

def invalid : String := "use a duration such as 800ms, 10s or 1m30s"

def tooLong : String := "duration too long"

def negative : String := "a duration cannot be negative"

/-! ## Parsing -/

def checkedMul (a b : ℕ) : Option ℕ := if a * b < 2 ^ 128 then some (a * b) else none

def checkedAdd (a b : ℕ) : Option ℕ := if a + b < 2 ^ 128 then some (a + b) else none

def wrappingMul (a b : ℕ) : ℕ := a * b % 2 ^ 128

def digits (t : Text) : Text × Text := (t.takeWhile Char.isDigit, t.dropWhile Char.isDigit)

def decimal (t : Text) : Option ℕ :=
  t.foldlM (fun value digit => (checkedMul value 10).bind fun value =>
    checkedAdd value (digit.toNat - 48)) 0

/-- The digits after a point, if one stands there. -/
def point : Text → Text × Text
  | '.' :: t => digits t
  | t => ([], t)

def letters (t : Text) : Text × Text := (t.takeWhile Char.isAlpha, t.dropWhile Char.isAlpha)

/-- One component's digits and unit, and what follows it. -/
structure Split where
  whole : Text
  fraction : Text
  unit : Text
  after : Text

def split (t : Text) : Split :=
  let fraction := point (digits t).2
  let unit := letters fraction.2
  ⟨(digits t).1, fraction.1, unit.1, unit.2⟩

def unitNanos (name : Text) : Option ℕ := (units.find? fun unit => unit.1 = name).map (·.2)

/-- A unit that is found is one of the units. -/
theorem mem_of_unitNanos {name : Text} {nanos : ℕ} (h : unitNanos name = some nanos) :
    (name, nanos) ∈ units := by
  obtain ⟨unit, hfind, rfl⟩ := Option.map_eq_some_iff.mp h
  obtain rfl : unit.1 = name := by simpa using List.find?_some hfind
  exact List.mem_of_find?_eq_some hfind

/-- A unit has a name of letters, and is found by it. -/
theorem name_of_mem {unit : Text × ℕ} (h : unit ∈ units) :
    unit.1 ≠ [] ∧ (∀ c ∈ unit.1, c.isAlpha) ∧ unitNanos unit.1 = some unit.2 := by
  have hall : ∀ unit ∈ units, unit.1 ≠ [] ∧ unit.1.all Char.isAlpha ∧
      unitNanos unit.1 = some unit.2 := by decide
  obtain ⟨hne, halpha, hnanos⟩ := hall unit h
  exact ⟨hne, List.all_eq_true.mp halpha, hnanos⟩

/-- What follows a point is no longer than the text. -/
theorem length_point_le (t : Text) : (point t).2.length ≤ t.length := by
  rw [point.eq_def]
  split
  · exact (List.dropWhile_sublist _).length_le.trans (Nat.le_succ _)
  · exact le_rfl

/-- A component takes at least its unit. -/
theorem length_after_lt {t : Text} {nanos : ℕ} (h : unitNanos (split t).unit = some nanos) :
    (split t).after.length < t.length := by
  have hne : 0 < (split t).unit.length :=
    List.length_pos_iff.mpr (name_of_mem (mem_of_unitNanos h)).1
  have hletters : (split t).unit.length + (split t).after.length
      = (point (digits t).2).2.length := by
    rw [← List.length_append]
    exact congrArg List.length (List.takeWhile_append_dropWhile ..)
  have hdigits : (digits t).2.length ≤ t.length := (List.dropWhile_sublist _).length_le
  have := length_point_le (digits t).2
  omega

/-- The loop over the components, of which `nanos` were read. -/
def parseFrom (rest : Text) (nanos : ℕ) : Except String ℕ :=
  if rest = [] then .ok nanos
  else
    match _hunit : unitNanos (split rest).unit with
    | none => .error invalid
    | some unit =>
      if (split rest).whole = [] ∧ (split rest).fraction = [] then .error invalid
      else
        let fraction := (split rest).fraction.take fractionDigits
        match decimal fraction with
        | none => .error tooLong
        | some value =>
          let fractionNanos := wrappingMul value unit / 10 ^ fraction.length
          let sum := (decimal (split rest).whole).bind fun whole =>
            (checkedMul whole unit).bind fun whole =>
              (checkedAdd whole fractionNanos).bind fun added => checkedAdd added nanos
          match sum with
          | none => .error tooLong
          | some nanos => parseFrom (split rest).after nanos
termination_by rest.length
decreasing_by exact length_after_lt _hunit

/-- Parses `0` or numbers with units. -/
def parse (text : Text) : Except String ℕ :=
  if text = ['0'] then .ok 0
  else if text = [] then .error invalid
  else if text.head? = some '-' then .error negative
  else
    (parseFrom text 0).bind fun nanos => if nanos < 2 ^ 64 then .ok nanos else .error tooLong

/-! ## Formatting -/

/-- Writes `value / scale` in decimal, without trailing zeros in its fraction. -/
def fixed (value scale : ℕ) : Text :=
  let whole := value / scale
  let fraction := value % scale
  if fraction = 0 then Nat.toDigits 10 whole
  else
    let digits := Nat.log 10 scale
    let padded := (Nat.toDigits 10 fraction).leftpad digits '0'
    Nat.toDigits 10 whole ++ '.' :: padded.rdropWhile (· = '0')

/-- Formats a duration as `parse` reads it. -/
def format (nanos : ℕ) : Text :=
  if nanos = 0 then "0s".toList
  else if nanos < 1000 then Nat.toDigits 10 nanos ++ "ns".toList
  else if nanos < 1000000 then fixed nanos 1000 ++ "us".toList
  else if nanos < 1000000000 then fixed nanos 1000000 ++ "ms".toList
  else
    let hours := nanos / 3600000000000
    let minutes := nanos / 60000000000 % 60
    let seconds := nanos % 60000000000
    (if 0 < hours then Nat.toDigits 10 hours ++ "h".toList else []) ++
      (if 0 < minutes then Nat.toDigits 10 minutes ++ "m".toList else []) ++
      (if 0 < seconds then fixed seconds 1000000000 ++ "s".toList else [])

/-! ## Components -/

/-- What may stand in a duration. -/
structure Component where
  whole : Text
  /-- What follows a point, if there is one. -/
  fraction : Option Text
  unit : Text × ℕ
  whole_digits : ∀ c ∈ whole, c.isDigit
  fraction_digits : ∀ c ∈ fraction.getD [], c.isDigit
  digit : whole ≠ [] ∨ fraction.getD [] ≠ []
  unit_mem : unit ∈ units

namespace Component

def fractionText (c : Component) : Text := c.fraction.elim [] fun fraction => '.' :: fraction

def text (c : Component) : Text := c.whole ++ c.fractionText ++ c.unit.1

/-- The fraction digits that are read. -/
def read (c : Component) : Text := (c.fraction.getD []).take fractionDigits

/-- The nanoseconds of the component as they are read. -/
def nanos (c : Component) : ℕ :=
  c.whole.value * c.unit.2 + c.read.value * c.unit.2 / 10 ^ c.read.length

end Component

def render (cs : List Component) : Text := cs.flatMap Component.text

/-! ## Reading a component -/

/-- Digits are read up to the first other character. -/
theorem digits_append {s t : Text} (hs : ∀ c ∈ s, c.isDigit) (ht : ∀ c ∈ t.head?, ¬c.isDigit) :
    digits (s ++ t) = (s, t) :=
  Prod.ext (Text.takeWhile_append_of_all hs ht) (Text.dropWhile_append_of_all hs ht)

/-- Letters are read up to the first other character. -/
theorem letters_append {s t : Text} (hs : ∀ c ∈ s, c.isAlpha) (ht : ∀ c ∈ t.head?, ¬c.isAlpha) :
    letters (s ++ t) = (s, t) :=
  Prod.ext (Text.takeWhile_append_of_all hs ht) (Text.dropWhile_append_of_all hs ht)

/-- No letter is a digit. -/
theorem not_isDigit_of_isAlpha {c : Char} (h : c.isAlpha) : ¬c.isDigit := by
  rw [Text.isAlpha_iff] at h
  rw [Text.isDigit_iff]
  omega

namespace Component

variable {c : Component}

/-- A component starts with a digit or a point. -/
theorem head_text (c : Component) : ∃ head ∈ c.text.head?, head.isDigit ∨ head = '.' := by
  cases hwhole : c.whole with
  | cons head tail =>
    refine ⟨head, ?_, .inl (c.whole_digits head (hwhole ▸ List.mem_cons_self))⟩
    rw [text, hwhole]
    rfl
  | nil =>
    cases hfraction : c.fraction with
    | some fraction =>
      refine ⟨'.', ?_, .inr rfl⟩
      rw [text, hwhole, fractionText, hfraction]
      rfl
    | none =>
      rcases c.digit with h | h
      · exact absurd hwhole h
      · exact absurd (congrArg (Option.getD · []) hfraction) h

/-- A component has a digit and a unit. -/
theorem two_le_length (c : Component) : 2 ≤ c.text.length := by
  have hunit : 0 < c.unit.1.length := List.length_pos_iff.mpr (name_of_mem c.unit_mem).1
  have hdigit : 0 < (c.whole ++ c.fractionText).length := by
    rw [List.length_pos_iff, Ne, List.append_eq_nil_iff]
    rintro ⟨hwhole, hfraction⟩
    rcases c.digit with h | h
    · exact h hwhole
    · cases hsome : c.fraction with
      | none => exact h (congrArg (Option.getD · []) hsome)
      | some fraction =>
        rw [fractionText, hsome] at hfraction
        cases hfraction
  rw [text, List.length_append]
  omega

end Component

/-- What stands after a component is no letter. -/
theorem head_render (cs : List Component) : ∀ c ∈ (render cs).head?, ¬c.isAlpha := by
  cases cs with
  | nil => exact fun c hc => nomatch hc
  | cons c cs =>
    obtain ⟨head, hhead, hcases⟩ := c.head_text
    intro other hother
    have heq : other = head := by
      rw [render, List.flatMap_cons, List.head?_append, hhead, Option.some_or] at hother
      exact (Option.some.inj hother).symm
    rw [heq]
    rcases hcases with hdigit | rfl
    · exact fun halpha => not_isDigit_of_isAlpha halpha hdigit
    · decide

/-- Without a point there is no fraction. -/
theorem point_of_ne {t : Text} (h : ∀ after, t ≠ '.' :: after) : point t = ([], t) := by
  rw [point.eq_def]
  split
  next after => exact absurd rfl (h after)
  next => rfl

/-- **A component is split off whole.** -/
theorem split_text (c : Component) {rest : Text} (hrest : ∀ d ∈ rest.head?, ¬d.isAlpha) :
    split (c.text ++ rest) = ⟨c.whole, c.fraction.getD [], c.unit.1, rest⟩ := by
  obtain ⟨hne, halpha, -⟩ := name_of_mem c.unit_mem
  obtain ⟨letter, letters', hunit⟩ := List.exists_cons_of_ne_nil hne
  have hletter : letter.isAlpha := halpha letter (hunit ▸ List.mem_cons_self)
  have hunitDigit : ∀ d ∈ (c.unit.1 ++ rest).head?, ¬d.isDigit := by
    intro d hd
    rw [hunit] at hd
    exact Option.some.inj hd ▸ not_isDigit_of_isAlpha hletter
  have hwhole : digits (c.text ++ rest) = (c.whole, c.fractionText ++ (c.unit.1 ++ rest)) := by
    rw [Component.text, List.append_assoc, List.append_assoc]
    refine digits_append c.whole_digits fun d hd => ?_
    cases hfraction : c.fraction with
    | none =>
      rw [Component.fractionText, hfraction] at hd
      exact hunitDigit d hd
    | some fraction =>
      rw [Component.fractionText, hfraction] at hd
      exact Option.some.inj hd ▸ by decide
  have hpoint : point (c.fractionText ++ (c.unit.1 ++ rest))
      = (c.fraction.getD [], c.unit.1 ++ rest) := by
    cases hfraction : c.fraction with
    | none =>
      rw [Component.fractionText, hfraction, hunit]
      refine point_of_ne fun after heq => ?_
      rw [(List.cons.inj heq).1] at hletter
      cases hletter
    | some fraction =>
      rw [Component.fractionText, hfraction]
      refine digits_append ?_ hunitDigit
      have := c.fraction_digits
      rwa [hfraction] at this
  rw [split]
  simp only [hwhole, hpoint, letters_append halpha hrest]

/-! ## Numbers -/

/-- Digits name a number unless it needs more than 128 bits, however they start. -/
theorem decimal_eq (t : Text) :
    decimal t = if t.value < 2 ^ 128 then some t.value else none := by
  have hfrom : ∀ start < 2 ^ 128, t.foldlM (fun value digit => (checkedMul value 10).bind
      fun value => checkedAdd value (digit.toNat - 48)) start
        = if start * 10 ^ t.length + t.value < 2 ^ 128 then some (start * 10 ^ t.length + t.value)
          else none := by
    induction t with
    | nil =>
      intro start hstart
      show some start = _
      rw [List.length_nil, Nat.pow_zero, Nat.mul_one, show Text.value [] = 0 from rfl, Nat.add_zero,
        if_pos hstart]
    | cons digit t ih =>
      intro start hstart
      have hpow : 0 < 10 ^ t.length := Nat.pow_pos (by decide)
      have hsum : start * 10 ^ (digit :: t).length + Text.value (digit :: t)
          = (start * 10 + (digit.toNat - 48)) * 10 ^ t.length + Text.value t := by
        rw [Text.value_cons, List.length_cons]
        ring
      rw [List.foldlM_cons, hsum]
      -- the digits read so far name no more than all of them
      by_cases hadd : start * 10 + (digit.toNat - 48) < 2 ^ 128
      · have hmul : start * 10 < 2 ^ 128 := by omega
        rw [checkedMul, if_pos hmul, Option.bind_some, checkedAdd, if_pos hadd]
        exact ih _ hadd
      · have hlarge : ¬(start * 10 + (digit.toNat - 48)) * 10 ^ t.length + Text.value t < 2 ^ 128 := by
          have := Nat.le_mul_of_pos_right (start * 10 + (digit.toNat - 48)) hpow
          omega
        rw [if_neg hlarge, checkedMul]
        split_ifs
        · rw [Option.bind_some, checkedAdd, if_neg hadd]
          rfl
        · rfl
  have h := hfrom 0 (by decide)
  rw [Nat.zero_mul, Nat.zero_add] at h
  exact h

namespace Component

variable (c : Component)

/-- A unit is a positive number of nanoseconds, at most an hour. -/
theorem unit_pos : 0 < c.unit.2 ∧ c.unit.2 ≤ 3600000000000 := by
  have hall : ∀ unit ∈ units, 0 < unit.2 ∧ unit.2 ≤ 3600000000000 := by decide
  exact hall c.unit c.unit_mem

/-- At most twenty digits of a fraction are read. -/
theorem length_read_le : c.read.length ≤ 20 := List.length_take_le _ _

/-- What is read of a fraction are digits. -/
theorem read_digits : ∀ d ∈ c.read, d.isDigit := fun d hd =>
  c.fraction_digits d (List.take_subset _ _ hd)

/-- **What is read of a fraction never overflows**, nor does it in nanoseconds. -/
theorem read_mul_lt : c.read.value < 2 ^ 128 ∧ c.read.value * c.unit.2 < 2 ^ 128 := by
  have hvalue : c.read.value < 10 ^ 20 :=
    (Text.value_lt c.read_digits).trans_le (Nat.pow_le_pow_right (by decide) c.length_read_le)
  obtain ⟨-, hunit⟩ := c.unit_pos
  have hmul : c.read.value * c.unit.2 ≤ 10 ^ 20 * 3600000000000 := Nat.mul_le_mul hvalue.le hunit
  constructor
  · exact hvalue.trans (by decide)
  · exact hmul.trans_lt (by decide)

end Component

/-- Reading a component adds its nanoseconds, unless they overflow 128 bits. -/
theorem parseFrom_text (c : Component) {rest : Text} (hrest : ∀ d ∈ rest.head?, ¬d.isAlpha)
    (nanos : ℕ) :
    parseFrom (c.text ++ rest) nanos
      = if c.nanos + nanos < 2 ^ 128 then parseFrom rest (c.nanos + nanos) else .error tooLong := by
  have hne : c.text ++ rest ≠ [] := fun h => by
    have := c.two_le_length
    rw [(List.append_eq_nil_iff.mp h).1] at this
    exact absurd this (by decide)
  have hsome : ¬(c.whole = [] ∧ c.fraction.getD [] = []) := fun h =>
    c.digit.elim (· h.1) (· h.2)
  obtain ⟨hread, hmul⟩ := c.read_mul_lt
  have hsum : ((decimal c.whole).bind fun whole => (checkedMul whole c.unit.2).bind fun whole =>
      (checkedAdd whole (wrappingMul c.read.value c.unit.2 / 10 ^ c.read.length)).bind fun added =>
        checkedAdd added nanos)
      = if c.nanos + nanos < 2 ^ 128 then some (c.nanos + nanos) else none := by
    have hwhole : c.whole.value ≤ c.whole.value * c.unit.2 :=
      Nat.le_mul_of_pos_right _ c.unit_pos.1
    rw [wrappingMul, Nat.mod_eq_of_lt hmul, Component.nanos, decimal_eq]
    generalize c.read.value * c.unit.2 / 10 ^ c.read.length = fraction
    -- the sum is the largest number of the four
    split_ifs with hvalue hall hall
    · rw [Option.bind_some, checkedMul, if_pos (by omega), Option.bind_some, checkedAdd,
        if_pos (by omega), Option.bind_some, checkedAdd, if_pos hall]
    · rw [Option.bind_some, checkedMul]
      split_ifs
      · rw [Option.bind_some, checkedAdd]
        split_ifs
        · rw [Option.bind_some, checkedAdd, if_neg hall]
        · rfl
      · rfl
    · omega
    · rfl
  have hunit := (name_of_mem c.unit_mem).2.2
  rw [parseFrom, if_neg hne, split_text c hrest]
  split
  next hnone =>
    rw [hunit] at hnone
    cases hnone
  next unit hsome' =>
    rw [hunit] at hsome'
    cases hsome'
    simp only [if_neg hsome]
    rw [show (c.fraction.getD []).take fractionDigits = c.read from rfl, decimal_eq c.read,
      if_pos hread]
    simp only [hsum]
    split_ifs <;> rfl

/-- The nanoseconds of components. -/
def total (cs : List Component) : ℕ := (cs.map Component.nanos).sum

/-- Components that are written are read back to their total. -/
theorem parseFrom_render (cs : List Component) {nanos : ℕ} (hnanos : nanos < 2 ^ 128) :
    parseFrom (render cs) nanos
      = if total cs + nanos < 2 ^ 128 then .ok (total cs + nanos) else .error tooLong := by
  induction cs generalizing nanos with
  | nil =>
    rw [show render [] = [] from rfl, show total [] = 0 from rfl, parseFrom, if_pos rfl, Nat.zero_add,
      if_pos hnanos]
  | cons c cs ih =>
    rw [show render (c :: cs) = c.text ++ render cs from rfl, parseFrom_text c (head_render cs)]
    rw [show total (c :: cs) = c.nanos + total cs from rfl, Nat.add_right_comm, Nat.add_comm _ (total cs)]
    split_ifs with hhead hall hall
    · rw [ih hhead, if_pos hall]
    · rw [ih hhead, if_neg hall]
    · omega
    · rfl

/-- **Reading components** gives their sum, or says that it is too long. -/
theorem parse_render {cs : List Component} (hne : cs ≠ []) :
    parse (render cs) = if total cs < 2 ^ 64 then .ok (total cs) else .error tooLong := by
  obtain ⟨c, cs', rfl⟩ := List.exists_cons_of_ne_nil hne
  obtain ⟨head, hhead, hcases⟩ := c.head_text
  have hfirst : (render (c :: cs')).head? = some head := by
    rw [render, List.flatMap_cons, List.head?_append, hhead, Option.some_or]
  have hlength : 2 ≤ (render (c :: cs')).length := by
    rw [render, List.flatMap_cons, List.length_append]
    exact c.two_le_length.trans (Nat.le_add_right _ _)
  have hzero : render (c :: cs') ≠ ['0'] := fun h => by
    rw [h] at hlength
    exact absurd hlength (by decide)
  have hnil : render (c :: cs') ≠ [] := fun h => by
    rw [h] at hlength
    exact absurd hlength (by decide)
  have hminus : (render (c :: cs')).head? ≠ some '-' := by
    rw [hfirst]
    rintro heq
    cases heq
    rcases hcases with h | h <;> revert h <;> decide
  rw [parse, if_neg hzero, if_neg hnil, if_neg hminus, parseFrom_render _ (by decide), Nat.add_zero]
  split_ifs with hword h64 h64
  · exact if_pos h64
  · exact if_neg h64
  · omega
  · rfl

end GraphiteMeter.Proto.Duration
