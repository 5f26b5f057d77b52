import Mathlib.Algebra.Order.Floor.Semifield
import Mathlib.Algebra.Order.Field.Rat
import Mathlib.Data.Rat.Floor
import Mathlib.Tactic.FieldSimp
import GraphiteMeter.Proto.Duration

/-!
# Durations are read back, and how exactly

Reference: `rust/proto/src/duration.rs`.

What `format` writes are components with at most nine fraction digits, which `parse` reads back. Of
longer fractions it reads twenty digits. The rest is below a nanosecond, but in minutes and hours it
can carry into one: each component where it does is read a nanosecond short.
-/

namespace GraphiteMeter.Proto.Duration

/-! ## What a text of digits is worth -/

/-- The value of two parts of a number. -/
theorem value_append (s t : Text) :
    Text.value (s ++ t) = Text.value s * 10 ^ t.length + Text.value t := by
  induction s with
  | nil => rw [List.nil_append, show Text.value [] = 0 from rfl, Nat.zero_mul, Nat.zero_add]
  | cons c s ih =>
    rw [List.cons_append, Text.value_cons, Text.value_cons, ih, List.length_append, Nat.pow_add]
    ring

/-- Zeros have the value zero. -/
theorem value_zeros (n : ℕ) : Text.value (List.replicate n '0') = 0 := by
  induction n with
  | zero => rfl
  | succ n ih => rw [List.replicate_succ, Text.value_cons, ih]; rfl

/-- Leading zeros leave the value. -/
theorem value_leftpad (n : ℕ) (t : Text) : Text.value (t.leftpad n '0') = t.value := by
  rw [List.leftpad, value_append, value_zeros, Nat.zero_mul, Nat.zero_add]

/-- Trimmed zeros at the end are a power of ten. -/
theorem value_trimmed (t : Text) :
    Text.value t = Text.value (t.rdropWhile (· = '0'))
      * 10 ^ (t.length - (t.rdropWhile (· = '0')).length) := by
  have hzeros : t.rtakeWhile (· = '0') = List.replicate (t.rtakeWhile (· = '0')).length '0' :=
    List.eq_replicate_of_mem fun c hc => by simpa using List.mem_rtakeWhile_imp hc
  have hsplit : t.rdropWhile (· = '0') ++ t.rtakeWhile (· = '0') = t :=
    List.rdropWhile_append_rtakeWhile ..
  have hlength : t.length - (t.rdropWhile (· = '0')).length = (t.rtakeWhile (· = '0')).length := by
    have := congrArg List.length hsplit
    rw [List.length_append] at this
    omega
  rw [hlength]
  conv_lhs => rw [← hsplit, value_append, hzeros, value_zeros, Nat.add_zero]
  rw [List.length_replicate]

/-! ## Round trips -/

/-- Digits and a unit. -/
def Component.ofNat (n : ℕ) (unit : Text × ℕ) (h : unit ∈ units) : Component where
  whole := Nat.toDigits 10 n
  fraction := none
  unit
  whole_digits := fun _ => Text.isDigit_of_mem_toDigits
  fraction_digits := fun _ h => absurd h List.not_mem_nil
  digit := .inl Nat.toDigits_ne_nil
  unit_mem := h

/-- A whole component is written with its digits and unit. -/
theorem Component.ofNat_text (n : ℕ) {unit : Text × ℕ} (h : unit ∈ units) :
    (Component.ofNat n unit h).text = Nat.toDigits 10 n ++ unit.1 :=
  congrArg (· ++ unit.1) (List.append_nil _)

/-- It stands for so many of its units. -/
theorem Component.ofNat_nanos (n : ℕ) {unit : Text × ℕ} (h : unit ∈ units) :
    (Component.ofNat n unit h).nanos = n * unit.2 := by
  show Text.value (Nat.toDigits 10 n) * unit.2 + 0 * unit.2 / 1 = _
  rw [Text.value_toDigits, Nat.zero_mul, Nat.zero_div, Nat.add_zero]

/-- A number's digits, filled up with zeros. -/
def padded (n places : ℕ) : Text := (Nat.toDigits 10 n).leftpad places '0'

/-- Padding leaves the value. -/
theorem value_padded (n places : ℕ) : Text.value (padded n places) = n := by
  rw [padded, value_leftpad, Text.value_toDigits]

/-- A padded number has digits only. -/
theorem digits_padded {n places : ℕ} : ∀ c ∈ padded n places, c.isDigit := by
  intro c hc
  rcases List.mem_append.mp hc with hc | hc
  · rw [List.eq_of_mem_replicate hc]
    decide
  · exact Text.isDigit_of_mem_toDigits hc

/-- It has as many places as asked for. -/
theorem length_padded {n places : ℕ} (hne : n ≠ 0) (h : n < 10 ^ places) :
    (padded n places).length = places := by
  have hpos : 0 < places := by
    rcases Nat.eq_zero_or_pos places with rfl | hpos
    · omega
    · exact hpos
  rw [padded, List.length_leftpad]
  exact max_eq_left ((Nat.length_toDigits_le_iff (by decide) hpos).mpr h)

/-- **What `fixed` writes** before its unit is a component of the very value. -/
theorem fixed_component (value places : ℕ) {name : Text} {scale : ℕ} (hscale : scale = 10 ^ places)
    (hplaces : places ≤ 20) (hunit : (name, scale) ∈ units) :
    ∃ c : Component, c.text = fixed value scale ++ name ∧ c.nanos = value := by
  subst hscale
  by_cases hfraction : value % 10 ^ places = 0
  · refine ⟨.ofNat (value / 10 ^ places) _ hunit, ?_, ?_⟩
    · rw [Component.ofNat_text, fixed]
      simp only [if_pos hfraction]
    · rw [Component.ofNat_nanos]
      exact Nat.div_mul_cancel (Nat.dvd_of_mod_eq_zero hfraction)
  · have hlt : value % 10 ^ places < 10 ^ places := Nat.mod_lt _ (Nat.pow_pos (by decide))
    set fraction := padded (value % 10 ^ places) places with hpadded
    set trimmed := fraction.rdropWhile (· = '0') with htrimmed
    have hstarts : trimmed <+: fraction := List.rdropWhile_prefix _ _
    have hlength : trimmed.length ≤ places := length_padded hfraction hlt ▸ hstarts.length_le
    have hvalue : Text.value trimmed * 10 ^ (places - trimmed.length) = value % 10 ^ places := by
      have h := value_trimmed fraction
      rw [hpadded, value_padded, ← hpadded, length_padded hfraction hlt] at h
      exact h.symm
    refine ⟨⟨Nat.toDigits 10 (value / 10 ^ places), some trimmed, _,
      fun _ => Text.isDigit_of_mem_toDigits, fun c hc => digits_padded c (hstarts.subset hc),
      .inl Nat.toDigits_ne_nil, hunit⟩, ?_, ?_⟩
    · rw [fixed]
      simp only [if_neg hfraction, Nat.log_pow (by decide : 1 < 10)]
      rfl
    · rw [Component.nanos, Component.read]
      simp only [Option.getD_some, Text.value_toDigits]
      rw [List.take_of_length_le (i := fractionDigits) (hlength.trans hplaces)]
      -- the digits left out were zeros
      have hscale : 10 ^ places = 10 ^ (places - trimmed.length) * 10 ^ trimmed.length := by
        rw [← Nat.pow_add, Nat.sub_add_cancel hlength]
      have hread : Text.value trimmed * 10 ^ places / 10 ^ trimmed.length = value % 10 ^ places := by
        rw [← hvalue]
        conv_lhs => rw [hscale, ← Nat.mul_assoc]
        exact Nat.mul_div_cancel _ (Nat.pow_pos (by decide))
      rw [hread]
      exact Nat.div_add_mod' value (10 ^ places)

/-- The units and their nanoseconds. -/
theorem mem_units : ("ns".toList, 1) ∈ units ∧ ("us".toList, 1000) ∈ units ∧
    ("ms".toList, 1000000) ∈ units ∧ ("s".toList, 1000000000) ∈ units ∧
    ("m".toList, 60000000000) ∈ units ∧ ("h".toList, 3600000000000) ∈ units := by decide

/-- Components are written one after another. -/
theorem render_append (cs cs' : List Component) : render (cs ++ cs') = render cs ++ render cs' :=
  List.flatMap_append

/-- Their nanoseconds add up. -/
theorem total_append (cs cs' : List Component) : total (cs ++ cs') = total cs + total cs' := by
  rw [total, List.map_append, List.sum_append, total, total]

/-- A number above zero as a component, and nothing for zero. -/
theorem optional_component {n amount : ℕ} {text : Text}
    (h : ∃ c : Component, c.text = text ∧ c.nanos = amount) (hzero : n = 0 → amount = 0) :
    ∃ cs, render cs = (if 0 < n then text else []) ∧ total cs = amount ∧ (0 < n → cs ≠ []) := by
  by_cases hn : 0 < n
  · obtain ⟨c, htext, hnanos⟩ := h
    refine ⟨[c], ?_, ?_, fun _ => List.cons_ne_nil _ _⟩
    · rw [if_pos hn, ← htext]
      exact List.append_nil _
    · rw [← hnanos]
      exact Nat.add_zero _
  · refine ⟨[], (if_neg hn).symm, ?_, fun h => absurd h hn⟩
    exact (hzero (Nat.eq_zero_of_not_pos hn)).symm

/-- A component is left out where it is zero. -/
theorem optional_whole (n : ℕ) {unit : Text × ℕ} (h : unit ∈ units) :
    ∃ cs, render cs = (if 0 < n then Nat.toDigits 10 n ++ unit.1 else []) ∧
      total cs = n * unit.2 ∧ (0 < n → cs ≠ []) :=
  optional_component ⟨.ofNat n _ h, Component.ofNat_text n h, Component.ofNat_nanos n h⟩
    fun hzero => by rw [hzero, Nat.zero_mul]

/-- From a second on, hours, minutes and seconds are components. -/
theorem format_render_long {nanos : ℕ} (h : 1000000000 ≤ nanos) :
    ∃ cs, cs ≠ [] ∧ format nanos = render cs ∧ total cs = nanos := by
  obtain ⟨-, -, -, hs, hm, hh⟩ := mem_units
  obtain ⟨hours, hhours, htotal, hne⟩ := optional_whole (nanos / 3600000000000) hh
  obtain ⟨minutes, hminutes, htotal', hne'⟩ := optional_whole (nanos / 60000000000 % 60) hm
  obtain ⟨seconds, hseconds, htotal'', hne''⟩ := optional_component
    (n := nanos % 60000000000) (fixed_component (nanos % 60000000000) 9 (by norm_num)
      (by decide) hs) id
  refine ⟨hours ++ minutes ++ seconds, ?_, ?_, ?_⟩
  · rw [Ne, List.append_eq_nil_iff, List.append_eq_nil_iff]
    rintro ⟨⟨hnil, hnil'⟩, hnil''⟩
    have hzero : ¬0 < nanos / 3600000000000 := fun hpos => hne hpos hnil
    have hzero' : ¬0 < nanos / 60000000000 % 60 := fun hpos => hne' hpos hnil'
    have hzero'' : ¬0 < nanos % 60000000000 := fun hpos => hne'' hpos hnil''
    omega
  · rw [format, if_neg (by omega), if_neg (by omega), if_neg (by omega), if_neg (by omega),
      render_append, render_append, hhours, hminutes, hseconds]
  · rw [total_append, total_append, htotal, htotal', htotal'']
    omega

/-- **What `format` writes** are components of the duration. -/
theorem format_render (nanos : ℕ) :
    ∃ cs, cs ≠ [] ∧ format nanos = render cs ∧ total cs = nanos := by
  by_cases hlong : 1000000000 ≤ nanos
  · exact format_render_long hlong
  · obtain ⟨hns, hus, hms, hs, -⟩ := mem_units
    have hone : ∀ {text}, (∃ c : Component, c.text = text ∧ c.nanos = nanos) →
        ∃ cs, cs ≠ [] ∧ text = render cs ∧ total cs = nanos := by
      rintro text ⟨c, rfl, hnanos⟩
      exact ⟨[c], List.cons_ne_nil _ _, (List.append_nil _).symm, hnanos⟩
    rw [format]
    by_cases hzero : nanos = 0
    · rw [if_pos hzero]
      refine hone ⟨.ofNat 0 _ hs, (Component.ofNat_text 0 hs).trans (by decide), ?_⟩
      rw [Component.ofNat_nanos, Nat.zero_mul, hzero]
    rw [if_neg hzero]
    by_cases hmicro : nanos < 1000
    · rw [if_pos hmicro]
      exact hone ⟨.ofNat nanos _ hns, Component.ofNat_text nanos hns,
        (Component.ofNat_nanos nanos hns).trans (Nat.mul_one _)⟩
    rw [if_neg hmicro]
    by_cases hmilli : nanos < 1000000
    · rw [if_pos hmilli]
      exact hone (fixed_component nanos 3 (by norm_num) (by decide) hus)
    · rw [if_neg hmilli, if_pos (not_le.mp hlong)]
      exact hone (fixed_component nanos 6 (by norm_num) (by decide) hms)

/-- **Durations are read back** as they were written. -/
theorem parse_format {nanos : ℕ} (h : nanos < 2 ^ 64) : parse (format nanos) = .ok nanos := by
  obtain ⟨cs, hne, hformat, htotal⟩ := format_render nanos
  rw [hformat, parse_render hne, htotal, if_pos h]

/-- Ninety seconds are written and read. -/
theorem parse_format_ninety : 90 * 10 ^ 9 < 2 ^ 64 ∧ format (90 * 10 ^ 9) = "1m30s".toList ∧
    parse (format (90 * 10 ^ 9)) = .ok (90 * 10 ^ 9) :=
  ⟨by decide, by decide, parse_format (by decide)⟩

/-! ## What a text is worth -/

namespace Component

/-- The component's number. -/
def amount (c : Component) : ℚ :=
  c.whole.value + (Text.value (c.fraction.getD [])) / 10 ^ (c.fraction.getD []).length

/-- The whole nanoseconds the component is worth. -/
def exact (c : Component) : ℕ := ⌊c.amount * c.unit.2⌋₊

/-- The fraction digits past the twentieth carry into a nanosecond. -/
def Carries (c : Component) : Prop :=
  10 ^ 20 ≤ c.read.value * c.unit.2 % 10 ^ 20
    + Text.value ((c.fraction.getD []).drop fractionDigits) * c.unit.2
      / 10 ^ ((c.fraction.getD []).drop fractionDigits).length

instance (c : Component) : Decidable c.Carries := inferInstanceAs (Decidable (_ ≤ _))

/-- A component's exact nanoseconds are those of its two parts. -/
theorem exact_eq (c : Component) : c.exact = c.whole.value * c.unit.2
    + Text.value (c.fraction.getD []) * c.unit.2 / 10 ^ (c.fraction.getD []).length := by
  have hpow : 0 < 10 ^ (c.fraction.getD []).length := Nat.pow_pos (by decide)
  have hne : ((10 ^ (c.fraction.getD []).length : ℕ) : ℚ) ≠ 0 := by positivity
  have hratio : c.amount * c.unit.2
      = ((c.whole.value * c.unit.2 * 10 ^ (c.fraction.getD []).length
        + Text.value (c.fraction.getD []) * c.unit.2 : ℕ) : ℚ)
        / (10 ^ (c.fraction.getD []).length : ℕ) := by
    rw [amount, eq_div_iff hne]
    push_cast at hne ⊢
    field_simp
  rw [exact, hratio, Nat.floor_div_eq_div, Nat.mul_comm _ (10 ^ _), Nat.mul_add_div hpow]

/-- The digits not read. -/
def rest (c : Component) : Text := (c.fraction.getD []).drop fractionDigits

/-- A component carries where the digits that are cut make up a nanosecond. -/
theorem carries_iff (c : Component) : c.Carries ↔
    10 ^ 20 ≤ c.read.value * c.unit.2 % 10 ^ 20 + c.rest.value * c.unit.2 / 10 ^ c.rest.length :=
  Iff.rfl

/-- The digits that are read and those that are cut are all. -/
theorem read_append_rest (c : Component) : c.read ++ c.rest = c.fraction.getD [] :=
  List.take_append_drop _ _

/-- What is not read is less than the unit. -/
theorem rest_lt_unit (c : Component) : c.rest.value * c.unit.2 / 10 ^ c.rest.length < c.unit.2 := by
  have hdigits : ∀ d ∈ c.rest, d.isDigit := fun d hd => c.fraction_digits d (List.drop_subset _ _ hd)
  rw [Nat.div_lt_iff_lt_mul (Nat.pow_pos (by decide)), Nat.mul_comm]
  exact Nat.mul_lt_mul_of_pos_left (Text.value_lt hdigits) c.unit_pos.1

/-- Twenty digits are read whole. -/
theorem not_carries_of_short {c : Component} (h : (c.fraction.getD []).length ≤ 20) :
    c.rest = [] ∧ ¬c.Carries := by
  have hnil : c.rest = [] := List.drop_eq_nil_of_le h
  have hlt : c.read.value * c.unit.2 % 10 ^ 20 < 10 ^ 20 := Nat.mod_lt _ (by decide)
  refine ⟨hnil, ?_⟩
  rw [carries_iff, hnil, show Text.value [] = 0 from rfl, Nat.zero_mul, Nat.zero_div]
  omega

/-- **A component is read exactly**, or a nanosecond short where the digits not read carry. -/
theorem exact_eq_add (c : Component) : c.exact = c.nanos + if c.Carries then 1 else 0 := by
  rw [exact_eq, nanos]
  have hsplit := c.read_append_rest
  by_cases hlong : (c.fraction.getD []).length ≤ 20
  · obtain ⟨hnil, hcarries⟩ := not_carries_of_short hlong
    rw [hnil, List.append_nil] at hsplit
    rw [if_neg hcarries, hsplit, Nat.add_zero]
  · have hread : c.read.length = 20 := List.length_take_of_le (not_le.mp hlong).le
    have hpow : 0 < 10 ^ c.rest.length := Nat.pow_pos (by decide)
    have hwhole : Text.value (c.fraction.getD []) * c.unit.2 / 10 ^ (c.fraction.getD []).length
        = (c.read.value * c.unit.2 + c.rest.value * c.unit.2 / 10 ^ c.rest.length) / 10 ^ 20 := by
      rw [← hsplit, value_append, List.length_append, hread, Nat.pow_add, Nat.mul_comm (10 ^ 20),
        ← Nat.div_div_eq_div_mul]
      congr 1
      rw [Nat.add_mul, Nat.mul_right_comm, Nat.mul_comm _ (10 ^ c.rest.length),
        Nat.mul_add_div hpow]
    have hunit := c.unit_pos.2
    have hrest := c.rest_lt_unit
    have hcarries := c.carries_iff
    rw [hwhole, hread]
    generalize c.rest.value * c.unit.2 / 10 ^ c.rest.length = rest at *
    split_ifs with h <;> rw [hcarries] at h <;> omega

/-- Only long fractions of minutes and hours carry. -/
theorem of_carries {c : Component} (h : c.Carries) :
    20 < (c.fraction.getD []).length ∧ 10 ^ 9 < c.unit.2 := by
  refine ⟨not_le.mp fun hshort => (not_carries_of_short hshort).2 h, not_le.mp fun hunit => ?_⟩
  have hdvd : ∀ unit ∈ units, unit.2 ≤ 10 ^ 9 → unit.2 ∣ 10 ^ 20 := by decide
  obtain ⟨k, hk⟩ := hdvd c.unit c.unit_mem hunit
  -- the nanoseconds read are whole units short of the next
  have hread : c.read.value * c.unit.2 % 10 ^ 20 = c.read.value % k * c.unit.2 := by
    rw [hk, Nat.mul_comm c.unit.2 k, Nat.mul_mod_mul_right]
  have hkpos : 0 < k := Nat.pos_of_ne_zero fun hzero => by
    rw [hzero, Nat.mul_zero] at hk
    exact absurd hk (by decide)
  have hle : (c.read.value % k + 1) * c.unit.2 ≤ 10 ^ 20 := by
    rw [hk, Nat.mul_comm c.unit.2 k]
    exact Nat.mul_le_mul_right _ (Nat.mod_lt _ hkpos)
  have hrest := c.rest_lt_unit
  rw [carries_iff, hread] at h
  rw [Nat.add_mul, Nat.one_mul] at hle
  omega

end Component

/-- The whole nanoseconds components are worth, each by itself. -/
def exactTotal (cs : List Component) : ℕ := (cs.map Component.exact).sum

/-- A sum is short by a nanosecond for each component that carries. -/
theorem exactTotal_eq (cs : List Component) :
    exactTotal cs = total cs + cs.countP fun c => c.Carries := by
  induction cs with
  | nil => rfl
  | cons c cs ih =>
    rw [show exactTotal (c :: cs) = c.exact + exactTotal cs from rfl, ih, c.exact_eq_add,
      show total (c :: cs) = c.nanos + total cs from rfl, List.countP_cons]
    simp only [decide_eq_true_eq]
    omega

/-! ## What is accepted -/

/-- What is split off where a unit and a digit stand is a component. -/
theorem exists_component {t : Text} {nanos : ℕ} (hunit : unitNanos (split t).unit = some nanos)
    (hdigit : ¬((split t).whole = [] ∧ (split t).fraction = [])) :
    ∃ c : Component, t = c.text ++ (split t).after := by
  have hwhole : t = (split t).whole ++ (digits t).2 := (List.takeWhile_append_dropWhile ..).symm
  have hname : (point (digits t).2).2 = (split t).unit ++ (split t).after :=
    (List.takeWhile_append_dropWhile ..).symm
  have hdigits : ∀ c ∈ (split t).whole, c.isDigit := fun c hc => List.mem_takeWhile_imp hc
  have hunit' := mem_of_unitNanos hunit
  by_cases hpoint : ∃ after, (digits t).2 = '.' :: after
  · obtain ⟨after, hafter⟩ := hpoint
    have hfraction : point (digits t).2 = digits after := by rw [hafter]; rfl
    refine ⟨⟨(split t).whole, some (split t).fraction, _, hdigits, fun c hc => ?_, ?_, hunit'⟩, ?_⟩
    · have hmem : c ∈ (digits after).1 := hfraction ▸ hc
      exact List.mem_takeWhile_imp hmem
    · rw [Option.getD_some]
      exact not_and_or.mp hdigit
    · have hsplit : after = (split t).fraction ++ (point (digits t).2).2 := by
        rw [show (split t).fraction = (point (digits t).2).1 from rfl, hfraction]
        exact (List.takeWhile_append_dropWhile ..).symm
      conv_lhs => rw [hwhole, hafter, hsplit, hname]
      simp [Component.text, Component.fractionText]
  · have hfraction : point (digits t).2 = ([], (digits t).2) :=
      point_of_ne fun after heq => hpoint ⟨after, heq⟩
    refine ⟨⟨(split t).whole, none, _, hdigits, fun c hc => absurd hc List.not_mem_nil, .inl ?_,
      hunit'⟩, ?_⟩
    · exact fun h => hdigit ⟨h, congrArg Prod.fst hfraction⟩
    · conv_lhs => rw [hwhole]
      rw [hfraction] at hname
      conv_lhs => rw [show (digits t).2 = (split t).unit ++ (split t).after from hname]
      simp [Component.text, Component.fractionText]

/-- What is parsed is a text of components. -/
theorem render_of_parseFrom {t : Text} {start nanos : ℕ} (h : parseFrom t start = .ok nanos) :
    ∃ cs, t = render cs := by
  induction hlen : t.length using Nat.strong_induction_on generalizing t start with
  | _ length ih =>
    by_cases hnil : t = []
    · exact ⟨[], hnil⟩
    · rw [parseFrom, if_neg hnil] at h
      split at h
      next => cases h
      next unit hunit =>
        split_ifs at h with hdigit
        obtain ⟨c, hc⟩ := exists_component hunit hdigit
        simp only at h
        split at h
        next => cases h
        next =>
          split at h
          next => cases h
          next nanos' _ =>
            obtain ⟨cs, hcs⟩ := ih _ (hlen ▸ length_after_lt hunit) h rfl
            exact ⟨c :: cs, hc.trans (by rw [hcs]; rfl)⟩

/-- A text that is read is `0` or components. -/
theorem render_of_parse {t : Text} {nanos : ℕ} (h : parse t = .ok nanos) :
    (t = ['0'] ∧ nanos = 0) ∨ ∃ cs, cs ≠ [] ∧ t = render cs := by
  rw [parse] at h
  split_ifs at h with hzero hnil hminus
  · exact .inl ⟨hzero, by cases h; rfl⟩
  · cases hfrom : parseFrom t 0 with
    | error _ =>
      rw [hfrom] at h
      cases h
    | ok sum =>
      obtain ⟨cs, rfl⟩ := render_of_parseFrom hfrom
      exact .inr ⟨cs, fun hcs => hnil (by rw [hcs]; rfl), rfl⟩

/-- A nanosecond in minutes, rounded up at the twenty-first fraction digit. -/
def shortMinute : Component where
  whole := ['0']
  fraction := some "000000000016666666667".toList
  unit := ("m".toList, 60000000000)
  whole_digits := List.all_eq_true.mp (by decide)
  fraction_digits := List.all_eq_true.mp (by decide)
  digit := .inl (by decide)
  unit_mem := by decide

/-- The short minute is read as nothing. -/
theorem parse_shortMinute : parse (render [shortMinute]) = .ok 0 := by
  have htotal : total [shortMinute] = 0 := by decide
  rw [parse_render (List.cons_ne_nil _ _), htotal, if_pos (by decide)]

/-- **Where a duration is not exact**: this one is a nanosecond and is read as none. -/
theorem parse_short :
    parse "0.000000000016666666667m".toList = .ok 0 ∧
      "0.000000000016666666667m".toList = render [shortMinute] ∧ exactTotal [shortMinute] = 1 := by
  have hrender : "0.000000000016666666667m".toList = render [shortMinute] := by decide
  refine ⟨hrender ▸ parse_shortMinute, hrender, ?_⟩
  rw [exactTotal_eq]
  decide

/-- **How exactly durations are read.** A text that is accepted is `0` or components. Their sum is then
exact if and only if in none of them the fraction digits past the twentieth carry into a nanosecond,
which takes more than twenty of them and minutes or hours; each that does is a nanosecond missing. No
product of a fraction overflows, and components are too long only when their sum does not fit. -/
theorem parse_exact_iff (text : Text) :
    (∀ nanos, parse text = .ok nanos →
      (text = ['0'] ∧ nanos = 0) ∨ ∃ cs, cs ≠ [] ∧ text = render cs) ∧
    ∀ cs, cs ≠ [] → text = render cs →
      (∀ nanos, parse text = .ok nanos →
        (nanos = exactTotal cs ↔ ∀ c ∈ cs, ¬c.Carries) ∧
          exactTotal cs = nanos + cs.countP fun c => c.Carries) ∧
      (∀ c ∈ cs, c.Carries → 20 < (c.fraction.getD []).length ∧ 10 ^ 9 < c.unit.2) ∧
      (∀ c ∈ cs, wrappingMul c.read.value c.unit.2 = c.read.value * c.unit.2) ∧
      (parse text = .error tooLong → 2 ^ 64 - 1 < exactTotal cs) := by
  refine ⟨fun nanos h => render_of_parse h, ?_⟩
  rintro cs hne rfl
  rw [parse_render hne]
  have htotal := exactTotal_eq cs
  refine ⟨fun nanos h => ?_, fun c _ => Component.of_carries,
    fun c _ => Nat.mod_eq_of_lt c.read_mul_lt.2, fun h => ?_⟩
  · split_ifs at h with hlt
    cases h
    refine ⟨?_, htotal⟩
    have hnone : cs.countP (fun c => c.Carries) = 0 ↔ ∀ c ∈ cs, ¬c.Carries := by
      rw [List.countP_eq_zero]
      simp only [decide_eq_true_eq]
    rw [← hnone]
    omega
  · split_ifs at h with hlt
    omega

/-- It is read a nanosecond short, and carries. -/
theorem parse_exact_iff_short :
    parse (render [shortMinute]) = .ok 0 ∧
      (0 = exactTotal [shortMinute] ↔ ∀ c ∈ [shortMinute], ¬c.Carries) ∧ shortMinute.Carries :=
  ⟨parse_shortMinute,
    (((parse_exact_iff (render [shortMinute])).2 _ (List.cons_ne_nil _ _) rfl).1 0
      parse_shortMinute).1, by decide⟩

end GraphiteMeter.Proto.Duration
