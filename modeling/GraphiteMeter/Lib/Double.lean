import Mathlib.Algebra.Order.Floor.Ring
import Mathlib.Algebra.Order.Group.MinMax
import Mathlib.Data.Int.Log
import Mathlib.Data.Rat.Floor
import Mathlib.Tactic.Linarith
import Mathlib.Tactic.NormNum
import Mathlib.Tactic.Ring

/-!
# Doubles

A `Double` is a rational with a significand of 53 bits, and an operation on doubles is the exact one
rounded to the nearest, on a tie to the even significand. The exponent has no bounds, so these are the
doubles of a program that neither overflows nor underflows. `Numbers` is what a program that may run on
rationals or on doubles computes with.
-/

namespace Rounding

/-- A multiple of a power of two by fewer than 53 bits. -/
def Representable (q : ℚ) : Prop := ∃ m k : ℤ, |m| < 2 ^ 53 ∧ q = m * 2 ^ k

/-! ## The nearest integer -/

/-- The nearest integer, the even one of two. -/
def nearestEven (q : ℚ) : ℤ :=
  let below := ⌊q⌋
  if q - below < 1 / 2 then below
  else if 1 / 2 < q - below then below + 1
  else if Even below then below else below + 1

/-- No integer is nearer. -/
theorem nearestEven_nearest (q : ℚ) (n : ℤ) : |q - nearestEven q| ≤ |q - n| := by
  have hle : (⌊q⌋ : ℚ) ≤ q := Int.floor_le q
  have hlt : q < ⌊q⌋ + 1 := Int.lt_floor_add_one q
  -- the integers on both sides are as near as any
  have hsides : min (q - ⌊q⌋) (⌊q⌋ + 1 - q) ≤ |q - n| := by
    rcases le_or_gt n ⌊q⌋ with hn | hn
    · have hn : (n : ℚ) ≤ ⌊q⌋ := Int.cast_le.mpr hn
      exact (min_le_left _ _).trans ((sub_le_sub_left hn q).trans (le_abs_self _))
    · have hn : ((⌊q⌋ + 1 : ℤ) : ℚ) ≤ n := Int.cast_le.mpr hn
      rw [Int.cast_add, Int.cast_one] at hn
      rw [abs_sub_comm]
      exact (min_le_right _ _).trans ((sub_le_sub_right hn q).trans (le_abs_self _))
  refine le_trans ?_ hsides
  have hbelow : |q - (⌊q⌋ : ℚ)| = q - ⌊q⌋ := abs_of_nonneg (sub_nonneg.mpr hle)
  have habove : |q - ((⌊q⌋ + 1 : ℤ) : ℚ)| = ⌊q⌋ + 1 - q := by
    rw [Int.cast_add, Int.cast_one, abs_sub_comm]
    exact abs_of_nonneg (sub_nonneg.mpr hlt.le)
  rw [nearestEven]
  split_ifs
  · rw [hbelow, le_min_iff]
    constructor <;> linarith
  · rw [habove, le_min_iff]
    constructor <;> linarith
  · rw [hbelow, le_min_iff]
    constructor <;> linarith
  · rw [habove, le_min_iff]
    constructor <;> linarith

/-- Rounding does not pass an integer. -/
theorem abs_nearestEven_le {q : ℚ} {n : ℕ} (h : |q| ≤ n) : |nearestEven q| ≤ n := by
  obtain ⟨hlo, hhi⟩ := abs_le.mp h
  have hnearest := nearestEven_nearest q
  by_contra hlt
  rw [not_le, lt_abs] at hlt
  rcases hlt with hlt | hlt
  · have hlt : (n : ℚ) + 1 ≤ nearestEven q := by exact_mod_cast hlt
    have hn := hnearest n
    rw [abs_sub_comm, abs_sub_comm q, Int.cast_natCast, abs_of_nonneg (by linarith),
      abs_of_nonneg (by linarith)] at hn
    linarith
  · have hlt : (nearestEven q : ℚ) ≤ -n - 1 := by
      have : nearestEven q ≤ -n - 1 := by omega
      exact_mod_cast this
    have hn := hnearest (-n : ℤ)
    rw [Int.cast_neg, Int.cast_natCast, abs_of_nonneg (by linarith), abs_of_nonneg (by linarith)] at hn
    linarith

/-! ## Rounding -/

/-- A unit in the last place. -/
def ulp (q : ℚ) : ℚ := 2 ^ (Int.log 2 |q| - 52)

/-- The nearest representable rational, on a tie the even one. -/
def nearest (q : ℚ) : ℚ := nearestEven (q / ulp q) * ulp q

variable {q r z : ℚ}

/-- A unit in the last place is positive. -/
theorem ulp_pos (q : ℚ) : 0 < ulp q := zpow_pos two_pos _

/-- It is the 53rd binary digit of the number. -/
theorem ulp_mul (q : ℚ) : ulp q * 2 ^ 52 = 2 ^ Int.log 2 |q| := by
  rw [ulp, ← zpow_natCast, ← zpow_add₀ two_ne_zero]
  congr 1
  push_cast
  ring

/-- A rational has fewer than 53 bits before its last place. -/
theorem abs_lt (q : ℚ) : |q| < 2 ^ 53 * ulp q := by
  have hlt := Int.lt_zpow_succ_log_self (b := 2) (by norm_num) |q|
  rw [Nat.cast_ofNat, zpow_add₀ two_ne_zero, ← ulp_mul, zpow_one] at hlt
  calc |q| < ulp q * 2 ^ 52 * 2 := hlt
    _ = 2 ^ 53 * ulp q := by ring

/-- A number is at least 2^52 of its units. -/
theorem le_abs (h : q ≠ 0) : 2 ^ 52 * ulp q ≤ |q| := by
  have hle := Int.zpow_log_le_self (b := 2) (by norm_num) (abs_pos.mpr h)
  rwa [Nat.cast_ofNat, ← ulp_mul, mul_comm] at hle

/-- Rounding gives a number that 53 digits hold. -/
theorem representable_nearest (q : ℚ) : Representable (nearest q) := by
  have hpos := ulp_pos q
  have hle : |q / ulp q| ≤ ((2 ^ 53 : ℕ) : ℚ) := by
    rw [abs_div, abs_of_pos hpos, div_le_iff₀ hpos]
    exact_mod_cast (abs_lt q).le
  have hbound := abs_nearestEven_le hle
  rcases hbound.lt_or_eq with hlt | heq
  · exact ⟨nearestEven (q / ulp q), _, by exact_mod_cast hlt, rfl⟩
  · -- one bit more: a power of two
    rcases eq_or_eq_neg_of_abs_eq heq with heq | heq
    · refine ⟨1, Int.log 2 |q| + 1, by norm_num, ?_⟩
      rw [nearest, heq, zpow_add₀ two_ne_zero, ← ulp_mul]
      push_cast
      ring
    · refine ⟨-1, Int.log 2 |q| + 1, by norm_num, ?_⟩
      rw [nearest, heq, zpow_add₀ two_ne_zero, ← ulp_mul]
      push_cast
      ring

/-- No multiple of the last place is nearer. -/
theorem nearest_le_mul (q : ℚ) (n : ℤ) : |q - nearest q| ≤ |q - n * ulp q| := by
  have hpos := ulp_pos q
  have hscale (m : ℤ) : |q - m * ulp q| = |q / ulp q - m| * ulp q := by
    rw [← abs_of_pos hpos, ← abs_mul, abs_of_pos hpos, sub_mul, div_mul_cancel₀ _ hpos.ne']
  rw [nearest, hscale, hscale]
  exact mul_le_mul_of_nonneg_right (nearestEven_nearest _ _) hpos.le

/-- **No representable rational is nearer.** One with a smaller last place is below the binade, whose
least element is a multiple of the last place. -/
theorem nearest_le (q : ℚ) (hz : Representable z) : |q - nearest q| ≤ |q - z| := by
  obtain ⟨m, k, hm, rfl⟩ := hz
  rcases le_or_gt (Int.log 2 |q| - 52) k with hk | hk
  · -- a multiple of the last place
    have hmul : (m * 2 ^ k : ℚ) = ((m * 2 ^ (k - (Int.log 2 |q| - 52)).toNat : ℤ) : ℚ) * ulp q := by
      rw [Int.cast_mul, Int.cast_pow, Int.cast_ofNat, mul_assoc, ulp, ← zpow_natCast,
        ← zpow_add₀ two_ne_zero, Int.toNat_of_nonneg (sub_nonneg.mpr hk), sub_add_cancel]
    rw [hmul]
    exact nearest_le_mul q _
  · rcases eq_or_ne q 0 with rfl | hq
    · have hzero : nearest 0 = 0 := by simp [nearest, nearestEven]
      rw [hzero, sub_zero, abs_zero]
      exact abs_nonneg _
    -- below the binade
    have hsmall : |(m * 2 ^ k : ℚ)| ≤ 2 ^ 52 * ulp q := by
      have hpow : (2 : ℚ) ^ k * 2 ≤ ulp q := by
        rw [ulp, ← zpow_add_one₀ two_ne_zero]
        exact zpow_le_zpow_right₀ one_le_two hk
      have hm : (|m| : ℚ) ≤ 2 ^ 53 := by exact_mod_cast hm.le
      have hkpos : (0 : ℚ) < 2 ^ k := zpow_pos two_pos _
      rw [abs_mul, abs_of_pos hkpos]
      calc |(m : ℚ)| * 2 ^ k ≤ 2 ^ 53 * 2 ^ k := mul_le_mul_of_nonneg_right hm hkpos.le
        _ = 2 ^ 52 * (2 ^ k * 2) := by ring
        _ ≤ 2 ^ 52 * ulp q := by gcongr
    have hlarge := le_abs hq
    obtain ⟨hlo, hhi⟩ := abs_le.mp hsmall
    rcases lt_or_gt_of_ne hq with hneg | hpos
    · rw [abs_of_neg hneg] at hlarge
      refine (nearest_le_mul q (-2 ^ 52)).trans ?_
      push_cast
      rw [abs_sub_comm, abs_sub_comm q, abs_of_nonneg (by linarith), abs_of_nonneg (by linarith)]
      linarith
    · rw [abs_of_pos hpos] at hlarge
      refine (nearest_le_mul q (2 ^ 52)).trans ?_
      push_cast
      rw [abs_of_nonneg (by linarith), abs_of_nonneg (by linarith)]
      linarith

/-- Such a number is not rounded. -/
theorem nearest_of_representable (h : Representable q) : nearest q = q := by
  have hzero : |q - nearest q| ≤ 0 := by simpa using nearest_le q h
  exact (sub_eq_zero.mp (abs_nonpos_iff.mp hzero)).symm

/-- What 53 digits hold is what rounding leaves. -/
theorem representable_iff : Representable q ↔ nearest q = q :=
  ⟨nearest_of_representable, fun h => h ▸ representable_nearest q⟩

instance (q : ℚ) : Decidable (Representable q) := decidable_of_iff _ representable_iff.symm

@[simp] theorem nearest_nearest (q : ℚ) : nearest (nearest q) = nearest q :=
  nearest_of_representable (representable_nearest q)

/-- Each is no farther from its own rounding than from the other's. -/
theorem nearest_mono : Monotone nearest := by
  intro q r h
  rcases h.eq_or_lt with rfl | hlt
  · exact le_rfl
  by_contra hgt
  rw [not_le, ← sub_pos] at hgt
  have hq := sq_le_sq.mpr (nearest_le q (representable_nearest r))
  have hr := sq_le_sq.mpr (nearest_le r (representable_nearest q))
  have hq' : 0 ≤ (nearest q - nearest r) * (2 * q - nearest q - nearest r) := by linarith
  have hr' : 0 ≤ (nearest q - nearest r) * (nearest q + nearest r - 2 * r) := by linarith
  have := nonneg_of_mul_nonneg_right hq' hgt
  have := nonneg_of_mul_nonneg_right hr' hgt
  linarith

/-- A power of two only moves the exponent. -/
theorem Representable.mul_two_zpow (h : Representable q) (k : ℤ) : Representable (q * 2 ^ k) := by
  obtain ⟨m, l, hm, rfl⟩ := h
  exact ⟨m, l + k, hm, by rw [zpow_add₀ two_ne_zero, mul_assoc]⟩

/-- Zero needs no digits. -/
theorem representable_zero : Representable 0 := ⟨0, 0, by norm_num, by norm_num⟩

@[simp] theorem nearest_zero : nearest 0 = 0 := nearest_of_representable representable_zero

/-- The last place is a power of two, so the rounding does not pass it. -/
theorem nearest_pos (h : 0 < q) : 0 < nearest q := by
  have hulp : Representable (ulp q) := ⟨1, _, by norm_num, by rw [Int.cast_one, one_mul]; rfl⟩
  have hle : ulp q ≤ q := by
    have hle := le_abs h.ne'
    rw [abs_of_pos h] at hle
    linarith [ulp_pos q]
  calc 0 < ulp q := ulp_pos q
    _ = nearest (ulp q) := (nearest_of_representable hulp).symm
    _ ≤ nearest q := nearest_mono hle

/-- A multiple of a power of two that is no larger than a double's significand needs. -/
theorem representable_of_abs_le {n m k : ℤ} (hm : |m| < 2 ^ 53)
    (h : |(n * 2 ^ k : ℚ)| ≤ |(m * 2 ^ k : ℚ)|) : Representable (n * 2 ^ k) := by
  refine ⟨n, k, ?_, rfl⟩
  have hpos : (0 : ℚ) < 2 ^ k := zpow_pos two_pos _
  rw [abs_mul, abs_mul, mul_le_mul_iff_left₀ (abs_pos.mpr hpos.ne')] at h
  have h : |n| ≤ |m| := by exact_mod_cast h
  exact h.trans_lt hm

/-- **Sterbenz.** The difference of two numbers within a factor of two is exact: it is a multiple of the
smaller last place, and no larger than either. -/
theorem representable_sub (hq : Representable q) (hr : Representable r) (hnonneg : 0 ≤ q)
    (hle : q ≤ 2 * r) (hle' : r ≤ 2 * q) : Representable (q - r) := by
  obtain ⟨m, k, hm, rfl⟩ := hq
  obtain ⟨n, l, hn, rfl⟩ := hr
  have hr0 : (0 : ℚ) ≤ n * 2 ^ l := by linarith
  rcases le_total k l with hkl | hkl
  · have hsub : (m * 2 ^ k - n * 2 ^ l : ℚ) = ((m - n * 2 ^ (l - k).toNat : ℤ) : ℚ) * 2 ^ k := by
      rw [Int.cast_sub, Int.cast_mul, Int.cast_pow, Int.cast_ofNat, sub_mul, mul_assoc, ← zpow_natCast,
        ← zpow_add₀ two_ne_zero, Int.toNat_of_nonneg (sub_nonneg.mpr hkl), sub_add_cancel]
    rw [hsub]
    refine representable_of_abs_le hm ?_
    rw [← hsub, abs_of_nonneg hnonneg, abs_le]
    constructor <;> linarith
  · have hsub : (m * 2 ^ k - n * 2 ^ l : ℚ) = ((m * 2 ^ (k - l).toNat - n : ℤ) : ℚ) * 2 ^ l := by
      rw [Int.cast_sub, Int.cast_mul, Int.cast_pow, Int.cast_ofNat, sub_mul, mul_assoc, ← zpow_natCast,
        ← zpow_add₀ two_ne_zero, Int.toNat_of_nonneg (sub_nonneg.mpr hkl), sub_add_cancel]
    rw [hsub]
    refine representable_of_abs_le hn ?_
    rw [← hsub, abs_of_nonneg hr0, abs_le]
    constructor <;> linarith

/-- What is taken away twice leaves what it left, if and only if the difference is exact. Of a small
rest the difference is more than half, so taking it away again is exact. -/
theorem nearest_sub_nearest_sub_iff (hq : Representable q) (hr : Representable r) (h0 : 0 ≤ r)
    (hle : r ≤ q) : nearest (q - nearest (q - r)) = r ↔ Representable (q - r) := by
  constructor
  · intro h
    rcases le_or_gt q (2 * r) with hhalf | hhalf
    · exact representable_sub hq hr (h0.trans hle) hhalf (by linarith)
    have hrest : Representable (q - nearest (q - r)) := by
      have hhalf' : Representable (q * 2 ^ (-1 : ℤ)) := hq.mul_two_zpow (-1)
      have hlo : q * 2 ^ (-1 : ℤ) ≤ nearest (q - r) := by
        rw [← nearest_of_representable hhalf']
        refine nearest_mono ?_
        norm_num
        linarith
      have hhi : nearest (q - r) ≤ q :=
        (nearest_mono (by linarith)).trans_eq (nearest_of_representable hq)
      norm_num at hlo
      exact representable_sub hq (representable_nearest _) (h0.trans hle) (by linarith) (by linarith)
    rw [nearest_of_representable hrest] at h
    have hexact : nearest (q - r) = q - r := by linarith
    exact representable_iff.mpr hexact
  · intro h
    rw [nearest_of_representable h, sub_sub_cancel, nearest_of_representable hr]

/-! ## Doubles -/

structure Double where
  val : ℚ
  nearest_val : nearest val = val

namespace Double

/-- What a literal denotes. -/
def near (q : ℚ) : Double := ⟨nearest q, nearest_nearest q⟩

variable {x y z : Double}

/-- A double is its value. -/
theorem val_injective : Function.Injective val := by
  rintro ⟨q, hq⟩ ⟨r, hr⟩ h
  obtain rfl : q = r := h
  rfl

/-- Its value has 53 digits. -/
theorem representable_val (x : Double) : Representable x.val := representable_iff.mpr x.nearest_val

instance : LinearOrder Double := LinearOrder.lift' val val_injective
instance : Zero Double := ⟨⟨0, nearest_zero⟩⟩
instance : Add Double := ⟨fun x y => near (x.val + y.val)⟩
instance : Sub Double := ⟨fun x y => near (x.val - y.val)⟩
instance : Mul Double := ⟨fun x y => near (x.val * y.val)⟩
instance : Div Double := ⟨fun x y => near (x.val / y.val)⟩

@[simp] theorem val_zero : (0 : Double).val = 0 := rfl

theorem val_add (x y : Double) : (x + y).val = nearest (x.val + y.val) := rfl

theorem val_sub (x y : Double) : (x - y).val = nearest (x.val - y.val) := rfl

theorem le_iff : x ≤ y ↔ x.val ≤ y.val := Iff.rfl

/-- Rounding keeps the order. -/
theorem near_mono : Monotone near := fun _ _ h => nearest_mono h

/-- A positive number rounds to a positive double. -/
theorem near_pos {q : ℚ} (h : 0 < q) : 0 < near q := nearest_pos h

/-- One that is not negative rounds to one that is not. -/
theorem near_nonneg {q : ℚ} (h : 0 ≤ q) : 0 ≤ near q := by
  have hle : (nearest 0 : ℚ) ≤ nearest q := nearest_mono h
  rwa [nearest_zero] at hle

@[simp] theorem near_val (x : Double) : near x.val = x := val_injective x.nearest_val

@[simp] protected theorem sub_zero (x : Double) : x - 0 = x := by
  refine val_injective ?_
  rw [val_sub, val_zero, sub_zero, x.nearest_val]

@[simp] protected theorem sub_self (x : Double) : x - x = 0 := by
  refine val_injective ?_
  rw [val_sub, sub_self, nearest_zero, val_zero]

/-- Adding what is not negative does not go below. -/
theorem le_add (x : Double) (h : 0 ≤ y) : x ≤ x + y := by
  have hle : x.val ≤ x.val + y.val := le_add_of_nonneg_right h
  exact (x.nearest_val.symm.trans_le (nearest_mono hle) : x.val ≤ _)

/-- Differences keep the order. -/
protected theorem sub_le_sub_right (h : x ≤ y) (z : Double) : x - z ≤ y - z := by
  have hle : x.val - z.val ≤ y.val - z.val := sub_le_sub_right (le_iff.mp h) z.val
  exact near_mono hle

/-- The difference of two doubles is one. -/
def Exact (x y : Double) : Prop := Representable (x.val - y.val)

instance (x y : Double) : Decidable (Exact x y) := inferInstanceAs (Decidable (Representable _))

/-- What is taken away twice leaves what it left, if and only if the difference is a double. -/
theorem sub_sub_cancel_iff (h0 : 0 ≤ y) (h : y ≤ x) : x - (x - y) = y ↔ Exact x y := by
  rw [← val_injective.eq_iff, val_sub, val_sub]
  exact nearest_sub_nearest_sub_iff x.representable_val y.representable_val h0 h

end Double

/-! ## Numbers, exact or rounded -/

/-- What a program computes with: `near` is what a literal denotes. No operation on positive numbers
gives zero. -/
class Numbers (K : Type) extends LinearOrder K, Add K, Sub K, Mul K, Div K where
  zero : K
  near : ℚ → K
  floor : K → ℤ
  ceil : K → ℤ
  near_pos : ∀ {q : ℚ}, 0 < q → zero < near q
  mul_pos : ∀ {x y : K}, zero < x → zero < y → zero < x * y
  div_pos : ∀ {x y : K}, zero < x → zero < y → zero < x / y
  ceil_pos : ∀ {x : K}, zero < x → 0 < ceil x

/-- A zero that the type has by itself comes before this one. -/
instance (priority := low) (K : Type) [Numbers K] : Zero K := ⟨Numbers.zero⟩

instance : Numbers ℚ where
  zero := 0
  near := id
  floor := Int.floor
  ceil := Int.ceil
  near_pos h := h
  mul_pos := mul_pos
  div_pos := div_pos
  ceil_pos := Int.ceil_pos.mpr

instance : Numbers Double where
  zero := 0
  near := .near
  floor x := ⌊x.val⌋
  ceil x := ⌈x.val⌉
  near_pos := Double.near_pos
  mul_pos hx hy := Double.near_pos (mul_pos hx hy)
  div_pos hx hy := Double.near_pos (div_pos hx hy)
  ceil_pos h := Int.ceil_pos.mpr h

namespace Numbers

@[simp] theorem near_rat (q : ℚ) : near q = q := rfl

@[simp] theorem floor_rat (q : ℚ) : floor q = ⌊q⌋ := rfl

@[simp] theorem ceil_rat (q : ℚ) : ceil q = ⌈q⌉ := rfl

end Numbers

end Rounding
