import Mathlib.Data.List.Basic
import Mathlib.Data.Nat.Bits
import Mathlib.Data.Nat.Bitwise
import Mathlib.Tactic.Common

/-!
# Bit strings, most significant bit first

`msb n v` is the low `n` bits of `v` as a list. Bit streams are read and written in this order, so a
codeword appended to an accumulator is a list appended to a list (`msb_shiftLeft_or`), and taking the
top byte of an accumulator is splitting a list (`msb_add`).
-/

namespace Bits

/-- The low `n` bits of `v`, most significant first. -/
def msb : ℕ → ℕ → List Bool
  | 0, _ => []
  | n + 1, v => v.testBit n :: msb n v

@[simp] theorem msb_zero (v : ℕ) : msb 0 v = [] := rfl

theorem msb_succ (n v : ℕ) : msb (n + 1) v = v.testBit n :: msb n v := rfl

@[simp] theorem length_msb (n v : ℕ) : (msb n v).length = n := by
  induction n with
  | zero => rfl
  | succ n ih => rw [msb_succ, List.length_cons, ih]

/-- Only the low `n` bits matter. -/
theorem msb_congr {n v w : ℕ} (h : ∀ i < n, v.testBit i = w.testBit i) : msb n v = msb n w := by
  induction n with
  | zero => rfl
  | succ n ih =>
    rw [msb_succ, msb_succ, h n (Nat.lt_succ_self n), ih fun i hi => h i (Nat.lt_succ_of_lt hi)]

/-- The low bits do not see a remainder by a larger power. -/
theorem msb_mod_of_le {n m : ℕ} (h : n ≤ m) (v : ℕ) : msb n (v % 2 ^ m) = msb n v :=
  msb_congr fun i hi => by
    rw [Nat.testBit_mod_two_pow, decide_eq_true (by omega : i < m), Bool.true_and]

/-- The high bits, then the low ones. -/
theorem msb_add (m n v : ℕ) : msb (m + n) v = msb m (v >>> n) ++ msb n v := by
  induction m with
  | zero => simp
  | succ m ih =>
    rw [Nat.add_right_comm, msb_succ, msb_succ, ih, Nat.testBit_shiftRight, Nat.add_comm n m,
      List.cons_append]

/-- The last bit, apart. -/
theorem msb_succ_last (n v : ℕ) : msb (n + 1) v = msb n (v >>> 1) ++ [v.testBit 0] :=
  msb_add n 1 v

/-- Shifting a word in at the low end appends its bits. -/
theorem msb_shiftLeft_or (m n v c : ℕ) (hc : c < 2 ^ n) :
    msb (m + n) (v <<< n ||| c) = msb m v ++ msb n c := by
  rw [msb_add, Nat.shiftRight_or_distrib, Nat.shiftLeft_shiftRight, Nat.shiftRight_eq_div_pow c,
    Nat.div_eq_of_lt hc, Nat.or_zero]
  refine congrArg _ (msb_congr fun i hi => ?_)
  rw [Nat.testBit_or, Nat.testBit_shiftLeft, decide_eq_false (by omega : ¬ i ≥ n), Bool.false_and,
    Bool.false_or]

/-- A run of one bits. -/
theorem msb_ones (n : ℕ) : msb n (2 ^ n - 1) = List.replicate n true := by
  have h : ∀ m ≤ n, msb m (2 ^ n - 1) = List.replicate m true := by
    intro m hm
    induction m with
    | zero => rfl
    | succ m ih =>
      rw [msb_succ, ih (by omega), Nat.testBit_two_pow_sub_one, decide_eq_true (by omega : m < n),
        List.replicate_succ]
  exact h n (Nat.le_refl n)

/-- The high bits of a run of one bits. -/
theorem ones_shiftRight (m n : ℕ) : (2 ^ (m + n) - 1) >>> n = 2 ^ m - 1 := by
  refine Nat.eq_of_testBit_eq fun i => ?_
  rw [Nat.testBit_shiftRight, Nat.testBit_two_pow_sub_one, Nat.testBit_two_pow_sub_one]
  exact decide_eq_decide.mpr (by omega)

/-- The bits of a number determine it up to their length. -/
theorem mod_eq_of_msb_eq {n v w : ℕ} (h : msb n v = msb n w) : v % 2 ^ n = w % 2 ^ n := by
  have hbits : ∀ i < n, v.testBit i = w.testBit i := by
    induction n with
    | zero => intro i hi; omega
    | succ n ih =>
      rw [msb_succ, msb_succ, List.cons.injEq] at h
      intro i hi
      rcases Nat.lt_succ_iff_lt_or_eq.mp hi with hlt | rfl
      · exact ih h.2 i hlt
      · exact h.1
  refine Nat.eq_of_testBit_eq fun i => ?_
  rw [Nat.testBit_mod_two_pow, Nat.testBit_mod_two_pow]
  by_cases hi : i < n
  · rw [hbits i hi]
  · simp [hi]

/-! ## Bytes -/

/-- The bits of bytes in stream order. -/
def ofBytes (bytes : List UInt8) : List Bool := bytes.flatMap fun b => msb 8 b.toNat

@[simp] theorem ofBytes_nil : ofBytes [] = [] := rfl

/-- Bytes have their bits one after another. -/
theorem ofBytes_append (xs ys : List UInt8) : ofBytes (xs ++ ys) = ofBytes xs ++ ofBytes ys := by
  rw [ofBytes, List.flatMap_append, ← ofBytes, ← ofBytes]

@[simp] theorem ofBytes_singleton (b : UInt8) : ofBytes [b] = msb 8 b.toNat := by
  simp [ofBytes]

/-- A number truncated to a byte keeps its low eight bits. -/
theorem msb_ofNat (v : ℕ) : msb 8 (UInt8.ofNat v).toNat = msb 8 v := by
  rw [UInt8.toNat_ofNat', msb_mod_of_le (Nat.le_refl 8)]

/-- There are eight bits to a byte. -/
theorem length_ofBytes (bytes : List UInt8) : (ofBytes bytes).length = 8 * bytes.length := by
  induction bytes with
  | nil => rfl
  | cons b bytes ih =>
    rw [← List.singleton_append, ofBytes_append, List.length_append, ih, ofBytes_singleton,
      length_msb, List.length_append, List.length_singleton]
    omega

/-- The first byte's bits come first. -/
theorem ofBytes_cons (b : UInt8) (bytes : List UInt8) :
    ofBytes (b :: bytes) = msb 8 b.toNat ++ ofBytes bytes := rfl

/-- Bytes are determined by their bits. -/
theorem ofBytes_injective : Function.Injective ofBytes := by
  intro xs
  induction xs with
  | nil =>
    intro ys h
    have hlen := congrArg List.length h
    rw [length_ofBytes, length_ofBytes] at hlen
    exact (List.length_eq_zero_iff.mp (by simpa using hlen.symm)).symm
  | cons x xs ih =>
    intro ys h
    cases ys with
    | nil =>
      have hlen := congrArg List.length h
      simp [length_ofBytes] at hlen
    | cons y ys =>
      rw [ofBytes_cons, ofBytes_cons] at h
      obtain ⟨hbyte, hrest⟩ := List.append_inj h (by rw [length_msb, length_msb])
      have hmod := mod_eq_of_msb_eq hbyte
      rw [Nat.mod_eq_of_lt x.toNat_lt, Nat.mod_eq_of_lt y.toNat_lt] at hmod
      rw [UInt8.toNat_inj.mp hmod, ih hrest]

end Bits
