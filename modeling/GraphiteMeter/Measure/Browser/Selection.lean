import Mathlib.Algebra.Order.Field.Rat
import GraphiteMeter.Lib.OrderStatistic

/-!
# The browser's selection

Reference: `client/src/engine/measure/latency.ts` (`select`, `selectMedian`).

The indexes are integers and a read past either end of the array is `none`, which no comparison is true
of. With these readings each scan and each partition ends whatever the array holds, and a partition
leaves a shorter window on both sides of the pivot (`halve_bounds`). That the window then still
holds the rank asked for is `Cut`.

Sizes are small enough that the source's shifts are halvings.
-/

namespace GraphiteMeter.Measure.Browser.Selection

open OrderStatistic

variable {α : Type*}

/-! ## Readings and swaps -/

/-- `values[i]`. -/
def read (values : Array α) : ℤ → Option α
  | .ofNat i => values[i]?
  | .negSucc _ => none

/-- What is read stands inside the array. -/
theorem read_of_lt {values : Array α} {i : ℤ} {x : α} (h : read values i = some x) :
    0 ≤ i ∧ i < values.size := by
  cases i with
  | ofNat i =>
    obtain ⟨hi, -⟩ := Array.getElem?_eq_some_iff.mp h
    exact ⟨Int.natCast_nonneg i, Int.ofNat_lt.mpr hi⟩
  | negSucc i => cases h

/-- Inside the array there is something to read. -/
theorem exists_read (values : Array α) {i : ℤ} (hi : 0 ≤ i) (hlt : i < values.size) :
    ∃ x, read values i = some x := by
  obtain ⟨i, rfl⟩ := Int.eq_ofNat_of_zero_le hi
  exact ⟨_, Array.getElem?_eq_getElem (Int.ofNat_lt.mp hlt)⟩

/-- A read at a natural index is the list's. -/
theorem read_natCast (values : Array α) (i : ℕ) : read values i = values.toList[i]? :=
  Array.getElem?_toList.symm

/-- The elements of a window in another order, and all others in place. -/
structure Moved (lo hi : ℤ) (values values' : Array α) : Prop where
  perm : values'.Perm values
  source : ∀ q, ∃ q', read values' q = read values q' ∧
    (lo ≤ q → q ≤ hi → lo ≤ q' ∧ q' ≤ hi) ∧ (¬ (lo ≤ q ∧ q ≤ hi) → q' = q)

namespace Moved

variable {lo hi lo' hi' : ℤ} {values values' values'' : Array α}

/-- An array has moved to itself. -/
theorem refl (lo hi : ℤ) (values : Array α) : Moved lo hi values values :=
  ⟨.rfl, fun q => ⟨q, rfl, fun hlo hhi => ⟨hlo, hhi⟩, fun _ => rfl⟩⟩

/-- Moves compose. -/
theorem trans (h : Moved lo hi values values') (h' : Moved lo hi values' values'') :
    Moved lo hi values values'' := by
  refine ⟨h'.perm.trans h.perm, fun q => ?_⟩
  obtain ⟨q', hread', hin', hout'⟩ := h'.source q
  obtain ⟨q'', hread, hin, hout⟩ := h.source q'
  refine ⟨q'', hread'.trans hread, fun hlo hhi => ?_, fun hnot => ?_⟩
  · obtain ⟨hlo', hhi'⟩ := hin' hlo hhi
    exact hin hlo' hhi'
  · have heq := hout' hnot
    subst heq
    exact hout hnot

/-- A move inside a range is one inside a wider range. -/
theorem mono (h : Moved lo hi values values') (hlo : lo' ≤ lo) (hhi : hi ≤ hi') :
    Moved lo' hi' values values' := by
  refine ⟨h.perm, fun q => ?_⟩
  obtain ⟨q', hread, hin, hout⟩ := h.source q
  refine ⟨q', hread, fun hq hq' => ?_, fun hnot => hout (by omega)⟩
  by_cases hwindow : lo ≤ q ∧ q ≤ hi
  · obtain ⟨hle, hle'⟩ := hin hwindow.1 hwindow.2
    exact ⟨hlo.trans hle, hle'.trans hhi⟩
  · rw [hout hwindow]
    exact ⟨hq, hq'⟩

theorem size_eq (h : Moved lo hi values values') : values'.size = values.size := h.perm.size_eq

end Moved

/-- A swap exchanges two values and leaves the others. -/
theorem read_swap {values : Array α} {i j : ℤ} {x y : α} (hi : read values i = some x)
    (hj : read values j = some y) (q : ℤ) :
    read (values.swapIfInBounds i.toNat j.toNat) q =
      if q = j then some x else if q = i then some y else read values q := by
  obtain ⟨hi₀, hi₁⟩ := read_of_lt hi
  obtain ⟨hj₀, hj₁⟩ := read_of_lt hj
  obtain ⟨i, rfl⟩ := Int.eq_ofNat_of_zero_le hi₀
  obtain ⟨j, rfl⟩ := Int.eq_ofNat_of_zero_le hj₀
  have hilt : i < values.size := Int.ofNat_lt.mp hi₁
  have hjlt : j < values.size := Int.ofNat_lt.mp hj₁
  obtain ⟨-, rfl⟩ := Array.getElem?_eq_some_iff.mp hi
  obtain ⟨-, rfl⟩ := Array.getElem?_eq_some_iff.mp hj
  cases q with
  | ofNat q =>
    rw [Array.swapIfInBounds, dif_pos (by exact hilt), dif_pos (by exact hjlt)]
    show (values.swap i j hilt hjlt)[q]? = _
    rw [Array.getElem?_swap]
    simp only [Int.ofNat_eq_natCast, Int.natCast_inj, eq_comm, read]
  | negSucc q =>
    rw [if_neg (by omega), if_neg (by omega)]
    rfl

/-- A swap inside a range moves only that range. -/
theorem moved_swap {values : Array α} {lo hi i j : ℤ} {x y : α} (hread : read values i = some x)
    (hread' : read values j = some y) (hin : lo ≤ i ∧ i ≤ hi) (hin' : lo ≤ j ∧ j ≤ hi) :
    Moved lo hi values (values.swapIfInBounds i.toNat j.toNat) := by
  constructor
  case perm =>
    unfold Array.swapIfInBounds
    split_ifs
    · exact Array.swap_perm _ _
    · exact .rfl
    · exact .rfl
  case source =>
    intro q
    rw [read_swap hread hread']
    split_ifs with hqj hqi
    · exact ⟨i, hread.symm, fun _ _ => hin, fun hnot => absurd (hqj ▸ hin') hnot⟩
    · exact ⟨j, hread'.symm, fun _ _ => hin', fun hnot => absurd (hqi ▸ hin) hnot⟩
    · exact ⟨q, rfl, fun hlo hhi => ⟨hlo, hhi⟩, fun _ => rfl⟩

/-! ## The loops -/

variable [LinearOrder α]

/-- `a < b`, of two readings. -/
def less : Option α → Option α → Bool
  | some a, some b => a < b
  | _, _ => false

/-- A comparison that holds has both its values. -/
theorem exists_of_less {a b : Option α} (h : less a b = true) :
    ∃ x y, a = some x ∧ b = some y ∧ x < y := by
  match a, b with
  | some x, some y => exact ⟨x, y, rfl, rfl, of_decide_eq_true h⟩

@[simp] theorem less_self (a : Option α) : less a a = false := by
  cases a with
  | none => rfl
  | some x => exact decide_eq_false (lt_irrefl x)

/-- `while (values[i] < pivot) i++`. -/
def ascend (values : Array α) (pivot : Option α) (i : ℤ) : ℤ :=
  if less (read values i) pivot then ascend values pivot (i + 1) else i
termination_by (values.size - i).toNat
decreasing_by
  rename_i h
  obtain ⟨x, -, hx, -⟩ := exists_of_less h
  obtain ⟨-, hlt⟩ := read_of_lt hx
  omega

/-- `while (values[j] > pivot) j--`. -/
def descend (values : Array α) (pivot : Option α) (j : ℤ) : ℤ :=
  if less pivot (read values j) then descend values pivot (j - 1) else j
termination_by (j + 1).toNat
decreasing_by
  rename_i h
  obtain ⟨-, x, -, hx, -⟩ := exists_of_less h
  obtain ⟨hnonneg, -⟩ := read_of_lt hx
  omega

/-- The scan passes what is less than the pivot, and stops at what is not. -/
theorem ascend_spec (values : Array α) (pivot : Option α) (i : ℤ) :
    i ≤ ascend values pivot i ∧
      (∀ p, i ≤ p → p < ascend values pivot i → less (read values p) pivot = true) ∧
      less (read values (ascend values pivot i)) pivot = false := by
  induction i using ascend.induct values pivot with
  | case1 i hless ih =>
    obtain ⟨hle, hpassed, hstop⟩ := ih
    rw [ascend, if_pos hless]
    refine ⟨by omega, fun p hp hlt => ?_, hstop⟩
    rcases hp.eq_or_lt with rfl | hp
    · exact hless
    · exact hpassed p (by omega) hlt
  | case2 i hless =>
    rw [ascend, if_neg hless]
    exact ⟨le_rfl, fun p hp hlt => absurd hlt (by omega), Bool.eq_false_of_not_eq_true hless⟩

/-- The descent stops at the first value that is not above the pivot. -/
theorem descend_spec (values : Array α) (pivot : Option α) (j : ℤ) :
    descend values pivot j ≤ j ∧
      (∀ q, descend values pivot j < q → q ≤ j → less pivot (read values q) = true) ∧
      less pivot (read values (descend values pivot j)) = false := by
  induction j using descend.induct values pivot with
  | case1 j hless ih =>
    obtain ⟨hle, hpassed, hstop⟩ := ih
    rw [descend, if_pos hless]
    refine ⟨by omega, fun q hlt hq => ?_, hstop⟩
    rcases hq.eq_or_lt with rfl | hq
    · exact hless
    · exact hpassed q hlt (by omega)
  | case2 j hless =>
    rw [descend, if_neg hless]
    exact ⟨le_rfl, fun q hlt hq => absurd hlt (by omega), Bool.eq_false_of_not_eq_true hless⟩

/-- A scan does not pass an element that stops it. -/
theorem ascend_le {values : Array α} {pivot : Option α} {i p : ℤ} (hp : i ≤ p)
    (hstop : less (read values p) pivot = false) : ascend values pivot i ≤ p := by
  obtain ⟨-, hpassed, -⟩ := ascend_spec values pivot i
  by_contra hlt
  rw [hpassed p hp (by omega)] at hstop
  cases hstop

/-- The descent stops no lower than a value that stops it. -/
theorem le_descend {values : Array α} {pivot : Option α} {j q : ℤ} (hq : q ≤ j)
    (hstop : less pivot (read values q) = false) : q ≤ descend values pivot j := by
  obtain ⟨-, hpassed, -⟩ := descend_spec values pivot j
  by_contra hlt
  rw [hpassed q (by omega) hq] at hstop
  cases hstop

/-- The array and the two indexes that a partition goes on with. -/
structure Scan (α : Type*) where
  values : Array α
  i : ℤ
  j : ℤ

/-- `while (i <= j)`: scan from both ends, and swap what stops the two scans. -/
def partition (pivot : Option α) (values : Array α) (i j : ℤ) : Scan α :=
  if i ≤ j then
    let i' := ascend values pivot i
    let j' := descend values pivot j
    if j' < i' then ⟨values, i', j'⟩
    else partition pivot (values.swapIfInBounds i'.toNat j'.toNat) (i' + 1) (j' - 1)
  else ⟨values, i, j⟩
termination_by (j + 1 - i).toNat
decreasing_by
  have hi := (ascend_spec values pivot i).1
  have hj := (descend_spec values pivot j).1
  omega

/-- The two indices of a partition only approach, and then cross. -/
theorem partition_bounds (pivot : Option α) (values : Array α) (i j : ℤ) :
    i ≤ (partition pivot values i j).i ∧ (partition pivot values i j).j ≤ j ∧
      (partition pivot values i j).j < (partition pivot values i j).i := by
  induction values, i, j using partition.induct pivot with
  | case1 values i j hij i' j' hlt =>
    rw [partition, if_pos hij, if_pos hlt]
    exact ⟨(ascend_spec values pivot i).1, (descend_spec values pivot j).1, hlt⟩
  | case2 values i j hij i' j' hlt ih =>
    obtain ⟨hi, hj, hend⟩ := ih
    have hi' : i ≤ i' := (ascend_spec values pivot i).1
    have hj' : j' ≤ j := (descend_spec values pivot j).1
    rw [partition, if_pos hij, if_neg hlt]
    exact ⟨(hi'.trans (Int.le_add_one le_rfl)).trans hi, hj.trans (by omega), hend⟩
  | case3 values i j hij =>
    rw [partition, if_neg hij]
    exact ⟨le_rfl, le_rfl, not_le.mp hij⟩

/-- The window partitioned around its middle element. -/
def halve (values : Array α) (lo hi : ℤ) : Scan α :=
  partition (read values ((lo + hi) / 2)) values lo hi

/-- **A window halved** leaves less than the window on both sides: the first scans meet at the pivot at
the latest, and what stops them is swapped and passed. -/
theorem halve_bounds (values : Array α) {lo hi : ℤ} (h : lo < hi) :
    lo < (halve values lo hi).i ∧ (halve values lo hi).j < hi ∧
      (halve values lo hi).j < (halve values lo hi).i := by
  unfold halve
  generalize hmid : (lo + hi) / 2 = mid
  refine ⟨?_, ?_, (partition_bounds _ values lo hi).2.2⟩
  all_goals
    have hi' : ascend values (read values mid) lo ≤ mid := ascend_le (by omega) (less_self _)
    have hj' : mid ≤ descend values (read values mid) hi := le_descend (by omega) (less_self _)
    have hle := (ascend_spec values (read values mid) lo).1
    have hge := (descend_spec values (read values mid) hi).1
    rw [partition, if_pos h.le, if_neg (by omega)]
    obtain ⟨hi, hj, -⟩ := partition_bounds (read values mid)
      (values.swapIfInBounds (ascend values (read values mid) lo).toNat
        (descend values (read values mid) hi).toNat)
      (ascend values (read values mid) lo + 1) (descend values (read values mid) hi - 1)
    omega

/-- `while (lo < hi)`: halve the window and go on with the side that holds `k`. -/
def narrow (k : ℤ) (values : Array α) (lo hi : ℤ) : Array α :=
  if lo < hi then
    if k ≤ (halve values lo hi).j then
      narrow k (halve values lo hi).values lo (halve values lo hi).j
    else if (halve values lo hi).i ≤ k then
      narrow k (halve values lo hi).values (halve values lo hi).i hi
    else (halve values lo hi).values
  else values
termination_by (hi - lo).toNat
decreasing_by
  all_goals
    have hbounds := @halve_bounds _ _ values lo hi (by omega)
    omega

/-- The `k`-th smallest of the first `n` values, and the array left. -/
def select (values : Array α) (n k : ℕ) : Option α × Array α :=
  let values := narrow k values 0 (n - 1)
  (read values k, values)

/-! ## What the loops keep -/

/-- Of a window, what the two scans have passed lies on its side of the pivot. -/
structure Sides (pivot : α) (lo hi : ℤ) (s : Scan α) : Prop where
  low : ∀ p x, lo ≤ p → p < s.i → read s.values p = some x → x ≤ pivot
  high : ∀ q x, s.j < q → q ≤ hi → read s.values q = some x → pivot ≤ x

/-- While the scans have not met, each has an element ahead that stops it. -/
structure Stops (pivot : α) (lo hi : ℤ) (s : Scan α) : Prop where
  low : ∃ p x, s.i ≤ p ∧ p ≤ hi ∧ read s.values p = some x ∧ pivot ≤ x
  high : ∃ q x, lo ≤ q ∧ q ≤ s.j ∧ read s.values q = some x ∧ x ≤ pivot

/-- A comparison that fails is the other way round. -/
theorem less_eq_false {a b : α} : less (some a) (some b) = false ↔ b ≤ a := by
  rw [less, decide_eq_false_iff_not, not_lt]

/-- Where the two scans stop, and what they have passed. -/
theorem Sides.scan {pivot : α} {lo hi i j : ℤ} {values : Array α}
    (h : Sides pivot lo hi ⟨values, i, j⟩) :
    Sides pivot lo hi
      ⟨values, ascend values (some pivot) i, descend values (some pivot) j⟩ := by
  constructor
  case low =>
    intro p x hp hlt hread
    obtain ⟨-, hpassed, -⟩ := ascend_spec values (some pivot) i
    by_cases hpi : p < i
    · exact h.low p x hp hpi hread
    · have hless := hpassed p (not_lt.mp hpi) hlt
      rw [hread] at hless
      exact (of_decide_eq_true hless).le
  case high =>
    intro q x hlt hq hread
    obtain ⟨-, hpassed, -⟩ := descend_spec values (some pivot) j
    by_cases hqj : j < q
    · exact h.high q x hqj hq hread
    · have hless := hpassed q hlt (not_lt.mp hqj)
      rw [hread] at hless
      exact (of_decide_eq_true hless).le

/-- **A partition** of a window permutes it and leaves the lesser below, the greater above. -/
theorem partition_spec {pivot : α} {lo hi : ℤ} (values : Array α) (i j : ℤ) (hlo : 0 ≤ lo)
    (hhi : hi < values.size) (hi' : lo ≤ i) (hj' : j ≤ hi) (hsides : Sides pivot lo hi ⟨values, i, j⟩)
    (hstops : i ≤ j → Stops pivot lo hi ⟨values, i, j⟩) :
    Moved lo hi values (partition (some pivot) values i j).values ∧
      Sides pivot lo hi (partition (some pivot) values i j) := by
  induction values, i, j using partition.induct (some pivot) with
  | case1 values i j hij i' j' hlt =>
    rw [partition, if_pos hij, if_pos hlt]
    exact ⟨.refl lo hi values, hsides.scan⟩
  | case2 values i j hij i' j' hlt ih =>
    rw [partition, if_pos hij, if_neg hlt]
    obtain ⟨⟨p, u, hip, hphi, hu, hup⟩, ⟨q, v, hloq, hqj, hv, hvp⟩⟩ := hstops hij
    have hii' : i ≤ i' := (ascend_spec values (some pivot) i).1
    have hjj' : j' ≤ j := (descend_spec values (some pivot) j).1
    have hi'hi : i' ≤ hi := (ascend_le hip (by rw [hu, less_eq_false]; exact hup)).trans hphi
    have hloj' : lo ≤ j' := hloq.trans (le_descend hqj (by rw [hv, less_eq_false]; exact hvp))
    obtain ⟨x, hx⟩ := exists_read values (i := i') (by omega) (by omega)
    obtain ⟨y, hy⟩ := exists_read values (i := j') (by omega) (by omega)
    have hpx : pivot ≤ x := by
      have hstop := (ascend_spec values (some pivot) i).2.2
      rw [show ascend values (some pivot) i = i' from rfl, hx] at hstop
      exact less_eq_false.mp hstop
    have hyp : y ≤ pivot := by
      have hstop := (descend_spec values (some pivot) j).2.2
      rw [show descend values (some pivot) j = j' from rfl, hy] at hstop
      exact less_eq_false.mp hstop
    have hmoved : Moved lo hi values (values.swapIfInBounds i'.toNat j'.toNat) :=
      moved_swap hx hy ⟨by omega, hi'hi⟩ ⟨hloj', by omega⟩
    have hscan : Sides pivot lo hi ⟨values, i', j'⟩ := hsides.scan
    -- what the swap brings to each side belongs there
    have hsides' : Sides pivot lo hi
        ⟨values.swapIfInBounds i'.toNat j'.toNat, i' + 1, j' - 1⟩ := by
      constructor
      case low =>
        intro p z hp (hpi : p < i' + 1) hz
        rw [read_swap hx hy] at hz
        split_ifs at hz with hpj hpi'
        · have heq : x = y := by
            have : i' = j' := by omega
            rw [this, hy] at hx
            exact (Option.some.inj hx).symm
          rw [← Option.some.inj hz, heq]
          exact hyp
        · rw [← Option.some.inj hz]
          exact hyp
        · exact hscan.low p z hp (show p < i' by omega) hz
      case high =>
        intro q z (hqj : j' - 1 < q) hq hz
        rw [read_swap hx hy] at hz
        split_ifs at hz with hqj' hqi'
        · rw [← Option.some.inj hz]
          exact hpx
        · have heq : x = y := by
            have : i' = j' := by omega
            rw [this, hy] at hx
            exact (Option.some.inj hx).symm
          rw [← Option.some.inj hz, ← heq]
          exact hpx
        · exact hscan.high q z (show j' < q by omega) hq hz
    -- and what it puts at each end stops the scan from the other
    have hstops' : i' + 1 ≤ j' - 1 → Stops pivot lo hi
        ⟨values.swapIfInBounds i'.toNat j'.toNat, i' + 1, j' - 1⟩ := by
      intro hle
      constructor
      · refine ⟨j', x, show i' + 1 ≤ j' by omega, by omega, ?_, hpx⟩
        rw [read_swap hx hy, if_pos rfl]
      · refine ⟨i', y, by omega, show i' ≤ j' - 1 by omega, ?_, hyp⟩
        rw [read_swap hx hy, if_neg (by omega), if_pos rfl]
    obtain ⟨hmoved', hsides''⟩ :=
      ih (by rw [hmoved.size_eq]; exact hhi) (by omega) (by omega) hsides' hstops'
    exact ⟨hmoved.trans hmoved', hsides''⟩
  | case3 values i j hij =>
    rw [partition, if_neg hij]
    exact ⟨.refl lo hi values, hsides⟩

/-- The window holds the ranks between its ends: what is below it is not greater, what is above it not
less, than anything on the other side of that end. -/
structure Cut (n lo hi : ℤ) (values : Array α) : Prop where
  low : ∀ p q x y, p < lo → lo ≤ q → q < n → read values p = some x → read values q = some y → x ≤ y
  high : ∀ p q x y, p ≤ hi → hi < q → q < n → read values p = some x → read values q = some y → x ≤ y

/-- What lies below a cut stays below, whatever moves inside. -/
theorem Cut.moved {n lo hi : ℤ} {values values' : Array α} (h : Cut n lo hi values) (hhi : hi < n)
    (hmoved : Moved lo hi values values') : Cut n lo hi values' := by
  constructor
  case low =>
    intro p q x y hp hq hqn hx hy
    obtain ⟨p', hp', -, hpout⟩ := hmoved.source p
    obtain ⟨q', hq', hqin, hqout⟩ := hmoved.source q
    rw [hp', hpout (by omega)] at hx
    rw [hq'] at hy
    by_cases hwindow : lo ≤ q ∧ q ≤ hi
    · obtain ⟨hlo', hhi'⟩ := hqin hwindow.1 hwindow.2
      exact h.low p q' x y hp hlo' (by omega) hx hy
    · rw [hqout hwindow] at hy
      exact h.low p q x y hp hq hqn hx hy
  case high =>
    intro p q x y hp hq hqn hx hy
    obtain ⟨p', hp', hpin, hpout⟩ := hmoved.source p
    obtain ⟨q', hq', -, hqout⟩ := hmoved.source q
    rw [hq', hqout (by omega)] at hy
    rw [hp'] at hx
    by_cases hwindow : lo ≤ p ∧ p ≤ hi
    · exact h.high p' q x y (hpin hwindow.1 hwindow.2).2 hq hqn hx hy
    · rw [hpout hwindow] at hx
      exact h.high p q x y hp hq hqn hx hy

/-- The window below a partition, and the one above it. -/
theorem Cut.below {pivot : α} {n lo hi : ℤ} {s : Scan α} (h : Cut n lo hi s.values)
    (hs : Sides pivot lo hi s) (hlo : lo ≤ s.j) (hji : s.j < s.i) (hhi : s.j < hi) :
    Cut n lo s.j s.values := by
  refine ⟨h.low, fun p q x y hp hq hqn hx hy => ?_⟩
  by_cases hqhi : hi < q
  · exact h.high p q x y (by omega) hqhi hqn hx hy
  · by_cases hplo : p < lo
    · exact h.low p q x y hplo (by omega) hqn hx hy
    · exact (hs.low p x (by omega) (by omega) hx).trans (hs.high q y hq (by omega) hy)

/-- The values above the partition are cut off from those below. -/
theorem Cut.above {pivot : α} {n lo hi : ℤ} {s : Scan α} (h : Cut n lo hi s.values)
    (hs : Sides pivot lo hi s) (hhi : s.i ≤ hi) (hji : s.j < s.i) (hlo : lo < s.i) :
    Cut n s.i hi s.values := by
  refine ⟨fun p q x y hp hq hqn hx hy => ?_, h.high⟩
  by_cases hplo : p < lo
  · exact h.low p q x y hplo (by omega) hqn hx hy
  · by_cases hqhi : hi < q
    · exact h.high p q x y (by omega) hqhi hqn hx hy
    · exact (hs.low p x (by omega) hp hx).trans (hs.high q y (by omega) (by omega) hy)

/-- Halving a window keeps what the window holds. -/
theorem halve_cut {n lo hi : ℤ} {values : Array α} (hlo : 0 ≤ lo) (hlt : lo < hi) (hhi : hi < n)
    (hn : n ≤ values.size) (h : Cut n lo hi values) :
    ∃ pivot, Moved lo hi values (halve values lo hi).values ∧ Sides pivot lo hi (halve values lo hi) ∧
      Cut n lo hi (halve values lo hi).values := by
  obtain ⟨pivot, hpivot⟩ :=
    exists_read values (i := (lo + hi) / 2) (by omega) (by omega)
  have hsides : Sides pivot lo hi ⟨values, lo, hi⟩ :=
    ⟨fun p _ hp hlt => absurd hlt (not_lt.mpr hp), fun q _ hlt hq => absurd hlt (not_lt.mpr hq)⟩
  have hstops : lo ≤ hi → Stops pivot lo hi ⟨values, lo, hi⟩ := fun _ =>
    ⟨⟨(lo + hi) / 2, pivot, show lo ≤ _ by omega, by omega, hpivot, le_rfl⟩,
      ⟨(lo + hi) / 2, pivot, by omega, show _ ≤ hi by omega, hpivot, le_rfl⟩⟩
  obtain ⟨hmoved, hsides'⟩ :=
    partition_spec values lo hi hlo (by omega) le_rfl le_rfl hsides hstops
  rw [halve, hpivot]
  exact ⟨pivot, hmoved, hsides', h.moved hhi hmoved⟩

/-- **The search ends at the rank it is for**: nothing before it is greater, nothing after it less. -/
theorem narrow_spec {n k : ℤ} (values : Array α) (lo hi : ℤ) (hlo : 0 ≤ lo) (hlok : lo ≤ k)
    (hkhi : k ≤ hi) (hhi : hi < n) (hn : n ≤ values.size) (h : Cut n lo hi values) :
    Moved 0 (n - 1) values (narrow k values lo hi) ∧
      ∀ p q x y, p ≤ k → k ≤ q → q < n → p < q → read (narrow k values lo hi) p = some x →
        read (narrow k values lo hi) q = some y → x ≤ y := by
  induction values, lo, hi using narrow.induct (α := α) k with
  | case1 values lo hi hlt hkj ih =>
    obtain ⟨pivot, hmoved, hsides, hcut⟩ := halve_cut hlo hlt hhi hn h
    obtain ⟨hloi, hjhi, hji⟩ := halve_bounds values hlt
    rw [narrow, if_pos hlt, if_pos hkj]
    obtain ⟨hmoved', hsplit⟩ := ih hlo hlok hkj (lt_trans hjhi hhi)
      (by rw [hmoved.size_eq]; exact hn) (hcut.below hsides (hlok.trans hkj) hji hjhi)
    exact ⟨(hmoved.mono hlo (by omega)).trans hmoved', hsplit⟩
  | case2 values lo hi hlt hkj hik ih =>
    obtain ⟨pivot, hmoved, hsides, hcut⟩ := halve_cut hlo hlt hhi hn h
    obtain ⟨hloi, hjhi, hji⟩ := halve_bounds values hlt
    rw [narrow, if_pos hlt, if_neg hkj, if_pos hik]
    obtain ⟨hmoved', hsplit⟩ := ih (hlo.trans hloi.le) hik hkhi hhi
      (by rw [hmoved.size_eq]; exact hn) (hcut.above hsides (hik.trans hkhi) hji hloi)
    exact ⟨(hmoved.mono hlo (by omega)).trans hmoved', hsplit⟩
  | case3 values lo hi hlt hkj hik =>
    -- between the two sides every element is the pivot
    obtain ⟨pivot, hmoved, hsides, hcut⟩ := halve_cut hlo hlt hhi hn h
    rw [narrow, if_pos hlt, if_neg hkj, if_neg hik]
    refine ⟨hmoved.mono hlo (by omega), fun p q x y hp hq hqn hpq hx hy => ?_⟩
    by_cases hplo : p < lo
    · exact hcut.low p q x y hplo (by omega) hqn hx hy
    · by_cases hqhi : hi < q
      · exact hcut.high p q x y (by omega) hqhi hqn hx hy
      · exact (hsides.low p x (by omega) (by omega) hx).trans
          (hsides.high q y (by omega) (by omega) hy)
  | case4 values lo hi hge =>
    rw [narrow, if_neg hge]
    refine ⟨.refl _ _ values, fun p q x y hp hq hqn hpq hx hy => ?_⟩
    by_cases hplo : p < lo
    · exact h.low p q x y hplo (by omega) hqn hx hy
    · exact h.high p q x y (by omega) (by omega) hqn hx hy

/-! ## The rank selected -/

/-- The first `n` values after a selection, around the `k`-th. -/
theorem select_split (values : Array α) {n k : ℕ} (hk : k < n) (hn : n ≤ values.size) :
    ∃ x left after, select values n k = (some x, left) ∧
      left.toList.take n = left.toList.take k ++ x :: after ∧
      (left.toList.take n).Perm (values.toList.take n) ∧
      left.toList.drop n = values.toList.drop n ∧
      (∀ a ∈ left.toList.take k, a ≤ x) ∧ ∀ a ∈ after, x ≤ a := by
  have hcut : Cut n 0 (n - 1) values :=
    ⟨fun p q x y hp _ _ hx _ => absurd (read_of_lt hx).1 (by omega),
      fun p q x y _ hq hqn _ _ => absurd hqn (by omega)⟩
  obtain ⟨hmoved, hsplit⟩ := narrow_spec (n := n) (k := k) values 0 (n - 1) le_rfl (by omega)
    (by omega) (by omega) (by omega) hcut
  rw [select]
  generalize narrow k values 0 (n - 1) = left at hmoved hsplit ⊢
  have hsize := hmoved.size_eq
  have houter : ∀ j, n ≤ j → left.toList[j]? = values.toList[j]? := by
    intro j hj
    obtain ⟨q, hread, -, hout⟩ := hmoved.source j
    rw [hout (by omega), read_natCast, read_natCast] at hread
    exact hread
  obtain ⟨x, hx⟩ := exists_read left (i := k) (by omega) (by omega)
  have hxk : left.toList[k]? = some x := read_natCast left k ▸ hx
  refine ⟨x, left, (left.toList.take n).drop (k + 1), by rw [hx], ?_, ?_, ?_, ?_, ?_⟩
  · have htake : (left.toList.take n).take k = left.toList.take k := by
      rw [List.take_take, min_eq_left hk.le]
    have hget : (left.toList.take n)[k]? = some x := by
      rw [List.getElem?_take_of_lt hk, hxk]
    obtain ⟨hlt, heq⟩ := List.getElem?_eq_some_iff.mp hget
    rw [← htake, ← heq, List.getElem_cons_drop, List.take_append_drop]
  · exact List.Perm.take_of_getElem? (Array.perm_iff_toList_perm.mp hmoved.perm) houter
  · ext1 j
    rw [List.getElem?_drop, List.getElem?_drop]
    exact houter (n + j) (Nat.le_add_right n j)
  · intro a ha
    obtain ⟨p, hp⟩ := List.mem_iff_getElem?.mp ha
    rw [List.getElem?_take] at hp
    split_ifs at hp with hpk
    exact hsplit p k a x (by omega) le_rfl (by omega) (by omega) ((read_natCast left p).trans hp) hx
  · intro a ha
    obtain ⟨q, hq⟩ := List.mem_iff_getElem?.mp ha
    rw [List.getElem?_drop, List.getElem?_take] at hq
    split_ifs at hq with hqn
    exact hsplit k (k + 1 + q : ℕ) x a le_rfl (by omega) (by omega) (by omega) hx
      ((read_natCast left _).trans hq)

/-- **`select` returns the value the sorted list has at the rank**, permutes the first `n` values and
leaves the others. -/
theorem select_eq (values : Array α) {n k : ℕ} (hk : k < n) (hn : n ≤ values.size) :
    (select values n k).1 = (sorted (values.toList.take n))[k]? ∧
      ((select values n k).2.toList.take n).Perm (values.toList.take n) ∧
      (select values n k).2.toList.drop n = values.toList.drop n := by
  obtain ⟨x, left, after, hselect, htake, hperm, hdrop, hbefore, hafter⟩ := select_split values hk hn
  rw [hselect]
  refine ⟨?_, hperm, hdrop⟩
  have hlen : (left.toList.take k).length = k := by
    have hlen' := congrArg List.length htake
    have hle := hperm.length_eq
    simp only [List.length_take, Array.length_toList, List.length_append, List.length_cons] at *
    omega
  have hget := getElem?_sorted_append hbefore hafter
  rw [← htake, sorted_perm hperm, hlen] at hget
  exact hget.symm

/-! ## The median -/

/-- The median of the first `n` values, and the array left. The walk over the lower half starts below
every number. -/
def selectMedian (values : Array ℚ) (n : ℕ) : Option ℚ × Array ℚ :=
  let (upper, values) := select values n (n / 2)
  if n % 2 ≠ 0 then (upper, values)
  else
    let lower : WithBot ℚ := (values.toList.take (n / 2)).foldl
      (fun (lower : WithBot ℚ) (x : ℚ) => max lower ↑x) ⊥
    (upper.bind fun upper => WithBot.recBotCoe none (fun lower => some ((lower + upper) / 2)) lower,
      values)

/-- **`selectMedian` returns the middle value of the sorted list**, or the mean of the two middle
ones. -/
theorem selectMedian_eq (values : Array ℚ) {n : ℕ} (hpos : 0 < n) (hn : n ≤ values.size) :
    ∃ lower upper, (sorted (values.toList.take n))[(n - 1) / 2]? = some lower ∧
      (sorted (values.toList.take n))[n / 2]? = some upper ∧
      (selectMedian values n).1 = some ((lower + upper) / 2) := by
  obtain ⟨x, left, after, hselect, htake, hperm, -, hbefore, hafter⟩ :=
    select_split values (Nat.div_lt_self hpos (by decide : 1 < 2)) hn
  have hlen : (left.toList.take (n / 2)).length = n / 2 := by
    have hlen' := congrArg List.length htake
    have hle := hperm.length_eq
    simp only [List.length_take, Array.length_toList, List.length_append, List.length_cons] at *
    omega
  have hupper := getElem?_sorted_append hbefore hafter
  rw [← htake, sorted_perm hperm, hlen] at hupper
  rw [selectMedian, hselect]
  by_cases hodd : n % 2 ≠ 0
  · -- the middle one is both
    refine ⟨x, x, ?_, hupper, ?_⟩
    · rw [show (n - 1) / 2 = n / 2 by omega]
      exact hupper
    · dsimp only
      rw [if_pos hodd, add_self_div_two]
  · have hne : left.toList.take (n / 2) ≠ [] := by
      intro hnil
      rw [hnil, List.length_nil] at hlen
      omega
    obtain ⟨lower, hlower, hfold⟩ := getElem?_sorted_pred hbefore hafter hne
    rw [← htake, sorted_perm hperm, hlen] at hlower
    refine ⟨lower, x, ?_, hupper, ?_⟩
    · rw [show (n - 1) / 2 = n / 2 - 1 by omega]
      exact hlower
    · dsimp only
      rw [if_neg hodd, hfold, Option.bind_some, WithBot.recBotCoe_coe]

end GraphiteMeter.Measure.Browser.Selection
