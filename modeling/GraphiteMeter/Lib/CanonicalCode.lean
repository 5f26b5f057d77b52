import Mathlib.Algebra.GroupWithZero.Nat
import Mathlib.Data.List.Basic
import Mathlib.Data.List.Count
import Mathlib.Data.List.GetD
import Mathlib.Tactic.Common

/-!
# Canonical prefix codes

A canonical code is determined by its symbols' code lengths: symbols take consecutive codes length by
length, in symbol order within a length. The three loops here are the usual construction over arrays,
for any list of lengths between `1` and `n - 1`.

* `getD_countLengths` – the counting loop counts.
* `firstCodes_spec` – the codes of a length start behind those of the previous one, doubled, and its
  symbols behind the symbols with shorter codes.
* `assign_spec` – a symbol's code is its rank within its length above the first code, and its place in
  the symbol table, by the same rank, holds it.
-/

namespace CanonicalCode

/-! ## Arrays as lists -/

/-- A list that is set at an index is read back there alone. -/
theorem getD_set (xs : List ℕ) (i j v : ℕ) (hi : i < xs.length) :
    (xs.set i v).getD j 0 = if i = j then v else xs.getD j 0 := by
  rw [List.getD_eq_getElem?_getD, List.getElem?_set, List.getD_eq_getElem?_getD, if_pos hi]
  split <;> rfl

/-- Counting at an index counts there alone. -/
theorem getD_modify_succ (xs : List ℕ) (i j : ℕ) (hi : i < xs.length) :
    (xs.modify i (· + 1)).getD j 0 = xs.getD j 0 + if i = j then 1 else 0 := by
  rw [List.getD_eq_getElem?_getD, List.getElem?_modify, List.getD_eq_getElem?_getD]
  by_cases h : i = j
  · subst h
    simp [List.getElem?_eq_getElem hi]
  · simp [h]

/-- A list of zeros is zero everywhere. -/
theorem getD_replicate_zero (n i : ℕ) : (List.replicate n 0).getD i 0 = 0 := by
  rw [List.getD_eq_getElem?_getD, List.getElem?_replicate]
  split <;> rfl

/-! ## The loops -/

/-- How many symbols have each length. -/
def countLengths (n : ℕ) (lengths : List ℕ) : List ℕ :=
  lengths.foldl (fun count length => count.modify length (· + 1)) (List.replicate n 0)

/-- One length's turn: `code` and `index` run along. -/
def firstStep (count : List ℕ) :
    List ℕ × List ℕ × ℕ × ℕ → ℕ → List ℕ × List ℕ × ℕ × ℕ :=
  fun (first, start, code, index) length =>
    (first.set length code, start.set length index,
      (code + count.getD length 0) <<< 1, index + count.getD length 0)

/-- The first code of each length and where its symbols start. -/
def firstCodes (n : ℕ) (count : List ℕ) : List ℕ × List ℕ :=
  let (first, start, _, _) := (List.range' 1 (n - 1)).foldl (firstStep count)
    (List.replicate n 0, List.replicate n 0, 0, 0)
  (first, start)

/-- One symbol's turn: it takes the next code and the next place of its length. -/
def assignStep (lengths : List ℕ) :
    List ℕ × List ℕ × List ℕ × List ℕ → ℕ → List ℕ × List ℕ × List ℕ × List ℕ :=
  fun (codes, symbols, next, fill) symbol =>
    let length := lengths.getD symbol 0
    (codes.set symbol (next.getD length 0), symbols.set (fill.getD length 0) symbol,
      next.modify length (· + 1), fill.modify length (· + 1))

/-- The symbols take the codes of their length in order: each symbol's code, and the symbols in code
order. -/
def assign (lengths first start : List ℕ) : List ℕ × List ℕ :=
  let (codes, symbols, _, _) := (List.range lengths.length).foldl (assignStep lengths)
    (List.replicate lengths.length 0, List.replicate lengths.length 0, first, start)
  (codes, symbols)

/-! ## Counting -/

/-- The counts are those of the lengths. -/
theorem getD_countLengths {n : ℕ} {lengths : List ℕ} (h : ∀ l ∈ lengths, l < n) (l : ℕ) :
    (countLengths n lengths).getD l 0 = lengths.count l := by
  suffices hgen : ∀ (ls : List ℕ) (count : List ℕ), (∀ l ∈ ls, l < n) → count.length = n →
      (ls.foldl (fun count length => count.modify length (· + 1)) count).getD l 0
        = count.getD l 0 + ls.count l by
    rw [countLengths, hgen lengths _ h List.length_replicate, getD_replicate_zero, Nat.zero_add]
  intro ls
  induction ls with
  | nil => simp
  | cons a ls ih =>
    intro count hls hlen
    have ha : a < count.length := hlen ▸ hls a (by simp)
    rw [List.foldl_cons, ih _ (fun x hx => hls x (by simp [hx])) (by simpa using hlen),
      getD_modify_succ _ _ _ ha, List.count_cons]
    simp only [beq_iff_eq]
    omega

/-- How many symbols have a shorter code. -/
def shorter (lengths : List ℕ) (l : ℕ) : ℕ := lengths.countP (· < l)

/-- The codes up to a length are the shorter ones and its own. -/
theorem shorter_succ (lengths : List ℕ) (l : ℕ) :
    shorter lengths (l + 1) = shorter lengths l + lengths.count l := by
  induction lengths with
  | nil => rfl
  | cons a ls ih =>
    simp only [shorter, List.countP_cons, List.count_cons, decide_eq_true_eq, beq_iff_eq] at ih ⊢
    split_ifs <;> omega

/-- Longer lengths have more codes below them. -/
theorem shorter_mono (lengths : List ℕ) {l l' : ℕ} (h : l ≤ l') :
    shorter lengths l ≤ shorter lengths l' :=
  List.countP_mono_left fun a _ ha => by simp only [decide_eq_true_eq] at ha ⊢; omega

/-- No code is shorter than one bit. -/
theorem shorter_one {lengths : List ℕ} (h : ∀ l ∈ lengths, 1 ≤ l) : shorter lengths 1 = 0 :=
  List.countP_eq_zero.mpr fun a ha => by
    have := h a ha
    simp only [decide_eq_true_eq]
    omega

/-- The first code of each length: behind the codes of the previous one, doubled. -/
def firstCode (lengths : List ℕ) : ℕ → ℕ
  | 0 => 0
  | l + 1 => (firstCode lengths l + lengths.count l) * 2

/-- The first code of one bit is zero. -/
theorem firstCode_one {lengths : List ℕ} (h : ∀ l ∈ lengths, 1 ≤ l) : firstCode lengths 1 = 0 := by
  have hzero : lengths.count 0 = 0 := List.count_eq_zero.mpr fun hmem => by
    have := h 0 hmem
    omega
  simp [firstCode, hzero]

/-- **The tables** hold the first code of each length and the codes before it. -/
theorem firstCodes_spec {n : ℕ} {lengths : List ℕ} (h : ∀ l ∈ lengths, 1 ≤ l ∧ l < n) :
    let tables := firstCodes n (countLengths n lengths)
    tables.1.length = n ∧ tables.2.length = n ∧
      ∀ l, 1 ≤ l → l < n →
        tables.1.getD l 0 = firstCode lengths l ∧ tables.2.getD l 0 = shorter lengths l := by
  have hpos : ∀ l ∈ lengths, 1 ≤ l := fun l hl => (h l hl).1
  have hcount := getD_countLengths fun l hl => (h l hl).2
  suffices hgen : ∀ m, m < n → ∃ first start,
      (List.range' 1 m).foldl (firstStep (countLengths n lengths))
        (List.replicate n 0, List.replicate n 0, 0, 0)
        = (first, start, firstCode lengths (m + 1), shorter lengths (m + 1)) ∧
      first.length = n ∧ start.length = n ∧
      ∀ l, 1 ≤ l → l ≤ m → first.getD l 0 = firstCode lengths l ∧
        start.getD l 0 = shorter lengths l by
    by_cases hn : n = 0
    · subst hn
      exact ⟨rfl, rfl, by omega⟩
    · obtain ⟨first, start, hfold, hf, hs, htab⟩ := hgen (n - 1) (by omega)
      simp only [firstCodes, hfold]
      exact ⟨hf, hs, fun l hl hln => htab l hl (by omega)⟩
  intro m
  induction m with
  | zero =>
    intro _
    refine ⟨List.replicate n 0, List.replicate n 0, ?_, List.length_replicate, List.length_replicate,
      by omega⟩
    rw [firstCode_one hpos, shorter_one hpos]
    rfl
  | succ m ih =>
    intro hm
    obtain ⟨first, start, hfold, hf, hs, htab⟩ := ih (by omega)
    refine ⟨first.set (m + 1) (firstCode lengths (m + 1)), start.set (m + 1) (shorter lengths (m + 1)),
      ?_, by simpa using hf, by simpa using hs, ?_⟩
    · rw [List.range'_concat, List.foldl_append, hfold]
      simp only [List.foldl_cons, List.foldl_nil, firstStep, Nat.one_mul, Nat.add_comm 1 m, hcount,
        shorter_succ lengths (m + 1), firstCode, Nat.shiftLeft_eq, Nat.pow_one]
    · intro l hl hlm
      rw [getD_set _ _ _ _ (by omega), getD_set _ _ _ _ (by omega)]
      by_cases heq : m + 1 = l
      · subst heq
        simp
      · rw [if_neg heq, if_neg heq]
        exact htab l hl (by omega)

/-! ## Ranks and places -/

/-- How many symbols before `s` have its length. -/
def rank (lengths : List ℕ) (s : ℕ) : ℕ := (lengths.take s).count (lengths.getD s 0)

/-- Where `s` stands among the symbols in code order. -/
def place (lengths : List ℕ) (s : ℕ) : ℕ := shorter lengths (lengths.getD s 0) + rank lengths s

/-- One more symbol counts at its own length. -/
theorem count_take_succ {lengths : List ℕ} {s : ℕ} (hs : s < lengths.length) (l : ℕ) :
    (lengths.take (s + 1)).count l
      = (lengths.take s).count l + if lengths.getD s 0 = l then 1 else 0 := by
  rw [List.take_add_one, List.count_append, List.getD_eq_getElem?_getD,
    List.getElem?_eq_getElem hs, Option.toList_some, Option.getD_some, List.count_singleton]
  simp only [beq_iff_eq]

/-- A symbol's rank is below the count of its length. -/
theorem rank_lt_count {lengths : List ℕ} {s : ℕ} (hs : s < lengths.length) :
    rank lengths s < lengths.count (lengths.getD s 0) := by
  have hle : (lengths.take (s + 1)).count (lengths.getD s 0) ≤ lengths.count (lengths.getD s 0) :=
    (List.take_sublist _ _).count_le _
  rw [count_take_succ hs, if_pos rfl] at hle
  exact hle

/-- Every rank below the count of a length is a symbol's. -/
theorem exists_rank {lengths : List ℕ} {l r : ℕ} (h : r < lengths.count l) :
    ∃ s < lengths.length, lengths.getD s 0 = l ∧ rank lengths s = r := by
  suffices hgen : ∀ m ≤ lengths.length, r < (lengths.take m).count l →
      ∃ s < m, lengths.getD s 0 = l ∧ rank lengths s = r by
    obtain ⟨s, hs, hspec⟩ := hgen lengths.length (Nat.le_refl _) (by rwa [List.take_length])
    exact ⟨s, hs, hspec⟩
  intro m
  induction m with
  | zero =>
    intro _ hr
    simp at hr
  | succ m ih =>
    intro hm hr
    rw [count_take_succ hm] at hr
    -- the symbol is `m` itself, unless the rank was reached before it
    by_cases hbefore : r < (lengths.take m).count l
    · obtain ⟨s, hs, hspec⟩ := ih (by omega) hbefore
      exact ⟨s, by omega, hspec⟩
    · by_cases hlen : lengths.getD m 0 = l
      · rw [if_pos hlen] at hr
        refine ⟨m, Nat.lt_succ_self m, hlen, ?_⟩
        rw [rank, hlen]
        omega
      · rw [if_neg hlen] at hr
        omega

/-- Ranks follow the order of the symbols. -/
theorem rank_lt_rank {lengths : List ℕ} {s t : ℕ} (hst : s < t) (ht : t < lengths.length)
    (hlen : lengths.getD s 0 = lengths.getD t 0) : rank lengths s < rank lengths t := by
  have hle : (lengths.take (s + 1)).count (lengths.getD t 0)
      ≤ (lengths.take t).count (lengths.getD t 0) := by
    refine List.Sublist.count_le _ ?_
    have hmin : min (s + 1) t = s + 1 := Nat.min_eq_left hst
    rw [← hmin, ← List.take_take]
    exact List.take_sublist _ _
  rw [count_take_succ (by omega), if_pos hlen] at hle
  rw [rank, hlen]
  exact hle

/-- A symbol's place is below that of the longer codes. -/
theorem place_lt {lengths : List ℕ} {s : ℕ} (hs : s < lengths.length) :
    place lengths s < shorter lengths (lengths.getD s 0 + 1) := by
  rw [shorter_succ, place]
  exact Nat.add_lt_add_left (rank_lt_count hs) _

/-- A symbol's place is below the number of symbols. -/
theorem place_lt_length {lengths : List ℕ} {s : ℕ} (hs : s < lengths.length) :
    place lengths s < lengths.length :=
  Nat.lt_of_lt_of_le (place_lt hs) List.countP_le_length

/-- No two symbols stand in one place. -/
theorem place_ne {lengths : List ℕ} {s t : ℕ} (hst : s < t) (ht : t < lengths.length) :
    place lengths s ≠ place lengths t := by
  rcases Nat.lt_trichotomy (lengths.getD s 0) (lengths.getD t 0) with hlt | heq | hgt
  · have hs := place_lt (Nat.lt_trans hst ht)
    have hmono : shorter lengths (lengths.getD s 0 + 1) ≤ _ := shorter_mono lengths hlt
    simp only [place] at hs ⊢
    omega
  · have := rank_lt_rank hst ht heq
    simp only [place, heq]
    omega
  · have htp := place_lt ht
    have hmono : shorter lengths (lengths.getD t 0 + 1) ≤ _ := shorter_mono lengths hgt
    simp only [place] at htp ⊢
    omega

/-- **Codes and places.** A symbol's code is its rank above the first code of its length, and the
symbol table holds it at its place. -/
theorem assign_spec {n : ℕ} {lengths first start : List ℕ} (h : ∀ l ∈ lengths, 1 ≤ l ∧ l < n)
    (hf : first.length = n) (hs : start.length = n)
    (hstart : ∀ l, 1 ≤ l → l < n → start.getD l 0 = shorter lengths l)
    {s : ℕ} (hlt : s < lengths.length) :
    (assign lengths first start).1.getD s 0
        = first.getD (lengths.getD s 0) 0 + rank lengths s ∧
      (assign lengths first start).2.getD (place lengths s) 0 = s := by
  have hlen : ∀ t, t < lengths.length → 1 ≤ lengths.getD t 0 ∧ lengths.getD t 0 < n := by
    intro t ht
    rw [List.getD_eq_getElem _ _ ht]
    exact h _ (List.getElem_mem ht)
  -- after `m` symbols: the ranks so far are taken, and what was written stays written
  suffices hgen : ∀ m, m ≤ lengths.length → ∃ codes symbols next fill,
      (List.range m).foldl (assignStep lengths)
        (List.replicate lengths.length 0, List.replicate lengths.length 0, first, start)
        = (codes, symbols, next, fill) ∧
      codes.length = lengths.length ∧ symbols.length = lengths.length ∧
      next.length = n ∧ fill.length = n ∧
      (∀ l, next.getD l 0 = first.getD l 0 + (lengths.take m).count l ∧
        fill.getD l 0 = start.getD l 0 + (lengths.take m).count l) ∧
      ∀ t < m, codes.getD t 0 = first.getD (lengths.getD t 0) 0 + rank lengths t ∧
        symbols.getD (place lengths t) 0 = t by
    obtain ⟨codes, symbols, next, fill, hfold, -, -, -, -, -, hdone⟩ :=
      hgen lengths.length (Nat.le_refl _)
    simp only [assign, hfold]
    exact hdone s hlt
  intro m
  induction m with
  | zero =>
    intro _
    exact ⟨_, _, _, _, rfl, List.length_replicate, List.length_replicate, hf, hs, by simp, by omega⟩
  | succ m ih =>
    intro hm
    obtain ⟨codes, symbols, next, fill, hfold, hc, hsy, hn, hfi, hruns, hdone⟩ := ih (by omega)
    obtain ⟨hpos, hbound⟩ := hlen m hm
    have hfill : fill.getD (lengths.getD m 0) 0 = place lengths m := by
      rw [(hruns _).2, hstart _ hpos hbound, place, rank]
    refine ⟨codes.set m (next.getD (lengths.getD m 0) 0), symbols.set (place lengths m) m,
      next.modify (lengths.getD m 0) (· + 1), fill.modify (lengths.getD m 0) (· + 1), ?_,
      by simpa using hc, by simpa using hsy, by simpa using hn, by simpa using hfi, ?_, ?_⟩
    · rw [List.range_succ, List.foldl_append, hfold, ← hfill]
      rfl
    · intro l
      rw [getD_modify_succ _ _ _ (by omega), getD_modify_succ _ _ _ (by omega), (hruns l).1,
        (hruns l).2, count_take_succ hm]
      omega
    · intro t ht
      rw [getD_set _ _ _ _ (by omega), getD_set _ _ _ _ (by rw [hsy]; exact place_lt_length hm)]
      by_cases heq : t = m
      · subst heq
        rw [if_pos rfl, if_pos rfl, (hruns _).1, rank]
        exact ⟨rfl, rfl⟩
      · have htm : t < m := by omega
        rw [if_neg (by omega), if_neg (Ne.symm (place_ne htm hm))]
        exact hdone t htm

/-! ## Walking along a code -/

/-- The codes of one length end before the doubled start of every longer one. -/
theorem firstCode_add (lengths : List ℕ) (l k : ℕ) :
    (firstCode lengths l + lengths.count l) * 2 ^ (k + 1) ≤ firstCode lengths (l + k + 1) := by
  induction k with
  | zero =>
    exact Nat.le_of_eq (by rw [Nat.add_zero, firstCode, Nat.pow_one])
  | succ k ih =>
    calc (firstCode lengths l + lengths.count l) * 2 ^ (k + 1 + 1)
        = (firstCode lengths l + lengths.count l) * 2 ^ (k + 1) * 2 := by
          rw [Nat.pow_succ 2 (k + 1), Nat.mul_assoc]
      _ ≤ (firstCode lengths (l + k + 1) + lengths.count (l + k + 1)) * 2 :=
          Nat.mul_le_mul_right 2 (Nat.le_trans ih (Nat.le_add_right _ _))
      _ = firstCode lengths (l + (k + 1) + 1) := rfl

/-- **No proper prefix of a code is a code**: it lies behind the codes of its length. -/
theorem le_prefix {lengths : List ℕ} {l k c : ℕ} (hc : firstCode lengths (l + k + 1) ≤ c) :
    firstCode lengths l + lengths.count l ≤ c >>> (k + 1) := by
  rw [Nat.shiftRight_eq_div_pow, Nat.le_div_iff_mul_le (Nat.two_pow_pos _)]
  exact Nat.le_trans (firstCode_add lengths l k) hc

end CanonicalCode
