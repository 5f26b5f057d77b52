import Mathlib.Data.List.Basic
import Mathlib.Data.Nat.Basic
import Mathlib.Order.Basic
import Mathlib.Tactic.Common

/-!
# Reading lines of bounded length from a stream in pieces

A reader keeps an unfinished line between the pieces it is given, processes the lines a piece
finishes, and stops where a line is too long or where processing one ends it. `readLines` is what that
comes to on the lines of the whole stream, with one bound on a finished line and one on an unfinished.
A reader that reads each piece as `readLines` reads the stream as `readLines`, however it is cut
(`readAll_eq`).
-/

namespace LineReader

variable {α σ ε : Type*}

/-- Why reading stopped: a line is too long, or processing it ended it. -/
inductive Stop (ε : Type*) where
  | oversized
  | ended (result : ε)
deriving DecidableEq

/-- How far reading came, with the lines it processed counted. -/
inductive Flow (α σ ε : Type*) where
  /-- It goes on with an unfinished line. -/
  | more (line : List α) (state : σ) (count : ℕ)
  | stop (why : Stop ε) (state : σ) (count : ℕ)

namespace Flow

/-- Goes on unless reading stopped. -/
def andThen (f : Flow α σ ε) (next : List α → σ → ℕ → Flow α σ ε) : Flow α σ ε :=
  match f with
  | .more line s n => next line s n
  | .stop why s n => .stop why s n

/-- The lines processed. -/
def count : Flow α σ ε → ℕ
  | .more _ _ n => n
  | .stop _ _ n => n

end Flow

/-! ## Lines -/

section Lines

variable [DecidableEq α] (sep : α)

/-- The lines that end in the stream and what is left, after the start of a line. -/
def cut (line : List α) : List α → List (List α) × List α
  | [] => ([], line)
  | a :: xs =>
    if a = sep then
      let (lines, last) := cut [] xs
      (line :: lines, last)
    else cut (line ++ [a]) xs

/-- Lines are cut from one part and then from the next. -/
theorem cut_append (line xs ys : List α) :
    cut sep line (xs ++ ys) =
      ((cut sep line xs).1 ++ (cut sep (cut sep line xs).2 ys).1,
        (cut sep (cut sep line xs).2 ys).2) := by
  induction xs generalizing line with
  | nil => rfl
  | cons a xs ih =>
    rw [List.cons_append, cut, cut]
    split_ifs
    · simp only [ih]
      rfl
    · exact ih _

/-- Without a separator, the line is not finished. -/
theorem cut_of_notMem {xs : List α} (h : sep ∉ xs) (line : List α) :
    cut sep line xs = ([], line ++ xs) := by
  induction xs generalizing line with
  | nil => rw [List.append_nil]; rfl
  | cons a xs ih =>
    obtain ⟨ha, hxs⟩ := not_or.mp (List.mem_cons.not.mp h)
    rw [cut, if_neg (Ne.symm ha), ih hxs, List.append_assoc]
    rfl

/-- A line to its separator. -/
theorem cut_line {before : List α} (h : sep ∉ before) (line xs : List α) :
    cut sep line (before ++ sep :: xs)
      = ((line ++ before) :: (cut sep [] xs).1, (cut sep [] xs).2) := by
  rw [cut_append, cut_of_notMem sep h, cut, if_pos rfl]
  rfl

/-- What is left of a stream is as long as what it started with, or the start of a line in it. -/
theorem prefix_cut (line xs : List α) :
    (∃ l ∈ (cut sep line xs).1.head?, line <+: l) ∨
      ((cut sep line xs).1 = [] ∧ line <+: (cut sep line xs).2) := by
  induction xs generalizing line with
  | nil => exact .inr ⟨rfl, List.prefix_rfl⟩
  | cons a xs ih =>
    rw [cut]
    split_ifs
    · exact .inl ⟨line, rfl, List.prefix_rfl⟩
    · have hline : line <+: line ++ [a] := List.prefix_append _ _
      rcases ih (line ++ [a]) with ⟨l, hl, hstart⟩ | ⟨hnil, hstart⟩
      · exact .inl ⟨l, hl, hline.trans hstart⟩
      · exact .inr ⟨hnil, hline.trans hstart⟩

end Lines

/-! ## Reading lines -/

section Read

variable (process : σ → List α → σ × Option ε)

/-- Reads finished lines of at most `whole` and what is left, of at most `rest`. -/
def readLines (whole rest : ℕ) (s : σ) (n : ℕ) : List (List α) → List α → Flow α σ ε
  | [], last => if rest < last.length then .stop .oversized s n else .more last s n
  | line :: lines, last =>
    if whole < line.length then .stop .oversized s n
    else
      match process s line with
      | (s, some result) => .stop (.ended result) s (n + 1)
      | (s, none) => readLines whole rest s (n + 1) lines last

variable {process} {whole rest : ℕ}

/-- Reading lines does not take the count back. -/
theorem le_count_readLines (s : σ) (n : ℕ) (lines : List (List α)) (last : List α) :
    n ≤ (readLines process whole rest s n lines last).count := by
  induction lines generalizing s n with
  | nil =>
    rw [readLines]
    split_ifs <;> exact le_rfl
  | cons line lines ih =>
    rw [readLines]
    split_ifs
    · exact le_rfl
    · match process s line with
      | (s, some result) => exact Nat.le_succ n
      | (s, none) => exact (Nat.le_succ n).trans (ih s (n + 1))

/-- What is left when reading goes on is within its bound. -/
theorem length_of_readLines {s s' : σ} {n n' : ℕ} {lines : List (List α)} {last line : List α}
    (h : readLines process whole rest s n lines last = .more line s' n') :
    line = last ∧ line.length ≤ rest := by
  induction lines generalizing s n with
  | nil =>
    rw [readLines] at h
    split_ifs at h with hlong
    cases h
    exact ⟨rfl, not_lt.mp hlong⟩
  | cons head lines ih =>
    rw [readLines] at h
    split_ifs at h
    match hprocess : process s head with
    | (s, some result) =>
      rw [hprocess] at h
      cases h
    | (s, none) =>
      rw [hprocess] at h
      exact ih h

/-- Lines that start with more than is allowed of what is left are too long as well. -/
theorem readLines_of_prefix (h : whole ≤ rest) {line : List α} (hlong : rest < line.length)
    {lines : List (List α)} {last : List α}
    (hstart : (∃ l ∈ lines.head?, line <+: l) ∨ (lines = [] ∧ line <+: last)) (s : σ) (n : ℕ) :
    readLines process whole rest s n lines last = .stop .oversized s n := by
  rcases hstart with ⟨l, hl, hstart⟩ | ⟨rfl, hstart⟩
  · cases lines with
    | nil => cases hl
    | cons head lines =>
      cases hl
      rw [readLines, if_pos (lt_of_le_of_lt h (hlong.trans_le hstart.length_le))]
  · rw [readLines, if_pos (hlong.trans_le hstart.length_le)]

/-- **Reading on** after a piece is reading both at once. -/
theorem readLines_cut_append [DecidableEq α] (sep : α) (h : whole ≤ rest) (s : σ) (n : ℕ)
    (line xs ys : List α) :
    readLines process whole rest s n (cut sep line (xs ++ ys)).1 (cut sep line (xs ++ ys)).2 =
      (readLines process whole rest s n (cut sep line xs).1 (cut sep line xs).2).andThen
        fun line s n => readLines process whole rest s n (cut sep line ys).1 (cut sep line ys).2 := by
  rw [cut_append]
  generalize (cut sep line xs).1 = lines
  generalize (cut sep line xs).2 = last
  induction lines generalizing s n with
  | nil =>
    rw [List.nil_append, readLines]
    split_ifs with hlong
    · exact readLines_of_prefix h hlong (prefix_cut sep last ys) s n
    · rfl
  | cons head lines ih =>
    rw [List.cons_append, readLines, readLines]
    split_ifs
    · rfl
    · match process s head with
      | (s, some result) => rfl
      | (s, none) => exact ih s (n + 1)

end Read

/-! ## Reading pieces -/

/-- Reads pieces one after another. -/
def readAll (step : List α → σ → ℕ → List α → Flow α σ ε) (line : List α) (s : σ) (n : ℕ) :
    List (List α) → Flow α σ ε
  | [] => .more line s n
  | piece :: pieces =>
    match step line s n piece with
    | .more line s n => readAll step line s n pieces
    | .stop why s n => .stop why s n

/-- **However a stream is cut**, a reader that reads each piece by lines reads it by lines. -/
theorem readAll_eq [DecidableEq α] (sep : α) {process : σ → List α → σ × Option ε} {whole rest : ℕ}
    (h : whole ≤ rest)
    {step : List α → σ → ℕ → List α → Flow α σ ε}
    (hstep : ∀ line s n piece, line.length ≤ rest → step line s n piece
      = readLines process whole rest s n (cut sep line piece).1 (cut sep line piece).2)
    {line : List α} (hline : line.length ≤ rest) (s : σ) (n : ℕ) (pieces : List (List α)) :
    readAll step line s n pieces = readLines process whole rest s n
      (cut sep line pieces.flatten).1 (cut sep line pieces.flatten).2 := by
  induction pieces generalizing line s n with
  | nil =>
    rw [readAll, List.flatten_nil, cut, readLines, if_neg (not_lt.mpr hline)]
  | cons piece pieces ih =>
    rw [readAll, List.flatten_cons, readLines_cut_append sep h, hstep line s n piece hline]
    match hread : readLines process whole rest s n (cut sep line piece).1 (cut sep line piece).2 with
    | .more line s n => exact ih (length_of_readLines hread).2 s n
    | .stop why s n => rfl

/-! ## A bound that counts the separator -/

section Bound

variable (process : σ → List α → σ × Option ε)

/-- No line that is reached is just as long as the bound. -/
def Clear (limit : ℕ) (s : σ) : List (List α) → Prop
  | [] => True
  | line :: lines =>
    limit < line.length ∨ line.length ≠ limit ∧
      match process s line with
      | (_, some _) => True
      | (s, none) => Clear limit s lines

variable {process}

/-- Where no such line is reached, a reader that takes one element less of a finished line reads the
same. -/
theorem readLines_of_clear {limit : ℕ} {s : σ} {lines : List (List α)}
    (h : Clear process limit s lines) (n : ℕ) (last : List α) :
    readLines process (limit - 1) limit s n lines last
      = readLines process limit limit s n lines last := by
  induction lines generalizing s n with
  | nil => rfl
  | cons line lines ih =>
    rw [readLines, readLines]
    rcases h with hlong | ⟨hne, hclear⟩
    · rw [if_pos hlong, if_pos (by omega)]
    · by_cases hlong : limit < line.length
      · rw [if_pos hlong, if_pos (by omega)]
      · rw [if_neg hlong, if_neg (by omega)]
        match hprocess : process s line with
        | (s, some result) => rfl
        | (s, none) =>
          rw [hprocess] at hclear
          exact ih hclear (n + 1)

/-- Where one is reached, that reader stops before it and the other processes it. -/
theorem count_lt_of_not_clear {limit : ℕ} (hpos : 0 < limit) {s : σ} {lines : List (List α)}
    (h : ¬Clear process limit s lines) (n : ℕ) (last : List α) :
    (readLines process (limit - 1) limit s n lines last).count
      < (readLines process limit limit s n lines last).count := by
  induction lines generalizing s n with
  | nil => exact absurd trivial h
  | cons line lines ih =>
    obtain ⟨hshort, hrest⟩ := not_or.mp h
    rw [readLines, readLines, if_neg hshort]
    by_cases hlimit : line.length = limit
    · rw [if_pos (by omega)]
      match process s line with
      | (s, some result) => exact Nat.lt_succ_self n
      | (s, none) => exact le_count_readLines s (n + 1) lines last
    · rw [if_neg (by omega)]
      match hprocess : process s line with
      | (s, some result) => exact absurd ⟨hlimit, by rw [hprocess]; trivial⟩ hrest
      | (s, none) =>
        refine ih (fun hclear => hrest ⟨hlimit, ?_⟩) (n + 1)
        rw [hprocess]
        exact hclear

end Bound

/-! ## Two readers of one stream -/

/-- **One bound.** Where a reader stops for a line's length, another with the same bound does so
before the same line, unless it ended before. -/
theorem oversized_of_oversized {β τ ι : Type*} {process : σ → List α → σ × Option ε}
    {process' : τ → List β → τ × Option ι} {limit : ℕ} {lines : List (List α)}
    {lines' : List (List β)} (hlines : lines.map List.length = lines'.map List.length)
    {last : List α} {last' : List β} (hlast : last.length = last'.length) {s s' : σ} (t : τ) {n m : ℕ}
    (h : readLines process limit limit s n lines last = .stop .oversized s' m) :
    (∃ t', readLines process' limit limit t n lines' last' = .stop .oversized t' m) ∨
      ∃ result t' k, k ≤ m ∧
        readLines process' limit limit t n lines' last' = .stop (.ended result) t' k := by
  induction lines generalizing lines' s t n with
  | nil =>
    obtain rfl : lines' = [] := by simpa using hlines.symm
    rw [readLines] at h ⊢
    split_ifs at h with hlong
    cases h
    exact .inl ⟨t, if_pos (hlast ▸ hlong)⟩
  | cons line lines ih =>
    obtain ⟨line', lines', rfl⟩ : ∃ line' rest, lines' = line' :: rest := by
      cases lines' with
      | nil => cases hlines
      | cons line' rest => exact ⟨line', rest, rfl⟩
    obtain ⟨hline, hrest⟩ := List.cons.inj hlines
    rw [readLines] at h ⊢
    split_ifs at h with hlong
    · cases h
      exact .inl ⟨t, if_pos (hline ▸ hlong)⟩
    · rw [if_neg (hline ▸ hlong)]
      match hprocess : process s line with
      | (s, some result) =>
        rw [hprocess] at h
        cases h
      | (s, none) =>
        rw [hprocess] at h
        replace h : readLines process limit limit s (n + 1) lines last = .stop .oversized s' m := h
        match process' t line' with
        | (t, some result) =>
          have hcount : n + 1 ≤ (readLines process limit limit s (n + 1) lines last).count :=
            le_count_readLines s (n + 1) lines last
          rw [h] at hcount
          exact .inr ⟨result, t, n + 1, hcount, rfl⟩
        | (t, none) => exact ih hrest t h

/-- Cutting commutes with a change of elements that keeps the separator apart. -/
theorem cut_map {β : Type*} [DecidableEq α] [DecidableEq β] (sep : α) (f : α → β)
    (hf : ∀ a, f a = f sep ↔ a = sep) (line xs : List α) :
    cut (f sep) (line.map f) (xs.map f)
      = ((cut sep line xs).1.map (List.map f), (cut sep line xs).2.map f) := by
  induction xs generalizing line with
  | nil => rfl
  | cons a xs ih =>
    rw [List.map_cons, cut, cut]
    simp only [hf]
    split_ifs
    · have hnil := ih []
      rw [List.map_nil] at hnil
      simp only [hnil]
      rfl
    · have hmore := ih (line ++ [a])
      rwa [List.map_append, List.map_singleton] at hmore

end LineReader
