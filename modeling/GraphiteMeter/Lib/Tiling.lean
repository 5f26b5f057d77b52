import Mathlib.Data.List.Basic
import Mathlib.Order.Lattice

/-!
# Tiles laid end to end

`Tiles lo hi a l b` says that the tiles of `l` cover the line from `a` to `b` in order, each from its
`lo` to its `hi`, with no gap and no overlap. A tile may have no length. The tiles that end by a time
come first (`exists_split`).
-/

namespace Tiling

variable {α K : Type*} [LinearOrder K]

/-- Each tile starts where the one before it ends. -/
def Tiles (lo hi : α → K) : K → List α → K → Prop
  | a, [], b => a = b
  | a, x :: l, b => lo x = a ∧ lo x ≤ hi x ∧ Tiles lo hi (hi x) l b

variable {lo hi : α → K} {a b c : K} {x : α} {l l' : List α}

/-- Two parts tile when they meet. -/
theorem tiles_append : Tiles lo hi a (l ++ l') c ↔ ∃ b, Tiles lo hi a l b ∧ Tiles lo hi b l' c := by
  induction l generalizing a with
  | nil =>
    constructor
    · intro h
      exact ⟨a, rfl, h⟩
    · rintro ⟨b, rfl, h⟩
      exact h
  | cons x l ih =>
    constructor
    · rintro ⟨hlo, hle, h⟩
      obtain ⟨b, hl, hl'⟩ := ih.mp h
      exact ⟨b, ⟨hlo, hle, hl⟩, hl'⟩
    · rintro ⟨b, ⟨hlo, hle, hl⟩, hl'⟩
      exact ⟨hlo, hle, ih.mpr ⟨b, hl, hl'⟩⟩

namespace Tiles

/-- A tiling does not run back. -/
theorem le (h : Tiles lo hi a l b) : a ≤ b := by
  induction l generalizing a with
  | nil => exact le_of_eq h
  | cons x l ih =>
    obtain ⟨rfl, hle, h⟩ := h
    exact hle.trans (ih h)

/-- Each tile lies inside the whole. -/
theorem bounds (h : Tiles lo hi a l b) (hx : x ∈ l) : a ≤ lo x ∧ lo x ≤ hi x ∧ hi x ≤ b := by
  induction l generalizing a with
  | nil => cases hx
  | cons y l ih =>
    obtain ⟨rfl, hle, h⟩ := h
    rcases List.mem_cons.mp hx with rfl | hx
    · exact ⟨le_rfl, hle, h.le⟩
    · obtain ⟨hlo, hmid, hhi⟩ := ih h hx
      exact ⟨hle.trans hlo, hmid, hhi⟩

/-- Tilings that meet compose. -/
theorem append (h : Tiles lo hi a l b) (h' : Tiles lo hi b l' c) : Tiles lo hi a (l ++ l') c :=
  tiles_append.mpr ⟨b, h, h'⟩

/-- One more tile that meets the end tiles on. -/
theorem snoc (h : Tiles lo hi a l b) (hlo : lo x = b) (hle : lo x ≤ hi x) :
    Tiles lo hi a (l ++ [x]) (hi x) :=
  h.append ⟨hlo, hle, rfl⟩

/-- What comes before a tile ends where it starts, and what follows starts where it ends. -/
theorem around (h : Tiles lo hi a (l ++ x :: l') b) :
    Tiles lo hi a l (lo x) ∧ lo x ≤ hi x ∧ Tiles lo hi (hi x) l' b := by
  obtain ⟨c, hl, rfl, hle, hl'⟩ := tiles_append.mp h
  exact ⟨hl, hle, hl'⟩

/-- The end is that of the last tile. -/
theorem end_eq (h : Tiles lo hi a l b) : (l.getLast?.map hi).getD a = b := by
  rcases List.eq_nil_or_concat l with rfl | ⟨l, x, rfl⟩
  · exact h
  · rw [List.concat_eq_append] at h ⊢
    rw [List.getLast?_concat]
    exact h.around.2.2

/-- The tiles that end by `t` come first, and they are tiles. -/
theorem exists_split (h : Tiles lo hi a l b) (t : K) :
    ∃ pre post, l = pre ++ post ∧ (∀ x ∈ pre, hi x ≤ t) ∧ ∀ x ∈ post, t < hi x := by
  induction l generalizing a with
  | nil => exact ⟨[], [], rfl, List.forall_mem_nil _, List.forall_mem_nil _⟩
  | cons x l ih =>
    obtain ⟨rfl, hle, h⟩ := h
    by_cases hx : hi x ≤ t
    · obtain ⟨pre, post, rfl, hpre, hpost⟩ := ih h
      exact ⟨x :: pre, post, rfl, List.forall_mem_cons.mpr ⟨hx, hpre⟩, hpost⟩
    · refine ⟨[], x :: l, rfl, List.forall_mem_nil _, List.forall_mem_cons.mpr ⟨not_le.mp hx, ?_⟩⟩
      intro y hy
      obtain ⟨hlo, hmid, -⟩ := h.bounds hy
      exact (not_le.mp hx).trans_le (hlo.trans hmid)

/-- The tiles that end by a time come first. -/
theorem filter_prefix (h : Tiles lo hi a l b) (t : K) : (l.filter (hi · ≤ t)) <+: l := by
  obtain ⟨pre, post, rfl, hpre, hpost⟩ := h.exists_split t
  rw [List.filter_append, List.filter_eq_self.mpr (by simpa using hpre),
    List.filter_eq_nil_iff.mpr (by simpa using hpost), List.append_nil]
  exact List.prefix_append pre post

end Tiles

/-- Tiles that all move alike, in order, still follow one another. -/
theorem Tiles.move {f : α → α} {φ : K → K} (hφ : Monotone φ) (hlo : ∀ x, lo (f x) = φ (lo x))
    (hhi : ∀ x, hi (f x) = φ (hi x)) (h : Tiles lo hi a l b) :
    Tiles lo hi (φ a) (l.map f) (φ b) := by
  induction l generalizing a with
  | nil => exact congrArg φ h
  | cons x l ih =>
    obtain ⟨rfl, hle, h⟩ := h
    refine ⟨hlo x, ?_, ?_⟩
    · rw [hlo, hhi]
      exact hφ hle
    · rw [hhi]
      exact ih h

end Tiling
