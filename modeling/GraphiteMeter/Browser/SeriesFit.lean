import Mathlib.Algebra.Order.BigOperators.Group.Finset
import Mathlib.Algebra.Order.Floor.Semiring
import Mathlib.Tactic.Linarith
import GraphiteMeter.Browser.SeriesFold

/-!
# Fitting the limit ends

A round of `fit` shortens the items, or else leaves them and either gives a group up or doubles the
width of its grid, which happens only while the grid is narrower than what lies between its origin and
the horizon (`round_lt`). What every fold keeps, `fit` keeps (`fit_keeps`).
-/

namespace GraphiteMeter.Browser.Series

variable {T G L : Type} [DecidableEq G] {kind : Kind T G L} {group : G} {horizon : ℚ}

/-- What is picked is among the settled groups. -/
theorem mem_of_pick {settled : List G} (h : pick settled = some group) : group ∈ settled := by
  have hstep : ∀ (names : List G) (best : Option G), (∀ g, best = some g → g ∈ settled) →
      ∀ g, names.foldl (better settled) best = some g → g ∈ settled := by
    intro names
    induction names with
    | nil => exact fun best hbest => hbest
    | cons name names ih =>
      intro best hbest
      refine ih _ fun g hg => ?_
      unfold better at hg
      split at hg
      case isTrue hname =>
        cases hg
        exact List.count_pos_iff.mp (by omega)
      case isFalse => exact hbest g hg
  exact hstep _ none nofun group h

def Kind.groups (kind : Kind T G L) (items : List T) : Finset G := (items.map kind.group).toFinset

/-- A settled group is in the items and not yet done. -/
theorem mem_settled {items : List T} {done : List G} (h : group ∈ kind.settled items horizon done) :
    group ∈ kind.groups items ∧ group ∉ done := by
  obtain ⟨item, hitem, rfl⟩ := List.mem_map.mp h
  rw [List.mem_filter, decide_eq_true_eq] at hitem
  exact ⟨List.mem_toFinset.mpr (List.mem_map_of_mem hitem.1), hitem.2.2⟩

variable [DecidableEq L] {limit : ℚ} {s s' : Fitting T G}

/-- A round folds one group's items, strictly or not. -/
theorem round_cases (h : kind.round limit s = some s') :
    ∃ group horizon strict, kind.horizon s.items = some horizon ∧
      group ∈ kind.settled s.items horizon s.done ∧
      s'.items = kind.fold s.items group (kind.gridOf s.toFolded group) horizon strict ∧
      (s'.items.length < s.items.length ∨
        s'.items = s.items ∧
          (s'.done = group :: s.done ∨
            s'.done = s.done ∧ (kind.gridOf s.toFolded group).width
                ≤ horizon - (kind.gridOf s.toFolded group).origin ∧
              s'.grids = (s.grids.insert group (kind.gridOf s.toFolded group)).insert group
                (double (kind.gridOf s.toFolded group)))) := by
  unfold Kind.round at h
  split at h
  case isTrue => cases h
  case isFalse =>
    obtain ⟨horizon, hhorizon, h⟩ := Option.bind_eq_some_iff.mp h
    obtain ⟨group, hpick, rfl⟩ := Option.map_eq_some_iff.mp h
    have hmem := mem_of_pick hpick
    dsimp only
    split
    case isTrue hlt => exact ⟨group, horizon, true, hhorizon, hmem, rfl, .inl hlt⟩
    case isFalse hlt =>
      have hsame := fold_eq_self (le_antisymm
        (fold_length_le kind group (kind.gridOf s.toFolded group) horizon true s.items)
        (not_lt.mp hlt))
      split
      case isTrue hwidth =>
        exact ⟨group, horizon, true, hhorizon, hmem, rfl, .inr ⟨hsame, .inr ⟨rfl, hwidth, rfl⟩⟩⟩
      case isFalse =>
        rw [hsame]
        refine ⟨group, horizon, false, hhorizon, hmem, rfl, ?_⟩
        by_cases hlength : (kind.fold s.items group (kind.gridOf s.toFolded group) horizon
            false).length = s.items.length
        · exact .inr ⟨fold_eq_self hlength, .inl (if_pos hlength)⟩
        · exact .inl (lt_of_le_of_ne (fold_length_le _ _ _ _ _ _) hlength)

/-! ## The measure -/

/-- How far the group's grid is from as wide as what it may cover. -/
def Kind.room (kind : Kind T G L) (f : Folded T G) (horizon : ℚ) (group : G) : ℕ :=
  ⌊(horizon - (kind.gridOf f group).origin) / (kind.gridOf f group).width⌋₊

/-- The items, then the groups not given up, then the room of all grids. -/
def Kind.measure (kind : Kind T G L) (s : Fitting T G) : ℕ × ℕ × ℕ :=
  (s.items.length, ((kind.groups s.items).filter (· ∉ s.done)).card,
    ∑ group ∈ kind.groups s.items, kind.room s.toFolded ((kind.horizon s.items).getD 0) group)

/-- Twice the width leaves fewer places. -/
theorem floor_half_lt {x w : ℚ} (hw : 0 < w) (hx : w ≤ x) : ⌊x / (w * 2)⌋₊ < ⌊x / w⌋₊ := by
  have hone : 1 ≤ x / w := (one_le_div hw).mpr hx
  have hfloor : 1 ≤ ⌊x / w⌋₊ := Nat.le_floor (by exact_mod_cast hone)
  have hcast : (1 : ℚ) ≤ ⌊x / w⌋₊ := by exact_mod_cast hfloor
  have hlt := Nat.lt_floor_add_one (x / w)
  rw [Nat.floor_lt (by positivity [hw.le.trans hx]), ← div_div]
  linarith

/-- **Every round brings the measure down.** -/
theorem round_lt (h : kind.round limit s = some s') :
    Prod.Lex (· < ·) (Prod.Lex (· < ·) (· < ·)) (kind.measure s') (kind.measure s) := by
  obtain ⟨group, horizon, strict, hhorizon, hmem, -, hcases⟩ := round_cases h
  obtain ⟨hgroup, hdone⟩ := mem_settled hmem
  rcases hcases with hlt | ⟨hsame, hdone' | ⟨hdone', hwidth, hgrids⟩⟩
  · exact .left _ _ hlt
  · refine (Prod.lex_def).mpr (.inr ⟨congrArg List.length hsame, .left _ _ ?_⟩)
    rw [hsame, hdone']
    refine Finset.card_lt_card ((Finset.ssubset_iff_of_subset fun g hg => ?_).mpr ⟨group, ?_, ?_⟩)
    · rw [Finset.mem_filter] at hg ⊢
      exact ⟨hg.1, fun hmem => hg.2 (List.mem_cons_of_mem _ hmem)⟩
    · exact Finset.mem_filter.mpr ⟨hgroup, hdone⟩
    · rw [Finset.mem_filter]
      exact fun hg => hg.2 List.mem_cons_self
  · refine (Prod.lex_def).mpr (.inr ⟨congrArg List.length hsame, (Prod.lex_def).mpr (.inr ⟨?_, ?_⟩)⟩)
    · show ((kind.groups s'.items).filter (· ∉ s'.done)).card
        = ((kind.groups s.items).filter (· ∉ s.done)).card
      rw [hsame, hdone']
    have hsum : ∑ g ∈ kind.groups s.items, kind.room s'.toFolded horizon g
        < ∑ g ∈ kind.groups s.items, kind.room s.toFolded horizon g := by
      have hgrid : kind.gridOf s'.toFolded group = double (kind.gridOf s.toFolded group) := by
        rw [Kind.gridOf, hgrids, AList.lookup_insert, Option.getD_some]
      have hless : kind.room s'.toFolded horizon group < kind.room s.toFolded horizon group := by
        rw [Kind.room, hgrid]
        exact floor_half_lt (kind.gridOf s.toFolded group).width_pos hwidth
      refine Finset.sum_lt_sum (fun g _ => ?_) ⟨group, hgroup, hless⟩
      by_cases hg : g = group
      · exact hg ▸ hless.le
      · have hother : kind.gridOf s'.toFolded g = kind.gridOf s.toFolded g := by
          rw [Kind.gridOf, hgrids, AList.lookup_insert_ne hg, AList.lookup_insert_ne hg, hsame]
          rfl
        rw [Kind.room, hother]
        exact le_rfl
    simpa only [Kind.measure, hsame, hhorizon, Option.getD_some] using hsum

/-- The loop of `fit`. -/
def Kind.fitLoop (kind : Kind T G L) (limit : ℚ) (s : Fitting T G) : Folded T G :=
  match _ : kind.round limit s with
  | none => s.toFolded
  | some s' => kind.fitLoop limit s'
termination_by kind.measure s
decreasing_by
  rename_i h
  exact round_lt h

def Kind.fit (kind : Kind T G L) (limit : ℚ) (f : Folded T G) : Folded T G :=
  kind.fitLoop limit ⟨f, []⟩

/-- The loop within `n` rounds and the look that ends it. -/
def Kind.fitIn (kind : Kind T G L) (limit : ℚ) : ℕ → Fitting T G → Option (Folded T G)
  | 0, _ => none
  | n + 1, s =>
    match kind.round limit s with
    | none => some s.toFolded
    | some s' => kind.fitIn limit n s'

/-- The loop ends when no round is left. -/
theorem fitLoop_of_none (h : kind.round limit s = none) : kind.fitLoop limit s = s.toFolded := by
  rw [Kind.fitLoop]
  split
  case h_1 => rfl
  case h_2 s' hsome =>
    rw [h] at hsome
    cases hsome

/-- The loop goes on with the next round. -/
theorem fitLoop_of_some (h : kind.round limit s = some s') :
    kind.fitLoop limit s = kind.fitLoop limit s' := by
  rw [Kind.fitLoop]
  split
  case h_1 hnone =>
    rw [h] at hnone
    cases hnone
  case h_2 s'' hsome => rw [Option.some.inj (h.symm.trans hsome)]

/-- **The loop ends.** -/
theorem fitIn_ends (kind : Kind T G L) (limit : ℚ) (s : Fitting T G) :
    ∃ n, kind.fitIn limit n s = some (kind.fitLoop limit s) := by
  induction s using Kind.fitLoop.induct kind limit with
  | case1 s hround => exact ⟨1, by rw [Kind.fitIn, hround, fitLoop_of_none hround]⟩
  | case2 s s' hround ih =>
    obtain ⟨n, hn⟩ := ih
    exact ⟨n + 1, by rw [Kind.fitIn, hround, fitLoop_of_some hround]; exact hn⟩

/-- What enough rounds give is what the loop gives. -/
theorem eq_of_fitIn {n : ℕ} {f : Folded T G} (h : kind.fitIn limit n s = some f) :
    kind.fitLoop limit s = f := by
  induction n generalizing s with
  | zero => cases h
  | succ n ih =>
    rw [Kind.fitIn] at h
    split at h
    case h_1 hnone => rw [fitLoop_of_none hnone, Option.some.inj h]
    case h_2 s' hsome => rw [fitLoop_of_some hsome, ih h]

/-- **What every fold keeps of the items, `fit` keeps.** -/
theorem fit_keeps (P : List T → Prop)
    (hfold : ∀ items group grid horizon strict, P items →
      P (kind.fold items group grid horizon strict))
    {f : Folded T G} (h : P f.items) : P (kind.fit limit f).items := by
  have hloop : ∀ s : Fitting T G, P s.items → P (kind.fitLoop limit s).items := by
    intro s
    induction s using Kind.fitLoop.induct kind limit with
    | case1 s hround => exact fun h => (fitLoop_of_none hround).symm ▸ h
    | case2 s s' hround ih =>
      intro h
      obtain ⟨group, horizon, strict, -, -, hitems, -⟩ := round_cases hround
      rw [fitLoop_of_some hround]
      refine ih ?_
      rw [hitems]
      exact hfold _ _ _ _ _ h
  exact hloop _ h

end GraphiteMeter.Browser.Series
