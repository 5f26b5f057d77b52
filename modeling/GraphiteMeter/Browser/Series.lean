import Mathlib.Data.Finset.Card
import Mathlib.Data.List.Sort
import GraphiteMeter.Lib.HashMap
import GraphiteMeter.Lib.Packing
import GraphiteMeter.Measure.Browser.Buckets

/-!
# A run's chart series

Reference: `client/src/app/series.ts`.

`Folded` keeps items in time order within a limit: the newest stretch whole, older items merged into
nested slots of a fixed grid. Its loops work on the items in place, which `Pass` follows write by write.
Times and rates are exact rationals. `StageTrace`, which reads the samples, has a module of its own.
-/

namespace GraphiteMeter.Browser.Series

open GraphiteMeter.Measure (Stage Direction)
open GraphiteMeter.Measure.Browser.Buckets (LatencyBucket revisionMs)
open Packing (Bin)

abbrev Grid : Type := Measure.Browser.Buckets.Grid

def seriesLimit : ℚ := 1200

structure Kind (T G L : Type) where
  revisableMs : ℚ
  group : T → G
  lane : T → L
  joins : T → T → Bool
  at_ : T → ℚ
  start : T → ℚ
  end_ : T → ℚ
  /-- A bin's merge within its slot. -/
  merge : Bin T → ℚ → ℚ → T

structure Folded (T G : Type) where
  items : List T
  grids : HashMap G Grid

def Folded.empty {T G : Type} : Folded T G := ⟨[], ∅⟩

section Fold

variable {T G L : Type} [DecidableEq G] [DecidableEq L] (kind : Kind T G L)

/-- An open bin: where its first item was written, and its slot. -/
structure Entry (T : Type) where
  index : ℕ
  slot : ℤ
  bin : Bin T

/-- The state of `fold`: `write` items are written, in place. -/
structure Pass (T L : Type) where
  items : List T
  write : ℕ
  opened : HashMap L (Entry T)

def Kind.close (grid : Grid) (items : List T) (entry : Entry T) : List T :=
  if entry.bin.rest ≠ [] then
    items.set entry.index
      (kind.merge entry.bin (grid.start entry.slot) (grid.start entry.slot + grid.width))
  else items

def Pass.put (pass : Pass T L) (item : T) : Pass T L :=
  { pass with items := pass.items.set pass.write item, write := pass.write + 1 }

/-- The items once the lane's open bin is closed. -/
def Pass.closed (grid : Grid) (pass : Pass T L) (lane : L) : List T :=
  match pass.opened.lookup lane with
  | some entry => kind.close grid pass.items entry
  | none => pass.items

/-- The item opens a bin of its lane, and closes the one before. -/
def Pass.reopen (grid : Grid) (pass : Pass T L) (item : T) : Pass T L :=
  let lane := kind.lane item
  { pass with
    items := pass.closed kind grid lane
    opened := pass.opened.insert lane ⟨pass.write, grid.cell (kind.at_ item), .single item⟩ }.put item

/-- The loop of `fold` at index `i`. -/
def Pass.read (group : G) (grid : Grid) (horizon : ℚ) (strict : Bool) (pass : Pass T L) (i : ℕ) :
    Pass T L :=
  match pass.items[i]? with
  | none => pass
  | some item =>
    if kind.group item = group ∧ kind.end_ item < horizon then
      match pass.opened.lookup (kind.lane item) with
      | some entry =>
        if entry.slot = grid.cell (kind.at_ item) ∧ (!strict || kind.joins entry.bin.last item) then
          { pass with
            opened := pass.opened.insert (kind.lane item) { entry with bin := entry.bin.push item } }
        else pass.reopen kind grid item
      | none => pass.reopen kind grid item
    else pass.put item

def Kind.fold (items : List T) (group : G) (grid : Grid) (horizon : ℚ) (strict : Bool) : List T :=
  let pass : Pass T L :=
    (List.range items.length).foldl (Pass.read kind group grid horizon strict) ⟨items, 0, ∅⟩
  ((pass.opened.entries.map (·.2)).foldl (kind.close grid) pass.items).take pass.write

/-! ## Fitting the limit -/

/-- The state of `fit`: its groups that are done. -/
structure Fitting (T G : Type) extends Folded T G where
  done : List G

def Kind.horizon (items : List T) : Option ℚ :=
  (items.map kind.end_).max?.map (· - kind.revisableMs)

/-- The groups of what may be folded, one for each item. -/
def Kind.settled (items : List T) (horizon : ℚ) (done : List G) : List G :=
  (items.filter fun item => kind.end_ item < horizon ∧ kind.group item ∉ done).map kind.group

def better (settled : List G) (group : Option G) (name : G) : Option G :=
  if 1 < settled.count name ∧ group.all fun g => settled.count g < settled.count name then some name
  else group

/-- The group with the most to fold, the earliest of those with as much. -/
def pick (settled : List G) : Option G := settled.eraseDups.foldl (better settled) none

/-- The width that is found is no less than the one it began with. -/
theorem le_foldl_max (items : List T) (f : T → ℚ) (width : ℚ) :
    width ≤ items.foldl (fun width item => max width (f item)) width := by
  induction items generalizing width with
  | nil => exact le_rfl
  | cons item items ih => exact (le_max_left _ _).trans (ih _)

/-- A group's grid is as wide as its longest item. -/
def Kind.newGrid (items : List T) (group : G) : Grid where
  origin := ((items.find? fun item => kind.group item = group).map kind.start).getD 0
  width := (items.filter fun item => kind.group item = group).foldl
    (fun width item => max width (kind.end_ item - kind.start item)) 1
  width_pos := zero_lt_one.trans_le (le_foldl_max _ _ _)

def Kind.gridOf (f : Folded T G) (group : G) : Grid :=
  (f.grids.lookup group).getD (kind.newGrid f.items group)

def double (grid : Grid) : Grid := ⟨grid.origin, grid.width * 2, mul_pos grid.width_pos two_pos⟩

/-- The loop of `fit`; `none` where it ends. -/
def Kind.round (limit : ℚ) (s : Fitting T G) : Option (Fitting T G) :=
  if (s.items.length : ℚ) ≤ limit then none
  else
    (kind.horizon s.items).bind fun horizon =>
    (pick (kind.settled s.items horizon s.done)).map fun group =>
      let grid := kind.gridOf s.toFolded group
      let grids := s.grids.insert group grid
      let items := kind.fold s.items group grid horizon true
      if items.length < s.items.length then ⟨⟨items, grids⟩, s.done⟩
      else if grid.width ≤ horizon - grid.origin then
        ⟨⟨items, grids.insert group (double grid)⟩, s.done⟩
      else
        let items := kind.fold items group grid horizon false
        ⟨⟨items, grids⟩, if items.length = s.items.length then group :: s.done else s.done⟩

end Fold

end GraphiteMeter.Browser.Series
