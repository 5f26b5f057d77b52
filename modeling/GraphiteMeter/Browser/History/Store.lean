import Mathlib.Algebra.Order.Ring.Rat
import Mathlib.Data.List.Sort
import Mathlib.Data.Prod.Lex

/-!
# The store of saved results

`HistoryRepository` keeps finished runs in IndexedDB, one transaction an operation, with a count of
the clears ever made beside them. A save is refused its write when the count has moved past the one
it was asked under, and pushes out the oldest readable rows past `HISTORY_LIMIT`.

A row is what the operations look at: its id, the key it stands under in the `completedAt` index,
and whether `readHistoryRecord` reads it back. IndexedDB itself is the `rows` and the transactions'
order; opening, upgrading and closing the database are left out.

Reference: `client/src/app/history/repository.ts`.
-/

namespace GraphiteMeter.Browser.History

/-- `HISTORY_LIMIT`. -/
def HISTORY_LIMIT : ℕ := 2000

def UNSAVABLE : String := "Could not save this result in browser storage."

def OLDER : String := "This result predates the 2,000 newest in History and was not saved."

/-- A row of the results store. A readable one carries the number it is indexed by. -/
structure Row (ι : Type*) where
  id : ι
  /-- Its key in the `completedAt` index, which leaves out rows without a valid one. -/
  completedAt : Option ℚ
  /-- `readHistoryRecord` reads it back. -/
  readable : Bool
  completedAt_of_readable : readable = true → completedAt.isSome = true

/-- A finished run's record, as this build saves it. -/
def Row.finished {ι : Type*} (id : ι) (completedAt : ℚ) : Row ι :=
  ⟨id, some completedAt, true, fun _ => rfl⟩

/-- The results store with the clears ever made in any tab, as `clearCount` reads them. -/
structure Database (ι : Type*) where
  rows : List (Row ι)
  clears : ℕ

/-- What a transaction of `put` did: whether it wrote, and which rows it pushed past the limit. -/
structure Put (ι : Type*) where
  db : Database ι
  written : Bool
  pruned : List ι

section Index

variable {ι : Type*} [LinearOrder ι]

/-- The index's order: by completion, rows completed together by id. -/
def Row.key (row : Row ι) : ℚ ×ₗ ι := toLex (row.completedAt.getD 0, row.id)

/-- `a` comes no later than `b` in a walk from the newest. -/
def Row.Newer (a b : Row ι) : Prop := b.key ≤ a.key

instance : DecidableRel (Row.Newer : Row ι → Row ι → Prop) := fun a b =>
  inferInstanceAs (Decidable (b.key ≤ a.key))

/-- `openCursor(null, "prev")` on the `completedAt` index: the indexed rows, the newest first. -/
def newestFirst (rows : List (Row ι)) : List (Row ι) :=
  (rows.filter (·.completedAt.isSome)).insertionSort Row.Newer

end Index

section Walks

variable {ι : Type*}

/-- Walking rows newest first, the id of each readable row past the limit; unreadable rows are never
counted. -/
def pastLimit (limit : ℕ) : ℕ → List (Row ι) → List ι
  | _, [] => []
  | kept, row :: rows =>
    if row.readable then
      if limit < kept + 1 then row.id :: pastLimit limit (kept + 1) rows
      else pastLimit limit (kept + 1) rows
    else pastLimit limit kept rows

/-- The walk of `list`: each readable row up to the limit. -/
def withinLimit (limit : ℕ) : ℕ → List (Row ι) → List (Row ι)
  | _, [] => []
  | readable, row :: rows =>
    if row.readable then
      if readable + 1 ≤ limit then row :: withinLimit limit (readable + 1) rows
      else withinLimit limit (readable + 1) rows
    else withinLimit limit readable rows

end Walks

namespace Database

variable {ι : Type*} [LinearOrder ι]

/-- Whether an id is one of those. -/
abbrev among (ids : List ι) (id : ι) : Bool := decide (id ∈ ids)

/-- The rows left once those of the given ids are deleted. -/
def without (rows : List (Row ι)) (ids : List ι) : List (Row ι) :=
  rows.filter (fun row => decide (row.id ∉ ids))

/-- `results.put(record)`: in place of the row of its id. -/
def replaced (rows : List (Row ι)) (record : Row ι) : List (Row ι) :=
  record :: without rows [record.id]

/-- What a save pushes past the limit of the rows it leaves. No row is looked at while the index
holds no more than that. -/
def pruned (rows : List (Row ι)) : List ι :=
  if (rows.filter (·.completedAt.isSome)).length ≤ HISTORY_LIMIT then []
  else pastLimit HISTORY_LIMIT 0 (newestFirst rows)

/-- The transaction of `put`. -/
def put (db : Database ι) (record : Row ι) (clears : ℕ) : Put ι :=
  if clears < db.clears then ⟨db, false, []⟩
  else
    ⟨{ db with rows := without (replaced db.rows record) (pruned (replaced db.rows record)) }, true,
      pruned (replaced db.rows record)⟩

/-- `list`: the newest readable records, and how many rows could not be read. -/
def list (db : Database ι) : List (Row ι) × ℕ :=
  (withinLimit HISTORY_LIMIT 0 (newestFirst db.rows),
    db.rows.length - ((newestFirst db.rows).filter (·.readable)).length)

/-- The row `inspect` finds under an id. -/
def inspect (db : Database ι) (id : ι) : Option (Row ι) :=
  db.rows.find? (fun row => decide (row.id = id))

def removeMalformed (db : Database ι) : Database ι :=
  { db with rows := db.rows.filter (·.readable) }

def delete (db : Database ι) (id : ι) : Database ι :=
  { db with rows := without db.rows [id] }

/-- Deletes every row and counts the clear, so a write queued before it in any tab is dropped. -/
def clear (db : Database ι) : Database ι := ⟨[], db.clears + 1⟩

end Database

end GraphiteMeter.Browser.History
