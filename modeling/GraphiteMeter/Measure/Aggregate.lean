import Mathlib.Algebra.Order.Field.Rat
import Mathlib.Data.List.MinMax
import GraphiteMeter.Lib.Word
import GraphiteMeter.Proto.Counters

/-!
# Coordinated throughput

Reference: `rust/client/src/measure/aggregate.rs`, with `Stage`, `Direction` and `Dir` of
`rust/client/src/model.rs`.

Instants and durations are nanoseconds, rates exact numbers of bytes per second. The intervals stand
the latest first, so the source's `back` is the head. `limit` is the number of intervals kept: the
source's is `maxIntervals`, and `none` is the same code that never drops one.

`log` tells which samples were accepted and which intervals were dropped. Nothing reads it.
-/

namespace GraphiteMeter.Measure

open Proto (Counters)

/-- A headline needs this much time on the client's clock and on every receiver's. -/
def minEvidence : ℕ := 800 * 10 ^ 6

/-- A peak window spans at least this much on every clock. -/
def minPeak : ℕ := 500 * 10 ^ 6

/-- A result keeps this many latest intervals. -/
def maxIntervals : ℕ := 128

/-! ## Stages and directions -/

inductive Direction where
  | down
  | up
deriving DecidableEq, Repr

inductive Stage where
  | latency
  | download
  | upload
  | bidirectional
deriving DecidableEq, Repr

namespace Stage

def directions : Stage → List Direction
  | latency => []
  | download => [.down]
  | upload => [.up]
  | bidirectional => [.down, .up]

def moves (stage : Stage) (direction : Direction) : Bool := stage.directions.contains direction

end Stage

structure Dir (α : Type*) where
  down : α
  up : α
deriving DecidableEq, Repr

namespace Dir

variable {α : Type*}

def ofFn (value : Direction → α) : Dir α := ⟨value .down, value .up⟩

def get (d : Dir α) : Direction → α
  | .down => d.down
  | .up => d.up

def set (d : Dir α) (direction : Direction) (value : α) : Dir α :=
  match direction with
  | .down => { d with down := value }
  | .up => { d with up := value }

end Dir

/-! ## Boundaries -/

abbrev ServerId := String

/-- One upload receiver's counters. A replacement receiver has a higher `id`. -/
structure Receiver where
  id : ℕ
  counters : Counters
deriving DecidableEq, Repr

/-- The highest byte count a receiver's progress feed reported. -/
structure Fed where
  id : ℕ
  bytes : ℕ
deriving DecidableEq, Repr

structure Reading where
  server : ServerId
  down : Option ℕ
  /-- The receiver reported these counters at a fresh checkpoint. -/
  up : Option Receiver
  fed : Option Fed
deriving DecidableEq, Repr

structure Boundary where
  at_ : ℕ
  /-- The sampler ran late, so evidence resumes here. -/
  stalled : Bool
  last : Bool
  readings : List Reading
deriving DecidableEq, Repr

def Boundary.reading (b : Boundary) (server : ServerId) : Option Reading :=
  b.readings.find? fun reading => reading.server = server

/-! ## Windows -/

/-- One server's share of a window in one direction. Uploads run on the receiver's clock. -/
structure Component where
  bytes : ℕ
  duration : ℕ
  rate : ℚ
deriving DecidableEq, Repr

def Component.of (bytes duration : ℕ) : Component := ⟨bytes, duration, bytes * 10 ^ 9 / duration⟩

structure Window where
  start : ℕ
  end_ : ℕ
  components : Dir (List Component)
  rates : Dir (Option ℚ)
deriving DecidableEq, Repr

namespace Window

def all (w : Window) : List Component := w.components.down ++ w.components.up

def shortest (w : Window) : ℕ :=
  (w.components.up.map Component.duration).foldl min (w.end_ - w.start)

end Window

inductive Gap where
  /-- No time passed on some clock, so the boundary adds nothing. -/
  | stale
  /-- A counter regressed or a receiver was replaced, so evidence resumes. -/
  | broken
deriving DecidableEq, Repr

/-- The bytes a server moved down between two readings. -/
def downShare (start end_ : Reading) (elapsed : ℕ) : Option Component :=
  match start.down, end_.down with
  | some first, some last => (Word.checkedSub last first).map fun bytes => .of bytes elapsed
  | _, _ => none

/-- The bytes a receiver counted between two readings, on its own clock. -/
def upShare (start end_ : Reading) : Option Component :=
  match start.up, end_.up with
  | some first, some last =>
    if first.id ≠ last.id ∨ last.counters.follows first.counters = false then none
    else
      some (.of (last.counters.bytes - first.counters.bytes)
        (last.counters.nanos - first.counters.nanos))
  | _, _ => none

/-- A component a stage asks for: `some none` where it does not. -/
def required (moves : Bool) (component : Option Component) : Option (Option Component) :=
  if moves then component.map some else some none

/-- One participant's turn of the loop in `window`; `none` breaks the window. -/
def share (stage : Stage) (first last : Boundary) (id : ServerId) :
    Option (Dir (Option Component)) :=
  match first.reading id, last.reading id with
  | some start, some end_ =>
    match required (stage.moves .down) (downShare start end_ (last.at_ - first.at_)) with
    | none => none
    | some down =>
      match required (stage.moves .up) (upShare start end_) with
      | none => none
      | some up => some ⟨down, up⟩
  | _, _ => none

/-- The turns of the loop, up to the first that breaks the window. -/
def shares (stage : Stage) (first last : Boundary) :
    List ServerId → Option (List (Dir (Option Component)))
  | [] => some []
  | id :: ids =>
    match share stage first last id with
    | none => none
    | some one =>
      match shares stage first last ids with
      | none => none
      | some rest => some (one :: rest)

/-- The sum of the components' rates, `none` without one. -/
def total (components : List Component) : Option ℚ :=
  if components = [] then none else some (components.map Component.rate).sum

def window (stage : Stage) (participants : List ServerId) (first last : Boundary) :
    Except Gap Window :=
  if last.at_ - first.at_ = 0 then .error .stale
  else
    match shares stage first last participants with
    | none => .error .broken
    | some shares =>
      let components : Dir (List Component) :=
        ⟨shares.filterMap fun one => one.down, shares.filterMap fun one => one.up⟩
      if components.up.any fun component => component.duration = 0 then .error .stale
      else .ok ⟨first.at_, last.at_, components, ⟨total components.down, total components.up⟩⟩

/-! ## Intervals -/

inductive Reason where
  | stageStart
  | dropout
  | evidenceResumed
deriving DecidableEq, Repr

structure Peaks where
  combined : Dir ℚ
  servers : List (Dir ℚ)
deriving DecidableEq, Repr

namespace Peaks

def new : Peaks := ⟨⟨0, 0⟩, []⟩

/-- Raises the servers' peaks to their components' rates, in order. -/
def raise (direction : Direction) : List (Dir ℚ) → List Component → List (Dir ℚ)
  | peak :: peaks, component :: components =>
    peak.set direction (max (peak.get direction) component.rate) ::
      raise direction peaks components
  | peaks, _ => peaks

def recordIn (peaks : Peaks) (window : Window) (direction : Direction) : Peaks :=
  let components := window.components.get direction
  let combined := peaks.combined.get direction
  let missing := components.length - peaks.servers.length
  { combined := peaks.combined.set direction
      ((window.rates.get direction).elim combined fun rate => max combined rate)
    servers := raise direction (peaks.servers ++ List.replicate missing ⟨0, 0⟩) components }

def record (peaks : Peaks) (window : Window) : Peaks :=
  (peaks.recordIn window .down).recordIn window .up

end Peaks

/-- A stretch of fixed membership whose evidence is one window. -/
structure Interval where
  reason : Reason
  participants : List ServerId
  start : ℕ
  end_ : ℕ
  /-- Turns false once evidence resumed after the interval, which then no longer counts. -/
  complete : Bool
  window : Option Window
  peaks : Peaks
deriving DecidableEq, Repr

structure Rate where
  mean : ℚ
  peak : ℚ
deriving DecidableEq, Repr

/-- Snapshots the current interval at a boundary where a server moved, and is restored when that
server departs. -/
structure Mark where
  boundary : Boundary
  window : Option Window
  peaks : Peaks
deriving DecidableEq, Repr

def Mark.of (boundary : Boundary) (interval : Interval) : Mark :=
  ⟨boundary, interval.window, interval.peaks⟩

structure Open where
  first : Boundary
  last : Boundary
  peakFrom : Boundary
  /-- Marks, per participant in order and direction, the latest boundary where its bytes moved. -/
  moved : List (Dir (Option Mark))
deriving DecidableEq, Repr

/-- Marks the participants whose components moved bytes. -/
def markMoved (mark : Mark) (direction : Direction) :
    List (Dir (Option Mark)) → List Component → List (Dir (Option Mark))
  | moved :: rest, component :: components =>
    (if 0 < component.bytes then moved.set direction (some mark) else moved) ::
      markMoved mark direction rest components
  | moved, _ => moved

/-- Counts one server's unique measured bytes, whatever window counts. -/
structure Ledger where
  server : ServerId
  down : Option ℕ
  up : Option Fed
  bytes : Dir ℕ
deriving DecidableEq, Repr

namespace Ledger

/-- Credits a download count above the highest so far. -/
def creditDown (ledger : Ledger) (count : ℕ) : Ledger :=
  let high := ledger.down.getD count
  { ledger with
    bytes := { ledger.bytes with down := Word.saturatingAdd ledger.bytes.down (count - high) }
    down := some (max high count) }

/-- Credits the current receiver's growth and a newer receiver's whole count. -/
def credit (ledger : Ledger) (next : Fed) : Ledger :=
  let add (added : ℕ) : Ledger :=
    { ledger with
      bytes := { ledger.bytes with up := Word.saturatingAdd ledger.bytes.up added }
      up := some next }
  match ledger.up with
  | none => add 0
  | some current =>
    if next.id < current.id ∨ next.id = current.id ∧ next.bytes ≤ current.bytes then ledger
    else if next.id = current.id then add (next.bytes - current.bytes)
    else add next.bytes

/-- What one reading credits its server. -/
def read (ledger : Ledger) (reading : Reading) : Ledger :=
  let ledger := reading.down.elim ledger ledger.creditDown
  let checkpoint := reading.up.map fun up => (⟨up.id, up.counters.bytes⟩ : Fed)
  (reading.fed.toList ++ checkpoint.toList).foldl credit ledger

end Ledger

/-- Credits a reading to the first ledger of its server. -/
def creditReading : List Ledger → Reading → List Ledger
  | [], _ => []
  | ledger :: ledgers, reading =>
    if ledger.server = reading.server then ledger.read reading :: ledgers
    else ledger :: creditReading ledgers reading

/-! ## The aggregate -/

inductive Event where
  /-- `observe` accepted a sample in the interval with this number. -/
  | accepted (number : ℕ) (sample : Window)
  /-- The oldest interval was let go, with these later ones kept. -/
  | dropped (oldest : Interval) (later : List Interval)
deriving DecidableEq, Repr

structure Aggregate where
  stage : Stage
  limit : Option ℕ
  intervals : List Interval
  begun : ℕ
  ledgers : List Ledger
  opened : Option Open
  latest : Option Boundary
  log : List Event
deriving DecidableEq, Repr

namespace Aggregate

/-- The oldest interval, with the later ones, where there is no room for another. -/
def evicted (s : Aggregate) : Option (Interval × List Interval) :=
  if s.limit = some s.intervals.length then
    s.intervals.getLast?.map fun oldest => (oldest, s.intervals.dropLast)
  else none

def restart (s : Aggregate) (reason : Reason) (participants : List ServerId) (at_ : ℕ) :
    Aggregate :=
  { s with
    intervals :=
      ⟨reason, participants, at_, at_, true, none, .new⟩ ::
        if s.limit = some s.intervals.length then s.intervals.dropLast else s.intervals
    begun := s.begun + 1
    opened := none
    log := s.log ++ (s.evicted.map fun dropped => Event.dropped dropped.1 dropped.2).toList }

def newWith (limit : Option ℕ) (stage : Stage) (participants : List ServerId) (at_ : ℕ) :
    Aggregate :=
  let ledgers := participants.map fun server => (⟨server, none, none, ⟨0, 0⟩⟩ : Ledger)
  restart ⟨stage, limit, [], 0, ledgers, none, none, []⟩ .stageStart participants at_

def new : Stage → List ServerId → ℕ → Aggregate := newWith (some maxIntervals)

def start (s : Aggregate) (boundary : Boundary) : Aggregate :=
  match s.intervals with
  | [] => s
  | interval :: earlier =>
    let interval := { interval with start := boundary.at_, end_ := boundary.at_ }
    let mark := Mark.of boundary interval
    let moved := Dir.ofFn fun direction => if s.stage.moves direction then some mark else none
    { s with
      intervals := interval :: earlier
      opened := some
        ⟨boundary, boundary, boundary, List.replicate interval.participants.length moved⟩ }

/-- The window between two boundaries for the current participants. -/
def window (s : Aggregate) (first last : Boundary) : Except Gap Window :=
  Measure.window s.stage (s.intervals.head?.elim [] Interval.participants) first last

def credit (s : Aggregate) (boundary : Boundary) : Aggregate :=
  { s with ledgers := boundary.readings.foldl creditReading s.ledgers }

/-- What `observe` does first. -/
def noted (s : Aggregate) (boundary : Boundary) : Aggregate :=
  { s.credit boundary with latest := some boundary }

/-- Whether a reading has what the stage moves. -/
def completeReading (stage : Stage) (reading : Option Reading) : Bool :=
  reading.any fun reading =>
    (!stage.moves .down || reading.down.isSome) && (!stage.moves .up || reading.up.isSome)

/-- Whether `observe` takes the boundary: the participants' readings have what the stage moves. -/
def takes (stage : Stage) (participants : List ServerId) (boundary : Boundary) : Bool :=
  !participants.isEmpty && participants.all fun id => completeReading stage (boundary.reading id)

/-- The end of `observe`: the interval's window now reaches `boundary`. -/
def extend (s : Aggregate) (interval : Interval) (earlier : List Interval) (o : Open)
    (boundary : Boundary) (sample full : Window) : Aggregate :=
  let peak := (s.window o.peakFrom boundary).toOption.filter fun w => minPeak ≤ w.shortest
  let interval : Interval :=
    { interval with
      end_ := boundary.at_
      window := some full
      peaks := peak.elim interval.peaks interval.peaks.record }
  let mark := Mark.of boundary interval
  { s with
    intervals := interval :: earlier
    opened := some
      { o with
        last := boundary
        peakFrom := if peak.isSome then boundary else o.peakFrom
        moved := markMoved mark .up (markMoved mark .down o.moved sample.components.down)
          sample.components.up }
    log := s.log ++ [.accepted s.begun sample] }

/-- The body of `observe`, with what it calls to resume. -/
def observeBody (resume : Aggregate → Boundary → Option (Option Window × Aggregate))
    (s : Aggregate) (boundary : Boundary) : Option (Option Window × Aggregate) :=
  let s := s.noted boundary
  if s.opened.isSome ∧ boundary.stalled then resume s boundary
  else
    match s.intervals with
    | [] => some (none, s)
    | interval :: earlier =>
      if takes s.stage interval.participants boundary then
        match s.opened with
        | none => some (none, s.start boundary)
        | some o =>
          match s.window o.last boundary with
          | .error .broken => resume s boundary
          | .error .stale => some (none, s)
          | .ok sample =>
            if boundary.last = false ∨ sample.all.all fun component => 0 < component.bytes then
              match s.window o.first boundary with
              | .error _ => resume s boundary
              | .ok full => some (some sample, s.extend interval earlier o boundary sample full)
            else some (none, s)
      else some (none, s)

/-- Closes the interval as no longer counting and starts an evidence-resumed one at `boundary`. -/
def resumed (s : Aggregate) (boundary : Boundary) : Option Aggregate :=
  match s.intervals with
  | [] => none
  | interval :: earlier =>
    some (restart { s with intervals := { interval with complete := false } :: earlier }
      .evidenceResumed interval.participants boundary.at_)

/-- `observe` with at most `depth` calls of `resume` nested in one another, `none` where it would
make another. -/
def observeWithin : ℕ → Aggregate → Boundary → Option (Option Window × Aggregate)
  | 0 => observeBody fun _ _ => none
  | depth + 1 => observeBody fun s boundary =>
    match s.resumed boundary with
    | none => some (none, s)
    | some s => observeWithin depth s boundary

/-- Credits `boundary` and returns the window since the previous one, if it adds one. -/
def observe (s : Aggregate) (boundary : Boundary) : Option Window × Aggregate :=
  (observeWithin 1 s boundary).getD (none, s)

/-- The mark a dropout ends the interval at: the earliest last move of a departed server. -/
def departure (s : Aggregate) (participants survivors : List ServerId) : Option Mark :=
  let moved := s.opened.elim [] Open.moved
  let departed := (participants.zip moved).filter fun p => p.1 ∉ survivors
  let marks := departed.flatMap fun p => p.2.down.toList ++ p.2.up.toList
  marks.argmin fun mark => mark.boundary.at_

/-- Ends the interval at a mark. -/
def cut (s : Aggregate) (interval : Interval) (earlier : List Interval) (mark : Mark) : Aggregate :=
  { s with
    intervals :=
      { interval with
        end_ := mark.boundary.at_, window := mark.window, peaks := mark.peaks } :: earlier }

/-- Ends the interval at the earliest last move of a departed server; the survivors' dropout
interval starts there. -/
def dropout (s : Aggregate) (survivors : List ServerId) (at_ : ℕ) : Aggregate :=
  match s.intervals with
  | [] => s
  | interval :: earlier =>
    if survivors.length = interval.participants.length then s
    else
      match s.departure interval.participants survivors with
      | none => if survivors = [] then s else s.restart .dropout survivors at_
      | some mark =>
        let s := s.cut interval earlier mark
        if survivors = [] then s
        else
          let s := (s.restart .dropout survivors mark.boundary.at_).start mark.boundary
          match s.latest.filter fun latest => mark.boundary.at_ < latest.at_ with
          | none => s
          | some latest => (s.observe latest).2

/-! ## Results -/

/-- Every component spans enough time and some moved bytes. -/
def evidence (components : List Component) : Bool :=
  !components.isEmpty && (components.all fun component => minEvidence ≤ component.duration) &&
    components.any fun component => 0 < component.bytes

/-- The headline an interval that counts gives. -/
def headline (direction : Direction) (interval : Interval) : Option Rate :=
  match interval.window with
  | none => none
  | some window =>
    let enough := minEvidence ≤ interval.end_ - interval.start ∧
      evidence (window.components.get direction)
    if interval.complete = true ∧ enough then
      (window.rates.get direction).map fun mean =>
        ⟨mean, max (interval.peaks.combined.get direction) mean⟩
    else none

/-- The headline of the latest counted interval with enough evidence in `direction`. -/
def result (s : Aggregate) (direction : Direction) : Option Rate :=
  s.intervals.findSome? (headline direction)

/-- A server's own headline from an interval that counts. -/
def serverHeadline (server : ServerId) (direction : Direction) (interval : Interval) :
    Option Rate :=
  match interval.window with
  | none => none
  | some window =>
    if interval.complete = true then
      match interval.participants.findIdx? fun id => id = server with
      | none => none
      | some index =>
        match (window.components.get direction)[index]? with
        | none => none
        | some component =>
          let peak := (interval.peaks.servers[index]?).elim 0 fun peaks => peaks.get direction
          if evidence [component] then some ⟨component.rate, max peak component.rate⟩ else none
    else none

/-- `server`'s own headline from its component in the latest counted interval where it has enough
evidence. -/
def server (s : Aggregate) (server : ServerId) (direction : Direction) : Option Rate :=
  s.intervals.findSome? (serverHeadline server direction)

/-- The bytes credited to a server. -/
def bytes (s : Aggregate) (server : ServerId) (direction : Direction) : ℕ :=
  (s.ledgers.find? fun ledger => ledger.server = server).elim 0 fun ledger =>
    ledger.bytes.get direction

/-! ## Calls -/

inductive Call where
  | observe (boundary : Boundary)
  | dropout (survivors : List ServerId) (at_ : ℕ)
deriving DecidableEq, Repr

def call (s : Aggregate) : Call → Aggregate
  | .observe boundary => (s.observe boundary).2
  | .dropout survivors at_ => s.dropout survivors at_

end Aggregate

end GraphiteMeter.Measure
