import GraphiteMeter.Measure.Aggregate

/-!
# The browser's aggregate

Reference: `client/src/engine/measure/aggregate.ts`, with early finish off, so no steady window is
tracked and a record's headline is its full window. Byte totals and the rate series are left out.

Times are exact milliseconds. A record of counters is a function of the server, `none` where the
entry is absent, null or not finite. The intervals stand the latest first. `#closed` finds every kept
record's `Open` by its id; of it only the peaks are read, so they stand in the record. `limit` is
`INTERVAL_LIMIT`, and `none` is the same code that never lets one go.
-/

namespace GraphiteMeter.Measure.Browser

/-- Evidence must span this long on the client clock and on every receiver clock. -/
def minEvidenceMs : ℚ := 800

def peakWindowMs : ℚ := 500

def intervalLimit : ℕ := 128

/-- The key of all servers together. -/
def combined : String := ""

structure Checkpoint where
  id : String
  bytes : ℕ
  nanos : ℕ
deriving DecidableEq, Repr

/-- One instant across the participants: download counters and the latest receiver checkpoints. -/
structure Boundary where
  atMs : ℚ
  down : ServerId → Option ℕ
  up : ServerId → Option Checkpoint

/-- One server's share of a window, on the clock its evidence comes from. -/
structure ComponentWindow where
  serverId : ServerId
  bytes : ℕ
  durationMs : ℚ
  bytesPerSec : ℚ
deriving DecidableEq, Repr

/-- `down` and `up`, and `downBytesPerSec` and `upBytesPerSec`, are null where a stage does not move
the direction. -/
structure AggregateWindow where
  startMs : ℚ
  endMs : ℚ
  components : Dir (Option (List ComponentWindow))
  bytesPerSec : Dir (Option ℚ)
deriving DecidableEq, Repr

abbrev Peaks := String → Dir ℚ

structure Interval where
  id : ℕ
  stage : Stage
  participants : List ServerId
  startMs : ℚ
  endMs : ℚ
  /-- False once a replaced receiver or a regressed counter cut it short. -/
  complete : Bool
  reason : Reason
  full : Option AggregateWindow
  peaks : Peaks

/-- Where a server last moved a direction: enough to end the interval there if it departs. -/
structure Mark where
  boundary : Boundary
  full : Option AggregateWindow
  peaks : Peaks

/-- A result kept from an interval the log let go: what a stage or a server measured stays
measured. -/
structure Kept where
  window : Option AggregateWindow
  bytesPerSec : ℚ
  peakBytesPerSec : ℚ
deriving DecidableEq, Repr

structure Open where
  first : Option Boundary
  last : Option Boundary
  peakFrom : Option Boundary
  /-- The map's keys are the participants. -/
  moved : ServerId → Dir (Option Mark)
  /-- The time of the mark whose peaks the interval took over, and shares from then on. -/
  shares : Option ℚ

/-- A stage's direction, or one server's share of it. -/
structure Key where
  stage : Stage
  direction : Direction
  server : Option ServerId
deriving DecidableEq, Repr

structure Aggregate where
  limit : Option ℕ
  intervals : List Interval
  omittedIntervals : ℕ
  opened : Option Open
  latest : Option (Boundary × Bool)
  kept : Key → Option Kept

def directions : Stage → List Direction
  | .bidirectional => [.down, .up]
  | .download => [.down]
  | _ => [.up]

/-! ## Windows -/

/-- One participant's component of a window. -/
def componentOf (first last : Boundary) (dir : Direction) (id : ServerId) : Option ComponentWindow :=
  match dir with
  | .down =>
    match first.down id, last.down id with
    | some startBytes, some endBytes =>
      if startBytes ≤ endBytes then
        let durationMs := last.atMs - first.atMs
        let bytes := endBytes - startBytes
        some ⟨id, bytes, durationMs, bytes * 1000 / durationMs⟩
      else none
    | _, _ => none
  | .up =>
    match first.up id, last.up id with
    | some a, some b =>
      if a.id ≠ b.id ∨ b.bytes < a.bytes ∨ b.nanos ≤ a.nanos then none
      else
        let durationMs : ℚ := ((b.nanos - a.nanos : ℕ) : ℚ) / 10 ^ 6
        let bytes := b.bytes - a.bytes
        some ⟨id, bytes, durationMs, bytes * 1000 / durationMs⟩
    | _, _ => none

/-- The participants' components, up to the first there is none of. -/
def componentsOf (first last : Boundary) (dir : Direction) :
    List ServerId → Option (List ComponentWindow)
  | [] => some []
  | id :: ids =>
    match componentOf first last dir id with
    | none => none
    | some component =>
      match componentsOf first last dir ids with
      | none => none
      | some components => some (component :: components)

/-- The directions' components and rates, in order. -/
def fill (first last : Boundary) (participants : List ServerId) :
    List Direction → AggregateWindow → Option AggregateWindow
  | [], result => some result
  | dir :: dirs, result =>
    match componentsOf first last dir participants with
    | none => none
    | some components =>
      let sum := (components.map ComponentWindow.bytesPerSec).sum
      fill first last participants dirs
        { result with
          components := result.components.set dir (some components)
          bytesPerSec := result.bytesPerSec.set dir (some sum) }

def window (first last : Boundary) (stage : Stage) (participants : List ServerId) :
    Option AggregateWindow :=
  if last.atMs ≤ first.atMs then none
  else
    fill first last participants (directions stage)
      ⟨first.atMs, last.atMs, ⟨none, none⟩, ⟨none, none⟩⟩

def shortestMs (window : AggregateWindow) : ℚ :=
  ((window.components.up.getD []).map ComponentWindow.durationMs).foldl min
    (window.endMs - window.startMs)

def raise (peaks : Peaks) (id : String) (dir : Direction) (rate : ℚ) : Peaks :=
  Function.update peaks id ((peaks id).set dir (max ((peaks id).get dir) rate))

/-- Raises the peaks to a window's rates. -/
def raiseAll (peaks : Peaks) (span : AggregateWindow) (dirs : List Direction) : Peaks :=
  dirs.foldl (fun peaks dir =>
    ((span.components.get dir).getD []).foldl (fun peaks c => raise peaks c.serverId dir c.bytesPerSec)
      (raise peaks combined dir ((span.bytesPerSec.get dir).getD 0))) peaks

/-- Whether a window spans the evidence floor on the client clock and on every receiver clock of
`dir`. -/
def sufficient (window : AggregateWindow) (dir : Direction) : Bool :=
  minEvidenceMs ≤ window.endMs - window.startMs ∧
    ((window.components.get dir).getD []).all fun c => minEvidenceMs ≤ c.durationMs

/-! ## Results of one interval -/

structure ThroughputResult where
  peakBytesPerSec : ℚ
  reportedBytesPerSec : ℚ
deriving DecidableEq, Repr

structure Headline where
  result : ThroughputResult
  window : AggregateWindow
deriving DecidableEq, Repr

/-- The headline of a complete interval with enough evidence. -/
def headline (dir : Direction) (record : Interval) : Option Headline :=
  match record.full with
  | none => none
  | some full =>
    if record.complete = true then
      match full.bytesPerSec.get dir with
      | none => none
      | some rate =>
        if rate ≠ 0 ∧ sufficient full dir then
          some ⟨⟨max ((record.peaks combined).get dir) rate, rate⟩, full⟩
        else none
    else none

/-- One server's share of a complete interval where its own component has enough evidence. -/
def serverHeadline (id : ServerId) (dir : Direction) (record : Interval) : Option ThroughputResult :=
  if record.complete = true then
    match record.full.bind fun full => full.components.get dir with
    | none => none
    | some components =>
      match components.find? fun c => c.serverId = id with
      | none => none
      | some component =>
        if component.bytes ≠ 0 ∧ minEvidenceMs ≤ component.durationMs then
          some ⟨max ((record.peaks id).get dir) component.bytesPerSec, component.bytesPerSec⟩
        else none
  else none

namespace Aggregate

def newWith (limit : Option ℕ) : Aggregate := ⟨limit, [], 0, none, none, fun _ => none⟩

def new : Aggregate := newWith (some intervalLimit)

/-! ## Keeping -/

/-- Keeps a server's share of an evicted interval. -/
def keepComponent (stage : Stage) (dir : Direction) (peaks : Peaks) (kept : Key → Option Kept)
    (c : ComponentWindow) : Key → Option Kept :=
  if c.bytes ≠ 0 ∧ minEvidenceMs ≤ c.durationMs then
    Function.update kept ⟨stage, dir, some c.serverId⟩
      (some ⟨none, c.bytesPerSec, max ((peaks c.serverId).get dir) c.bytesPerSec⟩)
  else kept

/-- Keeps what an evicted interval measured in one direction. -/
def keepDirection (record : Interval) (full : AggregateWindow) (kept : Key → Option Kept)
    (dir : Direction) : Key → Option Kept :=
  let rate := (full.bytesPerSec.get dir).getD 0
  let kept :=
    if rate ≠ 0 ∧ sufficient full dir then
      Function.update kept ⟨record.stage, dir, none⟩
        (some ⟨some full, rate, max ((record.peaks combined).get dir) rate⟩)
    else kept
  ((full.components.get dir).getD []).foldl (keepComponent record.stage dir record.peaks) kept

/-- Keeps what an evicted interval measured where nothing later did. -/
def keep (kept : Key → Option Kept) (record : Interval) : Key → Option Kept :=
  match record.full with
  | none => kept
  | some full =>
    if record.complete = true then
      (directions record.stage).foldl (keepDirection record full) kept
    else kept

/-! ## Intervals -/

def begin (s : Aggregate) (stage : Stage) (participants : List ServerId) (atMs : ℚ)
    (reason : Reason) : Aggregate :=
  let s := { s with latest := if reason = Reason.stageStart then none else s.latest }
  let s :=
    if s.limit.any fun limit => limit ≤ s.intervals.length then
      { s with
        intervals := s.intervals.dropLast
        kept := s.intervals.getLast?.elim s.kept (keep s.kept)
        omittedIntervals := s.omittedIntervals + 1 }
    else s
  { s with
    intervals :=
      ⟨s.omittedIntervals + s.intervals.length, stage, participants, atMs, atMs, true, reason, none,
        fun _ => ⟨0, 0⟩⟩ :: s.intervals
    opened := some ⟨none, none, none, fun _ => ⟨none, none⟩, none⟩ }

/-- Starts the interval at `boundary`. -/
def start (s : Aggregate) (record : Interval) (earlier : List Interval) (boundary : Boundary) :
    Aggregate :=
  let mark : Mark := ⟨boundary, record.full, record.peaks⟩
  let dirs := directions record.stage
  { s with
    intervals := { record with startMs := boundary.atMs, endMs := boundary.atMs } :: earlier
    opened := some
      { first := some boundary
        last := some boundary
        peakFrom := some boundary
        moved := fun id =>
          if id ∈ record.participants then
            Dir.ofFn fun dir => if dir ∈ dirs then some mark else none
          else ⟨none, none⟩
        shares := none } }

/-- Marks the servers whose components moved bytes. -/
def markMoved (mark : Mark) (sample : AggregateWindow) (dirs : List Direction)
    (moved : ServerId → Dir (Option Mark)) : ServerId → Dir (Option Mark) := fun id =>
  Dir.ofFn fun dir =>
    if dir ∈ dirs ∧
        ((sample.components.get dir).getD []).any fun c => c.serverId = id ∧ 0 < c.bytes then
      some mark
    else (moved id).get dir

/-- What raising the interval's peaks does to the mark that shares them. -/
def shareRaised (o : Open) (peaks : Peaks) : ServerId → Dir (Option Mark) := fun id =>
  Dir.ofFn fun dir => ((o.moved id).get dir).map fun mark =>
    if o.shares = some mark.boundary.atMs then { mark with peaks } else mark

/-- The end of `observe`: the interval's window now reaches `boundary`, by a step or, without a
`sample`, in the last one's tick. -/
def extend (s : Aggregate) (record : Interval) (earlier : List Interval) (o : Open)
    (boundary : Boundary) (sample : Option AggregateWindow) (full : AggregateWindow) : Aggregate :=
  let dirs := directions record.stage
  match sample with
  | none =>
    { s with
      intervals := { record with full := some full, endMs := boundary.atMs } :: earlier }
  | some sample =>
    let span := (o.peakFrom.bind fun from_ =>
      window from_ boundary record.stage record.participants).filter fun w =>
        peakWindowMs ≤ shortestMs w
    let peaks := span.elim record.peaks fun span => raiseAll record.peaks span dirs
    let mark : Mark := ⟨boundary, some full, peaks⟩
    { s with
      intervals := { record with full := some full, endMs := boundary.atMs, peaks } :: earlier
      opened := some
        { o with
          last := some boundary
          peakFrom := if span.isSome then some boundary else o.peakFrom
          moved := markMoved mark sample dirs (shareRaised o peaks) } }

/-! ## Observing -/

def valid (stage : Stage) (participants : List ServerId) (boundary : Boundary) : Bool :=
  participants ≠ [] ∧ participants.all fun id => (directions stage).all fun dir =>
    match dir with
    | .down => (boundary.down id).isSome
    | .up => (boundary.up id).isSome

/-- Whether a direction stood still; downloads in the last boundary's tick take no time to. -/
def stood (last boundary : Boundary) (id : ServerId) (dir : Direction) : Bool :=
  match dir with
  | .down => last.atMs ≠ boundary.atMs ∧ boundary.down id = last.down id
  | .up =>
    (boundary.up id).map (fun up => (up.id, up.bytes))
      = (last.up id).map fun up => (up.id, up.bytes)

/-- Whether a direction's counters go on from the last boundary's. Every boundary an interval holds
has its participants' readings. -/
def continues (last boundary : Boundary) (id : ServerId) (dir : Direction) : Bool :=
  match dir with
  | .down =>
    match last.down id, boundary.down id with
    | some a, some b => a ≤ b
    | _, _ => false
  | .up =>
    match last.up id, boundary.up id with
    | some a, some b => a.id = b.id ∧ a.bytes ≤ b.bytes ∧ a.nanos ≤ b.nanos
    | _, _ => false

/-- Whether a receiver's clock stands still. -/
def clockStood (last boundary : Boundary) (id : ServerId) : Bool :=
  match last.up id, boundary.up id with
  | some a, some b => a.nanos = b.nanos
  | _, _ => false

/-- The body of `observe`, with what it calls where evidence resumes. -/
def observeBody (again : Aggregate → Boundary → Option (Option AggregateWindow × Aggregate))
    (s : Aggregate) (boundary : Boundary) (final : Bool) :
    Option (Option AggregateWindow × Aggregate) :=
  match s.opened, s.intervals with
  | some o, record :: earlier =>
    let s := { s with latest := some (boundary, final) }
    let dirs := directions record.stage
    if valid record.stage record.participants boundary then
      match o.first, o.last with
      | some first, some last =>
        let sameTick : Bool := boundary.atMs = last.atMs
        -- A final boundary where any direction stood still ends the result at the previous one.
        if final ∧ record.participants.any fun id => dirs.any (stood last boundary id) then
          some (none, s)
        else
          let continuous : Bool :=
            record.participants.all fun id => dirs.all (continues last boundary id)
          let stale : Bool := dirs.contains .up ∧ record.participants.any (clockStood last boundary)
          -- `last` is not `first` where it is later.
          let replaces : Bool :=
            final ∧ continuous ∧ sameTick ∧ ¬ stale ∧ last.atMs ≠ first.atMs
          if continuous ∧ (boundary.atMs ≤ last.atMs ∨ stale) ∧ ¬ replaces then some (none, s)
          else
            let sample :=
              if replaces then none else window last boundary record.stage record.participants
            match window first boundary record.stage record.participants with
            | some full =>
              if sample.isSome ∨ replaces then
                some (sample, s.extend record earlier o boundary sample full)
              else again s boundary
            | none => again s boundary
      | _, _ => some (none, s.start record earlier boundary)
    else some (none, s)
  | _, _ => some (none, s)

/-- A replaced receiver or a regressed counter cannot be spanned. -/
def resumed (s : Aggregate) (boundary : Boundary) : Aggregate :=
  match s.intervals with
  | [] => s
  | record :: earlier =>
    begin
      { s with
        intervals := { record with complete := false, endMs := boundary.atMs } :: earlier }
      record.stage record.participants boundary.atMs .evidenceResumed

/-- `observe` with at most `depth` calls of itself, `none` where it would make another. -/
def observeWithin : ℕ → Aggregate → Boundary → Bool → Option (Option AggregateWindow × Aggregate)
  | 0 => observeBody fun _ _ => none
  | depth + 1 => observeBody fun s boundary => observeWithin depth (s.resumed boundary) boundary false

/-- Adds a boundary and returns the window since the previous one; one missing a component is skipped
and the next spans the gap. -/
def observe (s : Aggregate) (boundary : Boundary) (final : Bool) :
    Option AggregateWindow × Aggregate :=
  (observeWithin 1 s boundary final).getD (none, s)

/-! ## Dropping out -/

/-- The earliest mark, the first of them where several are. -/
def earliest (marks : List Mark) : Option Mark :=
  marks.foldl (fun end_ mark =>
    match end_ with
    | none => some mark
    | some found => if mark.boundary.atMs < found.boundary.atMs then some mark else end_) none

/-- The mark a dropout ends the interval at. -/
def departure (o : Open) (participants survivors : List ServerId) : Option Mark :=
  earliest ((participants.filter fun id => id ∉ survivors).flatMap fun id =>
    (o.moved id).down.toList ++ (o.moved id).up.toList)

/-- Ends the interval at a mark, whose peaks it takes over. -/
def cut (s : Aggregate) (record : Interval) (earlier : List Interval) (o : Open) (mark : Mark) :
    Aggregate :=
  { s with
    intervals :=
      { record with endMs := mark.boundary.atMs, full := mark.full, peaks := mark.peaks } :: earlier
    opened := some { o with shares := some mark.boundary.atMs } }

/-- Starts the interval that has just begun. -/
def startCurrent (s : Aggregate) (boundary : Boundary) : Aggregate :=
  match s.intervals with
  | [] => s
  | record :: earlier => s.start record earlier boundary

/-- Ends the interval where a departed server last moved, so its silence never counts; survivors go
on in a `dropout` interval. -/
def dropout (s : Aggregate) (survivors : List ServerId) (atMs : ℚ) : Aggregate :=
  match s.opened, s.intervals with
  | some o, record :: earlier =>
    if survivors.length = record.participants.length then s
    else
      match departure o record.participants survivors with
      | none =>
        if survivors = [] then s else s.begin record.stage survivors atMs .dropout
      | some mark =>
        let latest := s.latest
        let s := s.cut record earlier o mark
        if survivors = [] then s
        else
          let s := (s.begin record.stage survivors mark.boundary.atMs .dropout).startCurrent
            mark.boundary
          match latest.filter fun latest => mark.boundary.atMs < latest.1.atMs with
          | none => s
          | some latest => (s.observe latest.1 latest.2).2
  | _, _ => s

/-! ## Results -/

/-- Each direction's headline from the latest complete interval with enough evidence, with `stable`
false. -/
def settle (s : Aggregate) (stage : Stage) (dir : Direction) : Option Headline :=
  let intervals := s.intervals.filter fun interval => interval.stage = stage
  if dir ∉ directions stage ∨ intervals.head?.all fun last => last.participants = [] then none
  else
    match intervals.findSome? (headline dir) with
    | some found => some found
    | none =>
      match s.kept ⟨stage, dir, none⟩ with
      | none => none
      | some kept =>
        kept.window.map fun window => ⟨⟨kept.peakBytesPerSec, kept.bytesPerSec⟩, window⟩

/-- One server's share: the latest complete interval where its own component has enough evidence. -/
def serverResult (s : Aggregate) (stage : Stage) (dir : Direction) (id : ServerId) :
    Option ThroughputResult :=
  match (s.intervals.filter fun record => record.stage = stage).findSome? (serverHeadline id dir) with
  | some found => some found
  | none =>
    (s.kept ⟨stage, dir, some id⟩).map fun kept => ⟨kept.peakBytesPerSec, kept.bytesPerSec⟩

/-! ## Calls -/

inductive Call where
  | observe (boundary : Boundary) (final : Bool)
  | dropout (survivors : List ServerId) (atMs : ℚ)

def call (s : Aggregate) : Call → Aggregate
  | .observe boundary final => (s.observe boundary final).2
  | .dropout survivors atMs => s.dropout survivors atMs

/-- A stage as the run measures it: it begins, and then boundaries and dropouts follow. -/
structure StageRun where
  stage : Stage
  participants : List ServerId
  atMs : ℚ
  calls : List Call

def measure (s : Aggregate) (run : StageRun) : Aggregate :=
  run.calls.foldl call (s.begin run.stage run.participants run.atMs .stageStart)

end Aggregate

end GraphiteMeter.Measure.Browser
