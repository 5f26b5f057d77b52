import GraphiteMeter.Proto.Counters
import GraphiteMeter.Server.Peer

/-!
# Upload aggregates

Reference: `rust/server/src/engine/uploads.rs` (`Aggregate`, `Life`, `Phase`),
`rust/server/src/engine/mod.rs` (`UploadSink`, `ProgressFeed`) and `rust/proto/src/upload.rs`
(`Record`).

Instants are nanoseconds since the store was made, so the store clock is an instant that stays at
`2^64 - 1`. The functions here are what one holder of the aggregate's `life` lock, or one atomic
operation, does.
-/

namespace GraphiteMeter.Server

/-- Why a server refused a request. -/
inductive Refusal where
  | invalid
  | ownerMismatch
  | idle
  | revoked
  | clientLimit
  | serverCapacity
  | wrongProtocol
deriving DecidableEq, Repr

namespace Upload

open Proto (Counters)

/-- The store clock at an instant. -/
def clockNow (t : ℕ) : ℕ := Word.saturate t

/-! ## Records -/

inductive Record where
  /-- The feed is attached; this proves no delivery. -/
  | ready
  | progress (counters : Counters)
  /-- The final observation, after finalization and lane drain. -/
  | complete (counters : Counters)
  | error (refusal : Refusal)
deriving DecidableEq, Repr

/-! ## The aggregate -/

/-- Where an upload is: taking lanes, finalized, or expired, which ends a finalized one too. -/
inductive Phase where
  | open
  | finished
  | expired
deriving DecidableEq, Repr

structure Life where
  lanes : ℕ
  touched : ℕ
  phase : Phase
  reader : ℕ
deriving DecidableEq, Repr

/-- One upload ID's receiver: the bytes of all its lanes and the time since its first chunk. -/
structure Aggregate where
  owner : ClientKey
  bytes : ℕ
  first : Option ℕ
  life : Life
deriving DecidableEq, Repr

namespace Aggregate

/-- `record` before its addition: the first chunk sets the receiver's time. -/
def recordFirst (a : Aggregate) (now : ℕ) : Aggregate :=
  { a with first := some (a.first.getD (clockNow now)) }

/-- `record`'s addition to the 64-bit counter. -/
def recordBytes (a : Aggregate) (bytes : ℕ) : Aggregate :=
  { a with bytes := Word.wrappingAdd a.bytes bytes }

def counters (a : Aggregate) (now : ℕ) : Counters :=
  Counters.new a.bytes (a.first.elim 0 fun first => clockNow now - first)

/-- A lane left: retention starts again from now. `none` where the count of lanes underflows. -/
def leave (a : Aggregate) (now : ℕ) : Option Aggregate :=
  if a.life.lanes = 0 then none
  else some { a with life := { a.life with lanes := a.life.lanes - 1, touched := now } }

def join (a : Aggregate) (now : ℕ) : Except Refusal Aggregate :=
  if a.life.phase ≠ .open then .error .invalid
  else .ok { a with life := { a.life with lanes := a.life.lanes + 1, touched := now } }

/-- Joining takes an open aggregate. -/
theorem join_eq_ok {a a' : Aggregate} {now : ℕ} (h : a.join now = .ok a') :
    a.life.phase = .open ∧
      a' = { a with life := { a.life with lanes := a.life.lanes + 1, touched := now } } := by
  rw [join] at h
  split_ifs at h with hopen
  cases h
  exact ⟨not_not.mp hopen, rfl⟩

/-- A lane that leaves was there, and touches the aggregate. -/
theorem leave_eq_some {a a' : Aggregate} {now : ℕ} (h : a.leave now = some a') :
    a.life.lanes ≠ 0 ∧
      a' = { a with life := { a.life with lanes := a.life.lanes - 1, touched := now } } := by
  rw [leave] at h
  split_ifs at h with hlanes
  cases h
  exact ⟨hlanes, rfl⟩

def expire (a : Aggregate) : Aggregate := { a with life := { a.life with phase := .expired } }

/-- What `finish` does to the aggregate it reached. -/
def finalize (a : Aggregate) : Aggregate :=
  if a.life.phase = .open then { a with life := { a.life with phase := .finished } } else a

/-- What `subscribe` does to the aggregate it reached: the newest reader replaces the others. -/
def attach (a : Aggregate) : Aggregate :=
  { a with life := { a.life with reader := a.life.reader + 1 } }

end Aggregate

/-- A joined data lane; dropping it leaves the aggregate. -/
structure UploadSink where
  aggregate : ℕ
  bytes : ℕ
  /-- The bytes of a `record` that has not added them yet. -/
  recording : Option ℕ
deriving DecidableEq, Repr

/-! ## The progress feed -/

/-- One reader's lines, from `ready` to `complete` or an `error`. -/
structure ProgressFeed where
  aggregate : ℕ
  reader : ℕ
  ready : Bool
  ended : Bool
deriving DecidableEq, Repr

inductive FeedStep where
  | wait
  | line (record : Record)
  | last (record : Record)
  | superseded
deriving DecidableEq, Repr

namespace ProgressFeed

/-- One look at the aggregate, its `life` locked. -/
def step (feed : ProgressFeed) (a : Aggregate) (ticked : Bool) (now : ℕ) :
    FeedStep × ProgressFeed :=
  if a.life.reader ≠ feed.reader then (.superseded, feed)
  else if a.life.phase = .expired then (.last (.error .invalid), feed)
  else if feed.ready = false then (.line .ready, { feed with ready := true })
  else
    let counters := a.counters now
    match a.life.phase with
    | .finished => (if a.life.lanes = 0 then .last (.complete counters) else .wait, feed)
    | .open => (if ticked ∧ 0 < counters.nanos then .line (.progress counters) else .wait, feed)
    | .expired => (.wait, feed)

/-- The line a step gives, and the feed after it: the last line and a newer reader end it. -/
def next (feed : ProgressFeed) (a : Aggregate) (ticked : Bool) (now : ℕ) :
    Option Record × ProgressFeed :=
  match feed.step a ticked now with
  | (.wait, feed) => (none, feed)
  | (.line record, feed) => (some record, feed)
  | (.last record, feed) => (some record, { feed with ended := true })
  | (.superseded, feed) => (none, { feed with ended := true })

/-- What one look gives: another record, nothing, or the last count of a finished upload whose lanes
have left. The feed stays with its aggregate. -/
theorem step_cases (feed : ProgressFeed) (a : Aggregate) (ticked : Bool) (now : ℕ) :
    (feed.step a ticked now).2.aggregate = feed.aggregate ∧
      ((∀ counters, (feed.step a ticked now).1 ≠ .last (.complete counters) ∧
          (feed.step a ticked now).1 ≠ .line (.complete counters)) ∨
        (feed.step a ticked now).1 = .last (.complete (a.counters now)) ∧
          a.life.phase = .finished ∧ a.life.lanes = 0) := by
  rw [step]
  by_cases hreader : a.life.reader ≠ feed.reader
  · simp [hreader]
  by_cases hexpired : a.life.phase = .expired
  · simp [hreader, hexpired]
  by_cases hready : feed.ready = false
  · simp [hreader, hexpired, hready]
  rw [if_neg hreader, if_neg hexpired, if_neg hready]
  match hphase : a.life.phase with
  | .open =>
    refine ⟨rfl, .inl fun counters => ?_⟩
    simp only
    split_ifs <;> simp
  | .finished =>
    refine ⟨rfl, ?_⟩
    simp only
    split_ifs with hlanes
    · exact .inr ⟨rfl, trivial, hlanes⟩
    · simp
  | .expired => exact absurd hphase hexpired

/-- A feed stays with its aggregate. -/
theorem next_aggregate (feed : ProgressFeed) (a : Aggregate) (ticked : Bool) (now : ℕ) :
    (feed.next a ticked now).2.aggregate = feed.aggregate := by
  have hstep := (step_cases feed a ticked now).1
  rw [next]
  split <;> simpa [*] using hstep

/-- **When a feed completes**: the upload is finished, and its last lane has left. -/
theorem next_eq_complete {feed : ProgressFeed} {a : Aggregate} {ticked : Bool} {now : ℕ}
    {counters : Counters} (h : (feed.next a ticked now).1 = some (.complete counters)) :
    a.life.phase = .finished ∧ a.life.lanes = 0 ∧ counters = a.counters now := by
  obtain ⟨-, hother | ⟨hlast, hphase, hlanes⟩⟩ := step_cases feed a ticked now
  · rw [next] at h
    obtain ⟨hlast, hline⟩ := hother counters
    split at h
    case h_1 => cases h
    case h_2 record after heq =>
      rw [heq] at hline
      cases h
      exact absurd rfl hline
    case h_3 record after heq =>
      rw [heq] at hlast
      cases h
      exact absurd rfl hlast
    case h_4 => cases h
  · refine ⟨hphase, hlanes, ?_⟩
    match hstep : feed.step a ticked now with
    | (look, after) =>
      rw [hstep] at hlast
      simp only at hlast
      subst hlast
      rw [next, hstep] at h
      cases h
      rfl

end ProgressFeed

end Upload

end GraphiteMeter.Server
