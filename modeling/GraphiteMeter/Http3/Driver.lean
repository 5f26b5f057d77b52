import GraphiteMeter.Http3.Encode
import GraphiteMeter.Lib.Machine

/-!
# A server's driver: admission of requests and GOAWAY

Reference: `rust/http3/src/driver.rs` (`Control`, `Driver::goaway`, `retire`, `send_goaway`, `shutdown`,
`admit`, `end`).

The driver counts every request stream that arrives, also one it refuses, and `goaway` names the
first that has not arrived. `Agreed` is the invariant of a run: which GOAWAY frames stand on the control
stream, and that a request was handed out exactly when its stream was charged and stands below the
identifier of the final one.
-/

namespace GraphiteMeter.Http3

def Code.h3RequestRejected : Code := ⟨0x10b⟩

/-- The stream of a client's request: its number is a multiple of 4, and one follows that a varint
holds. -/
structure RequestId where
  id : ℕ
  aligned : id % 4 = 0
  below : id < Varint.max - 3
deriving Repr

/-! ## The control stream -/

/-- Our control stream: SETTINGS first, GOAWAY on shutdown. -/
structure Control where
  /-- What the stream has taken. -/
  stream : Bytes
  pending : Bytes
  written : ℕ
  within : written ≤ pending.length
deriving Repr

namespace Control

def new (settings : List (ℕ × ℕ)) : Control :=
  ⟨[], Settings.controlStream settings, 0, Nat.zero_le _⟩

/-- The stream takes up to `count` of the bytes that are queued. -/
def write (c : Control) (count : ℕ) : Control where
  stream := c.stream ++ (c.pending.drop c.written).take count
  pending := c.pending
  written := c.written + ((c.pending.drop c.written).take count).length
  within := by
    have hwithin := c.within
    rw [List.length_take, List.length_drop]
    omega

def clear (c : Control) : Control := ⟨c.stream, [], 0, nothing_within⟩

/-- Writes what is queued. `accepts` are the bytes each write takes; where there is no further one the
stream waits, and what is queued is kept. -/
def poll (c : Control) : List ℕ → Control
  | [] => if c.written < c.pending.length then c else c.clear
  | count :: accepts =>
    if c.written < c.pending.length then (c.write count).poll accepts else c.clear

/-- Queues more. -/
def queue (c : Control) (bytes : Bytes) : Control where
  stream := c.stream
  pending := c.pending ++ bytes
  written := c.written
  within := by
    have hwithin := c.within
    rw [List.length_append]
    omega

/-- The bytes of the stream: those it took, then those that are queued. -/
def bytes (c : Control) : Bytes := c.stream ++ c.pending.drop c.written

@[simp] theorem new_bytes (settings : List (ℕ × ℕ)) :
    (new settings).bytes = Settings.controlStream settings := rfl

@[simp] theorem queue_bytes (c : Control) (bytes : Bytes) :
    (c.queue bytes).bytes = c.bytes ++ bytes := by
  unfold Control.bytes queue
  rw [List.drop_append_of_le_length c.within, List.append_assoc]

/-- Writing keeps the stream's bytes. -/
theorem write_bytes (c : Control) (count : ℕ) : (c.write count).bytes = c.bytes := by
  unfold bytes write
  dsimp only
  rw [← List.drop_drop, List.append_assoc]
  congr 1
  -- what is taken off the queue is what the stream gets
  rw [List.length_take, List.take_eq_take_min, List.take_append_drop]

/-- Clearing what is written keeps the stream's bytes. -/
theorem clear_bytes {c : Control} (h : ¬ c.written < c.pending.length) :
    c.clear.bytes = c.bytes := by
  unfold bytes clear
  rw [List.drop_of_length_le (Nat.not_lt.mp h), List.drop_nil]

/-- However the stream takes them, its bytes are those queued. -/
@[simp] theorem poll_bytes (c : Control) (accepts : List ℕ) : (c.poll accepts).bytes = c.bytes := by
  induction accepts generalizing c with
  | nil =>
    unfold poll
    split
    · rfl
    · rename_i hdone
      exact clear_bytes hdone
  | cons count accepts ih =>
    unfold poll
    split
    · rw [ih, write_bytes]
    · rename_i hdone
      exact clear_bytes hdone

end Control

/-! ## The driver -/

/-- The time a shutdown leaves to what still runs, in nanoseconds. -/
def drainTime : ℕ := 5 * 10 ^ 9

/-- A server's driver, as far as it admits requests and goes away. -/
structure Driver where
  control : Control
  /-- The lowest request stream ID not yet accepted, and the one our GOAWAY named. -/
  nextRequest : ℕ
  goaway : Option ℕ
  drain : Option ℕ
  ended : Bool
deriving Repr

/-- A GOAWAY frame. -/
def goawayFrame (id : ℕ) : Bytes :=
  putHeader FrameType.goaway (Varint.len id) ++ Varint.put id

namespace Driver

def new : Driver := ⟨.new Settings.server, 0, none, none, false⟩

def sendGoaway (d : Driver) (id : ℕ) : Driver :=
  { d with control := d.control.queue (goawayFrame id) }

/-- Sends GOAWAY; later requests are refused, and the connection closes once the others end. -/
def goAway (d : Driver) : Driver :=
  if d.goaway.isNone && !d.ended then
    sendGoaway { d with goaway := some d.nextRequest } d.nextRequest
  else d

/-- A GOAWAY that refuses no request, as it names the highest client request stream ID. -/
def retire (d : Driver) : Driver :=
  if d.goaway.isNone && !d.ended then d.sendGoaway (Varint.max - 3) else d

/-- `goAway`, every session ends with `code` and `reason`, which are returned for the registry of
sessions, and a drain bounds the rest. -/
def shutdown (d : Driver) (now code : ℕ) (reason : String) : Option (ℕ × String) × Driver :=
  let d := d.goAway
  if d.drain.isNone && !d.ended then
    (some (code, reason), { d with drain := some (now + drainTime) })
  else (none, d)

/-- Refused past GOAWAY or over the budget, a new stream gets `H3_REQUEST_REJECTED`. `charged` is
whether the budget holds the stream. -/
def admitStream (d : Driver) (request : RequestId) (charged : Bool) : Except Code ℕ × Driver :=
  let id := request.id
  let d := { d with nextRequest := max d.nextRequest (id + 4) }
  if charged ∧ d.goaway.all (id < ·) then (.ok id, d) else (.error .h3RequestRejected, d)

/-- The connection ended. -/
def finish (d : Driver) : Driver := { d with ended := true }

/-! ## Runs -/

/-- What the connection and the application do with a driver, in any order. -/
inductive Step where
  | admitStream (request : RequestId) (charged : Bool)
  | retire
  | goAway
  | shutdown (now code : ℕ) (reason : String)
  | poll (accepts : List ℕ)
  | finish
deriving Repr

/-- A request stream that arrived: whether the budget held it, and whether it was handed out. -/
structure Arrival where
  id : ℕ
  charged : Bool
  handed : Bool
deriving DecidableEq, Repr

def step (d : Driver) : Step → Option (Driver × List Arrival)
  | .admitStream request charged =>
    let (answer, d) := d.admitStream request charged
    some (d, [⟨request.id, charged, answer.isOk⟩])
  | .retire => some (d.retire, [])
  | .goAway => some (d.goAway, [])
  | .shutdown now code reason => some ((d.shutdown now code reason).2, [])
  | .poll accepts => some ({ d with control := d.control.poll accepts }, [])
  | .finish => some (d.finish, [])

def run (d : Driver) (steps : List Step) : Option (Driver × List Arrival) :=
  Machine.run step d steps

/-! ## What a driver has announced -/

/-- The identifiers of the GOAWAY frames: some that refuse nothing, then the final one. -/
def announced (retired : ℕ) (goaway : Option ℕ) : List ℕ :=
  List.replicate retired (Varint.max - 3) ++ goaway.toList

/-- An identifier a GOAWAY may name. -/
def Nameable (id : ℕ) : Prop := id % 4 = 0 ∧ id ≤ Varint.max - 3

/-- The last request's identifier can be named. -/
theorem nameable_last : Nameable (Varint.max - 3) := ⟨by decide, Nat.le_refl _⟩

/-- **The invariant of a run**: what stands on the control stream, and who was handed out. -/
structure Agreed (log : List Arrival) (d : Driver) : Prop where
  next : Nameable d.nextRequest
  named : ∀ g ∈ d.goaway, Nameable g
  wrote : ∃ retired, d.control.bytes =
    Settings.controlStream Settings.server ++ (announced retired d.goaway).flatMap goawayFrame
  /-- Before the final GOAWAY, it will name what is above every stream that arrived. -/
  before : d.goaway = none → ∀ a ∈ log, a.id < d.nextRequest ∧ a.handed = a.charged
  behind : ∀ g ∈ d.goaway, ∀ a ∈ log, a.handed = (a.charged && decide (a.id < g))

variable {log : List Arrival} {d : Driver}

/-- A new driver has agreed on nothing. -/
theorem agreed_new : Agreed [] new where
  next := ⟨rfl, Nat.zero_le _⟩
  named := nofun
  wrote := ⟨0, (List.append_nil _).symm⟩
  before _ _ hmem := absurd hmem List.not_mem_nil
  behind := nofun

/-- The control stream may take bytes, and the drain and the end are no matter. -/
theorem Agreed.frame (h : Agreed log d) {d' : Driver} (hnext : d'.nextRequest = d.nextRequest)
    (hgoaway : d'.goaway = d.goaway) (hbytes : d'.control.bytes = d.control.bytes) :
    Agreed log d' where
  next := hnext ▸ h.next
  named := hgoaway ▸ h.named
  wrote := by
    rw [hbytes, hgoaway]
    exact h.wrote
  before := by
    rw [hnext, hgoaway]
    exact h.before
  behind := hgoaway ▸ h.behind

/-- Retiring a request keeps what was agreed. -/
theorem Agreed.retire (h : Agreed log d) : Agreed log d.retire := by
  unfold Driver.retire
  split
  · rename_i hopen
    have hnone : d.goaway = none := by
      rw [Bool.and_eq_true, Option.isNone_iff_eq_none] at hopen
      exact hopen.1
    obtain ⟨retired, hwrote⟩ := h.wrote
    refine ⟨h.next, h.named, ⟨retired + 1, ?_⟩, h.before, h.behind⟩
    -- one more that refuses nothing
    unfold sendGoaway announced
    rw [Control.queue_bytes, hwrote, announced, hnone, Option.toList_none, List.append_nil,
      List.append_nil, List.replicate_succ', List.flatMap_append, List.flatMap_singleton,
      List.append_assoc]
  · exact h

/-- Announcing the end keeps what was agreed. -/
theorem Agreed.goAway (h : Agreed log d) : Agreed log d.goAway := by
  unfold Driver.goAway
  split
  · rename_i hopen
    have hnone : d.goaway = none := by
      rw [Bool.and_eq_true, Option.isNone_iff_eq_none] at hopen
      exact hopen.1
    obtain ⟨retired, hwrote⟩ := h.wrote
    refine ⟨h.next, ?_, ⟨retired, ?_⟩, nofun, ?_⟩
    · rintro _ ⟨⟩
      exact h.next
    · unfold sendGoaway announced
      rw [Control.queue_bytes, hwrote, announced, hnone, Option.toList_none, List.append_nil,
        Option.toList_some, List.flatMap_append, List.flatMap_singleton, List.append_assoc]
    · rintro _ ⟨⟩ a hmem
      -- every stream that arrived stands below the next
      obtain ⟨hbelow, hhanded⟩ := h.before hnone a hmem
      rw [hhanded, decide_eq_true hbelow, Bool.and_true]
  · exact h

/-- Shutting down keeps what was agreed. -/
theorem Agreed.shutdown (h : Agreed log d) (now code : ℕ) (reason : String) :
    Agreed log (d.shutdown now code reason).2 := by
  unfold Driver.shutdown
  dsimp only
  split
  · exact h.goAway.frame rfl rfl rfl
  · exact h.goAway

/-- What `admitStream` answers: a request where the stream is charged and below the final GOAWAY. -/
theorem admitStream_eq (d : Driver) (request : RequestId) (charged : Bool) :
    (d.admitStream request charged).2 =
        { d with nextRequest := max d.nextRequest (request.id + 4) } ∧
      (d.admitStream request charged).1.isOk =
        (charged && d.goaway.all fun g => decide (request.id < g)) := by
  unfold admitStream
  dsimp only
  by_cases hheld : charged = true ∧ d.goaway.all (fun g => decide (request.id < g)) = true
  · rw [if_pos hheld, hheld.1, hheld.2]
    exact ⟨rfl, rfl⟩
  · rw [if_neg hheld]
    refine ⟨rfl, ?_⟩
    rw [← Bool.and_eq_true, Bool.not_eq_true] at hheld
    rw [hheld]
    rfl

/-- A request is admitted or refused as was agreed. -/
theorem Agreed.admitStream (h : Agreed log d) (request : RequestId) (charged : Bool) :
    Agreed (log ++ [⟨request.id, charged, (d.admitStream request charged).1.isOk⟩])
      (d.admitStream request charged).2 := by
  obtain ⟨hstate, hanswer⟩ := admitStream_eq d request charged
  rw [hstate, hanswer]
  have halign := request.aligned
  have hbelow := request.below
  obtain ⟨hnext, hle⟩ := h.next
  refine ⟨?_, h.named, h.wrote, ?_, ?_⟩
  · show max d.nextRequest (request.id + 4) % 4 = 0 ∧ max d.nextRequest (request.id + 4) ≤ _
    have hlast : (Varint.max - 3) % 4 = 0 := nameable_last.1
    omega
  · intro hnone a hmem
    have hnone' : d.goaway = none := hnone
    show a.id < max d.nextRequest (request.id + 4) ∧ _
    rcases List.mem_append.mp hmem with hmem | hmem
    · obtain ⟨hlt, hhanded⟩ := h.before hnone' a hmem
      exact ⟨by omega, hhanded⟩
    · rw [List.mem_singleton.mp hmem]
      refine ⟨by dsimp only; omega, ?_⟩
      rw [hnone', Option.all_none, Bool.and_true]
  · intro g hg a hmem
    have hg' : d.goaway = some g := hg
    rcases List.mem_append.mp hmem with hmem | hmem
    · exact h.behind g hg a hmem
    · rw [List.mem_singleton.mp hmem, hg', Option.all_some]

/-- **One step keeps the invariant.** -/
theorem Agreed.step (h : Agreed log d) {a : Step} {d' : Driver} {events : List Arrival}
    (hstep : d.step a = some (d', events)) : Agreed (log ++ events) d' := by
  unfold Driver.step at hstep
  cases a with
  | admitStream request charged =>
    cases hstep
    exact h.admitStream request charged
  | retire =>
    cases hstep
    rw [List.append_nil]
    exact h.retire
  | goAway =>
    cases hstep
    rw [List.append_nil]
    exact h.goAway
  | shutdown now code reason =>
    cases hstep
    rw [List.append_nil]
    exact h.shutdown now code reason
  | poll accepts =>
    cases hstep
    rw [List.append_nil]
    exact h.frame rfl rfl (Control.poll_bytes _ _)
  | finish =>
    cases hstep
    rw [List.append_nil]
    exact h.frame rfl rfl rfl

/-- **So does a run.** -/
theorem agreed_of_run {steps : List Step} (h : run new steps = some (d, log)) : Agreed log d := by
  have hrun := Machine.run_induct Agreed (fun _ _ _ _ _ hagreed hstep => hagreed.step hstep)
    agreed_new h
  rw [List.nil_append] at hrun
  exact hrun

/-- The identifiers fall, and each may be named. -/
theorem Agreed.announced_falls (h : Agreed log d) (retired : ℕ) :
    (∀ id ∈ announced retired d.goaway, Nameable id) ∧
      (announced retired d.goaway).Pairwise (· ≥ ·) := by
  unfold announced
  constructor
  · intro id hmem
    rcases List.mem_append.mp hmem with hmem | hmem
    · rw [List.eq_of_mem_replicate hmem]
      exact nameable_last
    · exact h.named id (Option.mem_toList.mp hmem)
  · rw [List.pairwise_append]
    refine ⟨List.pairwise_replicate.mpr (.inr (Nat.le_refl _)), ?_, ?_⟩
    · cases d.goaway <;> simp
    · intro id hid g hg
      rw [List.eq_of_mem_replicate hid]
      exact (h.named g (Option.mem_toList.mp hg)).2

end Driver

end GraphiteMeter.Http3
