import Mathlib.Data.List.MinMax
import GraphiteMeter.Http3.Varint
import GraphiteMeter.Server.Quota
import GraphiteMeter.Server.Upload.Aggregate

/-!
# The upload store

Reference: `rust/server/src/engine/uploads.rs`. Owner-bound minted IDs, displacement before the first
byte, retention. The store's functions run with its entries locked; what the clock showed along the
way is their argument `Readings`.
-/

namespace GraphiteMeter.Server.Upload

open Http3 (Bytes)

/-- Aggregates the server holds at once, finished ones until their retention ends. -/
def maxLive : ℕ := 1000

/-- Aggregates one client's narrowest key holds; each wider key holds twice the one before it. -/
def maxPerClient : ℕ := 32

/-- Two minutes. -/
def idLifetime : ℕ := 120 * 10 ^ 9

/-- An aggregate without lanes is kept this long after its last lane joined or left, so it outlives
its ID. -/
def retention : ℕ := idLifetime

/-- Five seconds. -/
def sweepNanos : ℕ := 5 * 10 ^ 9

/-! ## Upload IDs -/

def idPrefix : Bytes := [0x67, 0x6d, 0x75, 0x5f]

/-- An ID signs its issue time and 16 random bytes. -/
def signedBytes : ℕ := 24

def idBytes : ℕ := signedBytes + 32

/-- An upload ID decoded from its text: issue time and nonce, then their HMAC tag. -/
structure UploadId where
  raw : Bytes
  size : raw.length = idBytes
deriving DecidableEq

/-- What the store takes from elsewhere: URL-safe base64 without padding, and the HMAC-SHA-256 tag of
its key. -/
structure Env where
  encode : Bytes → Bytes
  decode : Bytes → Option Bytes
  sign : Bytes → Bytes
  sign_length : ∀ signed, (sign signed).length = 32

def ofBeBytes (bytes : Bytes) : ℕ := bytes.foldl (fun n b => n * 256 + b.toNat) 0

/-- The eight bytes of a 64-bit number, the highest first. -/
def toBeBytes (n : ℕ) : Bytes := (List.range 8).map fun i => UInt8.ofNat (n >>> (8 * (7 - i)))

namespace UploadId

def parse (env : Env) (text : Bytes) : Option UploadId :=
  if idPrefix.isPrefixOf text then
    let encoded := text.drop idPrefix.length
    if encoded.length = (idBytes * 4 + 2) / 3 then
      match env.decode encoded with
      | none => none
      | some raw => if size : raw.length = idBytes then some ⟨raw, size⟩ else none
    else none
  else none

/-- An ID's text. -/
def text (env : Env) (id : UploadId) : Bytes := idPrefix ++ env.encode id.raw

def issued (id : UploadId) : ℕ := ofBeBytes (id.raw.take 8)

/-- A new ID, which holds no state until a lane or reader uses it. -/
def mint (env : Env) (now : ℕ) (nonce : Bytes) (hnonce : nonce.length = 16) : UploadId where
  raw := toBeBytes (clockNow now) ++ nonce ++ env.sign (toBeBytes (clockNow now) ++ nonce)
  size := by
    rw [List.length_append, List.length_append, env.sign_length, hnonce, toBeBytes, List.length_map,
      List.length_range]
    rfl

/-- Whether the store signed the ID, not longer ago than an ID lives. -/
def valid (env : Env) (id : UploadId) (now : ℕ) : Bool :=
  env.sign (id.raw.take signedBytes) = id.raw.drop signedBytes ∧
    (Word.checkedSub (clockNow now) id.issued).any fun age => age ≤ idLifetime

end UploadId

/-! ## The store -/

structure Entry where
  aggregate : ℕ
  capacity : Hold
deriving DecidableEq, Repr

structure Store where
  /-- Every aggregate made so far, by where it is shared from. -/
  heap : ℕ → Aggregate
  /-- Where the next aggregate goes. -/
  size : ℕ
  live : HashMap UploadId Entry
  /-- Displaced IDs, refused until they would have expired. -/
  tombstones : HashMap UploadId ℕ
  /-- The store clock at the next sweep. -/
  nextSweep : ℕ
  capacity : Quota

/-- What the clock showed while the entries were locked: when they were entered, swept, the ID was
checked, an aggregate displaced and a lane or an aggregate touched. -/
structure Readings where
  entered : ℕ
  swept : ℕ
  checked : ℕ
  displaced : ℕ
  touched : ℕ
  swept_le : entered ≤ swept
  checked_le : swept ≤ checked
  displaced_le : checked ≤ displaced
  touched_le : displaced ≤ touched

namespace Readings

/-- A clock that stood still. -/
def still (t : ℕ) : Readings := ⟨t, t, t, t, t, le_rfl, le_rfl, le_rfl, le_rfl⟩

end Readings

inductive Reach where
  /-- A data lane, which may create the aggregate. -/
  | join
  /-- A progress reader, which may create it. -/
  | watch
  /-- A checkpoint or finish, which needs it to exist. -/
  | read
deriving DecidableEq, Repr

def Refusal.ofFull : Full → Refusal
  | .client => .clientLimit
  | .total => .serverCapacity

namespace Store

/-- An aggregate nothing refers to. -/
def blank : Aggregate := ⟨.lease 0, 0, none, ⟨0, 0, .open, 0⟩⟩

def new : Store where
  heap := fun _ => blank
  size := 0
  live := ∅
  tombstones := ∅
  nextSweep := sweepNanos
  capacity := Quota.new maxLive maxPerClient

/-- Changes one aggregate. -/
def set (s : Store) (ref : ℕ) (a : Aggregate) : Store :=
  { s with heap := Function.update s.heap ref a }

@[simp] theorem set_size (s : Store) (ref : ℕ) (a : Aggregate) : (s.set ref a).size = s.size := rfl

/-! ### Sweeping and displacing -/

/-- Whether a sweep at `now` keeps an aggregate: it has lanes, or retention covers it. -/
def kept (s : Store) (now : ℕ) (entry : Entry) : Bool :=
  let life := (s.heap entry.aggregate).life
  0 < life.lanes ∨ now - life.touched ≤ retention

/-- Forgets the tombstones whose time is over and expires what retention no longer covers. -/
def sweepEntries (s : Store) (now : ℕ) : Store :=
  let dropped := s.live.entries.filter fun e => !s.kept now e.2
  { s with
    tombstones := s.tombstones.retain fun _ until_ => now ≤ until_
    live := s.live.retain fun _ entry => s.kept now entry
    heap := fun ref =>
      if dropped.any fun e => e.2.aggregate = ref then (s.heap ref).expire else s.heap ref
    capacity := dropped.foldl (fun quota e => quota.release e.2.capacity) s.capacity }

/-- No lanes, bytes or finish: what may be displaced. -/
def empty (s : Store) (entry : Entry) : Bool :=
  let a := s.heap entry.aggregate
  a.life.lanes = 0 ∧ a.life.phase = .open ∧ a.bytes = 0

/-- The stalest of the empty aggregates, the first of them in the order of iteration. -/
def victim (s : Store) : Option ((_ : UploadId) × Entry) :=
  (s.live.entries.filter fun e => s.empty e.2).argmin fun e => (s.heap e.2.aggregate).life.touched

/-- Expires the stalest empty aggregate, refusing its ID while it could be used. -/
def displace (s : Store) (now : ℕ) : Bool × Store :=
  if maxLive ≤ s.tombstones.len then (false, s)
  else
    match s.victim with
    | none => (false, s)
    | some ⟨id, entry⟩ =>
      (true,
        { s with
          live := s.live.erase id
          heap := Function.update s.heap entry.aggregate (s.heap entry.aggregate).expire
          capacity := s.capacity.release entry.capacity
          tombstones := s.tombstones.insert id (now + idLifetime) })

/-- A share of the capacity, charged to a lease's creator; at the limit an empty aggregate makes
room. -/
def charge (s : Store) (keys : ClientKeys) (now : ℕ) : Except Refusal Hold × Store :=
  match s.capacity.acquire keys.charged 1 with
  | (.ok hold, quota) => (.ok hold, { s with capacity := quota })
  | (.error .client, quota) => (.error (Refusal.ofFull .client), { s with capacity := quota })
  | (.error .total, quota) =>
    match displace { s with capacity := quota } now with
    | (false, s) => (.error (Refusal.ofFull .total), s)
    | (true, s) =>
      match s.capacity.acquire keys.charged 1 with
      | (.ok hold, quota) => (.ok hold, { s with capacity := quota })
      | (.error full, quota) => (.error (Refusal.ofFull full), { s with capacity := quota })

/-! ### Reaching an aggregate -/

/-- Locks the entries, sweeping them first once that is due. -/
def entries (s : Store) (r : Readings) : Store :=
  let now := clockNow r.entered
  if s.nextSweep ≤ now then
    { s.sweepEntries r.swept with nextSweep := Word.wrappingAdd now sweepNanos }
  else s

/-- A fresh aggregate under `id`. -/
def create (s : Store) (id : UploadId) (owner : ClientKey) (hold : Hold) (lanes : ℕ)
    (now : ℕ) : Store :=
  { s with
    heap := Function.update s.heap s.size ⟨owner, 0, none, ⟨lanes, now, .open, 0⟩⟩
    size := s.size + 1
    live := s.live.insert id ⟨s.size, hold⟩ }

@[simp] theorem create_size (s : Store) (id : UploadId) (owner : ClientKey) (hold : Hold)
    (lanes now : ℕ) : (s.create id owner hold lanes now).size = s.size + 1 := rfl

/-- `reach` once the entries are locked. -/
def reachLocked (env : Env) (s : Store) (id : UploadId) (owner : Option ClientKeys) (reach : Reach)
    (r : Readings) : Except Refusal ℕ × Store :=
  let narrowest := owner.bind ClientKeys.narrowest
  match s.live.lookup id with
  | some entry =>
    let a := s.heap entry.aggregate
    if narrowest ≠ some a.owner then (.error .ownerMismatch, s)
    else if reach = .join then
      match a.join r.touched with
      | .error refusal => (.error refusal, s)
      | .ok a => (.ok entry.aggregate, s.set entry.aggregate a)
    else (.ok entry.aggregate, s)
  | none =>
    match owner with
    | none => (.error .invalid, s)
    | some keys =>
      match keys.narrowest with
      | none => (.error .invalid, s)
      | some owner =>
        if reach = .read ∨ id ∈ s.tombstones ∨ id.valid env r.checked = false then
          (.error .invalid, s)
        else
          match s.charge keys r.displaced with
          | (.error refusal, s) => (.error refusal, s)
          | (.ok hold, s) =>
            (.ok s.size, s.create id owner hold (if reach = .join then 1 else 0) r.touched)

def reach (env : Env) (s : Store) (text : Bytes) (owner : Option ClientKeys) (reach : Reach)
    (r : Readings) : Except Refusal ℕ × Store :=
  if reach ≠ .read ∧ owner.bind ClientKeys.narrowest = none then (.error .ownerMismatch, s)
  else
    match UploadId.parse env text with
    | none => (.error .invalid, s)
    | some id => reachLocked env (s.entries r) id owner reach r

/-- Whether `subscribe` would attach the feed, creating and replacing nothing. -/
def watchable (env : Env) (s : Store) (text : Bytes) (owner : Option ClientKeys) (r : Readings) :
    Except Refusal Unit × Store :=
  match owner.bind ClientKeys.narrowest with
  | none => (.error .ownerMismatch, s)
  | some narrowest =>
    match UploadId.parse env text with
    | none => (.error .invalid, s)
    | some id =>
      let s := s.entries r
      match s.live.lookup id with
      | some entry =>
        if (s.heap entry.aggregate).owner ≠ narrowest then (.error .ownerMismatch, s)
        else (.ok (), s)
      | none =>
        if id ∈ s.tombstones ∨ id.valid env r.checked = false then (.error .invalid, s)
        else (.ok (), s)

/-- Expires what retention no longer covers once a sweep is due; `peek` is when that was asked. -/
def sweep (s : Store) (peek : ℕ) (r : Readings) : Store :=
  if s.nextSweep ≤ clockNow peek then s.entries r else s

end Store

end GraphiteMeter.Server.Upload
