import GraphiteMeter.Lib.Machine
import GraphiteMeter.Server.Upload.Reach

/-!
# Uploads at work

Reference: `rust/server/src/engine/uploads.rs` (`begin`, `subscribe`, `checkpoint`, `finish`) and
`rust/server/src/engine/mod.rs` (`UploadSink`, `ProgressFeed::next`).

The store with every lane, feed and call in progress, as a machine. An action is what happens under
one lock or in one atomic operation, so that anything may come between two of them: a call that
reached its aggregate goes on to it in a second action, and `record` sets the first time and adds its
bytes in two.

Only locks order the clock's readings. Sections of the entries lock follow one another, and an
aggregate's `touched` is never set back; other actions may show any time.
-/

namespace GraphiteMeter.Server.Upload

open Http3 (Bytes)
open Proto (Counters)

/-- A call that reached its aggregate and has not locked its life yet. -/
inductive Call where
  | subscribe
  | checkpoint
  | finish
deriving DecidableEq, Repr

structure World where
  store : Store
  sinks : List UploadSink
  feeds : List ProgressFeed
  calls : List (Call × ℕ)
  /-- When the entries were last unlocked. -/
  now : ℕ

inductive Action where
  | mint (now : ℕ) (nonce : Bytes) (hnonce : nonce.length = 16)
  | begin (text : Bytes) (owner : Option ClientKeys) (r : Readings)
  | call (call : Call) (text : Bytes) (owner : Option ClientKeys) (r : Readings)
  /-- The `i`-th call goes on to its aggregate. -/
  | proceed (i : ℕ) (now : ℕ)
  | watchable (text : Bytes) (owner : Option ClientKeys) (r : Readings)
  | sweep (peek : ℕ) (r : Readings)
  /-- A sink's `record` of `bytes` up to its addition. -/
  | record (i : ℕ) (bytes : ℕ) (now : ℕ)
  /-- The addition. -/
  | add (i : ℕ)
  /-- A sink is dropped. -/
  | drop (i : ℕ) (now : ℕ)
  | feed (i : ℕ) (ticked : Bool) (now : ℕ)
  /-- A hash map may come to be iterated in another order. -/
  | rehash (live : HashMap UploadId Entry)

inductive Event where
  | minted (id : UploadId)
  | created (id : UploadId) (ref : ℕ)
  /-- A lane joined the aggregate. -/
  | joined (ref : ℕ)
  /-- A sink of the aggregate recorded so many bytes. -/
  | recorded (ref : ℕ) (bytes : ℕ)
  | observed (ref : ℕ) (counters : Counters)
  | line (ref : ℕ) (record : Record)
deriving DecidableEq

def Call.reach : Call → Reach
  | .subscribe => .watch
  | .checkpoint | .finish => .read

namespace World

def new : World := ⟨Store.new, [], [], [], 0⟩

/-- The aggregate a call made, if it made one. -/
def created (env : Env) (text : Bytes) (before after : Store) : List Event :=
  if before.size < after.size then
    ((UploadId.parse env text).map fun id => Event.created id before.size).toList
  else []

/-- A call goes on to the aggregate it reached. -/
def proceed (w : World) (call : Call) (ref : ℕ) (now : ℕ) : World × List Event :=
  let a := w.store.heap ref
  match call with
  | .finish => ({ w with store := w.store.set ref a.finalize }, [])
  | .checkpoint => (w, [.observed ref (a.counters now)])
  | .subscribe =>
    ({ w with
        store := w.store.set ref a.attach
        feeds := w.feeds ++ [⟨ref, a.attach.life.reader, false, false⟩] }, [])

/-- One action, where it is enabled, with what it logs. -/
def step (env : Env) (w : World) : Action → Option (World × List Event)
  | .mint now nonce hnonce => some (w, [.minted (UploadId.mint env now nonce hnonce)])
  | .begin text owner r =>
    if w.now ≤ r.entered then
      match w.store.reach env text owner .join r with
      | (.error _, store) => some ({ w with store, now := r.touched }, [])
      | (.ok ref, store) =>
        some ({ w with store, sinks := w.sinks ++ [⟨ref, 0, none⟩], now := r.touched },
          created env text w.store store ++ [.joined ref])
    else none
  | .call call text owner r =>
    if w.now ≤ r.entered then
      match w.store.reach env text owner call.reach r with
      | (.error _, store) => some ({ w with store, now := r.touched }, [])
      | (.ok ref, store) =>
        some ({ w with store, calls := w.calls ++ [(call, ref)], now := r.touched },
          created env text w.store store)
    else none
  | .proceed i now =>
    match w.calls[i]? with
    | none => none
    | some (call, ref) => some (proceed { w with calls := w.calls.eraseIdx i } call ref now)
  | .watchable text owner r =>
    if w.now ≤ r.entered then
      some ({ w with store := (w.store.watchable env text owner r).2, now := r.touched }, [])
    else none
  | .sweep peek r =>
    if w.now ≤ r.entered then
      some ({ w with store := w.store.sweep peek r, now := r.touched }, [])
    else none
  | .record i bytes now =>
    match w.sinks[i]? with
    | none => none
    | some sink =>
      if bytes ≠ 0 ∧ sink.recording = none then
        let a := (w.store.heap sink.aggregate).recordFirst now
        some ({ w with
          store := w.store.set sink.aggregate a
          sinks := w.sinks.set i { sink with recording := some bytes } }, [])
      else none
  | .add i =>
    match w.sinks[i]? with
    | none => none
    | some sink =>
      match sink.recording with
      | none => none
      | some bytes =>
        let a := (w.store.heap sink.aggregate).recordBytes bytes
        some ({ w with
          store := w.store.set sink.aggregate a
          sinks := w.sinks.set i { sink with bytes := sink.bytes + bytes, recording := none } },
          [.recorded sink.aggregate bytes])
  | .drop i now =>
    match w.sinks[i]? with
    | none => none
    | some sink =>
      let a := w.store.heap sink.aggregate
      if sink.recording = none ∧ a.life.touched ≤ now then
        match a.leave now with
        | none => none
        | some a =>
          some ({ w with
            store := w.store.set sink.aggregate a
            sinks := w.sinks.eraseIdx i }, [])
      else none
  | .feed i ticked now =>
    match w.feeds[i]? with
    | none => none
    | some feed =>
      if feed.ended then none
      else
        let (line, after) := feed.next (w.store.heap feed.aggregate) ticked now
        some ({ w with feeds := w.feeds.set i after },
          line.toList.map (Event.line feed.aggregate))
  | .rehash live =>
    if live.entries.Perm w.store.live.entries then
      some ({ w with store := { w.store with live := live } }, [])
    else none

/-- Everything an action can do. -/
inductive Stepped (env : Env) (w : World) : World → List Event → Prop
  | minted (id : UploadId) : Stepped env w w [.minted id]
  | entered (store : Store) (r : Readings) (hle : w.now ≤ r.entered)
      (hstore : store = w.store ∨ store = w.store.entries r) :
      Stepped env w { w with store, now := r.touched } []
  | refused (text : Bytes) (owner : Option ClientKeys) (reach : Reach) (r : Readings)
      (refusal : Refusal) (store : Store) (hle : w.now ≤ r.entered)
      (hreach : w.store.reach env text owner reach r = (.error refusal, store)) :
      Stepped env w { w with store, now := r.touched } []
  | began (text : Bytes) (owner : Option ClientKeys) (r : Readings) (ref : ℕ) (store : Store)
      (hle : w.now ≤ r.entered)
      (hreach : w.store.reach env text owner .join r = (.ok ref, store)) :
      Stepped env w { w with store, sinks := w.sinks ++ [⟨ref, 0, none⟩], now := r.touched }
        (created env text w.store store ++ [.joined ref])
  | called (call : Call) (text : Bytes) (owner : Option ClientKeys) (r : Readings) (ref : ℕ)
      (store : Store) (hle : w.now ≤ r.entered)
      (hreach : w.store.reach env text owner call.reach r = (.ok ref, store)) :
      Stepped env w { w with store, calls := w.calls ++ [(call, ref)], now := r.touched }
        (created env text w.store store)
  | proceeded (i : ℕ) (call : Call) (ref now : ℕ) (hcall : w.calls[i]? = some (call, ref)) :
      Stepped env w (proceed { w with calls := w.calls.eraseIdx i } call ref now).1
        (proceed { w with calls := w.calls.eraseIdx i } call ref now).2
  | recorded (i : ℕ) (sink : UploadSink) (bytes now : ℕ) (hsink : w.sinks[i]? = some sink)
      (hbytes : bytes ≠ 0) :
      Stepped env w
        { w with
          store := w.store.set sink.aggregate ((w.store.heap sink.aggregate).recordFirst now)
          sinks := w.sinks.set i { sink with recording := some bytes } } []
  | added (i : ℕ) (sink : UploadSink) (bytes : ℕ) (hsink : w.sinks[i]? = some sink) :
      Stepped env w
        { w with
          store := w.store.set sink.aggregate ((w.store.heap sink.aggregate).recordBytes bytes)
          sinks := w.sinks.set i { sink with bytes := sink.bytes + bytes, recording := none } }
        [.recorded sink.aggregate bytes]
  | dropped (i : ℕ) (sink : UploadSink) (now : ℕ) (a : Aggregate) (hsink : w.sinks[i]? = some sink)
      (htouched : (w.store.heap sink.aggregate).life.touched ≤ now)
      (hleave : (w.store.heap sink.aggregate).leave now = some a) :
      Stepped env w
        { w with store := w.store.set sink.aggregate a, sinks := w.sinks.eraseIdx i } []
  | fed (i : ℕ) (feed : ProgressFeed) (ticked : Bool) (now : ℕ) (hfeed : w.feeds[i]? = some feed) :
      Stepped env w
        { w with feeds := w.feeds.set i (feed.next (w.store.heap feed.aggregate) ticked now).2 }
        ((feed.next (w.store.heap feed.aggregate) ticked now).1.toList.map
          (Event.line feed.aggregate))
  | rehashed (live : HashMap UploadId Entry) (hperm : live.entries.Perm w.store.live.entries) :
      Stepped env w { w with store := { w.store with live } } []

/-- Each way a step can go, with the world it leaves. -/
theorem step_cases {env : Env} {w w' : World} {a : Action} {events : List Event}
    (h : w.step env a = some (w', events)) : Stepped env w w' events := by
  cases a with
  | mint now nonce hnonce =>
    cases h
    exact .minted _
  | begin text owner r =>
    simp only [step] at h
    split_ifs at h with hle
    split at h
    case h_1 refusal store hreach =>
      cases h
      exact .refused text owner .join r refusal store hle hreach
    case h_2 ref store hreach =>
      cases h
      exact .began text owner r ref store hle hreach
  | call call text owner r =>
    simp only [step] at h
    split_ifs at h with hle
    split at h
    case h_1 refusal store hreach =>
      cases h
      exact .refused text owner call.reach r refusal store hle hreach
    case h_2 ref store hreach =>
      cases h
      exact .called call text owner r ref store hle hreach
  | proceed i now =>
    simp only [step] at h
    split at h
    case h_1 => cases h
    case h_2 call ref hcall =>
      have hstepped := @Stepped.proceeded env w i call ref now hcall
      rw [Option.some.inj h] at hstepped
      exact hstepped
  | watchable text owner r =>
    simp only [step] at h
    split_ifs at h with hle
    cases h
    exact .entered _ r hle (Store.watchable_store env w.store text owner r)
  | sweep peek r =>
    simp only [step] at h
    split_ifs at h with hle
    cases h
    exact .entered _ r hle (Store.sweep_store w.store peek r)
  | record i bytes now =>
    simp only [step] at h
    split at h
    case h_1 => cases h
    case h_2 sink hsink =>
      split_ifs at h with hbytes
      cases h
      exact .recorded i sink bytes now hsink hbytes.1
  | add i =>
    simp only [step] at h
    split at h
    case h_1 => cases h
    case h_2 sink hsink =>
      split at h
      case h_1 => cases h
      case h_2 bytes hrecording =>
        cases h
        exact .added i sink bytes hsink
  | drop i now =>
    simp only [step] at h
    split at h
    case h_1 => cases h
    case h_2 sink hsink =>
      split_ifs at h with hidle
      split at h
      case h_1 => cases h
      case h_2 a hleave =>
        cases h
        exact .dropped i sink now a hsink hidle.2 hleave
  | feed i ticked now =>
    simp only [step] at h
    split at h
    case h_1 => cases h
    case h_2 feed hfeed =>
      split_ifs at h
      cases h
      exact .fed i feed ticked now hfeed
  | rehash live =>
    simp only [step] at h
    split_ifs at h with hperm
    cases h
    exact .rehashed live hperm

/-- A call that reaches its aggregate goes on to it later. -/
theorem step_called {env : Env} {w : World} {call : Call} {text : Bytes} {owner : Option ClientKeys}
    {r : Readings} {ref : ℕ} {store : Store} (hle : w.now ≤ r.entered)
    (hreach : w.store.reach env text owner call.reach r = (.ok ref, store)) :
    w.step env (.call call text owner r) =
      some ({ w with store, calls := w.calls ++ [(call, ref)], now := r.touched },
        created env text w.store store) := by
  simp only [step, if_pos hle, hreach]

/-! ## Without the entries lock -/

/-- Whether an action is a section of the entries lock. A hash map that is iterated is locked too. -/
def locks : Action → Bool
  | .begin .. | .call .. | .watchable .. | .sweep .. | .rehash .. => true
  | _ => false

/-- What an action does to the store without the entries lock: it changes one aggregate at most. -/
inductive Unlocked (w : World) : Action → Store → Prop
  | idle (a : Action) : Unlocked w a w.store
  | attached (i now ref : ℕ) (hcall : w.calls[i]? = some (.subscribe, ref)) :
      Unlocked w (.proceed i now) (w.store.set ref (w.store.heap ref).attach)
  | finished (i now ref : ℕ) (hcall : w.calls[i]? = some (.finish, ref)) :
      Unlocked w (.proceed i now) (w.store.set ref (w.store.heap ref).finalize)
  /-- A lane records bytes. -/
  | counted (a : Action) (sink : UploadSink) (hsink : sink ∈ w.sinks) (aggregate : Aggregate)
      (hlife : aggregate.life = (w.store.heap sink.aggregate).life) :
      Unlocked w a (w.store.set sink.aggregate aggregate)
  | left (i now : ℕ) (sink : UploadSink) (hsink : w.sinks[i]? = some sink) (aggregate : Aggregate)
      (hleave : (w.store.heap sink.aggregate).leave now = some aggregate) :
      Unlocked w (.drop i now) (w.store.set sink.aggregate aggregate)

/-- A step that locks nothing leaves the entries alone. -/
theorem step_unlocked {env : Env} {w w' : World} {a : Action} {events : List Event}
    (hfree : locks a = false) (hstep : w.step env a = some (w', events)) : Unlocked w a w'.store := by
  cases a with
  | mint now nonce hnonce =>
    cases hstep
    exact .idle _
  | proceed i now =>
    simp only [step] at hstep
    split at hstep
    case h_1 => cases hstep
    case h_2 call ref hcall =>
      cases call with
      | subscribe =>
        cases hstep
        exact .attached i now ref hcall
      | checkpoint =>
        cases hstep
        exact .idle _
      | finish =>
        cases hstep
        exact .finished i now ref hcall
  | record i bytes now =>
    simp only [step] at hstep
    split at hstep
    case h_1 => cases hstep
    case h_2 sink hsink =>
      split_ifs at hstep
      cases hstep
      exact .counted _ sink (List.mem_of_getElem? hsink) _ rfl
  | add i =>
    simp only [step] at hstep
    split at hstep
    case h_1 => cases hstep
    case h_2 sink hsink =>
      split at hstep
      case h_1 => cases hstep
      case h_2 bytes hrecording =>
        cases hstep
        exact .counted _ sink (List.mem_of_getElem? hsink) _ rfl
  | drop i now =>
    simp only [step] at hstep
    split at hstep
    case h_1 => cases hstep
    case h_2 sink hsink =>
      split_ifs at hstep
      split at hstep
      case h_1 => cases hstep
      case h_2 aggregate hleave =>
        cases hstep
        exact .left i now sink hsink aggregate hleave
  | feed i ticked now =>
    simp only [step] at hstep
    split at hstep
    case h_1 => cases hstep
    case h_2 feed hfeed =>
      split_ifs at hstep
      cases hstep
      exact .idle _
  | begin text owner r => cases hfree
  | call call text owner r => cases hfree
  | watchable text owner r => cases hfree
  | sweep peek r => cases hfree
  | rehash live => cases hfree

/-- The entries, the quota and the tombstones stay as they are. -/
theorem Unlocked.same {w : World} {a : Action} {s : Store} (h : Unlocked w a s) :
    s = { w.store with heap := s.heap } := by
  cases h <;> rfl

/-! ## A store with one ID -/

/-- Base64 and the tags of a store that signed one ID. -/
def oneId (raw text : Bytes) (hraw : raw.length = idBytes) : Env where
  encode bytes := if bytes = raw then text.drop idPrefix.length else []
  decode encoded := if encoded = text.drop idPrefix.length then some raw else none
  sign signed := if signed = raw.take signedBytes then raw.drop signedBytes else List.replicate 32 0
  sign_length signed := by
    split_ifs
    · rw [List.length_drop, hraw]
      rfl
    · exact List.length_replicate

/-- The ID a store with a key of zeros mints at its start. -/
def firstId : Bytes :=
  List.replicate 24 0 ++
    [0x52, 0x7f, 0x41, 0x96, 0x49, 0x5c, 0xf7, 0x33, 0x87, 0x07, 0xf4, 0x41, 0xfa, 0x5e, 0x37, 0xe6,
     0x5c, 0x19, 0x3b, 0xac, 0x18, 0x3c, 0x7f, 0xe9, 0x41, 0xfb, 0x6d, 0x08, 0x35, 0xfb, 0x3c, 0x28]

def firstText : Bytes :=
  "gmu_AAAAAAAAAAAAAAAAAAAAAAAAAAAAAAAAUn9Blklc9zOHB_RB-l435lwZO6wYPH_pQfttCDX7PCg".toUTF8.toList

end World

end GraphiteMeter.Server.Upload
