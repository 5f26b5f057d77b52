import GraphiteMeter.Browser.History.Store
import GraphiteMeter.Lib.Machine
import Mathlib.Logic.Function.Basic

/-!
# Saving finished results from several tabs

Each tab queues its finished results and writes them one at a time. With each it asks at once for the
store's clear count, and the write is refused if the count has moved past the one it was asked under.
A read that fails falls back on the count the tab knows to be current, or is made again when the
write's turn comes and nothing has been noticed to change History since.

A `Tab` is the state of `createHistorySaving` with what its page has under way: the requests it asked
of the store, carried out in the order asked; their answers, which reach it in that order; and the
notices of other tabs it has not heard. Between two answers a tab runs without interruption, so its
`await`s are the points where a `Phase` stands. The History view's own requests go through the same
store. Pages that close are tabs that take no more steps; `dispose` is left out.

Reference: `client/src/app/history/saving.ts`; `client/src/app/history/repository.ts`, `#changed`.
-/

namespace GraphiteMeter.Browser.History

def RETRYING : String := "Could not save this result locally. Future writes will be retried."

def UNORDERED : String := "Could not save this result: History did not answer when it finished."

/-- Results waiting while storage fails; past this the oldest waiting one is given up. -/
def MAX_QUEUED : ℕ := 8

/-- Why a request failed: a `HistoryRefusal`, which is final, or anything else, which is retried. -/
inductive Failure
  | refusal (message : String)
  | other

/-- The promise of an entry's clear count: not answered yet, the count, `null`, or a refusal. -/
inductive Count
  | pending
  | read (clears : ℕ)
  | unknown
  | refused (message : String)

/-- A queued result. Its ticket names the read that answers its count; a tab gives out tickets in the
order it asks. -/
structure Entry (ι : Type*) where
  ticket : ℕ
  record : Row ι
  clears : Count
  queuedAt : ℕ

/-- The promise of its count settles, if the ticket is its own. -/
def Entry.resolve {ι : Type*} (ticket : ℕ) (clears : Count) (entry : Entry ι) : Entry ι :=
  if entry.ticket = ticket then { entry with clears } else entry

/-- What a tab asks of the store: the reads of saving, its writes, and the History view's requests. -/
inductive Request (ι : Type*)
  | count (ticket : ℕ)
  | recount (ticket : ℕ)
  | put (ticket : ℕ) (record : Row ι) (clears : ℕ)
  | inspect (id : ι)
  | clear (ticket : ℕ)
  | delete (id : ι)
  | removeMalformed

/-- What the store answers. A put says whether it wrote and what it pruned; `inspect` whether the row
is ready; `removeMalformed` how many rows it removed. -/
inductive Answer (ι : Type*)
  | count (ticket : ℕ) (clears : Except Failure ℕ)
  | recount (ticket : ℕ) (clears : Except Failure ℕ)
  | put (ticket : ℕ) (record : Row ι) (outcome : Except Failure (Bool × List ι))
  | inspect (id : ι) (ready : Except Failure Bool)
  | clear (outcome : Except Failure Unit)
  | delete (id : ι) (outcome : Except Failure Unit)
  | removeMalformed (removed : Except Failure ℕ)

/-- Where `drain` stands: not running, or at one of its three awaits. -/
inductive Phase
  | idle
  | awaiting
  | reading
  | putting
  deriving DecidableEq

/-- What is logged: a result queued and its count fallen back on; a read made again; a clear asked
for; a change noticed; and of the store, a count read, a clear and a write carried out. -/
inductive Event (ι : Type*)
  | queued (ticket : ℕ) (record : Row ι)
  | fellBack (ticket : ℕ)
  | recounting (entry ticket : ℕ)
  | askedClear (ticket : ℕ)
  | noticed
  | counted (ticket : ℕ)
  | cleared (ticket : ℕ)
  | wrote (ticket : ℕ) (record : Row ι) (pruned : List ι)

structure Tab (ι : Type*) where
  saving : Bool
  queue : List (Entry ι) := []
  settled : ι → Option Bool := fun _ => none
  lost : ι → Bool := fun _ => false
  offered : Option (Row ι) := none
  phase : Phase := .idle
  retrying : Bool := false
  known : Option ℕ := none
  changes : ℕ := 0
  pending : Bool := false
  unsaved : Bool := false
  failed : Bool := false
  warning : String := ""
  /-- The requests the store has not carried out. -/
  asked : List (Request ι) := []
  /-- The answers the tab has not taken. -/
  answered : List (Answer ι) := []
  /-- The notices of other tabs not heard. -/
  elsewhere : ℕ := 0
  tickets : ℕ := 0

namespace Tab

variable {ι : Type*} [LinearOrder ι]

def showUnsaved (tab : Tab ι) : Tab ι :=
  { tab with
    unsaved := tab.offered.any fun record => decide (tab.settled record.id ≠ some true)
    failed := tab.offered.any fun record => tab.lost record.id }

/-- The head of the queue is written, or refused with a message. -/
def settle (tab : Tab ι) (entry : Entry ι) (rest : List (Entry ι)) (written : Bool)
    (message : String) : Tab ι :=
  showUnsaved { tab with
    queue := rest
    settled := Function.update tab.settled entry.record.id (some written)
    lost := if !written && decide (message ≠ "") then Function.update tab.lost entry.record.id true
      else tab.lost
    pending := !rest.isEmpty
    warning := message }

/-- `repository.put(entry.record, clears)` for a record History could read back. -/
def askPut (tab : Tab ι) (entry : Entry ι) (clears : ℕ) : Tab ι :=
  { tab with
    phase := .putting
    asked := tab.asked ++ [.put entry.ticket entry.record clears] }

/-- The loop of `drain` over the queue, up to its next await that is not answered. A record History
could not read back is refused before anything is asked of the store. -/
def loop (tab : Tab ι) : List (Entry ι) → Tab ι × List (Event ι)
  | [] => ({ tab with phase := .idle, retrying := false }, [])
  | entry :: rest =>
    match entry.clears with
    | .pending => ({ tab with phase := .awaiting }, [])
    | .refused message => (tab.settle entry rest false message).loop rest
    | .unknown =>
      if tab.changes ≠ entry.queuedAt then (tab.settle entry rest false UNORDERED).loop rest
      else
        ({ tab with
            phase := .reading
            asked := tab.asked ++ [.recount tab.tickets]
            tickets := tab.tickets + 1 },
          [.recounting entry.ticket tab.tickets])
    | .read clears =>
      if entry.record.readable then (tab.askPut entry clears, [])
      else (tab.settle entry rest false UNSAVABLE).loop rest

def drain (tab : Tab ι) : Tab ι × List (Event ι) :=
  if tab.phase = .idle then tab.loop tab.queue else (tab, [])

/-- The head may be mid-write; the oldest behind it goes. -/
def giveUp (tab : Tab ι) : Tab ι :=
  if tab.queue.length < MAX_QUEUED then tab
  else
    match tab.queue with
    | head :: dropped :: rest =>
      { tab with
        queue := head :: rest
        settled := Function.update tab.settled dropped.record.id (some false)
        lost := Function.update tab.lost dropped.record.id true }
    | _ => tab

/-- The end of `enqueue`: the record joins the queue with its read. -/
def push (tab : Tab ι) (record : Row ι) : Tab ι :=
  { tab with
    queue := tab.queue ++ [⟨tab.tickets, record, .pending, tab.changes⟩]
    asked := tab.asked ++ [.count tab.tickets]
    tickets := tab.tickets + 1
    pending := true }

def enqueue (tab : Tab ι) (record : Row ι) : Tab ι × List (Event ι) :=
  if (tab.settled record.id).isSome || tab.queue.any fun entry => decide (entry.record.id = record.id)
  then (tab, [])
  else
    ((tab.giveUp.push record).drain.1,
      .queued tab.tickets record :: (tab.giveUp.push record).drain.2)

/-- Only a result still waiting or still shown needs its outcome remembered. -/
def remember (tab : Tab ι) (record : Row ι) : Tab ι :=
  { tab with
    settled := fun id => if id = record.id then tab.settled id else none
    lost := fun id => if id = record.id then tab.lost id else false
    offered := some record }

def offer (tab : Tab ι) (record : Row ι) : Tab ι × List (Event ι) :=
  if tab.saving then
    (((tab.remember record).enqueue record).1.showUnsaved,
      ((tab.remember record).enqueue record).2)
  else ((tab.remember record).showUnsaved, [])

def withdraw (tab : Tab ι) : Tab ι := showUnsaved { tab with offered := none }

/-- The saving preference as the tab sees it. Switched on, it saves the result still shown. -/
def setSaving (tab : Tab ι) (saving : Bool) : Tab ι × List (Event ι) :=
  match saving && !tab.saving, tab.offered with
  | true, some record => enqueue { tab with saving } record
  | _, _ => ({ tab with saving }, [])

/-- A tick of the retry timer or one of its window events, while they are set up. -/
def retry (tab : Tab ι) : Tab ι × List (Event ι) :=
  if tab.retrying then tab.drain else (tab, [])

def removed (tab : Tab ι) (id : ι) : Tab ι :=
  if tab.settled id = some true then
    showUnsaved { tab with settled := Function.update tab.settled id (some false) }
  else tab

/-- `await entry.clears` ends once the head's count is answered. -/
def resume (tab : Tab ι) : Tab ι × List (Event ι) :=
  if tab.phase = .awaiting then tab.loop tab.queue else (tab, [])

/-- The promise of an entry's count settles, whether or not the entry is still queued. -/
def resolve (tab : Tab ι) (ticket : ℕ) (clears : Count) : Tab ι :=
  { tab with queue := tab.queue.map (Entry.resolve ticket clears) }

/-- The read made for a new entry is answered. A refusal is final and says why; any other failure
falls back on the count known to be current. -/
def counted (tab : Tab ι) (ticket : ℕ) : Except Failure ℕ → Tab ι × List (Event ι)
  | .ok clears => (resolve { tab with known := some clears } ticket (.read clears)).resume
  | .error (.refusal message) => (tab.resolve ticket (.refused message)).resume
  | .error .other =>
    match tab.known with
    | some clears =>
      ((tab.resolve ticket (.read clears)).resume.1,
        .fellBack ticket :: (tab.resolve ticket (.read clears)).resume.2)
    | none => (tab.resolve ticket .unknown).resume

/-- The `catch` of `drain`. -/
def caught (tab : Tab ι) (entry : Entry ι) (rest : List (Entry ι)) :
    Failure → Tab ι × List (Event ι)
  | .refusal message => (tab.settle entry rest false message).loop rest
  | .other => ({ tab with warning := RETRYING, retrying := true, phase := .idle }, [])

/-- The read made again for the head is answered. -/
def recounted (tab : Tab ι) (result : Except Failure ℕ) : Tab ι × List (Event ι) :=
  match tab.queue with
  | [] => (tab, [])
  | entry :: rest =>
    match result with
    | .ok clears =>
      if entry.record.readable then (askPut { tab with known := some clears } entry clears, [])
      else (settle { tab with known := some clears } entry rest false UNSAVABLE).loop rest
    | .error failure => tab.caught entry rest failure

/-- The head's put is answered, once the rows it pushed past the limit are noticed as deleted. -/
def saved (tab : Tab ι) (record : Row ι) (outcome : Except Failure (Bool × List ι)) :
    Tab ι × List (Event ι) :=
  match tab.queue with
  | [] => (tab, [])
  | entry :: rest =>
    match outcome with
    | .ok result =>
      if result.1 && Database.among result.2 record.id then
        (((result.2.filter fun id => decide (id ≠ record.id)).foldl removed tab).settle entry rest false
          OLDER).loop rest
      else
        (((result.2.filter fun id => decide (id ≠ record.id)).foldl removed tab).settle entry rest
          result.1 "").loop rest
    | .error failure => tab.caught entry rest failure

/-- The tab hears of its own clear: every record written is gone. -/
def cleared (tab : Tab ι) : Tab ι :=
  showUnsaved { tab with
    changes := tab.changes + 1
    known := tab.known.map (· + 1)
    settled := fun id => (tab.settled id).map fun _ => false }

/-- Whether the result shown as saved is still there. -/
def rechecks (tab : Tab ι) : List (Request ι) :=
  (tab.offered.toList.filter fun record => decide (tab.settled record.id = some true)).map
    fun record => .inspect record.id

/-- The tab hears that another changed History: the count is known again at the next read. -/
def heard (tab : Tab ι) : Tab ι :=
  { tab with
    changes := tab.changes + 1
    known := none
    asked := tab.asked ++ tab.rechecks }

/-- An answer reaches the tab. -/
def take (tab : Tab ι) : Answer ι → Tab ι × List (Event ι)
  | .count ticket clears => tab.counted ticket clears
  | .recount _ clears => tab.recounted clears
  | .put _ record outcome => tab.saved record outcome
  | .inspect id (.ok false) => (tab.removed id, [])
  | .inspect _ _ => (tab, [])
  | .clear (.ok ()) => (tab.cleared, [.noticed])
  | .clear (.error _) => (tab, [])
  | .delete id (.ok ()) => (tab.removed id, [])
  | .delete _ (.error _) => (tab, [])
  | .removeMalformed _ => (tab, [])

end Tab

/-- Whether `#changed` has a change to tell of, so that every other tab gets a notice. -/
def Answer.changed {ι : Type*} [LinearOrder ι] : Answer ι → Bool
  | .put _ record (.ok result) =>
    !(result.2.filter fun id => decide (id ≠ record.id)).isEmpty ||
      result.1 && !Database.among result.2 record.id
  | .clear (.ok ()) => true
  | .delete _ (.ok ()) => true
  | .removeMalformed (.ok removed) => decide (0 < removed)
  | _ => false

/-! ## Several tabs over one store -/

/-- What the person, the page or a notice makes a tab do. -/
inductive Act (ι : Type*)
  | offer (record : Row ι)
  | withdraw
  | setSaving (saving : Bool)
  | retry
  | clear
  | delete (id : ι)
  | removeMalformed
  | hear
  | take

/-- An act of one tab, or the store carrying out a tab's oldest request, or failing it. -/
inductive Action (τ ι : Type*)
  | act (tab : τ) (act : Act ι)
  | serve (tab : τ) (failure : Option Failure)

structure World (τ ι : Type*) where
  db : Database ι
  tabs : τ → Tab ι

section Step

variable {τ ι : Type*} [DecidableEq τ] [LinearOrder ι]

def Tab.act (tab : Tab ι) : Act ι → Option (Tab ι × List (Event ι))
  | .offer record => some (tab.offer record)
  | .withdraw => some (tab.withdraw, [])
  | .setSaving saving => some (tab.setSaving saving)
  | .retry => some tab.retry
  | .clear =>
    some ({ tab with asked := tab.asked ++ [.clear tab.tickets], tickets := tab.tickets + 1 },
      [.askedClear tab.tickets])
  | .delete id => some ({ tab with asked := tab.asked ++ [.delete id] }, [])
  | .removeMalformed => some ({ tab with asked := tab.asked ++ [.removeMalformed] }, [])
  | .hear =>
    if 0 < tab.elsewhere then some (heard { tab with elsewhere := tab.elsewhere - 1 }, [.noticed])
    else none
  | .take =>
    match tab.answered with
    | [] => none
    | answer :: answers => some (take { tab with answered := answers } answer)

/-- Whether an act has every other tab notified. -/
def Tab.posts (tab : Tab ι) : Act ι → Bool
  | .take => tab.answered.head?.any Answer.changed
  | _ => false

/-- A request carried out on the store, or failed. -/
def Database.serve (db : Database ι) (request : Request ι) (failure : Option Failure) :
    Database ι × Answer ι × List (Event ι) :=
  match request, failure with
  | .count ticket, none => (db, .count ticket (.ok db.clears), [.counted ticket])
  | .count ticket, some f => (db, .count ticket (.error f), [])
  | .recount ticket, none => (db, .recount ticket (.ok db.clears), [.counted ticket])
  | .recount ticket, some f => (db, .recount ticket (.error f), [])
  | .put ticket record clears, none =>
    ((db.put record clears).db,
      .put ticket record (.ok ((db.put record clears).written, (db.put record clears).pruned)),
      if (db.put record clears).written then [.wrote ticket record (db.put record clears).pruned]
      else [])
  | .put ticket record _, some f => (db, .put ticket record (.error f), [])
  | .inspect id, none => (db, .inspect id (.ok ((db.inspect id).any (·.readable))), [])
  | .inspect id, some f => (db, .inspect id (.error f), [])
  | .clear ticket, none => (db.clear, .clear (.ok ()), [.cleared ticket])
  | .clear _, some f => (db, .clear (.error f), [])
  | .delete id, none => (db.delete id, .delete id (.ok ()), [])
  | .delete id, some f => (db, .delete id (.error f), [])
  | .removeMalformed, none =>
    (db.removeMalformed, .removeMalformed (.ok (db.rows.length - db.removeMalformed.rows.length)), [])
  | .removeMalformed, some f => (db, .removeMalformed (.error f), [])

namespace World

/-- Every tab but one gets a notice. -/
def notify (tabs : τ → Tab ι) (but : τ) : τ → Tab ι := fun t =>
  if t = but then tabs t else { tabs t with elsewhere := (tabs t).elsewhere + 1 }

def step (w : World τ ι) : Action τ ι → Option (World τ ι × List (τ × Event ι))
  | .act t a =>
    match (w.tabs t).act a with
    | none => none
    | some (tab, events) =>
      some ({ w with
          tabs := Function.update (if (w.tabs t).posts a then notify w.tabs t else w.tabs) t tab },
        events.map (Prod.mk t))
  | .serve t failure =>
    match (w.tabs t).asked with
    | [] => none
    | request :: asked =>
      some (⟨(w.db.serve request failure).1,
          Function.update w.tabs t { w.tabs t with
            asked
            answered := (w.tabs t).answered ++ [(w.db.serve request failure).2.1] }⟩,
        (w.db.serve request failure).2.2.map (Prod.mk t))

/-- Every tab fresh over whatever the store holds. -/
def start (db : Database ι) (saving : τ → Bool) : World τ ι := ⟨db, fun t => { saving := saving t }⟩

end World

end Step

end GraphiteMeter.Browser.History
