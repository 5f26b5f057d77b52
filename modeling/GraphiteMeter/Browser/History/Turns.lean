import GraphiteMeter.Browser.History.Saving
import Mathlib.Data.List.Infix

/-!
# What a tab's saving stands on

The invariant of one tab over the log of all of them. A count that a tab holds is `Backed`: with the
tab's own clears asked after it, carried out since, it is within the store's count, and while the
store's count has not passed it no clear was carried out since it was read. `Sound` says so of each
count held, in flight or already sent with a write, and of the drain that it has one request under
way at most, its head's.

`Core` is the part of a tab these facts read. What the page shows of it does not matter to them.
-/

namespace GraphiteMeter.Browser.History

/-! ## Reading the log -/

/-- The events of all tabs in the order they happened. -/
abbrev Log (τ ι : Type*) := List (τ × Event ι)

namespace Event

variable {ι : Type*}

def isCleared : Event ι → Bool
  | .cleared _ => true
  | _ => false

def clearedAfter (m : ℕ) : Event ι → Bool
  | .cleared k => decide (m < k)
  | _ => false

def isNoticed : Event ι → Bool
  | .noticed => true
  | _ => false

def queued? : Event ι → Option (ℕ × Row ι)
  | .queued n record => some (n, record)
  | _ => none

/-- The ticket given out with the event. -/
def issued? : Event ι → Option ℕ
  | .queued n _ => some n
  | .recounting _ m => some m
  | .askedClear k => some k
  | _ => none

def wrote? : Event ι → Option (ℕ × Row ι)
  | .wrote n record _ => some (n, record)
  | _ => none

end Event

section Log

variable {τ ι : Type*} [DecidableEq τ]

/-- The clears carried out of those the tab asked for after its ticket `m`. -/
def clearsAfter (t : τ) (m : ℕ) (log : Log τ ι) : ℕ :=
  log.countP fun e => decide (e.1 = t) && e.2.clearedAfter m

def noticedBy (t : τ) (log : Log τ ι) : ℕ :=
  log.countP fun e => decide (e.1 = t) && e.2.isNoticed

def clearedIn (log : Log τ ι) : ℕ := log.countP fun e => e.2.isCleared

/-- What the tab queued, in order, each with its ticket. -/
def queuedBy (t : τ) (log : Log τ ι) : List (ℕ × Row ι) :=
  log.filterMap fun e => if e.1 = t then e.2.queued? else none

/-- The tickets the tab gave out, in order. -/
def issuedBy (t : τ) (log : Log τ ι) : List ℕ :=
  log.filterMap fun e => if e.1 = t then e.2.issued? else none

/-- What the store wrote for the tab, in order, each with the ticket it was queued under. -/
def wroteBy (t : τ) (log : Log τ ι) : List (ℕ × Row ι) :=
  log.filterMap fun e => if e.1 = t then e.2.wrote? else none

/-- The event happened, and no tab's clear was carried out since. -/
def Since (log : Log τ ι) (e : τ × Event ι) : Prop :=
  ∃ early late, log = early ++ e :: late ∧ clearedIn late = 0

/-- The tab asked for the count of an entry again under ticket `m`, having noticed no change of
History since it queued the entry. -/
def Recounted (t : τ) (log : Log τ ι) (n : ℕ) (record : Row ι) (m : ℕ) : Prop :=
  ∃ early middle late, log = early ++ (t, .queued n record) :: middle ++ (t, .recounting n m) :: late ∧
    noticedBy t middle = 0

/-- A count the tab holds as of its ticket `m`. -/
def Backed (t : τ) (log : Log τ ι) (clears m v : ℕ) : Prop :=
  v + clearsAfter t m log ≤ clears ∧
    (clears ≤ v → Since log (t, .counted m) ∨ Since log (t, .fellBack m))

/-- The later clears of a log are those of its parts. -/
theorem clearsAfter_append (t : τ) (m : ℕ) (log events : Log τ ι) :
    clearsAfter t m (log ++ events) = clearsAfter t m log + clearsAfter t m events :=
  List.countP_append ..

/-- The clears a tab noticed in a log are those of its parts. -/
theorem noticedBy_append (t : τ) (log events : Log τ ι) :
    noticedBy t (log ++ events) = noticedBy t log + noticedBy t events :=
  List.countP_append ..

omit [DecidableEq τ] in
/-- The clears of a log are those of its parts. -/
theorem clearedIn_append (log events : Log τ ι) :
    clearedIn (log ++ events) = clearedIn log + clearedIn events :=
  List.countP_append ..

/-- What a tab queued in a log is what it did in its parts. -/
theorem queuedBy_append (t : τ) (log events : Log τ ι) :
    queuedBy t (log ++ events) = queuedBy t log ++ queuedBy t events :=
  List.filterMap_append ..

/-- What a tab issued in a log is what it did in its parts. -/
theorem issuedBy_append (t : τ) (log events : Log τ ι) :
    issuedBy t (log ++ events) = issuedBy t log ++ issuedBy t events :=
  List.filterMap_append ..

/-- What a tab wrote in a log is what it did in its parts. -/
theorem wroteBy_append (t : τ) (log events : Log τ ι) :
    wroteBy t (log ++ events) = wroteBy t log ++ wroteBy t events :=
  List.filterMap_append ..

/-- What is queued takes a ticket. -/
theorem queuedBy_sublist_issuedBy (t : τ) (log : Log τ ι) :
    ((queuedBy t log).map Prod.fst).Sublist (issuedBy t log) := by
  induction log with
  | nil => exact List.Sublist.refl _
  | cons e log ih =>
    rw [← List.singleton_append, queuedBy_append, issuedBy_append, List.map_append]
    refine List.Sublist.append ?_ ih
    obtain ⟨u, e⟩ := e
    by_cases hu : u = t
    · cases e <;> simp [queuedBy, issuedBy, hu, Event.queued?, Event.issued?]
    · simp [queuedBy, issuedBy, hu]

/-- A tab notices no more clears than there are. -/
theorem clearsAfter_le_clearedIn (t : τ) (m : ℕ) (log : Log τ ι) :
    clearsAfter t m log ≤ clearedIn log := by
  apply List.countP_mono_left
  rintro ⟨u, e⟩ - h
  cases e <;> simp_all [Event.clearedAfter, Event.isCleared]

omit [DecidableEq τ] in
/-- While nothing is cleared, nothing is cleared since an event. -/
theorem Since.grow {log events : Log τ ι} {e : τ × Event ι} (h : Since log e)
    (hev : clearedIn events = 0) : Since (log ++ events) e := by
  obtain ⟨early, late, rfl, hlate⟩ := h
  refine ⟨early, late ++ events, by simp, ?_⟩
  rw [clearedIn_append, hlate, hev]

omit [DecidableEq τ] in
/-- Nothing is cleared since the last event. -/
theorem Since.last (log : Log τ ι) (e : τ × Event ι) : Since (log ++ [e]) e :=
  ⟨log, [], rfl, rfl⟩

/-- What was recounted once has been recounted. -/
theorem Recounted.grow {t : τ} {log : Log τ ι} {n m : ℕ} {record : Row ι}
    (h : Recounted t log n record m) (events : Log τ ι) :
    Recounted t (log ++ events) n record m := by
  obtain ⟨early, middle, late, rfl, hmiddle⟩ := h
  exact ⟨early, middle, late ++ events, by simp, hmiddle⟩

/-- Whatever else happens, what backs a count still does: a clear moves the store past it. -/
theorem Backed.grow {t : τ} {log events : Log τ ι} {clears clears' m v : ℕ}
    (h : Backed t log clears m v) (hclears : clears' = clears + clearedIn events) :
    Backed t (log ++ events) clears' m v := by
  have hle := clearsAfter_le_clearedIn t m events
  refine ⟨?_, fun hv => ?_⟩
  · rw [clearsAfter_append]
    have := h.1
    omega
  · have hnone : clearedIn events = 0 := by
      have := h.1
      omega
    exact (h.2 (by omega)).imp (·.grow hnone) (·.grow hnone)

end Log

/-! ## The invariant of a tab -/

/-- A drain's request under way. -/
inductive Flight
  | recount (ticket : ℕ)
  | put (ticket : ℕ)

namespace Request

variable {ι : Type*}

/-- The ticket of a request that gives one out. -/
def ticket? : Request ι → Option ℕ
  | .count m => some m
  | .recount m => some m
  | .clear m => some m
  | _ => none

/-- The ticket of a read of the clear count. -/
def read? : Request ι → Option ℕ
  | .count m => some m
  | .recount m => some m
  | _ => none

def flight? : Request ι → Option Flight
  | .recount m => some (.recount m)
  | .put n _ _ => some (.put n)
  | _ => none

end Request

namespace Answer

variable {ι : Type*}

def read? : Answer ι → Option (ℕ × Except Failure ℕ)
  | .count m result => some (m, result)
  | .recount m result => some (m, result)
  | _ => none

def flight? : Answer ι → Option Flight
  | .recount m _ => some (.recount m)
  | .put n _ _ => some (.put n)
  | _ => none

/-- The tab's own clear, carried out. -/
def isCleared : Answer ι → Bool
  | .clear (.ok ()) => true
  | _ => false

/-- The ticket of a write carried out. -/
def wrote? : Answer ι → Option ℕ
  | .put n _ (.ok (true, _)) => some n
  | _ => none

end Answer

/-- The part of a tab that its saving reads. -/
structure Core (ι : Type*) where
  queue : List (Entry ι)
  phase : Phase
  known : Option ℕ
  changes : ℕ
  asked : List (Request ι)
  answered : List (Answer ι)
  tickets : ℕ

def Tab.core {ι : Type*} (tab : Tab ι) : Core ι :=
  ⟨tab.queue, tab.phase, tab.known, tab.changes, tab.asked, tab.answered, tab.tickets⟩

section Sound

variable {τ ι : Type*} [DecidableEq τ]

/-- The tab's own clears carried out that it has not heard of. -/
def unheard (answers : List (Answer ι)) : ℕ := answers.countP (·.isCleared)

def Core.flights (c : Core ι) : List Flight :=
  c.answered.filterMap Answer.flight? ++ c.asked.filterMap Request.flight?

/-- An entry as it was queued, with the count it has. -/
structure Entry.Sound (t : τ) (log : Log τ ι) (clears : ℕ) (entry : Entry ι) : Prop where
  queued : ∃ early late, log = early ++ (t, .queued entry.ticket entry.record) :: late ∧
    entry.queuedAt = noticedBy t early
  backed : ∀ v, entry.clears = .read v → Backed t log clears entry.ticket v

/-- The answer of a read, with the answers behind it. -/
structure Read (t : τ) (log : Log τ ι) (clears m : ℕ) (result : Except Failure ℕ)
    (behind : List (Answer ι)) : Prop where
  own : clearsAfter t m log ≤ unheard behind
  ok : ∀ v, result = .ok v → v + unheard behind ≤ clears ∧ (clears ≤ v → Since log (t, .counted m))

/-- A write on its way to the store. -/
def Sent (t : τ) (log : Log τ ι) (clears n : ℕ) (record : Row ι) (v : ℕ) : Prop :=
  (n, record) ∈ queuedBy t log ∧
    ∃ m, (m = n ∨ Recounted t log n record m) ∧ Backed t log clears m v

/-- What holds of a tab at every point of a run. -/
structure Sound (t : τ) (log : Log τ ι) (clears : ℕ) (c : Core ι) : Prop where
  known : ∀ v, c.known = some v → v + unheard c.answered ≤ clears
  changes : c.changes = noticedBy t log
  entries : ∀ entry ∈ c.queue, entry.Sound t log clears
  queue_sorted : (c.queue.map Entry.ticket).Pairwise (· < ·)
  queue_lt : ∀ entry ∈ c.queue, entry.ticket < c.tickets
  asked_sorted : (c.asked.filterMap Request.ticket?).Pairwise (· < ·)
  asked_lt : ∀ m ∈ c.asked.filterMap Request.ticket?, m < c.tickets
  cleared_lt : ∀ k, (t, Event.cleared k) ∈ log → k < c.tickets
  reads : ∀ m ∈ c.asked.filterMap Request.read?, clearsAfter t m log = 0
  answered : ∀ answer behind, answer :: behind <:+ c.answered →
    ∀ m result, answer.read? = some (m, result) → Read t log clears m result behind
  sent : ∀ n record v, Request.put n record v ∈ c.asked → Sent t log clears n record v
  quiet : c.phase = .idle ∨ c.phase = .awaiting → c.flights = []
  reading : c.phase = .reading → ∃ entry rest m, c.queue = entry :: rest ∧
    c.flights = [.recount m] ∧ Recounted t log entry.ticket entry.record m
  putting : c.phase = .putting → ∃ entry rest, c.queue = entry :: rest ∧
    c.flights = [.put entry.ticket]
  issued_sorted : (issuedBy t log).Pairwise (· < ·)
  issued_lt : ∀ m ∈ issuedBy t log, m < c.tickets
  wrote_queued : ∀ w ∈ wroteBy t log, w ∈ queuedBy t log
  wrote_sorted : ((wroteBy t log).map Prod.fst).Pairwise (· < ·)
  wrote_le : ∀ w ∈ wroteBy t log, ∀ entry ∈ c.queue, w.1 ≤ entry.ticket
  wrote_eq : ∀ w ∈ wroteBy t log, ∀ entry ∈ c.queue, w.1 = entry.ticket →
    entry.ticket ∈ c.answered.filterMap Answer.wrote?

end Sound

end GraphiteMeter.Browser.History
