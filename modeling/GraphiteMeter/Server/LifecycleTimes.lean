import GraphiteMeter.Server.Lifecycle
import Mathlib.Data.Nat.Basic
import Mathlib.Order.Basic

/-!
# When a connection goes away and closes

Reference: `rust/server/src/transport/lifecycle.rs`.

`Due` says of the log alone when a connection may go away or close: GoAway comes once and before any
Close, for a stop, for idle credit or for a quiet connection, and a Close cuts no running work short
and leaves every grace its time. `lifecycle_due` proves every event of every run due.

The three timers outlive what they were set for. `Kept` says what each still stands for in the log.
-/

namespace GraphiteMeter.Server.Lived

open Machine

/-! ## What a log says -/

def Entry.isStart : Entry → Bool
  | .started _ => true
  | _ => false

/-- When admitted work ended. -/
def Entry.ending : Entry → Option ℕ
  | .ended now => some now
  | _ => none

def endings (log : List Entry) : List ℕ := log.filterMap Entry.ending

/-- How much admitted work runs. -/
def running (log : List Entry) : ℕ := log.countP Entry.isStart - (endings log).length

/-- When admitted work last ended, or the connection began. -/
def idleSince (begun : ℕ) (log : List Entry) : ℕ := (endings log).getLast?.getD begun

/-- The connection stops once: calls after the first do nothing. -/
def Stopped (log : List Entry) : Prop := ∃ now, .stopped now ∈ log

/-- No admitted work ran for the bound, and the connection was credited in that idle period. -/
def Stale (begun now : ℕ) (log : List Entry) : Prop :=
  running log = 0 ∧ idleSince begun log + connectionIdle ≤ now ∧
    ∃ seen streams, .polled seen ⟨true, streams⟩ ∈ log ∧ idleSince begun log ≤ seen

/-- A poll saw no stream at `since`, and none did after it. -/
def NoStreamSince (since : ℕ) (log : List Entry) : Prop :=
  ∃ before credited after, log = before ++ .polled since ⟨credited, false⟩ :: after ∧
    ∀ now credited, .polled now ⟨credited, true⟩ ∉ after

/-- No poll saw a stream for the bound. -/
def Quiet (now : ℕ) (log : List Entry) : Prop :=
  ∃ since, NoStreamSince since log ∧ since + connectionIdle ≤ now

/-- The stop, and every end of admitted work before it, is a grace before `closing`. -/
def Graced (closing : ℕ) : List Entry → Prop :=
  Justified fun before e => ¬ Stopped before →
    (e = .stopped e.time ∨ e = .ended e.time) → e.time + shutdownGrace ≤ closing

structure GoAwayDue (begun now : ℕ) (log : List Entry) : Prop where
  first : ∀ earlier, .goAway earlier ∉ log
  notClosed : ∀ earlier, .close earlier ∉ log
  cause : Stopped log ∨ Stale begun now log ∨ Quiet now log

structure CloseDue (now : ℕ) (log : List Entry) : Prop where
  wentAway : ∃ earlier, .goAway earlier ∈ log
  idle : running log = 0 ∨ Stopped log
  goAway : ∀ earlier, .goAway earlier ∈ log → earlier + shutdownGrace ≤ now
  graced : Graced now log

/-- An event comes only when the log before it makes it due. -/
def Due (begun : ℕ) (log : List Entry) : Entry → Prop
  | .goAway now => GoAwayDue begun now log
  | .close now => CloseDue now log
  | _ => True

/-! ## One more entry -/

/-- What was stopped stays so. -/
theorem Stopped.snoc {log : List Entry} (h : Stopped log) (e : Entry) : Stopped (log ++ [e]) := by
  obtain ⟨now, hnow⟩ := h
  exact ⟨now, List.mem_append_left _ hnow⟩

/-- Only a stop stops. -/
theorem stopped_snoc {log : List Entry} {e : Entry} (he : ∀ now, e ≠ .stopped now) :
    Stopped (log ++ [e]) ↔ Stopped log := by
  constructor
  · rintro ⟨now, hnow⟩
    rcases List.mem_append.mp hnow with hnow | hnow
    · exact ⟨now, hnow⟩
    · exact absurd (List.mem_singleton.mp hnow).symm (he now)
  · intro h
    exact h.snoc e

/-- One more entry may be one more ending. -/
theorem endings_snoc (log : List Entry) (e : Entry) :
    endings (log ++ [e]) = endings log ++ e.ending.toList := by
  rw [endings, List.filterMap_append]
  cases he : e.ending <;> simp [endings, he]

/-- The endings are those of the log. -/
theorem mem_endings {log : List Entry} {now : ℕ} : now ∈ endings log ↔ .ended now ∈ log := by
  rw [endings, List.mem_filterMap]
  constructor
  · rintro ⟨e, he, hnow⟩
    cases e <;> simp_all [Entry.ending]
  · intro h
    exact ⟨_, h, rfl⟩

/-- Work that ended last leaves it idle since then. -/
theorem idleSince_ended (begun : ℕ) (log : List Entry) (now : ℕ) :
    idleSince begun (log ++ [.ended now]) = now := by
  unfold idleSince
  rw [endings_snoc, Entry.ending, Option.toList_some, List.getLast?_concat, Option.getD_some]

/-- A poll's entry after the streams were last seen leaves them unseen. -/
theorem NoStreamSince.snoc {since : ℕ} {log : List Entry} {e : Entry} (h : NoStreamSince since log)
    (he : ∀ now credited, e ≠ .polled now ⟨credited, true⟩) : NoStreamSince since (log ++ [e]) := by
  obtain ⟨before, credited, after, rfl, hafter⟩ := h
  refine ⟨before, credited, after ++ [e], by simp, ?_⟩
  intro now credited' hmem
  rcases List.mem_append.mp hmem with hmem | hmem
  · exact hafter now credited' hmem
  · exact he now credited' (List.mem_singleton.mp hmem).symm

/-! ## Graces -/

/-- Once stopped, what comes later needs no grace. -/
theorem Graced.snoc {closing : ℕ} {log : List Entry} {e : Entry} (h : Graced closing log)
    (hstopped : Stopped log) : Graced closing (log ++ [e]) :=
  Justified.snoc h fun hnot => absurd hstopped hnot

/-- What needs no grace leaves the graces as they are. -/
theorem Graced.snoc_other {closing : ℕ} {log : List Entry} {e : Entry} (h : Graced closing log)
    (hstopped : e ≠ .stopped e.time) (hended : e ≠ .ended e.time) : Graced closing (log ++ [e]) := by
  refine Justified.snoc h ?_
  rintro - (he | he)
  · exact absurd he hstopped
  · exact absurd he hended

/-- A longer time of closing graces as much. -/
theorem Graced.mono {closing later : ℕ} {log : List Entry} (h : Graced closing log)
    (hle : closing ≤ later) : Graced later log := by
  intro before e after heq hstopped he
  exact (h before e after heq hstopped he).trans hle

/-- A grace from now on is one from everything that was. -/
theorem graced_of_times {now : ℕ} {log : List Entry} (h : ∀ e ∈ log, e.time ≤ now) :
    Graced (now + shutdownGrace) log := by
  rintro before e after rfl - -
  have he := h e (by simp)
  omega

/-- Where nothing stopped, the graces are the work's. -/
theorem graced_of_endings {closing : ℕ} {log : List Entry} (hstopped : ¬ Stopped log)
    (h : ∀ now ∈ endings log, now + shutdownGrace ≤ closing) : Graced closing log := by
  rintro before e after rfl - (he | he)
  · exact absurd ⟨e.time, he ▸ by simp⟩ hstopped
  · exact h e.time (mem_endings.mpr (he ▸ by simp))

/-! ## The admitted work -/

/-- The admitted work is what the log says it is, and the log is of the past. -/
structure Counted (begun : ℕ) (log : List Entry) (c : Lived) : Prop where
  times : ∀ e ∈ log, e.time ≤ c.now
  running : log.countP Entry.isStart = c.work.running + (endings log).length
  idle : c.work.running = 0 → c.work.idleSince = idleSince begun log
  last : ∀ now ∈ endings log, now ≤ idleSince begun log
  past : idleSince begun log ≤ c.now

/-- Nothing is counted yet. -/
theorem counted_new (begun : ℕ) : Counted begun [] (new begun) where
  times _ he := absurd he List.not_mem_nil
  running := rfl
  idle _ := rfl
  last _ hnow := absurd hnow List.not_mem_nil
  past := le_rfl

namespace Counted

variable {begun : ℕ} {log : List Entry} {c : Lived}

/-- The work that runs is what the log says. -/
theorem running_eq (h : Counted begun log c) : Lived.running log = c.work.running := by
  have hrunning := h.running
  unfold Lived.running
  omega

/-- The work is idle since the log's last end. -/
theorem of_idleSince (h : Counted begun log c) {since : ℕ}
    (hsince : Work.idleSince c.work = some since) :
    Lived.running log = 0 ∧ since = Lived.idleSince begun log := by
  unfold Work.idleSince at hsince
  split at hsince
  · rename_i hrunning
    injection hsince with hsince
    exact ⟨h.running_eq.trans hrunning, hsince ▸ h.idle hrunning⟩
  · cases hsince

/-- One more entry comes no earlier than the others. -/
theorem times_snoc (h : Counted begun log c) {e : Entry} {now : ℕ} (hnow : c.now ≤ now)
    (he : e.time = now) : ∀ e' ∈ log ++ [e], e'.time ≤ now := by
  intro e' he'
  rcases List.mem_append.mp he' with he' | he'
  · exact (h.times e' he').trans hnow
  · rw [List.mem_singleton.mp he', he]

/-- Time passes, and something is logged that neither starts nor ends work. -/
theorem snoc (h : Counted begun log c) {e : Entry} {lifecycle : Lifecycle} {now : ℕ}
    (hnow : c.now ≤ now) (he : e.time = now) (hstart : e.isStart = false) (hending : e.ending = none) :
    Counted begun (log ++ [e]) { c with lifecycle, now } := by
  have hendings : endings (log ++ [e]) = endings log := by
    rw [endings_snoc, hending]
    exact List.append_nil _
  refine ⟨?_, ?_, ?_, ?_, ?_⟩
  · exact h.times_snoc hnow he
  · rw [hendings, List.countP_append, ← h.running]
    simp [hstart]
  · unfold idleSince
    rw [hendings]
    exact h.idle
  · unfold idleSince
    rw [hendings]
    exact h.last
  · unfold idleSince
    rw [hendings]
    exact h.past.trans hnow

/-- Starting work counts it. -/
theorem start (h : Counted begun log c) {now : ℕ} (hnow : c.now ≤ now) :
    Counted begun (log ++ [.started now]) { c with work := Work.start c.work, now } := by
  have hendings : endings (log ++ [.started now]) = endings log := by
    rw [endings_snoc]
    exact List.append_nil _
  refine ⟨?_, ?_, ?_, ?_, ?_⟩
  · exact h.times_snoc hnow rfl
  · have hrunning := h.running
    rw [hendings, List.countP_append]
    simp only [Work.start, List.countP_singleton, Entry.isStart, if_true]
    omega
  · intro hzero
    exact absurd hzero (Nat.succ_ne_zero _)
  · unfold idleSince
    rw [hendings]
    exact h.last
  · unfold idleSince
    rw [hendings]
    exact h.past.trans hnow

/-- Ending work counts it. -/
theorem finish (h : Counted begun log c) {now : ℕ} (hnow : c.now ≤ now)
    (hrunning : 0 < c.work.running) :
    Counted begun (log ++ [.ended now]) { c with work := Work.finish c.work now, now } := by
  have hendings : endings (log ++ [.ended now]) = endings log ++ [now] := endings_snoc log _
  have hidle : Lived.idleSince begun (log ++ [.ended now]) = now := idleSince_ended begun log now
  refine ⟨?_, ?_, ?_, ?_, ?_⟩
  · exact h.times_snoc hnow rfl
  · have hcount := h.running
    rw [hendings, List.countP_append, List.length_append]
    simp only [Work.finish, List.countP_singleton, Entry.isStart, List.length_singleton]
    simp only [Bool.false_eq_true, if_false]
    omega
  · intro hzero
    rw [hidle]
    simp only [Work.finish] at hzero ⊢
    exact if_pos hzero
  · rw [hidle]
    intro now' hnow'
    rw [hendings] at hnow'
    rcases List.mem_append.mp hnow' with hnow' | hnow'
    · exact (h.times _ (mem_endings.mp hnow')).trans hnow
    · exact (List.mem_singleton.mp hnow').le
  · exact hidle.le

end Counted

/-! ## A new idle period -/

/-- A new idle period clears the stale bound. The closing timer is reset where the connection went
away and did not stop, and stays otherwise. -/
theorem renew_cases (l : Lifecycle) (since : Option ℕ) :
    l.renew since = l ∧ since = l.idleSince ∨ since ≠ l.idleSince ∧
      ((l.stopping = true ∨ since = none ∨ l.closing = none) ∧
          l.renew since = { l with idleSince := since, stale := none } ∨
        ∃ at' closing, l.stopping = false ∧ since = some at' ∧ l.closing = some closing ∧
          l.renew since =
            { l with
              idleSince := since, stale := none, closing := some (at' + shutdownGrace) }) := by
  unfold Lifecycle.renew
  split
  · rename_i heq
    exact .inl ⟨rfl, heq⟩
  · rename_i hne
    refine .inr ⟨hne, ?_⟩
    cases hstopping : l.stopping with
    | true => exact .inl ⟨.inl rfl, rfl⟩
    | false =>
      cases since with
      | none => exact .inl ⟨.inr (.inl rfl), rfl⟩
      | some at' =>
        cases hclosing : l.closing with
        | none => exact .inl ⟨.inr (.inr rfl), rfl⟩
        | some closing => exact .inr ⟨at', closing, rfl, rfl, rfl, rfl⟩

/-- The lifecycle remembers the period it observed. -/
theorem renew_idleSince (l : Lifecycle) (since : Option ℕ) : (l.renew since).idleSince = since := by
  obtain ⟨heq, hsame⟩ | ⟨-, ⟨-, heq⟩ | ⟨_, _, -, -, -, heq⟩⟩ := renew_cases l since
  · rw [heq, hsame]
  · rw [heq]
  · rw [heq]

/-! ## The idle timers -/

/-- The stale bound counts from the idle period observed, in which the connection was credited. -/
def StaleKept (log : List Entry) (l : Lifecycle) : Prop :=
  ∀ stale, l.stale = some stale → ∃ since seen streams, l.idleSince = some since ∧
    stale = since + connectionIdle ∧ .polled seen ⟨true, streams⟩ ∈ log ∧ since ≤ seen

/-- The quiet bound counts from a poll since when none saw a stream. -/
def QuietKept (log : List Entry) (l : Lifecycle) : Prop :=
  ∀ quiet, l.quiet = some quiet → ∃ since, NoStreamSince since log ∧ quiet = since + connectionIdle

section

variable {log : List Entry} {l : Lifecycle}

/-- A longer log keeps the stale deadline. -/
theorem StaleKept.snoc (h : StaleKept log l) (e : Entry) : StaleKept (log ++ [e]) l := by
  intro stale hstale
  obtain ⟨since, seen, streams, hsince, heq, hseen, hle⟩ := h stale hstale
  exact ⟨since, seen, streams, hsince, heq, List.mem_append_left _ hseen, hle⟩

/-- So does a stop. -/
theorem StaleKept.stop (h : StaleKept log l) (now : ℕ) : StaleKept log (l.stop now) := by
  unfold Lifecycle.stop
  split
  · exact h
  · exact h

/-- So does renewing it. -/
theorem StaleKept.renew (h : StaleKept log l) (since : Option ℕ) : StaleKept log (l.renew since) := by
  obtain ⟨heq, -⟩ | ⟨-, ⟨-, heq⟩ | ⟨_, _, -, -, -, heq⟩⟩ := renew_cases l since
  · rw [heq]
    exact h
  · rw [heq]
    exact nofun
  · rw [heq]
    exact nofun

/-- A credited poll sets the bound from the start of the period it observes. -/
theorem StaleKept.observe (h : StaleKept log l) {since : Option ℕ} {credited streams : Bool} {now : ℕ}
    (hpolled : .polled now ⟨credited, streams⟩ ∈ log)
    (hsince : ∀ began, since = some began → began ≤ now) :
    StaleKept log (l.observe since credited) := by
  have hrenewed := h.renew since
  unfold Lifecycle.observe
  dsimp only
  split
  · rename_i began hnone
    intro stale hstale
    injection hstale with hstale
    exact ⟨began, now, streams, renew_idleSince l _, hstale.symm, hpolled, hsince began rfl⟩
  · exact hrenewed

/-- So does the quiet poll. -/
theorem StaleKept.pollQuiet (h : StaleKept log l) (now : ℕ) (streams driven : Bool) :
    StaleKept log (l.pollQuiet now streams driven).1 := by
  unfold Lifecycle.pollQuiet
  split
  · exact h
  · exact h

/-- An entry without a driven poll keeps the quiet deadline. -/
theorem QuietKept.snoc (h : QuietKept log l) {e : Entry}
    (he : ∀ now credited, e ≠ .polled now ⟨credited, true⟩) : QuietKept (log ++ [e]) l := by
  intro quiet hquiet
  obtain ⟨since, hsince, heq⟩ := h quiet hquiet
  exact ⟨since, hsince.snoc he, heq⟩

/-- So does a stop. -/
theorem QuietKept.stop (h : QuietKept log l) (now : ℕ) : QuietKept log (l.stop now) := by
  unfold Lifecycle.stop
  split
  · exact h
  · exact h

/-- So does observing activity. -/
theorem QuietKept.observe (h : QuietKept log l) (since : Option ℕ) (credited : Bool) :
    QuietKept log (l.observe since credited) := by
  have hquiet : (l.observe since credited).quiet = l.quiet := by
    have hrenewed : (l.renew since).quiet = l.quiet := by
      obtain ⟨heq, -⟩ | ⟨-, ⟨-, heq⟩ | ⟨_, _, -, -, -, heq⟩⟩ := renew_cases l since <;> rw [heq]
    unfold Lifecycle.observe
    dsimp only
    split
    · exact hrenewed
    · exact hrenewed
  intro quiet hsome
  exact h quiet (hquiet.symm.trans hsome)

/-- A poll that sees no stream keeps the bound or sets it, and one that sees a stream clears it. -/
theorem QuietKept.pollQuiet (h : QuietKept log l) (now : ℕ) (credited streams driven : Bool) :
    QuietKept (log ++ [.polled now ⟨credited, streams⟩]) (l.pollQuiet now streams driven).1 := by
  unfold Lifecycle.pollQuiet
  cases streams with
  | true => exact nofun
  | false =>
    intro quiet hquiet
    injection hquiet with hquiet
    cases hl : l.quiet with
    | none =>
      rw [hl, Option.getD_none] at hquiet
      exact ⟨now, ⟨log, credited, [], rfl, by simp⟩, hquiet.symm⟩
    | some earlier =>
      rw [hl, Option.getD_some] at hquiet
      have hkept := h.snoc (e := .polled now ⟨credited, false⟩) nofun
      exact hquiet ▸ hkept earlier hl

end

/-! ## The closing timer -/

/-- What the closing timer leaves time for. -/
structure Closing (log : List Entry) (work : WorkState) (l : Lifecycle) : Prop where
  stopping : l.stopping = true ↔ Stopped log
  fresh : l.closing = none → (∀ now, .goAway now ∉ log) ∧ ∀ now, .close now ∉ log
  wentAway : ∀ closing, l.closing = some closing → ∃ now, .goAway now ∈ log
  goAway : ∀ closing, l.closing = some closing →
    ∀ now, .goAway now ∈ log → now + shutdownGrace ≤ closing
  graced : ∀ closing, l.closing = some closing → Stopped log → Graced closing log
  idle : ∀ closing since, l.closing = some closing → ¬ Stopped log → l.idleSince = some since →
    since + shutdownGrace ≤ closing
  /-- An idle period not yet observed began after the connection went away. -/
  unobserved : ∀ now since, .goAway now ∈ log → Work.idleSince work = some since →
    l.idleSince = some since ∨ now ≤ since

namespace Closing

variable {begun : ℕ} {log : List Entry} {c : Lived} {work : WorkState} {l : Lifecycle}

/-- What neither stops the connection nor makes it go away leaves the timer its time. -/
theorem snoc (h : Closing log work l) {e : Entry} {later : WorkState}
    (hstop : Stopped (log ++ [e]) ↔ Stopped log) (haway : ∀ now, e ≠ .goAway now)
    (hclose : l.closing = none → ∀ now, e ≠ .close now)
    (hlater : ∀ now since, .goAway now ∈ log → Work.idleSince later = some since →
      l.idleSince = some since ∨ now ≤ since) : Closing (log ++ [e]) later l := by
  have hmem : ∀ {e'}, e' ∈ log ++ [e] → e ≠ e' → e' ∈ log := by
    intro e' he' hne
    rcases List.mem_append.mp he' with he' | he'
    · exact he'
    · exact absurd (List.mem_singleton.mp he').symm hne
  refine ⟨h.stopping.trans hstop.symm, ?_, ?_, ?_, ?_, ?_, ?_⟩
  · intro hclosing
    obtain ⟨hgoAway, hclosed⟩ := h.fresh hclosing
    exact ⟨fun now hnow => hgoAway now (hmem hnow (haway now)),
      fun now hnow => hclosed now (hmem hnow (hclose hclosing now))⟩
  · intro closing hclosing
    obtain ⟨now, hnow⟩ := h.wentAway closing hclosing
    exact ⟨now, List.mem_append_left _ hnow⟩
  · intro closing hclosing now hnow
    exact h.goAway closing hclosing now (hmem hnow (haway now))
  · intro closing hclosing hstopped
    rw [hstop] at hstopped
    exact (h.graced closing hclosing hstopped).snoc hstopped
  · intro closing since hclosing hstopped hsince
    rw [hstop] at hstopped
    exact h.idle closing since hclosing hstopped hsince
  · intro now since hnow hsince
    exact hlater now since (hmem hnow (haway now)) hsince

/-- A stop gives the connection a grace from now on, if it went away. -/
theorem stop (h : Closing log work l) {now : ℕ} (hpast : ∀ e ∈ log, e.time ≤ now) :
    Closing (log ++ [.stopped now]) work (l.stop now) := by
  have hstopped : Stopped (log ++ [.stopped now]) := ⟨now, by simp⟩
  have hgraced : Graced (now + shutdownGrace) (log ++ [.stopped now]) := by
    apply graced_of_times
    intro e he
    rcases List.mem_append.mp he with he | he
    · exact hpast e he
    · rw [List.mem_singleton.mp he, Entry.time]
  unfold Lifecycle.stop
  split
  · rename_i hstopping
    -- The connection stops once.
    have hearlier : Stopped log := h.stopping.mp hstopping
    exact h.snoc ⟨fun _ => hearlier, fun _ => hstopped⟩ nofun nofun h.unobserved
  · have haway : ∀ {earlier}, .goAway earlier ∈ log ++ [.stopped now] → .goAway earlier ∈ log := by
      intro earlier hmem
      simpa using hmem
    refine ⟨⟨fun _ => hstopped, fun _ => rfl⟩, ?_, ?_, ?_, ?_, ?_, ?_⟩
    · intro hclosing
      obtain ⟨hgoAway, hclosed⟩ := h.fresh (Option.map_eq_none_iff.mp hclosing)
      refine ⟨fun earlier hmem => hgoAway earlier (haway hmem), fun earlier hmem => ?_⟩
      exact hclosed earlier (by simpa using hmem)
    · intro closing hclosing
      obtain ⟨before, hbefore, -⟩ := Option.map_eq_some_iff.mp hclosing
      obtain ⟨earlier, hmem⟩ := h.wentAway before hbefore
      exact ⟨earlier, List.mem_append_left _ hmem⟩
    · intro closing hclosing earlier hmem
      obtain ⟨-, -, rfl⟩ := Option.map_eq_some_iff.mp hclosing
      have hle := hpast _ (haway hmem)
      exact Nat.add_le_add_right hle _
    · intro closing hclosing _
      obtain ⟨-, -, rfl⟩ := Option.map_eq_some_iff.mp hclosing
      exact hgraced
    · intro closing since _ hnot
      exact absurd hstopped hnot
    · intro earlier since hmem hsince
      exact h.unobserved earlier since (haway hmem) hsince

/-- The idle period a poll observes gets its grace. -/
theorem renew (h : Closing log work l) : Closing log work (l.renew (Work.idleSince work)) := by
  obtain ⟨heq, -⟩ | ⟨hnew, ⟨hkept, heq⟩ | ⟨since, closing, hstopping, hsince, hclosing, heq⟩⟩ :=
    renew_cases l (Work.idleSince work)
  · rw [heq]
    exact h
  · rw [heq]
    refine ⟨h.stopping, h.fresh, h.wentAway, h.goAway, h.graced, ?_, fun _ _ _ => .inl⟩
    intro closing since hclosing hnot hsince
    rcases hkept with hstopping | hrunning | hnone
    · exact absurd (h.stopping.mp hstopping) hnot
    · exact nomatch hrunning.symm.trans hsince
    · exact nomatch hnone.symm.trans hclosing
  · have hnot : ¬ Stopped log := by
      rw [← h.stopping, hstopping]
      exact Bool.false_ne_true
    rw [heq]
    refine ⟨h.stopping, nofun, ?_, ?_, ?_, ?_, fun _ _ _ => .inl⟩
    · intro _ _
      exact h.wentAway closing hclosing
    · rintro _ ⟨⟩ now hnow
      -- The period is new, so it began after the connection went away.
      have hle := (h.unobserved now since hnow hsince).resolve_left fun hsame =>
        hnew (hsince.trans hsame.symm)
      exact Nat.add_le_add_right hle _
    · intro _ _ hstopped
      exact absurd hstopped hnot
    · rintro _ later ⟨⟩ - hlater
      injection hsince.symm.trans hlater with hsame
      exact hsame ▸ le_rfl

/-- Observing activity keeps the closing. -/
theorem observe (h : Closing log work l) (credited : Bool) :
    Closing log work (l.observe (Work.idleSince work) credited) := by
  have hrenewed := h.renew
  unfold Lifecycle.observe
  dsimp only
  split
  · exact ⟨hrenewed.stopping, hrenewed.fresh, hrenewed.wentAway, hrenewed.goAway, hrenewed.graced,
      hrenewed.idle, hrenewed.unobserved⟩
  · exact hrenewed

/-- So does the quiet poll. -/
theorem pollQuiet (h : Closing log work l) (now : ℕ) (streams driven : Bool) :
    Closing log work (l.pollQuiet now streams driven).1 := by
  unfold Lifecycle.pollQuiet
  split
  · exact ⟨h.stopping, h.fresh, h.wentAway, h.goAway, h.graced, h.idle, h.unobserved⟩
  · exact ⟨h.stopping, h.fresh, h.wentAway, h.goAway, h.graced, h.idle, h.unobserved⟩

/-- Going away starts the grace. -/
theorem goesAway (h : Closing log work l) {now : ℕ} (hpast : ∀ e ∈ log, e.time ≤ now)
    (hsince : ∀ since, l.idleSince = some since → since ≤ now)
    (hidle : l.idleSince = Work.idleSince work) (hclosing : l.closing = none) :
    Closing (log ++ [.goAway now]) work { l with closing := some (now + shutdownGrace) } := by
  have hnone := (h.fresh hclosing).1
  have hstop : Stopped (log ++ [.goAway now]) ↔ Stopped log := stopped_snoc nofun
  refine ⟨h.stopping.trans hstop.symm, nofun, fun _ _ => ⟨now, by simp⟩, ?_, ?_, ?_, ?_⟩
  · rintro _ ⟨⟩ earlier hmem
    rcases List.mem_append.mp hmem with hmem | hmem
    · exact absurd hmem (hnone earlier)
    · injection List.mem_singleton.mp hmem with heq
      exact heq ▸ le_rfl
  · rintro _ ⟨⟩ -
    exact (graced_of_times hpast).snoc_other nofun nofun
  · rintro _ since ⟨⟩ - hidleSince
    exact Nat.add_le_add_right (hsince since hidleSince) _
  · intro _ since _ hlater
    exact .inl (hidle.trans hlater)

end Closing

/-! ## A poll -/

/-- The lifecycle as a poll finds it, before it decides on an event. -/
def observed (c : Lived) (now : ℕ) (activity : Activity) (driven : Driven) : Lifecycle :=
  ((c.lifecycle.observe (Work.idleSince c.work) activity.credited).pollQuiet now activity.streams
    driven.quiet).1

/-- A quiet timer elapses only from its deadline on. -/
theorem pollQuiet_elapsed {l : Lifecycle} {now : ℕ} {streams driven : Bool}
    (h : (l.pollQuiet now streams driven).2 = true) :
    ∃ quiet, (l.pollQuiet now streams driven).1.quiet = some quiet ∧ quiet ≤ now := by
  unfold Lifecycle.pollQuiet at h ⊢
  split at h
  · cases h
  · rename_i hstreams
    rw [if_neg hstreams]
    exact ⟨_, rfl, (of_decide_eq_true h).2⟩

/-- What is observed sets the stale deadline. -/
theorem observed_stale (c : Lived) (now : ℕ) (activity : Activity) (driven : Driven) :
    (observed c now activity driven).stale =
      (c.lifecycle.observe (Work.idleSince c.work) activity.credited).stale := by
  unfold observed Lifecycle.pollQuiet
  split <;> rfl

/-- What is observed leaves since when it is idle. -/
theorem observed_idleSince (c : Lived) (now : ℕ) (activity : Activity) (driven : Driven) :
    (observed c now activity driven).idleSince = Work.idleSince c.work := by
  have hobserve : (c.lifecycle.observe (Work.idleSince c.work) activity.credited).idleSince =
      Work.idleSince c.work := by
    unfold Lifecycle.observe
    dsimp only
    split
    · exact renew_idleSince _ _
    · exact renew_idleSince _ _
  refine Eq.trans ?_ hobserve
  unfold observed Lifecycle.pollQuiet
  split <;> rfl

/-- What a poll can answer: GoAway where the connection has not gone away yet and there is a cause,
Close where the grace is over and nothing holds the connection open, or nothing. -/
theorem poll_cases (c : Lived) (now : ℕ) (activity : Activity) (driven : Driven) :
    let found := observed c now activity driven
    c.lifecycle.poll c.work now activity driven =
        (some .goAway, { found with closing := some (now + shutdownGrace) }) ∧
      found.closing = none ∧ (found.stopping = true ∨
        (∃ stale, found.stale = some stale ∧ stale ≤ now) ∨
        ∃ quiet, found.quiet = some quiet ∧ quiet ≤ now) ∨
    c.lifecycle.poll c.work now activity driven = (some .close, found) ∧
      (found.idleSince.isSome = true ∨ found.stopping = true) ∧
      (∃ closing, found.closing = some closing ∧ closing ≤ now) ∨
    c.lifecycle.poll c.work now activity driven = (none, found) := by
  intro found
  have hfound : found = observed c now activity driven := rfl
  unfold Lifecycle.poll
  dsimp only
  split
  · rename_i hgo
    obtain ⟨hnone, hcause⟩ := hgo
    refine .inl ⟨rfl, Option.isNone_iff_eq_none.mp hnone, ?_⟩
    rcases hcause with hstopping | hstale | hquiet
    · exact .inl hstopping
    · obtain ⟨stale, hsome, helapsed⟩ := Option.any_eq_true _ _ |>.mp hstale
      exact .inr (.inl ⟨stale, (observed_stale c now activity driven).trans hsome,
        (of_decide_eq_true helapsed).2⟩)
    · exact .inr (.inr (pollQuiet_elapsed hquiet))
  · split
    · rename_i closing hclosing
      split
      · rename_i hclose
        exact .inr (.inl ⟨rfl, hclose.1, closing, hclosing, hclose.2.2⟩)
      · exact .inr (.inr rfl)
    · exact .inr (.inr rfl)

/-! ## Every run -/

/-- What holds of a connection and its log. -/
structure Kept (begun : ℕ) (log : List Entry) (c : Lived) : Prop where
  counted : Counted begun log c
  closing : Closing log c.work c.lifecycle
  stale : StaleKept log c.lifecycle
  quiet : QuietKept log c.lifecycle
  due : Justified (Due begun) log

/-- Nothing has happened yet. -/
theorem kept_new (begun : ℕ) : Kept begun [] (new begun) where
  counted := counted_new begun
  closing :=
    { stopping := by simp [new, Lifecycle.new, Stopped]
      fresh := fun _ => ⟨fun _ => List.not_mem_nil, fun _ => List.not_mem_nil⟩
      wentAway := nofun
      goAway := nofun
      graced := nofun
      idle := nofun
      unobserved := nofun }
  stale := nofun
  quiet := nofun
  due := Justified.nil

namespace Kept

variable {begun : ℕ} {log : List Entry} {c : Lived} {now : ℕ}

theorem start (h : Kept begun log c) (hnow : c.now ≤ now) :
    Kept begun (log ++ [.started now]) { c with work := Work.start c.work, now } where
  counted := h.counted.start hnow
  closing := h.closing.snoc (stopped_snoc nofun) nofun (fun _ => nofun) nofun
  stale := h.stale.snoc _
  quiet := h.quiet.snoc nofun
  due := h.due.snoc trivial

/-- Work that ends after the connection went away starts a new idle period. -/
theorem finish (h : Kept begun log c) (hnow : c.now ≤ now) (hrunning : 0 < c.work.running) :
    Kept begun (log ++ [.ended now]) { c with work := Work.finish c.work now, now } where
  counted := h.counted.finish hnow hrunning
  closing := by
    refine h.closing.snoc (stopped_snoc nofun) nofun (fun _ => nofun) ?_
    intro earlier since hearlier hsince
    -- the idle period begins as the last work ends, after all that was logged
    obtain ⟨-, heq⟩ := (h.counted.finish hnow hrunning).of_idleSince hsince
    rw [heq, idleSince_ended]
    exact .inr ((h.counted.times _ hearlier).trans hnow)
  stale := h.stale.snoc _
  quiet := h.quiet.snoc nofun
  due := h.due.snoc trivial

/-- A stop keeps the log's account. -/
theorem stop (h : Kept begun log c) (hnow : c.now ≤ now) :
    Kept begun (log ++ [.stopped now]) { c with lifecycle := c.lifecycle.stop now, now } where
  counted := h.counted.snoc hnow rfl rfl rfl
  closing := h.closing.stop fun e he => (h.counted.times e he).trans hnow
  stale := (h.stale.stop now).snoc _
  quiet := (h.quiet.stop now).snoc nofun
  due := h.due.snoc trivial

/-- A poll that decides on no event. -/
theorem observed (h : Kept begun log c) (hnow : c.now ≤ now) (activity : Activity)
    (driven : Driven) :
    Kept begun (log ++ [.polled now activity])
      { c with lifecycle := observed c now activity driven, now } where
  counted := h.counted.snoc hnow rfl rfl rfl
  closing := by
    have hpolled : Closing (log ++ [.polled now activity]) c.work c.lifecycle :=
      h.closing.snoc (stopped_snoc nofun) nofun (fun _ => nofun) h.closing.unobserved
    exact (hpolled.observe _).pollQuiet _ _ _
  stale := by
    refine ((h.stale.snoc _).observe (List.mem_append_right _ (List.mem_singleton_self _)) ?_).pollQuiet
      _ _ _
    intro began hbegan
    obtain ⟨-, rfl⟩ := h.counted.of_idleSince hbegan
    exact h.counted.past.trans hnow
  quiet := (h.quiet.observe _ _).pollQuiet _ _ _ _
  due := h.due.snoc trivial

/-- The lifecycle's causes are those of the log. -/
theorem goAway (h : Kept begun log c) (hclosing : c.lifecycle.closing = none)
    (hidle : c.lifecycle.idleSince = Work.idleSince c.work)
    (hcause : c.lifecycle.stopping = true ∨
      (∃ stale, c.lifecycle.stale = some stale ∧ stale ≤ c.now) ∨
      ∃ quiet, c.lifecycle.quiet = some quiet ∧ quiet ≤ c.now) :
    Kept begun (log ++ [.goAway c.now])
      { c with lifecycle.closing := some (c.now + shutdownGrace) } where
  counted := h.counted.snoc le_rfl rfl rfl rfl
  closing := by
    refine h.closing.goesAway h.counted.times ?_ hidle hclosing
    intro since hsince
    obtain ⟨-, rfl⟩ := h.counted.of_idleSince (hidle.symm.trans hsince)
    exact h.counted.past
  stale := h.stale.snoc _
  quiet := h.quiet.snoc nofun
  due := by
    obtain ⟨hgoAway, hclosed⟩ := h.closing.fresh hclosing
    refine h.due.snoc (GoAwayDue.mk hgoAway hclosed ?_)
    rcases hcause with hstopping | ⟨stale, hstale, hle⟩ | ⟨quiet, hquiet, hle⟩
    · exact .inl (h.closing.stopping.mp hstopping)
    · obtain ⟨since, seen, streams, hsince, rfl, hseen, hseenLe⟩ := h.stale stale hstale
      obtain ⟨hrunning, rfl⟩ := h.counted.of_idleSince (hidle.symm.trans hsince)
      exact .inr (.inl ⟨hrunning, hle, seen, streams, hseen, hseenLe⟩)
    · obtain ⟨since, hsince, rfl⟩ := h.quiet quiet hquiet
      exact .inr (.inr ⟨since, hsince, hle⟩)

/-- Every grace is over when the closing timer elapses. -/
theorem close (h : Kept begun log c) (hidle : c.lifecycle.idleSince = Work.idleSince c.work)
    (hclosable : c.lifecycle.idleSince.isSome = true ∨ c.lifecycle.stopping = true) {closing : ℕ}
    (hclosing : c.lifecycle.closing = some closing) (hle : closing ≤ c.now) :
    Kept begun (log ++ [.close c.now]) c where
  counted := h.counted.snoc le_rfl rfl rfl rfl
  closing := h.closing.snoc (stopped_snoc nofun) nofun
    (fun hnone => nomatch hnone.symm.trans hclosing) h.closing.unobserved
  stale := h.stale.snoc _
  quiet := h.quiet.snoc nofun
  due := by
    refine h.due.snoc (CloseDue.mk (h.closing.wentAway closing hclosing) ?_ ?_ ?_)
    · rcases hclosable with hsome | hstopping
      · obtain ⟨since, hsince⟩ := Option.isSome_iff_exists.mp hsome
        exact .inl (h.counted.of_idleSince (hidle.symm.trans hsince)).1
      · exact .inr (h.closing.stopping.mp hstopping)
    · intro earlier hmem
      exact (h.closing.goAway closing hclosing earlier hmem).trans hle
    · -- after a stop the timer was set by it, else by the end of the last work
      refine Graced.mono ?_ hle
      by_cases hstopped : Stopped log
      · exact h.closing.graced closing hclosing hstopped
      · apply graced_of_endings hstopped
        intro ended hended
        have hsome := hclosable.resolve_right fun hstopping =>
          hstopped (h.closing.stopping.mp hstopping)
        obtain ⟨since, hsince⟩ := Option.isSome_iff_exists.mp hsome
        obtain ⟨-, hlast⟩ := h.counted.of_idleSince (hidle.symm.trans hsince)
        calc ended + shutdownGrace
            ≤ since + shutdownGrace := Nat.add_le_add_right (hlast ▸ h.counted.last ended hended) _
          _ ≤ closing := h.closing.idle closing since hclosing hstopped hsince

end Kept

/-- What one step keeps. -/
theorem step_kept {begun : ℕ} (log : List Entry) (c : Lived) (a : Action) (later : Lived)
    (events : List Entry) (h : Kept begun log c) (hstep : step c a = some (later, events)) :
    Kept begun (log ++ events) later := by
  unfold step at hstep
  split at hstep
  · cases hstep
  rename_i hnow
  rw [Nat.not_lt] at hnow
  cases a with
  | start now =>
    cases hstep
    exact h.start hnow
  | finish now =>
    dsimp only at hstep
    split at hstep
    · rename_i hrunning
      cases hstep
      exact h.finish hnow hrunning
    · cases hstep
  | stop now =>
    cases hstep
    exact h.stop hnow
  | poll now activity driven =>
    have hpolled := h.observed hnow activity driven
    have hidle := observed_idleSince c now activity driven
    -- the poll is logged first, and then what it answers
    obtain ⟨heq, hclosing, hcause⟩ | ⟨heq, hclosable, closing, hclosing, hle⟩ | heq :=
      poll_cases c now activity driven
    · simp only [heq] at hstep
      cases hstep
      have hgone := hpolled.goAway hclosing hidle hcause
      rw [List.append_assoc] at hgone
      exact hgone
    · simp only [heq] at hstep
      cases hstep
      have hclosed := hpolled.close hidle hclosable hclosing hle
      rw [List.append_assoc] at hclosed
      exact hclosed
    · simp only [heq] at hstep
      cases hstep
      exact hpolled

/-- **A connection's lifecycle.** Over every run of polls, work and stops, GoAway comes at most once
and before any Close, and for a stop, for credit without admitted work or for a quiet connection;
Close cuts no running work short unless the server stops, and leaves every grace its time. -/
theorem lifecycle_due (begun : ℕ) (actions : List Action) {c : Lived} {log : List Entry}
    (hrun : run step (new begun) actions = some (c, log)) : Justified (Due begun) log :=
  (run_induct (Kept begun) step_kept (kept_new begun) hrun).due

/-- A connection without streams goes away after 15 seconds, and closes after 5 more. -/
theorem lifecycle_due_quiet :
    Justified (Due 0)
      [.polled 0 ⟨false, false⟩, .polled connectionIdle ⟨false, false⟩, .goAway connectionIdle,
        .polled (connectionIdle + shutdownGrace) ⟨false, false⟩,
        .close (connectionIdle + shutdownGrace)] :=
  lifecycle_due 0
    [.poll 0 ⟨false, false⟩ ⟨true, true, true⟩, .poll connectionIdle ⟨false, false⟩ ⟨true, true, true⟩,
      .poll (connectionIdle + shutdownGrace) ⟨false, false⟩ ⟨true, true, true⟩] rfl

end GraphiteMeter.Server.Lived
