import GraphiteMeter.Browser.History.SavingPage
import Mathlib.Data.Prod.Lex
import Mathlib.Order.WellFounded

/-!
# Nothing queued is stuck

Whatever failed before, once the store carries out what the tab asks and its retry timer runs, the
tab's own steps empty its queue: signing out, which waits for `pending`, ends. Each such step makes
progress by a measure: the drain's failures not yet heard, the queue, where the drain stands, and what
is asked or answered.

Reference: `client/src/app/history/saving.ts`.
-/

namespace GraphiteMeter.Browser.History

/-! ## Progress -/

section Progress

variable {ι : Type*} [LinearOrder ι]

/-- An answer that stops the drain until a retry. -/
def Answer.stops : Answer ι → Bool
  | .recount _ (.error _) => true
  | .put _ _ (.error _) => true
  | _ => false

/-- How many awaits the drain may have before its head is settled. -/
def Phase.ahead : Phase → ℕ
  | .idle => 3
  | .awaiting => 2
  | .reading => 1
  | .putting => 0

/-- What lies before a tab whose requests no longer fail. -/
def Tab.ahead (tab : Tab ι) : ℕ ×ₗ ℕ ×ₗ ℕ ×ₗ ℕ :=
  toLex (tab.answered.countP (·.stops), toLex (tab.queue.length,
    toLex (tab.phase.ahead, 2 * tab.asked.length + tab.answered.length)))

omit [LinearOrder ι] in
/-- Fewer failures, or as many and a shorter queue, or as long a one and the drain further, or as far
and less under way. -/
theorem Tab.ahead_lt {tab tab' : Tab ι}
    (h : tab'.answered.countP (·.stops) < tab.answered.countP (·.stops) ∨
      tab'.answered.countP (·.stops) = tab.answered.countP (·.stops) ∧
        (tab'.queue.length < tab.queue.length ∨ tab'.queue.length = tab.queue.length ∧
          (tab'.phase.ahead < tab.phase.ahead ∨ tab'.phase.ahead = tab.phase.ahead ∧
            2 * tab'.asked.length + tab'.answered.length
              < 2 * tab.asked.length + tab.answered.length))) : tab'.ahead < tab.ahead := by
  simp only [Tab.ahead, Prod.Lex.toLex_lt_toLex]
  exact h

/-- How far the loop gets: an entry is settled, or it stops at an await. -/
theorem Tab.loop_ahead (tab : Tab ι) (entries : List (Entry ι)) (hqueue : tab.queue = entries) :
    (tab.loop entries).1.answered = tab.answered ∧
      ((tab.loop entries).1.queue.length < entries.length ∨
        (tab.loop entries).1.queue = entries ∧
          (entries = [] ∨
            (tab.loop entries).1.phase = .awaiting ∧ (tab.loop entries).1.asked = tab.asked ∨
            (tab.loop entries).1.phase = .reading ∨ (tab.loop entries).1.phase = .putting)) := by
  induction entries generalizing tab with
  | nil => exact ⟨rfl, .inr ⟨hqueue, .inl rfl⟩⟩
  | cons entry rest ih =>
    have hsettled : ∀ written message,
        ((tab.settle entry rest written message).loop rest).1.answered = tab.answered ∧
          ((tab.settle entry rest written message).loop rest).1.queue.length
            < (entry :: rest).length := by
      intro written message
      obtain ⟨hanswered, hlt | ⟨heq, -⟩⟩ := ih (tab.settle entry rest written message) rfl
      · exact ⟨hanswered, hlt.trans (Nat.lt_succ_self _)⟩
      · refine ⟨hanswered, ?_⟩
        rw [heq]
        exact Nat.lt_succ_self _
    rw [Tab.loop]
    cases entry.clears with
    | pending => exact ⟨rfl, .inr ⟨hqueue, .inr (.inl ⟨rfl, rfl⟩)⟩⟩
    | refused message => exact (hsettled false message).imp_right .inl
    | unknown =>
      dsimp only
      split
      next => exact (hsettled false UNORDERED).imp_right .inl
      next => exact ⟨rfl, .inr ⟨hqueue, .inr (.inr (.inl rfl))⟩⟩
    | read v =>
      dsimp only
      split
      next => exact ⟨rfl, .inr ⟨hqueue, .inr (.inr (.inr rfl))⟩⟩
      next => exact (hsettled false UNSAVABLE).imp_right .inl

/-- A retry of an idle drain with something queued. -/
theorem Tab.drain_ahead {tab : Tab ι} (hphase : tab.phase = .idle) (hqueue : tab.queue ≠ []) :
    tab.drain.1.ahead < tab.ahead := by
  rw [Tab.drain, if_pos hphase]
  obtain ⟨hanswered, hloop⟩ := tab.loop_ahead tab.queue rfl
  refine Tab.ahead_lt (.inr ⟨by rw [hanswered], ?_⟩)
  rcases hloop with hlt | ⟨heq, hnil | ⟨hawaiting, -⟩ | hreading | hputting⟩
  · exact .inl hlt
  · exact absurd hnil hqueue
  · exact .inr ⟨by rw [heq], .inl (by rw [hawaiting, hphase]; decide)⟩
  · exact .inr ⟨by rw [heq], .inl (by rw [hreading, hphase]; decide)⟩
  · exact .inr ⟨by rw [heq], .inl (by rw [hputting, hphase]; decide)⟩

omit [LinearOrder ι] in
/-- An answer of no consequence to the drain is out of the way. -/
theorem Tab.ahead_taken {tab tab' : Tab ι} {answer : Answer ι} {answers : List (Answer ι)}
    (hanswered : tab.answered = answer :: answers) (hstops : answer.stops = false)
    (htaken : tab'.answered = answers) (hqueue : tab'.queue.length = tab.queue.length)
    (hphase : tab'.phase = tab.phase) (hasked : tab'.asked = tab.asked) : tab'.ahead < tab.ahead := by
  apply Tab.ahead_lt
  rw [hanswered, htaken, hqueue, hphase, hasked, List.countP_cons_of_neg (by simp [hstops])]
  refine .inr ⟨rfl, .inr ⟨rfl, .inr ⟨rfl, ?_⟩⟩⟩
  rw [List.length_cons]
  omega

/-- The answer of an entry's count. -/
theorem Tab.resolve_ahead {tab : Tab ι} {m : ℕ} {result : Except Failure ℕ} {clears : Count}
    {answers : List (Answer ι)} (hpage : Page tab)
    (hanswered : tab.answered = .count m result :: answers) (known : Option ℕ) :
    (Tab.resolve { tab with answered := answers, known } m clears).resume.1.ahead < tab.ahead := by
  have hlength : (tab.queue.map (Entry.resolve m clears)).length = tab.queue.length :=
    List.length_map ..
  rw [Tab.resume]
  split
  next hphase =>
    obtain ⟨entry, rest, hqueue, -⟩ := hpage.awake.awaiting hphase
    obtain ⟨htaken, hloop⟩ := Tab.loop_ahead
      (Tab.resolve { tab with answered := answers, known } m clears) _ rfl
    have hsame : tab.answered.countP (·.stops) = answers.countP (·.stops) := by
      rw [hanswered]
      exact List.countP_cons_of_neg Bool.false_ne_true
    have hphase : tab.phase = .awaiting := hphase
    rcases hloop with hlt | ⟨heq, hnil | ⟨hawaiting, hasked⟩ | hreading | hputting⟩
    · exact Tab.ahead_lt (.inr ⟨by rw [htaken]; exact hsame.symm, .inl (hlength ▸ hlt)⟩)
    · rw [Tab.resolve, List.map_eq_nil_iff] at hnil
      rw [hqueue] at hnil
      cases hnil
    · exact Tab.ahead_taken hanswered rfl htaken (by rw [heq]; exact hlength)
        (hawaiting.trans hphase.symm) hasked
    · refine Tab.ahead_lt (.inr ⟨by rw [htaken]; exact hsame.symm, .inr ⟨?_, .inl ?_⟩⟩)
      · rw [heq]
        exact hlength
      · rw [hreading, hphase]
        decide
    · refine Tab.ahead_lt (.inr ⟨by rw [htaken]; exact hsame.symm, .inr ⟨?_, .inl ?_⟩⟩)
      · rw [heq]
        exact hlength
      · rw [hputting, hphase]
        decide
  next => exact Tab.ahead_taken hanswered rfl rfl hlength rfl rfl

/-- A failure of the drain's own is heard. -/
theorem Tab.caught_ahead {tab : Tab ι} {entry : Entry ι} {rest : List (Entry ι)} {answer : Answer ι}
    {answers : List (Answer ι)} (hanswered : tab.answered = answer :: answers)
    (hstops : answer.stops = true) (failure : Failure) :
    (Tab.caught { tab with answered := answers } entry rest failure).1.ahead < tab.ahead := by
  have hfewer : ∀ tab' : Tab ι, tab'.answered = answers → tab'.ahead < tab.ahead := by
    intro tab' htaken
    refine Tab.ahead_lt (.inl ?_)
    rw [htaken, hanswered, List.countP_cons_of_pos hstops]
    exact Nat.lt_succ_self _
  cases failure with
  | refusal message => exact hfewer _ (Tab.loop_ahead _ rest rfl).1
  | other => exact hfewer _ rfl

/-- An answer with which the head is settled. -/
theorem Tab.settle_ahead {tab settled : Tab ι} {entry : Entry ι} {rest : List (Entry ι)}
    {answer : Answer ι} {answers : List (Answer ι)} (hanswered : tab.answered = answer :: answers)
    (hstops : answer.stops = false) (hqueue : tab.queue = entry :: rest)
    (hsettled : settled.queue = rest) (htaken : settled.answered = answers) :
    (settled.loop rest).1.ahead < tab.ahead := by
  obtain ⟨hloop, hle⟩ := settled.loop_ahead rest hsettled
  have hlength : (settled.loop rest).1.queue.length ≤ rest.length := by
    rcases hle with hlt | ⟨heq, -⟩
    · exact hlt.le
    · rw [heq]
  refine Tab.ahead_lt (.inr ⟨?_, .inl ?_⟩)
  · rw [hloop, htaken, hanswered, List.countP_cons_of_neg (by simp [hstops])]
  · rw [hqueue]
    exact Nat.lt_succ_of_le hlength

variable {τ : Type*} [DecidableEq τ]

/-- Whatever answer is taken. -/
theorem Tab.take_ahead {t : τ} {log : Log τ ι} {clears : ℕ} {tab : Tab ι} {answer : Answer ι}
    {answers : List (Answer ι)} (hsound : Sound t log clears tab.core) (hpage : Page tab)
    (hanswered : tab.answered = answer :: answers) :
    (Tab.take { tab with answered := answers } answer).1.ahead < tab.ahead := by
  have hremoved : ∀ id, (Tab.removed { tab with answered := answers } id).core
      = ({ tab with answered := answers } : Tab ι).core := fun id => Tab.removed_core _ id
  cases answer with
  | count m result =>
    cases result with
    | ok v => exact Tab.resolve_ahead hpage hanswered (some v)
    | error failure =>
      cases failure with
      | refusal message => exact Tab.resolve_ahead hpage hanswered tab.known
      | other =>
        rw [Tab.take, Tab.counted]
        split
        next => exact Tab.resolve_ahead hpage hanswered tab.known
        next => exact Tab.resolve_ahead hpage hanswered tab.known
  | recount m result =>
    obtain ⟨head, tail, hqueue, hput | ⟨k, -, -⟩⟩ :=
      hsound.head (Core.mem_flights hanswered rfl)
    · cases hput
    have hreading : tab.phase = .reading := by
      have hmem : Flight.recount m ∈ tab.core.flights := Core.mem_flights hanswered rfl
      cases hphase : tab.phase with
      | idle => rw [hsound.quiet (.inl hphase)] at hmem; cases hmem
      | awaiting => rw [hsound.quiet (.inr hphase)] at hmem; cases hmem
      | reading => rfl
      | putting =>
        obtain ⟨_, _, -, hflights⟩ := hsound.putting hphase
        rw [hflights, List.mem_singleton] at hmem
        cases hmem
    rw [Tab.take, Tab.recounted]
    split
    next hnil => exact absurd (hqueue.symm.trans hnil) (by simp)
    next entry rest hcons =>
      cases result with
      | ok v =>
        dsimp only
        split
        next =>
          refine Tab.ahead_lt (.inr ⟨?_, .inr ⟨rfl, .inl ?_⟩⟩)
          · rw [hanswered]
            exact (List.countP_cons_of_neg Bool.false_ne_true).symm
          · rw [hreading]
            exact Nat.zero_lt_one
        next => exact Tab.settle_ahead hanswered rfl hcons rfl rfl
      | error failure => exact Tab.caught_ahead hanswered rfl failure
  | put n record outcome =>
    obtain ⟨head, tail, hqueue, -⟩ := hsound.head (Core.mem_flights hanswered rfl)
    rw [Tab.take, Tab.saved]
    split
    next hnil => exact absurd (hqueue.symm.trans hnil) (by simp)
    next entry rest hcons =>
      cases outcome with
      | ok result =>
        have hsame := Tab.foldl_removed_core { tab with answered := answers }
          (result.2.filter fun id => decide (id ≠ record.id))
        dsimp only
        split
        · exact Tab.settle_ahead hanswered rfl hcons rfl (congrArg Core.answered hsame)
        · exact Tab.settle_ahead hanswered rfl hcons rfl (congrArg Core.answered hsame)
      | error failure => exact Tab.caught_ahead hanswered rfl failure
  | inspect id ready =>
    rcases ready with failure | (_ | _)
    · exact Tab.ahead_taken hanswered rfl rfl rfl rfl rfl
    · exact Tab.ahead_taken hanswered rfl (congrArg Core.answered (hremoved id))
        (congrArg (fun c => c.queue.length) (hremoved id)) (congrArg Core.phase (hremoved id))
        (congrArg Core.asked (hremoved id))
    · exact Tab.ahead_taken hanswered rfl rfl rfl rfl rfl
  | clear outcome =>
    cases outcome <;> exact Tab.ahead_taken hanswered rfl rfl rfl rfl rfl
  | delete id outcome =>
    cases outcome with
    | error => exact Tab.ahead_taken hanswered rfl rfl rfl rfl rfl
    | ok =>
      exact Tab.ahead_taken hanswered rfl (congrArg Core.answered (hremoved id))
        (congrArg (fun c => c.queue.length) (hremoved id)) (congrArg Core.phase (hremoved id))
        (congrArg Core.asked (hremoved id))
  | removeMalformed removed => exact Tab.ahead_taken hanswered rfl rfl rfl rfl rfl

end Progress

/-! ## Draining -/

section Drains

variable {τ ι : Type*} [DecidableEq τ] [LinearOrder ι]

/-- The steps of one tab whose requests do not fail: its retry, the store's, and its answers. -/
def Untroubled (t : τ) : Action τ ι → Prop
  | .act u .retry => u = t
  | .act u .take => u = t
  | .serve u none => u = t
  | _ => False

/-- What a request carried out answers stops nothing. -/
theorem Database.serve_stops (db : Database ι) (request : Request ι) :
    (db.serve request none).2.1.stops = false := by
  cases request <;> rfl

/-- While something is queued, one of these steps makes progress. -/
theorem progress {log : Log τ ι} {w : World τ ι} {t : τ} (hsteady : Steady log w)
    (hpage : Page (w.tabs t)) (hqueue : (w.tabs t).queue ≠ []) :
    ∃ a w' events, Untroubled t a ∧ w.step a = some (w', events) ∧
      (w'.tabs t).ahead < (w.tabs t).ahead := by
  have hsound := hsteady.sound t
  cases hanswered : (w.tabs t).answered with
  | cons answer answers =>
    have hact : (w.tabs t).act .take
        = some (Tab.take { w.tabs t with answered := answers } answer) := by
      rw [Tab.act, hanswered]
    refine ⟨.act t .take, _, _, rfl, by rw [World.step, hact], ?_⟩
    dsimp only
    rw [Function.update_self]
    exact Tab.take_ahead hsound hpage hanswered
  | nil =>
    cases hasked : (w.tabs t).asked with
    | cons request asked =>
      refine ⟨.serve t none, _, _, rfl, by rw [World.step, hasked], ?_⟩
      dsimp only
      rw [Function.update_self]
      apply Tab.ahead_lt
      rw [hasked, hanswered]
      refine .inr ⟨?_, .inr ⟨rfl, .inr ⟨rfl, ?_⟩⟩⟩
      · exact List.countP_cons_of_neg (by simp [w.db.serve_stops request])
      · show 2 * asked.length + 1 < 2 * (asked.length + 1) + 0
        omega
    | nil =>
      have hflights : (w.tabs t).core.flights = [] := by
        show (w.tabs t).answered.filterMap Answer.flight?
          ++ (w.tabs t).asked.filterMap Request.flight? = []
        rw [hanswered, hasked]
        rfl
      have hidle : (w.tabs t).phase = .idle := by
        cases hphase : (w.tabs t).phase with
        | idle => rfl
        | awaiting =>
          obtain ⟨entry, rest, hcons, hpending⟩ := hpage.awake.awaiting hphase
          rcases hpage.queued.counting entry (hcons ▸ List.mem_cons_self) hpending with hmem | ⟨_, hmem⟩
          · rw [hasked] at hmem
            cases hmem
          · rw [hanswered] at hmem
            cases hmem
        | reading =>
          obtain ⟨_, _, m, -, hone, -⟩ := hsound.reading hphase
          rw [hflights] at hone
          cases hone
        | putting =>
          obtain ⟨_, _, -, hone⟩ := hsound.putting hphase
          rw [hflights] at hone
          cases hone
      have hretrying := (hpage.awake.idle hidle).resolve_left hqueue
      have hact : (w.tabs t).act .retry = some (w.tabs t).drain := by
        rw [Tab.act, Tab.retry, if_pos hretrying]
      refine ⟨.act t .retry, _, _, rfl, by rw [World.step, hact], ?_⟩
      dsimp only
      rw [Function.update_self]
      exact Tab.drain_ahead hidle hqueue

/-- From a steady world an untroubled tab drains. -/
theorem drains_of_steady {log : Log τ ι} {w : World τ ι} (t : τ) (hsteady : Steady log w)
    (hpage : ∀ u, Page (w.tabs u)) :
    ∃ actions w' later, (∀ a ∈ actions, Untroubled t a) ∧
      Machine.run World.step w actions = some (w', later) ∧ (w'.tabs t).queue = [] := by
  induction hahead : (w.tabs t).ahead using WellFoundedLT.induction generalizing w log with
  | ind n ih =>
    by_cases hqueue : (w.tabs t).queue = []
    · exact ⟨[], w, [], (fun a ha => by cases ha), rfl, hqueue⟩
    · obtain ⟨a, w₁, events, hfit, hstep, hlt⟩ := progress hsteady (hpage t) hqueue
      have hsteady₁ : Steady (log ++ events) w₁ := by
        cases a with
        | act u a => exact hsteady.act hstep
        | serve u failure => exact hsteady.serve hstep
      obtain ⟨actions, w', later, hfits, hrun, hempty⟩ :=
        ih _ (hahead ▸ hlt) hsteady₁ (page_step hpage hstep) rfl
      exact ⟨a :: actions, w', events ++ later, List.forall_mem_cons.mpr ⟨hfit, hfits⟩,
        Machine.run_cons_iff.mpr ⟨w₁, events, later, hstep, hrun, rfl⟩, hempty⟩

/-- In any run, whatever requests failed: a tab shows what its queue and its settled records say, at
most `MAX_QUEUED` results wait, and from where it stands the tab's own untroubled steps empty its
queue. -/
theorem shows_and_drains {db : Database ι} {saving : τ → Bool} {actions : List (Action τ ι)}
    {w : World τ ι} {log : Log τ ι}
    (hrun : Machine.run World.step (World.start db saving) actions = some (w, log)) (t : τ) :
    (w.tabs t).pending = !(w.tabs t).queue.isEmpty ∧ (w.tabs t).queue.length ≤ MAX_QUEUED ∧
      ((w.tabs t).queue.map (·.record.id)).Nodup ∧
      ((w.tabs t).unsaved = true ↔
        ∃ record, (w.tabs t).offered = some record ∧ (w.tabs t).settled record.id ≠ some true) ∧
      ((w.tabs t).failed = true ↔
        ∃ record, (w.tabs t).offered = some record ∧ (w.tabs t).lost record.id = true) ∧
      ∃ more w' later, (∀ a ∈ more, Untroubled t a) ∧
        Machine.run World.step w more = some (w', later) ∧ (w'.tabs t).queue = [] := by
  have hpage := page_run hrun
  have hshown := (hpage t).shown
  refine ⟨(hpage t).queued.pending, (hpage t).queued.bound, (hpage t).queued.ids, ?_, ?_,
    drains_of_steady t (steady_run hrun) hpage⟩
  · rw [← hshown, Tab.showUnsaved]
    simp [Option.any_eq_true]
  · rw [← hshown, Tab.showUnsaved]
    simp [Option.any_eq_true]

/-- A write fails, and the tab waits to retry it. -/
theorem shows_and_drains_failed :
    ∃ w log, Machine.run World.step (World.start ⟨[], 0⟩ fun _ => true)
        ([.act false (.offer (.finished 0 1)), .serve false none, .act false .take,
          .serve false (some .other), .act false .take] : List (Action Bool ℕ)) = some (w, log) ∧
      (w.tabs false).pending = true ∧
      ∃ more w' later, (∀ a ∈ more, Untroubled false a) ∧
        Machine.run World.step w more = some (w', later) ∧ (w'.tabs false).queue = [] := by
  have hpending : (Machine.run World.step (World.start ⟨[], 0⟩ fun _ => true)
      ([.act false (.offer (.finished 0 1)), .serve false none, .act false .take,
        .serve false (some .other), .act false .take] : List (Action Bool ℕ))).map
      (fun result => (result.1.tabs false).pending) = some true := by
    decide
  obtain ⟨⟨w, log⟩, hrun, hw⟩ := Option.map_eq_some_iff.mp hpending
  obtain ⟨-, -, -, -, -, hdrains⟩ := shows_and_drains hrun false
  exact ⟨w, log, hrun, hw, hdrains⟩

end Drains

end GraphiteMeter.Browser.History
