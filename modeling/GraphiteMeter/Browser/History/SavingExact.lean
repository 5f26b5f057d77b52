import GraphiteMeter.Browser.History.SavingActs
import Mathlib.Data.List.Sort

/-!
# Results are saved in order, and never past a clear

Over every run of any number of tabs, a tab's writes are a sublist of what it queued, and each is made
under a count that no tab's clear has passed since it was read. A count read as the result was queued,
or fallen back on then, also keeps out every clear the same tab asked for later. One read again when
the write's turn came keeps out the clears the tab asked for after that, and is read only if the tab
noticed no change of History since it queued the result.

Reference: `client/src/app/history/saving.ts`; `client/src/app/history/repository.ts`.
-/

namespace GraphiteMeter.Browser.History

/-! ## The store's part -/

section Served

variable {τ ι : Type*} [DecidableEq τ]

/-- What one tab does is quiet for another. -/
theorem quiet_of_ne {t u : τ} (h : u ≠ t) (events : List (Event ι)) :
    Quiet u (events.map (Prod.mk t)) := by
  have hnone : ∀ e ∈ events.map (Prod.mk t), ¬ e.1 = u := by
    intro e he
    obtain ⟨_, -, rfl⟩ := List.mem_map.mp he
    exact fun heq => h heq.symm
  refine ⟨?_, ?_, ?_, ?_, fun k hk => hnone _ hk rfl⟩
  · exact List.filterMap_eq_nil_iff.mpr fun e he => if_neg (hnone e he)
  · exact List.filterMap_eq_nil_iff.mpr fun e he => if_neg (hnone e he)
  · exact List.filterMap_eq_nil_iff.mpr fun e he => if_neg (hnone e he)
  · exact List.countP_eq_zero.mpr fun e he => by simp [hnone e he]

omit [DecidableEq τ] in
/-- What is local to a tab clears nothing. -/
theorem clearedIn_local {t : τ} {events : List (Event ι)} (h : ∀ e ∈ events, e.isLocal = true) :
    clearedIn (events.map (Prod.mk t)) = 0 := by
  apply List.countP_eq_zero.mpr
  intro e he
  obtain ⟨event, hevent, rfl⟩ := List.mem_map.mp he
  have := h event hevent
  cases event <;> simp_all [Event.isLocal, Event.isCleared]

/-- Nothing is logged of a request that failed, or of one that only looks. -/
theorem Served.nothing {t : τ} {log : Log τ ι} {clears : ℕ} {request : Request ι}
    {answer : Answer ι} (hflight : answer.flight? = request.flight?)
    (hcleared : answer.isCleared = false)
    (hread : ∀ m result, answer.read? = some (m, result) →
      request.read? = some m ∧ ∀ v, result ≠ .ok v) :
    Served t log [] clears clears request answer where
  flight := hflight
  clears_eq := rfl
  unheard := by
    rw [hcleared]
    rfl
  cleared := fun k hk => by cases hk
  issued := rfl
  queued := rfl
  noticed := rfl
  read := fun m result h => ⟨(hread m result h).1, rfl, fun v hv => absurd hv ((hread m result h).2 v)⟩
  wrote := .inl rfl

/-- A read of the clear count, carried out. -/
theorem Served.counted {t : τ} {log : Log τ ι} {clears m : ℕ} {request : Request ι}
    {answer : Answer ι} (hflight : answer.flight? = request.flight?)
    (hcleared : answer.isCleared = false) (hrequest : request.read? = some m)
    (hread : answer.read? = some (m, .ok clears)) :
    Served t log [(t, .counted m)] clears clears request answer where
  flight := hflight
  clears_eq := rfl
  unheard := by
    rw [hcleared]
    rfl
  cleared := fun k hk => by simp at hk
  issued := by simp [issuedBy, Event.issued?]
  queued := by simp [queuedBy, Event.queued?]
  noticed := by simp [noticedBy, Event.isNoticed]
  read := fun k result h => by
    rw [hread] at h
    cases h
    refine ⟨hrequest, rfl, fun v hv => ?_⟩
    cases hv
    exact ⟨rfl, Since.last log _⟩
  wrote := .inl (by simp [wroteBy, Event.wrote?])

variable [LinearOrder ι]

/-- A put does not clear. -/
theorem Database.put_clears (db : Database ι) (record : Row ι) (clears : ℕ) :
    (db.put record clears).db.clears = db.clears := by
  rw [Database.put]
  split <;> rfl

/-- A put writes exactly while the count it was asked under has not been passed. -/
theorem Database.put_written (db : Database ι) (record : Row ι) (clears : ℕ) :
    (db.put record clears).written = true ↔ db.clears ≤ clears := by
  rw [Database.put]
  split
  next h => simp [h]
  next h => simp [Nat.le_of_not_lt h]

/-- Whatever request the store is asked to carry out, and whether or not it fails. -/
theorem Database.served (db : Database ι) (t : τ) (log : Log τ ι) (request : Request ι)
    (failure : Option Failure) :
    Served t log ((db.serve request failure).2.2.map (Prod.mk t)) db.clears
      (db.serve request failure).1.clears request (db.serve request failure).2.1 := by
  have hno : ∀ {P : Prop} {m : ℕ} {result : Except Failure ℕ},
      (none : Option (ℕ × Except Failure ℕ)) = some (m, result) → P := fun h => by cases h
  cases failure with
  | some failure =>
    cases request with
    | count m =>
      refine Served.nothing rfl rfl fun k result h => ?_
      cases h
      exact ⟨rfl, fun v hv => by cases hv⟩
    | recount m =>
      refine Served.nothing rfl rfl fun k result h => ?_
      cases h
      exact ⟨rfl, fun v hv => by cases hv⟩
    | _ => exact Served.nothing rfl rfl fun k result h => hno h
  | none =>
    cases request with
    | count m => exact Served.counted rfl rfl rfl rfl
    | recount m => exact Served.counted rfl rfl rfl rfl
    | put n record v =>
      rw [Database.serve]
      dsimp only
      rw [db.put_clears]
      cases hwritten : (db.put record v).written with
      | false => exact Served.nothing rfl rfl fun k result h => hno h
      | true =>
        exact
          { flight := rfl
            clears_eq := rfl
            unheard := rfl
            cleared := fun k hk => by simp at hk
            issued := by simp [issuedBy, Event.issued?]
            queued := by simp [queuedBy, Event.queued?]
            noticed := by simp [noticedBy, Event.isNoticed]
            read := fun k result h => hno h
            wrote := .inr ⟨n, record, v, rfl, by simp [wroteBy, Event.wrote?], rfl⟩ }
    | clear m =>
      exact
        { flight := rfl
          clears_eq := rfl
          unheard := rfl
          cleared := fun k hk => by
            have hk : (t, Event.cleared k) = (t, Event.cleared m) := List.mem_singleton.mp hk
            cases hk
            rfl
          issued := by simp [Database.serve, issuedBy, Event.issued?]
          queued := by simp [Database.serve, queuedBy, Event.queued?]
          noticed := by simp [Database.serve, noticedBy, Event.isNoticed]
          read := fun k result h => hno h
          wrote := .inl (by simp [Database.serve, wroteBy, Event.wrote?]) }
    | _ => exact Served.nothing rfl rfl fun k result h => hno h

end Served

/-! ## Runs -/

section Run

variable {τ ι : Type*} [DecidableEq τ]

/-- A write of what the tab queued under ticket `n` has the count it asked for under ticket `m`: with
the result itself, or again having noticed no change since. Of the clears the tab asked for after
that, none came before the write, and of the others none since the count was read. -/
structure Rightful (t : τ) (before : Log τ ι) (n : ℕ) (record : Row ι) (m : ℕ) : Prop where
  asked : m = n ∨ Recounted t before n record m
  own : ∀ k, m < k → (t, Event.cleared k) ∉ before
  since : Since before (t, .counted m) ∨ Since before (t, .fellBack m)

/-- Every write in the log is rightful by what the log held before it. -/
def Upheld (log : Log τ ι) : Prop :=
  ∀ before after t n record pruned, log = before ++ (t, .wrote n record pruned) :: after →
    ∃ m, Rightful t before n record m

/-- What is upheld stays so while each new write is rightful. -/
theorem Upheld.append {log events : Log τ ι} (h : Upheld log)
    (hevents : ∀ front after t n record pruned, events = front ++ (t, .wrote n record pruned) :: after →
      ∃ m, Rightful t (log ++ front) n record m) : Upheld (log ++ events) := by
  intro before after t n record pruned heq
  rcases List.append_eq_append_iff.mp heq with ⟨front, rfl, hfront⟩ | ⟨back, rfl, hback⟩
  · exact hevents front after t n record pruned hfront
  · cases back with
    | nil =>
      have hlast := hevents [] after t n record pruned hback.symm
      rwa [List.append_nil, List.append_nil] at hlast
    | cons first back =>
      obtain ⟨rfl, -⟩ := List.cons.inj hback
      exact h before back t n record pruned rfl

/-- What a count backs at the store's own count is rightful. -/
theorem Sent.rightful {t : τ} {log : Log τ ι} {clears n v : ℕ} {record : Row ι}
    (h : Sent t log clears n record v) (hv : clears ≤ v) : ∃ m, Rightful t log n record m := by
  obtain ⟨-, m, hasked, hle, hsince⟩ := h
  have hnone : clearsAfter t m log = 0 := by omega
  exact ⟨m, hasked, fun k hk => not_cleared_of_clearsAfter hnone hk, hsince hv⟩

variable [LinearOrder ι]

/-- All that is known of the world at any point of a run, by its log. -/
structure Steady (log : Log τ ι) (w : World τ ι) : Prop where
  sound : ∀ t, Sound t log w.db.clears (w.tabs t).core
  upheld : Upheld log

/-- An act is the tab's own; the others hear of it at most. -/
theorem World.step_act {w w' : World τ ι} {t : τ} {a : Act ι} {events : Log τ ι}
    (h : w.step (.act t a) = some (w', events)) :
    ∃ result, (w.tabs t).act a = some result ∧ events = result.2.map (Prod.mk t) ∧
      w'.db = w.db ∧ w'.tabs t = result.1 ∧
      ∀ u, u ≠ t → w'.tabs u = w.tabs u ∨
        w'.tabs u = { w.tabs u with elsewhere := (w.tabs u).elsewhere + 1 } := by
  rw [World.step] at h
  split at h
  next => cases h
  next tab logged hact =>
    cases h
    refine ⟨(tab, logged), hact, rfl, rfl, Function.update_self .., fun u hu => ?_⟩
    dsimp only
    rw [Function.update_of_ne hu]
    split
    · exact .inr (if_neg hu)
    · exact .inl rfl

/-- The store carries out the tab's oldest request and touches no tab but by its answer. -/
theorem World.step_serve {w w' : World τ ι} {t : τ} {failure : Option Failure} {events : Log τ ι}
    (h : w.step (.serve t failure) = some (w', events)) :
    ∃ request asked, (w.tabs t).asked = request :: asked ∧
      events = (w.db.serve request failure).2.2.map (Prod.mk t) ∧
      w'.db = (w.db.serve request failure).1 ∧
      w'.tabs t = { w.tabs t with
        asked, answered := (w.tabs t).answered ++ [(w.db.serve request failure).2.1] } ∧
      ∀ u, u ≠ t → w'.tabs u = w.tabs u := by
  rw [World.step] at h
  split at h
  next => cases h
  next request asked hasked =>
    cases h
    exact ⟨request, asked, hasked, rfl, rfl, Function.update_self ..,
      fun u hu => Function.update_of_ne hu ..⟩

/-- An act keeps the world steady. -/
theorem Steady.act {log : Log τ ι} {w w' : World τ ι} {t : τ} {a : Act ι} {events : Log τ ι}
    (h : Steady log w) (hstep : w.step (.act t a) = some (w', events)) :
    Steady (log ++ events) w' := by
  obtain ⟨result, hact, rfl, hdb, hself, hothers⟩ := World.step_act hstep
  have hlocal := Tab.act_local hact
  constructor
  · intro u
    rw [hdb]
    by_cases hu : u = t
    · subst hu
      rw [hself]
      exact (h.sound u).act hact
    · have hcore : (w'.tabs u).core = (w.tabs u).core := by
        rcases hothers u hu with heq | heq <;> rw [heq]
        rfl
      rw [hcore]
      exact (h.sound u).grow (quiet_of_ne hu _) (by rw [clearedIn_local hlocal]; rfl)
  · refine h.upheld.append fun front after u n record pruned heq => ?_
    have hmem : (u, Event.wrote n record pruned) ∈ result.2.map (Prod.mk t) := by
      rw [heq]
      exact List.mem_append_right _ List.mem_cons_self
    obtain ⟨event, hevent, hpair⟩ := List.mem_map.mp hmem
    cases hpair
    cases hlocal _ hevent

/-- The one event of a put that wrote. -/
theorem Database.serve_wrote {db : Database ι} {request : Request ι} {failure : Option Failure}
    {front after : List (Event ι)} {n : ℕ} {record : Row ι} {pruned : List ι}
    (h : (db.serve request failure).2.2 = front ++ .wrote n record pruned :: after) :
    front = [] ∧ ∃ v, request = .put n record v ∧ db.clears ≤ v := by
  have hnil : ∀ {P : Prop}, ([] : List (Event ι)) = front ++ .wrote n record pruned :: after → P :=
    fun h => by simp at h
  have hone : ∀ event : Event ι, [event] = front ++ .wrote n record pruned :: after →
      front = [] ∧ event = .wrote n record pruned := by
    intro event h
    cases front with
    | nil => exact ⟨rfl, (List.cons.inj h).1⟩
    | cons first front => simp at h
  cases failure with
  | some failure => cases request <;> exact hnil h
  | none =>
    cases request with
    | put k row v =>
      rw [Database.serve] at h
      dsimp only at h
      split at h
      next hwritten =>
        obtain ⟨hfront, hevent⟩ := hone _ h
        cases hevent
        exact ⟨hfront, v, rfl, (db.put_written record v).mp hwritten⟩
      next => exact hnil h
    | count m => cases (hone _ h).2
    | recount m => cases (hone _ h).2
    | clear m => cases (hone _ h).2
    | _ => exact hnil h

/-- Serving a request keeps the world steady. -/
theorem Steady.serve {log : Log τ ι} {w w' : World τ ι} {t : τ} {failure : Option Failure}
    {events : Log τ ι} (h : Steady log w) (hstep : w.step (.serve t failure) = some (w', events)) :
    Steady (log ++ events) w' := by
  obtain ⟨request, asked, hasked, rfl, hdb, hself, hothers⟩ := World.step_serve hstep
  have hserved := w.db.served t log request failure
  constructor
  · intro u
    rw [hdb]
    by_cases hu : u = t
    · subst hu
      rw [hself]
      exact (h.sound u).served hasked hserved
    · rw [hothers u hu]
      exact (h.sound u).grow (quiet_of_ne hu _) hserved.clears_eq
  · refine h.upheld.append fun front after u n record pruned heq => ?_
    obtain ⟨left, right, hsplit, rfl, hright⟩ := List.map_eq_append_iff.mp heq
    obtain ⟨event, rest, rfl, hevent, -⟩ := List.map_eq_cons_iff.mp hright
    cases hevent
    obtain ⟨rfl, v, rfl, hv⟩ := Database.serve_wrote hsplit
    rw [List.map_nil, List.append_nil]
    have hmem : Request.put n record v ∈ (w.tabs t).core.asked := by
      show Request.put n record v ∈ (w.tabs t).asked
      rw [hasked]
      exact List.mem_cons_self
    exact ((h.sound t).sent n record v hmem).rightful hv

omit [LinearOrder ι] in
/-- The world starts steady. -/
theorem Steady.start (db : Database ι) (saving : τ → Bool) : Steady [] (World.start db saving) where
  sound := fun t =>
    { known := fun v hv => by cases hv
      changes := rfl
      entries := fun entry hentry => by cases hentry
      queue_sorted := List.Pairwise.nil
      queue_lt := fun entry hentry => by cases hentry
      asked_sorted := List.Pairwise.nil
      asked_lt := fun m hm => by cases hm
      cleared_lt := fun k hk => by cases hk
      reads := fun m hm => by cases hm
      answered := fun answer behind hsuffix => by simp [World.start, Tab.core] at hsuffix
      sent := fun n record v hput => by cases hput
      quiet := fun _ => rfl
      reading := fun hphase => by cases hphase
      putting := fun hphase => by cases hphase
      issued_sorted := List.Pairwise.nil
      issued_lt := fun m hm => by cases hm
      wrote_queued := fun w hw => by cases hw
      wrote_sorted := List.Pairwise.nil
      wrote_le := fun w hw => by cases hw
      wrote_eq := fun w hw => by cases hw }
  upheld := fun before after t n record pruned heq => by simp at heq

/-- **Every run** keeps the world steady. -/
theorem steady_run {db : Database ι} {saving : τ → Bool} {actions : List (Action τ ι)}
    {w : World τ ι} {log : Log τ ι}
    (hrun : Machine.run World.step (World.start db saving) actions = some (w, log)) :
    Steady log w := by
  have hsteady := Machine.run_induct Steady
    (fun log s a t events h hstep => by
      cases a with
      | act u a => exact h.act hstep
      | serve u failure => exact h.serve hstep)
    (Steady.start db saving) hrun
  rwa [List.nil_append] at hsteady

end Run

/-! ## The result -/

section Result

variable {τ ι : Type*} [DecidableEq τ]

/-- Lists with strictly increasing tickets are sublists as soon as they are subsets. -/
theorem sublist_of_tickets {early late : List (ℕ × Row ι)}
    (hearly : (early.map Prod.fst).Pairwise (· < ·)) (hlate : (late.map Prod.fst).Pairwise (· < ·))
    (h : early ⊆ late) : early.Sublist late := by
  have hantisymm : Std.Antisymm (fun a b : ℕ × Row ι => a.1 < b.1) :=
    ⟨fun a b hab hba => absurd (Nat.lt_trans hab hba) (Nat.lt_irrefl _)⟩
  have hearly := List.pairwise_map.mp hearly
  have hnodup : early.Nodup := hearly.imp fun hlt heq => by
    rw [heq] at hlt
    exact absurd hlt (Nat.lt_irrefl _)
  exact List.sublist_of_subperm_of_pairwise (hnodup.subperm h) hearly (List.pairwise_map.mp hlate)

variable [LinearOrder ι]

/-- In any run of any number of tabs over one store, whatever requests fail: a tab's tickets number
what it asks in order; its writes are in the order queued, each result at most once; and each write
has a count that no clear came behind. -/
theorem saved_in_order_and_past_no_clear {db : Database ι} {saving : τ → Bool}
    {actions : List (Action τ ι)} {w : World τ ι} {log : Log τ ι}
    (hrun : Machine.run World.step (World.start db saving) actions = some (w, log)) (t : τ) :
    (issuedBy t log).Pairwise (· < ·) ∧ (wroteBy t log).Sublist (queuedBy t log) ∧
      ∀ before after n record pruned, log = before ++ (t, .wrote n record pruned) :: after →
        ∃ m, Rightful t before n record m := by
  have hsteady := steady_run hrun
  have hsound := hsteady.sound t
  refine ⟨hsound.issued_sorted, ?_, fun before after n record pruned heq =>
    hsteady.upheld before after t n record pruned heq⟩
  have hqueued := hsound.issued_sorted.sublist (queuedBy_sublist_issuedBy t log)
  exact sublist_of_tickets hsound.wrote_sorted hqueued hsound.wrote_queued

/-- One tab's first result is written. Another tab clears History while the write of its second is on
its way. -/
def twoTabs : List (Action Bool ℕ) :=
  [.act false (.offer (.finished 0 1)), .serve false none, .act false .take,
    .serve false none, .act false .take,
    .act false (.offer (.finished 1 2)), .serve false none, .act false .take,
    .act true .clear, .serve true none, .serve false none, .act true .take, .act false .take,
    .act false .hear]

/-- Of the tab's two records the second, which the clear came before, is not written. -/
theorem saved_two_tabs :
    ∃ w log, Machine.run World.step (World.start ⟨[], 0⟩ fun _ => true) twoTabs = some (w, log) ∧
      (wroteBy false log).length = 1 ∧ (queuedBy false log).length = 2 ∧
      (wroteBy false log).Sublist (queuedBy false log) := by
  have hlengths : (Machine.run World.step (World.start ⟨[], 0⟩ fun _ => true) twoTabs).map
      (fun result => ((wroteBy false result.2).length, (queuedBy false result.2).length))
        = some (1, 2) := by
    decide
  obtain ⟨⟨w, log⟩, hrun, heq⟩ := Option.map_eq_some_iff.mp hlengths
  simp only [Prod.mk.injEq] at heq
  exact ⟨w, log, hrun, heq.1, heq.2, (saved_in_order_and_past_no_clear hrun false).2.1⟩

end Result

end GraphiteMeter.Browser.History
