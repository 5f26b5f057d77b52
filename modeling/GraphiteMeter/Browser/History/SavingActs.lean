import GraphiteMeter.Browser.History.TurnsKept

/-!
# What a tab does keeps it sound

Each act of a tab, taken as its `Core` and the events it logs: the drain's loop by induction on the
queue, the answers one by one. What a tab logs is never the store's (`Tab.act_local`).

Reference: `client/src/app/history/saving.ts`.
-/

namespace GraphiteMeter.Browser.History

variable {τ ι : Type*} [DecidableEq τ] [LinearOrder ι]

/-! ## The drain -/

/-- The tab is sound again after what it did, with the events it logged. -/
def After (t : τ) (log : Log τ ι) (clears : ℕ) (result : Tab ι × List (Event ι)) : Prop :=
  Sound t (log ++ result.2.map (Prod.mk t)) clears result.1.core

omit [LinearOrder ι] in
/-- A tab that does nothing stays sound. -/
theorem After.still {t : τ} {log : Log τ ι} {clears : ℕ} {tab : Tab ι}
    (h : Sound t log clears tab.core) : After t log clears (tab, []) := by
  rw [After, List.map_nil, List.append_nil]
  exact h

omit [LinearOrder ι] in
/-- An event of no consequence to the tab's own record. -/
theorem Sound.fellBack {t : τ} {log : Log τ ι} {clears : ℕ} {c : Core ι} (h : Sound t log clears c)
    (n : ℕ) : Sound t (log ++ [(t, .fellBack n)]) clears c :=
  h.grow ⟨by simp [issuedBy, Event.issued?], by simp [queuedBy, Event.queued?],
    by simp [wroteBy, Event.wrote?], by simp [noticedBy, Event.isNoticed], fun k => by simp⟩ rfl

/-- The drain's loop keeps a tab sound. -/
theorem Sound.loop {t : τ} {log : Log τ ι} {clears : ℕ} {tab : Tab ι} {entries : List (Entry ι)}
    (h : Sound t log clears { tab.core with phase := .idle }) (hqueue : tab.queue = entries) :
    After t log clears (tab.loop entries) := by
  induction entries generalizing tab with
  | nil => exact After.still h
  | cons entry rest ih =>
    have hflights : tab.core.flights = [] := h.quiet (.inl rfl)
    have hsub : rest.Sublist tab.queue := hqueue ▸ List.sublist_cons_self ..
    have htail : Sound t log clears { tab.core with queue := rest, phase := .idle } :=
      h.shorten hsub (.inr ⟨hflights, .inl rfl⟩)
    have hmem : entry ∈ tab.queue := hqueue ▸ List.mem_cons_self
    have hentry := h.entries entry hmem
    rw [Tab.loop]
    cases hclears : entry.clears with
    | pending =>
      exact After.still (h.shorten (List.Sublist.refl _) (.inr ⟨hflights, .inr rfl⟩))
    | refused message => exact ih htail rfl
    | unknown =>
      dsimp only
      split
      next => exact ih htail rfl
      next hchanges => exact h.askRecount hflights hqueue (not_ne_iff.mp hchanges)
    | read v =>
      dsimp only
      split
      next =>
        exact After.still (h.askPut hflights hqueue
          ⟨entry.ticket, .inl rfl, hentry.backed v hclears⟩)
      next => exact ih htail rfl

/-- Starting to drain keeps a tab sound. -/
theorem Sound.drain {t : τ} {log : Log τ ι} {clears : ℕ} {tab : Tab ι}
    (h : Sound t log clears tab.core) : After t log clears tab.drain := by
  rw [Tab.drain]
  split
  next hphase =>
    refine Sound.loop ?_ rfl
    rw [← hphase]
    exact h
  next => exact After.still h

/-- Resuming after a retry keeps a tab sound. -/
theorem Sound.resume {t : τ} {log : Log τ ι} {clears : ℕ} {tab : Tab ι}
    (h : Sound t log clears tab.core) : After t log clears tab.resume := by
  rw [Tab.resume]
  split
  next hphase =>
    refine Sound.loop ?_ rfl
    exact h.shorten (List.Sublist.refl _) (.inr ⟨h.quiet (.inr hphase), .inl rfl⟩)
  next => exact After.still h

/-! ## Acts of a tab -/

/-- Giving up what is queued keeps a tab sound. -/
theorem Sound.giveUp {t : τ} {log : Log τ ι} {clears : ℕ} {tab : Tab ι}
    (h : Sound t log clears tab.core) : Sound t log clears tab.giveUp.core := by
  rw [Tab.giveUp]
  split
  next => exact h
  next =>
    split
    next head dropped rest hqueue =>
      have hsub : (head :: rest).Sublist tab.queue :=
        hqueue ▸ (List.sublist_cons_self dropped rest).cons_cons head
      have hhead : (head :: rest).head? = tab.queue.head? := by rw [hqueue]; rfl
      exact h.shorten hsub (.inl ⟨rfl, hhead⟩)
    next => exact h

/-- Giving up ends no request. -/
theorem Tab.giveUp_tickets (tab : Tab ι) : tab.giveUp.tickets = tab.tickets := by
  rw [Tab.giveUp]
  split
  next => rfl
  next => split <;> rfl

/-- Queueing a record keeps a tab sound. -/
theorem Sound.enqueue {t : τ} {log : Log τ ι} {clears : ℕ} {tab : Tab ι}
    (h : Sound t log clears tab.core) (record : Row ι) :
    After t log clears (tab.enqueue record) := by
  rw [Tab.enqueue]
  split
  next => exact After.still h
  next =>
    have hpushed : Sound t (log ++ [(t, .queued tab.tickets record)]) clears
        (tab.giveUp.push record).core := by
      rw [← tab.giveUp_tickets]
      exact h.giveUp.queued record
    have hdrained := hpushed.drain
    rw [After, List.map_cons, List.append_cons]
    exact hdrained

/-- Offering a record keeps a tab sound. -/
theorem Sound.offer {t : τ} {log : Log τ ι} {clears : ℕ} {tab : Tab ι}
    (h : Sound t log clears tab.core) (record : Row ι) : After t log clears (tab.offer record) := by
  rw [Tab.offer]
  split
  next =>
    have hshown : Sound t log clears (tab.remember record).core := h
    exact hshown.enqueue record
  next => exact After.still h

/-- Switching the saving on or off keeps a tab sound. -/
theorem Sound.setSaving {t : τ} {log : Log τ ι} {clears : ℕ} {tab : Tab ι}
    (h : Sound t log clears tab.core) (saving : Bool) :
    After t log clears (tab.setSaving saving) := by
  rw [Tab.setSaving]
  split
  next record _ _ =>
    have hset : Sound t log clears { tab with saving : Tab ι }.core := h
    exact hset.enqueue record
  next => exact After.still h

/-- A failed save keeps a tab sound. -/
theorem Sound.caught {t : τ} {log : Log τ ι} {clears : ℕ} {tab : Tab ι} {entry : Entry ι}
    {rest : List (Entry ι)} (h : Sound t log clears { tab.core with phase := .idle })
    (hqueue : tab.queue = entry :: rest) (failure : Failure) :
    After t log clears (tab.caught entry rest failure) := by
  cases failure with
  | refusal message =>
    have hsub : rest.Sublist tab.queue := hqueue ▸ List.sublist_cons_self ..
    refine Sound.loop ?_ rfl
    exact h.shorten hsub (.inr ⟨h.quiet (.inl rfl), .inl rfl⟩)
  | other => exact After.still h

/-- Showing that a row is gone changes nothing of the saving. -/
theorem Tab.removed_core (tab : Tab ι) (id : ι) : (tab.removed id).core = tab.core := by
  rw [Tab.removed]
  split <;> rfl

/-- Nor does showing it of several. -/
theorem Tab.foldl_removed_core (tab : Tab ι) (ids : List ι) :
    (ids.foldl Tab.removed tab).core = tab.core := by
  induction ids generalizing tab with
  | nil => rfl
  | cons id ids ih => rw [List.foldl_cons, ih, tab.removed_core]

/-! ## Answers -/

omit [LinearOrder ι] in
/-- A request of the drain under way is its head's. -/
theorem Sound.head {t : τ} {log : Log τ ι} {clears : ℕ} {c : Core ι} {flight : Flight}
    (h : Sound t log clears c) (hflight : flight ∈ c.flights) :
    ∃ entry rest, c.queue = entry :: rest ∧ (flight = .put entry.ticket ∨
      ∃ m, flight = .recount m ∧ Recounted t log entry.ticket entry.record m) := by
  cases hphase : c.phase with
  | idle =>
    rw [h.quiet (.inl hphase)] at hflight
    cases hflight
  | awaiting =>
    rw [h.quiet (.inr hphase)] at hflight
    cases hflight
  | reading =>
    obtain ⟨entry, rest, m, hqueue, hflights, hrecounted⟩ := h.reading hphase
    rw [hflights, List.mem_singleton] at hflight
    exact ⟨entry, rest, hqueue, .inr ⟨m, hflight, hrecounted⟩⟩
  | putting =>
    obtain ⟨entry, rest, hqueue, hflights⟩ := h.putting hphase
    rw [hflights, List.mem_singleton] at hflight
    exact ⟨entry, rest, hqueue, .inl hflight⟩

omit [LinearOrder ι] in
/-- An answer that carries a flight has it in flight. -/
theorem Core.mem_flights {c : Core ι} {answer : Answer ι} {answers : List (Answer ι)}
    {flight : Flight} (hanswered : c.answered = answer :: answers)
    (hflight : answer.flight? = some flight) : flight ∈ c.flights := by
  rw [Core.flights, hanswered]
  exact List.mem_append_left _ (List.mem_filterMap.mpr ⟨answer, List.mem_cons_self, hflight⟩)

omit [LinearOrder ι] in
/-- What was known stays known behind an answer. -/
theorem Sound.known_behind {t : τ} {log : Log τ ι} {clears : ℕ} {c : Core ι} {answer : Answer ι}
    {answers : List (Answer ι)} (h : Sound t log clears c)
    (hanswered : c.answered = answer :: answers) :
    ∀ v, c.known = some v → v + unheard answers ≤ clears := by
  intro v hv
  have hknown := h.known v hv
  rw [hanswered, unheard_cons] at hknown
  omega

omit [LinearOrder ι] in
/-- What a read answered, the tab may hold. -/
theorem Read.backed {t : τ} {log : Log τ ι} {clears m v : ℕ} {answers : List (Answer ι)}
    (h : Read t log clears m (.ok v) answers) : Backed t log clears m v := by
  obtain ⟨hle, hsince⟩ := h.ok v rfl
  have hown := h.own
  exact ⟨by omega, fun hv => .inl (hsince hv)⟩

/-- The count before a save keeps a tab sound. -/
theorem Sound.counted {t : τ} {log : Log τ ι} {clears m : ℕ} {tab : Tab ι}
    {result : Except Failure ℕ} {answers : List (Answer ι)} (h : Sound t log clears tab.core)
    (hanswered : tab.answered = .count m result :: answers) :
    After t log clears (Tab.counted { tab with answered := answers } m result) := by
  have hread : Read t log clears m result answers :=
    h.answered (.count m result) answers (by rw [← hanswered]; exact List.suffix_rfl) m result rfl
  have htaken := h.taken hanswered rfl (h.known_behind hanswered)
  cases result with
  | ok v =>
    have hknown : ∀ w, some v = some w → w + unheard answers ≤ clears := fun w hw => by
      cases hw
      exact (hread.ok v rfl).1
    have hresolved : Sound t log clears
        (Tab.resolve { tab with answered := answers, known := some v } m (.read v)).core :=
      (h.taken hanswered rfl hknown).resolve fun w hw => by cases hw; exact hread.backed
    exact hresolved.resume
  | error failure =>
    cases failure with
    | refusal message =>
      have hresolved : Sound t log clears
          (Tab.resolve { tab with answered := answers } m (.refused message)).core :=
        htaken.resolve fun w hw => by cases hw
      exact hresolved.resume
    | other =>
      rw [Tab.counted]
      split
      next v hknown =>
        have hle := h.known_behind hanswered v hknown
        have hown := hread.own
        have hbacked : Backed t (log ++ [(t, .fellBack m)]) clears m v := by
          refine ⟨?_, fun _ => .inr (Since.last log _)⟩
          have hzero : clearsAfter t m [(t, (Event.fellBack m : Event ι))] = 0 :=
            clearsAfter_eq_zero fun k hk => by simp at hk
          rw [clearsAfter_append, hzero]
          omega
        have hresolved : Sound t (log ++ [(t, .fellBack m)]) clears
            (Tab.resolve { tab with answered := answers } m (.read v)).core :=
          (htaken.fellBack m).resolve fun w hw => by cases hw; exact hbacked
        have hresumed := hresolved.resume
        rw [After, List.map_cons, List.append_cons]
        exact hresumed
      next =>
        have hresolved : Sound t log clears
            (Tab.resolve { tab with answered := answers } m .unknown).core :=
          htaken.resolve fun w hw => by cases hw
        exact hresolved.resume

/-- The count after a failure keeps a tab sound. -/
theorem Sound.recounted {t : τ} {log : Log τ ι} {clears m : ℕ} {tab : Tab ι}
    {result : Except Failure ℕ} {answers : List (Answer ι)} (h : Sound t log clears tab.core)
    (hanswered : tab.answered = .recount m result :: answers) :
    After t log clears (Tab.recounted { tab with answered := answers } result) := by
  have hread : Read t log clears m result answers :=
    h.answered (.recount m result) answers (by rw [← hanswered]; exact List.suffix_rfl) m result rfl
  have hmem : Flight.recount m ∈ tab.core.flights := Core.mem_flights hanswered rfl
  obtain ⟨entry, rest, hqueue, hput | ⟨k, hk, hrecounted⟩⟩ := h.head hmem
  · cases hput
  cases hk
  have hflights := h.flights_behind hanswered rfl
  have hnone : ∀ n, (Answer.recount m result : Answer ι).wrote? = some n →
      ∀ entry ∈ tab.core.queue, entry.ticket ≠ n := fun n hn => by cases hn
  rw [Tab.recounted]
  split
  next hnil => exact absurd (hqueue.symm.trans hnil) (by simp)
  next head tail hcons =>
    obtain ⟨rfl, rfl⟩ := List.cons.inj (hqueue.symm.trans hcons)
    cases result with
    | ok v =>
      have hknown : ∀ w, some v = some w → w + unheard answers ≤ clears := fun w hw => by
        cases hw
        exact (hread.ok v rfl).1
      have hdrained := h.drained hanswered rfl (List.Sublist.refl _) hnone hknown
      dsimp only
      split
      next =>
        exact After.still (hdrained.askPut hflights hqueue ⟨m, .inr hrecounted, hread.backed⟩)
      next =>
        refine Sound.loop ?_ rfl
        have hsub : rest.Sublist tab.core.queue := hqueue ▸ List.sublist_cons_self ..
        exact hdrained.shorten hsub (.inr ⟨hflights, .inl rfl⟩)
    | error failure =>
      have hdrained : Sound t log clears
          { ({ tab with answered := answers } : Tab ι).core with phase := .idle } :=
        h.drained hanswered rfl (List.Sublist.refl _) hnone (h.known_behind hanswered)
      exact hdrained.caught hqueue failure

/-- An answered save keeps a tab sound. -/
theorem Sound.saved {t : τ} {log : Log τ ι} {clears n : ℕ} {tab : Tab ι} {record : Row ι}
    {outcome : Except Failure (Bool × List ι)} {answers : List (Answer ι)}
    (h : Sound t log clears tab.core) (hanswered : tab.answered = .put n record outcome :: answers) :
    After t log clears (Tab.saved { tab with answered := answers } record outcome) := by
  have hmem : Flight.put n ∈ tab.core.flights := Core.mem_flights hanswered rfl
  obtain ⟨entry, rest, hqueue, hput | ⟨k, hk, -⟩⟩ := h.head hmem
  swap
  · cases hk
  cases hput
  have hsub : rest.Sublist tab.core.queue := hqueue ▸ List.sublist_cons_self ..
  rw [Tab.saved]
  split
  next hnil => exact absurd (hqueue.symm.trans hnil) (by simp)
  next head tail hcons =>
    obtain ⟨rfl, rfl⟩ := List.cons.inj (hqueue.symm.trans hcons)
    cases outcome with
    | ok result =>
      -- The tickets behind the head are newer than the one written.
      have hwrote : ∀ k, (Answer.put entry.ticket record (.ok result) : Answer ι).wrote? = some k →
          ∀ other ∈ rest, other.ticket ≠ k := by
        intro k hk other hother
        obtain ⟨written, pruned⟩ := result
        cases written
        · cases hk
        · cases hk
          have hsorted := h.queue_sorted
          rw [hqueue, List.map_cons, List.pairwise_cons] at hsorted
          exact (hsorted.1 _ (List.mem_map_of_mem hother)).ne'
      have hdrained := h.drained hanswered rfl hsub hwrote (h.known_behind hanswered)
      have hremoved := Tab.foldl_removed_core { tab with answered := answers }
        (result.2.filter fun id => decide (id ≠ record.id))
      dsimp only
      split
      all_goals
        refine Sound.loop ?_ rfl
        rw [show ∀ (x : Tab ι) written message,
          (x.settle entry rest written message).core = { x.core with queue := rest } from
          fun _ _ _ => rfl, hremoved]
        exact hdrained
    | error failure =>
      have hdrained : Sound t log clears
          { ({ tab with answered := answers } : Tab ι).core with phase := .idle } :=
        h.drained hanswered rfl (List.Sublist.refl _) (fun k hk => by cases hk)
          (h.known_behind hanswered)
      exact hdrained.caught hqueue failure

/-- Whatever the tab is answered. -/
theorem Sound.take {t : τ} {log : Log τ ι} {clears : ℕ} {tab : Tab ι} {answer : Answer ι}
    {answers : List (Answer ι)} (h : Sound t log clears tab.core)
    (hanswered : tab.answered = answer :: answers) :
    After t log clears (Tab.take { tab with answered := answers } answer) := by
  have hknown := h.known_behind hanswered
  cases answer with
  | count m result => exact h.counted hanswered
  | recount m result => exact h.recounted hanswered
  | put n record outcome => exact h.saved hanswered
  | inspect id ready =>
    have htaken : Sound t log clears ({ tab with answered := answers } : Tab ι).core :=
      h.taken hanswered rfl hknown
    cases ready with
    | error => exact After.still htaken
    | ok ready =>
      cases ready
      · refine After.still ?_
        rw [Tab.removed_core]
        exact htaken
      · exact After.still htaken
  | clear outcome =>
    cases outcome with
    | error => exact After.still (h.taken hanswered rfl hknown)
    | ok =>
      have hcounted : ∀ v, tab.known.map (· + 1) = some v → v + unheard answers ≤ clears := by
        intro v hv
        obtain ⟨w, hw, rfl⟩ := Option.map_eq_some_iff.mp hv
        have hle := h.known w hw
        have hsame : tab.core.answered = .clear (.ok ()) :: answers := hanswered
        rw [hsame, unheard_cons] at hle
        have hone : (Answer.clear (.ok ()) : Answer ι).isCleared = true := rfl
        rw [if_pos hone] at hle
        omega
      exact (h.taken hanswered rfl hknown).notice hcounted
  | delete id outcome =>
    have htaken : Sound t log clears ({ tab with answered := answers } : Tab ι).core :=
      h.taken hanswered rfl hknown
    cases outcome with
    | error => exact After.still htaken
    | ok =>
      refine After.still ?_
      rw [Tab.removed_core]
      exact htaken
  | removeMalformed removed => exact After.still (h.taken hanswered rfl hknown)

omit [LinearOrder ι] in
/-- Requests that are none of the drain's and take no ticket. -/
theorem Sound.askAll {t : τ} {log : Log τ ι} {clears : ℕ} {c : Core ι} {requests : List (Request ι)}
    (h : Sound t log clears c)
    (hplain : ∀ request ∈ requests, request.flight? = none ∧ request.ticket? = none) :
    Sound t log clears { c with asked := c.asked ++ requests } := by
  induction requests generalizing c with
  | nil =>
    rw [List.append_nil]
    exact h
  | cons request requests ih =>
    obtain ⟨⟨hflight, hticket⟩, hrest⟩ := List.forall_mem_cons.mp hplain
    rw [List.append_cons]
    exact ih (h.ask hflight fun m hm => by rw [hticket] at hm; cases hm) hrest

omit [LinearOrder ι] in
/-- A notice that is heard keeps a tab sound. -/
theorem Sound.heard {t : τ} {log : Log τ ι} {clears : ℕ} {tab : Tab ι}
    (h : Sound t log clears tab.core) : After t log clears (tab.heard, [.noticed]) := by
  have hnoticed : Sound t (log ++ [(t, .noticed)]) clears
      { tab.core with changes := tab.changes + 1, known := none } :=
    h.notice fun v hv => by cases hv
  have hplain : ∀ request ∈ tab.rechecks, request.flight? = none ∧ request.ticket? = none := by
    intro request hrequest
    obtain ⟨record, -, rfl⟩ := List.mem_map.mp hrequest
    exact ⟨rfl, rfl⟩
  exact hnoticed.askAll hplain

/-- Whatever the tab does. -/
theorem Sound.act {t : τ} {log : Log τ ι} {clears : ℕ} {tab : Tab ι} {a : Act ι}
    {result : Tab ι × List (Event ι)} (h : Sound t log clears tab.core)
    (hact : tab.act a = some result) : After t log clears result := by
  cases a with
  | offer record =>
    cases hact
    exact h.offer record
  | withdraw =>
    cases hact
    exact After.still h
  | setSaving saving =>
    cases hact
    exact h.setSaving saving
  | retry =>
    cases hact
    rw [Tab.retry]
    split
    · exact h.drain
    · exact After.still h
  | clear =>
    cases hact
    have hticket : (Event.askedClear tab.core.tickets : Event ι).issued? = some tab.core.tickets := rfl
    obtain ⟨hissued, hnewest⟩ := h.issue hticket rfl
    exact hissued.ask rfl fun m hm => by cases hm; exact hnewest
  | delete id =>
    cases hact
    exact After.still (h.ask rfl fun m hm => by cases hm)
  | removeMalformed =>
    cases hact
    exact After.still (h.ask rfl fun m hm => by cases hm)
  | hear =>
    rw [Tab.act] at hact
    split at hact
    · cases hact
      have hheard : Sound t log clears { tab with elsewhere := tab.elsewhere - 1 : Tab ι }.core := h
      exact hheard.heard
    · cases hact
  | take =>
    rw [Tab.act] at hact
    split at hact
    next => cases hact
    next answer answers hanswered =>
      cases hact
      exact h.take hanswered

/-! ## What a tab logs is its own -/

/-- The events a tab logs; the others are the store's. -/
def Event.isLocal : Event ι → Bool
  | .counted _ => false
  | .cleared _ => false
  | .wrote _ _ _ => false
  | _ => true

/-- The drain's loop logs what its own tab does. -/
theorem Tab.loop_local (tab : Tab ι) (entries : List (Entry ι)) :
    ∀ e ∈ (tab.loop entries).2, e.isLocal = true := by
  induction entries generalizing tab with
  | nil => exact fun e he => by cases he
  | cons entry rest ih =>
    rw [Tab.loop]
    cases entry.clears with
    | pending => exact fun e he => by cases he
    | refused message => exact ih _
    | unknown =>
      dsimp only
      split
      next => exact ih _
      next => exact fun e he => by rw [List.mem_singleton.mp he]; rfl
    | read v =>
      dsimp only
      split
      next => exact fun e he => by cases he
      next => exact ih _

/-- Starting to drain logs what its own tab does. -/
theorem Tab.drain_local (tab : Tab ι) : ∀ e ∈ tab.drain.2, e.isLocal = true := by
  rw [Tab.drain]
  split
  · exact tab.loop_local _
  · exact fun e he => by cases he

/-- Resuming logs what its own tab does. -/
theorem Tab.resume_local (tab : Tab ι) : ∀ e ∈ tab.resume.2, e.isLocal = true := by
  rw [Tab.resume]
  split
  · exact tab.loop_local _
  · exact fun e he => by cases he

/-- Queueing logs what its own tab does. -/
theorem Tab.enqueue_local (tab : Tab ι) (record : Row ι) :
    ∀ e ∈ (tab.enqueue record).2, e.isLocal = true := by
  rw [Tab.enqueue]
  split
  · exact fun e he => by cases he
  · exact List.forall_mem_cons.mpr ⟨rfl, Tab.drain_local _⟩

/-- A failed save logs what its own tab does. -/
theorem Tab.caught_local (tab : Tab ι) (entry : Entry ι) (rest : List (Entry ι))
    (failure : Failure) : ∀ e ∈ (tab.caught entry rest failure).2, e.isLocal = true := by
  cases failure with
  | refusal message => exact Tab.loop_local _ _
  | other => exact fun e he => by cases he

/-- Taking an answer logs what its own tab does. -/
theorem Tab.take_local (tab : Tab ι) (answer : Answer ι) :
    ∀ e ∈ (tab.take answer).2, e.isLocal = true := by
  have hnone : ∀ e ∈ ([] : List (Event ι)), e.isLocal = true := fun e he => by cases he
  cases answer with
  | count m result =>
    rw [Tab.take]
    cases result with
    | ok v => exact Tab.resume_local _
    | error failure =>
      cases failure with
      | refusal message => exact Tab.resume_local _
      | other =>
        rw [Tab.counted]
        split
        · exact List.forall_mem_cons.mpr ⟨rfl, Tab.resume_local _⟩
        · exact Tab.resume_local _
  | recount m result =>
    rw [Tab.take, Tab.recounted]
    split
    · exact hnone
    · cases result with
      | ok v =>
        dsimp only
        split
        · exact hnone
        · exact Tab.loop_local _ _
      | error failure => exact Tab.caught_local _ _ _ failure
  | put n record outcome =>
    rw [Tab.take, Tab.saved]
    split
    · exact hnone
    · cases outcome with
      | ok result =>
        dsimp only
        split
        · exact Tab.loop_local _ _
        · exact Tab.loop_local _ _
      | error failure => exact Tab.caught_local _ _ _ failure
  | inspect id ready => rcases ready with failure | (_ | _) <;> exact hnone
  | clear outcome =>
    cases outcome with
    | error => exact hnone
    | ok => exact fun e he => by rw [List.mem_singleton.mp he]; rfl
  | delete id outcome => cases outcome <;> exact hnone
  | removeMalformed removed => exact hnone

/-- **Every act** logs what its own tab does. -/
theorem Tab.act_local {tab : Tab ι} {a : Act ι} {result : Tab ι × List (Event ι)}
    (h : tab.act a = some result) : ∀ e ∈ result.2, e.isLocal = true := by
  have hnone : ∀ e ∈ ([] : List (Event ι)), e.isLocal = true := fun e he => by cases he
  have hone : ∀ event : Event ι, event.isLocal = true → ∀ e ∈ [event], e.isLocal = true :=
    fun event hevent e he => by rw [List.mem_singleton.mp he]; exact hevent
  cases a with
  | offer record =>
    cases h
    rw [Tab.offer]
    split
    · exact Tab.enqueue_local _ record
    · exact hnone
  | withdraw =>
    cases h
    exact hnone
  | setSaving saving =>
    cases h
    rw [Tab.setSaving]
    split
    · exact Tab.enqueue_local _ _
    · exact hnone
  | retry =>
    cases h
    rw [Tab.retry]
    split
    · exact tab.drain_local
    · exact hnone
  | clear =>
    cases h
    exact hone _ rfl
  | delete id =>
    cases h
    exact hnone
  | removeMalformed =>
    cases h
    exact hnone
  | hear =>
    rw [Tab.act] at h
    split at h
    · cases h
      exact hone _ rfl
    · cases h
  | take =>
    rw [Tab.act] at h
    split at h
    · cases h
    · cases h
      exact Tab.take_local _ _

end GraphiteMeter.Browser.History
