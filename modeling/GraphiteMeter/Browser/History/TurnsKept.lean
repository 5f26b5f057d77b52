import GraphiteMeter.Browser.History.Turns
import Mathlib.Data.List.Sublists

/-!
# What keeps a tab's saving sound

One lemma for each thing that happens to a tab's `Core`: the log grows, an answer is taken, a request
is asked, a count is resolved, a change is noticed, the store carries a request out, and the drain
runs its loop.

Reference: `client/src/app/history/saving.ts`.
-/

namespace GraphiteMeter.Browser.History

variable {τ ι : Type*} [DecidableEq τ]

/-! ## The log grows -/

/-- Nothing of these events is for the tab's own record: none of it is asked under a ticket, queued,
written, noticed or cleared. -/
structure Quiet (t : τ) (events : Log τ ι) : Prop where
  issued : issuedBy t events = []
  queued : queuedBy t events = []
  wrote : wroteBy t events = []
  noticed : noticedBy t events = 0
  cleared : ∀ k, (t, Event.cleared k) ∉ events

/-- No clear is later than the latest that was noticed. -/
theorem clearsAfter_eq_zero {t : τ} {m : ℕ} {log : Log τ ι}
    (h : ∀ k, (t, Event.cleared k) ∈ log → k ≤ m) : clearsAfter t m log = 0 := by
  apply List.countP_eq_zero.mpr
  rintro ⟨u, e⟩ he htrue
  cases e with
  | cleared k =>
    simp only [Event.clearedAfter, Bool.and_eq_true, decide_eq_true_eq] at htrue
    obtain ⟨rfl, hk⟩ := htrue
    exact absurd (h k he) (by omega)
  | _ => simp [Event.clearedAfter] at htrue

/-- Where no later clear was noticed, none was noticed. -/
theorem not_cleared_of_clearsAfter {t : τ} {m k : ℕ} {log : Log τ ι} (h : clearsAfter t m log = 0)
    (hk : m < k) : (t, Event.cleared k) ∉ log := by
  intro hmem
  have := List.countP_eq_zero.mp h _ hmem
  simp [Event.clearedAfter, hk] at this

/-- Quiet events notice no clear. -/
theorem Quiet.clearsAfter {t : τ} {events : Log τ ι} (h : Quiet t events) (m : ℕ) :
    History.clearsAfter t m events = 0 :=
  clearsAfter_eq_zero fun k hk => absurd hk (h.cleared k)

/-- A queued entry stays sound while nothing of its tab happens. -/
theorem Entry.Sound.grow {t : τ} {log events : Log τ ι} {clears clears' : ℕ} {entry : Entry ι}
    (h : entry.Sound t log clears) (hclears : clears' = clears + clearedIn events) :
    entry.Sound t (log ++ events) clears' := by
  obtain ⟨early, late, rfl, hearly⟩ := h.queued
  exact ⟨⟨early, late ++ events, by simp, hearly⟩, fun v hv => (h.backed v hv).grow hclears⟩

/-- What was sent stays sent while nothing of its tab happens. -/
theorem Sent.grow {t : τ} {log events : Log τ ι} {clears clears' n v : ℕ} {record : Row ι}
    (h : Sent t log clears n record v) (hclears : clears' = clears + clearedIn events) :
    Sent t (log ++ events) clears' n record v := by
  obtain ⟨hqueued, m, hm, hbacked⟩ := h
  refine ⟨?_, m, hm.imp_right (·.grow events), hbacked.grow hclears⟩
  rw [queuedBy_append]
  exact List.mem_append_left _ hqueued

/-- A read's answer stays what it was while the clears it does not count are behind it. -/
theorem Read.grow {t : τ} {log events : Log τ ι} {clears clears' m : ℕ}
    {result : Except Failure ℕ} {behind behind' : List (Answer ι)}
    (h : Read t log clears m result behind) (hclears : clears' = clears + clearedIn events)
    (hown : clearsAfter t m events + unheard behind ≤ unheard behind')
    (hbehind : unheard behind' ≤ unheard behind + clearedIn events) :
    Read t (log ++ events) clears' m result behind' := by
  refine ⟨?_, fun v hv => ?_⟩
  · rw [clearsAfter_append]
    have := h.own
    omega
  · obtain ⟨hle, hsince⟩ := h.ok v hv
    refine ⟨by omega, fun hv' => (hsince (by omega)).grow ?_⟩
    omega

/-- A tab stays sound while nothing of it happens. -/
theorem Sound.grow {t : τ} {log events : Log τ ι} {clears clears' : ℕ} {c : Core ι}
    (h : Sound t log clears c) (hquiet : Quiet t events)
    (hclears : clears' = clears + clearedIn events) : Sound t (log ++ events) clears' c where
  known := fun v hv => by
    have := h.known v hv
    omega
  changes := by rw [noticedBy_append, hquiet.noticed, h.changes, Nat.add_zero]
  entries := fun entry hentry => (h.entries entry hentry).grow hclears
  queue_sorted := h.queue_sorted
  queue_lt := h.queue_lt
  asked_sorted := h.asked_sorted
  asked_lt := h.asked_lt
  cleared_lt := fun k hk =>
    (List.mem_append.mp hk).elim (h.cleared_lt k) fun hk => absurd hk (hquiet.cleared k)
  reads := fun m hm => by rw [clearsAfter_append, h.reads m hm, hquiet.clearsAfter]
  answered := fun answer behind hsuffix m result hread =>
    (h.answered answer behind hsuffix m result hread).grow hclears
      (by rw [hquiet.clearsAfter, Nat.zero_add]) (Nat.le_add_right _ _)
  sent := fun n record v hput => (h.sent n record v hput).grow hclears
  quiet := h.quiet
  reading := fun hphase => by
    obtain ⟨entry, rest, m, hqueue, hflights, hrecounted⟩ := h.reading hphase
    exact ⟨entry, rest, m, hqueue, hflights, hrecounted.grow events⟩
  putting := h.putting
  issued_sorted := by
    rw [issuedBy_append, hquiet.issued, List.append_nil]
    exact h.issued_sorted
  issued_lt := by
    rw [issuedBy_append, hquiet.issued, List.append_nil]
    exact h.issued_lt
  wrote_queued := by
    rw [queuedBy_append, wroteBy_append, hquiet.queued, hquiet.wrote, List.append_nil,
      List.append_nil]
    exact h.wrote_queued
  wrote_sorted := by
    rw [wroteBy_append, hquiet.wrote, List.append_nil]
    exact h.wrote_sorted
  wrote_le := by
    rw [wroteBy_append, hquiet.wrote, List.append_nil]
    exact h.wrote_le
  wrote_eq := by
    rw [wroteBy_append, hquiet.wrote, List.append_nil]
    exact h.wrote_eq

/-! ## The tab's own moves -/

/-- One more answer is unheard if it is of a clear. -/
theorem unheard_cons (answer : Answer ι) (answers : List (Answer ι)) :
    unheard (answer :: answers) = unheard answers + if answer.isCleared then 1 else 0 := by
  rw [unheard, List.countP_cons]
  rfl

/-- A drain has one request under way at most. -/
theorem Sound.flights {t : τ} {log : Log τ ι} {clears : ℕ} {c : Core ι}
    (h : Sound t log clears c) : c.flights.length ≤ 1 := by
  cases hphase : c.phase with
  | idle => simp [h.quiet (.inl hphase)]
  | awaiting => simp [h.quiet (.inr hphase)]
  | reading =>
    obtain ⟨entry, rest, m, -, hflights, -⟩ := h.reading hphase
    simp [hflights]
  | putting =>
    obtain ⟨entry, rest, -, hflights⟩ := h.putting hphase
    simp [hflights]

/-- Entries leave the queue: behind the head of a drain under way, or any between its requests. -/
theorem Sound.shorten {t : τ} {log : Log τ ι} {clears : ℕ} {c : Core ι} {queue : List (Entry ι)}
    {phase : Phase} (h : Sound t log clears c) (hqueue : queue.Sublist c.queue)
    (hphase : phase = c.phase ∧ queue.head? = c.queue.head? ∨
      c.flights = [] ∧ (phase = .idle ∨ phase = .awaiting)) :
    Sound t log clears { c with queue, phase } := by
  have hhead : ∀ entry rest, queue.head? = c.queue.head? → c.queue = entry :: rest →
      ∃ rest, queue = entry :: rest := by
    intro entry rest hhead hcons
    rw [hcons] at hhead
    exact List.head?_eq_some_iff.mp hhead
  exact
    { h with
      entries := fun entry hentry => h.entries entry (hqueue.subset hentry)
      queue_sorted := h.queue_sorted.sublist (hqueue.map _)
      queue_lt := fun entry hentry => h.queue_lt entry (hqueue.subset hentry)
      quiet := fun hquiet => by
        rcases hphase with ⟨rfl, -⟩ | ⟨hnil, -⟩
        · exact h.quiet hquiet
        · exact hnil
      reading := fun hreading => by
        rcases hphase with ⟨rfl, hsame⟩ | ⟨-, rfl | rfl⟩
        · obtain ⟨entry, rest, m, hcons, hrest⟩ := h.reading hreading
          obtain ⟨rest, rfl⟩ := hhead entry rest hsame hcons
          exact ⟨entry, rest, m, rfl, hrest⟩
        · cases hreading
        · cases hreading
      putting := fun hputting => by
        rcases hphase with ⟨rfl, hsame⟩ | ⟨-, rfl | rfl⟩
        · obtain ⟨entry, rest, hcons, hrest⟩ := h.putting hputting
          obtain ⟨rest, rfl⟩ := hhead entry rest hsame hcons
          exact ⟨entry, rest, rfl, hrest⟩
        · cases hputting
        · cases hputting
      wrote_le := fun w hw entry hentry => h.wrote_le w hw entry (hqueue.subset hentry)
      wrote_eq := fun w hw entry hentry => h.wrote_eq w hw entry (hqueue.subset hentry) }

/-- Behind the drain's answer nothing of its is under way. -/
theorem Sound.flights_behind {t : τ} {log : Log τ ι} {clears : ℕ} {c : Core ι} {answer : Answer ι}
    {answers : List (Answer ι)} {flight : Flight} (h : Sound t log clears c)
    (hanswered : c.answered = answer :: answers) (hflight : answer.flight? = some flight) :
    { c with answered := answers }.flights = [] := by
  have hlength := h.flights
  rw [Core.flights, hanswered, List.filterMap_cons_some hflight, List.cons_append,
    List.length_cons] at hlength
  apply List.length_eq_zero_iff.mp
  rw [Core.flights]
  exact Nat.le_zero.mp (Nat.le_of_succ_le_succ hlength)

/-- An answer that is none of the drain's is taken. -/
theorem Sound.taken {t : τ} {log : Log τ ι} {clears : ℕ} {c : Core ι} {answer : Answer ι}
    {answers : List (Answer ι)} {known : Option ℕ} (h : Sound t log clears c)
    (hanswered : c.answered = answer :: answers) (hflight : answer.flight? = none)
    (hknown : ∀ v, known = some v → v + unheard answers ≤ clears) :
    Sound t log clears { c with answered := answers, known } := by
  have hwrote : answer.wrote? = none := by
    cases answer with
    | put => cases hflight
    | _ => rfl
  have hflights : { c with answered := answers, known }.flights = c.flights := by
    rw [Core.flights, Core.flights, hanswered, List.filterMap_cons_none hflight]
  exact
    { h with
      known := hknown
      answered := fun answer behind hsuffix =>
        h.answered answer behind (hanswered ▸ hsuffix.trans (List.suffix_cons ..))
      quiet := fun hphase => hflights.trans (h.quiet hphase)
      reading := fun hphase => by
        rw [hflights]
        exact h.reading hphase
      putting := fun hphase => by
        rw [hflights]
        exact h.putting hphase
      wrote_eq := fun w hw entry hentry heq => by
        have hmem := h.wrote_eq w hw entry hentry heq
        rwa [hanswered, List.filterMap_cons_none hwrote] at hmem }

/-- The drain's own answer is taken: it goes on with the entries it leaves, none of which is one the
answer says is written. -/
theorem Sound.drained {t : τ} {log : Log τ ι} {clears : ℕ} {c : Core ι} {answer : Answer ι}
    {answers : List (Answer ι)} {flight : Flight} {known : Option ℕ} {queue : List (Entry ι)}
    (h : Sound t log clears c) (hanswered : c.answered = answer :: answers)
    (hflight : answer.flight? = some flight) (hqueue : queue.Sublist c.queue)
    (hwrote : ∀ n, answer.wrote? = some n → ∀ entry ∈ queue, entry.ticket ≠ n)
    (hknown : ∀ v, known = some v → v + unheard answers ≤ clears) :
    Sound t log clears { c with answered := answers, known, queue, phase := .idle } := by
  have hflights := h.flights_behind hanswered hflight
  exact
    { h with
      known := hknown
      entries := fun entry hentry => h.entries entry (hqueue.subset hentry)
      queue_sorted := h.queue_sorted.sublist (hqueue.map _)
      queue_lt := fun entry hentry => h.queue_lt entry (hqueue.subset hentry)
      answered := fun answer behind hsuffix =>
        h.answered answer behind (hanswered ▸ hsuffix.trans (List.suffix_cons ..))
      quiet := fun _ => hflights
      reading := fun hphase => by cases hphase
      putting := fun hphase => by cases hphase
      wrote_le := fun w hw entry hentry => h.wrote_le w hw entry (hqueue.subset hentry)
      wrote_eq := fun w hw entry hentry heq => by
        have hmem := h.wrote_eq w hw entry (hqueue.subset hentry) heq
        rw [hanswered] at hmem
        cases hput : answer.wrote? with
        | none => rwa [List.filterMap_cons_none hput] at hmem
        | some n =>
          rw [List.filterMap_cons_some hput, List.mem_cons] at hmem
          exact hmem.resolve_left (hwrote n hput entry hentry) }

/-- A read carries its ticket. -/
theorem Request.ticket_of_read {request : Request ι} {m : ℕ} (h : request.read? = some m) :
    request.ticket? = some m := by
  cases request <;> first | exact h | cases h

/-- A ticket newer than all that was asked and carried out. -/
structure Newest (t : τ) (log : Log τ ι) (c : Core ι) (m : ℕ) : Prop where
  asked : ∀ k ∈ c.asked.filterMap Request.ticket?, k < m
  cleared : ∀ k, (t, Event.cleared k) ∈ log → k < m
  lt : m < c.tickets

/-- A request is asked, under the newest ticket where it takes one. -/
theorem Sound.asking {t : τ} {log : Log τ ι} {clears : ℕ} {phase : Phase} {c : Core ι}
    {request : Request ι} (h : Sound t log clears c)
    (hticket : ∀ m, request.ticket? = some m → Newest t log c m)
    (hsent : ∀ n record v, request = .put n record v → Sent t log clears n record v)
    (hquiet : phase = .idle ∨ phase = .awaiting → c.flights = [] ∧ request.flight? = none)
    (hreading : phase = .reading → ∃ entry rest m, c.queue = entry :: rest ∧
      c.flights ++ request.flight?.toList = [.recount m] ∧
      Recounted t log entry.ticket entry.record m)
    (hputting : phase = .putting → ∃ entry rest, c.queue = entry :: rest ∧
      c.flights ++ request.flight?.toList = [.put entry.ticket]) :
    Sound t log clears { c with asked := c.asked ++ [request], phase } := by
  have htickets : (c.asked ++ [request]).filterMap Request.ticket?
      = c.asked.filterMap Request.ticket? ++ request.ticket?.toList := by
    rw [List.filterMap_append]
    cases request <;> rfl
  have hflights : { c with asked := c.asked ++ [request], phase }.flights
      = c.flights ++ request.flight?.toList := by
    rw [Core.flights, Core.flights, List.filterMap_append, ← List.append_assoc]
    cases request <;> rfl
  exact
    { h with
      asked_sorted := by
        rw [htickets]
        refine List.pairwise_append.mpr ⟨h.asked_sorted, ?_, fun m hm k hk => ?_⟩
        · cases request.ticket? with
          | none => exact List.Pairwise.nil
          | some m => exact List.pairwise_singleton _ _
        · exact (hticket k (Option.mem_toList.mp hk)).asked m hm
      asked_lt := by
        rw [htickets]
        intro m hm
        rcases List.mem_append.mp hm with hm | hm
        · exact h.asked_lt m hm
        · exact (hticket m (Option.mem_toList.mp hm)).lt
      reads := fun m hm => by
        rw [List.filterMap_append, List.mem_append] at hm
        rcases hm with hm | hm
        · exact h.reads m hm
        · obtain ⟨_, hmem, hm⟩ := List.mem_filterMap.mp hm
          rw [List.mem_singleton.mp hmem] at hm
          have hnewest := hticket m (Request.ticket_of_read hm)
          exact clearsAfter_eq_zero fun k hk => (hnewest.cleared k hk).le
      sent := fun n record v hput => by
        rcases List.mem_append.mp hput with hput | hput
        · exact h.sent n record v hput
        · exact hsent n record v (List.mem_singleton.mp hput).symm
      quiet := fun hphase => by
        obtain ⟨hnil, hnone⟩ := hquiet hphase
        rw [hflights, hnil, hnone]
        rfl
      reading := fun hphase => by
        rw [hflights]
        exact hreading hphase
      putting := fun hphase => by
        rw [hflights]
        exact hputting hphase }

/-- A request that is none of the drain's is asked. -/
theorem Sound.ask {t : τ} {log : Log τ ι} {clears : ℕ} {c : Core ι} {request : Request ι}
    (h : Sound t log clears c) (hflight : request.flight? = none)
    (hticket : ∀ m, request.ticket? = some m → Newest t log c m) :
    Sound t log clears { c with asked := c.asked ++ [request] } := by
  refine h.asking hticket ?_ ?_ ?_ ?_
  · rintro n record v rfl
    cases hflight
  · exact fun hphase => ⟨h.quiet hphase, hflight⟩
  · intro hphase
    rw [hflight, Option.toList_none, List.append_nil]
    exact h.reading hphase
  · intro hphase
    rw [hflight, Option.toList_none, List.append_nil]
    exact h.putting hphase

/-- The drain sends its head's write. -/
theorem Sound.askPut {t : τ} {log : Log τ ι} {clears v : ℕ} {c : Core ι} {entry : Entry ι}
    {rest : List (Entry ι)} (h : Sound t log clears c) (hflights : c.flights = [])
    (hqueue : c.queue = entry :: rest)
    (hcount : ∃ m, (m = entry.ticket ∨ Recounted t log entry.ticket entry.record m) ∧
      Backed t log clears m v) :
    Sound t log clears { c with
      asked := c.asked ++ [.put entry.ticket entry.record v]
      phase := .putting } := by
  refine h.asking (fun m hm => by cases hm) ?_ (fun hphase => by cases hphase <;> contradiction)
    (fun hphase => by cases hphase) (fun _ => ⟨entry, rest, hqueue, by rw [hflights]; rfl⟩)
  intro n record w hput
  cases hput
  obtain ⟨early, late, rfl, -⟩ := (h.entries entry (hqueue ▸ List.mem_cons_self)).queued
  refine ⟨?_, hcount⟩
  rw [queuedBy_append]
  apply List.mem_append_right
  exact List.mem_filterMap.mpr ⟨_, List.mem_cons_self, by rw [if_pos rfl]; rfl⟩

/-- A ticket is given out for a read made again, or for a clear. -/
theorem Sound.issue {t : τ} {log : Log τ ι} {clears : ℕ} {c : Core ι} {event : Event ι}
    (h : Sound t log clears c) (hissued : event.issued? = some c.tickets)
    (hqueued : event.queued? = none) :
    Sound t (log ++ [(t, event)]) clears { c with tickets := c.tickets + 1 } ∧
      Newest t (log ++ [(t, event)]) { c with tickets := c.tickets + 1 } c.tickets := by
  have hadded : issuedBy t (log ++ [(t, event)]) = issuedBy t log ++ [c.tickets] := by
    rw [issuedBy_append]
    simp [issuedBy, hissued]
  have hplain : queuedBy t (log ++ [(t, event)]) = queuedBy t log ∧
      wroteBy t (log ++ [(t, event)]) = wroteBy t log ∧ noticedBy t [(t, event)] = 0 ∧
      clearedIn [(t, event)] = 0 ∧ ∀ k, (t, Event.cleared k) ∉ [(t, event)] := by
    rw [queuedBy_append, wroteBy_append]
    cases event <;> simp_all [queuedBy, wroteBy, noticedBy, clearedIn, Event.queued?, Event.wrote?,
      Event.isNoticed, Event.isCleared, Event.issued?]
  obtain ⟨hsame, hwrote, hnoticed, hnone, hcleared⟩ := hplain
  have hsum : clears = clears + clearedIn [(t, event)] := by rw [hnone, Nat.add_zero]
  have hzero : ∀ m, clearsAfter t m [(t, event)] = 0 := fun m =>
    clearsAfter_eq_zero fun k hk => absurd hk (hcleared k)
  have hbefore : ∀ k, (t, Event.cleared k) ∈ log ++ [(t, event)] → k < c.tickets := fun k hk =>
    (List.mem_append.mp hk).elim (h.cleared_lt k) fun hk => absurd hk (hcleared k)
  refine ⟨?_, ⟨h.asked_lt, hbefore, Nat.lt_succ_self _⟩⟩
  exact
    { h with
      changes := by rw [noticedBy_append, hnoticed, h.changes, Nat.add_zero]
      entries := fun entry hentry => (h.entries entry hentry).grow hsum
      queue_lt := fun entry hentry => (h.queue_lt entry hentry).trans (Nat.lt_succ_self _)
      asked_lt := fun m hm => (h.asked_lt m hm).trans (Nat.lt_succ_self _)
      cleared_lt := fun k hk => (hbefore k hk).trans (Nat.lt_succ_self _)
      reads := fun m hm => by rw [clearsAfter_append, h.reads m hm, hzero]
      answered := fun answer behind hsuffix m result hread =>
        (h.answered answer behind hsuffix m result hread).grow hsum
          (by rw [hzero, Nat.zero_add]) (Nat.le_add_right _ _)
      sent := fun k row v hput => (h.sent k row v hput).grow hsum
      reading := fun hphase => by
        obtain ⟨entry, rest, m, hcons, hflights, hrecounted⟩ := h.reading hphase
        exact ⟨entry, rest, m, hcons, hflights, hrecounted.grow _⟩
      issued_sorted := by
        rw [hadded]
        refine List.pairwise_append.mpr ⟨h.issued_sorted, List.pairwise_singleton _ _, ?_⟩
        intro m hm k hk
        rw [List.mem_singleton.mp hk]
        exact h.issued_lt m hm
      issued_lt := by
        rw [hadded]
        intro m hm
        rcases List.mem_append.mp hm with hm | hm
        · exact (h.issued_lt m hm).trans (Nat.lt_succ_self _)
        · rw [List.mem_singleton.mp hm]
          exact Nat.lt_succ_self _
      wrote_queued := by
        rw [hsame, hwrote]
        exact h.wrote_queued
      wrote_sorted := by
        rw [hwrote]
        exact h.wrote_sorted
      wrote_le := by
        rw [hwrote]
        exact h.wrote_le
      wrote_eq := by
        rw [hwrote]
        exact h.wrote_eq }

/-- The drain reads the count again for a head queued at the last change the tab noticed. -/
theorem Sound.askRecount {t : τ} {log : Log τ ι} {clears : ℕ} {c : Core ι} {entry : Entry ι}
    {rest : List (Entry ι)} (h : Sound t log clears c) (hflights : c.flights = [])
    (hqueue : c.queue = entry :: rest) (hchanges : c.changes = entry.queuedAt) :
    Sound t (log ++ [(t, .recounting entry.ticket c.tickets)]) clears { c with
      asked := c.asked ++ [.recount c.tickets]
      tickets := c.tickets + 1
      phase := .reading } := by
  have hticket : (Event.recounting entry.ticket c.tickets : Event ι).issued? = some c.tickets := rfl
  obtain ⟨hissued, hnewest⟩ := h.issue hticket rfl
  refine hissued.asking (fun m hm => by cases hm; exact hnewest) (fun n record v hput => by cases hput)
    (fun hphase => by cases hphase <;> contradiction) (fun _ => ?_) (fun hphase => by cases hphase)
  refine ⟨entry, rest, c.tickets, hqueue, ?_, ?_⟩
  · show c.flights ++ [.recount c.tickets] = [.recount c.tickets]
    rw [hflights]
    rfl
  obtain ⟨early, late, rfl, hearly⟩ := (h.entries entry (hqueue ▸ List.mem_cons_self)).queued
  refine ⟨early, late, [], by simp, ?_⟩
  have hnoticed := h.changes
  rw [hchanges, hearly, noticedBy_append] at hnoticed
  have hcons : noticedBy t ((t, .queued entry.ticket entry.record) :: late) = noticedBy t late := by
    simp [noticedBy, Event.isNoticed]
  omega

@[simp] theorem Entry.resolve_ticket (m : ℕ) (count : Count) (entry : Entry ι) :
    (entry.resolve m count).ticket = entry.ticket := by
  rw [Entry.resolve]
  split <;> rfl

@[simp] theorem Entry.resolve_record (m : ℕ) (count : Count) (entry : Entry ι) :
    (entry.resolve m count).record = entry.record := by
  rw [Entry.resolve]
  split <;> rfl

/-- The promise of a count settles with a count that is backed, or without one. -/
theorem Sound.resolve {t : τ} {log : Log τ ι} {clears m : ℕ} {c : Core ι} {count : Count}
    (h : Sound t log clears c) (hcount : ∀ v, count = .read v → Backed t log clears m v) :
    Sound t log clears { c with queue := c.queue.map (Entry.resolve m count) } := by
  have hentry : ∀ entry ∈ c.queue, (entry.resolve m count).Sound t log clears := by
    intro entry hmem
    have hentry := h.entries entry hmem
    rw [Entry.resolve]
    split
    next heq => exact ⟨hentry.queued, fun v hv => heq ▸ hcount v hv⟩
    next => exact hentry
  exact
    { h with
      entries := List.forall_mem_map.mpr hentry
      queue_sorted := by
        rw [List.map_map]
        convert h.queue_sorted using 2
        funext entry
        exact entry.resolve_ticket m count
      queue_lt := List.forall_mem_map.mpr fun entry hmem => by
        rw [Entry.resolve_ticket]
        exact h.queue_lt entry hmem
      reading := fun hphase => by
        obtain ⟨entry, rest, k, hqueue, hrest⟩ := h.reading hphase
        refine ⟨entry.resolve m count, rest.map (Entry.resolve m count), k, ?_, ?_⟩
        · exact congrArg (List.map (Entry.resolve m count)) hqueue
        · rwa [Entry.resolve_ticket, Entry.resolve_record]
      putting := fun hphase => by
        obtain ⟨entry, rest, hqueue, hrest⟩ := h.putting hphase
        refine ⟨entry.resolve m count, rest.map (Entry.resolve m count), ?_, ?_⟩
        · exact congrArg (List.map (Entry.resolve m count)) hqueue
        · rwa [Entry.resolve_ticket]
      wrote_le := fun w hw => List.forall_mem_map.mpr fun entry hmem => by
        rw [Entry.resolve_ticket]
        exact h.wrote_le w hw entry hmem
      wrote_eq := fun w hw => List.forall_mem_map.mpr fun entry hmem => by
        rw [Entry.resolve_ticket]
        exact h.wrote_eq w hw entry hmem }

/-- What was queued has a ticket that was given. -/
theorem Sound.queued_lt {t : τ} {log : Log τ ι} {clears : ℕ} {c : Core ι} (h : Sound t log clears c) :
    ∀ w ∈ queuedBy t log, w.1 < c.tickets := fun _ hw =>
  h.issued_lt _ ((queuedBy_sublist_issuedBy t log).subset (List.mem_map_of_mem hw))

/-- A result joins the queue under a new ticket, and its read is asked. -/
theorem Sound.queued {t : τ} {log : Log τ ι} {clears : ℕ} {c : Core ι} (h : Sound t log clears c)
    (record : Row ι) :
    Sound t (log ++ [(t, .queued c.tickets record)]) clears { c with
      queue := c.queue ++ [⟨c.tickets, record, .pending, c.changes⟩]
      asked := c.asked ++ [.count c.tickets]
      tickets := c.tickets + 1 } := by
  have hissued : issuedBy t (log ++ [(t, .queued c.tickets record)]) = issuedBy t log ++ [c.tickets] := by
    rw [issuedBy_append]
    simp [issuedBy, Event.issued?]
  have hbefore : ∀ k, (t, Event.cleared k) ∈ log ++ [(t, .queued c.tickets record)] →
      k < c.tickets := fun k hk => h.cleared_lt k (by simpa using hk)
  have hwrote : wroteBy t (log ++ [(t, .queued c.tickets record)]) = wroteBy t log := by
    rw [wroteBy_append]
    simp [wroteBy, Event.wrote?]
  have hadded : queuedBy t (log ++ [(t, .queued c.tickets record)]) =
      queuedBy t log ++ [(c.tickets, record)] := by
    rw [queuedBy_append]
    simp [queuedBy, Event.queued?]
  have hsame : ∀ m, clearsAfter t m [(t, Event.queued c.tickets record)] = 0 := fun m =>
    clearsAfter_eq_zero fun k hk => by simp at hk
  have hlast : (⟨c.tickets, record, .pending, c.changes⟩ : Entry ι).Sound t
      (log ++ [(t, .queued c.tickets record)]) clears :=
    ⟨⟨log, [], rfl, h.changes⟩, fun v hv => by cases hv⟩
  suffices hqueued : Sound t (log ++ [(t, .queued c.tickets record)]) clears { c with
      queue := c.queue ++ [⟨c.tickets, record, .pending, c.changes⟩]
      tickets := c.tickets + 1 } from
    hqueued.ask rfl fun m hm => by
      cases hm
      exact ⟨h.asked_lt, hbefore, Nat.lt_succ_self _⟩
  exact
    { h with
      changes := by
        rw [noticedBy_append, h.changes]
        simp [noticedBy, Event.isNoticed]
      entries := fun entry hentry => by
        rcases List.mem_append.mp hentry with hentry | hentry
        · exact (h.entries entry hentry).grow rfl
        · rw [List.mem_singleton.mp hentry]
          exact hlast
      queue_sorted := by
        rw [List.map_append]
        refine List.pairwise_append.mpr ⟨h.queue_sorted, List.pairwise_singleton _ _, ?_⟩
        intro m hm k hk
        obtain ⟨entry, hentry, rfl⟩ := List.mem_map.mp hm
        rw [List.mem_singleton.mp hk]
        exact h.queue_lt entry hentry
      queue_lt := fun entry hentry => by
        rcases List.mem_append.mp hentry with hentry | hentry
        · exact (h.queue_lt entry hentry).trans (Nat.lt_succ_self _)
        · rw [List.mem_singleton.mp hentry]
          exact Nat.lt_succ_self _
      asked_lt := fun m hm => (h.asked_lt m hm).trans (Nat.lt_succ_self _)
      cleared_lt := fun k hk => (hbefore k hk).trans (Nat.lt_succ_self _)
      reads := fun m hm => by rw [clearsAfter_append, h.reads m hm, hsame]
      answered := fun answer behind hsuffix m result hread =>
        (h.answered answer behind hsuffix m result hread).grow rfl
          (by rw [hsame, Nat.zero_add]) (Nat.le_add_right _ _)
      sent := fun k row v hput => (h.sent k row v hput).grow rfl
      reading := fun hphase => by
        obtain ⟨entry, rest, m, hcons, hflights, hrecounted⟩ := h.reading hphase
        exact ⟨entry, rest ++ [⟨c.tickets, record, .pending, c.changes⟩], m, by rw [hcons]; rfl, hflights,
          hrecounted.grow _⟩
      putting := fun hphase => by
        obtain ⟨entry, rest, hcons, hflights⟩ := h.putting hphase
        exact ⟨entry, rest ++ [⟨c.tickets, record, .pending, c.changes⟩], by rw [hcons]; rfl, hflights⟩
      issued_sorted := by
        rw [hissued]
        refine List.pairwise_append.mpr ⟨h.issued_sorted, List.pairwise_singleton _ _, ?_⟩
        intro m hm k hk
        rw [List.mem_singleton.mp hk]
        exact h.issued_lt m hm
      issued_lt := by
        rw [hissued]
        intro m hm
        rcases List.mem_append.mp hm with hm | hm
        · exact (h.issued_lt m hm).trans (Nat.lt_succ_self _)
        · rw [List.mem_singleton.mp hm]
          exact Nat.lt_succ_self _
      wrote_queued := by
        rw [hwrote, hadded]
        exact fun w hw => List.mem_append_left _ (h.wrote_queued w hw)
      wrote_sorted := by
        rw [hwrote]
        exact h.wrote_sorted
      wrote_le := by
        rw [hwrote]
        intro w hw entry hentry
        rcases List.mem_append.mp hentry with hentry | hentry
        · exact h.wrote_le w hw entry hentry
        · rw [List.mem_singleton.mp hentry]
          exact (h.queued_lt w (h.wrote_queued w hw)).le
      wrote_eq := by
        rw [hwrote]
        intro w hw entry hentry heq
        rcases List.mem_append.mp hentry with hentry | hentry
        · exact h.wrote_eq w hw entry hentry heq
        · rw [List.mem_singleton.mp hentry] at heq
          exact absurd heq (h.queued_lt w (h.wrote_queued w hw)).ne }

/-- The tab notices a change of History. -/
theorem Sound.notice {t : τ} {log : Log τ ι} {clears : ℕ} {c : Core ι} {known : Option ℕ}
    (h : Sound t log clears c)
    (hknown : ∀ v, known = some v → v + unheard c.answered ≤ clears) :
    Sound t (log ++ [(t, .noticed)]) clears { c with changes := c.changes + 1, known } := by
  have hqueued : queuedBy t (log ++ [(t, .noticed)]) = queuedBy t log := by
    rw [queuedBy_append]
    simp [queuedBy, Event.queued?]
  have hissued : issuedBy t (log ++ [(t, .noticed)]) = issuedBy t log := by
    rw [issuedBy_append]
    simp [issuedBy, Event.issued?]
  have hwrote : wroteBy t (log ++ [(t, .noticed)]) = wroteBy t log := by
    rw [wroteBy_append]
    simp [wroteBy, Event.wrote?]
  have hsame : ∀ m, clearsAfter t m [(t, (Event.noticed : Event ι))] = 0 := fun m =>
    clearsAfter_eq_zero fun k hk => by simp at hk
  exact
    { h with
      known := hknown
      changes := by
        rw [noticedBy_append, h.changes]
        simp [noticedBy, Event.isNoticed]
      entries := fun entry hentry => (h.entries entry hentry).grow rfl
      cleared_lt := fun k hk => h.cleared_lt k (by simpa using hk)
      reads := fun m hm => by rw [clearsAfter_append, h.reads m hm, hsame]
      answered := fun answer behind hsuffix m result hread =>
        (h.answered answer behind hsuffix m result hread).grow rfl
          (by rw [hsame, Nat.zero_add]) (Nat.le_add_right _ _)
      sent := fun k row v hput => (h.sent k row v hput).grow rfl
      reading := fun hphase => by
        obtain ⟨entry, rest, m, hcons, hflights, hrecounted⟩ := h.reading hphase
        exact ⟨entry, rest, m, hcons, hflights, hrecounted.grow _⟩
      issued_sorted := by
        rw [hissued]
        exact h.issued_sorted
      issued_lt := by
        rw [hissued]
        exact h.issued_lt
      wrote_queued := by
        rw [hqueued, hwrote]
        exact h.wrote_queued
      wrote_sorted := by
        rw [hwrote]
        exact h.wrote_sorted
      wrote_le := by
        rw [hwrote]
        exact h.wrote_le
      wrote_eq := by
        rw [hwrote]
        exact h.wrote_eq }

/-! ## The store carries a request out -/

/-- What the store does of one request: the answer it gives, and what it logs. -/
structure Served (t : τ) (log events : Log τ ι) (clears clears' : ℕ) (request : Request ι)
    (answer : Answer ι) : Prop where
  flight : answer.flight? = request.flight?
  clears_eq : clears' = clears + clearedIn events
  unheard : clearedIn events = if answer.isCleared then 1 else 0
  cleared : ∀ k, (t, Event.cleared k) ∈ events → request.ticket? = some k
  issued : issuedBy t events = []
  queued : queuedBy t events = []
  noticed : noticedBy t events = 0
  /-- A read that is answered counts the clears there are. -/
  read : ∀ m result, answer.read? = some (m, result) → request.read? = some m ∧
    clearedIn events = 0 ∧ ∀ v, result = .ok v → v = clears ∧ Since (log ++ events) (t, .counted m)
  wrote : wroteBy t events = [] ∨ ∃ n record v, request = .put n record v ∧
    wroteBy t events = [(n, record)] ∧ answer.wrote? = some n

/-- An answer to a write carries its flight. -/
theorem Answer.flight_of_wrote {answer : Answer ι} {n : ℕ} (h : answer.wrote? = some n) :
    answer.flight? = some (.put n) := by
  cases answer with
  | put m record outcome =>
    cases outcome with
    | error => cases h
    | ok result =>
      obtain ⟨written, pruned⟩ := result
      cases written
      · cases h
      · cases h
        rfl
  | _ => cases h

/-- A write on its way is its head's, and nothing before it was written under that ticket. -/
theorem Sound.wrote_lt {t : τ} {log : Log τ ι} {clears n v : ℕ} {c : Core ι} {record : Row ι}
    {asked : List (Request ι)} (h : Sound t log clears c)
    (hasked : c.asked = .put n record v :: asked) :
    (∀ w ∈ wroteBy t log, w.1 < n) ∧ ∀ entry ∈ c.queue, n ≤ entry.ticket := by
  have hflights := h.flights
  have hcons : c.flights = c.answered.filterMap Answer.flight? ++
      .put n :: asked.filterMap Request.flight? := by
    rw [Core.flights, hasked]
    rfl
  rw [hcons, List.length_append, List.length_cons] at hflights
  have hnil : c.answered.filterMap Answer.flight? = [] :=
    List.length_eq_zero_iff.mp (by omega)
  have hrest : asked.filterMap Request.flight? = [] :=
    List.length_eq_zero_iff.mp (by omega)
  rw [hnil, hrest, List.nil_append] at hcons
  obtain ⟨entry, rest, hqueue, hput⟩ : ∃ entry rest, c.queue = entry :: rest ∧
      c.flights = [.put entry.ticket] := by
    cases hphase : c.phase with
    | idle => exact absurd (hcons.symm.trans (h.quiet (.inl hphase))) (by simp)
    | awaiting => exact absurd (hcons.symm.trans (h.quiet (.inr hphase))) (by simp)
    | reading =>
      obtain ⟨entry, rest, m, -, hflight, -⟩ := h.reading hphase
      rw [hcons] at hflight
      cases hflight
    | putting => exact h.putting hphase
  rw [hcons] at hput
  obtain rfl : n = entry.ticket := by
    cases hput
    rfl
  have hmem : entry ∈ c.queue := hqueue ▸ List.mem_cons_self
  refine ⟨fun w hw => lt_of_le_of_ne (h.wrote_le w hw entry hmem) fun heq => ?_, ?_⟩
  · obtain ⟨answer, hanswer, hwrote⟩ := List.mem_filterMap.mp (h.wrote_eq w hw entry hmem heq)
    have : Flight.put entry.ticket ∈ c.answered.filterMap Answer.flight? :=
      List.mem_filterMap.mpr ⟨answer, hanswer, Answer.flight_of_wrote hwrote⟩
    rw [hnil] at this
    cases this
  · intro other hother
    have hsorted := h.queue_sorted
    rw [hqueue, List.map_cons, List.pairwise_cons] at hsorted
    rw [hqueue, List.mem_cons] at hother
    rcases hother with rfl | hother
    · exact Nat.le_refl _
    · exact (hsorted.1 _ (List.mem_map_of_mem hother)).le

/-- The tab's oldest request is carried out, or fails. -/
theorem Sound.served {t : τ} {log events : Log τ ι} {clears clears' : ℕ} {c : Core ι}
    {request : Request ι} {asked : List (Request ι)} {answer : Answer ι}
    (h : Sound t log clears c) (hasked : c.asked = request :: asked)
    (hserved : Served t log events clears clears' request answer) :
    Sound t (log ++ events) clears'
      { c with asked, answered := c.answered ++ [answer] } := by
  have hunheard : unheard (c.answered ++ [answer]) = unheard c.answered + clearedIn events := by
    rw [hserved.unheard, unheard, unheard, List.countP_append, List.countP_singleton]
  have hsub : asked.Sublist c.asked := hasked ▸ List.sublist_cons_self ..
  have hqueued : queuedBy t (log ++ events) = queuedBy t log := by
    rw [queuedBy_append, hserved.queued, List.append_nil]
  have hissued : issuedBy t (log ++ events) = issuedBy t log := by
    rw [issuedBy_append, hserved.issued, List.append_nil]
  have hflights : { c with asked, answered := c.answered ++ [answer] }.flights = c.flights := by
    rw [Core.flights, Core.flights, List.filterMap_append, hasked, List.append_assoc]
    congr 1
    cases hflight : request.flight? with
    | none =>
      rw [List.filterMap_cons_none hflight,
        List.filterMap_cons_none (hserved.flight.trans hflight)]
      rfl
    | some flight =>
      rw [List.filterMap_cons_some hflight,
        List.filterMap_cons_some (hserved.flight.trans hflight)]
      rfl
  -- The tickets behind the one carried out are all newer.
  have hnewer : ∀ m ∈ asked.filterMap Request.read?, ∀ k, (t, Event.cleared k) ∈ events → k ≤ m := by
    intro m hm k hk
    have hsorted := h.asked_sorted
    rw [hasked, List.filterMap_cons_some (hserved.cleared k hk), List.pairwise_cons] at hsorted
    obtain ⟨other, hother, hread⟩ := List.mem_filterMap.mp hm
    exact (hsorted.1 m (List.mem_filterMap.mpr
      ⟨other, hother, Request.ticket_of_read hread⟩)).le
  have hbehind : ∀ m, clearsAfter t m events ≤ clearedIn events := fun m =>
    clearsAfter_le_clearedIn t m events
  exact
    { known := fun v hv => by
        have := h.known v hv
        show v + unheard (c.answered ++ [answer]) ≤ clears'
        rw [hunheard, hserved.clears_eq]
        omega
      changes := by rw [noticedBy_append, hserved.noticed, h.changes, Nat.add_zero]
      entries := fun entry hentry => (h.entries entry hentry).grow hserved.clears_eq
      queue_sorted := h.queue_sorted
      queue_lt := h.queue_lt
      asked_sorted := h.asked_sorted.sublist (hsub.filterMap _)
      asked_lt := fun m hm => h.asked_lt m ((hsub.filterMap _).subset hm)
      cleared_lt := fun k hk => by
        rcases List.mem_append.mp hk with hk | hk
        · exact h.cleared_lt k hk
        · exact h.asked_lt k (List.mem_filterMap.mpr
            ⟨request, hasked ▸ List.mem_cons_self, hserved.cleared k hk⟩)
      reads := fun m hm => by
        rw [clearsAfter_append, h.reads m ((hsub.filterMap _).subset hm),
          clearsAfter_eq_zero (hnewer m hm)]
      answered := fun old behind hsuffix m result hread => by
        rcases List.suffix_concat_iff.mp hsuffix with hnil | ⟨front, hfront, hold⟩
        · cases hnil
        · cases front with
          | nil =>
            cases hfront
            obtain ⟨hrequest, hnone, hok⟩ := hserved.read m result hread
            have hzero : clearsAfter t m log = 0 := h.reads m (List.mem_filterMap.mpr
              ⟨request, hasked ▸ List.mem_cons_self, hrequest⟩)
            refine ⟨?_, fun v hv => ?_⟩
            · have := hbehind m
              rw [clearsAfter_append]
              omega
            · obtain ⟨rfl, hsince⟩ := hok v hv
              exact ⟨by rw [hserved.clears_eq]; exact Nat.le_add_right _ _, fun _ => hsince⟩
          | cons first front =>
            cases hfront
            have hlast : unheard (front ++ [answer]) = unheard front + clearedIn events := by
              rw [hserved.unheard, unheard, unheard, List.countP_append, List.countP_singleton]
            have := hbehind m
            show Read t (log ++ events) clears' m result (front ++ [answer])
            exact (h.answered old front hold m result hread).grow hserved.clears_eq
              (by omega) (by omega)
      sent := fun n record v hput => (h.sent n record v (hsub.subset hput)).grow hserved.clears_eq
      quiet := fun hphase => hflights.trans (h.quiet hphase)
      reading := fun hphase => by
        obtain ⟨entry, rest, m, hqueue, hflight, hrecounted⟩ := h.reading hphase
        exact ⟨entry, rest, m, hqueue, hflights.trans hflight, hrecounted.grow events⟩
      putting := fun hphase => by
        rw [hflights]
        exact h.putting hphase
      issued_sorted := by
        rw [hissued]
        exact h.issued_sorted
      issued_lt := by
        rw [hissued]
        exact h.issued_lt
      wrote_queued := by
        rw [hqueued, wroteBy_append]
        rcases hserved.wrote with hnone | ⟨n, record, v, rfl, hwrote, -⟩
        · rw [hnone, List.append_nil]
          exact h.wrote_queued
        · rw [hwrote]
          intro w hw
          rcases List.mem_append.mp hw with hw | hw
          · exact h.wrote_queued w hw
          · rw [List.mem_singleton.mp hw]
            exact (h.sent n record v (hasked ▸ List.mem_cons_self)).1
      wrote_sorted := by
        rw [wroteBy_append]
        rcases hserved.wrote with hnone | ⟨n, record, v, rfl, hwrote, -⟩
        · rw [hnone, List.append_nil]
          exact h.wrote_sorted
        · rw [hwrote, List.map_append]
          refine List.pairwise_append.mpr ⟨h.wrote_sorted, List.pairwise_singleton _ _, ?_⟩
          intro m hm k hk
          obtain ⟨w, hw, rfl⟩ := List.mem_map.mp hm
          rw [List.mem_singleton.mp hk]
          exact (h.wrote_lt hasked).1 w hw
      wrote_le := by
        rw [wroteBy_append]
        rcases hserved.wrote with hnone | ⟨n, record, v, rfl, hwrote, -⟩
        · rw [hnone, List.append_nil]
          exact h.wrote_le
        · rw [hwrote]
          intro w hw entry hentry
          rcases List.mem_append.mp hw with hw | hw
          · exact h.wrote_le w hw entry hentry
          · rw [List.mem_singleton.mp hw]
            exact (h.wrote_lt hasked).2 entry hentry
      wrote_eq := by
        rw [wroteBy_append]
        intro w hw entry hentry heq
        show entry.ticket ∈ (c.answered ++ [answer]).filterMap Answer.wrote?
        rw [List.filterMap_append]
        rcases List.mem_append.mp hw with hw | hw
        · exact List.mem_append_left _ (h.wrote_eq w hw entry hentry heq)
        · rcases hserved.wrote with hnone | ⟨n, record, v, -, hwrote, hanswer⟩
          · rw [hnone] at hw
            cases hw
          · rw [hwrote] at hw
            rw [List.mem_singleton.mp hw] at heq
            apply List.mem_append_right
            exact List.mem_filterMap.mpr ⟨answer, List.mem_cons_self, heq ▸ hanswer⟩ }

end GraphiteMeter.Browser.History
