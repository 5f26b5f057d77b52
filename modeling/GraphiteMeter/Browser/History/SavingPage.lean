import GraphiteMeter.Browser.History.SavingExact

/-!
# What a tab shows

At every point of a run a tab shows what its queue and its settled records say: `pending` while
something is queued, `unsaved` and `failed` of the result offered. At most `MAX_QUEUED` results wait.

`Page` is kept by every act. Of it `Queued` is about the queue, `Awake` about what the drain waits for
where it stands, and `Shown` about the signals.

Reference: `client/src/app/history/saving.ts`.
-/

namespace GraphiteMeter.Browser.History

section Page

variable {ι : Type*} [LinearOrder ι]

/-- The queue is short, of distinct records none of which is settled, and no count it waits for is
forgotten. -/
structure Queued (tab : Tab ι) : Prop where
  bound : tab.queue.length ≤ MAX_QUEUED
  pending : tab.pending = !tab.queue.isEmpty
  ids : (tab.queue.map (·.record.id)).Nodup
  waiting : ∀ entry ∈ tab.queue, tab.settled entry.record.id = none
  counting : ∀ entry ∈ tab.queue, entry.clears = .pending →
    .count entry.ticket ∈ tab.asked ∨ ∃ result, .count entry.ticket result ∈ tab.answered

/-- What the drain waits for: nothing with an empty queue, a retry, or its head's count. -/
structure Awake (tab : Tab ι) : Prop where
  idle : tab.phase = .idle → tab.queue = [] ∨ tab.retrying = true
  awaiting : tab.phase = .awaiting → ∃ entry rest, tab.queue = entry :: rest ∧
    entry.clears = .pending

/-- `unsaved` and `failed` are what they are shown to be now. -/
def Shown (tab : Tab ι) : Prop := tab.showUnsaved = tab

structure Page (tab : Tab ι) : Prop where
  queued : Queued tab
  awake : Awake tab
  shown : Shown tab

/-! ## The drain -/

/-- The head of the queue leaves it, settled. -/
theorem Queued.settle {tab : Tab ι} {entry : Entry ι} {rest : List (Entry ι)} (h : Queued tab)
    (hqueue : tab.queue = entry :: rest) (written : Bool) (message : String) :
    Queued (tab.settle entry rest written message) where
  bound := by
    have hbound := h.bound
    rw [hqueue, List.length_cons] at hbound
    exact Nat.le_of_succ_le hbound
  pending := rfl
  ids := by
    have hids := h.ids
    rw [hqueue, List.map_cons, List.nodup_cons] at hids
    exact hids.2
  waiting := fun other hother => by
    have hids := h.ids
    rw [hqueue, List.map_cons, List.nodup_cons] at hids
    have hne : other.record.id ≠ entry.record.id := fun heq =>
      hids.1 (heq ▸ List.mem_map_of_mem hother)
    show Function.update tab.settled entry.record.id (some written) other.record.id = none
    rw [Function.update_of_ne hne]
    exact h.waiting other (hqueue ▸ List.mem_cons_of_mem _ hother)
  counting := fun other hother => h.counting other (hqueue ▸ List.mem_cons_of_mem _ hother)

omit [LinearOrder ι] in
/-- More asked is nothing to the queue. -/
theorem Queued.ask {tab : Tab ι} (h : Queued tab) (requests : List (Request ι)) (phase : Phase)
    (tickets : ℕ) : Queued { tab with asked := tab.asked ++ requests, phase, tickets } :=
  { h with
    counting := fun entry hentry hpending =>
      (h.counting entry hentry hpending).imp_left (List.mem_append_left _) }

omit [LinearOrder ι] in
/-- A tab in the middle of a save is awake. -/
theorem Awake.busy {tab : Tab ι} (hidle : tab.phase ≠ .idle) (hawaiting : tab.phase ≠ .awaiting) :
    Awake tab :=
  ⟨fun hphase => absurd hphase hidle, fun hphase => absurd hphase hawaiting⟩

/-- The drain's loop leaves a tab queued and awake. -/
theorem Queued.loop {tab : Tab ι} {entries : List (Entry ι)} (h : Queued tab)
    (hqueue : tab.queue = entries) :
    Queued (tab.loop entries).1 ∧ Awake (tab.loop entries).1 := by
  induction entries generalizing tab with
  | nil => exact ⟨{ h with }, ⟨fun _ => .inl hqueue, fun hphase => by cases hphase⟩⟩
  | cons entry rest ih =>
    rw [Tab.loop]
    cases hclears : entry.clears with
    | pending =>
      have hawaiting : Awake { tab with phase := .awaiting } :=
        ⟨(fun hphase => by cases hphase), fun _ => ⟨entry, rest, hqueue, hclears⟩⟩
      exact ⟨{ h with }, hawaiting⟩
    | refused message => exact ih (h.settle hqueue false message) rfl
    | unknown =>
      dsimp only
      split
      next => exact ih (h.settle hqueue false UNORDERED) rfl
      next =>
        exact ⟨h.ask [.recount tab.tickets] .reading (tab.tickets + 1),
          Awake.busy (fun hphase => by cases hphase) fun hphase => by cases hphase⟩
    | read v =>
      dsimp only
      split
      next =>
        exact ⟨h.ask [.put entry.ticket entry.record v] .putting tab.tickets,
          Awake.busy (fun hphase => by cases hphase) fun hphase => by cases hphase⟩
      next => exact ih (h.settle hqueue false UNSAVABLE) rfl

omit [LinearOrder ι] in
/-- The signals are right after a change they do not read. -/
theorem Shown.of_same {tab tab' : Tab ι} (h : Shown tab) (hunsaved : tab'.unsaved = tab.unsaved)
    (hfailed : tab'.failed = tab.failed) (hoffered : tab'.offered = tab.offered)
    (hsettled : ∀ record ∈ tab.offered, tab'.settled record.id = tab.settled record.id)
    (hlost : ∀ record ∈ tab.offered, tab'.lost record.id = tab.lost record.id) : Shown tab' := by
  have hold₁ : tab.offered.any (fun record => decide (tab.settled record.id ≠ some true))
      = tab.unsaved := congrArg Tab.unsaved h
  have hold₂ : tab.offered.any (fun record => tab.lost record.id) = tab.failed :=
    congrArg Tab.failed h
  have hnew₁ : tab'.offered.any (fun record => decide (tab'.settled record.id ≠ some true))
      = tab'.unsaved := by
    rw [hunsaved, ← hold₁, hoffered]
    cases hrecord : tab.offered with
    | none => rfl
    | some record => simp only [Option.any_some, hsettled record hrecord]
  have hnew₂ : tab'.offered.any (fun record => tab'.lost record.id) = tab'.failed := by
    rw [hfailed, ← hold₂, hoffered]
    cases hrecord : tab.offered with
    | none => rfl
    | some record => simp only [Option.any_some, hlost record hrecord]
  rw [Shown, Tab.showUnsaved, hnew₁, hnew₂]

/-- The drain's loop shows what is unsaved. -/
theorem Shown.loop {tab : Tab ι} {entries : List (Entry ι)} (h : Shown tab) :
    Shown (tab.loop entries).1 := by
  induction entries generalizing tab with
  | nil => exact h.of_same rfl rfl rfl (fun _ _ => rfl) fun _ _ => rfl
  | cons entry rest ih =>
    rw [Tab.loop]
    cases entry.clears with
    | pending => exact h.of_same rfl rfl rfl (fun _ _ => rfl) fun _ _ => rfl
    | refused message => exact ih rfl
    | unknown =>
      dsimp only
      split
      next => exact ih rfl
      next => exact h.of_same rfl rfl rfl (fun _ _ => rfl) fun _ _ => rfl
    | read v =>
      dsimp only
      split
      next => exact h.of_same rfl rfl rfl (fun _ _ => rfl) fun _ _ => rfl
      next => exact ih rfl

/-- Starting to drain leaves a tab queued and awake. -/
theorem Queued.drain {tab : Tab ι} (h : Queued tab) (hawake : tab.phase ≠ .idle → Awake tab) :
    Queued tab.drain.1 ∧ Awake tab.drain.1 := by
  rw [Tab.drain]
  split
  next => exact h.loop rfl
  next hphase => exact ⟨h, hawake hphase⟩

/-- Resuming leaves a tab queued and awake. -/
theorem Queued.resume {tab : Tab ι} (h : Queued tab) (hawake : tab.phase ≠ .awaiting → Awake tab) :
    Queued tab.resume.1 ∧ Awake tab.resume.1 := by
  rw [Tab.resume]
  split
  next => exact h.loop rfl
  next hphase => exact ⟨h, hawake hphase⟩

/-- Starting to drain shows what is unsaved. -/
theorem Shown.drain {tab : Tab ι} (h : Shown tab) : Shown tab.drain.1 := by
  rw [Tab.drain]
  split
  · exact h.loop
  · exact h

/-- Resuming shows what is unsaved. -/
theorem Shown.resume {tab : Tab ι} (h : Shown tab) : Shown tab.resume.1 := by
  rw [Tab.resume]
  split
  · exact h.loop
  · exact h

/-! ## Acts -/

/-- Room is made for one more, and the head stays. -/
theorem Queued.giveUp {tab : Tab ι} (h : Queued tab) :
    Queued tab.giveUp ∧ tab.giveUp.queue.length < MAX_QUEUED ∧
      tab.giveUp.queue.head? = tab.queue.head? ∧ tab.giveUp.queue.Sublist tab.queue ∧
      ∀ id, (∀ entry ∈ tab.queue, entry.record.id ≠ id) →
        tab.giveUp.settled id = tab.settled id ∧ tab.giveUp.lost id = tab.lost id := by
  rw [Tab.giveUp]
  split
  next hlt => exact ⟨h, hlt, rfl, List.Sublist.refl _, fun _ _ => ⟨rfl, rfl⟩⟩
  next hfull =>
    have hbound := h.bound
    split
    next head dropped rest hqueue =>
      have hids := h.ids
      simp only [hqueue, List.map_cons, List.nodup_cons, List.mem_cons, not_or] at hids
      obtain ⟨⟨hhead, hnot⟩, hdropped, hrest⟩ := hids
      have hsub : (head :: rest).Sublist tab.queue :=
        hqueue ▸ (List.sublist_cons_self dropped rest).cons_cons head
      have hne : ∀ entry ∈ head :: rest, entry.record.id ≠ dropped.record.id := by
        intro entry hentry
        rcases List.mem_cons.mp hentry with rfl | hentry
        · exact hhead
        · exact fun heq => hdropped (heq ▸ List.mem_map_of_mem hentry)
      rw [hqueue, List.length_cons, List.length_cons] at hbound
      refine ⟨⟨?_, ?_, ?_, fun entry hentry => ?_, fun entry hentry => ?_⟩, ?_, ?_, hsub,
        fun id hid => ?_⟩
      · show (head :: rest).length ≤ MAX_QUEUED
        rw [List.length_cons]
        omega
      · have hpending := h.pending
        rw [hqueue] at hpending
        exact hpending
      · exact List.nodup_cons.mpr ⟨hnot, hrest⟩
      · show Function.update tab.settled dropped.record.id (some false) entry.record.id = none
        rw [Function.update_of_ne (hne entry hentry)]
        exact h.waiting entry (hsub.subset hentry)
      · exact h.counting entry (hsub.subset hentry)
      · show (head :: rest).length < MAX_QUEUED
        rw [List.length_cons]
        omega
      · rw [hqueue]
        rfl
      · have hne : id ≠ dropped.record.id := fun heq =>
          hid dropped (hqueue ▸ List.mem_cons_of_mem _ List.mem_cons_self) heq.symm
        exact ⟨Function.update_of_ne hne .., Function.update_of_ne hne ..⟩
    next hshort =>
      -- A full queue has a second entry.
      cases hqueue : tab.queue with
      | nil =>
        rw [hqueue] at hfull
        exact absurd (Nat.zero_lt_succ 7) hfull
      | cons head rest =>
        cases rest with
        | nil =>
          rw [hqueue] at hfull
          exact absurd (Nat.succ_lt_succ (Nat.zero_lt_succ 6)) hfull
        | cons dropped rest => exact absurd hqueue (hshort head dropped rest)

/-- The result offered joins the queue, unless it is there or settled. -/
theorem Page.enqueue {tab : Tab ι} {record : Row ι} (h : Queued tab) (hawake : Awake tab) :
    Queued (tab.enqueue record).1 ∧ Awake (tab.enqueue record).1 ∧
      (Shown tab → tab.offered = some record → Shown (tab.enqueue record).1) := by
  rw [Tab.enqueue]
  split
  next => exact ⟨h, hawake, fun hshown _ => hshown⟩
  next hnew =>
    simp only [Bool.or_eq_true, Option.isSome_iff_ne_none, List.any_eq_true, decide_eq_true_eq,
      not_or, ne_eq, not_not, not_exists, not_and] at hnew
    obtain ⟨hsettled, hnot⟩ := hnew
    obtain ⟨hgiven, hroom, hhead, hsub, hsame⟩ := h.giveUp
    obtain ⟨hsettled', hlost'⟩ := hsame record.id hnot
    have hpushed : Queued (tab.giveUp.push record) :=
      { bound := by
          show (tab.giveUp.queue ++ [_]).length ≤ MAX_QUEUED
          rw [List.length_append]
          exact hroom
        pending := by simp [Tab.push]
        ids := by
          show ((tab.giveUp.queue ++ [_]).map _).Nodup
          rw [List.map_append, List.nodup_append]
          refine ⟨hgiven.ids, List.nodup_singleton _, ?_⟩
          intro id hid other hother heq
          obtain ⟨entry, hentry, rfl⟩ := List.mem_map.mp hid
          rw [List.map_singleton, List.mem_singleton] at hother
          exact hnot entry (hsub.subset hentry) (heq.trans hother)
        waiting := fun entry hentry => by
          rcases List.mem_append.mp hentry with hentry | hentry
          · exact hgiven.waiting entry hentry
          · rw [List.mem_singleton.mp hentry]
            exact hsettled'.trans hsettled
        counting := fun entry hentry hpending => by
          rcases List.mem_append.mp hentry with hentry | hentry
          · exact (hgiven.counting entry hentry hpending).imp_left (List.mem_append_left _)
          · rw [List.mem_singleton.mp hentry]
            exact .inl (List.mem_append_right _ List.mem_cons_self) }
    have hrest : tab.giveUp.phase = tab.phase ∧ tab.giveUp.unsaved = tab.unsaved ∧
        tab.giveUp.failed = tab.failed ∧ tab.giveUp.offered = tab.offered := by
      rw [Tab.giveUp]
      split
      · exact ⟨rfl, rfl, rfl, rfl⟩
      · split <;> exact ⟨rfl, rfl, rfl, rfl⟩
    obtain ⟨hphase, hunsaved, hfailed, hoffered⟩ := hrest
    have hbusy : (tab.giveUp.push record).phase ≠ .idle → Awake (tab.giveUp.push record) := by
      intro hidle
      refine ⟨fun h => absurd h hidle, fun hawaiting => ?_⟩
      obtain ⟨entry, rest, hqueue, hpending⟩ := hawake.awaiting (hphase ▸ hawaiting)
      rw [hqueue] at hhead
      obtain ⟨rest', hgiven'⟩ := List.head?_eq_some_iff.mp hhead
      refine ⟨entry, rest' ++ [⟨tab.giveUp.tickets, record, .pending, tab.giveUp.changes⟩], ?_,
        hpending⟩
      rw [Tab.push, hgiven']
      rfl
    obtain ⟨hqueued, hdrained⟩ := hpushed.drain hbusy
    refine ⟨hqueued, hdrained, fun hshown heq => Shown.drain ?_⟩
    refine hshown.of_same hunsaved hfailed hoffered (fun other hother => ?_) fun other hother => ?_
    · rw [heq] at hother
      cases hother
      exact hsettled'
    · rw [heq] at hother
      cases hother
      exact hlost'

/-- An offered record keeps the page. -/
theorem Page.offer {tab : Tab ι} (h : Page tab) (record : Row ι) : Page (tab.offer record).1 := by
  have hremembered : Queued (tab.remember record) :=
    { h.queued with
      waiting := fun entry hentry => by
        have hwaiting := h.queued.waiting entry hentry
        rw [Tab.remember]
        dsimp only
        split
        · exact hwaiting
        · rfl }
  rw [Tab.offer]
  split
  next =>
    obtain ⟨hqueued, hawake, -⟩ := Page.enqueue hremembered ⟨h.awake.idle, h.awake.awaiting⟩
    exact ⟨{ hqueued with }, ⟨hawake.idle, hawake.awaiting⟩, rfl⟩
  next => exact ⟨{ hremembered with }, ⟨h.awake.idle, h.awake.awaiting⟩, rfl⟩

/-- Switching the saving keeps the page. -/
theorem Page.setSaving {tab : Tab ι} (h : Page tab) (saving : Bool) :
    Page (tab.setSaving saving).1 := by
  have hset : Queued { tab with saving } ∧ Awake { tab with saving } ∧ Shown { tab with saving } :=
    ⟨{ h.queued with }, ⟨h.awake.idle, h.awake.awaiting⟩,
      h.shown.of_same rfl rfl rfl (fun _ _ => rfl) fun _ _ => rfl⟩
  rw [Tab.setSaving]
  split
  next record _ hoffered =>
    obtain ⟨hqueued, hawake, hshown⟩ := Page.enqueue hset.1 hset.2.1
    exact ⟨hqueued, hawake, hshown hset.2.2 hoffered⟩
  next => exact ⟨hset.1, hset.2.1, hset.2.2⟩

/-- A retry keeps the page. -/
theorem Page.retry {tab : Tab ι} (h : Page tab) : Page tab.retry.1 := by
  rw [Tab.retry]
  split
  · obtain ⟨hqueued, hawake⟩ := h.queued.drain fun _ => h.awake
    exact ⟨hqueued, hawake, h.shown.drain⟩
  · exact h

/-! ## Answers -/

omit [LinearOrder ι] in
/-- An answer that is no entry's count is taken. -/
theorem Queued.taken {tab : Tab ι} {answer : Answer ι} {answers : List (Answer ι)}
    (h : Queued tab) (hanswered : tab.answered = answer :: answers)
    (hother : ∀ m result, answer ≠ .count m result) : Queued { tab with answered := answers } :=
  { h with
    counting := fun entry hentry hpending => by
      refine (h.counting entry hentry hpending).imp_right fun hresult => ?_
      obtain ⟨result, hmem⟩ := hresult
      rw [hanswered, List.mem_cons] at hmem
      exact ⟨result, hmem.resolve_left fun heq => hother _ _ heq.symm⟩ }

omit [LinearOrder ι] in
/-- An entry's count is taken, and settles its promise. -/
theorem Queued.resolve {tab : Tab ι} {m : ℕ} {result : Except Failure ℕ} {clears : Count}
    {answers : List (Answer ι)} (h : Queued tab)
    (hanswered : tab.answered = .count m result :: answers) (hclears : clears ≠ .pending) :
    Queued (Tab.resolve { tab with answered := answers } m clears) where
  bound := by
    rw [Tab.resolve, List.length_map]
    exact h.bound
  pending := by
    rw [Tab.resolve, List.isEmpty_map]
    exact h.pending
  ids := by
    rw [Tab.resolve, List.map_map]
    convert h.ids using 2
    funext entry
    exact congrArg Row.id (entry.resolve_record m clears)
  waiting := List.forall_mem_map.mpr fun entry hentry => by
    rw [Entry.resolve_record]
    exact h.waiting entry hentry
  counting := List.forall_mem_map.mpr fun entry hentry hpending => by
    rw [Entry.resolve] at hpending ⊢
    split at hpending
    next => exact absurd hpending hclears
    next hne =>
      rw [if_neg hne]
      refine (h.counting entry hentry hpending).imp_right fun hresult => ?_
      obtain ⟨other, hmem⟩ := hresult
      rw [hanswered, List.mem_cons] at hmem
      refine ⟨other, hmem.resolve_left fun heq => hne ?_⟩
      cases heq
      rfl

/-- A count that is known keeps the page. -/
theorem Page.resolve {tab : Tab ι} {m : ℕ} {result : Except Failure ℕ} {clears : Count}
    {answers : List (Answer ι)} (h : Page tab) (hanswered : tab.answered = .count m result :: answers)
    (hclears : clears ≠ .pending) (known : Option ℕ) :
    Page (Tab.resolve { tab with answered := answers, known } m clears).resume.1 := by
  have hqueued : Queued (Tab.resolve { tab with answered := answers, known } m clears) :=
    { h.queued.resolve hanswered hclears with }
  have hawake : tab.phase ≠ .awaiting →
      Awake (Tab.resolve { tab with answered := answers, known } m clears) := by
    intro hphase
    refine ⟨fun hidle => (h.awake.idle hidle).imp_left fun hnil => ?_,
      fun hawaiting => absurd hawaiting hphase⟩
    rw [Tab.resolve, hnil]
    rfl
  have hshown : Shown (Tab.resolve { tab with answered := answers, known } m clears) :=
    h.shown.of_same rfl rfl rfl (fun _ _ => rfl) fun _ _ => rfl
  obtain ⟨hresumed, hdrained⟩ := hqueued.resume hawake
  exact ⟨hresumed, hdrained, hshown.resume⟩

/-- An answered count keeps the page. -/
theorem Page.counted {tab : Tab ι} {m : ℕ} {result : Except Failure ℕ} {answers : List (Answer ι)}
    (h : Page tab) (hanswered : tab.answered = .count m result :: answers) :
    Page (Tab.counted { tab with answered := answers } m result).1 := by
  cases result with
  | ok v => exact h.resolve hanswered (fun heq => by cases heq) (some v)
  | error failure =>
    cases failure with
    | refusal message => exact h.resolve hanswered (fun heq => by cases heq) tab.known
    | other =>
      rw [Tab.counted]
      split
      next v _ => exact h.resolve hanswered (fun heq => by cases heq) tab.known
      next => exact h.resolve hanswered (fun heq => by cases heq) tab.known

/-- A failed save keeps the page. -/
theorem Page.caught {tab : Tab ι} {entry : Entry ι} {rest : List (Entry ι)} (h : Queued tab)
    (hshown : Shown tab) (hqueue : tab.queue = entry :: rest) (failure : Failure) :
    Page (tab.caught entry rest failure).1 := by
  cases failure with
  | refusal message =>
    obtain ⟨hqueued, hawake⟩ := (h.settle hqueue false message).loop rfl
    exact ⟨hqueued, hawake, Shown.loop rfl⟩
  | other =>
    exact ⟨{ h with }, ⟨(fun _ => .inr rfl), fun hphase => by cases hphase⟩,
      hshown.of_same rfl rfl rfl (fun _ _ => rfl) fun _ _ => rfl⟩

/-- A count after a failure keeps the page. -/
theorem Page.recounted {tab : Tab ι} (h : Queued tab) (hawake : Awake tab) (hshown : Shown tab)
    (result : Except Failure ℕ) : Page (tab.recounted result).1 := by
  rw [Tab.recounted]
  split
  next => exact ⟨h, hawake, hshown⟩
  next entry rest hqueue =>
    cases result with
    | ok v =>
      have hknown : Queued { tab with known := some v } := { h with }
      dsimp only
      split
      next =>
        exact ⟨hknown.ask [.put entry.ticket entry.record v] .putting tab.tickets,
          Awake.busy (fun hphase => by cases hphase) (fun hphase => by cases hphase),
          hshown.of_same rfl rfl rfl (fun _ _ => rfl) fun _ _ => rfl⟩
      next =>
        obtain ⟨hqueued, hdrained⟩ := (hknown.settle hqueue false UNSAVABLE).loop rfl
        exact ⟨hqueued, hdrained, Shown.loop rfl⟩
    | error failure => exact Page.caught h hshown hqueue failure

/-- Of a record no longer in History only what is written is forgotten, so nothing that waits. -/
theorem Queued.removed {tab : Tab ι} (h : Queued tab) (id : ι) : Queued (tab.removed id) := by
  rw [Tab.removed]
  split
  next hwritten =>
    refine { h with waiting := fun entry hentry => ?_ }
    have hwaiting := h.waiting entry hentry
    have hne : entry.record.id ≠ id := fun heq => by
      rw [heq, hwritten] at hwaiting
      cases hwaiting
    exact (Function.update_of_ne hne ..).trans hwaiting
  next => exact h

/-- Rows that are gone leave the queue. -/
theorem Tab.removed_queue (tab : Tab ι) (ids : List ι) :
    (ids.foldl Tab.removed tab).queue = tab.queue :=
  congrArg Core.queue (tab.foldl_removed_core ids)

/-- Rows that are gone leave a tab queued. -/
theorem Queued.foldl_removed {tab : Tab ι} (h : Queued tab) (ids : List ι) :
    Queued (ids.foldl Tab.removed tab) := by
  induction ids generalizing tab with
  | nil => exact h
  | cons id ids ih => exact ih (h.removed id)

/-- A row that is gone keeps the page. -/
theorem Page.removed {tab : Tab ι} (h : Page tab) (id : ι) : Page (tab.removed id) := by
  refine ⟨h.queued.removed id, ?_, ?_⟩
  · rw [Tab.removed]
    split
    · exact ⟨h.awake.idle, h.awake.awaiting⟩
    · exact h.awake
  · rw [Tab.removed]
    split
    · rfl
    · exact h.shown

/-- An answered save keeps the page. -/
theorem Page.saved {tab : Tab ι} (h : Queued tab) (hawake : Awake tab) (hshown : Shown tab)
    (record : Row ι) (outcome : Except Failure (Bool × List ι)) :
    Page (tab.saved record outcome).1 := by
  rw [Tab.saved]
  split
  next => exact ⟨h, hawake, hshown⟩
  next entry rest hqueue =>
    cases outcome with
    | ok result =>
      have hremoved := h.foldl_removed (result.2.filter fun id => decide (id ≠ record.id))
      have hsame := (tab.removed_queue (result.2.filter fun id => decide (id ≠ record.id))).trans hqueue
      dsimp only
      split
      · obtain ⟨hqueued, hdrained⟩ := (hremoved.settle hsame false OLDER).loop rfl
        exact ⟨hqueued, hdrained, Shown.loop rfl⟩
      · obtain ⟨hqueued, hdrained⟩ := (hremoved.settle hsame result.1 "").loop rfl
        exact ⟨hqueued, hdrained, Shown.loop rfl⟩
    | error failure => exact Page.caught h hshown hqueue failure

omit [LinearOrder ι] in
/-- An answer other than a count may be set aside. -/
theorem Page.taken {tab : Tab ι} {answer : Answer ι} {answers : List (Answer ι)} (h : Page tab)
    (hanswered : tab.answered = answer :: answers) (hother : ∀ m result, answer ≠ .count m result) :
    Page { tab with answered := answers } :=
  ⟨h.queued.taken hanswered hother, ⟨h.awake.idle, h.awake.awaiting⟩,
    h.shown.of_same rfl rfl rfl (fun _ _ => rfl) fun _ _ => rfl⟩

/-- **Any answer** keeps the page. -/
theorem Page.take {tab : Tab ι} {answer : Answer ι} {answers : List (Answer ι)} (h : Page tab)
    (hanswered : tab.answered = answer :: answers) :
    Page (Tab.take { tab with answered := answers } answer).1 := by
  cases answer with
  | count m result => exact h.counted hanswered
  | recount m result =>
    have htaken := h.taken hanswered fun k other heq => by cases heq
    exact Page.recounted htaken.queued htaken.awake htaken.shown result
  | put n record outcome =>
    have htaken := h.taken hanswered fun k other heq => by cases heq
    exact Page.saved htaken.queued htaken.awake htaken.shown record outcome
  | inspect id ready =>
    have htaken := h.taken hanswered fun k other heq => by cases heq
    rcases ready with failure | (_ | _)
    · exact htaken
    · exact htaken.removed id
    · exact htaken
  | clear outcome =>
    have htaken := h.taken hanswered fun k other heq => by cases heq
    cases outcome with
    | error => exact htaken
    | ok =>
      refine ⟨{ htaken.queued with waiting := fun entry hentry => ?_ },
        ⟨htaken.awake.idle, htaken.awake.awaiting⟩, rfl⟩
      show (tab.settled entry.record.id).map _ = none
      rw [h.queued.waiting entry hentry]
      rfl
  | delete id outcome =>
    have htaken := h.taken hanswered fun k other heq => by cases heq
    cases outcome with
    | error => exact htaken
    | ok => exact htaken.removed id
  | removeMalformed removed => exact h.taken hanswered fun k other heq => by cases heq

omit [LinearOrder ι] in
/-- More asked is nothing to the page. -/
theorem Page.ask {tab : Tab ι} (h : Page tab) (requests : List (Request ι)) (tickets : ℕ) :
    Page { tab with asked := tab.asked ++ requests, tickets } :=
  ⟨h.queued.ask requests tab.phase tickets, ⟨h.awake.idle, h.awake.awaiting⟩,
    h.shown.of_same rfl rfl rfl (fun _ _ => rfl) fun _ _ => rfl⟩

/-- Whatever the tab does. -/
theorem Page.act {tab : Tab ι} {a : Act ι} {result : Tab ι × List (Event ι)} (h : Page tab)
    (hact : tab.act a = some result) : Page result.1 := by
  cases a with
  | offer record =>
    cases hact
    exact h.offer record
  | withdraw =>
    cases hact
    exact ⟨{ h.queued with }, ⟨h.awake.idle, h.awake.awaiting⟩, rfl⟩
  | setSaving saving =>
    cases hact
    exact h.setSaving saving
  | retry =>
    cases hact
    exact h.retry
  | clear =>
    cases hact
    exact h.ask [.clear tab.tickets] (tab.tickets + 1)
  | delete id =>
    cases hact
    exact h.ask [.delete id] tab.tickets
  | removeMalformed =>
    cases hact
    exact h.ask [.removeMalformed] tab.tickets
  | hear =>
    rw [Tab.act] at hact
    split at hact
    · cases hact
      exact ⟨{ h.queued.ask tab.rechecks tab.phase tab.tickets with },
        ⟨h.awake.idle, h.awake.awaiting⟩,
        h.shown.of_same rfl rfl rfl (fun _ _ => rfl) fun _ _ => rfl⟩
    · cases hact
  | take =>
    rw [Tab.act] at hact
    split at hact
    next => cases hact
    next answer answers hanswered =>
      cases hact
      exact h.take hanswered

end Page

/-! ## Runs -/

section Run

variable {τ ι : Type*} [DecidableEq τ] [LinearOrder ι]

omit [DecidableEq τ] in
/-- A request carried out is answered: an entry's count is under way still. -/
theorem Page.served {tab : Tab ι} {request : Request ι} {asked : List (Request ι)}
    (h : Page tab) (hasked : tab.asked = request :: asked) (db : Database ι)
    (failure : Option Failure) :
    Page { tab with asked, answered := tab.answered ++ [(db.serve request failure).2.1] } := by
  refine ⟨{ h.queued with counting := fun entry hentry hpending => ?_ },
    ⟨h.awake.idle, h.awake.awaiting⟩, h.shown.of_same rfl rfl rfl (fun _ _ => rfl) fun _ _ => rfl⟩
  rcases h.queued.counting entry hentry hpending with hmem | ⟨result, hmem⟩
  · rw [hasked, List.mem_cons] at hmem
    rcases hmem with rfl | hmem
    · refine .inr ⟨((db.serve (.count entry.ticket) failure).2.1.read?.map Prod.snd).getD (.ok 0), ?_⟩
      apply List.mem_append_right
      cases failure <;> exact List.mem_singleton.mpr rfl
    · exact .inl hmem
  · exact .inr ⟨result, List.mem_append_left _ hmem⟩

/-- **One step** keeps every tab's page. -/
theorem page_step {w w' : World τ ι} {a : Action τ ι} {events : Log τ ι}
    (h : ∀ t, Page (w.tabs t)) (hstep : w.step a = some (w', events)) (u : τ) :
    Page (w'.tabs u) := by
  cases a with
  | act t a =>
    obtain ⟨result, hact, -, -, hself, hothers⟩ := World.step_act hstep
    by_cases hu : u = t
    · subst hu
      rw [hself]
      exact (h u).act hact
    · rcases hothers u hu with heq | heq
      · rw [heq]
        exact h u
      · rw [heq]
        exact ⟨{ (h u).queued with }, ⟨(h u).awake.idle, (h u).awake.awaiting⟩,
          (h u).shown.of_same rfl rfl rfl (fun _ _ => rfl) fun _ _ => rfl⟩
  | serve t failure =>
    obtain ⟨request, asked, hasked, -, -, hself, hothers⟩ := World.step_serve hstep
    by_cases hu : u = t
    · subst hu
      rw [hself]
      exact (h u).served hasked w.db failure
    · rw [hothers u hu]
      exact h u

omit [DecidableEq τ] [LinearOrder ι] in
/-- Every tab starts with its page. -/
theorem page_start (db : Database ι) (saving : τ → Bool) (t : τ) :
    Page ((World.start db saving).tabs t) :=
  ⟨⟨Nat.zero_le _, rfl, List.nodup_nil, (fun entry hentry => by cases hentry),
    fun entry hentry => by cases hentry⟩, ⟨fun _ => .inl rfl, fun hphase => by cases hphase⟩, rfl⟩

/-- Every run keeps every tab's page. -/
theorem page_run {db : Database ι} {saving : τ → Bool} {actions : List (Action τ ι)}
    {w : World τ ι} {log : Log τ ι}
    (hrun : Machine.run World.step (World.start db saving) actions = some (w, log)) (t : τ) :
    Page (w.tabs t) :=
  Machine.run_keeps (fun w => ∀ t, Page (w.tabs t)) (fun _ _ _ _ h hstep => page_step h hstep)
    (page_start db saving) hrun t

end Run

end GraphiteMeter.Browser.History
