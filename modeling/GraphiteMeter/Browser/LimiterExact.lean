import GraphiteMeter.Browser.LimiterBounds

/-!
# Runs of the connection limiter

Reference: `client/src/engine/net/limiter.ts`.

Beside the invariant, what is settled of an acquire stays settled (`Evolves`): a started one stays
started, a rejected one rejected, a released one released. `limiter_exact` puts both together for every
order of calls.
-/

namespace GraphiteMeter.Browser.Limiter

variable {Origin Signal : Type}

/-! ## What every call leaves -/

/-- The release of this acquire has been called. -/
def IsReleased (l : Limiter Origin Signal) (id : ℕ) : Prop :=
  ∃ slot ∈ l.slots, slot.id = id ∧ slot.released = true

/-- What was started stays started, and what was released or rejected too. -/
structure Keeps (l l' : Limiter Origin Signal) : Prop where
  started : l.slots.map Slot.id <+: l'.slots.map Slot.id
  released : ∀ id, l.IsReleased id → l'.IsReleased id
  rejected : l.rejected <+: l'.rejected

/-- What every call but an acquire does: only an abort listener rejects. -/
structure Evolves (l l' : Limiter Origin Signal) : Prop extends Keeps l l' where
  acquired : l'.acquired = l.acquired
  queue : ∀ w ∈ l'.queue, w ∈ l.queue
  rejects : ∀ r ∈ l'.rejected, r ∈ l.rejected ∨ r.swap ∈ l.listeners
  listeners : ∀ p ∈ l'.listeners, p ∈ l.listeners

namespace Keeps

variable {l l' l'' : Limiter Origin Signal}

/-- A limiter keeps what it has. -/
theorem refl (l : Limiter Origin Signal) : Keeps l l :=
  ⟨List.prefix_rfl, fun _ h => h, List.prefix_rfl⟩

/-- What is kept in turn is kept. -/
theorem trans (h : Keeps l l') (h' : Keeps l' l'') : Keeps l l'' where
  started := h.started.trans h'.started
  released id hid := h'.released id (h.released id hid)
  rejected := h.rejected.trans h'.rejected

end Keeps

namespace Evolves

variable {l l' l'' : Limiter Origin Signal}

/-- A limiter evolves to itself. -/
theorem refl (l : Limiter Origin Signal) : Evolves l l :=
  ⟨.refl l, rfl, fun _ h => h, fun _ h => .inl h, fun _ h => h⟩

/-- Evolutions compose. -/
theorem trans (h : Evolves l l') (h' : Evolves l' l'') : Evolves l l'' where
  toKeeps := h.toKeeps.trans h'.toKeeps
  acquired := h'.acquired.trans h.acquired
  queue w hw := h.queue w (h'.queue w hw)
  rejects r hr := (h'.rejects r hr).elim (h.rejects r) fun hr => .inr (h.listeners _ hr)
  listeners p hp := h.listeners p (h'.listeners p hp)

end Evolves

/-- The signals that the acquires bring, by their number. -/
def signals (calls : List (Call Origin Signal × Priorities)) : List Signal :=
  calls.filterMap fun call =>
    match call.1 with
    | .acquire _ signal => some signal
    | _ => none

/-- A waiter and a rejected acquire have the signal they came with. -/
structure Named (signals : List Signal) (l : Limiter Origin Signal) : Prop where
  acquired : l.acquired = signals.length
  waiting : ∀ w ∈ l.queue, signals[w.id]? = some w.signal
  rejected : ∀ r ∈ l.rejected, signals[r.1]? = some r.2

/-- The signals stay named while a limiter evolves. -/
theorem Named.evolves {signals : List Signal} {l l' : Limiter Origin Signal} (h : Named signals l)
    (hlisteners : l.listeners.Perm (l.queue.map fun w => (w.signal, w.id))) (hevolves : Evolves l l') :
    Named signals l' where
  acquired := hevolves.acquired.trans h.acquired
  waiting w hw := h.waiting w (hevolves.queue w hw)
  rejected r hr := by
    rcases hevolves.rejects r hr with hr | hr
    · exact h.rejected r hr
    · obtain ⟨w, hw, heq⟩ := List.mem_map.mp (hlisteners.mem_iff.mp hr)
      have hwaiting := h.waiting w hw
      obtain ⟨hsignal, hid⟩ := Prod.mk.inj heq
      rwa [hsignal, hid] at hwaiting

/-- Firing the listeners rejects what waits for them, in order. -/
theorem foldl_fire (pending : List (Signal × ℕ)) (l : Limiter Origin Signal) :
    ∃ queue, pending.foldl fire l = { l with queue, rejected := l.rejected ++ pending.map Prod.swap } ∧
      ∀ w ∈ queue, w ∈ l.queue := by
  induction pending generalizing l with
  | nil => exact ⟨l.queue, by rw [List.map_nil, List.append_nil]; rfl, fun _ h => h⟩
  | cons listener pending ih =>
    obtain ⟨queue, heq, hqueue⟩ := ih (l.fire listener)
    refine ⟨queue, ?_, fun w hw => List.mem_of_mem_filter (hqueue w hw)⟩
    rw [List.foldl_cons, heq, List.map_cons, List.append_cons]
    rfl

section

variable [DecidableEq Signal]

/-- An abort evolves a limiter. -/
theorem evolves_abort (l : Limiter Origin Signal) (signal : Signal) : Evolves l (l.abort signal) := by
  rw [Limiter.abort]
  split_ifs with haborted
  · exact .refl l
  · obtain ⟨queue, heq, hqueue⟩ := foldl_fire (l.listeners.filter (·.1 = signal))
      { l with aborted := signal :: l.aborted, listeners := l.listeners.filter (·.1 ≠ signal) }
    rw [heq]
    refine ⟨⟨List.prefix_rfl, fun _ h => h, List.prefix_append _ _⟩, rfl, hqueue, fun r hr => ?_,
      fun p hp => List.mem_of_mem_filter hp⟩
    refine (List.mem_append.mp hr).imp_right fun hr => ?_
    obtain ⟨p, hp, rfl⟩ := List.mem_map.mp hr
    rw [Prod.swap_swap]
    exact List.mem_of_mem_filter hp

end

variable [DecidableEq Origin]

/-- Freeing a slot evolves a limiter. -/
theorem evolves_freed (l : Limiter Origin Signal) (slot : Slot Origin) : Evolves l (l.freed slot) := by
  refine ⟨⟨?_, fun id hid => ?_, List.prefix_rfl⟩, rfl, fun _ h => h, fun _ h => .inl h, fun _ h => h⟩
  · exact (ids_freed l slot).symm ▸ List.prefix_rfl
  · obtain ⟨s, hs, hid, hreleased⟩ := hid
    refine ⟨_, List.mem_map_of_mem hs, ?_⟩
    split_ifs
    · exact ⟨hid, rfl⟩
    · exact ⟨hid, hreleased⟩

variable [DecidableEq Signal]

/-- Starting what fits evolves a limiter. -/
theorem evolves_startFitting (priority : Priorities) (l : Limiter Origin Signal) :
    Evolves l (startFitting priority l) := by
  induction l using @Limiter.startFitting.induct Origin Signal _ _ priority with
  | case1 l htotal hnone =>
    rw [startFitting_of_none hnone]
    exact .refl l
  | case2 l htotal w hfind ih =>
    rw [startFitting_of_some htotal hfind]
    refine .trans ?_ ih
    refine ⟨⟨?_, fun id => Exists.imp fun _ => And.imp_left (List.mem_append_left _),
      List.prefix_rfl⟩, rfl, fun w' hw' => List.mem_of_mem_eraseP hw', fun r hr => .inl hr,
      fun p hp => List.mem_of_mem_filter hp⟩
    show _ <+: (l.slots ++ [_]).map Slot.id
    rw [List.map_append]
    exact List.prefix_append _ _
  | case3 l hfull =>
    rw [startFitting, if_neg hfull]
    exact .refl l

/-- Draining evolves a limiter. -/
theorem evolves_drain (priority : Priorities) (l : Limiter Origin Signal) :
    Evolves l (drain priority l) := by
  refine .trans ?_ (evolves_startFitting priority _)
  refine ⟨⟨List.prefix_rfl, fun _ h => h, List.prefix_rfl⟩, rfl, fun w hw => ?_, fun _ h => .inl h,
    fun _ h => h⟩
  exact (List.perm_insertionSort _ l.queue).mem_iff.mp hw

/-- A release evolves a limiter. -/
theorem evolves_release (priority : Priorities) (l : Limiter Origin Signal) (id : ℕ) :
    Evolves l (release priority l id) := by
  rw [Limiter.release]
  split
  · exact .refl l
  rename_i slot hfind
  have hid : slot.id = id := by simpa using List.find?_some hfind
  subst hid
  by_cases hreleased : slot.released = true
  · rw [if_pos hreleased]
    exact .refl l
  · rw [if_neg hreleased]
    exact (evolves_freed l slot).trans (evolves_drain priority _)

/-- Releasing a started check leaves it released. -/
theorem isReleased_release (priority : Priorities) {l : Limiter Origin Signal} {id : ℕ}
    (h : id ∈ l.slots.map Slot.id) : (release priority l id).IsReleased id := by
  rw [Limiter.release]
  split
  · rename_i hnone
    obtain ⟨slot, hslot, hid⟩ := List.mem_map.mp h
    exact absurd hid (by simpa using List.find?_eq_none.mp hnone slot hslot)
  rename_i slot hfind
  have hmem := List.mem_of_find?_eq_some hfind
  have hid : slot.id = id := by simpa using List.find?_some hfind
  subst hid
  by_cases hreleased : slot.released = true
  · rw [if_pos hreleased]
    exact ⟨slot, hmem, rfl, hreleased⟩
  · rw [if_neg hreleased]
    have hfreed : (l.freed slot).IsReleased slot.id := by
      refine ⟨_, List.mem_map_of_mem hmem, ?_⟩
      rw [if_pos rfl]
      exact ⟨rfl, rfl⟩
    exact (evolves_drain priority (l.freed slot)).released _ hfreed

/-- **A second release does nothing.** -/
theorem release_of_isReleased (priority : Priorities) {l : Limiter Origin Signal} (h : l.Inv) {id : ℕ}
    (hreleased : l.IsReleased id) : release priority l id = l := by
  obtain ⟨slot, hslot, rfl, hreleased⟩ := hreleased
  rw [Limiter.release]
  split
  · rfl
  rename_i slot' hfind
  have hid : slot'.id = slot.id := by simpa using List.find?_some hfind
  have heq : slot' = slot :=
    List.inj_on_of_nodup_map h.places.nodup_slots (List.mem_of_find?_eq_some hfind) hslot hid
  rw [heq, if_pos hreleased]

/-! ## Runs -/

/-- What a step makes of the invariant, the names, and what is settled. -/
theorem inv_step {l : Limiter Origin Signal} {known : List Signal} (h : l.Inv) (hnamed : Named known l)
    (call : Call Origin Signal × Priorities) :
    (l.step call).Inv ∧ Named (known ++ signals [call]) (l.step call) ∧ Keeps l (l.step call) := by
  obtain ⟨call, priority⟩ := call
  cases call with
  | abort signal =>
    refine ⟨h.abort signal, ?_, (evolves_abort l signal).toKeeps⟩
    rw [show signals [(Call.abort signal, priority)] = [] from rfl, List.append_nil]
    exact hnamed.evolves h.places.listeners (evolves_abort l signal)
  | release id =>
    refine ⟨(h.release priority id).1, ?_, (evolves_release priority l id).toKeeps⟩
    rw [show signals [(Call.release id, priority)] = [] from rfl, List.append_nil]
    exact hnamed.evolves h.places.listeners (evolves_release priority l id)
  | drain =>
    refine ⟨(h.drain priority).1, ?_, (evolves_drain priority l).toKeeps⟩
    rw [show signals [(Call.drain, priority)] = [] from rfl, List.append_nil]
    exact hnamed.evolves h.places.listeners (evolves_drain priority l)
  | acquire origin signal =>
    refine ⟨(h.acquire priority origin signal).1, ?_⟩
    show Named (known ++ [signal]) (acquire priority l origin signal) ∧
      Keeps l (acquire priority l origin signal)
    have hold : ∀ {id : ℕ} {s : Signal}, known[id]? = some s → (known ++ [signal])[id]? = some s :=
      fun hid => by rw [List.getElem?_append_left (List.getElem?_eq_some_iff.mp hid).1, hid]
    have hnew : (known ++ [signal])[l.acquired]? = some signal := by
      rw [hnamed.acquired, List.getElem?_concat_length]
    have hacquired : l.acquired + 1 = (known ++ [signal]).length := by
      rw [List.length_append, hnamed.acquired, List.length_singleton]
    by_cases haborted : signal ∈ l.aborted
    · have hacquire : acquire priority l origin signal = { l with
          acquired := l.acquired + 1
          rejected := l.rejected ++ [(l.acquired, signal)] } := if_pos haborted
      rw [hacquire]
      refine ⟨⟨hacquired, fun w hw => hold (hnamed.waiting w hw), fun r hr => ?_⟩,
        ⟨List.prefix_rfl, fun _ h => h, List.prefix_append _ _⟩⟩
      rcases List.mem_append.mp hr with hr | hr
      · exact hold (hnamed.rejected r hr)
      · rw [List.mem_singleton.mp hr]
        exact hnew
    · have hacquire : acquire priority l origin signal = drain priority (l.enqueued origin signal) :=
        if_neg haborted
      rw [hacquire]
      have hdrain := evolves_drain priority (l.enqueued origin signal)
      have hkeeps : Keeps l (l.enqueued origin signal) :=
        ⟨List.prefix_rfl, fun _ h => h, List.prefix_rfl⟩
      refine ⟨?_, hkeeps.trans hdrain.toKeeps⟩
      have hwaiting : Named (known ++ [signal]) (l.enqueued origin signal) := by
        refine ⟨hacquired, fun w hw => ?_, fun r hr => hold (hnamed.rejected r hr)⟩
        rcases List.mem_append.mp hw with hw | hw
        · exact hold (hnamed.waiting w hw)
        · rw [List.mem_singleton.mp hw]
          exact hnew
      exact hwaiting.evolves (h.enqueued origin haborted).places.listeners hdrain

/-- **Every order of calls** keeps the invariant. -/
theorem inv_run {l : Limiter Origin Signal} {known : List Signal} (h : l.Inv) (hnamed : Named known l)
    (calls : List (Call Origin Signal × Priorities)) :
    (l.run calls).Inv ∧ Named (known ++ signals calls) (l.run calls) ∧ Keeps l (l.run calls) := by
  induction calls generalizing l known with
  | nil =>
    rw [show signals ([] : List (Call Origin Signal × Priorities)) = [] from rfl, List.append_nil]
    exact ⟨h, hnamed, .refl l⟩
  | cons call calls ih =>
    obtain ⟨hinv, hstep, hkeeps⟩ := inv_step h hnamed call
    obtain ⟨hinv', hrun, hkeeps'⟩ := ih hinv hstep
    refine ⟨hinv', ?_, hkeeps.trans hkeeps'⟩
    have hsignals : signals (call :: calls) = signals [call] ++ signals calls := by
      rw [signals, signals, signals, ← List.filterMap_append, List.singleton_append]
    rwa [hsignals, ← List.append_assoc]

/-- **The connection limiter**, over every order of calls and whatever the priorities are in each. What
runs is what was started and not released, at most eight, two of an origin and four in the
background. An acquire waits, was started or was rejected, one of the three and once; it is rejected
by its own signal, and waits no longer than that aborts; started or rejected it stays so. A release
counts once. After each drain no waiter that fits is left while fewer than eight run. -/
theorem limiter_exact (calls : List (Call Origin Signal × Priorities)) :
    let l := (createLimiter : Limiter Origin Signal).run calls
    (HashMap.total l.running = l.total ∧ l.total = (active l.slots).length ∧
      (∀ origin, l.busy origin = (active l.slots).countP (·.origin = origin)) ∧
      l.background = (active l.slots).countP (·.isBackground) ∧
      l.total ≤ totalMax ∧ (∀ origin, l.busy origin ≤ perOrigin) ∧ l.background ≤ backgroundMax) ∧
    ((l.queue.map Waiting.id ++ (l.slots.map Slot.id ++ l.rejected.map Prod.fst)).Perm
        (List.range (signals calls).length) ∧
      (∀ w ∈ l.queue, (signals calls)[w.id]? = some w.signal ∧ w.signal ∉ l.aborted) ∧
      ∀ r ∈ l.rejected, (signals calls)[r.1]? = some r.2 ∧ r.2 ∈ l.aborted) ∧
    (∀ later, l.slots.map Slot.id <+: (l.run later).slots.map Slot.id ∧
      l.rejected <+: (l.run later).rejected) ∧
    (∀ id ∈ l.slots.map Slot.id, ∀ priority later priority',
      release priority' ((release priority l id).run later) id =
        (release priority l id).run later) ∧
    ∀ priority, Settled priority (drain priority l) ∧
      (∀ origin signal, signal ∉ l.aborted → Settled priority (acquire priority l origin signal)) ∧
      ∀ slot ∈ l.slots, slot.released = false → Settled priority (release priority l slot.id) := by
  intro l
  have hstart : Named [] (createLimiter : Limiter Origin Signal) :=
    ⟨rfl, fun _ h => absurd h List.not_mem_nil, fun _ h => absurd h List.not_mem_nil⟩
  obtain ⟨hinv, hnamed, -⟩ := inv_run inv_createLimiter hstart calls
  rw [List.nil_append] at hnamed
  refine ⟨⟨hinv.counts.sum, hinv.counts.total, hinv.counts.busy_eq, hinv.counts.background,
    hinv.bounds.total_le, hinv.bounds.busy_le, hinv.bounds.background_le⟩, ⟨?_, ?_, ?_⟩, ?_, ?_, ?_⟩
  · exact hnamed.acquired ▸ hinv.places.ids
  · exact fun w hw => ⟨hnamed.waiting w hw, hinv.places.waiting w hw⟩
  · exact fun r hr => ⟨hnamed.rejected r hr, hinv.places.rejected r hr⟩
  · intro later
    obtain ⟨-, -, hkeeps⟩ := inv_run hinv hnamed later
    exact ⟨hkeeps.started, hkeeps.rejected⟩
  · intro id hid priority later priority'
    have hnamed' := hnamed.evolves hinv.places.listeners (evolves_release priority l id)
    obtain ⟨hinv', -, hkeeps⟩ := inv_run (hinv.release priority id).1 hnamed' later
    exact release_of_isReleased priority' hinv' (hkeeps.released id (isReleased_release priority hid))
  · intro priority
    refine ⟨(hinv.drain priority).2, fun origin signal => (hinv.acquire priority origin signal).2, ?_⟩
    exact fun slot hslot hactive => (hinv.release priority slot.id).2 ⟨slot, hslot, rfl, hactive⟩

end GraphiteMeter.Browser.Limiter
