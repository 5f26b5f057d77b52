import GraphiteMeter.Browser.Limiter

/-!
# What the connection limiter keeps to

Reference: `client/src/engine/net/limiter.ts`.

The counters are those of the slots not released (`Counts`), a start needs what `fits` reads of them
(`Bounds`), and every acquire is in one place (`Places`): it waits, was started, or was rejected. Each
call keeps all three, and a drain leaves the queue `Settled`.
-/

namespace GraphiteMeter.Browser.Limiter

variable {Origin Signal : Type}

/-- The slots not released. -/
def active (slots : List (Slot Origin)) : List (Slot Origin) := slots.filter (!·.released)

/-- A new slot is active. -/
theorem active_snoc (slots : List (Slot Origin)) (slot : Slot Origin) (h : slot.released = false) :
    active (slots ++ [slot]) = active slots ++ [slot] := by
  rw [active, List.filter_append, List.filter_singleton, h]
  rfl

/-- The first that passes, and the others. -/
theorem perm_of_find {queue : List (Waiting Origin Signal)} {p : Waiting Origin Signal → Bool}
    {w : Waiting Origin Signal} (h : queue.find? p = some w) : queue.Perm (w :: queue.eraseP p) := by
  obtain ⟨hp, before, after, hqueue, hbefore⟩ := List.find?_eq_some_iff_append.mp h
  rw [hqueue, List.eraseP_append_right (w :: after) (fun a ha => by simpa using hbefore a ha),
    List.eraseP_cons_of_pos hp]
  exact List.perm_middle

/-- Releasing takes one slot out of the active ones. -/
theorem active_release {slots : List (Slot Origin)} (hnodup : (slots.map Slot.id).Nodup)
    {slot : Slot Origin} (hmem : slot ∈ slots) (hactive : slot.released = false) :
    (active slots).Perm (slot :: active
      (slots.map fun s => if s.id = slot.id then { s with released := true } else s)) := by
  obtain ⟨before, after, rfl⟩ := List.append_of_mem hmem
  rw [List.map_append, List.map_cons] at hnodup
  obtain ⟨-, hcons, hdisjoint⟩ := List.nodup_append.mp hnodup
  have hbefore : (before.map fun s => if s.id = slot.id then { s with released := true } else s) =
      before := by
    refine (List.map_congr_left fun s hs => if_neg fun heq => ?_).trans (List.map_id _)
    exact hdisjoint s.id (List.mem_map_of_mem hs) slot.id List.mem_cons_self heq
  have hafter : (after.map fun s => if s.id = slot.id then { s with released := true } else s) =
      after := by
    refine (List.map_congr_left fun s hs => if_neg fun heq => ?_).trans (List.map_id _)
    exact (List.nodup_cons.mp hcons).1 (heq ▸ List.mem_map_of_mem hs)
  rw [List.map_append, List.map_cons, hbefore, hafter, if_pos rfl, active, active, List.filter_append,
    List.filter_append, List.filter_cons_of_pos (by rw [hactive]; rfl),
    List.filter_cons_of_neg (by simp)]
  exact List.perm_middle

/-- A name moves to the end of the three places. -/
theorem perm_move (waiting started rejected : List ℕ) (id : ℕ) :
    (waiting ++ (started ++ (rejected ++ [id]))).Perm (id :: (waiting ++ (started ++ rejected))) := by
  rw [← List.append_assoc started, ← List.append_assoc waiting]
  exact List.perm_append_singleton _ _

variable [DecidableEq Origin]

/-- The counters are those of the active slots. -/
structure Counts (l : Limiter Origin Signal) : Prop where
  total : l.total = (active l.slots).length
  background : l.background = (active l.slots).countP (·.isBackground)
  running : ∀ origin, l.running.lookup origin =
    match (active l.slots).countP (·.origin = origin) with
    | 0 => none
    | n + 1 => some (n + 1)
  sum : HashMap.total l.running = l.total

structure Bounds (l : Limiter Origin Signal) : Prop where
  total_le : l.total ≤ totalMax
  background_le : l.background ≤ backgroundMax
  busy_le : ∀ origin, l.busy origin ≤ perOrigin

/-- Each acquire so far is in one place, and a waiter has its abort listener. -/
structure Places (l : Limiter Origin Signal) : Prop where
  ids : (l.queue.map Waiting.id ++ (l.slots.map Slot.id ++ l.rejected.map Prod.fst)).Perm
    (List.range l.acquired)
  listeners : l.listeners.Perm (l.queue.map fun w => (w.signal, w.id))
  waiting : ∀ w ∈ l.queue, w.signal ∉ l.aborted
  rejected : ∀ r ∈ l.rejected, r.2 ∈ l.aborted

omit [DecidableEq Origin] in
/-- No two slots share an identifier. -/
theorem Places.nodup_slots {l : Limiter Origin Signal} (h : l.Places) :
    (l.slots.map Slot.id).Nodup :=
  (List.nodup_append.mp (List.nodup_append.mp (h.ids.nodup_iff.mpr List.nodup_range)).2.1).1

/-- An origin is as busy as it has active slots. -/
theorem Counts.busy_eq {l : Limiter Origin Signal} (h : l.Counts) (origin : Origin) :
    l.busy origin = (active l.slots).countP (·.origin = origin) := by
  rw [busy, h.running]
  cases (active l.slots).countP (·.origin = origin) <;> rfl

/-- Neither depends on who waits. -/
theorem Counts.frame {l l' : Limiter Origin Signal} (h : l.Counts) (hrunning : l'.running = l.running)
    (htotal : l'.total = l.total) (hbackground : l'.background = l.background)
    (hslots : l'.slots = l.slots) : l'.Counts where
  total := by rw [htotal, hslots, h.total]
  background := by rw [hbackground, hslots, h.background]
  running origin := by rw [hrunning, hslots, h.running]
  sum := by rw [hrunning, htotal, h.sum]

/-- The bounds read the counts alone. -/
theorem Bounds.frame {l l' : Limiter Origin Signal} (h : l.Bounds) (hrunning : l'.running = l.running)
    (htotal : l'.total = l.total) (hbackground : l'.background = l.background) : l'.Bounds where
  total_le := htotal ▸ h.total_le
  background_le := hbackground ▸ h.background_le
  busy_le origin := by
    rw [busy, hrunning]
    exact h.busy_le origin

structure Inv (l : Limiter Origin Signal) : Prop where
  counts : l.Counts
  bounds : l.Bounds
  places : l.Places

/-- The order of the waiters does not matter. -/
theorem Inv.queue_perm {l : Limiter Origin Signal} (h : l.Inv) {queue : List (Waiting Origin Signal)}
    (hperm : l.queue.Perm queue) : { l with queue }.Inv where
  counts := h.counts.frame rfl rfl rfl rfl
  bounds := h.bounds.frame rfl rfl rfl
  places := {
    ids := ((hperm.map Waiting.id).symm.append_right _).trans h.places.ids
    listeners := h.places.listeners.trans (hperm.map _)
    waiting := fun w hw => h.places.waiting w (hperm.mem_iff.mpr hw)
    rejected := h.places.rejected }

/-- While a signal aborts: of the waiters' listeners, those pending are its own. -/
structure Firing (l : Limiter Origin Signal) (pending : List (Signal × ℕ)) : Prop where
  counts : l.Counts
  bounds : l.Bounds
  ids : (l.queue.map Waiting.id ++ (l.slots.map Slot.id ++ l.rejected.map Prod.fst)).Perm
    (List.range l.acquired)
  listeners : (pending ++ l.listeners).Perm (l.queue.map fun w => (w.signal, w.id))
  pending : ∀ p ∈ pending, p.1 ∈ l.aborted
  listening : ∀ p ∈ l.listeners, p.1 ∉ l.aborted
  rejected : ∀ r ∈ l.rejected, r.2 ∈ l.aborted

/-- Firing one listener leaves the others to fire. -/
theorem Firing.fire {l : Limiter Origin Signal} {listener : Signal × ℕ}
    {pending : List (Signal × ℕ)} (h : l.Firing (listener :: pending)) :
    (l.fire listener).Firing pending := by
  have hnodup : (l.queue.map Waiting.id).Nodup :=
    (List.nodup_append.mp (h.ids.nodup_iff.mpr List.nodup_range)).1
  -- the listener is one waiter's, and no other has its name
  obtain ⟨w, hw, hlistener⟩ : ∃ w ∈ l.queue, (w.signal, w.id) = listener :=
    List.mem_map.mp (h.listeners.mem_iff.mp (List.mem_append_left _ List.mem_cons_self))
  subst hlistener
  obtain ⟨before, after, hqueue⟩ := List.append_of_mem hw
  have hperm : l.queue.Perm (w :: (before ++ after)) := hqueue ▸ List.perm_middle
  have hne : ∀ w' ∈ before ++ after, w'.id ≠ w.id := by
    intro w' hw' heq
    have := (List.nodup_cons.mp ((hperm.map Waiting.id).nodup_iff.mp hnodup)).1
    exact this (List.mem_map.mpr ⟨w', hw', heq⟩)
  have hleft : (l.fire (w.signal, w.id)).queue = before ++ after := by
    show l.queue.filter (fun w' => decide (w'.id ≠ w.id)) = _
    rw [hqueue, List.filter_append, List.filter_cons_of_neg (by simp), ← List.filter_append,
      List.filter_eq_self]
    exact fun w' hw' => decide_eq_true (hne w' hw')
  constructor
  case counts => exact h.counts.frame rfl rfl rfl rfl
  case bounds => exact h.bounds.frame rfl rfl rfl
  case ids =>
    rw [hleft]
    show (_ ++ (_ ++ (l.rejected ++ [(w.id, w.signal)]).map Prod.fst)).Perm _
    have hrejected : (l.rejected ++ [(w.id, w.signal)]).map Prod.fst =
        l.rejected.map Prod.fst ++ [w.id] := List.map_append
    rw [hrejected]
    exact (perm_move _ _ _ w.id).trans (((hperm.map Waiting.id).append_right _).symm.trans h.ids)
  case listeners =>
    rw [hleft]
    exact (h.listeners.trans (hperm.map _)).cons_inv
  case pending => exact fun p hp => h.pending p (List.mem_cons_of_mem _ hp)
  case listening => exact h.listening
  case rejected =>
    intro r hr
    rcases List.mem_append.mp hr with hr | hr
    · exact h.rejected r hr
    · rw [List.mem_singleton.mp hr]
      exact h.pending _ List.mem_cons_self

/-- Firing all listeners leaves none. -/
theorem Firing.foldl {pending : List (Signal × ℕ)} {l : Limiter Origin Signal}
    (h : l.Firing pending) : (pending.foldl Limiter.fire l).Firing [] := by
  induction pending generalizing l with
  | nil => exact h
  | cons listener pending ih => exact ih h.fire

/-- With no listener pending, each waiter has its own, of a signal that has not aborted. -/
theorem Firing.inv {l : Limiter Origin Signal} (h : l.Firing []) : l.Inv where
  counts := h.counts
  bounds := h.bounds
  places := {
    ids := h.ids
    listeners := h.listeners
    waiting := fun w hw => h.listening _
      (h.listeners.symm.mem_iff.mp (List.mem_map.mpr ⟨w, hw, rfl⟩))
    rejected := h.rejected }

/-- A new limiter keeps the invariant. -/
theorem inv_createLimiter : (createLimiter : Limiter Origin Signal).Inv where
  counts := ⟨rfl, rfl, fun _ => rfl, rfl⟩
  bounds := ⟨Nat.zero_le _, Nat.zero_le _, fun _ => Nat.zero_le _⟩
  places := ⟨.refl _, .refl _, fun _ h => absurd h List.not_mem_nil,
    fun _ h => absurd h List.not_mem_nil⟩

/-- The limiter with a new waiter, before it drains. -/
def enqueued (l : Limiter Origin Signal) (origin : Origin) (signal : Signal) : Limiter Origin Signal :=
  { l with
    acquired := l.acquired + 1
    listeners := l.listeners ++ [(signal, l.acquired)]
    queue := l.queue ++ [⟨l.acquired, origin, signal⟩] }

/-- Enqueueing keeps the invariant. -/
theorem Inv.enqueued {l : Limiter Origin Signal} (h : l.Inv) (origin : Origin) {signal : Signal}
    (hsignal : signal ∉ l.aborted) : (l.enqueued origin signal).Inv := by
  refine ⟨h.counts.frame rfl rfl rfl rfl, h.bounds.frame rfl rfl rfl, ?_⟩
  constructor
  case ids =>
    show ((l.queue ++ [_]).map Waiting.id ++ _).Perm (List.range (l.acquired + 1))
    rw [List.map_append, List.append_assoc, List.range_succ]
    refine List.perm_middle.trans ?_
    exact (h.places.ids.cons _).trans (List.perm_append_singleton _ _).symm
  case listeners =>
    show (l.listeners ++ [_]).Perm ((l.queue ++ [_]).map _)
    rw [List.map_append]
    exact h.places.listeners.append_right _
  case waiting =>
    intro w hw
    rcases List.mem_append.mp hw with hw | hw
    · exact h.places.waiting w hw
    · rw [List.mem_singleton.mp hw]
      exact hsignal
  case rejected => exact h.places.rejected

/-- The limiter with a slot freed, before it drains. -/
def freed (l : Limiter Origin Signal) (slot : Slot Origin) : Limiter Origin Signal :=
  let left := l.busy slot.origin - 1
  { l with
    slots := l.slots.map fun s => if s.id = slot.id then { s with released := true } else s
    total := l.total - 1
    background := if slot.isBackground then l.background - 1 else l.background
    running :=
      if left ≠ 0 then l.running.insert slot.origin left else l.running.erase slot.origin }

/-- Freeing a slot keeps the identifiers. -/
theorem ids_freed (l : Limiter Origin Signal) (slot : Slot Origin) :
    (l.freed slot).slots.map Slot.id = l.slots.map Slot.id := by
  show (l.slots.map _).map Slot.id = _
  rw [List.map_map]
  refine List.map_congr_left fun s _ => ?_
  show Slot.id (if s.id = slot.id then _ else s) = s.id
  split_ifs <;> rfl

/-- Freeing an active slot keeps the invariant. -/
theorem Inv.freed {l : Limiter Origin Signal} (h : l.Inv) {slot : Slot Origin} (hmem : slot ∈ l.slots)
    (hactive : slot.released = false) : (l.freed slot).Inv := by
  have hnodup := h.places.nodup_slots
  have hperm : (active l.slots).Perm (slot :: active (l.freed slot).slots) :=
    active_release hnodup hmem hactive
  have hbusy : ∀ origin, l.busy origin = (active (l.freed slot).slots).countP (·.origin = origin) +
      if slot.origin = origin then 1 else 0 := by
    intro origin
    rw [h.counts.busy_eq, hperm.countP_eq, List.countP_cons]
    simp only [decide_eq_true_eq]
  have hcounts : (l.freed slot).Counts := by
    constructor
    case total =>
      show l.total - 1 = _
      rw [h.counts.total, hperm.length_eq, List.length_cons, Nat.add_sub_cancel]
    case background =>
      show (if slot.isBackground = true then l.background - 1 else l.background) = _
      rw [h.counts.background, hperm.countP_eq, List.countP_cons]
      split_ifs
      · rw [Nat.add_sub_cancel]
      · rw [Nat.add_zero]
    case running =>
      intro origin
      show AList.lookup origin (if l.busy slot.origin - 1 ≠ 0 then _ else _) = _
      have hleft := hbusy slot.origin
      rw [if_pos rfl] at hleft
      by_cases heq : origin = slot.origin
      · subst heq
        rw [hleft, Nat.add_sub_cancel]
        generalize (active (l.freed slot).slots).countP (·.origin = slot.origin) = left
        cases left with
        | zero => rw [if_neg (not_not.mpr rfl), AList.lookup_erase]
        | succ left => rw [if_pos (Nat.succ_ne_zero left), AList.lookup_insert]
      · have hsame : (active (l.freed slot).slots).countP (·.origin = origin) =
            (active l.slots).countP (·.origin = origin) := by
          rw [hperm.countP_eq, List.countP_cons, if_neg (by simpa using Ne.symm heq), Nat.add_zero]
        rw [hsame, ← h.counts.running]
        split_ifs
        · rw [AList.lookup_insert_ne heq]
        · rw [AList.lookup_erase_ne heq]
    case sum =>
      show HashMap.total (if l.busy slot.origin - 1 ≠ 0 then _ else _) = l.total - 1
      have hsum := h.counts.sum
      have hleft := hbusy slot.origin
      rw [if_pos rfl] at hleft
      split_ifs with hzero
      · have hinsert := HashMap.total_insert l.running slot.origin (l.busy slot.origin - 1)
        rw [← busy, hsum] at hinsert
        omega
      · have hone : l.running.lookup slot.origin = some 1 := by
          have hlookup := h.counts.running slot.origin
          rw [← h.counts.busy_eq, show l.busy slot.origin = 1 by omega] at hlookup
          exact hlookup
        have herase := HashMap.total_erase hone
        omega
  refine ⟨hcounts, ⟨?_, ?_, fun origin => ?_⟩, ?_⟩
  · exact (Nat.sub_le _ _).trans h.bounds.total_le
  · show (if slot.isBackground = true then l.background - 1 else l.background) ≤ _
    have hle := h.bounds.background_le
    split_ifs <;> omega
  · have hle := h.bounds.busy_le origin
    rw [hbusy] at hle
    rw [hcounts.busy_eq]
    exact (Nat.le_add_right _ _).trans hle
  · refine ⟨?_, h.places.listeners, h.places.waiting, h.places.rejected⟩
    rw [ids_freed]
    exact h.places.ids

/-! ## A start -/

variable [DecidableEq Signal]

/-- Starting what waits keeps the counts. -/
theorem Counts.start {l : Limiter Origin Signal} (h : l.Counts) (priority : Priorities)
    (w : Waiting Origin Signal) : (start priority l w).Counts := by
  have hactive : active (Limiter.start priority l w).slots =
      active l.slots ++ [⟨w.id, w.origin, decide (0 < priority w.id), false⟩] :=
    active_snoc _ _ rfl
  constructor
  case total =>
    rw [hactive, List.length_append, List.length_singleton, ← h.total]
    rfl
  case background =>
    rw [hactive, List.countP_append, List.countP_singleton, ← h.background]
    show (if _ then _ else _) = _
    split_ifs <;> rfl
  case running =>
    intro origin
    show (l.running.insert w.origin _).lookup origin = _
    rw [hactive, List.countP_append, List.countP_singleton]
    by_cases heq : origin = w.origin
    · subst heq
      rw [AList.lookup_insert, h.busy_eq, if_pos (decide_eq_true rfl)]
    · rw [AList.lookup_insert_ne heq, h.running, if_neg (by simpa using Ne.symm heq), Nat.add_zero]
  case sum =>
    have hsum := HashMap.total_insert l.running w.origin (l.busy w.origin + 1)
    rw [← busy] at hsum
    show HashMap.total (l.running.insert w.origin _) = l.total + 1
    rw [h.sum] at hsum
    omega

/-- What fits is within the bounds once started. -/
theorem Bounds.start {l : Limiter Origin Signal} (h : l.Bounds) {priority : Priorities}
    {w : Waiting Origin Signal} (htotal : l.total < totalMax) (hfits : fits priority l w = true) :
    (start priority l w).Bounds := by
  have hbusy : ∀ origin, (Limiter.start priority l w).busy origin =
      if origin = w.origin then l.busy w.origin + 1 else l.busy origin := by
    intro origin
    show ((l.running.insert w.origin _).lookup origin).getD 0 = _
    by_cases heq : origin = w.origin
    · rw [if_pos heq, heq, AList.lookup_insert, Option.getD_some]
    · rw [if_neg heq, AList.lookup_insert_ne heq, busy]
  rw [fits] at hfits
  by_cases hzero : priority w.id = 0
  · rw [if_pos hzero] at hfits
    have hlt := of_decide_eq_true hfits
    refine ⟨htotal, ?_, fun origin => ?_⟩
    · show (if decide (0 < priority w.id) = true then _ else _) ≤ _
      rw [hzero, if_neg (by simp)]
      exact h.background_le
    · rw [hbusy]
      split_ifs
      · exact hlt
      · exact h.busy_le origin
  · rw [if_neg hzero] at hfits
    obtain ⟨hidle, hlt⟩ := of_decide_eq_true hfits
    refine ⟨htotal, ?_, fun origin => ?_⟩
    · show (if decide (0 < priority w.id) = true then _ else _) ≤ _
      rw [if_pos (decide_eq_true (pos_iff_ne_zero.mpr hzero))]
      exact hlt
    · rw [hbusy]
      split_ifs
      · rw [hidle]
        decide
      · exact h.busy_le origin

/-- A waiter taken off the queue is started. -/
theorem Places.start {l : Limiter Origin Signal} (h : l.Places) (priority : Priorities)
    {w : Waiting Origin Signal} {queue : List (Waiting Origin Signal)}
    (hperm : l.queue.Perm (w :: queue)) :
    (start priority { l with queue } w).Places := by
  have hnodup : (l.queue.map Waiting.id).Nodup :=
    (List.nodup_append.mp (h.ids.nodup_iff.mpr List.nodup_range)).1
  constructor
  case ids =>
    show (queue.map Waiting.id ++ ((l.slots ++ [_]).map Slot.id ++ l.rejected.map Prod.fst)).Perm _
    refine .trans ?_ ((hperm.map Waiting.id).append_right _ |>.symm.trans h.ids)
    rw [List.map_append, List.map_cons, List.map_cons, List.map_nil, List.append_assoc,
      List.singleton_append, ← List.append_assoc]
    exact List.perm_middle.trans (by rw [List.append_assoc]; exact .refl _)
  case listeners =>
    -- no other waiter has this one's name
    show (l.listeners.filter (· ≠ (w.signal, w.id))).Perm _
    have hne : w.id ∉ queue.map Waiting.id := (List.nodup_cons.mp ((hperm.map _).nodup_iff.mp hnodup)).1
    have hothers : (queue.map fun w => (w.signal, w.id)).filter (· ≠ (w.signal, w.id)) =
        queue.map fun w => (w.signal, w.id) := by
      refine List.filter_eq_self.mpr fun listener hlistener => decide_eq_true fun heq => ?_
      obtain ⟨w', hw', rfl⟩ := List.mem_map.mp hlistener
      exact hne (List.mem_map.mpr ⟨w', hw', (Prod.mk.inj heq).2⟩)
    refine (h.listeners.filter _).trans ((hperm.map _).filter _ |>.trans ?_)
    rw [List.map_cons, List.filter_cons_of_neg (by simp), hothers]
    exact .refl _
  case waiting => exact fun w' hw' => h.waiting w' (hperm.mem_iff.mpr (List.mem_cons_of_mem w hw'))
  case rejected => exact h.rejected

/-! ## A drain -/

/-- No waiter that fits is left while there is room. -/
def Settled (priority : Priorities) (l : Limiter Origin Signal) : Prop :=
  l.total < totalMax → ∀ w ∈ l.queue, fits priority l w = false

/-- Nothing starts when nothing fits. -/
theorem startFitting_of_none {priority : Priorities} {l : Limiter Origin Signal}
    (hnone : l.queue.find? (fits priority l) = none) : startFitting priority l = l := by
  rw [startFitting]
  split_ifs
  · split
    · rfl
    · rename_i hsome
      rw [hnone] at hsome
      cases hsome
  · rfl

/-- The first that fits starts, and then the others. -/
theorem startFitting_of_some {priority : Priorities} {l : Limiter Origin Signal}
    {w : Waiting Origin Signal} (htotal : l.total < totalMax)
    (hfind : l.queue.find? (fits priority l) = some w) :
    startFitting priority l =
      startFitting priority (start priority { l with queue := l.queue.eraseP (fits priority l) } w) := by
  rw [startFitting, if_pos htotal]
  split
  · rename_i hnone
    rw [hfind] at hnone
    cases hnone
  · rename_i hsome
    rw [hfind] at hsome
    cases hsome
    rfl

/-- Starting what fits keeps the invariant and leaves nothing that fits. -/
theorem Inv.startFitting (priority : Priorities) {l : Limiter Origin Signal} (h : l.Inv) :
    (startFitting priority l).Inv ∧ Settled priority (startFitting priority l) := by
  induction l using @Limiter.startFitting.induct Origin Signal _ _ priority with
  | case1 l htotal hnone =>
    rw [startFitting_of_none hnone]
    exact ⟨h, fun _ w hw => Bool.eq_false_of_not_eq_true (List.find?_eq_none.mp hnone w hw)⟩
  | case2 l htotal w hfind ih =>
    rw [startFitting_of_some htotal hfind]
    have hcounts : Counts { l with queue := l.queue.eraseP (fits priority l) } :=
      h.counts.frame rfl rfl rfl rfl
    have hbounds : Bounds { l with queue := l.queue.eraseP (fits priority l) } :=
      h.bounds.frame rfl rfl rfl
    exact ih ⟨hcounts.start priority w, hbounds.start htotal (List.find?_some hfind),
      h.places.start priority (perm_of_find hfind)⟩
  | case3 l hfull =>
    rw [Limiter.startFitting, if_neg hfull]
    exact ⟨h, fun hlt => absurd hlt hfull⟩

/-- **A drain** keeps the invariant and leaves no waiter that fits while there is room. -/
theorem Inv.drain (priority : Priorities) {l : Limiter Origin Signal} (h : l.Inv) :
    (drain priority l).Inv ∧ Settled priority (drain priority l) :=
  (h.queue_perm (List.perm_insertionSort _ l.queue).symm).startFitting priority

/-! ## The calls -/

/-- Acquiring keeps the invariant and leaves nothing that fits. -/
theorem Inv.acquire (priority : Priorities) {l : Limiter Origin Signal} (h : l.Inv) (origin : Origin)
    (signal : Signal) :
    (acquire priority l origin signal).Inv ∧
      (signal ∉ l.aborted → Settled priority (acquire priority l origin signal)) := by
  rw [Limiter.acquire]
  dsimp only
  split_ifs with haborted
  · refine ⟨⟨h.counts.frame rfl rfl rfl rfl, h.bounds.frame rfl rfl rfl, ?_⟩,
      fun hnot => absurd haborted hnot⟩
    constructor
    case ids =>
      show (_ ++ (_ ++ (l.rejected ++ [(l.acquired, signal)]).map Prod.fst)).Perm _
      have hrejected : (l.rejected ++ [(l.acquired, signal)]).map Prod.fst =
          l.rejected.map Prod.fst ++ [l.acquired] := List.map_append
      rw [hrejected, List.range_succ]
      exact (perm_move _ _ _ _).trans
        ((h.places.ids.cons _).trans (List.perm_append_singleton _ _).symm)
    case listeners => exact h.places.listeners
    case waiting => exact h.places.waiting
    case rejected =>
      intro r hr
      rcases List.mem_append.mp hr with hr | hr
      · exact h.places.rejected r hr
      · rw [List.mem_singleton.mp hr]
        exact haborted
  · exact ((h.enqueued origin haborted).drain priority).imp_right fun h _ => h

/-- **An abort** rejects every waiter of its signal. -/
theorem Inv.abort {l : Limiter Origin Signal} (h : l.Inv) (signal : Signal) : (l.abort signal).Inv := by
  rw [Limiter.abort]
  split_ifs with haborted
  · exact h
  · refine (Firing.foldl (l := { l with
      aborted := signal :: l.aborted, listeners := l.listeners.filter (·.1 ≠ signal) }) ?_).inv
    have hlistening : ∀ p ∈ l.listeners, p.1 ∉ l.aborted := by
      intro p hp
      obtain ⟨w, hw, rfl⟩ := List.mem_map.mp (h.places.listeners.mem_iff.mp hp)
      exact h.places.waiting w hw
    constructor
    case counts => exact h.counts.frame rfl rfl rfl rfl
    case bounds => exact h.bounds.frame rfl rfl rfl
    case ids => exact h.places.ids
    case listeners =>
      refine .trans ?_ h.places.listeners
      have hsplit := List.filter_append_perm (fun p : Signal × ℕ => decide (p.1 = signal)) l.listeners
      simpa only [decide_not] using hsplit
    case pending =>
      intro p hp
      rw [of_decide_eq_true (List.mem_filter.mp hp).2]
      exact List.mem_cons_self
    case listening =>
      intro p hp
      obtain ⟨hmem, hne⟩ := List.mem_filter.mp hp
      exact List.not_mem_cons_of_ne_of_not_mem (of_decide_eq_true hne) (hlistening p hmem)
    case rejected => exact fun r hr => List.mem_cons_of_mem _ (h.places.rejected r hr)

/-- **A release** frees its slot and drains, once: it does nothing to a slot that is free. -/
theorem Inv.release (priority : Priorities) {l : Limiter Origin Signal} (h : l.Inv) (id : ℕ) :
    (release priority l id).Inv ∧
      ((∃ slot ∈ l.slots, slot.id = id ∧ slot.released = false) →
        Settled priority (release priority l id)) := by
  rw [Limiter.release]
  split
  · rename_i hnone
    refine ⟨h, fun ⟨slot, hslot, hid, _⟩ => ?_⟩
    exact absurd hid (by simpa using List.find?_eq_none.mp hnone slot hslot)
  rename_i slot hfind
  have hmem := List.mem_of_find?_eq_some hfind
  have hid : slot.id = id := by simpa using List.find?_some hfind
  subst hid
  by_cases hreleased : slot.released = true
  · rw [if_pos hreleased]
    refine ⟨h, fun ⟨slot', hslot', hid, hactive⟩ => ?_⟩
    have heq : slot' = slot := List.inj_on_of_nodup_map h.places.nodup_slots hslot' hmem hid
    rw [heq, hreleased] at hactive
    cases hactive
  · rw [if_neg hreleased]
    have hinv := h.freed hmem (Bool.eq_false_of_not_eq_true hreleased)
    exact ⟨(hinv.drain priority).1, fun _ => (hinv.drain priority).2⟩

end GraphiteMeter.Browser.Limiter
