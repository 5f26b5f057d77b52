import GraphiteMeter.Server.Upload.Reach

/-!
# What `watchable` promises

Reference: `rust/server/src/engine/uploads.rs` (`subscribe`, `watchable`).

`watchable` answers whether `subscribe` would attach the feed, on a path of its own. Both ask for an
owner, then parse, then look at the store; `subscribe` then may have to make the aggregate, for which
the capacity may have no room.
-/

namespace GraphiteMeter.Server.Upload

open Http3 (Bytes)

namespace Store

/-- Reaches the aggregate and replaces its reader, at one go. -/
def subscribe (env : Env) (s : Store) (text : Bytes) (owner : Option ClientKeys) (r : Readings) :
    Except Refusal ProgressFeed × Store :=
  match s.reach env text owner .watch r with
  | (.error refusal, s) => (.error refusal, s)
  | (.ok ref, s) =>
    let a := (s.heap ref).attach
    (.ok ⟨ref, a.life.reader, false, false⟩, s.set ref a)

/-- The ID is not live and making its aggregate is refused: what `watchable` does not look at. -/
def NoRoom (env : Env) (s : Store) (text : Bytes) (owner : Option ClientKeys) (r : Readings)
    (refusal : Refusal) : Prop :=
  ∃ id keys, UploadId.parse env text = some id ∧ owner = some keys ∧
    (s.entries r).live.lookup id = none ∧
    ((s.entries r).charge keys r.displaced).1 = .error refusal

variable {env : Env} {s : Store} {text : Bytes} {owner : Option ClientKeys} {r : Readings}
  {refusal : Refusal}

/-- `subscribe` refuses what `reach` refuses. -/
theorem subscribe_eq_error :
    (s.subscribe env text owner r).1 = .error refusal ↔
      (s.reach env text owner .watch r).1 = .error refusal := by
  rw [subscribe]
  match s.reach env text owner .watch r with
  | (.error _, _) => simp only [Except.error.injEq]
  | (.ok _, _) => simp only [reduceCtorEq]

/-- Capacity refuses for the client's share or for the server's. -/
theorem charge_refusal {keys : ClientKeys} {now : ℕ} (h : (s.charge keys now).1 = .error refusal) :
    refusal = .clientLimit ∨ refusal = .serverCapacity := by
  have hfull : ∀ full : Full,
      Refusal.ofFull full = .clientLimit ∨ Refusal.ofFull full = .serverCapacity := by
    rintro (_ | _)
    · exact .inl rfl
    · exact .inr rfl
  rw [charge] at h
  rcases hacquire : s.capacity.acquire keys.charged 1 with ⟨(_ | _) | hold, quota⟩
  · rw [hacquire] at h
    cases h
    exact hfull .client
  · -- the charge is tried again once an upload was displaced
    simp only [hacquire] at h
    rcases hd : displace { s with capacity := quota } now with ⟨_ | _, s'⟩
    · simp only [hd] at h
      cases h
      exact hfull .total
    · simp only [hd] at h
      rcases hretry : s'.capacity.acquire keys.charged 1 with ⟨full | hold, after⟩
      · simp only [hretry] at h
        cases h
        exact hfull full
      · simp only [hretry] at h
        cases h
  · rw [hacquire] at h
    cases h

/-- With the entries locked, the two differ in making the aggregate only. -/
theorem reachLocked_watch {id : UploadId} {keys : ClientKeys} {narrowest : ClientKey}
    (hkey : keys.narrowest = some narrowest) :
    (s.reachLocked env id (some keys) .watch r).1 = .error refusal ↔
      match s.live.lookup id with
      | some entry => (s.heap entry.aggregate).owner ≠ narrowest ∧ refusal = .ownerMismatch
      | none =>
        if id ∈ s.tombstones ∨ id.valid env r.checked = false then refusal = .invalid
        else (s.charge keys r.displaced).1 = .error refusal := by
  rw [reachLocked]
  match s.live.lookup id with
  | some entry =>
    simp only [Option.bind_some, hkey, reduceCtorEq, if_false]
    by_cases howner : (s.heap entry.aggregate).owner = narrowest
    · rw [if_neg (by rw [howner]; exact not_not.mpr rfl)]
      simp only [reduceCtorEq, howner, ne_eq, not_true, false_and]
    · rw [if_pos fun h => howner (Option.some.inj h).symm]
      simp only [ne_eq, howner, not_false_eq_true, true_and, Except.error.injEq]
      exact eq_comm
  | none =>
    simp only [hkey, reduceCtorEq, false_or, if_false]
    split_ifs
    · rw [Except.error.injEq]
      exact eq_comm
    · match hcharge : s.charge keys r.displaced with
      | (.error _, _) => simp only [Except.error.injEq]
      | (.ok _, _) => simp only [reduceCtorEq]

/-- **`watchable` predicts `subscribe`.** What `subscribe` refuses is what `watchable` refuses, in
the same words, and a creation the capacity has no room for, which is refused as such. `watchable`
itself does nothing but a sweep that is due. -/
theorem subscribe_refuses_iff (env : Env) (s : Store) (text : Bytes) (owner : Option ClientKeys)
    (r : Readings) :
    (∀ refusal, (s.subscribe env text owner r).1 = .error refusal ↔
      (s.watchable env text owner r).1 = .error refusal ∨
        ((s.watchable env text owner r).1 = .ok () ∧ s.NoRoom env text owner r refusal)) ∧
    (∀ refusal, s.NoRoom env text owner r refusal →
      refusal = .clientLimit ∨ refusal = .serverCapacity) ∧
    ((s.watchable env text owner r).2 = s ∨
      (s.nextSweep ≤ clockNow r.entered ∧ (s.watchable env text owner r).2 = s.entries r)) := by
  refine ⟨fun refusal => ?_, fun refusal h => ?_, ?_⟩
  · rw [subscribe_eq_error, Store.reach, watchable]
    cases hkey : owner.bind ClientKeys.narrowest with
    | none =>
      -- neither goes on without an owner
      rw [if_pos ⟨by decide, rfl⟩]
      simp only [Except.error.injEq, reduceCtorEq, false_and, or_false]
    | some narrowest =>
      rw [if_neg fun h => Option.some_ne_none _ h.2]
      obtain ⟨keys, rfl, hkeys⟩ := Option.bind_eq_some_iff.mp hkey
      cases hid : UploadId.parse env text with
      | none => simp only [Except.error.injEq, reduceCtorEq, false_and, or_false]
      | some id =>
        simp only [NoRoom, hid, Option.some.injEq, exists_and_left, exists_eq_left',
          reachLocked_watch hkeys]
        cases hlive : (s.entries r).live.lookup id with
        | some entry =>
          simp only [reduceCtorEq, false_and, and_false, or_false]
          split_ifs with howner
          · simp only [howner, not_false_eq_true, true_and, Except.error.injEq, ne_eq]
            exact eq_comm
          · simp only [howner, false_and]
        | none =>
          simp only [true_and]
          split_ifs with hbad
          · simp only [Except.error.injEq, false_and, or_false]
            exact eq_comm
          · simp only [false_or, true_and]
  · obtain ⟨id, keys, -, -, -, hcharge⟩ := h
    exact charge_refusal hcharge
  · by_cases hdue : s.nextSweep ≤ clockNow r.entered
    · exact (watchable_store env s text owner r).imp id fun h => ⟨hdue, h⟩
    · have hsame : s.entries r = s := by rw [Store.entries, if_neg hdue]
      refine .inl ?_
      rcases watchable_store env s text owner r with h | h
      · exact h
      · rw [h, hsame]

end Store

end GraphiteMeter.Server.Upload
