import GraphiteMeter.Server.Upload.Store

/-!
# What the store's functions can do

`Pruned` is all that sweeping, displacing and taking capacity do to aggregates: entries leave and
aggregates expire. `reach_cases` lists everything else `reach` can do.
-/

namespace GraphiteMeter.Server.Upload

open Http3 (Bytes)

namespace Store

/-- Entries left the store and aggregates expired, and nothing else happened to either. -/
structure Pruned (s s' : Store) : Prop where
  size : s'.size = s.size
  live : ∀ id entry, s'.live.lookup id = some entry → s.live.lookup id = some entry
  heap : ∀ ref, s'.heap ref = s.heap ref ∨ s'.heap ref = (s.heap ref).expire

namespace Pruned

/-- A store that does not change is pruned of nothing. -/
theorem refl (s : Store) : Pruned s s := ⟨rfl, fun _ _ h => h, fun _ => .inl rfl⟩

variable {s s' : Store} (h : Pruned s s') (ref : ℕ)

include h

/-- Pruning keeps an aggregate's bytes. -/
theorem bytes : (s'.heap ref).bytes = (s.heap ref).bytes := by
  rcases h.heap ref with h | h
  · rw [h]
  · rw [h]
    rfl

/-- Pruning keeps an aggregate's owner. -/
theorem owner : (s'.heap ref).owner = (s.heap ref).owner := by
  rcases h.heap ref with h | h
  · rw [h]
  · rw [h]
    rfl

/-- Pruning keeps an aggregate's lanes. -/
theorem lanes : (s'.heap ref).life.lanes = (s.heap ref).life.lanes := by
  rcases h.heap ref with h | h
  · rw [h]
  · rw [h]
    rfl

/-- Pruning keeps when an aggregate was last touched. -/
theorem touched : (s'.heap ref).life.touched = (s.heap ref).life.touched := by
  rcases h.heap ref with h | h
  · rw [h]
  · rw [h]
    rfl

/-- Pruning keeps an aggregate's phase, or expires it. -/
theorem phase : (s'.heap ref).life.phase = (s.heap ref).life.phase ∨
    (s'.heap ref).life.phase = .expired := by
  rcases h.heap ref with h | h
  · exact .inl (by rw [h])
  · exact .inr (by rw [h]; rfl)

end Pruned

/-! ## Sweeping -/

/-- Sweeping the entries prunes the store. -/
theorem sweepEntries_pruned (s : Store) (now : ℕ) : Pruned s (s.sweepEntries now) where
  size := rfl
  live id entry h := (AList.lookup_retain_eq_some.mp h).1
  heap ref := by
    simp only [sweepEntries]
    split_ifs
    · exact .inr rfl
    · exact .inl rfl

/-- A due sweep prunes the store. -/
theorem entries_pruned (s : Store) (r : Readings) : Pruned s (s.entries r) := by
  simp only [entries]
  split_ifs
  · obtain ⟨hsize, hlive, hheap⟩ := sweepEntries_pruned s r.swept
    exact ⟨hsize, hlive, hheap⟩
  · exact Pruned.refl s

/-- An entry a sweep drops had no lanes, and was last touched longer ago than retention covers. -/
theorem touched_lt_of_swept {s : Store} {now : ℕ} {id : UploadId} {entry : Entry}
    (hlive : s.live.lookup id = some entry) (hgone : id ∉ (s.sweepEntries now).live) :
    (s.heap entry.aggregate).life.lanes = 0 ∧
      (s.heap entry.aggregate).life.touched + retention < now := by
  have hkept : s.kept now entry = false := by
    rw [← Bool.not_eq_true]
    intro hkept
    exact hgone (AList.mem_iff_exists_lookup.mpr
      ⟨entry, AList.lookup_retain_eq_some.mpr ⟨hlive, hkept⟩⟩)
  simp only [kept, decide_eq_false_iff_not, not_or] at hkept
  omega

/-- A tombstone a sweep drops is over. -/
theorem until_lt_of_swept {s : Store} {now until_ : ℕ} {id : UploadId}
    (htomb : s.tombstones.lookup id = some until_) (hgone : id ∉ (s.sweepEntries now).tombstones) :
    until_ < now := by
  by_contra hlt
  refine hgone (AList.mem_iff_exists_lookup.mpr
    ⟨until_, AList.lookup_retain_eq_some.mpr ⟨htomb, decide_eq_true ?_⟩⟩)
  omega

/-! ## Displacing -/

/-- A displacement buries one empty aggregate. -/
theorem displace_cases (s : Store) (now : ℕ) :
    s.displace now = (false, s) ∨
      ∃ id entry, s.victim = some ⟨id, entry⟩ ∧ s.live.lookup id = some entry ∧
        s.empty entry = true ∧ s.tombstones.len < maxLive ∧
        s.displace now = (true,
          { s with
            live := s.live.erase id
            heap := Function.update s.heap entry.aggregate (s.heap entry.aggregate).expire
            capacity := s.capacity.release entry.capacity
            tombstones := s.tombstones.insert id (now + idLifetime) }) := by
  rw [displace]
  split_ifs with hfull
  · exact .inl rfl
  · match hvictim : s.victim with
    | none => exact .inl rfl
    | some ⟨id, entry⟩ =>
      have hmem := List.argmin_mem (Option.mem_def.mpr hvictim)
      rw [List.mem_filter] at hmem
      exact .inr ⟨id, entry, rfl, AList.mem_lookup_iff.mpr hmem.1, hmem.2, by omega, rfl⟩

/-- Displacing prunes the store. -/
theorem displace_pruned (s : Store) (now : ℕ) : Pruned s (s.displace now).2 := by
  rcases displace_cases s now with h | ⟨id, entry, -, -, -, -, h⟩
  · rw [h]
    exact Pruned.refl s
  · rw [h]
    refine ⟨rfl, fun id' entry' h' => (AList.lookup_erase_eq_some.mp h').2, fun ref => ?_⟩
    by_cases href : ref = entry.aggregate
    · subst href
      exact .inr (Function.update_self _ _ _)
    · exact .inl (Function.update_of_ne href _ _)

/-- A displaced ID is refused from then on for as long as an ID lives. -/
theorem lookup_tombstones_displace {s : Store} {now : ℕ} {id : UploadId}
    (h : id ∈ s.live) (hgone : id ∉ (s.displace now).2.live) :
    (s.displace now).2.tombstones.lookup id = some (now + idLifetime) := by
  rcases displace_cases s now with hd | ⟨id', entry, -, -, -, -, hd⟩
  · rw [hd] at hgone
    exact absurd h hgone
  · rw [hd] at hgone ⊢
    have heq : id = id' := by
      by_contra hne
      exact hgone (AList.mem_erase.mpr ⟨hne, h⟩)
    subst heq
    exact AList.lookup_insert _

/-- Every other tombstone stays. -/
theorem lookup_tombstones_displace_cases {s : Store} {now until_ : ℕ} {id : UploadId}
    (h : (s.displace now).2.tombstones.lookup id = some until_) :
    s.tombstones.lookup id = some until_ ∨ until_ = now + idLifetime ∧ id ∈ s.live := by
  rcases displace_cases s now with hd | ⟨id', entry, -, hlive, -, -, hd⟩
  · rw [hd] at h
    exact .inl h
  · rw [hd] at h
    rcases AList.lookup_insert_of_eq_some h with ⟨rfl, rfl⟩ | h
    · exact .inr ⟨rfl, AList.mem_iff_exists_lookup.mpr ⟨entry, hlive⟩⟩
    · exact .inl h

/-- Displacing keeps the tombstones. -/
theorem mem_tombstones_displace {s : Store} {now : ℕ} {id : UploadId}
    (h : id ∈ s.tombstones) : id ∈ (s.displace now).2.tombstones := by
  rcases displace_cases s now with hd | ⟨id', entry, -, -, -, -, hd⟩
  · rw [hd]
    exact h
  · rw [hd]
    exact (AList.mem_insert _).mpr (.inr h)

/-- Taking capacity changes the quota, and displaces at most. -/
theorem charge_cases (s : Store) (keys : ClientKeys) (now : ℕ) :
    ∃ before after, (s.charge keys now).2 = { s with capacity := after } ∨
      (s.charge keys now).2 =
        { (displace { s with capacity := before } now).2 with capacity := after } := by
  rw [charge]
  match s.capacity.acquire keys.charged 1 with
  | (.ok hold, quota) => exact ⟨quota, quota, .inl rfl⟩
  | (.error .client, quota) => exact ⟨quota, quota, .inl rfl⟩
  | (.error .total, quota) =>
    match hd : displace { s with capacity := quota } now with
    | (false, s') =>
      refine ⟨quota, s'.capacity, .inr ?_⟩
      simp only [hd]
    | (true, s') =>
      simp only [hd]
      match s'.capacity.acquire keys.charged 1 with
      | (.ok hold, after) => exact ⟨quota, after, .inr (by simp only [hd])⟩
      | (.error full, after) => exact ⟨quota, after, .inr (by simp only [hd])⟩

/-- Charging a creation prunes the store. -/
theorem charge_pruned (s : Store) (keys : ClientKeys) (now : ℕ) :
    Pruned s (s.charge keys now).2 := by
  obtain ⟨before, after, h | h⟩ := charge_cases s keys now
  · rw [h]
    exact ⟨rfl, fun _ _ h => h, fun _ => .inl rfl⟩
  · rw [h]
    obtain ⟨hsize, hlive, hheap⟩ := displace_pruned { s with capacity := before } now
    exact ⟨hsize, hlive, hheap⟩

/-! ## Reaching -/

/-- Everything `reach` can do once the entries are locked. -/
inductive Reached (env : Env) (s : Store) (id : UploadId) (owner : Option ClientKeys)
    (reach : Reach) (r : Readings) : Except Refusal ℕ → Store → Prop
  | refused (refusal : Refusal) : Reached env s id owner reach r (.error refusal) s
  | found (entry : Entry) (hlive : s.live.lookup id = some entry)
      (howner : owner.bind ClientKeys.narrowest = some (s.heap entry.aggregate).owner)
      (hreach : reach ≠ .join) : Reached env s id owner reach r (.ok entry.aggregate) s
  | joined (entry : Entry) (hlive : s.live.lookup id = some entry)
      (howner : owner.bind ClientKeys.narrowest = some (s.heap entry.aggregate).owner)
      (hreach : reach = .join) (a : Aggregate)
      (hjoin : (s.heap entry.aggregate).join r.touched = .ok a) :
      Reached env s id owner reach r (.ok entry.aggregate) (s.set entry.aggregate a)
  | full (refusal : Refusal) (keys : ClientKeys)
      (hcharge : (s.charge keys r.displaced).1 = .error refusal) :
      Reached env s id owner reach r (.error refusal) (s.charge keys r.displaced).2
  | created (keys : ClientKeys) (key : ClientKey) (hold : Hold) (howner : owner = some keys)
      (hkey : keys.narrowest = some key) (hlive : s.live.lookup id = none) (hreach : reach ≠ .read)
      (htomb : id ∉ s.tombstones) (hvalid : id.valid env r.checked = true)
      (hhold : (s.charge keys r.displaced).1 = .ok hold) :
      Reached env s id owner reach r (.ok s.size)
        ((s.charge keys r.displaced).2.create id key hold (if reach = .join then 1 else 0) r.touched)

/-- Each way a reach can go, with the store it leaves. -/
theorem reachLocked_cases (env : Env) (s : Store) (id : UploadId) (owner : Option ClientKeys)
    (reach : Reach) (r : Readings) :
    Reached env s id owner reach r (s.reachLocked env id owner reach r).1
      (s.reachLocked env id owner reach r).2 := by
  unfold reachLocked
  match hlive : s.live.lookup id with
  | some entry =>
    simp only
    split_ifs with howner hreach
    · exact .refused _
    · match hjoin : (s.heap entry.aggregate).join r.touched with
      | .error refusal => exact .refused _
      | .ok a => exact .joined entry hlive (not_not.mp howner) hreach a hjoin
    · exact .found entry hlive (not_not.mp howner) hreach
  | none =>
    match owner with
    | none => exact .refused _
    | some keys =>
      match hkey : keys.narrowest with
      | none =>
        simp only [hkey]
        exact .refused _
      | some key =>
        simp only [hkey]
        by_cases hbad : reach = .read ∨ id ∈ s.tombstones ∨ id.valid env r.checked = false
        · simp only [if_pos hbad]
          exact .refused _
        · simp only [if_neg hbad]
          simp only [not_or, Bool.not_eq_false] at hbad
          obtain ⟨hread, htomb, hvalid⟩ := hbad
          have hsize := (charge_pruned s keys r.displaced).size
          match hcharge : s.charge keys r.displaced with
          | (.error refusal, s') =>
            have hstore : (s.charge keys r.displaced).2 = s' := by rw [hcharge]
            have hrefusal : (s.charge keys r.displaced).1 = .error refusal := by rw [hcharge]
            rw [← hstore]
            exact .full refusal keys hrefusal
          | (.ok hold, s') =>
            have hstore : (s.charge keys r.displaced).2 = s' := by rw [hcharge]
            have hhold : (s.charge keys r.displaced).1 = .ok hold := by rw [hcharge]
            rw [← hstore]
            simp only [hsize]
            exact .created keys key hold rfl hkey hlive hread htomb hvalid hhold

/-- `reach` leaves the store alone, or locks the entries and does one of the above. -/
theorem reach_cases (env : Env) (s : Store) (text : Bytes) (owner : Option ClientKeys)
    (reach : Reach) (r : Readings) :
    (∃ refusal, s.reach env text owner reach r = (.error refusal, s)) ∨
      ∃ id, UploadId.parse env text = some id ∧
        Reached env (s.entries r) id owner reach r (s.reach env text owner reach r).1
          (s.reach env text owner reach r).2 := by
  rw [Store.reach]
  split_ifs with howner
  · exact .inl ⟨_, rfl⟩
  · match UploadId.parse env text with
    | none => exact .inl ⟨_, rfl⟩
    | some id => exact .inr ⟨id, rfl, reachLocked_cases env (s.entries r) id owner reach r⟩

/-- Asking what can be watched at most sweeps the store. -/
theorem watchable_store (env : Env) (s : Store) (text : Bytes) (owner : Option ClientKeys)
    (r : Readings) :
    (s.watchable env text owner r).2 = s ∨ (s.watchable env text owner r).2 = s.entries r := by
  rw [watchable]
  match owner.bind ClientKeys.narrowest with
  | none => exact .inl rfl
  | some narrowest =>
    match UploadId.parse env text with
    | none => exact .inl rfl
    | some id =>
      right
      simp only
      split
      · split_ifs <;> rfl
      · split_ifs <;> rfl

/-- A sweep that is asked for is made or not. -/
theorem sweep_store (s : Store) (peek : ℕ) (r : Readings) :
    s.sweep peek r = s ∨ s.sweep peek r = s.entries r := by
  rw [sweep]
  split_ifs
  · exact .inr rfl
  · exact .inl rfl

/-! ## Sizes -/

/-- A reach never takes a place of the heap back. -/
theorem Reached.size_le {env : Env} {s s' : Store} {id : UploadId} {owner : Option ClientKeys}
    {reach : Reach} {r : Readings} {res : Except Refusal ℕ} (h : Reached env s id owner reach r res s') :
    s.size ≤ s'.size := by
  cases h with
  | refused refusal => exact le_rfl
  | found entry => exact le_rfl
  | joined entry => exact le_rfl
  | full refusal keys hcharge => exact (charge_pruned s keys r.displaced).size.ge
  | created keys key hold =>
    rw [create_size, (charge_pruned s keys r.displaced).size]
    exact Nat.le_succ _

/-- A refused call makes nothing. -/
theorem Reached.size_of_error {env : Env} {s s' : Store} {id : UploadId} {owner : Option ClientKeys}
    {reach : Reach} {r : Readings} {refusal : Refusal}
    (h : Reached env s id owner reach r (.error refusal) s') : s'.size = s.size := by
  cases h with
  | refused refusal => rfl
  | full refusal keys hcharge => exact (charge_pruned s keys r.displaced).size

end Store

end GraphiteMeter.Server.Upload
