import GraphiteMeter.Server.Upload.World

/-!
# An upload ID makes one aggregate

An ID whose aggregate left the store is never used again: its tombstone is there, or the ID itself is
over. `Sound` relates the four clocks that decide this. An ID is issued before its aggregate is last
touched, so that retention ends after the ID does, and before it is displaced, so that its tombstone
does too.

`clockNow` stays at `2^64 - 1`, so that an ID issued there never ends: `created_nodup` is about a
clock that has not come so far, and `created_twice` shows the one that has.
-/

namespace GraphiteMeter.Server.Upload

open Http3 (Bytes)

/-- The IDs aggregates were made for. -/
def createdIds (log : List Event) : List UploadId :=
  log.filterMap fun
    | .created id _ => some id
    | _ => none

namespace UploadId

/-- The ID is over: its lifetime ended before `now`. -/
def Over (id : UploadId) (now : ℕ) : Prop := id.issued + idLifetime < now

/-- A valid identifier was issued and is not over. -/
theorem issued_le_of_valid {env : Env} {id : UploadId} {now : ℕ} (hclock : now < 2 ^ 64)
    (h : id.valid env now = true) : id.issued ≤ now ∧ ¬ id.Over now := by
  simp only [valid, decide_eq_true_eq, clockNow, Word.saturate_of_lt hclock] at h
  obtain ⟨age, hage, hle⟩ := (Option.any_eq_true _ _).mp h.2
  obtain ⟨hissued, rfl⟩ := Word.checkedSub_eq_some.mp hage
  rw [decide_eq_true_eq] at hle
  rw [Over]
  omega

end UploadId

namespace Store

/-- What holds of a store at `now` that made aggregates for `ids`. -/
structure Sound (s : Store) (now : ℕ) (ids : List UploadId) : Prop where
  /-- A live aggregate was touched after its ID was issued. -/
  live : ∀ id entry, s.live.lookup id = some entry →
    id.issued ≤ now ∧ id.issued ≤ (s.heap entry.aggregate).life.touched
  /-- A tombstone stays until its ID is over. -/
  tombstones : ∀ id until_, s.tombstones.lookup id = some until_ → id.issued + idLifetime ≤ until_
  /-- A used ID is live, refused or over. -/
  used : ∀ id ∈ ids, id ∈ s.live ∨ id ∈ s.tombstones ∨ id.Over now
  nodup : ids.Nodup

namespace Sound

variable {s s' : Store} {now t : ℕ} {ids : List UploadId}

/-- A store stays sound as time goes by. -/
theorem mono (h : Sound s now ids) (hle : now ≤ t) : Sound s t ids where
  live id entry hlive := ⟨(h.live id entry hlive).1.trans hle, (h.live id entry hlive).2⟩
  tombstones := h.tombstones
  used id hid := by
    refine (h.used id hid).imp_right (Or.imp_right fun hover => ?_)
    rw [UploadId.Over] at *
    omega
  nodup := h.nodup

/-- Only the maps of IDs and the times of touching matter. -/
theorem congr (h : Sound s now ids) (hlive : ∀ id, s'.live.lookup id = s.live.lookup id)
    (htomb : s'.tombstones = s.tombstones)
    (htouched : ∀ ref, (s.heap ref).life.touched ≤ (s'.heap ref).life.touched ∨
      now ≤ (s'.heap ref).life.touched) : Sound s' now ids where
  live id entry hl := by
    rw [hlive] at hl
    obtain ⟨hnow, hle⟩ := h.live id entry hl
    rcases htouched entry.aggregate with ht | ht
    · exact ⟨hnow, hle.trans ht⟩
    · exact ⟨hnow, hnow.trans ht⟩
  tombstones := by
    rw [htomb]
    exact h.tombstones
  used id hid := by
    rw [htomb, ← AList.lookup_isSome, hlive, AList.lookup_isSome]
    exact h.used id hid
  nodup := h.nodup

/-- Sweeping the entries keeps a store sound. -/
theorem sweepEntries (h : Sound s now ids) (hle : now ≤ t) : Sound (s.sweepEntries t) t ids where
  live id entry hlive := by
    have hpruned := sweepEntries_pruned s t
    rw [hpruned.touched]
    obtain ⟨hnow, htouched⟩ := h.live id entry (hpruned.live id entry hlive)
    exact ⟨hnow.trans hle, htouched⟩
  tombstones id until_ htomb := h.tombstones id until_ (AList.lookup_retain_eq_some.mp htomb).1
  used id hid := by
    by_cases hlive : id ∈ (s.sweepEntries t).live
    · exact .inl hlive
    by_cases htomb : id ∈ (s.sweepEntries t).tombstones
    · exact .inr (.inl htomb)
    refine .inr (.inr ?_)
    rw [UploadId.Over]
    rcases h.used id hid with hl | ht | hover
    · -- Retention ended, and it started after the ID was issued.
      obtain ⟨entry, hentry⟩ := AList.mem_iff_exists_lookup.mp hl
      have hswept := (touched_lt_of_swept hentry hlive).2
      have hissued := (h.live id entry hentry).2
      rw [retention] at hswept
      omega
    · obtain ⟨until_, huntil⟩ := AList.mem_iff_exists_lookup.mp ht
      exact Nat.lt_of_le_of_lt (h.tombstones id until_ huntil) (until_lt_of_swept huntil htomb)
    · rw [UploadId.Over] at hover
      omega
  nodup := h.nodup

/-- A due sweep keeps a store sound. -/
theorem entries {r : Readings} (h : Sound s now ids) (hle : now ≤ r.entered) :
    Sound (s.entries r) r.swept ids := by
  have hswept := h.sweepEntries (hle.trans r.swept_le)
  simp only [Store.entries]
  split_ifs
  · exact hswept.congr (fun _ => rfl) rfl fun _ => .inl le_rfl
  · exact h.mono (hle.trans r.swept_le)

/-- Displacing keeps a store sound. -/
theorem displace (h : Sound s now ids) (hle : now ≤ t) : Sound (s.displace t).2 t ids where
  live id entry hlive := by
    have hpruned := displace_pruned s t
    rw [hpruned.touched]
    obtain ⟨hnow, htouched⟩ := h.live id entry (hpruned.live id entry hlive)
    exact ⟨hnow.trans hle, htouched⟩
  tombstones id until_ htomb := by
    rcases lookup_tombstones_displace_cases htomb with htomb | ⟨rfl, hlive⟩
    · exact h.tombstones id until_ htomb
    · obtain ⟨entry, hentry⟩ := AList.mem_iff_exists_lookup.mp hlive
      have hissued := (h.live id entry hentry).1
      omega
  used id hid := by
    rcases h.used id hid with hlive | htomb | hover
    · by_cases hstays : id ∈ (s.displace t).2.live
      · exact .inl hstays
      · exact .inr (.inl (AList.mem_iff_exists_lookup.mpr
          ⟨_, lookup_tombstones_displace hlive hstays⟩))
    · exact .inr (.inl (mem_tombstones_displace htomb))
    · exact .inr (.inr (Nat.lt_of_lt_of_le hover hle))
  nodup := h.nodup

/-- Charging a creation keeps a store sound. -/
theorem charge (h : Sound s now ids) (keys : ClientKeys) (hle : now ≤ t) :
    Sound (s.charge keys t).2 t ids := by
  obtain ⟨before, after, heq | heq⟩ := charge_cases s keys t
  · rw [heq]
    exact (h.mono hle).congr (fun _ => rfl) rfl fun _ => .inl le_rfl
  · have hbefore : Sound { s with capacity := before } now ids :=
      h.congr (fun _ => rfl) rfl fun _ => .inl le_rfl
    rw [heq]
    exact (hbefore.displace hle).congr (fun _ => rfl) rfl fun _ => .inl le_rfl

/-- A new aggregate for an ID that no aggregate was made for. -/
theorem create {id : UploadId} {owner : ClientKey} {hold : Hold} {lanes : ℕ} (h : Sound s now ids)
    (hissued : id.issued ≤ now) (hnew : id ∉ ids) :
    Sound (s.create id owner hold lanes now) now (ids ++ [id]) where
  live id' entry hlive := by
    rcases AList.lookup_insert_of_eq_some hlive with ⟨rfl, rfl⟩ | hlive
    · refine ⟨hissued, ?_⟩
      simp only [Store.create, Function.update_self]
      exact hissued
    · obtain ⟨hnow, htouched⟩ := h.live id' entry hlive
      refine ⟨hnow, ?_⟩
      by_cases hentry : entry.aggregate = s.size
      · simp only [Store.create, hentry, Function.update_self]
        exact hnow
      · simp only [Store.create, Function.update_of_ne hentry]
        exact htouched
  tombstones := h.tombstones
  used id' hid' := by
    simp only [Store.create, AList.mem_insert]
    rcases List.mem_append.mp hid' with hid' | hid'
    · exact (h.used id' hid').imp_left .inr
    · exact .inl (.inl (List.mem_singleton.mp hid'))
  nodup := by
    refine h.nodup.append (List.nodup_singleton id) ?_
    rw [List.disjoint_singleton]
    exact hnew

/-- **What `reach` keeps.** An aggregate is made only for an ID that none was made for. -/
theorem reached {env : Env} {id : UploadId} {owner : Option ClientKeys} {reach : Reach}
    {r : Readings} {res : Except Refusal ℕ} (h : Sound s r.swept ids)
    (hclock : r.touched < 2 ^ 64) (hreach : Reached env s id owner reach r res s') :
    Sound s' r.touched (ids ++ if s.size < s'.size then [id] else []) := by
  have hdisplaced := r.checked_le.trans r.displaced_le
  have htouched := hdisplaced.trans r.touched_le
  cases hreach with
  | refused refusal =>
    rw [if_neg (Nat.lt_irrefl _), List.append_nil]
    exact h.mono htouched
  | found entry hlive howner hne =>
    rw [if_neg (Nat.lt_irrefl _), List.append_nil]
    exact h.mono htouched
  | joined entry hlive howner heq a hjoin =>
    rw [set_size, if_neg (Nat.lt_irrefl _), List.append_nil]
    refine (h.mono htouched).congr (fun _ => rfl) rfl fun ref => ?_
    by_cases href : ref = entry.aggregate
    · subst href
      rw [(Aggregate.join_eq_ok hjoin).2]
      simp only [Store.set, Function.update_self]
      exact .inr le_rfl
    · simp only [Store.set, Function.update_of_ne href]
      exact .inl le_rfl
  | full refusal keys hcharge =>
    rw [if_neg (charge_pruned s keys r.displaced).size.not_gt, List.append_nil]
    exact (h.charge keys hdisplaced).mono r.touched_le
  | created keys key hold howner hkey hlive hne htomb hvalid hhold =>
    have hsize := (charge_pruned s keys r.displaced).size
    rw [create_size, hsize, if_pos (Nat.lt_succ_self _)]
    have hchecked : r.checked < 2 ^ 64 :=
      Nat.lt_of_le_of_lt (r.displaced_le.trans r.touched_le) hclock
    obtain ⟨hissued, hover⟩ := UploadId.issued_le_of_valid hchecked hvalid
    have hissued' : id.issued ≤ r.touched := hissued.trans (r.displaced_le.trans r.touched_le)
    refine ((h.charge keys hdisplaced).mono r.touched_le).create hissued' fun hid => ?_
    -- A used ID would be live, refused or over, and this one is none of them.
    rcases h.used id hid with hl | ht | ho
    · rw [← AList.lookup_isSome, hlive] at hl
      cases hl
    · exact htomb ht
    · exact hover (Nat.lt_of_lt_of_le ho r.checked_le)

end Sound

end Store

/-! ## Runs -/

/-- A longer log created what each part of it did. -/
theorem createdIds_append (log events : List Event) :
    createdIds (log ++ events) = createdIds log ++ createdIds events := List.filterMap_append

/-- A call creates its own upload, or none. -/
theorem createdIds_created {env : Env} {text : Bytes} {id : UploadId} {s s' : Store}
    (hid : UploadId.parse env text = some id) :
    createdIds (World.created env text s s') = if s.size < s'.size then [id] else [] := by
  rw [World.created, hid]
  split_ifs
  · rfl
  · rfl

/-- A refused call made no aggregate. -/
theorem created_of_error {env : Env} {text : Bytes} {owner : Option ClientKeys} {reach : Reach}
    {r : Readings} {s s' : Store} {refusal : Refusal}
    (h : s.reach env text owner reach r = (.error refusal, s')) :
    World.created env text s s' = [] := by
  rw [World.created, if_neg]
  rcases Store.reach_cases env s text owner reach r with ⟨refusal, heq⟩ | ⟨id, hid, hreached⟩
  · rw [h] at heq
    cases heq
    exact Nat.lt_irrefl _
  · rw [h] at hreached
    rw [hreached.size_of_error, (Store.entries_pruned s r).size]
    exact Nat.lt_irrefl _

/-- What a run keeps, as long as the clock has not come to its end. -/
def World.Sound (log : List Event) (w : World) : Prop :=
  w.now < 2 ^ 64 → w.store.Sound w.now (createdIds log)

namespace World

variable {env : Env} {w w' : World} {log events : List Event}

/-- A call through `reach` keeps it, whatever it logs besides the aggregate it made. -/
theorem Sound.reach (h : Sound log w) (env : Env) (text : Bytes) (owner : Option ClientKeys) (reach : Reach)
    (r : Readings) (hle : w.now ≤ r.entered) (hclock : r.touched < 2 ^ 64) :
    (w.store.reach env text owner reach r).2.Sound r.touched
      (createdIds (log ++ created env text w.store (w.store.reach env text owner reach r).2)) := by
  have htouched : r.entered ≤ r.touched :=
    r.swept_le.trans (r.checked_le.trans (r.displaced_le.trans r.touched_le))
  have hstore := h (Nat.lt_of_le_of_lt (hle.trans htouched) hclock)
  rw [createdIds_append]
  rcases Store.reach_cases env w.store text owner reach r with ⟨refusal, heq⟩ | ⟨id, hid, hreached⟩
  · rw [heq, World.created, if_neg (Nat.lt_irrefl _)]
    simp only [createdIds, List.filterMap_nil, List.append_nil]
    exact hstore.mono (hle.trans htouched)
  · have hsound := (hstore.entries hle).reached hclock hreached
    rw [(Store.entries_pruned w.store r).size] at hsound
    rw [createdIds_created hid]
    exact hsound

/-- The store that a call works on is sound when it works. -/
theorem Sound.section {store : Store} (h : Sound log w) (r : Readings) (hle : w.now ≤ r.entered)
    (hclock : r.touched < 2 ^ 64) (hstore : store = w.store ∨ store = w.store.entries r) :
    store.Sound r.touched (createdIds log) := by
  have hswept : r.swept ≤ r.touched := r.checked_le.trans (r.displaced_le.trans r.touched_le)
  have hsound := h (Nat.lt_of_le_of_lt (hle.trans (r.swept_le.trans hswept)) hclock)
  rcases hstore with rfl | rfl
  · exact hsound.mono (hle.trans (r.swept_le.trans hswept))
  · exact (hsound.entries hle).mono hswept

/-- Changing one aggregate keeps it, unless it is touched earlier than it was. -/
theorem Sound.set {ref : ℕ} {a : Aggregate} (h : Sound log w)
    (htouched : (w.store.heap ref).life.touched ≤ a.life.touched) (hclock : w.now < 2 ^ 64) :
    (w.store.set ref a).Sound w.now (createdIds log) := by
  refine (h hclock).congr (fun _ => rfl) rfl fun ref' => .inl ?_
  by_cases href : ref' = ref
  · subst href
    simp only [Store.set, Function.update_self]
    exact htouched
  · simp only [Store.set, Function.update_of_ne href]
    exact le_rfl

/-- **One step** keeps a world sound. -/
theorem step_sound {a : Action} (h : Sound log w) (hstep : w.step env a = some (w', events)) :
    Sound (log ++ events) w' := by
  intro hclock
  cases step_cases hstep with
  | minted id =>
    rw [createdIds_append]
    simpa [createdIds] using h hclock
  | entered store r hle hstore =>
    rw [List.append_nil]
    exact h.section r hle hclock hstore
  | refused text owner reach r refusal store hle hreach =>
    have hsound := h.reach env text owner reach r hle hclock
    rw [hreach, created_of_error hreach] at hsound
    exact hsound
  | began text owner r ref store hle hreach =>
    have hsound := h.reach env text owner .join r hle hclock
    rw [hreach] at hsound
    rw [← List.append_assoc, createdIds_append]
    simpa [createdIds] using hsound
  | called call text owner r ref store hle hreach =>
    have hsound := h.reach env text owner call.reach r hle hclock
    rw [hreach] at hsound
    exact hsound
  | proceeded i call ref now hcall =>
    cases call with
    | finish =>
      rw [proceed, List.append_nil]
      refine h.set ?_ hclock
      rw [Aggregate.finalize]
      split_ifs <;> exact le_rfl
    | checkpoint =>
      rw [proceed, createdIds_append]
      simpa [createdIds] using h hclock
    | subscribe =>
      rw [proceed, List.append_nil]
      exact h.set le_rfl hclock
  | recorded i sink bytes now hsink hbytes =>
    rw [List.append_nil]
    exact h.set le_rfl hclock
  | added i sink bytes hsink =>
    rw [createdIds_append]
    simp only [createdIds, List.filterMap_cons, List.filterMap_nil, List.append_nil]
    exact h.set le_rfl hclock
  | dropped i sink now a hsink htouched hleave =>
    rw [List.append_nil]
    refine h.set ?_ hclock
    -- the lane's leaving is told a time that is not before the last touch
    rw [(Aggregate.leave_eq_some hleave).2]
    exact htouched
  | fed i feed ticked now hfeed =>
    have hnone : createdIds (((feed.next (w.store.heap feed.aggregate) ticked now).1.toList.map
        (Event.line feed.aggregate))) = [] := by
      cases (feed.next (w.store.heap feed.aggregate) ticked now).1 <;> rfl
    rw [createdIds_append, hnone, List.append_nil]
    exact h hclock
  | rehashed live hperm =>
    rw [List.append_nil]
    refine (h hclock).congr (fun id => AList.perm_lookup hperm) rfl fun _ => .inl le_rfl

/-- A new world is sound. -/
theorem new_sound : Sound [] new := by
  intro _
  refine ⟨fun id entry h => ?_, fun id until_ h => ?_, fun id h => ?_, List.nodup_nil⟩
  · cases h
  · cases h
  · cases h

/-- **An ID makes one aggregate**, over every run whose clock has not come to its end. One that left
the store is refused as long as its tombstone is there, and no longer valid after that. -/
theorem created_nodup {actions : List Action}
    (hrun : Machine.run (step env) new actions = some (w, log)) (hclock : w.now < 2 ^ 64) :
    (createdIds log).Nodup ∧
      ∀ id ∈ createdIds log, id ∉ w.store.live → id ∈ w.store.tombstones ∨
        ∀ t, w.now ≤ t → t < 2 ^ 64 → id.valid env t = false := by
  have hsound := Machine.run_induct Sound (fun _ _ _ _ _ h hstep => step_sound h hstep) new_sound hrun
  rw [List.nil_append] at hsound
  refine ⟨(hsound hclock).nodup, fun id hid hgone => ?_⟩
  rcases (hsound hclock).used id hid with hlive | htomb | hover
  · exact absurd hlive hgone
  · exact .inl htomb
  · refine .inr fun t hle ht => ?_
    rw [← Bool.not_eq_true]
    intro hvalid
    exact (UploadId.issued_le_of_valid ht hvalid).2 (Nat.lt_of_lt_of_le hover hle)

/-! ## One ID, twice -/

/-- The ID it mints once its clock stands at `2^64 - 1`. -/
def lastId : Bytes :=
  List.replicate 8 0xff ++ List.replicate 16 0 ++
    [0x85, 0xb9, 0x81, 0x8f, 0xd1, 0x5a, 0x82, 0x2f, 0x08, 0xe7, 0xc5, 0x6b, 0x7d, 0x69, 0xda, 0x4b,
     0x77, 0x74, 0xab, 0x44, 0x30, 0xc7, 0x52, 0xaf, 0x47, 0x9c, 0xde, 0x04, 0x42, 0xcf, 0xc6, 0x4e]

def lastText : Bytes :=
  "gmu___________8AAAAAAAAAAAAAAAAAAAAAhbmBj9Fagi8I58VrfWnaS3d0q0Qwx1KvR5zeBELPxk4".toUTF8.toList

/-- A lane joins at `start` and leaves; three minutes later another asks for the same ID. -/
def again (text : Bytes) (start : ℕ) : List Action :=
  [.mint start (List.replicate 16 0) List.length_replicate,
   .begin text (some (.v4 1)) (.still start),
   .drop 0 start,
   .begin text (some (.v4 1)) (.still (start + 180 * 10 ^ 9))]

/-- At the start of a store the second lane is refused. -/
theorem created_nodup_first :
    ∃ w log, Machine.run (step (oneId firstId firstText (by decide))) new (again firstText 0)
        = some (w, log) ∧ w.now < 2 ^ 64 ∧ createdIds log = [⟨firstId, by decide⟩] ∧
      (createdIds log).Nodup := by
  have heval : (Machine.run (step (oneId firstId firstText (by decide))) new
      (again firstText 0)).map (fun end_ => (end_.1.now, createdIds end_.2))
        = some (180 * 10 ^ 9, [⟨firstId, by decide⟩]) := by
    decide +kernel
  obtain ⟨⟨w, log⟩, hrun, hend⟩ := Option.map_eq_some_iff.mp heval
  simp only [Prod.mk.injEq] at hend
  have hclock : w.now < 2 ^ 64 := by omega
  exact ⟨w, log, hrun, hclock, hend.2, (created_nodup hrun hclock).1⟩

/-- A clock that stands at its end ages no ID: the second lane makes a second aggregate. -/
theorem created_twice :
    ∃ w log, Machine.run (step (oneId lastId lastText (by decide))) new (again lastText (2 ^ 64 - 1))
        = some (w, log) ∧ ¬ (createdIds log).Nodup := by
  have heval : (Machine.run (step (oneId lastId lastText (by decide))) new
      (again lastText (2 ^ 64 - 1))).map (fun end_ => createdIds end_.2)
        = some [⟨lastId, by decide⟩, ⟨lastId, by decide⟩] := by
    decide +kernel
  obtain ⟨⟨w, log⟩, hrun, hend⟩ := Option.map_eq_some_iff.mp heval
  refine ⟨w, log, hrun, ?_⟩
  simp only at hend
  rw [hend]
  simp

end World

end GraphiteMeter.Server.Upload
