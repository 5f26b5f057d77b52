import GraphiteMeter.Server.Upload.Capacity
import GraphiteMeter.Server.Upload.Completion

/-!
# Displacement, look by look

Reference: `rust/server/src/engine/uploads.rs` (`Entries::displace`, `Uploads::capacity`),
`api/upload.md`.

`World` displaces in one action. `displace` keeps the entries locked, but looks at the aggregates one
after another, each with its `life` locked, and unlocks the stalest before it expires it. A `Site` takes
a displacement in moves: the call finds the total full, looks at one entry after another, and then
expires the stalest empty one and makes its own. What does not lock the entries may come in between: a
finish that had reached its aggregate, or a lane that leaves.

`run_alone` says that with nothing in between the moves come to the one action. `step_sound` is what a
move keeps where nothing that comes in between spoils the choice.
-/

namespace GraphiteMeter.Server.Upload

open Http3 (Bytes)

/-! ## The moves -/

/-- A call that displaces, with the entries locked. -/
structure Displacement where
  /-- A lane's `begin`, or a feed's `subscribe`. -/
  reach : Reach
  id : UploadId
  owner : ClientKey
  keys : ClientKeys
  r : Readings
  /-- Entries it has not looked at. -/
  rest : List ((_ : UploadId) × Entry)
  /-- The stalest empty one it saw, and when that was touched. -/
  stalest : Option (ℕ × ((_ : UploadId) × Entry))
  /-- Aggregates that a finish or a departing lane came to meanwhile. Only statements read these. -/
  finished : List ℕ
  left : List ℕ

namespace Displacement

/-- `reach` to where `displace` begins to look: the quota refuses the total, and a tombstone has
room. -/
def start (env : Env) (s : Store) (text : Bytes) (owner : Option ClientKeys) (reach : Reach)
    (r : Readings) : Option (Store × Displacement) :=
  match UploadId.parse env text, owner with
  | some id, some keys =>
    match keys.narrowest with
    | none => none
    | some owner =>
      let s := s.entries r
      if reach = .read ∨ id ∈ s.live ∨ id ∈ s.tombstones ∨ id.valid env r.checked = false then none
      else
        match s.capacity.acquire keys.charged 1 with
        | (.error .total, quota) =>
          if maxLive ≤ s.tombstones.len then none
          else some ({ s with capacity := quota },
            ⟨reach, id, owner, keys, r, s.live.entries, none, [], []⟩)
        | _ => none
  | _, _ => none

/-- The stalest empty entry once `e` is looked at. Of two touched at once the first is the stalest. -/
def see (s : Store) (stalest : Option (ℕ × ((_ : UploadId) × Entry))) (e : (_ : UploadId) × Entry) :
    Option (ℕ × ((_ : UploadId) × Entry)) :=
  let touched := (s.heap e.2.aggregate).life.touched
  if s.empty e.2 ∧ stalest.all (fun best => touched < best.1) then some (touched, e) else stalest

/-- Looks at the next entry. -/
def look (d : Displacement) (s : Store) : Option Displacement :=
  match d.rest with
  | [] => none
  | e :: rest => some { d with rest, stalest := see s d.stalest e }

/-- Remembers who came meanwhile. -/
def note (d : Displacement) (w : World) : Action → Displacement
  | .proceed i _ =>
    match w.calls[i]? with
    | some (.finish, ref) => { d with finished := ref :: d.finished }
    | _ => d
  | .drop i _ => { d with left := (w.sinks[i]?.map (·.aggregate)).toList ++ d.left }
  | _ => d

/-- The rest of the call: it expires the stalest, and makes its own aggregate. -/
def make (d : Displacement) (w : World) : World × List Event :=
  match d.stalest with
  | none => ({ w with now := d.r.touched }, [])
  | some (_, ⟨id, entry⟩) =>
    let s := w.store.buried id entry d.r.displaced (w.store.capacity.release entry.capacity)
    match s.capacity.acquire d.keys.charged 1 with
    | (.error _, quota) => ({ w with store := { s with capacity := quota }, now := d.r.touched }, [])
    | (.ok hold, quota) =>
      let made := Store.create { s with capacity := quota } d.id d.owner hold
        (if d.reach = .join then 1 else 0) d.r.touched
      if d.reach = .join then
        ({ w with store := made, sinks := w.sinks ++ [⟨s.size, 0, none⟩], now := d.r.touched },
          [.created d.id s.size, .joined s.size])
      else
        ({ w with store := made, calls := w.calls ++ [(.subscribe, s.size)], now := d.r.touched },
          [.created d.id s.size])

end Displacement

/-- Uploads at work, and the displacement in progress. -/
structure Site where
  world : World
  displacing : Option Displacement

inductive Move where
  /-- While a call displaces, only what does not lock the entries. -/
  | act (a : Action)
  | displace (text : Bytes) (owner : Option ClientKeys) (reach : Reach) (r : Readings)
  | look
  | make

namespace Site

def new : Site := ⟨.new, none⟩

def step (env : Env) (s : Site) : Move → Option (Site × List Event)
  | .act a =>
    if s.displacing.isSome ∧ World.locks a then none
    else
      (s.world.step env a).map fun (world, events) =>
        (⟨world, s.displacing.map (·.note s.world a)⟩, events)
  | .displace text owner reach r =>
    if s.displacing.isNone ∧ s.world.now ≤ r.entered then
      (Displacement.start env s.world.store text owner reach r).map fun (store, d) =>
        (⟨{ s.world with store }, some d⟩, [])
    else none
  | .look =>
    (s.displacing.bind (·.look s.world.store)).map fun d => ({ s with displacing := some d }, [])
  | .make =>
    match s.displacing with
    | none => none
    | some d =>
      if d.rest = [] then
        let (world, events) := d.make s.world
        some (⟨world, none⟩, events)
      else none

/-- Neither a finish nor a departing lane spoiled the choice of a displacement that is about to be made:
no finish came to the stalest aggregate, and no lane left another one empty that was touched before. -/
def Clear (s : Site) : Move → Prop
  | .make => ∀ d ∈ s.displacing, ∀ best ∈ d.stalest,
    best.2.2.aggregate ∉ d.finished ∧ ∀ ref ∈ d.left,
      (s.world.store.heap ref).life.lanes = 0 → (s.world.store.heap ref).life.phase = .open →
      (s.world.store.heap ref).bytes = 0 → best.1 ≤ (s.world.store.heap ref).life.touched
  | _ => True

end Site

/-! ## With nothing between its moves -/

namespace Displacement

variable {env : Env} {s s' : Store} {d : Displacement}

/-- Everything `start` asks before the first look. -/
theorem start_cases {text : Bytes} {owner : Option ClientKeys} {reach : Reach} {r : Readings}
    (hstart : start env s text owner reach r = some (s', d)) :
    ∃ id key keys quota, UploadId.parse env text = some id ∧ owner = some keys ∧
      keys.narrowest = some key ∧
      ¬ (reach = .read ∨ id ∈ (s.entries r).live ∨ id ∈ (s.entries r).tombstones ∨
        id.valid env r.checked = false) ∧
      (s.entries r).capacity.acquire keys.charged 1 = (.error .total, quota) ∧
      (s.entries r).tombstones.len < maxLive ∧ s' = { s.entries r with capacity := quota } ∧
      d = ⟨reach, id, key, keys, r, (s.entries r).live.entries, none, [], []⟩ := by
  unfold start at hstart
  split at hstart
  case h_2 => cases hstart
  case h_1 id keys hid =>
    split at hstart
    case h_1 => cases hstart
    case h_2 key hkey =>
      simp only at hstart
      by_cases hbad : reach = .read ∨ id ∈ (s.entries r).live ∨ id ∈ (s.entries r).tombstones ∨
          id.valid env r.checked = false
      · rw [if_pos hbad] at hstart
        cases hstart
      rw [if_neg hbad] at hstart
      match hacquire : (s.entries r).capacity.acquire keys.charged 1 with
      | (.ok hold, quota) | (.error .client, quota) =>
        rw [hacquire] at hstart
        cases hstart
      | (.error .total, quota) =>
        simp only [hacquire] at hstart
        split_ifs at hstart with hroom
        cases hstart
        exact ⟨id, key, keys, quota, hid, rfl, hkey, hbad, hacquire, not_le.mp hroom, rfl, rfl⟩

/-- Where it asks all that, the looks begin. -/
theorem start_eq {text : Bytes} {id : UploadId} {key : ClientKey} {keys : ClientKeys} {reach : Reach}
    {r : Readings} {quota : Quota} (hid : UploadId.parse env text = some id)
    (hkey : keys.narrowest = some key)
    (hgood : ¬ (reach = .read ∨ id ∈ (s.entries r).live ∨ id ∈ (s.entries r).tombstones ∨
      id.valid env r.checked = false))
    (hacquire : (s.entries r).capacity.acquire keys.charged 1 = (.error .total, quota))
    (hroom : (s.entries r).tombstones.len < maxLive) :
    start env s text (some keys) reach r = some ({ s.entries r with capacity := quota },
      ⟨reach, id, key, keys, r, (s.entries r).live.entries, none, [], []⟩) := by
  simp only [start, hid, hkey, if_neg hgood, hacquire, if_neg hroom.not_ge]

/-- Looked at one after another, the entries show the victim. -/
theorem foldl_see (s : Store) :
    s.live.entries.foldl (see s) none =
      s.victim.map fun e => ((s.heap e.2.aggregate).life.touched, e) := by
  let keep (e : (_ : UploadId) × Entry) : ℕ × ((_ : UploadId) × Entry) :=
    ((s.heap e.2.aggregate).life.touched, e)
  rw [Store.victim, List.argmin, List.foldl_filter]
  show List.foldl (see s) (Option.map keep none) s.live.entries = _
  refine List.foldl_hom (Option.map keep) fun stalest e => ?_
  by_cases hempty : s.empty e.2 = true
  · cases stalest with
    | none => simp [see, hempty, List.argAux, keep]
    | some best =>
      by_cases hlt : (s.heap e.2.aggregate).life.touched < (s.heap best.2.aggregate).life.touched
      · simp [see, hempty, List.argAux, keep, hlt]
      · simp [see, hempty, List.argAux, keep, hlt]
  · simp [see, hempty]

end Displacement

namespace Store

variable {env : Env} {s s' : Store} {text : Bytes} {id : UploadId} {keys : ClientKeys} {key : ClientKey}
  {reach : Reach} {r : Readings}

/-- A call for a new aggregate, once its capacity is refused. -/
theorem reach_of_refused {refusal : Refusal} (hid : UploadId.parse env text = some id)
    (hkey : keys.narrowest = some key)
    (hgood : ¬ (reach = .read ∨ id ∈ (s.entries r).live ∨ id ∈ (s.entries r).tombstones ∨
      id.valid env r.checked = false))
    (hcharge : (s.entries r).charge keys r.displaced = (.error refusal, s')) :
    s.reach env text (some keys) reach r = (.error refusal, s') := by
  simp only [not_or] at hgood
  obtain ⟨hread, hlive, htomb, hvalid⟩ := hgood
  have hlookup : (s.entries r).live.lookup id = none := AList.lookup_eq_none.mpr hlive
  simp [Store.reach, reachLocked, hid, hkey, hlookup, hread, htomb, hvalid, hcharge]

/-- The same, once it is granted. -/
theorem reach_of_granted {hold : Hold} (hid : UploadId.parse env text = some id)
    (hkey : keys.narrowest = some key)
    (hgood : ¬ (reach = .read ∨ id ∈ (s.entries r).live ∨ id ∈ (s.entries r).tombstones ∨
      id.valid env r.checked = false))
    (hcharge : (s.entries r).charge keys r.displaced = (.ok hold, s')) :
    s.reach env text (some keys) reach r =
      (.ok s'.size, s'.create id key hold (if reach = .join then 1 else 0) r.touched) := by
  simp only [not_or] at hgood
  obtain ⟨hread, hlive, htomb, hvalid⟩ := hgood
  have hlookup : (s.entries r).live.lookup id = none := AList.lookup_eq_none.mpr hlive
  simp [Store.reach, reachLocked, hid, hkey, hlookup, hread, htomb, hvalid, hcharge]

end Store

namespace Site

variable {env : Env} {w : World}

/-- A call that finds the store full begins a displacement. -/
theorem step_displace {text : Bytes} {owner : Option ClientKeys} {reach : Reach} {r : Readings}
    {store : Store} {d : Displacement} (hle : w.now ≤ r.entered)
    (hstart : Displacement.start env w.store text owner reach r = some (store, d)) :
    step env ⟨w, none⟩ (.displace text owner reach r) = some (⟨{ w with store }, some d⟩, []) := by
  simp only [step, Option.isNone_none, true_and, if_pos hle, hstart, Option.map_some]

/-- A displacement that has looked at every entry is made. -/
theorem step_make {d : Displacement} (hrest : d.rest = []) :
    step env ⟨w, some d⟩ .make = some (⟨(d.make w).1, none⟩, (d.make w).2) := by
  simp only [step, hrest, if_true]

/-- All the looks of a displacement, with nothing between them. -/
theorem run_looks (w : World) (d : Displacement) :
    Machine.run (step env) ⟨w, some d⟩ (List.replicate d.rest.length .look) =
      some (⟨w, some { d with
        rest := [], stalest := d.rest.foldl (Displacement.see w.store) d.stalest }⟩, []) := by
  obtain ⟨reach, id, owner, keys, r, rest, stalest, finished, left⟩ := d
  induction rest generalizing stalest with
  | nil => rfl
  | cons e rest ih =>
    exact Machine.run_cons_iff.mpr ⟨_, [], [], rfl, ih _, rfl⟩

/-- **With nothing between its moves, a displacement is one action** of a lane's `begin` or a feed's
`subscribe`. -/
theorem run_alone {text : Bytes} {owner : Option ClientKeys} {reach : Reach} {r : Readings}
    {store : Store} {d : Displacement} (hle : w.now ≤ r.entered)
    (hstart : Displacement.start env w.store text owner reach r = some (store, d)) :
    ∃ w' events,
      Machine.run (step env) ⟨w, none⟩
        (.displace text owner reach r :: (List.replicate d.rest.length .look ++ [.make])) =
          some (⟨w', none⟩, events) ∧
      w.step env (if reach = .join then .begin text owner r else .call .subscribe text owner r) =
        some (w', events) := by
  refine ⟨_, _, Machine.run_cons_iff.mpr ⟨_, [], _, step_displace hle hstart,
    Machine.run_append (run_looks _ d) (Machine.run_singleton rfl), rfl⟩, ?_⟩
  rw [List.nil_append]
  obtain ⟨id, key, keys, quota, hid, rfl, hkey, hgood, hacquire, hroom, rfl, rfl⟩ :=
    Displacement.start_cases hstart
  have hsize := (w.store.entries_pruned r).size
  have hread : reach ≠ .read := fun heq => hgood (.inl heq)
  have hsee := Displacement.foldl_see { w.store.entries r with capacity := quota }
  cases hvictim : Store.victim { w.store.entries r with capacity := quota } with
  | none =>
    rw [hvictim] at hsee
    have hcharge : (w.store.entries r).charge keys r.displaced =
        (.error .serverCapacity, { w.store.entries r with capacity := quota }) := by
      simp [Store.charge, hacquire, Store.displace, hroom.not_ge, hvictim, Refusal.ofFull]
    have hreach := Store.reach_of_refused hid hkey hgood hcharge
    simp only [hsee, Option.map_none, List.nil_append]
    cases reach with
    | read => exact absurd rfl hread
    | join => simp [World.step, hle, hreach]
    | watch => simp [World.step, hle, Call.reach, hreach]
  | some best =>
    obtain ⟨victim, entry⟩ := best
    rw [hvictim] at hsee
    simp only [hsee, Option.map_some, List.nil_append]
    rcases hagain : (quota.release entry.capacity).acquire keys.charged 1 with ⟨full | hold, after⟩
    · have hcharge : (w.store.entries r).charge keys r.displaced =
          (.error (Refusal.ofFull full),
            (w.store.entries r).buried victim entry r.displaced after) := by
        simp [Store.charge, hacquire, Store.displace, hroom.not_ge, hvictim, hagain, Store.buried]
      have hreach := Store.reach_of_refused hid hkey hgood hcharge
      simp only [Store.buried] at hreach ⊢
      cases reach with
      | read => exact absurd rfl hread
      | join => simp [World.step, hle, hreach, hagain]
      | watch => simp [World.step, hle, Call.reach, hreach, hagain]
    · have hcharge : (w.store.entries r).charge keys r.displaced =
          (.ok hold, (w.store.entries r).buried victim entry r.displaced after) := by
        simp [Store.charge, hacquire, Store.displace, hroom.not_ge, hvictim, hagain, Store.buried]
      have hreach := Store.reach_of_granted hid hkey hgood hcharge
      simp only [Store.buried] at hreach ⊢
      cases reach with
      | read => exact absurd rfl hread
      | join => simp [World.step, hle, hreach, hagain, World.created, hsize, hid]
      | watch => simp [World.step, hle, Call.reach, hreach, hagain, World.created, hsize, hid]

end Site

/-! ## What a displacement knows -/

/-- What a look at an entry leaves true: a lane left it, or it is not empty, or the stalest one is no
younger. -/
def Displacement.Seen (d : Displacement) (s : Store) (ref : ℕ) : Prop :=
  ref ∈ d.left ∨ 0 < (s.heap ref).life.lanes ∨
    ((s.heap ref).life.phase ≠ .open ∨ (s.heap ref).bytes ≠ 0) ∨
    ∃ best ∈ d.stalest, best.1 ≤ (s.heap ref).life.touched

/-- The stalest is as it was looked at, but for a finish. -/
structure Displacement.Holds (d : Displacement) (s : Store) (best : ℕ × ((_ : UploadId) × Entry)) :
    Prop where
  lanes : (s.heap best.2.2.aggregate).life.lanes = 0
  bytes : (s.heap best.2.2.aggregate).bytes = 0
  touched : (s.heap best.2.2.aggregate).life.touched = best.1
  phase : (s.heap best.2.2.aggregate).life.phase = .open ∨ best.2.2.aggregate ∈ d.finished

/-- What holds between the moves of a displacement. -/
structure Displacement.Sound (d : Displacement) (s : Store) : Prop where
  live : d.id ∉ s.live
  tombstone : d.id ∉ s.tombstones
  room : s.tombstones.len < maxLive
  /-- The total was refused. -/
  refused : ∃ quota : Quota, quota.Capped s.holds ∧
    quota.acquire d.keys.charged 1 = (.error .total, s.capacity)
  looked : ∃ looked, s.live.entries = looked ++ d.rest ∧
    (∀ e ∈ looked, d.Seen s e.2.aggregate) ∧ ∀ best ∈ d.stalest, best.2 ∈ looked
  stalest : ∀ best ∈ d.stalest, d.Holds s best

namespace Displacement

variable {env : Env} {w w' : World} {log events : List Event} {d d' : Displacement} {s s' : Store}

/-- A displacement begins sound. -/
theorem start_sound {text : Bytes} {owner : Option ClientKeys} {reach : Reach} {r : Readings}
    (h : s.Accounted) (hstart : start env s text owner reach r = some (s', d)) :
    (∃ quota : Quota, quota.Capped (s.entries r).holds ∧ s' = { s.entries r with capacity := quota }) ∧
      d.Sound s' := by
  obtain ⟨id, key, keys, quota, -, rfl, -, hgood, hacquire, hroom, rfl, rfl⟩ := start_cases hstart
  simp only [not_or] at hgood
  have hentries := h.entries r
  have hcapped := hentries.capped.refused hacquire
  refine ⟨⟨quota, hcapped, rfl⟩, ?_⟩
  refine ⟨hgood.2.1, hgood.2.2.1, hroom, ⟨_, hentries.capped, hacquire⟩, ?_, nofun⟩
  exact ⟨[], rfl, nofun, nofun⟩

/-- One look. -/
theorem look_sound (h : d.Sound s) (hlook : d.look s = some d') : d'.Sound s := by
  obtain ⟨looked, hentries, hseen, hstalest⟩ := h.looked
  unfold look at hlook
  split at hlook
  case h_1 => cases hlook
  case h_2 e rest hrest =>
    cases hlook
    rw [hrest, List.append_cons] at hentries
    by_cases htake : s.empty e.2 = true ∧
        d.stalest.all (fun best => (s.heap e.2.aggregate).life.touched < best.1) = true
    · simp only [see, if_pos htake]
      obtain ⟨hempty, hyounger⟩ := htake
      obtain ⟨hlanes, hphase, hbytes⟩ := Store.empty_iff.mp hempty
      simp only [Option.all_eq_true, decide_eq_true_eq] at hyounger
      refine { h with looked := ⟨looked ++ [e], hentries, fun e' he' => ?_, ?_⟩, stalest := ?_ }
      · rcases List.mem_append.mp he' with he' | he'
        · -- the one that was the stalest is younger
          rcases hseen e' he' with hleft | hlanes | hkept | ⟨best, hbest, hle⟩
          · exact .inl hleft
          · exact .inr (.inl hlanes)
          · exact .inr (.inr (.inl hkept))
          · exact .inr (.inr (.inr ⟨_, rfl, (hyounger best hbest).le.trans hle⟩))
        · rw [List.mem_singleton.mp he']
          exact .inr (.inr (.inr ⟨_, rfl, le_rfl⟩))
      · rintro best ⟨⟩
        exact List.mem_append_right _ List.mem_cons_self
      · rintro best ⟨⟩
        exact ⟨hlanes, hbytes, rfl, .inl hphase⟩
    · simp only [see, if_neg htake]
      refine { h with
        looked := ⟨looked ++ [e], hentries, fun e' he' => ?_, fun best hbest =>
          List.mem_append_left _ (hstalest best hbest)⟩
        stalest := fun best hbest =>
          let hbest := h.stalest best hbest
          ⟨hbest.lanes, hbest.bytes, hbest.touched, hbest.phase⟩ }
      · rcases List.mem_append.mp he' with he' | he'
        · exact hseen e' he'
        · rw [List.mem_singleton.mp he']
          by_cases hempty : s.empty e.2 = true
          · simp only [hempty, true_and, Option.all_eq_true, decide_eq_true_eq, not_forall, not_lt]
              at htake
            obtain ⟨best, hbest, hle⟩ := htake
            exact .inr (.inr (.inr ⟨best, hbest, hle⟩))
          · rw [Store.empty_iff] at hempty
            by_cases hlanes : (s.heap e.2.aggregate).life.lanes = 0
            · exact .inr (.inr (.inl (by tauto)))
            · exact .inr (.inl (by omega))

/-! ### What comes between -/

/-- What an action without the entries lock leaves of an aggregate. -/
structure Kept (d : Displacement) (ref : ℕ) (a a' : Aggregate) : Prop where
  life : ref ∈ d.left ∨ a'.life.lanes = a.life.lanes ∧ a'.life.touched = a.life.touched
  idle : a.life.lanes = 0 →
    a'.life.lanes = 0 ∧ a'.life.touched = a.life.touched ∧ a'.bytes = a.bytes
  phase : a'.life.phase = a.life.phase ∨ a'.life.phase ≠ .open ∧ ref ∈ d.finished

/-- An aggregate that does not change is kept. -/
theorem Kept.refl (d : Displacement) (ref : ℕ) (a : Aggregate) : d.Kept ref a a :=
  ⟨.inr ⟨rfl, rfl⟩, fun h => ⟨h, rfl, rfl⟩, .inl rfl⟩

/-- Only who came is remembered. -/
theorem note_eq (d : Displacement) (w : World) (a : Action) :
    ∃ finished left, d.note w a = { d with finished, left } ∧ d.finished ⊆ finished ∧ d.left ⊆ left := by
  unfold note
  split
  · split
    · exact ⟨_, _, rfl, List.subset_cons_self _ _, List.Subset.refl _⟩
    · exact ⟨_, _, rfl, List.Subset.refl _, List.Subset.refl _⟩
  · exact ⟨_, _, rfl, List.Subset.refl _, List.subset_append_right _ _⟩
  · exact ⟨_, _, rfl, List.Subset.refl _, List.Subset.refl _⟩

/-- **A step of the others** keeps an aggregate, or is noted. -/
theorem note_kept {a : Action} (hsinks : ∀ sink ∈ w.sinks,
      0 < (w.store.heap sink.aggregate).life.lanes) (h : World.Unlocked w a s') (ref : ℕ) :
    (d.note w a).Kept ref (w.store.heap ref) (s'.heap ref) := by
  have hset {ref' : ℕ} {aggregate : Aggregate} {d : Displacement}
      (hkept : d.Kept ref' (w.store.heap ref') aggregate) :
      d.Kept ref (w.store.heap ref) ((w.store.set ref' aggregate).heap ref) := by
    by_cases heq : ref = ref'
    · subst heq
      simpa only [Store.set, Function.update_self] using hkept
    · simp only [Store.set, Function.update_of_ne heq]
      exact .refl _ _ _
  cases h with
  | idle => exact .refl _ _ _
  | attached i now ref' hcall => exact hset ⟨.inr ⟨rfl, rfl⟩, fun h => ⟨h, rfl, rfl⟩, .inl rfl⟩
  | finished i now ref' hcall =>
    apply hset
    rw [Aggregate.finalize]
    split_ifs with hopen
    · refine ⟨.inr ⟨rfl, rfl⟩, fun h => ⟨h, rfl, rfl⟩, .inr ⟨by simp, ?_⟩⟩
      simp only [note, hcall]
      exact List.mem_cons_self
    · exact .refl _ _ _
  | counted a sink hsink aggregate hlife =>
    refine hset ⟨.inr ?_, fun hidle => ?_, .inl ?_⟩
    · rw [hlife]
      exact ⟨rfl, rfl⟩
    · exact absurd (hsinks sink hsink) (by omega)
    · rw [hlife]
  | left i now sink hsink aggregate hleave =>
    obtain ⟨hlanes, rfl⟩ := Aggregate.leave_eq_some hleave
    refine hset ⟨.inl ?_, fun hidle => absurd hidle hlanes, .inl rfl⟩
    simp only [note, hsink]
    exact List.mem_append_left _ List.mem_cons_self

/-- What comes between keeps what the displacement knows. -/
theorem note_sound {a : Action} (h : d.Sound w.store) (hsinks : ∀ sink ∈ w.sinks,
    0 < (w.store.heap sink.aggregate).life.lanes) (hact : World.Unlocked w a s') :
    (d.note w a).Sound s' := by
  have hkept := note_kept (d := d) hsinks hact
  obtain ⟨finished, left, heq, hfinished, hleft⟩ := d.note_eq w a
  rw [heq] at hkept ⊢
  obtain ⟨looked, hentries, hseen, hstalest⟩ := h.looked
  rw [hact.same]
  refine ⟨h.live, h.tombstone, h.room, h.refused, ⟨looked, hentries, fun e he => ?_, hstalest⟩,
    fun best hbest => ?_⟩
  · obtain ⟨hlife, hidle, hphase⟩ := hkept e.2.aggregate
    rcases hlife with hcame | ⟨hlanes, htouched⟩
    · exact .inl hcame
    rcases hseen e he with hcame | hpos | hempty | ⟨best, hbest, hle⟩
    · exact .inl (hleft hcame)
    · exact .inr (.inl (hlanes ▸ hpos))
    · by_cases hzero : (w.store.heap e.2.aggregate).life.lanes = 0
      · refine .inr (.inr (.inl (hempty.imp (fun hphase' => ?_) fun hbytes => ?_)))
        · rcases hphase with hsame | ⟨hclosed, -⟩
          · exact hsame ▸ hphase'
          · exact hclosed
        · exact (hidle hzero).2.2 ▸ hbytes
      · exact .inr (.inl (hlanes ▸ Nat.pos_of_ne_zero hzero))
    · exact .inr (.inr (.inr ⟨best, hbest, htouched ▸ hle⟩))
  · obtain ⟨hlanes, hbytes, htouched, hopen⟩ := h.stalest best hbest
    obtain ⟨-, hidle, hphase⟩ := hkept best.2.2.aggregate
    obtain ⟨hlanes', htouched', hbytes'⟩ := hidle hlanes
    refine ⟨hlanes', hbytes'.trans hbytes, htouched'.trans htouched, ?_⟩
    rcases hphase with hsame | ⟨-, hcame⟩
    · rw [hsame]
      exact hopen.imp_right fun hcame => hfinished hcame
    · exact .inr hcame

/-! ### The displacement is made -/

/-- Where nobody spoiled it, the choice is right. -/
theorem Sound.stalest_of_clear {best : ℕ × ((_ : UploadId) × Entry)} (h : d.Sound s)
    (hrest : d.rest = []) (hbest : best ∈ d.stalest) (hfinished : best.2.2.aggregate ∉ d.finished)
    (hleft : ∀ ref ∈ d.left, (s.heap ref).life.lanes = 0 → (s.heap ref).life.phase = .open →
      (s.heap ref).bytes = 0 → best.1 ≤ (s.heap ref).life.touched) (hcapped : s.capacity.Capped s.holds) :
    s.Stalest best.2.1 best.2.2 := by
  obtain ⟨looked, hentries, hseen, hstalest⟩ := h.looked
  rw [hrest, List.append_nil] at hentries
  obtain ⟨hlanes, hbytes, htouched, hphase⟩ := h.stalest best hbest
  obtain ⟨quota, hbefore, hacquire⟩ := h.refused
  have hlive : s.live.lookup best.2.1 = some best.2.2 :=
    AList.mem_lookup_iff.mpr (hentries ▸ hstalest best hbest)
  refine ⟨hlive, ?_, hlanes, hphase.resolve_right hfinished, hbytes, ?_⟩
  · rw [hcapped.used_eq, ← hbefore.used_eq]
    exact ((hbefore.perm (Store.holds_perm hlive)).retried hacquire).1
  · intro id entry hmem hlanes' hphase' hbytes'
    rw [htouched]
    rcases hseen ⟨id, entry⟩ (hentries ▸ AList.mem_lookup_iff.mp hmem) with
      hcame | hpos | hempty | ⟨best', hbest', hle⟩
    · exact hleft _ hcame hlanes' hphase' hbytes'
    · exact absurd hlanes' hpos.ne'
    · exact absurd hempty (by simp [hphase', hbytes'])
    · rw [Option.mem_def.mp hbest'] at hbest
      cases hbest
      exact hle

/-- **The call goes on with its aggregate**: the hold that leaves makes room for its own. -/
theorem Sound.make_eq {touched : ℕ} {id : UploadId} {entry : Entry} (h : d.Sound w.store)
    (hrest : d.rest = []) (hbest : d.stalest = some (touched, ⟨id, entry⟩)) :
    ∃ quota made, quota.Capped
        (Store.share d.keys :: (w.store.live.erase id).entries.map (·.2.capacity)) ∧
      made = (w.store.buried id entry d.r.displaced quota).create d.id d.owner (Store.share d.keys)
        (if d.reach = .join then 1 else 0) d.r.touched ∧
      d.make w = if d.reach = .join
        then ({ w with
            store := made, sinks := w.sinks ++ [⟨w.store.size, 0, none⟩], now := d.r.touched },
          [.created d.id w.store.size, .joined w.store.size])
        else ({ w with
            store := made, calls := w.calls ++ [(.subscribe, w.store.size)], now := d.r.touched },
          [.created d.id w.store.size]) := by
  obtain ⟨looked, hentries, -, hstalest⟩ := h.looked
  rw [hrest, List.append_nil] at hentries
  have hlive : w.store.live.lookup id = some entry :=
    AList.mem_lookup_iff.mpr (hentries ▸ hstalest _ hbest)
  obtain ⟨quota, hcapped, hacquire⟩ := h.refused
  obtain ⟨-, quota', hok, hcapped'⟩ := (hcapped.perm (Store.holds_perm hlive)).retried hacquire
  refine ⟨quota', _, hcapped', rfl, ?_⟩
  simp only [make, hbest, Store.buried, hok]
  rfl

/-- Burying prunes the store. -/
theorem buried_pruned (s : Store) (id : UploadId) (entry : Entry) (now : ℕ) (quota : Quota) :
    Store.Pruned s (s.buried id entry now quota) where
  size := rfl
  live _ _ hlive := (AList.lookup_erase_eq_some.mp hlive).2
  heap ref := by
    by_cases heq : ref = entry.aggregate
    · subst heq
      exact .inr (Function.update_self _ _ _)
    · exact .inl (Function.update_of_ne heq _ _)

/-- A new aggregate has the lanes it is made with. -/
theorem exact_create (id : UploadId) (owner : ClientKey) (hold : Hold) (now : ℕ)
    (h : World.Exact log w) (hpruned : Store.Pruned w.store s) (join : Bool) :
    (s.create id owner hold (if join then 1 else 0) now).Shows
      (if join then Store.Shows.oneMore (lanesOf w.sinks) w.store.size else lanesOf w.sinks)
      (recordedSum log) := by
  have hshows : (s.create id owner hold (if join then 1 else 0) now).Shows _ _ :=
    (h.store.pruned hpruned).create
  have hfresh := (h.store.fresh w.store.size le_rfl).1
  have hlanes : Function.update (lanesOf w.sinks) s.size (if join then 1 else 0) =
      if join then Store.Shows.oneMore (lanesOf w.sinks) w.store.size else lanesOf w.sinks := by
    rw [hpruned.size]
    cases join with
    | true => simp only [if_true, Store.Shows.oneMore, hfresh]
    | false => exact Function.update_eq_self_iff.mpr hfresh.symm
  rwa [hlanes] at hshows

/-- **Making a displacement** keeps the world sound. -/
theorem make_sound (hexact : World.Exact log w) (haccounted : w.store.Accounted) (h : d.Sound w.store)
    (hrest : d.rest = []) (hclear : ∀ best ∈ d.stalest, w.store.Stalest best.2.1 best.2.2) :
    World.Exact (log ++ (d.make w).2) (d.make w).1 ∧
      Turnover w.store (d.make w).1.store (some (d.id, d.keys)) none (d.make w).2 := by
  match hbest : d.stalest with
  | none =>
    have hmake : d.make w = ({ w with now := d.r.touched }, []) := by simp only [make, hbest]
    rw [hmake, List.append_nil]
    exact ⟨⟨hexact.store, hexact.calls, hexact.feeds⟩,
      World.turnover_same haccounted fun _ => rfl⟩
  | some (touched, ⟨id, entry⟩) =>
    obtain ⟨quota, made, hcapped, hmade, hmake⟩ := h.make_eq hrest hbest
    have hpruned := buried_pruned w.store id entry d.r.displaced quota
    have hserved : Store.Served w.store made d.id (some d.keys) := by
      rw [hmade]
      exact (hclear _ hbest).served haccounted rfl h.live h.tombstone h.room hcapped
    have hsize : made.size = w.store.size + 1 := by rw [hmade]; rfl
    have hshows := exact_create d.id d.owner (Store.share d.keys) d.r.touched hexact hpruned
      (d.reach = .join)
    simp only [decide_eq_true_eq, ← hmade] at hshows
    rw [hmake]
    split_ifs with hjoin
    · rw [if_pos hjoin] at hshows
      refine ⟨⟨?_, fun call hcall => ?_, fun feed hfeed => ?_⟩, ?_⟩
      · rw [recordedSum_append (by simp), lanesOf_append]
        exact hshows
      · exact hsize ▸ Nat.lt_succ_of_lt (hexact.calls call hcall)
      · exact hsize ▸ Nat.lt_succ_of_lt (hexact.feeds feed hfeed)
      · exact World.turnover_served hserved
          (fun keys heq => by rw [Option.some.inj heq]) fun _ => List.mem_cons_self
    · rw [if_neg hjoin] at hshows
      refine ⟨⟨?_, fun call hcall => ?_, fun feed hfeed => ?_⟩, ?_⟩
      · rw [recordedSum_append (by simp)]
        exact hshows
      · rcases List.mem_append.mp hcall with hcall | hcall
        · exact hsize ▸ Nat.lt_succ_of_lt (hexact.calls call hcall)
        · rw [List.mem_singleton.mp hcall]
          exact hsize ▸ Nat.lt_succ_self _
      · exact hsize ▸ Nat.lt_succ_of_lt (hexact.feeds feed hfeed)
      · exact World.turnover_served hserved
          (fun keys heq => by rw [Option.some.inj heq]) fun _ => List.mem_cons_self

end Displacement

/-! ## Every run -/

namespace Site

/-- When the clock was read for a section of the entries lock that begins. -/
def readings : Move → Option Readings
  | .act a => a.readings
  | .displace _ _ _ r => some r
  | _ => none

/-- The ID that a move may make an aggregate for, and the client that asked. -/
def asks (env : Env) (s : Site) : Move → Option (UploadId × ClientKeys)
  | .act a => a.asks env
  | .make => s.displacing.map fun d => (d.id, d.keys)
  | _ => none

/-- What every run keeps. -/
structure Sound (log : List Event) (s : Site) : Prop where
  exact : World.Exact log s.world
  accounted : s.world.store.Accounted
  displacing : ∀ d ∈ s.displacing, d.Sound s.world.store

variable {env : Env} {s s' : Site} {log events : List Event} {m : Move}

/-- **One move** keeps the account, and displaces only for an aggregate it makes. -/
theorem step_sound (h : Sound log s) (hclear : s.Clear m) (hstep : step env s m = some (s', events)) :
    Sound (log ++ events) s' ∧
      Turnover s.world.store s'.world.store (s.asks env m) (readings m) events := by
  cases m with
  | act a =>
    simp only [step] at hstep
    split_ifs at hstep with hlocks
    obtain ⟨⟨world, events'⟩, hact, heq⟩ := Option.map_eq_some_iff.mp hstep
    cases heq
    have hturn := World.step_turnover h.accounted hact
    refine ⟨⟨World.step_exact h.exact hact, hturn.accounted, fun d hd => ?_⟩, hturn⟩
    obtain ⟨d, hbefore, rfl⟩ := Option.map_eq_some_iff.mp hd
    have hfree : World.locks a = false := by
      simpa only [hbefore, Option.isSome_some, true_and, Bool.not_eq_true] using hlocks
    exact d.note_sound (h.displacing d hbefore) (fun sink hsink => h.exact.lanes_pos hsink)
      (World.step_unlocked hfree hact)
  | displace text owner reach r =>
    simp only [step] at hstep
    split_ifs at hstep with hidle
    obtain ⟨⟨store, d⟩, hstart, heq⟩ := Option.map_eq_some_iff.mp hstep
    cases heq
    obtain ⟨⟨quota, hcapped, hstore⟩, hsound⟩ := Displacement.start_sound h.accounted hstart
    have hpruned : Store.Pruned s.world.store store := by
      obtain ⟨hsize, hlive, hheap⟩ := s.world.store.entries_pruned r
      rw [hstore]
      exact ⟨hsize, hlive, hheap⟩
    have hturn := World.turnover_entries h.accounted r none []
    have haccounted : store.Accounted := by
      rw [hstore]
      exact ⟨⟨hturn.accounted.tombstones, hturn.accounted.apart⟩, hcapped⟩
    rw [List.append_nil]
    refine ⟨⟨⟨h.exact.store.pruned hpruned, fun call hcall => ?_, fun feed hfeed => ?_⟩, haccounted,
      fun d' hd' => ?_⟩, ⟨haccounted, ?_, ?_⟩⟩
    · exact hpruned.size ▸ h.exact.calls call hcall
    · exact hpruned.size ▸ h.exact.feeds feed hfeed
    · cases hd'
      exact hsound
    · rw [hstore]
      exact hturn.made
    · rw [hstore]
      exact hturn.left
  | look =>
    obtain ⟨d', hlook, heq⟩ := Option.map_eq_some_iff.mp hstep
    cases heq
    obtain ⟨d, hd, hlook⟩ := Option.bind_eq_some_iff.mp hlook
    rw [List.append_nil]
    refine ⟨⟨h.exact, h.accounted, fun d'' hd'' => ?_⟩, World.turnover_same h.accounted fun _ => rfl⟩
    cases hd''
    exact Displacement.look_sound (h.displacing d hd) hlook
  | make =>
    simp only [step] at hstep
    split at hstep
    case h_1 => cases hstep
    case h_2 d hd =>
      split_ifs at hstep with hrest
      cases hstep
      have hsound := h.displacing d hd
      have hstalest : ∀ best ∈ d.stalest, s.world.store.Stalest best.2.1 best.2.2 := fun best hbest =>
        hsound.stalest_of_clear hrest hbest (hclear d hd best hbest).1 (hclear d hd best hbest).2
          h.accounted.capped
      obtain ⟨hexact, hturn⟩ := Displacement.make_sound h.exact h.accounted hsound hrest hstalest
      refine ⟨⟨hexact, hturn.accounted, nofun⟩, ?_⟩
      rw [asks, hd]
      exact hturn

/-- A new site is sound. -/
theorem new_sound : Sound [] new := ⟨World.new_exact, World.new_accounted, nofun⟩

/-- A fit run keeps the account. -/
theorem run_sound {moves : List Move} (hclear : Machine.Fit Clear (step env) new moves)
    (hrun : Machine.run (step env) new moves = some (s, log)) : Sound log s :=
  Machine.run_induct_of_fit Sound (fun _ _ _ _ _ h hfit hstep => (step_sound h hfit hstep).1) []
    new_sound hclear hrun

end Site

end GraphiteMeter.Server.Upload
