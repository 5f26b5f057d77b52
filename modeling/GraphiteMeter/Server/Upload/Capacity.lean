import GraphiteMeter.Server.Upload.World

/-!
# Capacity and displacement

The live aggregates are exactly what the capacity quota counts (`Accounted`), so that the store never
holds more than its total, no client more than its shares, and a displacement always makes the room it
was made for: the quota asks the total only once every key has room, and a displacement takes from the
total and adds to no key. `Turnover` is what one action does to the live aggregates.

Reference: `rust/server/src/engine/uploads.rs` (`Entries::displace`, `Uploads::capacity`),
`rust/server/src/limits/quota.rs` (`Quota::acquire`), `api/upload.md`.
-/

namespace GraphiteMeter.Server

/-! ## A quota within its limits -/

namespace Quota

/-- A quota that counts these holds of weight one, none past its limits. -/
structure Capped (quota : Quota) (holds : List Hold) : Prop where
  total : quota.total = Upload.maxLive
  share : quota.share = Upload.maxPerClient
  backs : quota.Backs holds
  one : ∀ hold ∈ holds, hold.weight = 1
  within : quota.used ≤ Upload.maxLive
  shares : ∀ (keys : ClientKeys) (key : ClientKey) (share : ℕ),
    (key, share) ∈ keys.shares Upload.maxPerClient → quota.amount key ≤ share

/-- Holds of weight one weigh as much as there are of them. -/
theorem sum_weights {holds : List Hold} (h : ∀ hold ∈ holds, hold.weight = 1) :
    (holds.map (·.weight)).sum = holds.length := by
  induction holds with
  | nil => rfl
  | cons hold holds ih =>
    rw [List.forall_mem_cons] at h
    rw [List.map_cons, List.sum_cons, h.1, ih h.2, List.length_cons, Nat.add_comm]

/-- What holds of weight one charge a key with is how many of them do. -/
theorem charged_eq_countP {holds : List Hold} (h : ∀ hold ∈ holds, hold.weight = 1) (key : ClientKey) :
    charged holds key = holds.countP fun hold => key ∈ hold.keys.iter := by
  rw [charged, sum_weights fun hold hmem => h hold (List.mem_of_mem_filter hmem),
    List.countP_eq_length_filter]

/-- A key is charged no more than all holds weigh. -/
theorem charged_le_sum (holds : List Hold) (key : ClientKey) :
    charged holds key ≤ (holds.map (·.weight)).sum := by
  induction holds with
  | nil => exact le_rfl
  | cons hold holds ih =>
    rw [charged_cons, List.map_cons, List.sum_cons]
    split_ifs <;> omega

namespace Capped

variable {quota quota' : Quota} {holds holds' : List Hold} {hold : Hold} {keys : ClientKeys}

/-- The total in use is the number of holds. -/
theorem used_eq (h : Capped quota holds) : quota.used = holds.length := by
  rw [h.backs.used, sum_weights h.one]

/-- No key is charged more than the quota has in use. -/
theorem amount_le (h : Capped quota holds) (key : ClientKey) : quota.amount key ≤ quota.used := by
  rw [h.backs.held, h.backs.used]
  exact charged_le_sum holds key

/-- The order of the holds does not matter. -/
theorem perm (h : Capped quota holds) (hperm : holds.Perm holds') : Capped quota holds' :=
  { h with
    backs := h.backs.perm hperm
    one := fun hold hmem => h.one hold (hperm.mem_iff.mpr hmem) }

/-- Releasing a hold leaves the others accounted for. -/
theorem release (h : Capped quota (hold :: holds)) : Capped (quota.release hold) holds where
  total := h.total
  share := h.share
  backs := h.backs.release
  one hold' hmem := h.one hold' (List.mem_cons_of_mem _ hmem)
  within := Nat.le_trans (Nat.sub_le _ _) h.within
  shares keys key share hmem := by
    have hbefore := h.shares keys key share hmem
    rw [h.backs.held, charged_cons] at hbefore
    rw [h.backs.release.held]
    omega

/-- Releasing several holds leaves the others accounted for. -/
theorem releases {dropped : List Hold} (h : Capped quota (dropped ++ holds)) :
    Capped (dropped.foldl Quota.release quota) holds := by
  induction dropped generalizing quota with
  | nil => exact h
  | cons hold dropped ih => exact ih h.release

/-- A refusal changes nothing that is held. -/
theorem refused {full : Full} (h : Capped quota holds)
    (hacquire : quota.acquire keys 1 = (.error full, quota')) : Capped quota' holds := by
  obtain ⟨htotal, hshare, hused, hheld, -⟩ := acquire_error hacquire
  have hamount : ∀ key, quota'.amount key = quota.amount key := by
    intro key
    rw [amount, hheld]
    rfl
  exact ⟨htotal.trans h.total, hshare.trans h.share,
    ⟨hused.trans h.backs.used, fun key => (hamount key).trans (h.backs.held key)⟩, h.one,
    hused.trans_le h.within,
    fun keys key share hmem => (hamount key).trans_le (h.shares keys key share hmem)⟩

/-- A granted hold is the keys' own of weight one, and accounted for. -/
theorem granted (h : Capped quota holds) (hacquire : quota.acquire keys 1 = (.ok hold, quota')) :
    hold = ⟨keys, 1⟩ ∧ Capped quota' (hold :: holds) := by
  obtain ⟨rfl, htotal, hshare, hroom, hkeys, hbacks⟩ := acquire_ok hacquire
  refine ⟨rfl, ?_⟩
  have hlive : Upload.maxLive = 1000 := rfl
  have hwithin := h.within
  have hused : Word.saturatingAdd quota.used 1 = quota.used + 1 :=
    Word.saturate_of_lt (by omega)
  have hbacks' := hbacks holds h.backs
  rw [hused, h.total] at hroom
  refine ⟨htotal.trans h.total, hshare.trans h.share, hbacks', ?_, ?_, ?_⟩
  · intro hold' hmem
    rcases List.mem_cons.mp hmem with rfl | hmem
    · rfl
    · exact h.one hold' hmem
  · rw [hbacks'.used, List.map_cons, List.sum_cons, ← h.backs.used, Nat.add_comm]
    exact hroom
  · intro keys' key share hmem
    have hbefore := h.shares keys' key share hmem
    rw [hbacks'.held, charged_cons, ← h.backs.held]
    by_cases hkey : key ∈ keys.iter
    · -- the key was asked for room at its one share
      rw [if_pos hkey]
      rw [← keys.map_fst_shares Upload.maxPerClient] at hkey
      obtain ⟨⟨key', share'⟩, hmem', rfl⟩ := List.mem_map.mp hkey
      have hsame : share' = share :=
        (ClientKeys.share_eq hmem').trans (ClientKeys.share_eq hmem).symm
      have hle := hkeys key' share' (h.share ▸ hmem')
      have hamount := h.amount_le key'
      have hexact : Word.saturatingAdd (quota.amount key') 1 = quota.amount key' + 1 :=
        Word.saturate_of_lt (by omega)
      rw [hexact, hsame] at hle
      dsimp only
      omega
    · rw [if_neg hkey, Nat.zero_add]
      exact hbefore

/-- **A displacement makes the room it was made for.** Where the total was refused and a hold is
dropped, the same request is granted. -/
theorem retried (h : Capped quota (hold :: holds))
    (hacquire : quota.acquire keys 1 = (.error .total, quota')) :
    quota.used = Upload.maxLive ∧
      ∃ quota'', (quota'.release hold).acquire keys 1 = (.ok ⟨keys, 1⟩, quota'') ∧
        Capped quota'' (⟨keys, 1⟩ :: holds) := by
  obtain ⟨htotal, hshare, hused, hheld, hfull⟩ := acquire_error hacquire
  obtain ⟨hover, hkeys⟩ := hfull rfl
  have hlive : Upload.maxLive = 1000 := rfl
  have hwithin := h.within
  have hsum : Word.saturatingAdd quota.used 1 = quota.used + 1 := Word.saturate_of_lt (by omega)
  rw [hsum, h.total] at hover
  have hreleased := (h.refused hacquire).release
  have hafter : (quota'.release hold).used + 1 = quota.used := by
    have hlength := (h.refused hacquire).used_eq
    rw [hused, List.length_cons] at hlength
    rw [hreleased.used_eq, hlength]
  refine ⟨by omega, ?_⟩
  obtain ⟨hold', quota'', hok⟩ : ∃ hold' quota'',
      (quota'.release hold).acquire keys 1 = (.ok hold', quota'') := by
    apply acquire_of_room
    · rw [hreleased.total]
      exact (Nat.min_le_left _ _).trans (by omega)
    · intro key share hmem
      rw [hreleased.share, ← h.share] at hmem
      have hbefore := hkeys key share hmem
      have hless : (quota'.release hold).amount key ≤ quota.amount key := by
        rw [hreleased.backs.held, h.backs.held, charged_cons]
        omega
      exact (min_le_min_right _ (Nat.add_le_add_right hless 1)).trans hbefore
  obtain ⟨rfl, hcapped⟩ := hreleased.granted hok
  exact ⟨quota'', hok, hcapped⟩

end Capped

end Quota

namespace Upload

open Http3 (Bytes)

/-! ## The store's capacity -/

namespace Store

/-- What the live aggregates hold of the capacity. -/
def holds (s : Store) : List Hold := s.live.entries.map (·.2.capacity)

/-- The tombstones are within their bound, and no displaced ID is live. -/
structure Bounded (s : Store) : Prop where
  tombstones : s.tombstones.len ≤ maxLive
  apart : ∀ id ∈ s.live, id ∉ s.tombstones

/-- How many live aggregates are charged to a key. -/
def held (s : Store) (key : ClientKey) : ℕ := s.holds.countP fun hold => key ∈ hold.keys.iter

/-- The quota counts the live aggregates. -/
structure Accounted (s : Store) : Prop extends Bounded s where
  capped : s.capacity.Capped s.holds

/-- What may be displaced, and is: the total is full, and of the aggregates without lanes, bytes or
finish it is the one touched longest ago. -/
structure Stalest (s : Store) (id : UploadId) (entry : Entry) : Prop where
  live : s.live.lookup id = some entry
  full : s.capacity.used = maxLive
  lanes : (s.heap entry.aggregate).life.lanes = 0
  phase : (s.heap entry.aggregate).life.phase = .open
  bytes : (s.heap entry.aggregate).bytes = 0
  oldest : ∀ id' entry', s.live.lookup id' = some entry' →
    (s.heap entry'.aggregate).life.lanes = 0 → (s.heap entry'.aggregate).life.phase = .open →
    (s.heap entry'.aggregate).bytes = 0 →
    (s.heap entry.aggregate).life.touched ≤ (s.heap entry'.aggregate).life.touched

/-- The store without a displaced aggregate. -/
def buried (s : Store) (id : UploadId) (entry : Entry) (now : ℕ) (quota : Quota) : Store :=
  { s with
    live := s.live.erase id
    heap := Function.update s.heap entry.aggregate (s.heap entry.aggregate).expire
    capacity := quota
    tombstones := s.tombstones.insert id (now + idLifetime) }

variable {s s' : Store} {keys : ClientKeys} {now : ℕ}

/-- An entry is empty when its aggregate is open, with no lane and no byte. -/
theorem empty_iff {entry : Entry} : s.empty entry = true ↔
    (s.heap entry.aggregate).life.lanes = 0 ∧ (s.heap entry.aggregate).life.phase = .open ∧
      (s.heap entry.aggregate).bytes = 0 := by
  simp only [empty, decide_eq_true_eq]

/-- The victim is the stalest of the empty aggregates. -/
theorem stalest_of_victim {id : UploadId} {entry : Entry} (h : s.victim = some ⟨id, entry⟩)
    (hfull : s.capacity.used = maxLive) : Stalest s id entry := by
  obtain ⟨hmem, hempty⟩ := List.mem_filter.mp (List.argmin_mem (Option.mem_def.mpr h))
  obtain ⟨hlanes, hphase, hbytes⟩ := empty_iff.mp hempty
  refine ⟨AList.mem_lookup_iff.mpr hmem, hfull, hlanes, hphase, hbytes, ?_⟩
  intro id' entry' hlive' hlanes' hphase' hbytes'
  have hmem' : (⟨id', entry'⟩ : (_ : UploadId) × Entry) ∈
      s.live.entries.filter fun e => s.empty e.2 :=
    List.mem_filter.mpr
      ⟨AList.mem_lookup_iff.mp hlive', empty_iff.mpr ⟨hlanes', hphase', hbytes'⟩⟩
  exact List.le_of_mem_argmin
    (f := fun e : (_ : UploadId) × Entry => (s.heap e.2.aggregate).life.touched) hmem' h

/-- What a client's upload holds of the capacity. -/
def share (keys : ClientKeys) : Hold := ⟨keys.charged, 1⟩

/-- Everything taking capacity can do to a store that is accounted for: refuse and change nothing,
grant, or displace and grant. -/
inductive Charged (s : Store) (keys : ClientKeys) (now : ℕ) : Except Refusal Hold → Store → Prop
  | refused (refusal : Refusal) (quota : Quota) (hcapped : quota.Capped s.holds) :
      Charged s keys now (.error refusal) { s with capacity := quota }
  | granted (quota : Quota) (hcapped : quota.Capped (share keys :: s.holds)) :
      Charged s keys now (.ok (share keys)) { s with capacity := quota }
  | displaced (id : UploadId) (entry : Entry) (quota : Quota)
      (hstalest : Stalest s id entry) (hroom : s.tombstones.len < maxLive)
      (hcapped : quota.Capped (share keys :: (s.live.erase id).entries.map (·.2.capacity))) :
      Charged s keys now (.ok (share keys)) (s.buried id entry now quota)

/-- The holds of a store are the displaced one and the others. -/
theorem holds_perm {id : UploadId} {entry : Entry} (hlive : s.live.lookup id = some entry) :
    s.holds.Perm (entry.capacity :: (s.live.erase id).entries.map (·.2.capacity)) :=
  (AList.perm_cons_erase hlive).map fun e : (_ : UploadId) × Entry => e.2.capacity

/-- Charging a creation keeps the accounts and does what it answers. -/
theorem charge_charged (h : Accounted s) (keys : ClientKeys) (now : ℕ) :
    Charged s keys now (s.charge keys now).1 (s.charge keys now).2 := by
  unfold charge
  match hacquire : s.capacity.acquire keys.charged 1 with
  | (.ok hold, quota) =>
    obtain ⟨rfl, hcapped⟩ := h.capped.granted hacquire
    exact .granted quota hcapped
  | (.error .client, quota) => exact .refused _ quota (h.capped.refused hacquire)
  | (.error .total, quota) =>
    have hrefused := h.capped.refused hacquire
    dsimp only
    obtain hsame | ⟨id, entry, hvictim, hlive, -, hroom, hdisplaced⟩ :=
      displace_cases { s with capacity := quota } now
    · rw [hsame]
      exact .refused _ quota hrefused
    · -- the hold that leaves makes the room the second attempt finds
      obtain ⟨hfull, quota', hok, hcapped⟩ :=
        (h.capped.perm (holds_perm hlive)).retried hacquire
      rw [hdisplaced]
      dsimp only
      rw [hok]
      have hstalest : Stalest s id entry := stalest_of_victim hvictim hfull
      exact .displaced id entry quota' hstalest hroom hcapped

/-- The quota counts a key's live aggregates. -/
theorem Accounted.held_eq (h : Accounted s) (key : ClientKey) : s.held key = s.capacity.amount key := by
  rw [h.capped.backs.held, Quota.charged_eq_countP h.capped.one, held]

/-! ## What keeps it -/

/-- A store with the same entries and tombstones is accounted for too. -/
theorem Accounted.congr (h : Accounted s) (hlive : s'.live.entries.Perm s.live.entries)
    (htomb : s'.tombstones = s.tombstones) (hcapacity : s'.capacity = s.capacity) :
    Accounted s' where
  capped := by
    rw [hcapacity]
    exact h.capped.perm (hlive.map _).symm
  tombstones := htomb ▸ h.tombstones
  apart id hmem := by
    rw [htomb]
    apply h.apart id
    rw [AList.mem_keys] at hmem ⊢
    exact (hlive.map _).mem_iff.mp hmem

/-- Sweeping the live entries keeps a store accounted for. -/
theorem Accounted.sweepEntries (h : Accounted s) (now : ℕ) : Accounted (s.sweepEntries now) where
  capped := by
    have hsplit : s.holds.Perm
        (((s.live.entries.filter fun e => !s.kept now e.2).map (·.2.capacity)) ++
          (s.sweepEntries now).holds) := by
      unfold holds
      rw [← List.map_append]
      apply List.Perm.map
      refine (List.filter_append_perm (fun e => s.kept now e.2) s.live.entries).symm.trans ?_
      exact List.perm_append_comm
    have hreleased := (h.capped.perm hsplit).releases
    rw [List.foldl_map] at hreleased
    exact hreleased
  tombstones := (List.length_filter_le _ _).trans h.tombstones
  apart id hmem htomb := by
    obtain ⟨entry, hentry⟩ := AList.mem_iff_exists_lookup.mp hmem
    obtain ⟨until_, huntil⟩ := AList.mem_iff_exists_lookup.mp htomb
    exact h.apart id
      (AList.mem_iff_exists_lookup.mpr ⟨entry, (AList.lookup_retain_eq_some.mp hentry).1⟩)
      (AList.mem_iff_exists_lookup.mpr ⟨until_, (AList.lookup_retain_eq_some.mp huntil).1⟩)

/-- A due sweep keeps a store accounted for. -/
theorem Accounted.entries (h : Accounted s) (r : Readings) : Accounted (s.entries r) := by
  simp only [Store.entries]
  split_ifs
  · exact (h.sweepEntries r.swept).congr (.refl _) rfl rfl
  · exact h

/-- Writing an aggregate keeps a store accounted for. -/
theorem Accounted.set (h : Accounted s) (ref : ℕ) (a : Aggregate) : Accounted (s.set ref a) :=
  h.congr (.refl _) rfl rfl

/-- A new aggregate takes the hold it was granted. -/
theorem Bounded.create {id : UploadId} {owner : ClientKey} {hold : Hold} {lanes : ℕ}
    (h : Bounded s) (hlive : id ∉ s.live) (htomb : id ∉ s.tombstones)
    (hcapped : s.capacity.Capped (hold :: s.holds)) :
    Accounted (s.create id owner hold lanes now) where
  capped := by
    unfold holds Store.create
    dsimp only
    rw [AList.entries_insert_of_notMem hlive, List.map_cons]
    exact hcapped
  tombstones := h.tombstones
  apart id' hmem := by
    rcases (AList.mem_insert _).mp hmem with rfl | hmem
    · exact htomb
    · exact h.apart id' hmem

/-- Burying an entry keeps the bounds, where a tombstone has room. -/
theorem Bounded.buried {id : UploadId} {entry : Entry} {quota : Quota} (h : Bounded s)
    (hlive : s.live.lookup id = some entry) (hroom : s.tombstones.len < maxLive) :
    Bounded (s.buried id entry now quota) where
  tombstones := by
    have hmem : id ∈ s.live := AList.mem_iff_exists_lookup.mpr ⟨entry, hlive⟩
    show (s.tombstones.insert id (now + idLifetime)).len ≤ maxLive
    rw [AList.len_insert (h.apart id hmem)]
    exact hroom
  apart id' hmem htomb := by
    obtain ⟨hne, hmem⟩ := AList.mem_erase.mp hmem
    rcases (AList.mem_insert _).mp htomb with heq | htomb
    · exact hne heq
    · exact h.apart id' hmem htomb

/-- What a call does to the entries of the store it locked: it may make an aggregate for the client that
asked, and displace another for it. -/
structure Served (s s' : Store) (id : UploadId) (owner : Option ClientKeys) : Prop where
  accounted : Accounted s'
  made : ∀ id' entry, s'.live.lookup id' = some entry → s.live.lookup id' = some entry ∨
    id' = id ∧ ∃ keys, owner = some keys ∧ entry = ⟨s.size, share keys⟩
  left : ∀ id' entry, s.live.lookup id' = some entry → id' ∉ s'.live →
    Stalest s id' entry ∧ id' ∈ s'.tombstones ∧ s'.size = s.size + 1 ∧
      ∃ made, s'.live.lookup id = some made ∧ made.aggregate = s.size

/-- Where the live aggregates stay, none is made and none leaves. -/
theorem Served.same {id : UploadId} {owner : Option ClientKeys} (h : Accounted s')
    (hlive : ∀ id, s'.live.lookup id = s.live.lookup id) : Served s s' id owner where
  accounted := h
  made id' _ hmem := .inl (hlive id' ▸ hmem)
  left id' _ hmem hgone :=
    absurd (AList.mem_iff_exists_lookup.mpr ⟨_, (hlive id').trans hmem⟩) hgone

/-- The aggregate that is made for a displaced one. -/
theorem Stalest.served {id victim : UploadId} {owner : Option ClientKeys} {entry : Entry}
    {quota : Quota} {key : ClientKey} {lanes touched : ℕ} (hstalest : Stalest s victim entry)
    (h : Accounted s) (howner : owner = some keys) (hlive : id ∉ s.live) (htomb : id ∉ s.tombstones)
    (hroom : s.tombstones.len < maxLive)
    (hcapped : quota.Capped (share keys :: (s.live.erase victim).entries.map (·.2.capacity))) :
    Served s ((s.buried victim entry now quota).create id key (share keys) lanes touched) id owner where
  accounted := by
    have hne : id ≠ victim := fun heq =>
      hlive (heq ▸ AList.mem_iff_exists_lookup.mpr ⟨entry, hstalest.live⟩)
    refine (h.toBounded.buried hstalest.live hroom).create ?_ ?_ hcapped
    · exact fun hmem => hlive (AList.mem_erase.mp hmem).2
    · exact fun hmem => ((AList.mem_insert _).mp hmem).elim hne htomb
  made id' entry' hmem := by
    rcases AList.lookup_insert_of_eq_some hmem with ⟨rfl, rfl⟩ | hmem
    · exact .inr ⟨rfl, keys, howner, rfl⟩
    · exact .inl (AList.lookup_erase_eq_some.mp hmem).2
  left id' entry' hmem hgone := by
    obtain rfl : id' = victim := by
      by_contra hne
      have hlive' : id' ∈ s.live := AList.mem_iff_exists_lookup.mpr ⟨entry', hmem⟩
      exact hgone ((AList.mem_insert _).mpr (.inr (AList.mem_erase.mpr ⟨hne, hlive'⟩)))
    obtain rfl : entry' = entry := Option.some.inj (hmem.symm.trans hstalest.live)
    exact ⟨hstalest, (AList.mem_insert _).mpr (.inl rfl), rfl, _, AList.lookup_insert _, rfl⟩

/-- **What `reach` does to the capacity.** It keeps the account, and where it displaced an aggregate it
made the one that was asked for. -/
theorem Accounted.reached {env : Env} {id : UploadId} {owner : Option ClientKeys} {reach : Reach}
    {r : Readings} {res : Except Refusal ℕ} (h : Accounted s)
    (hreach : Reached env s id owner reach r res s') : Served s s' id owner := by
  cases hreach with
  | refused refusal => exact .same h fun _ => rfl
  | found entry hlive howner hne => exact .same h fun _ => rfl
  | joined entry hlive howner heq a hjoin => exact .same (h.set _ _) fun _ => rfl
  | full refusal keys hcharge =>
    have hcharged := charge_charged h keys r.displaced
    rw [hcharge] at hcharged
    generalize (s.charge keys r.displaced).2 = after at hcharged
    cases hcharged with
    | refused refusal quota hcapped =>
      exact .same ⟨⟨h.tombstones, h.apart⟩, hcapped⟩ fun _ => rfl
  | created keys key hold howner hkey hlive hne htomb hvalid hhold =>
    have hnotlive : id ∉ s.live := AList.lookup_eq_none.mp hlive
    have hcharged := charge_charged h keys r.displaced
    rw [hhold] at hcharged
    generalize (s.charge keys r.displaced).2 = after at hcharged
    cases hcharged with
    | granted quota hcapped =>
      have hbounded : Bounded { s with capacity := quota } := ⟨h.tombstones, h.apart⟩
      refine ⟨hbounded.create hnotlive htomb hcapped, fun id' entry hmem => ?_,
        fun id' entry hmem hgone => ?_⟩
      · rcases AList.lookup_insert_of_eq_some hmem with ⟨rfl, rfl⟩ | hmem
        · exact .inr ⟨rfl, keys, howner, rfl⟩
        · exact .inl hmem
      · have hlive' : id' ∈ s.live := AList.mem_iff_exists_lookup.mpr ⟨entry, hmem⟩
        exact absurd ((AList.mem_insert _).mpr (.inr hlive')) hgone
    | displaced victim entry quota hstalest hroom hcapped =>
      exact hstalest.served h howner hnotlive htomb hroom hcapped

/-! ## What a sweep does to it -/

/-- A sweep is due, and drops the aggregate: it has no lanes, and retention no longer covers it. -/
def Swept (s : Store) (entry : Entry) (r : Readings) : Prop :=
  s.nextSweep ≤ clockNow r.entered ∧ (s.heap entry.aggregate).life.lanes = 0 ∧
    (s.heap entry.aggregate).life.touched + retention < r.swept

/-- An entry that a call's sweep takes away was due. -/
theorem swept_of_entries {r : Readings} {id : UploadId} {entry : Entry}
    (hlive : s.live.lookup id = some entry) (hgone : id ∉ (s.entries r).live) : s.Swept entry r := by
  simp only [Store.entries] at hgone
  split_ifs at hgone with hdue
  · exact ⟨hdue, touched_lt_of_swept hlive hgone⟩
  · exact absurd (AList.mem_iff_exists_lookup.mpr ⟨entry, hlive⟩) hgone

end Store

/-! ## What comes and goes -/

/-- When the clock was read for a section of the entries lock. -/
def Action.readings : Action → Option Readings
  | .begin _ _ r | .call _ _ _ r | .watchable _ _ r | .sweep _ r => some r
  | _ => none

/-- The ID a call asks for, and the client that does. -/
def Action.asks (env : Env) : Action → Option (UploadId × ClientKeys)
  | .begin text owner _ | .call _ text owner _ =>
    (UploadId.parse env text).bind fun id => owner.map fun keys => (id, keys)
  | _ => none

/-- The store as a section of the entries lock finds it. -/
def Store.entered (s : Store) : Option Readings → Store
  | none => s
  | some r => s.entries r

/-- Entering a call prunes only what its sweep takes. -/
theorem Store.entered_pruned (s : Store) (readings : Option Readings) :
    Store.Pruned s (s.entered readings) := by
  cases readings with
  | none => exact .refl s
  | some r => exact s.entries_pruned r

/-- What leaves by locking the entries was swept. -/
theorem Store.swept_of_entered {s : Store} {readings : Option Readings} {id : UploadId} {entry : Entry}
    (hlive : s.live.lookup id = some entry) (hgone : id ∉ (s.entered readings).live) :
    ∃ r ∈ readings, s.Swept entry r := by
  cases readings with
  | none => exact absurd (AList.mem_iff_exists_lookup.mpr ⟨entry, hlive⟩) hgone
  | some r => exact ⟨r, rfl, swept_of_entries hlive hgone⟩

/-- What one move does to the live aggregates: each one made holds one share of the client that asked
for it, and each one that leaves is due to a sweep, or was displaced for one that is made. -/
structure Turnover (s s' : Store) (asked : Option (UploadId × ClientKeys)) (readings : Option Readings)
    (events : List Event) : Prop where
  accounted : s'.Accounted
  made : ∀ id entry, s'.live.lookup id = some entry → s.live.lookup id = some entry ∨
    ∃ keys, asked = some (id, keys) ∧ entry = ⟨s.size, Store.share keys⟩
  left : ∀ id entry, s.live.lookup id = some entry → id ∉ s'.live →
    (∃ r ∈ readings, s.Swept entry r) ∨
      (s.entered readings).Stalest id entry ∧ id ∈ s'.tombstones ∧
        ∃ id' made, .created id' s.size ∈ events ∧ s'.live.lookup id' = some made ∧
          made.aggregate = s.size

namespace World

variable {env : Env} {w w' : World} {log events : List Event}

/-- A call that leaves the entries as they were turns nothing over. -/
theorem turnover_same {s s' : Store} {asked : Option (UploadId × ClientKeys)}
    {readings : Option Readings} (h : s'.Accounted)
    (hlive : ∀ id, s'.live.lookup id = s.live.lookup id) : Turnover s s' asked readings events where
  accounted := h
  made id _ hmem := .inl (hlive id ▸ hmem)
  left id _ hmem hgone :=
    absurd (AList.mem_iff_exists_lookup.mpr ⟨_, (hlive id).trans hmem⟩) hgone

/-- Locking the entries sweeps at most. -/
theorem turnover_entries {s : Store} (h : s.Accounted) (r : Readings)
    (asked : Option (UploadId × ClientKeys)) (events : List Event) :
    Turnover s (s.entries r) asked (some r) events where
  accounted := h.entries r
  made id entry hmem := .inl ((Store.entries_pruned s r).live id entry hmem)
  left _ _ hmem hgone := .inl ⟨r, rfl, Store.swept_of_entries hmem hgone⟩

/-- What is done to the entries once they are locked. -/
theorem turnover_served {s s' : Store} {id : UploadId} {owner : Option ClientKeys}
    {readings : Option Readings} {asked : Option (UploadId × ClientKeys)}
    (h : Store.Served (s.entered readings) s' id owner)
    (hasked : ∀ keys, owner = some keys → asked = some (id, keys))
    (hcreated : s'.size = s.size + 1 → .created id s.size ∈ events) :
    Turnover s s' asked readings events where
  accounted := h.accounted
  made id' entry hmem := by
    rcases h.made id' entry hmem with hold | ⟨rfl, keys, howner, rfl⟩
    · exact .inl ((s.entered_pruned readings).live id' entry hold)
    · rw [(s.entered_pruned readings).size]
      exact .inr ⟨keys, hasked keys howner, rfl⟩
  left id' entry hmem hgone := by
    by_cases hswept : id' ∈ (s.entered readings).live
    · obtain ⟨entry', hentry'⟩ := AList.mem_iff_exists_lookup.mp hswept
      obtain rfl : entry' = entry :=
        Option.some.inj (((s.entered_pruned readings).live id' entry' hentry').symm.trans hmem)
      obtain ⟨hstalest, htomb, hsize, made, hmade, href⟩ := h.left id' entry' hentry' hgone
      rw [(s.entered_pruned readings).size] at hsize href
      exact .inr ⟨hstalest, htomb, id, made, hcreated hsize, hmade, href⟩
    · exact .inl (Store.swept_of_entered hmem hswept)

/-- A call through `reach`. -/
theorem turnover_reach (h : w.store.Accounted) (env : Env) (text : Bytes) (owner : Option ClientKeys)
    (reach : Reach) (r : Readings) {asked : Option (UploadId × ClientKeys)}
    (hasked : ∀ id keys, UploadId.parse env text = some id → owner = some keys →
      asked = some (id, keys))
    (hcreated : ∀ ref, (w.store.reach env text owner reach r).1 = .ok ref →
      ∀ e ∈ created env text w.store (w.store.reach env text owner reach r).2, e ∈ events) :
    Turnover w.store (w.store.reach env text owner reach r).2 asked (some r) events := by
  rcases Store.reach_cases env w.store text owner reach r with
    ⟨refusal, heq⟩ | ⟨id, hid, hreached⟩
  · rw [heq]
    exact turnover_same h fun _ => rfl
  · refine turnover_served ((h.entries r).reached hreached)
      (fun keys => hasked id keys hid) fun hsize => ?_
    match hres : (w.store.reach env text owner reach r).1 with
    | .error refusal =>
      rw [hres] at hreached
      have hsame := hreached.size_of_error
      rw [(Store.entries_pruned w.store r).size] at hsame
      omega
    | .ok ref =>
      refine hcreated ref hres _ ?_
      rw [created, if_pos (by omega), hid]
      exact List.mem_singleton_self _

/-- A request asks for the upload its text names, on behalf of its owner. -/
theorem asks_eq {text : Bytes} {owner : Option ClientKeys} {id : UploadId} {keys : ClientKeys}
    (hid : UploadId.parse env text = some id) (howner : owner = some keys) :
    ((UploadId.parse env text).bind fun id => owner.map fun keys => (id, keys)) = some (id, keys) := by
  rw [hid, howner]
  rfl

/-- **One action** keeps the account, and displaces only for an aggregate it makes. -/
theorem step_turnover {a : Action} (h : w.store.Accounted)
    (hstep : w.step env a = some (w', events)) :
    Turnover w.store w'.store (a.asks env) a.readings events := by
  by_cases hlocks : locks a = false
  · rw [(step_unlocked hlocks hstep).same]
    exact turnover_same (h.congr (.refl _) rfl rfl) fun _ => rfl
  cases a with
  | begin text owner r =>
    simp only [step] at hstep
    split_ifs at hstep with hle
    rcases hreach : w.store.reach env text owner .join r with ⟨refusal | ref, store⟩
    · rw [hreach] at hstep
      cases hstep
      have hturn := @turnover_reach w [] h env text owner .join r _ (fun id keys => asks_eq) (by
        rw [hreach]
        intro ref heq
        cases heq)
      rwa [hreach] at hturn
    · rw [hreach] at hstep
      cases hstep
      have hturn := turnover_reach h env text owner .join r (fun id keys => asks_eq) (by
        rw [hreach]
        exact fun _ _ e he => List.mem_append_left [Event.joined ref] he)
      rwa [hreach] at hturn
  | call call text owner r =>
    simp only [step] at hstep
    split_ifs at hstep with hle
    rcases hreach : w.store.reach env text owner call.reach r with ⟨refusal | ref, store⟩
    · rw [hreach] at hstep
      cases hstep
      have hturn := @turnover_reach w [] h env text owner call.reach r _ (fun id keys => asks_eq) (by
        rw [hreach]
        intro ref heq
        cases heq)
      rwa [hreach] at hturn
    · rw [hreach] at hstep
      cases hstep
      have hturn := turnover_reach h env text owner call.reach r (fun id keys => asks_eq) (by
        rw [hreach]
        exact fun _ _ e he => he)
      rwa [hreach] at hturn
  | watchable text owner r =>
    simp only [step] at hstep
    split_ifs at hstep with hle
    cases hstep
    rcases Store.watchable_store env w.store text owner r with heq | heq
    · rw [heq]
      exact turnover_same h fun _ => rfl
    · rw [heq]
      exact turnover_entries h r _ _
  | sweep peek r =>
    simp only [step] at hstep
    split_ifs at hstep with hle
    cases hstep
    rcases Store.sweep_store w.store peek r with heq | heq
    · rw [heq]
      exact turnover_same h fun _ => rfl
    · rw [heq]
      exact turnover_entries h r _ _
  | rehash live =>
    simp only [step] at hstep
    split_ifs at hstep with hperm
    cases hstep
    exact turnover_same (h.congr hperm rfl rfl) fun id => AList.perm_lookup hperm
  | _ => exact absurd rfl hlocks

/-- A new store is accounted for. -/
theorem new_accounted : new.store.Accounted where
  capped :=
    ⟨rfl, rfl, ⟨rfl, fun _ => rfl⟩, nofun, Nat.zero_le _, fun _ _ _ _ => Nat.zero_le _⟩
  tombstones := Nat.zero_le _
  apart := nofun

end World

end Upload

end GraphiteMeter.Server
