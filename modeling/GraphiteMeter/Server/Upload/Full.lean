import GraphiteMeter.Server.Upload.Displacement

/-!
# A full store

Reference: `rust/server/src/engine/uploads.rs` (`Entries::displace`), `api/upload.md`.

Progress readers of 1,000 clients fill the store, for any Base64 that gives back what it encodes. One
more client then displaces the first one's aggregate. Alone it does so rightly; a finish that had
reached that aggregate may come in between, and is lost.
-/

namespace GraphiteMeter.Server.Upload

open Http3 (Bytes)

/-! ## IDs for many clients -/

/-- Base64 gives back what it encodes, at the length an ID's text has. -/
structure Env.Lawful (env : Env) : Prop where
  decode_encode : ∀ raw, env.decode (env.encode raw) = some raw
  encode_length : ∀ raw, raw.length = idBytes → (env.encode raw).length = (idBytes * 4 + 2) / 3

/-- An identifier is read back from its text. -/
theorem UploadId.parse_text {env : Env} (h : env.Lawful) (id : UploadId) :
    UploadId.parse env (id.text env) = some id := by
  have hprefix : idPrefix.isPrefixOf (id.text env) = true := by
    rw [List.isPrefixOf_iff_prefix]
    exact List.prefix_append _ _
  have hdrop : (id.text env).drop idPrefix.length = env.encode id.raw := List.drop_left
  rw [UploadId.parse, if_pos hprefix]
  simp only [hdrop, h.encode_length id.raw id.size, if_true, h.decode_encode, dif_pos id.size]

def nonce (k : ℕ) : Bytes := [UInt8.ofNat (k / 256), UInt8.ofNat (k % 256)] ++ List.replicate 14 0

theorem nonce_length (k : ℕ) : (nonce k).length = 16 := rfl

/-- The upload of the `k`-th client. -/
def upload (env : Env) (k : ℕ) : UploadId := .mint env 0 (nonce k) (nonce_length k)

def client (k : ℕ) : ClientKeys := .v4 (BitVec.ofNat 32 k)

/-- Distinct numbers give distinct uploads. -/
theorem upload_injective {env : Env} {j k : ℕ} (hj : j < 65536) (hk : k < 65536)
    (h : upload env j = upload env k) : j = k := by
  have hraw := congrArg UploadId.raw h
  simp only [upload, UploadId.mint, List.append_assoc] at hraw
  have hnonce := (List.append_inj_left (List.append_cancel_left hraw) rfl)
  simp only [nonce, List.cons_append, List.cons.injEq] at hnonce
  have hhigh := congrArg UInt8.toNat hnonce.1
  have hlow := congrArg UInt8.toNat hnonce.2.1
  simp only [UInt8.toNat_ofNat'] at hhigh hlow
  omega

/-- Distinct numbers give distinct clients. -/
theorem client_injective {j k : ℕ} (hj : j < 65536) (hk : k < 65536)
    (h : BitVec.ofNat 32 j = BitVec.ofNat 32 k) : j = k := by
  have hnat := congrArg BitVec.toNat h
  simp only [BitVec.toNat_ofNat] at hnat
  omega

/-- The uploads are valid within their lifetime. -/
theorem upload_valid (env : Env) (k : ℕ) {now : ℕ} (hnow : now ≤ idLifetime) :
    (upload env k).valid env now = true := by
  have htake : (upload env k).raw.take signedBytes = toBeBytes (clockNow 0) ++ nonce k :=
    List.take_left' rfl
  have hdrop : (upload env k).raw.drop signedBytes =
      env.sign (toBeBytes (clockNow 0) ++ nonce k) := List.drop_left' rfl
  have hissued : (upload env k).issued = 0 := by
    have hraw : (upload env k).raw.take 8 = toBeBytes (clockNow 0) := by
      show (toBeBytes (clockNow 0) ++ nonce k ++ env.sign _).take 8 = _
      rw [List.append_assoc]
      exact List.take_left' rfl
    rw [UploadId.issued, hraw]
    rfl
  have hclock : clockNow now = now :=
    Word.saturate_of_lt (hnow.trans_lt (by decide))
  simp only [UploadId.valid, decide_eq_true_eq, htake, hdrop, hissued, hclock, true_and]
  rw [Option.any_eq_true]
  exact ⟨now, Word.checkedSub_eq_some.mpr ⟨Nat.zero_le _, rfl⟩, decide_eq_true hnow⟩

/-! ## Filling the store -/

/-- What the `k`-th client's upload is in the entries. -/
def entry (env : Env) (k : ℕ) : (_ : UploadId) × Entry := ⟨upload env k, ⟨k, Store.share (client k)⟩⟩

/-- The `k`-th client watches its upload at `k`. -/
def watch (env : Env) (k : ℕ) : Action :=
  .call .subscribe ((upload env k).text env) (some (client k)) (.still k)

/-- Uploads of the first `n` clients, watched one after another. -/
structure Filled (env : Env) (n : ℕ) (w : World) : Prop where
  accounted : w.store.Accounted
  size : w.store.size = n
  live : w.store.live.entries = (List.range n).reverse.map (entry env)
  heap : ∀ k < n, w.store.heap k = ⟨.v4 (BitVec.ofNat 32 k), 0, none, ⟨0, k, .open, 0⟩⟩
  tombstones : w.store.tombstones = ∅
  nextSweep : w.store.nextSweep = sweepNanos
  calls : w.calls.length = n
  now : w.now ≤ n

namespace Filled

variable {env : Env} {n k : ℕ} {w : World}

/-- The live entries are the uploads created so far. -/
theorem mem_live_iff (h : Filled env n w) (hn : n ≤ 65535) (hk : k ≤ 65535) :
    upload env k ∈ w.store.live ↔ k < n := by
  rw [AList.mem_keys, AList.keys, h.live, List.keys, List.map_map]
  simp only [List.mem_map, List.mem_reverse, List.mem_range, Function.comp_apply, entry]
  constructor
  · rintro ⟨j, hj, heq⟩
    exact upload_injective (by omega) (by omega) heq ▸ hj
  · exact fun hlt => ⟨k, hlt, rfl⟩

/-- No sweep is due yet. -/
theorem entries_eq (h : Filled env n w) (hk : k < sweepNanos) : w.store.entries (.still k) = w.store := by
  have hclock : clockNow k = k := Word.saturate_of_lt (hk.trans (by decide))
  simp only [Store.entries, Readings.still, hclock, h.nextSweep]
  rw [if_neg hk.not_ge]

/-- The quota has nothing of a new client. -/
theorem amount_eq_zero (h : Filled env n w) (hk : k ≤ 65535) (hnk : n ≤ k) :
    w.store.capacity.amount (.v4 (BitVec.ofNat 32 k)) = 0 := by
  rw [← h.accounted.held_eq, Store.held, Store.holds, h.live, List.countP_eq_zero]
  simp only [List.map_map, List.mem_map, List.mem_reverse, List.mem_range, Function.comp_apply,
    decide_eq_true_eq]
  rintro _ ⟨j, hj, rfl⟩ hmem
  have hkey : ClientKey.v4 (BitVec.ofNat 32 k) = .v4 (BitVec.ofNat 32 j) := List.mem_singleton.mp hmem
  have heq := client_injective (by omega) (by omega) (ClientKey.v4.inj hkey)
  omega

/-- The capacity in use is the number of uploads created so far. -/
theorem used_eq (h : Filled env n w) : w.store.capacity.used = n := by
  rw [h.accounted.capped.used_eq, Store.holds, h.live, List.length_map, List.length_map,
    List.length_reverse, List.length_range]

/-- A new client's ID may make an aggregate. -/
theorem creatable (h : Filled env n w) (hnk : n ≤ k) (hk : k ≤ 1000) :
    ¬ (Reach.watch = .read ∨ upload env k ∈ (w.store.entries (.still k)).live ∨
      upload env k ∈ (w.store.entries (.still k)).tombstones ∨
      (upload env k).valid env k = false) := by
  have hvalid : (upload env k).valid env k = true :=
    upload_valid env k (hk.trans (by decide))
  rw [h.entries_eq (hk.trans_lt (by decide)), h.mem_live_iff (by omega) (by omega), h.tombstones,
    hvalid]
  simp [hnk.not_gt, AList.notMem_empty]

/-- Its own share has room. -/
theorem room (h : Filled env n w) (hnk : n ≤ k) (hk : k ≤ 1000) (key : ClientKey) (share : ℕ)
    (hmem : (key, share) ∈ (client k).charged.shares w.store.capacity.share) :
    Word.saturatingAdd (w.store.capacity.amount key) 1 ≤ share := by
  obtain ⟨rfl, rfl⟩ : key = .v4 (BitVec.ofNat 32 k) ∧ share = w.store.capacity.share := by
    simpa [client, ClientKeys.charged, ClientKeys.shares, ClientKeys.iter, ClientKeys.doubled]
      using hmem
  rw [h.amount_eq_zero (by omega) hnk, h.accounted.capped.share]
  decide

/-- One more client. -/
theorem watch (hlawful : env.Lawful) (h : Filled env n w) (hn : n < 1000) :
    ∃ w' events, w.step env (watch env n) = some (w', events) ∧ Filled env (n + 1) w' := by
  have hentries := h.entries_eq (k := n) (hn.trans (by decide))
  have hgood := h.creatable le_rfl hn.le
  have hnotlive : upload env n ∉ w.store.live := by
    rw [h.mem_live_iff (by omega) (by omega)]
    exact lt_irrefl n
  obtain ⟨hold, quota, hacquire⟩ : ∃ hold quota,
      w.store.capacity.acquire (client n).charged 1 = (.ok hold, quota) := by
    refine Quota.acquire_of_room ?_ (h.room le_rfl hn.le)
    rw [h.used_eq, h.accounted.capped.total]
    exact (Nat.min_le_left _ _).trans hn
  obtain ⟨rfl, -⟩ := h.accounted.capped.granted hacquire
  have hcharge : (w.store.entries (.still n)).charge (client n) n =
      (.ok (Store.share (client n)), { w.store with capacity := quota }) := by
    simp only [hentries, Store.charge, hacquire, Store.share]
  have hreach : w.store.reach env ((upload env n).text env) (some (client n)) .watch (.still n) =
      (.ok w.store.size, Store.create { w.store with capacity := quota } (upload env n)
        (.v4 (BitVec.ofNat 32 n)) (Store.share (client n)) 0 n) :=
    Store.reach_of_granted (UploadId.parse_text hlawful _) rfl hgood hcharge
  have hle : w.now ≤ (Readings.still n).entered := h.now
  have hstep := @World.step_called env w .subscribe _ _ _ _ _ hle hreach
  refine ⟨_, _, hstep, (World.step_turnover h.accounted hstep).accounted, ?_, ?_, ?_, h.tombstones,
    h.nextSweep, ?_, Nat.le_succ n⟩
  · exact congrArg (· + 1) h.size
  · rw [Store.create, AList.entries_insert_of_notMem hnotlive, h.live, h.size, List.range_succ,
      List.reverse_append, List.map_append]
    rfl
  · intro k hk
    rcases Nat.lt_succ_iff_lt_or_eq.mp hk with hlt | rfl
    · rw [← h.heap k hlt]
      exact Function.update_of_ne (by rw [h.size]; exact hlt.ne) _ _
    · simp [Store.create, h.size]
  · rw [List.length_append, h.calls]
    rfl

end Filled

namespace Site

variable {env : Env} {n : ℕ}

/-- An ID for each of 1,001 clients. -/
def mints : List Move :=
  (List.range' 0 1001).map fun k => .act (.mint 0 (nonce k) (nonce_length k))

/-- Minting holds no state. -/
theorem run_mints (env : Env) (s : Site) : ∃ log, Machine.run (step env) s mints = some (s, log) := by
  unfold mints
  induction List.range' 0 1001 with
  | nil => exact ⟨[], rfl⟩
  | cons k ks ih =>
    obtain ⟨log, hrun⟩ := ih
    have hmint : step env s (.act (.mint 0 (nonce k) (nonce_length k))) =
        some (s, [.minted (upload env k)]) := by
      obtain ⟨w, _ | d⟩ := s <;> rfl
    exact ⟨_, Machine.run_cons_iff.mpr ⟨_, _, _, hmint, hrun, rfl⟩⟩

/-- The first `n` clients watch their uploads. -/
def fill (env : Env) (n : ℕ) : List Move := (List.range' 0 n).map fun k => .act (watch env k)

/-- **The store fills up.** -/
theorem run_fill (hlawful : env.Lawful) (hn : n ≤ 1000) :
    ∃ w log, Machine.run (step env) new (fill env n) = some (⟨w, none⟩, log) ∧ Filled env n w := by
  induction n with
  | zero => exact ⟨.new, [], rfl, World.new_accounted, rfl, rfl, nofun, rfl, rfl, rfl, le_rfl⟩
  | succ n ih =>
    obtain ⟨w, log, hrun, hfilled⟩ := ih (by omega)
    obtain ⟨w', events, hstep, hfilled'⟩ := hfilled.watch hlawful hn
    have hact : step env ⟨w, none⟩ (.act (watch env n)) = some (⟨w', none⟩, events) := by
      simp only [step, hstep]
      rfl
    rw [fill, List.range'_1_concat, List.map_append, Nat.zero_add]
    exact ⟨w', _, Machine.run_append hrun (Machine.run_singleton hact), hfilled'⟩

/-! ## One client more -/

/-- The first client's finish reaches its aggregate, a client more finds the store full, and looks at
every entry. -/
def crowd (env : Env) : List Move :=
  mints ++ fill env 1000 ++
    [.act (.call .finish ((upload env 0).text env) (some (client 0)) (.still 1000)),
      .displace ((upload env 1000).text env) (some (client 1000)) .watch (.still 1000)] ++
    List.replicate 1000 .look

/-- A full store, where a displacement is about to be made. -/
structure Crowded (env : Env) (w : World) (d : Displacement) : Prop where
  live : w.store.live.entries = (List.range 1000).reverse.map (entry env)
  size : w.store.size = 1000
  first : w.store.heap 0 = ⟨.v4 0, 0, none, ⟨0, 0, .open, 0⟩⟩
  finish : w.calls[1000]? = some (.finish, 0)
  id : d.id = upload env 1000
  keys : d.keys = client 1000
  rest : d.rest = []
  stalest : d.stalest = some (0, entry env 0)
  nobody : d.finished = [] ∧ d.left = []

/-- In a crowded world the first upload is still live. -/
theorem Crowded.lookup {w : World} {d : Displacement} (h : Crowded env w d) :
    w.store.live.lookup (upload env 0) = some ⟨0, Store.share (client 0)⟩ := by
  rw [← Option.mem_def, AList.mem_lookup_iff, h.live]
  exact List.mem_map.mpr ⟨0, List.mem_reverse.mpr (List.mem_range.mpr (by decide)), rfl⟩

/-- Of clients that came one after another, the first is the stalest. -/
theorem foldl_see_entries {s : Store} (hheap : ∀ k ≤ n, s.heap k =
      ⟨.v4 (BitVec.ofNat 32 k), 0, none, ⟨0, k, .open, 0⟩⟩)
    {stalest : Option (ℕ × ((_ : UploadId) × Entry))} (hstalest : ∀ best ∈ stalest, n < best.1) :
    ((List.range (n + 1)).reverse.map (entry env)).foldl (Displacement.see s) stalest =
      some (0, entry env 0) := by
  have hsee {k : ℕ} {stalest : Option (ℕ × ((_ : UploadId) × Entry))} (hk : k ≤ n)
      (hstalest : ∀ best ∈ stalest, k < best.1) :
      Displacement.see s stalest (entry env k) = some (k, entry env k) := by
    have hall : stalest.all (fun best => k < best.1) = true := by
      simpa [Option.all_eq_true] using hstalest
    simp [Displacement.see, entry, Store.empty, hheap k hk, hall]
  induction n generalizing stalest with
  | zero =>
    show Displacement.see s stalest (entry env 0) = _
    exact hsee le_rfl hstalest
  | succ n ih =>
    rw [List.range_succ, List.reverse_append, List.map_append, List.foldl_append]
    show List.foldl _ (Displacement.see s stalest (entry env (n + 1))) _ = _
    rw [hsee le_rfl hstalest]
    refine ih (fun k hk => hheap k (hk.trans n.le_succ)) ?_ fun hk => hsee (hk.trans n.le_succ)
    rintro best ⟨⟩
    exact n.lt_succ_self

/-- A full store refuses the total to a new client, and `displace` begins. -/
theorem start_full {w : World} (hlawful : env.Lawful) (h : Filled env 1000 w) :
    ∃ quota, Displacement.start env w.store ((upload env 1000).text env) (some (client 1000)) .watch
        (.still 1000) =
      some ({ w.store with capacity := quota }, ⟨.watch, upload env 1000, .v4 (BitVec.ofNat 32 1000),
        client 1000, .still 1000, w.store.live.entries, none, [], []⟩) := by
  have hentries := h.entries_eq (k := 1000) (by decide)
  have hgood := h.creatable le_rfl le_rfl
  obtain ⟨granted, hacquire⟩ := Quota.acquire_of_shares (h.room le_rfl (le_refl 1000))
  rw [h.used_eq, h.accounted.capped.total, if_pos (by decide)] at hacquire
  have hroom : (w.store.entries (.still 1000)).tombstones.len < maxLive := by
    rw [hentries, h.tombstones]
    decide
  rw [← hentries] at hacquire
  have hstart := Displacement.start_eq (UploadId.parse_text hlawful (upload env 1000)) rfl hgood
    hacquire hroom
  rw [hentries] at hstart
  exact ⟨_, hstart⟩

/-- The first client's finish reaches its aggregate. -/
theorem step_finish {w : World} (hlawful : env.Lawful) (h : Filled env 1000 w) :
    w.step env (.call .finish ((upload env 0).text env) (some (client 0)) (.still 1000)) =
      some ({ w with calls := w.calls ++ [(.finish, 0)], now := 1000 }, []) := by
  have hlookup : w.store.live.lookup (upload env 0) = some ⟨0, Store.share (client 0)⟩ := by
    rw [← Option.mem_def, AList.mem_lookup_iff, h.live]
    exact List.mem_map.mpr ⟨0, by simp, rfl⟩
  have hreach : w.store.reach env ((upload env 0).text env) (some (client 0)) .read (.still 1000) =
      (.ok 0, w.store) := by
    have hentries := h.entries_eq (k := 1000) (by decide)
    have hfirst := h.heap 0 (by decide)
    simp [Store.reach, UploadId.parse_text hlawful, Store.reachLocked, hentries, hlookup, hfirst, client,
      ClientKeys.narrowest, ClientKeys.iter]
  have hstep := @World.step_called env w .finish _ _ _ _ _ h.now hreach
  rw [World.created, if_neg (lt_irrefl _)] at hstep
  exact hstep

/-- **The crowd's run** ends in a crowded world. -/
theorem run_crowd (hlawful : env.Lawful) :
    ∃ w d log, Machine.run (step env) new (crowd env) = some (⟨w, some d⟩, log) ∧ Crowded env w d := by
  obtain ⟨minted, hmints⟩ := run_mints env new
  obtain ⟨w, log, hrun, hfilled⟩ := run_fill hlawful (le_refl 1000)
  obtain ⟨quota, hstart⟩ := start_full hlawful hfilled
  have hfinish : step env ⟨w, none⟩
      (.act (.call .finish ((upload env 0).text env) (some (client 0)) (.still 1000))) =
        some (⟨{ w with calls := w.calls ++ [(.finish, 0)], now := 1000 }, none⟩, []) := by
    simp only [step, step_finish hlawful hfilled]
    rfl
  have hdisplace := @step_displace env { w with calls := w.calls ++ [(.finish, 0)], now := 1000 }
    _ _ _ _ _ _ (le_refl 1000) hstart
  have hlength : w.store.live.entries.length = 1000 := by
    rw [hfilled.live, List.length_map, List.length_reverse, List.length_range]
  have hlooks := @run_looks env
    { w with
      store := { w.store with capacity := quota }
      calls := w.calls ++ [(.finish, 0)]
      now := 1000 }
    ⟨.watch, upload env 1000, .v4 (BitVec.ofNat 32 1000), client 1000, .still 1000, w.store.live.entries,
      none, [], []⟩
  rw [hlength] at hlooks
  refine ⟨_, _, _, Machine.run_append (Machine.run_append (Machine.run_append hmints hrun)
    (Machine.run_cons_iff.mpr ⟨_, _, _, hfinish, Machine.run_singleton hdisplace, rfl⟩)) hlooks, ?_⟩
  refine ⟨hfilled.live, hfilled.size, hfilled.heap 0 (by decide), ?_, rfl, rfl, rfl, ?_, rfl, rfl⟩
  · rw [← hfilled.calls]
    exact List.getElem?_concat_length
  · have hfold := @foldl_see_entries env 999 { w.store with capacity := quota }
      (fun k hk => hfilled.heap k (Nat.lt_succ_of_le hk)) none fun _ h => absurd h (Option.not_mem_none _)
    rw [← hfilled.live] at hfold
    exact hfold

/-- The crowd's displacement is left before it buries. -/
theorem make_notMem_crowd (env : Env) : .make ∉ crowd env := by
  simp only [crowd, mints, fill, List.mem_append, List.mem_map, List.mem_cons, List.mem_replicate,
    List.not_mem_nil, reduceCtorEq, and_false, exists_false, or_self, not_false_eq_true]

/-- Only a displacement that is made can be spoiled. -/
theorem fit_of_notMem {moves : List Move} (h : .make ∉ moves) (s : Site) :
    Machine.Fit Clear (step env) s moves := by
  refine Machine.fit_of_forall (fun m hm s => ?_) s
  cases m with
  | make => exact absurd hm h
  | _ => trivial

/-- The first client's upload is refused, and the client's own is there. -/
theorem make_crowd {w : World} {d : Displacement} (h : d.Sound w.store) (hsize : w.store.size = 1000)
    (hid : d.id = upload env 1000) (hrest : d.rest = []) (hstalest : d.stalest = some (0, entry env 0)) :
    upload env 0 ∉ (d.make w).1.store.live ∧ upload env 0 ∈ (d.make w).1.store.tombstones ∧
      (d.make w).1.store.live.lookup (upload env 1000) = some ⟨1000, Store.share d.keys⟩ := by
  obtain ⟨quota, made, -, rfl, hmake⟩ := h.make_eq hrest hstalest
  have hne : upload env 0 ≠ upload env 1000 := fun heq =>
    absurd (upload_injective (by decide) (by decide) heq) (by decide)
  rw [hmake, hid]
  have hlive : upload env 0 ∉ AList.insert (upload env 1000)
      (⟨w.store.size, Store.share d.keys⟩ : Entry) (w.store.live.erase (upload env 0)) := by
    rw [AList.mem_insert, AList.mem_erase]
    exact fun hmem => hmem.elim hne fun hmem => hmem.1 rfl
  have htomb : upload env 0 ∈
      w.store.tombstones.insert (upload env 0) (d.r.displaced + idLifetime) :=
    (AList.mem_insert _).mpr (.inl rfl)
  have hlookup : (AList.insert (upload env 1000) (⟨w.store.size, Store.share d.keys⟩ : Entry)
      (w.store.live.erase (upload env 0))).lookup (upload env 1000) =
        some ⟨1000, Store.share d.keys⟩ := by
    rw [AList.lookup_insert, hsize]
  split_ifs <;> exact ⟨hlive, htomb, hlookup⟩

/-! ## Capacity -/

variable {s : Site} {log : List Event}

/-- **Upload capacity.** In every run where nothing spoils a displacement, the live aggregates are what
the quota counts, 1,000 at most, no key holds more of them than its share, and at most 1,000 IDs are
refused. Every next move makes and displaces aggregates as `Turnover` says. -/
theorem capacity_holds {moves : List Move} (hclear : Machine.Fit Clear (step env) new moves)
    (hrun : Machine.run (step env) new moves = some (s, log)) :
    s.world.store.live.len = s.world.store.capacity.used ∧ s.world.store.live.len ≤ 1000 ∧
      (∀ (keys : ClientKeys) (key : ClientKey) (share : ℕ), (key, share) ∈ keys.shares 32 →
        s.world.store.held key ≤ share) ∧
      s.world.store.tombstones.len ≤ 1000 ∧
      ∀ m s' events, s.Clear m → step env s m = some (s', events) →
        Turnover s.world.store s'.world.store (s.asks env m) (readings m) events := by
  have h := run_sound hclear hrun
  have hcapped := h.accounted.capped
  have hused : s.world.store.live.len = s.world.store.capacity.used := by
    rw [hcapped.used_eq, Store.holds, List.length_map]
    rfl
  refine ⟨hused, hused.trans_le hcapped.within, fun keys key share hmem => ?_,
    h.accounted.tombstones, fun m s' events hfit hstep => (step_sound h hfit hstep).2⟩
  exact (h.accounted.held_eq key).trans_le (hcapped.shares keys key share hmem)

end Site

/-- Base64 by padding, and tags of zeros. -/
def padded : Env where
  encode bytes := bytes ++ List.replicate 19 0
  decode encoded := some (encoded.take (encoded.length - 19))
  sign _ := List.replicate 32 0
  sign_length _ := List.length_replicate

/-- A text padded to a fixed width is lawful. -/
theorem padded_lawful : padded.Lawful where
  decode_encode raw := by
    have hlength : (raw ++ List.replicate 19 (0 : UInt8)).length - 19 = raw.length := by
      rw [List.length_append, List.length_replicate, Nat.add_sub_cancel]
    simp only [padded, hlength, List.take_left]
  encode_length raw hraw := by
    rw [padded, List.length_append, List.length_replicate, hraw]
    rfl

namespace Site

/-- The quiet case: nobody comes between, and the first client's upload is rightly displaced. -/
theorem capacity_holds_displaced :
    ∃ s log s' events, Machine.run (step padded) new (crowd padded) = some (s, log) ∧
      step padded s .make = some (s', events) ∧ s.world.store.capacity.used = 1000 ∧
      s.world.store.Stalest (upload padded 0) ⟨0, Store.share (client 0)⟩ ∧
      upload padded 0 ∉ s'.world.store.live ∧ upload padded 0 ∈ s'.world.store.tombstones ∧
      s'.world.store.live.lookup (upload padded 1000) = some ⟨1000, Store.share (client 1000)⟩ := by
  obtain ⟨w, d, log, hrun, h⟩ := run_crowd padded_lawful
  have hfit := @fit_of_notMem padded _ (make_notMem_crowd padded) new
  have hsound := (run_sound hfit hrun).displacing d rfl
  obtain ⟨hused, -, -, -, hnext⟩ := capacity_holds hfit hrun
  have hmake := @step_make padded w d h.rest
  have hclear : Clear ⟨w, some d⟩ .make := by
    rintro d' ⟨⟩ best -
    rw [h.nobody.1, h.nobody.2]
    exact ⟨List.not_mem_nil, nofun⟩
  obtain ⟨hgone, htomb, hlive⟩ := make_crowd hsound h.size h.id h.rest h.stalest
  have hfirst : w.store.live.lookup (upload padded 0) = some ⟨0, Store.share (client 0)⟩ := h.lookup
  rcases (hnext _ _ _ hclear hmake).left _ _ hfirst hgone with ⟨r, hr, -⟩ | ⟨hstalest, -, -⟩
  · cases hr
  rw [h.keys] at hlive
  exact ⟨_, log, _, _, hrun, hmake, hstalest.full, hstalest, hgone, htomb, hlive⟩

/-- **A finished upload is displaced.** The first client's finish takes its aggregate's lock once
`displace` has looked, and before it expires what it chose. -/
theorem finished_displaced :
    ∃ s log s' events,
      Machine.run (step padded) new (crowd padded ++ [.act (.proceed 1000 1000)]) = some (s, log) ∧
      step padded s .make = some (s', events) ∧
      s.world.store.live.lookup (upload padded 0) = some ⟨0, Store.share (client 0)⟩ ∧
      (s.world.store.heap 0).life.phase = .finished ∧
      upload padded 0 ∉ s'.world.store.live ∧ upload padded 0 ∈ s'.world.store.tombstones ∧
      ¬ Turnover s.world.store s'.world.store (s.asks padded .make) (readings .make) events := by
  obtain ⟨w, d, log, hrun, h⟩ := run_crowd padded_lawful
  have hproceed : step padded ⟨w, some d⟩ (.act (.proceed 1000 1000)) =
      some (⟨{ w with
        store := w.store.set 0 (w.store.heap 0).finalize
        calls := w.calls.eraseIdx 1000 }, some { d with finished := 0 :: d.finished }⟩, []) := by
    simp [step, World.locks, World.step, h.finish, World.proceed, Displacement.note]
  have hrun' := Machine.run_append hrun (Machine.run_singleton hproceed)
  have hmoves : .make ∉ crowd padded ++ [.act (.proceed 1000 1000)] := by
    rw [List.mem_append, not_or]
    exact ⟨make_notMem_crowd padded, by simp⟩
  have hsound := (run_sound (@fit_of_notMem padded _ hmoves new) hrun').displacing _ rfl
  obtain ⟨hgone, htomb, -⟩ := make_crowd hsound h.size h.id h.rest h.stalest
  have hphase : (Function.update w.store.heap 0 (w.store.heap 0).finalize 0).life.phase = .finished := by
    rw [Function.update_self, h.first]
    rfl
  refine ⟨_, _, _, _, hrun', step_make h.rest, h.lookup, hphase, hgone, htomb, fun hturn => ?_⟩
  rcases hturn.left _ _ h.lookup hgone with ⟨r, hr, -⟩ | ⟨hstalest, -, -⟩
  · cases hr
  · have hopen := hphase.symm.trans hstalest.phase
    cases hopen

end Site

end GraphiteMeter.Server.Upload
