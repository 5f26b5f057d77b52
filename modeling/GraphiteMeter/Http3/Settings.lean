import GraphiteMeter.Http3.Frame

/-!
# SETTINGS: the peer's values, read as they arrive

Reference: `rust/http3/src/settings.rs` (RFC 9114 §7.2.4).

`Reader.read` takes a part of the frame's payload; `drainPairs` is its loop over the settings that the
part completes. `pairsOf` says which settings a payload holds, and `Acceptable` which of them a reader
takes: pairwise distinct identifiers, none of HTTP/2's, at most 64, and flags of 0 or 1. What it
makes of them is `peerOf`, which looks each identifier up, so their order does not matter.
-/

namespace GraphiteMeter.Http3.Settings

def maxFieldSectionSize : ℕ := 0x06
def enableConnectProtocol : ℕ := 0x08
def h3Datagram : ℕ := 0x33
def h3DatagramDraft04 : ℕ := 0xffd277
def wtEnableDraft02 : ℕ := 0x2b603742
def wtEnabled : ℕ := 0x2c7cf000

/-- Bounds on a peer's SETTINGS frame and its distinct identifiers, far above any real peer's. -/
def maxLength : ℕ := 8 * 1024

def maxIds : ℕ := 64

structure Peer where
  maxFieldSectionSize : Option ℕ
  connectProtocol : Bool
  /-- RFC 9297's H3_DATAGRAM, as opposed to draft 04's. -/
  h3Datagram : Bool
  datagrams : Bool
  draft02 : Bool
  current : Bool
deriving DecidableEq, Repr

namespace Peer

def empty : Peer := ⟨none, false, false, false, false, false⟩

/-- Takes one setting. -/
def set (peer : Peer) (id value : ℕ) : Except Code Peer :=
  if id = Settings.maxFieldSectionSize then .ok { peer with maxFieldSectionSize := some value }
  else if (id = enableConnectProtocol ∨ id = Settings.h3Datagram) ∧ 1 < value then
    .error .h3SettingsError
  else if id = enableConnectProtocol then .ok { peer with connectProtocol := value == 1 }
  else if id = Settings.h3Datagram then
    .ok { peer with h3Datagram := value == 1, datagrams := peer.datagrams || value == 1 }
  else if id = h3DatagramDraft04 then
    .ok { peer with datagrams := peer.datagrams || value == 1 }
  else if id = wtEnableDraft02 then .ok { peer with draft02 := value == 1 }
  else if id = wtEnabled then .ok { peer with current := decide (0 < value) }
  else .ok peer

end Peer

/-- HTTP/2's identifiers, which are reserved. -/
def Reserved (id : ℕ) : Prop := id = 0x00 ∨ 0x02 ≤ id ∧ id ≤ 0x05

instance (id : ℕ) : Decidable (Reserved id) := inferInstanceAs (Decidable (_ ∨ _))

/-- Parses a SETTINGS frame's payload as it arrives, without buffering it. -/
structure Reader where
  pair : Pair
  remaining : ℕ
  /-- The identifiers taken so far. -/
  seen : List ℕ
  peer : Peer
deriving DecidableEq, Repr

namespace Reader

def new (length : ℕ) : Except Code Reader :=
  if maxLength < length then .error .h3ExcessiveLoad else .ok ⟨.empty, length, [], .empty⟩

def apply (r : Reader) (id value : ℕ) : Except Code Reader :=
  if Reserved id ∨ id ∈ r.seen then .error .h3SettingsError
  else if r.seen.length = maxIds then .error .h3ExcessiveLoad
  else
    match r.peer.set id value with
    | .error code => .error code
    | .ok peer => .ok { r with seen := r.seen ++ [id], peer }

/-- Applies every setting that `payload` completes. -/
def drainPairs (r : Reader) (payload : Bytes) : Except Code Reader :=
  match _hread : r.pair.read payload with
  | (none, pair, _) => .ok { r with pair }
  | (some (id, value), pair, rest) =>
    match ({ r with pair } : Reader).apply id value with
    | .error code => .error code
    | .ok r' => drainPairs r' rest
termination_by payload.length
decreasing_by exact Pair.read_resumable.length_lt _hread

/-- The peer's settings once the payload is complete, which it is at the end of a setting. -/
def read (r : Reader) (payload : Bytes) : Except Code (Option Peer × Reader) :=
  match drainPairs { r with remaining := r.remaining - payload.length } payload with
  | .error code => .error code
  | .ok r =>
    match r.remaining, r.pair.isEmpty with
    | 0, true => .ok (some r.peer, r)
    | 0, false => .error .h3FrameError
    | _ + 1, _ => .ok (none, r)

/-! ## A payload cut anywhere -/

/-- The pairs are drained one after another. -/
theorem drainPairs_eq (r : Reader) (payload : Bytes) :
    r.drainPairs payload =
      match r.pair.read payload with
      | (none, pair, _) => .ok { r with pair }
      | (some (id, value), pair, rest) =>
        ({ r with pair } : Reader).apply id value >>= fun r' => r'.drainPairs rest := by
  rw [drainPairs]
  split
  · rename_i hread
    rw [hread]
  · rename_i hread
    rw [hread]
    simp only
    split <;> rename_i happly <;> rw [happly] <;> rfl

@[simp] theorem drainPairs_nil (r : Reader) : r.drainPairs [] = .ok r := by
  rw [drainPairs_eq, Pair.read_resumable.nil]

/-- What remains of the frame is no matter to its settings. -/
theorem drainPairs_remaining (r : Reader) (remaining : ℕ) (payload : Bytes) :
    drainPairs { r with remaining } payload =
      (r.drainPairs payload).map fun r' => { r' with remaining } := by
  induction hlen : payload.length using Nat.strongRecOn generalizing r payload with
  | ind n ih =>
    subst hlen
    rw [drainPairs_eq, drainPairs_eq r]
    match hread : r.pair.read payload with
    | (none, pair, rest) => rfl
    | (some (id, value), pair, rest) =>
      have happly : apply { r with pair, remaining } id value =
          (apply { r with pair } id value).map fun r' => { r' with remaining } := by
        unfold apply
        dsimp only
        split
        · rfl
        split
        · rfl
        split <;> rfl
      simp only [happly]
      match apply { r with pair } id value with
      | .error code => rfl
      | .ok r' => exact ih rest.length (Pair.read_resumable.length_lt hread) r' rest rfl

/-- While the payload is not complete, something of it remains. -/
theorem remaining_of_read {r r' : Reader} {payload : Bytes} (h : r.read payload = .ok (none, r')) :
    r'.remaining = r.remaining - payload.length ∧ 0 < r'.remaining := by
  unfold read at h
  rw [drainPairs_remaining] at h
  match hdrain : r.drainPairs payload with
  | .error code =>
    rw [hdrain] at h
    cases h
  | .ok s =>
    simp only [hdrain, Except.map] at h
    split at h
    · cases h
    · cases h
    · rename_i _ _ _ hleft
      cases h
      exact ⟨rfl, Nat.lt_of_lt_of_eq (Nat.zero_lt_succ _) hleft.symm⟩

/-- The settings of a payload are applied in turn however it is cut. -/
theorem drainPairs_append (r : Reader) (xs ys : Bytes) :
    r.drainPairs (xs ++ ys) = r.drainPairs xs >>= fun r' => r'.drainPairs ys := by
  induction hlen : xs.length using Nat.strongRecOn generalizing r xs with
  | ind n ih =>
    subst hlen
    rw [drainPairs_eq r (xs ++ ys), drainPairs_eq r xs, Pair.read_resumable.read_append]
    match hread : r.pair.read xs with
    | (none, pair, rest) =>
      show _ = ({ r with pair } : Reader).drainPairs ys
      rw [drainPairs_eq]
    | (some (id, value), pair, rest) =>
      simp only [bind_assoc]
      congr 1
      funext r'
      exact ih rest.length (Pair.read_resumable.length_lt hread) r' rest rfl

end Reader

/-! ## What a payload holds -/

/-- The settings of a payload, and the bytes of one that is not complete. -/
def pairsOf (payload : Bytes) : List (ℕ × ℕ) × Bytes :=
  match _h : headerOf payload with
  | none => ([], payload)
  | some (id, value, rest) =>
    let (pairs, left) := pairsOf rest
    ((id, value) :: pairs, left)
termination_by payload.length
decreasing_by exact length_lt_of_headerOf _h

/-- Bytes without a whole pair are left over. -/
theorem pairsOf_none {payload : Bytes} (h : headerOf payload = none) :
    pairsOf payload = ([], payload) := by
  rw [pairsOf]
  split <;> simp_all

/-- A whole pair is read before the others. -/
theorem pairsOf_some {payload rest : Bytes} {id value : ℕ}
    (h : headerOf payload = some (id, value, rest)) :
    pairsOf payload = ((id, value) :: (pairsOf rest).1, (pairsOf rest).2) := by
  rw [pairsOf]
  split <;> simp_all

/-- What settings say of the peer. -/
def peerOf (pairs : List (ℕ × ℕ)) : Peer where
  maxFieldSectionSize := pairs.lookup maxFieldSectionSize
  connectProtocol := pairs.lookup enableConnectProtocol == some 1
  h3Datagram := pairs.lookup h3Datagram == some 1
  datagrams := pairs.lookup h3Datagram == some 1 || pairs.lookup h3DatagramDraft04 == some 1
  draft02 := pairs.lookup wtEnableDraft02 == some 1
  current := (pairs.lookup wtEnabled).any (0 < ·)

/-- Settings a reader takes. -/
structure Acceptable (pairs : List (ℕ × ℕ)) : Prop where
  distinct : (pairs.map (·.1)).Nodup
  unreserved : ∀ pair ∈ pairs, ¬ Reserved pair.1
  few : pairs.length ≤ maxIds
  flags : ∀ pair ∈ pairs, pair.1 = enableConnectProtocol ∨ pair.1 = h3Datagram → pair.2 ≤ 1

section Order

variable {pairs pairs' : List (ℕ × ℕ)}

/-- A new pair is found at its own identifier. -/
theorem lookup_concat {id : ℕ} (h : id ∉ pairs.map (·.1)) (value key : ℕ) :
    (pairs ++ [(id, value)]).lookup key = if key = id then some value else pairs.lookup key := by
  rw [List.lookup_append]
  by_cases hkey : key = id
  · subst hkey
    have hnone : pairs.lookup key = none := by
      rw [List.lookup_eq_none_iff]
      intro pair hpair
      simp only [bne_iff_ne, ne_eq]
      rintro rfl
      exact h (List.mem_map_of_mem hpair)
    simp [hnone]
  · have hone : List.lookup key [(id, value)] = none := by
      rw [List.lookup_cons, beq_false_of_ne hkey]
      rfl
    simp [hone, hkey]

/-- Where identifiers are distinct, what is found is what is there. -/
theorem lookup_iff_mem (h : (pairs.map (·.1)).Nodup) {id value : ℕ} :
    pairs.lookup id = some value ↔ (id, value) ∈ pairs := by
  induction pairs with
  | nil => simp
  | cons pair pairs ih =>
    obtain ⟨key, value'⟩ := pair
    rw [List.map_cons, List.nodup_cons] at h
    by_cases hkey : id = key
    · subst hkey
      simp only [List.lookup_cons_self, Option.some.injEq, List.mem_cons, Prod.mk.injEq, true_and]
      constructor
      · exact fun heq => .inl heq.symm
      · rintro (heq | hmem)
        · exact heq.symm
        · exact absurd (List.mem_map_of_mem hmem) h.1
    · simp only [List.lookup_cons, List.mem_cons, Prod.mk.injEq, hkey, false_and, false_or,
        ← ih h.2]
      rw [beq_false_of_ne hkey]

/-- **The order of settings does not matter**, as long as no identifier stands twice. -/
theorem peerOf_perm (hperm : pairs.Perm pairs') (h : (pairs.map (·.1)).Nodup) :
    peerOf pairs = peerOf pairs' := by
  have h' : (pairs'.map (·.1)).Nodup := (hperm.map _).nodup_iff.mp h
  have hlookup : ∀ id, pairs.lookup id = pairs'.lookup id := by
    intro id
    ext value
    rw [lookup_iff_mem h, lookup_iff_mem h', hperm.mem_iff]
  simp only [peerOf, hlookup]

/-- Whether pairs are acceptable does not depend on their order. -/
theorem Acceptable.perm (hperm : pairs.Perm pairs') (h : Acceptable pairs) : Acceptable pairs' where
  distinct := (hperm.map _).nodup_iff.mp h.distinct
  unreserved pair hpair := h.unreserved pair (hperm.mem_iff.mpr hpair)
  few := hperm.length_eq ▸ h.few
  flags pair hpair := h.flags pair (hperm.mem_iff.mpr hpair)

/-- Acceptable pairs are acceptable up to any point. -/
theorem Acceptable.of_append {more : List (ℕ × ℕ)} (h : Acceptable (pairs ++ more)) :
    Acceptable pairs where
  distinct := by
    have hdistinct := h.distinct
    rw [List.map_append, List.nodup_append] at hdistinct
    exact hdistinct.1
  unreserved pair hpair := h.unreserved pair (List.mem_append_left _ hpair)
  few := by
    have hfew := h.few
    rw [List.length_append] at hfew
    omega
  flags pair hpair := h.flags pair (List.mem_append_left _ hpair)

end Order

/-! ## What a reader makes of the settings -/

section Apply

variable {pairs : List (ℕ × ℕ)} {r : Reader} {id value : ℕ}

/-- A new identifier is set, unless its value is out of range. -/
theorem set_peerOf (h : id ∉ pairs.map (·.1)) :
    (peerOf pairs).set id value =
      if (id = enableConnectProtocol ∨ id = h3Datagram) ∧ 1 < value then .error .h3SettingsError
      else .ok (peerOf (pairs ++ [(id, value)])) := by
  have hnone : pairs.lookup id = none := by
    rw [List.lookup_eq_none_iff]
    intro pair hpair
    simp only [bne_iff_ne, ne_eq]
    rintro rfl
    exact h (List.mem_map_of_mem hpair)
  -- one identifier at a time: the value it changes is looked up under it alone
  unfold Peer.set peerOf
  simp only [lookup_concat h]
  by_cases hsize : id = maxFieldSectionSize
  · subst hsize
    simp [maxFieldSectionSize, enableConnectProtocol, h3Datagram, h3DatagramDraft04,
      wtEnableDraft02, wtEnabled]
  rw [if_neg hsize]
  by_cases hflag : (id = enableConnectProtocol ∨ id = h3Datagram) ∧ 1 < value
  · rw [if_pos hflag, if_pos hflag]
  rw [if_neg hflag, if_neg hflag]
  by_cases hconnect : id = enableConnectProtocol
  · subst hconnect
    simp [maxFieldSectionSize, enableConnectProtocol, h3Datagram, h3DatagramDraft04,
      wtEnableDraft02, wtEnabled]
  rw [if_neg hconnect]
  by_cases hdatagram : id = h3Datagram
  · subst hdatagram
    simp only [hnone]
    simp [maxFieldSectionSize, enableConnectProtocol, h3Datagram, h3DatagramDraft04,
      wtEnableDraft02, wtEnabled, Bool.or_comm]
  rw [if_neg hdatagram]
  by_cases hdraft04 : id = h3DatagramDraft04
  · subst hdraft04
    simp only [hnone]
    simp [maxFieldSectionSize, enableConnectProtocol, h3Datagram, h3DatagramDraft04,
      wtEnableDraft02, wtEnabled]
  rw [if_neg hdraft04]
  by_cases hdraft02 : id = wtEnableDraft02
  · subst hdraft02
    simp [maxFieldSectionSize, enableConnectProtocol, h3Datagram, h3DatagramDraft04,
      wtEnableDraft02, wtEnabled]
  rw [if_neg hdraft02]
  by_cases hcurrent : id = wtEnabled
  · subst hcurrent
    simp [maxFieldSectionSize, enableConnectProtocol, h3Datagram, h3DatagramDraft04,
      wtEnableDraft02, wtEnabled]
  rw [if_neg hcurrent]
  simp [Ne.symm hsize, Ne.symm hconnect, Ne.symm hdatagram, Ne.symm hdraft04, Ne.symm hdraft02,
    Ne.symm hcurrent]

/-- One more pair is acceptable when it is new, known in range and not reserved. -/
theorem acceptable_concat :
    Acceptable (pairs ++ [(id, value)]) ↔ Acceptable pairs ∧ id ∉ pairs.map (·.1) ∧ ¬ Reserved id ∧
      pairs.length < maxIds ∧ (id = enableConnectProtocol ∨ id = h3Datagram → value ≤ 1) := by
  constructor
  · intro h
    have hdistinct := h.distinct
    rw [List.map_append, List.nodup_append] at hdistinct
    have hfew := h.few
    rw [List.length_append, List.length_singleton] at hfew
    refine ⟨h.of_append, ?_, ?_, by omega, ?_⟩
    · intro hmem
      exact hdistinct.2.2 id hmem id (by simp) rfl
    · exact h.unreserved (id, value) (by simp)
    · exact h.flags (id, value) (by simp)
  · rintro ⟨h, hnew, hreserved, hfew, hflag⟩
    refine ⟨?_, ?_, ?_, ?_⟩
    · rw [List.map_append, List.nodup_append]
      refine ⟨h.distinct, by simp, ?_⟩
      intro a ha b hb
      rw [List.map_singleton, List.mem_singleton] at hb
      rintro rfl
      subst hb
      exact hnew ha
    · intro p hp
      rcases List.mem_append.mp hp with hp | hp
      · exact h.unreserved p hp
      · rw [List.mem_singleton.mp hp]
        exact hreserved
    · rw [List.length_append, List.length_singleton]
      exact hfew
    · intro p hp
      rcases List.mem_append.mp hp with hp | hp
      · exact h.flags p hp
      · rw [List.mem_singleton.mp hp]
        exact hflag

/-- The reader has taken exactly these settings. -/
structure Took (pairs : List (ℕ × ℕ)) (r : Reader) : Prop where
  acceptable : Acceptable pairs
  seen : r.seen = pairs.map (·.1)
  peer : r.peer = peerOf pairs

/-- A pair is applied exactly when it is acceptable behind the others. -/
theorem apply_took (id value : ℕ) (h : Took pairs r) :
    (∃ code, r.apply id value = .error code ∧ ¬ Acceptable (pairs ++ [(id, value)])) ∨
      ∃ r', r.apply id value = .ok r' ∧ Took (pairs ++ [(id, value)]) r' ∧ r'.pair = r.pair ∧
        r'.remaining = r.remaining := by
  have hlength : r.seen.length = pairs.length := by rw [h.seen, List.length_map]
  unfold Reader.apply
  rw [acceptable_concat]
  by_cases hrefused : Reserved id ∨ id ∈ r.seen
  · rw [if_pos hrefused]
    refine .inl ⟨_, rfl, fun hacc => ?_⟩
    rcases hrefused with hreserved | hseen
    · exact hacc.2.2.1 hreserved
    · exact hacc.2.1 (h.seen ▸ hseen)
  rw [if_neg hrefused]
  obtain ⟨hreserved, hseen⟩ := not_or.mp hrefused
  by_cases hmany : r.seen.length = maxIds
  · rw [if_pos hmany]
    refine .inl ⟨_, rfl, fun hacc => ?_⟩
    have hfew := hacc.2.2.2.1
    omega
  rw [if_neg hmany, h.peer, set_peerOf (h.seen ▸ hseen)]
  have hfew := h.acceptable.few
  by_cases hflag : (id = enableConnectProtocol ∨ id = h3Datagram) ∧ 1 < value
  · rw [if_pos hflag]
    refine .inl ⟨_, rfl, fun hacc => ?_⟩
    have hle := hacc.2.2.2.2 hflag.1
    omega
  · rw [if_neg hflag]
    refine .inr ⟨_, rfl, ⟨acceptable_concat.mpr ⟨h.acceptable, h.seen ▸ hseen, hreserved, by omega, ?_⟩,
      ?_, rfl⟩, rfl, rfl⟩
    · intro hid
      by_contra hlarge
      exact hflag ⟨hid, by omega⟩
    · simp [h.seen]

/-- A payload from its start: its settings are taken in turn, and what there is of a further one is
kept. The first one that is not acceptable ends it. -/
theorem drainPairs_took (h : Took pairs r) (hpair : r.pair = .empty) (payload : Bytes) :
    (∃ code, r.drainPairs payload = .error code ∧
        ¬ Acceptable (pairs ++ (pairsOf payload).1)) ∨
      ∃ r', r.drainPairs payload = .ok r' ∧ Took (pairs ++ (pairsOf payload).1) r' ∧
        r'.remaining = r.remaining ∧ (r'.pair.isEmpty = true ↔ (pairsOf payload).2 = []) := by
  induction hlen : payload.length using Nat.strongRecOn generalizing r pairs payload with
  | ind n ih =>
    subst hlen
    rw [Reader.drainPairs_eq, hpair]
    obtain ⟨id, value, rest, hheader, hread⟩ | ⟨hheader, pair, hread, hempty⟩ :=
      Pair.read_empty payload
    · rw [hread, pairsOf_some hheader, List.append_cons]
      have hempty : ({ r with pair := .empty } : Reader) = r := by rw [← hpair]
      simp only [hempty]
      rcases apply_took id value h with
        ⟨code, happly, hbad⟩ | ⟨r', happly, htook, hpair', hremaining⟩
      · rw [happly]
        refine .inl ⟨code, rfl, fun hacc => hbad ?_⟩
        exact hacc.of_append
      · rw [happly]
        have hrest := ih rest.length (length_lt_of_headerOf hheader) htook (hpair'.trans hpair) rest
          rfl
        rw [hremaining] at hrest
        exact hrest
    · rw [hread, pairsOf_none hheader, List.append_nil]
      exact .inr ⟨_, rfl, ⟨h.acceptable, h.seen, h.peer⟩, rfl, hempty⟩

end Apply

/-- The settings reader on what the stream holds of its frame. -/
theorem read_part {length : ℕ} {payload : Bytes} (hle : payload.length ≤ length) :
    (∃ code, Reader.read ⟨.empty, length, [], .empty⟩ payload = .error code) ∨
      Acceptable (pairsOf payload).1 ∧
        ((payload.length = length ∧ (pairsOf payload).2 = [] ∧
            ∃ r, Reader.read ⟨.empty, length, [], .empty⟩ payload =
              .ok (some (peerOf (pairsOf payload).1), r)) ∨
          (payload.length ≠ length ∧
            ∃ r, Reader.read ⟨.empty, length, [], .empty⟩ payload = .ok (none, r))) := by
  have htook : Took [] ⟨.empty, length - payload.length, [], .empty⟩ :=
    ⟨⟨List.nodup_nil, nofun, Nat.zero_le _, nofun⟩, rfl, rfl⟩
  unfold Reader.read
  obtain ⟨code, hdrain, -⟩ | ⟨r, hdrain, hr, hremaining, hempty⟩ :=
    drainPairs_took htook rfl payload
  · rw [hdrain]
    exact .inl ⟨code, rfl⟩
  · rw [hdrain]
    rw [List.nil_append] at hr
    simp only [hremaining]
    by_cases hwhole : payload.length = length
    · rw [hwhole, Nat.sub_self]
      cases hpair : r.pair.isEmpty with
      | false => exact .inl ⟨_, rfl⟩
      | true => exact .inr ⟨hr.acceptable, .inl ⟨rfl, hempty.mp hpair, r, by rw [hr.peer]⟩⟩
    · obtain ⟨n, hn⟩ : ∃ n, length - payload.length = n + 1 :=
        ⟨length - payload.length - 1, by omega⟩
      rw [hn]
      exact .inr ⟨hr.acceptable, .inr ⟨hwhole, r, rfl⟩⟩

/-! ## A whole payload -/

/-- A payload that is there as a whole. -/
def decode (payload : Bytes) : Except Code (Option Peer) :=
  match Reader.new payload.length with
  | .error code => .error code
  | .ok r => (r.read payload).map (·.1)

section Decode

variable {payload payload' : Bytes}

/-- Every setting takes at most sixteen bytes. -/
theorem length_le_of_pairsOf (h : (pairsOf payload).2 = []) :
    payload.length ≤ 16 * (pairsOf payload).1.length := by
  induction hlen : payload.length using Nat.strongRecOn generalizing payload with
  | ind n ih =>
    subst hlen
    match hheader : headerOf payload with
    | none =>
      rw [pairsOf_none hheader] at h ⊢
      have hnil : payload = [] := h
      rw [hnil]
      exact Nat.zero_le _
    | some (id, value, rest) =>
      rw [pairsOf_some hheader] at h ⊢
      have hrest := ih rest.length (length_lt_of_headerOf hheader) h rfl
      have hpair := length_le_of_headerOf hheader
      rw [List.length_cons]
      omega

/-- **What a payload is decoded to**: its settings, if they are acceptable and the last is complete. -/
theorem decode_cases (payload : Bytes) :
    (Acceptable (pairsOf payload).1 ∧ (pairsOf payload).2 = [] ∧
        decode payload = .ok (some (peerOf (pairsOf payload).1))) ∨
      (¬ (Acceptable (pairsOf payload).1 ∧ (pairsOf payload).2 = []) ∧
        ∃ code, decode payload = .error code) := by
  have htook : Took [] ⟨.empty, payload.length - payload.length, [], .empty⟩ :=
    ⟨⟨List.nodup_nil, nofun, Nat.zero_le _, nofun⟩, rfl, rfl⟩
  unfold decode Reader.new
  by_cases hlong : maxLength < payload.length
  · -- sixty-four settings fit the bound many times over
    rw [if_pos hlong]
    refine .inr ⟨?_, _, rfl⟩
    rintro ⟨hacceptable, hleft⟩
    have hle := length_le_of_pairsOf hleft
    have hfew := hacceptable.few
    unfold maxLength at hlong
    unfold maxIds at hfew
    omega
  rw [if_neg hlong]
  unfold Reader.read
  dsimp only
  obtain ⟨code, hdrain, hbad⟩ | ⟨r, hdrain, hr, hremaining, hempty⟩ :=
    drainPairs_took htook rfl payload
  · rw [hdrain]
    exact .inr ⟨fun h => hbad h.1, code, rfl⟩
  · rw [hdrain]
    rw [List.nil_append] at hr
    simp only [hremaining, Nat.sub_self]
    cases hpair : r.pair.isEmpty with
    | false =>
      refine .inr ⟨fun h => ?_, _, rfl⟩
      rw [hempty.mpr h.2] at hpair
      cases hpair
    | true =>
      refine .inl ⟨hr.acceptable, hempty.mp hpair, ?_⟩
      rw [hr.peer]
      rfl

/-- **The order of distinct identifiers does not matter**: the same settings in another order are
decoded to the same value, or refused as well. -/
theorem decode_perm (hleft : (pairsOf payload).2 = (pairsOf payload').2)
    (hperm : (pairsOf payload).1.Perm (pairsOf payload').1)
    (hdistinct : ((pairsOf payload).1.map (·.1)).Nodup) :
    (decode payload).toOption = (decode payload').toOption := by
  have hiff : Acceptable (pairsOf payload).1 ↔ Acceptable (pairsOf payload').1 :=
    ⟨fun h => h.perm hperm, fun h => h.perm hperm.symm⟩
  obtain ⟨hgood, hend, hdecode⟩ | ⟨hbad, code, hdecode⟩ := decode_cases payload
  · obtain ⟨-, -, hdecode'⟩ | ⟨hbad', -⟩ := decode_cases payload'
    · rw [hdecode, hdecode', peerOf_perm hperm hdistinct]
    · exact absurd ⟨hiff.mp hgood, hleft ▸ hend⟩ hbad'
  · obtain ⟨hgood', hend', -⟩ | ⟨-, code', hdecode'⟩ := decode_cases payload'
    · exact absurd ⟨hiff.mpr hgood', hleft.trans hend'⟩ hbad
    · rw [hdecode, hdecode']
      rfl

end Decode

end GraphiteMeter.Http3.Settings
