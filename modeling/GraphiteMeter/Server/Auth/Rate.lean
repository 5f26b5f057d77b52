import Mathlib.Data.List.Induction
import Mathlib.Data.List.TakeWhile
import Mathlib.Order.Basic
import GraphiteMeter.Lib.HashMap
import GraphiteMeter.Server.Peer

/-!
# Sign-in rates

Reference: `rust/server/src/auth/rate.rs`. Sign-ins are budgeted over a one-minute window: attempts
per client address, and ceilings all clients share. What is logged when a limit engages is not
modelled, when it was logged is.

A call checks its keys one after another and enters those the table lacks as it goes, so that a
refusal halfway leaves keys without an attempt. Nothing else is left behind: what a call does to a
key's times is to drop some that are a minute old and, when it is allowed, to append its own.
-/

namespace GraphiteMeter.Server.Auth.Rate

/-- One minute. -/
def window : ℕ := 60 * 10 ^ 9

def maxKeys : ℕ := 2048

/-- Drops the oldest attempts while they are a window old. -/
def expire (times : List ℕ) (now : ℕ) : List ℕ := times.dropWhile fun time => window ≤ now - time

/-- When the limit was last logged. -/
def engage (logged : Option ℕ) (now : ℕ) : Option ℕ :=
  if logged.any fun at_ => now - at_ < window then logged else some now

/-- Counts events across all clients. At `limit` in the window it refuses further attempts. -/
structure Ceiling where
  limit : ℕ
  times : List ℕ
  logged : Option ℕ
deriving DecidableEq, Repr

namespace Ceiling

def new (limit : ℕ) : Ceiling := ⟨limit, [], none⟩

def note (c : Ceiling) (now : ℕ) : Ceiling := { c with times := expire c.times now ++ [now] }

/-- Whether the window holds `limit` events. -/
def engaged (c : Ceiling) (now : ℕ) : Bool × Ceiling :=
  let times := expire c.times now
  if c.limit ≤ times.length then (true, { c with times, logged := engage c.logged now })
  else (false, { c with times })

end Ceiling

structure Table where
  keys : HashMap ClientKey (List ℕ)
  logged : Option ℕ

/-- Counts attempts per client against each key's share of `limit`. -/
structure Attempts where
  limit : ℕ
  table : Table

/-- Forgets the keys without an attempt in the window. -/
def purge (held : HashMap ClientKey (List ℕ)) (now : ℕ) : HashMap ClientKey (List ℕ) :=
  (held.mapValues fun _ times => expire times now).retain fun _ times => !times.isEmpty

/-- Checks the keys in turn, entering those the table lacks. -/
def check (known : Bool) (now : ℕ) : List (ClientKey × ℕ) → Table → Bool × Table
  | [], t => (true, t)
  | (key, share) :: rest, t =>
    match t.keys.lookup key with
    | some times =>
      let times := expire times now
      let t := { t with keys := t.keys.insert key times }
      if share ≤ times.length then (false, t) else check known now rest t
    | none =>
      if maxKeys ≤ t.keys.len then
        if known then check known now rest t
        else (false, { t with logged := engage t.logged now })
      else check known now rest { t with keys := t.keys.insert key [] }

/-- Records the attempt under the keys the table has. -/
def push (now : ℕ) (held : HashMap ClientKey (List ℕ)) : List ClientKey → HashMap ClientKey (List ℕ)
  | [] => held
  | key :: rest =>
    match held.lookup key with
    | some times => push now (held.insert key (times ++ [now])) rest
    | none => push now held rest

/-- A call of `allow`: the client, the ceiling it is under, and what the clock showed. -/
structure Call where
  keys : ClientKeys
  known : Bool
  ceiling : Option Ceiling
  now : ℕ
  /-- When the ceiling was asked. -/
  asked : ℕ

namespace Attempts

def new (limit : ℕ) : Attempts := ⟨limit, ⟨∅, none⟩⟩

/-- Records an attempt unless its key's share is spent, the ceiling engaged or the table full, which
`known` bypasses. The ceiling is left as it was asked. -/
def allow (a : Attempts) (c : Call) : Bool × Attempts × Option Ceiling :=
  let keys := c.keys.shares a.limit
  let held := a.table.keys
  let held := if maxKeys < held.len + keys.length then purge held c.now else held
  match check c.known c.now keys { a.table with keys := held } with
  | (false, table) => (false, { a with table }, c.ceiling)
  | (true, table) =>
    match c.ceiling.map fun ceiling => ceiling.engaged c.asked with
    | some (true, ceiling) => (false, { a with table }, some ceiling)
    | asked =>
      (true, { a with table := { table with keys := push c.now table.keys (keys.map (·.1)) } },
        asked.map (·.2))

/-- Whether each call so far was allowed, and what the next one finds. -/
def step (s : List (Call × Bool) × Attempts) (c : Call) : List (Call × Bool) × Attempts :=
  (s.1 ++ [(c, (s.2.allow c).1)], (s.2.allow c).2.1)

/-- A limiter's calls one after another. -/
def run (limit : ℕ) (calls : List Call) : List (Call × Bool) × Attempts :=
  calls.foldl step ([], new limit)

end Attempts

/-! ## What is held of a key -/

/-- A key's attempts. -/
def held (keys : HashMap ClientKey (List ℕ)) (key : ClientKey) : List ℕ := (keys.lookup key).getD []

/-- Those within a window of `now`. -/
def young (now : ℕ) (times : List ℕ) : List ℕ := times.filter fun time => now - time < window

/-- `after` is `before` without some of its first, all a window old at `now`. -/
def Thinned (now : ℕ) (before after : List ℕ) : Prop :=
  ∃ dropped, before = dropped ++ after ∧ ∀ time ∈ dropped, window ≤ now - time

namespace Thinned

variable {now : ℕ} {before mid after : List ℕ}

/-- What is unchanged is thinned. -/
theorem refl (now : ℕ) (times : List ℕ) : Thinned now times times :=
  ⟨[], rfl, fun _ h => absurd h List.not_mem_nil⟩

/-- Thinning goes on. -/
theorem trans (h : Thinned now before mid) (h' : Thinned now mid after) :
    Thinned now before after := by
  obtain ⟨dropped, rfl, hdropped⟩ := h
  obtain ⟨dropped', rfl, hdropped'⟩ := h'
  refine ⟨dropped ++ dropped', (List.append_assoc _ _ _).symm, fun time htime => ?_⟩
  exact (List.mem_append.mp htime).elim (hdropped time) (hdropped' time)

/-- Thinned times are the newest of those before. -/
theorem suffix (h : Thinned now before after) : after <:+ before := by
  obtain ⟨dropped, rfl, -⟩ := h
  exact List.suffix_append _ _

/-- No attempt younger than a window goes, then or later. -/
theorem young_eq (h : Thinned now before after) {later : ℕ} (hlater : now ≤ later) :
    young later before = young later after := by
  obtain ⟨dropped, rfl, hdropped⟩ := h
  have hnone : young later dropped = [] := by
    rw [young, List.filter_eq_nil_iff]
    intro time htime
    have := hdropped time htime
    rw [decide_eq_true_eq]
    omega
  rw [young, List.filter_append]
  exact (congrArg (· ++ _) hnone).trans (List.nil_append _)

end Thinned

/-- Expiry thins. -/
theorem expire_thinned (times : List ℕ) (now : ℕ) : Thinned now times (expire times now) :=
  ⟨times.takeWhile fun time => window ≤ now - time, (List.takeWhile_append_dropWhile ..).symm,
    fun _ h => by simpa using List.mem_takeWhile_imp h⟩

/-- A key holds the times that are stored for it. -/
theorem held_of_lookup {keys : HashMap ClientKey (List ℕ)} {key : ClientKey} {times : List ℕ}
    (h : keys.lookup key = some times) : held keys key = times := by rw [held, h, Option.getD_some]

/-- Storing times changes what one key holds. -/
theorem held_insert (keys : HashMap ClientKey (List ℕ)) (key other : ClientKey) (times : List ℕ) :
    held (keys.insert key times) other = if other = key then times else held keys other := by
  rw [held]
  split_ifs with h
  · rw [h, AList.lookup_insert, Option.getD_some]
  · rw [AList.lookup_insert_ne h, held]

/-- **A purge forgets old attempts only.** -/
theorem purge_thinned (keys : HashMap ClientKey (List ℕ)) (now : ℕ) (key : ClientKey) :
    Thinned now (held keys key) (held (purge keys now) key) := by
  refine (expire_thinned (held keys key) now).trans ?_
  have hmapped : held (keys.mapValues fun _ times => expire times now) key
      = expire (held keys key) now := by
    rw [held, AList.lookup_mapValues, held]
    cases keys.lookup key <;> rfl
  rw [← hmapped]
  -- a key that goes has nothing left
  match hlookup : (purge keys now).lookup key with
  | some times =>
    rw [held_of_lookup hlookup, held_of_lookup (AList.lookup_retain_eq_some.mp hlookup).1]
    exact .refl now times
  | none =>
    have hnil : held (keys.mapValues fun _ times => expire times now) key = [] := by
      rw [held]
      match hold : (keys.mapValues fun _ times => expire times now).lookup key with
      | none => rfl
      | some [] => rfl
      | some (time :: times) =>
        have hkept : (purge keys now).lookup key = some (time :: times) :=
          AList.lookup_retain_eq_some.mpr ⟨hold, rfl⟩
        exact absurd (hlookup.symm.trans hkept) (Option.some_ne_none _).symm
    rw [hnil, held, hlookup]
    exact .refl now []

/-! ## The size of the table -/

/-- A purge adds no key. -/
theorem len_purge_le (keys : HashMap ClientKey (List ℕ)) (now : ℕ) :
    (purge keys now).len ≤ keys.len := by
  calc (purge keys now).len
      ≤ (keys.mapValues fun _ times => expire times now).len := List.filter_sublist.length_le
    _ = keys.len := List.length_map _

/-- Storing times for a known key adds none. -/
theorem len_insert_of_lookup {keys : HashMap ClientKey (List ℕ)} {key : ClientKey}
    {times times' : List ℕ} (h : keys.lookup key = some times) :
    (keys.insert key times').len = keys.len := by
  have herase : (keys.erase key).len + 1 = keys.len := by
    rw [AList.len, AList.len, (AList.perm_cons_erase h).length_eq, List.length_cons]
  rw [← herase]
  rfl

/-- Counting an attempt adds no key. -/
theorem len_push (now : ℕ) (keys : HashMap ClientKey (List ℕ)) (pushed : List ClientKey) :
    (push now keys pushed).len = keys.len := by
  induction pushed generalizing keys with
  | nil => rfl
  | cons key rest ih =>
    rw [push]
    match hlookup : keys.lookup key with
    | some times => exact (ih _).trans (len_insert_of_lookup hlookup)
    | none => exact ih keys

/-- A check keeps the keys within their bound. -/
theorem len_check_le {known : Bool} {now : ℕ} {shares : List (ClientKey × ℕ)} {t : Table}
    (h : t.keys.len ≤ maxKeys) : (check known now shares t).2.keys.len ≤ maxKeys := by
  induction shares generalizing t with
  | nil => exact h
  | cons head rest ih =>
    obtain ⟨key, share⟩ := head
    rw [check]
    match hlookup : t.keys.lookup key with
    | some times =>
      have hlen : (t.keys.insert key (expire times now)).len ≤ maxKeys :=
        (len_insert_of_lookup hlookup).trans_le h
      simp only
      split_ifs
      · exact hlen
      · exact ih hlen
    | none =>
      simp only
      split_ifs with hfull hknown
      · exact ih h
      · exact h
      · have habsent : key ∉ t.keys := AList.lookup_eq_none.mp hlookup
        refine ih ?_
        show (t.keys.insert key []).len ≤ maxKeys
        rw [AList.len_insert habsent]
        omega

/-! ## What a call does to a key -/

/-- Checking keys expires and enters, so that a refusal halfway leaves no attempt. -/
theorem check_thinned (known : Bool) (now : ℕ) (shares : List (ClientKey × ℕ)) (t : Table)
    (key : ClientKey) :
    Thinned now (held t.keys key) (held (check known now shares t).2.keys key) := by
  induction shares generalizing t with
  | nil => exact .refl now _
  | cons head rest ih =>
    obtain ⟨other, share⟩ := head
    rw [check]
    match hlookup : t.keys.lookup other with
    | some times =>
      have hexpired :
          Thinned now (held t.keys key) (held (t.keys.insert other (expire times now)) key) := by
        rw [held_insert]
        split_ifs with hkey
        · rw [hkey, held_of_lookup hlookup]
          exact expire_thinned times now
        · exact .refl now _
      simp only
      split_ifs
      · exact hexpired
      · exact hexpired.trans (ih { t with keys := t.keys.insert other (expire times now) })
    | none =>
      have hentered : held (t.keys.insert other []) key = held t.keys key := by
        rw [held_insert]
        split_ifs with hkey
        · rw [hkey, held, hlookup, Option.getD_none]
        · rfl
      simp only
      split_ifs
      · exact ih t
      · exact .refl now _
      · rw [← hentered]
        exact ih { t with keys := t.keys.insert other [] }

/-- A key the table has is still there after the others are checked. -/
theorem mem_check {known : Bool} {now : ℕ} {shares : List (ClientKey × ℕ)} {t : Table}
    {key : ClientKey} (h : key ∈ t.keys) : key ∈ (check known now shares t).2.keys := by
  induction shares generalizing t with
  | nil => exact h
  | cons head rest ih =>
    obtain ⟨other, share⟩ := head
    have hinsert : ∀ times, key ∈ t.keys.insert other times := fun times =>
      (AList.mem_insert _).mpr (.inr h)
    rw [check]
    match t.keys.lookup other with
    | some times =>
      simp only
      split_ifs
      · exact hinsert _
      · exact ih (hinsert _)
    | none =>
      simp only
      split_ifs
      · exact ih h
      · exact h
      · exact ih (hinsert _)

/-- Every key of a call that passes is in the table, below its share. -/
theorem lt_share_of_check {now : ℕ} {shares : List (ClientKey × ℕ)} {t : Table} {key : ClientKey}
    {share : ℕ} (hpos : ∀ e ∈ shares, 0 < e.2) (h : (check false now shares t).1 = true)
    (hmem : (key, share) ∈ shares) :
    key ∈ (check false now shares t).2.keys ∧
      (held (check false now shares t).2.keys key).length < share := by
  induction shares generalizing t with
  | nil => exact absurd hmem List.not_mem_nil
  | cons head rest ih =>
    obtain ⟨other, amount⟩ := head
    have hrest : ∀ e ∈ rest, 0 < e.2 := fun e he => hpos e (List.mem_cons_of_mem _ he)
    -- a key once checked is only thinned by checking the others
    have hlater : ∀ times : List ℕ, times.length < amount →
        other ∈ (check false now rest { t with keys := t.keys.insert other times }).2.keys ∧
          (held (check false now rest { t with keys := t.keys.insert other times }).2.keys
            other).length < amount := by
      intro times hlt
      refine ⟨mem_check ((AList.mem_insert _).mpr (.inl rfl)), lt_of_le_of_lt ?_ hlt⟩
      have hthin := (check_thinned false now rest { t with keys := t.keys.insert other times }
        other).suffix.length_le
      rwa [show held (t.keys.insert other times) other = times by
        rw [held_insert, if_pos rfl]] at hthin
    rw [check] at h ⊢
    match hlookup : t.keys.lookup other with
    | some times =>
      simp only [hlookup] at h ⊢
      split_ifs at h ⊢ with hfull
      rcases List.mem_cons.mp hmem with heq | hmem
      · cases heq
        exact hlater _ (not_le.mp hfull)
      · exact ih hrest h hmem
    | none =>
      simp only [hlookup, Bool.false_eq_true, if_false] at h ⊢
      split_ifs at h ⊢ with hfull
      rcases List.mem_cons.mp hmem with heq | hmem
      · cases heq
        exact hlater _ (hpos _ List.mem_cons_self)
      · exact ih hrest h hmem

/-- Pushing appends the attempt to the keys the table has. -/
theorem held_push {now : ℕ} {keys : HashMap ClientKey (List ℕ)} {pushed : List ClientKey}
    (hnodup : pushed.Nodup) (hmem : ∀ key ∈ pushed, key ∈ keys) (key : ClientKey) :
    held (push now keys pushed) key
      = if key ∈ pushed then held keys key ++ [now] else held keys key := by
  induction pushed generalizing keys with
  | nil => rfl
  | cons other rest ih =>
    obtain ⟨hother, hnodup⟩ := List.nodup_cons.mp hnodup
    obtain ⟨times, hlookup⟩ := AList.mem_iff_exists_lookup.mp (hmem other List.mem_cons_self)
    rw [push]
    simp only [hlookup]
    rw [ih hnodup fun key hkey =>
      (AList.mem_insert _).mpr (.inr (hmem key (List.mem_cons_of_mem _ hkey))), held_insert]
    by_cases hkey : key = other
    · subst hkey
      rw [if_neg hother, if_pos rfl, if_pos List.mem_cons_self, held_of_lookup hlookup]
    · simp only [List.mem_cons, hkey, false_or, if_false]

namespace Attempts

/-- What a call finds once its keys are checked. -/
def checked (a : Attempts) (c : Call) : Bool × Table :=
  let held := a.table.keys
  let held := if maxKeys < held.len + (c.keys.shares a.limit).length then purge held c.now else held
  check c.known c.now (c.keys.shares a.limit) { a.table with keys := held }

/-- A call is refused with its keys checked, or passes the check and is recorded. -/
theorem allow_cases (a : Attempts) (c : Call) :
    (a.allow c).2.1.limit = a.limit ∧
      (((a.allow c).1 = false ∧ (a.allow c).2.1.table = (a.checked c).2) ∨
        ((a.allow c).1 = true ∧ (a.checked c).1 = true ∧
          (a.allow c).2.1.table.keys = push c.now (a.checked c).2.keys c.keys.iter)) := by
  rw [allow, ← checked, ClientKeys.map_fst_shares]
  match hchecked : a.checked c with
  | (false, table) => exact ⟨rfl, .inl ⟨rfl, rfl⟩⟩
  | (true, table) =>
    match hasked : c.ceiling.map fun ceiling => ceiling.engaged c.asked with
    | some (true, ceiling) => simp [hasked]
    | some (false, ceiling) => simp [hasked]
    | none => simp [hasked]

variable {a : Attempts} {c : Call}

/-- A check thins what a key holds. -/
theorem checked_thinned (a : Attempts) (c : Call) (key : ClientKey) :
    Thinned c.now (held a.table.keys key) (held (a.checked c).2.keys key) := by
  rw [checked]
  split_ifs
  · refine (purge_thinned a.table.keys c.now key).trans ?_
    exact check_thinned _ _ _ { a.table with keys := purge a.table.keys c.now } key
  · exact check_thinned _ _ _ a.table key

/-- A checked table is within its bound. -/
theorem len_checked_le (h : a.table.keys.len ≤ maxKeys) : (a.checked c).2.keys.len ≤ maxKeys := by
  rw [checked]
  split_ifs
  · exact len_check_le ((len_purge_le _ _).trans h)
  · exact len_check_le h

/-- **The table never outgrows its cap.** -/
theorem len_allow_le (h : a.table.keys.len ≤ maxKeys) :
    (a.allow c).2.1.table.keys.len ≤ maxKeys := by
  rcases (allow_cases a c).2 with ⟨-, htable⟩ | ⟨-, -, hkeys⟩
  · rw [htable]
    exact len_checked_le h
  · rw [hkeys, len_push]
    exact len_checked_le h

/-- **A refused call counts against no key.** -/
theorem refused_thinned (h : (a.allow c).1 = false) (key : ClientKey) :
    Thinned c.now (held a.table.keys key) (held (a.allow c).2.1.table.keys key) := by
  rcases (allow_cases a c).2 with ⟨-, htable⟩ | ⟨htrue, -⟩
  · rw [htable]
    exact checked_thinned a c key
  · rw [h] at htrue
    cases htrue

/-- A doubled share is positive. -/
theorem doubled_pos {share : ℕ} (h : 0 < share) (i : ℕ) : 0 < ClientKeys.doubled share i := by
  induction i with
  | zero => exact h
  | succ i ih =>
    rw [ClientKeys.doubled, Word.saturatingMul]
    exact lt_min (Nat.mul_pos ih Nat.two_pos) (by decide)

/-- Every key's share is positive. -/
theorem share_pos {keys : ClientKeys} {limit : ℕ} (hlimit : 0 < limit) :
    ∀ e ∈ keys.shares limit, 0 < e.2 := by
  rintro ⟨key, amount⟩ he
  rw [ClientKeys.share_eq he]
  exact doubled_pos hlimit _

/-- An allowed call counts once against each of its keys, which were below their shares. -/
theorem allowed_held (hlimit : 0 < a.limit) (hknown : c.known = false) (h : (a.allow c).1 = true)
    (key : ClientKey) :
    ∃ rest, Thinned c.now (held a.table.keys key) rest ∧
      held (a.allow c).2.1.table.keys key = (if key ∈ c.keys.iter then rest ++ [c.now] else rest) ∧
      ∀ share, (key, share) ∈ c.keys.shares a.limit → rest.length < share := by
  rcases (allow_cases a c).2 with ⟨hfalse, -⟩ | ⟨-, hpassed, hkeys⟩
  · rw [h] at hfalse
    cases hfalse
  · have hlt : ∀ key share, (key, share) ∈ c.keys.shares a.limit →
        key ∈ (a.checked c).2.keys ∧ (held (a.checked c).2.keys key).length < share := by
      intro key share hmem
      rw [checked, hknown] at hpassed ⊢
      exact lt_share_of_check (share_pos hlimit) hpassed hmem
    refine ⟨held (a.checked c).2.keys key, checked_thinned a c key, ?_, fun share hmem =>
      (hlt key share hmem).2⟩
    rw [hkeys]
    refine held_push c.keys.nodup_iter (fun key hkey => ?_) key
    rw [← ClientKeys.map_fst_shares c.keys a.limit] at hkey
    obtain ⟨⟨_, share⟩, hmem, rfl⟩ := List.mem_map.mp hkey
    exact (hlt _ share hmem).1

end Attempts

/-! ## Every sequence of calls -/

/-- When calls of a key were allowed. -/
def allowed (log : List (Call × Bool)) (key : ClientKey) : List ℕ :=
  (log.filter fun e => e.2 ∧ key ∈ e.1.keys.iter).map (·.1.now)

/-- Those from `start` on, up to a window later. -/
def within (start : ℕ) (times : List ℕ) : List ℕ :=
  times.filter fun time => start ≤ time ∧ time < start + window

/-- One more call may be one more allowed attempt. -/
theorem allowed_snoc (log : List (Call × Bool)) (c : Call) (ok : Bool) (key : ClientKey) :
    allowed (log ++ [(c, ok)]) key
      = allowed log key ++ if ok ∧ key ∈ c.keys.iter then [c.now] else [] := by
  rw [allowed, List.filter_append, List.map_append, ← allowed]
  by_cases h : ok ∧ key ∈ c.keys.iter
  · rw [List.filter_cons_of_pos (by simpa using h), if_pos h]
    rfl
  · rw [List.filter_cons_of_neg (by simpa using h), if_neg h]
    rfl

/-- What holds after calls up to `now`. -/
structure Counted (limit now : ℕ) (log : List (Call × Bool)) (a : Attempts) : Prop where
  limit_eq : a.limit = limit
  before : ∀ e ∈ log, e.1.now ≤ now
  len_le : a.table.keys.len ≤ maxKeys
  /-- The table holds what was allowed and is younger than a window, now and later. -/
  young_eq : ∀ key later, now ≤ later →
    young later (held a.table.keys key) = young later (allowed log key)
  within_le : ∀ keys : ClientKeys, ∀ key share, (key, share) ∈ keys.shares limit →
    ∀ start, (within start (allowed log key)).length ≤ share

namespace Counted

variable {limit now : ℕ} {log : List (Call × Bool)} {a : Attempts} {c : Call}

/-- No call came yet. -/
theorem new (limit : ℕ) : Counted limit 0 [] (.new limit) where
  limit_eq := rfl
  before := fun _ h => absurd h List.not_mem_nil
  len_le := Nat.zero_le _
  young_eq := fun _ _ _ => rfl
  within_le := fun _ _ _ _ _ => Nat.zero_le _

/-- A window that holds the call holds, of what was allowed before, what the call still counted. -/
theorem within_le_young (h : Counted limit now log a) (key : ClientKey) {start time : ℕ}
    (hnow : now ≤ time) (htime : time < start + window) :
    (within start (allowed log key)).length ≤ (young time (held a.table.keys key)).length := by
  rw [h.young_eq key time hnow]
  refine (List.monotone_filter_right _ fun earlier hwithin => ?_).length_le
  simp only [Bool.decide_and, Bool.and_eq_true, decide_eq_true_eq] at hwithin ⊢
  omega

/-- **One call** keeps the count of what was allowed. -/
theorem step (h : Counted limit now log a) (hlimit : 0 < limit) (hknown : c.known = false)
    (hnow : now ≤ c.now) :
    Counted limit c.now (Attempts.step (log, a) c).1 (Attempts.step (log, a) c).2 where
  limit_eq := (Attempts.allow_cases a c).1.trans h.limit_eq
  before := by
    intro e he
    rcases List.mem_append.mp he with he | he
    · exact (h.before e he).trans hnow
    · rw [List.mem_singleton.mp he]
  len_le := Attempts.len_allow_le h.len_le
  young_eq := by
    intro key later hlater
    show young later (held (a.allow c).2.1.table.keys key) = young later (allowed (log ++ [_]) key)
    rw [allowed_snoc]
    cases hok : (a.allow c).1 with
    | false =>
      rw [if_neg (by simp), List.append_nil, ← h.young_eq key later (hnow.trans hlater)]
      exact ((Attempts.refused_thinned hok key).young_eq hlater).symm
    | true =>
      obtain ⟨rest, hrest, hheld, -⟩ :=
        Attempts.allowed_held (h.limit_eq.symm ▸ hlimit) hknown hok key
      have hyoung : young later rest = young later (allowed log key) :=
        (hrest.young_eq hlater).symm.trans (h.young_eq key later (hnow.trans hlater))
      rw [hheld]
      by_cases hkey : key ∈ c.keys.iter
      · rw [if_pos hkey, if_pos ⟨rfl, hkey⟩, young, List.filter_append, ← young, hyoung, young,
          ← List.filter_append, ← young]
      · rw [if_neg hkey, if_neg fun h => hkey h.2, List.append_nil, hyoung]
  within_le := by
    intro keys key share hshare start
    show (within start (allowed (log ++ [_]) key)).length ≤ share
    rw [allowed_snoc]
    have hbefore := h.within_le keys key share hshare start
    by_cases hcounted : (a.allow c).1 ∧ key ∈ c.keys.iter
    · rw [if_pos hcounted, within, List.filter_append, List.length_append, ← within]
      by_cases hwithin : start ≤ c.now ∧ c.now < start + window
      · -- the window holds the call: all before it still counted, and the key was below its share
        obtain ⟨rest, hrest, -, hlt⟩ :=
          Attempts.allowed_held (h.limit_eq.symm ▸ hlimit) hknown hcounted.1 key
        have hkey : (key, share) ∈ c.keys.shares a.limit := by
          obtain ⟨⟨_, amount⟩, hmem, rfl⟩ := List.mem_map.mp
            (ClientKeys.map_fst_shares c.keys a.limit ▸ hcounted.2)
          have heq : share = amount := by
            rw [ClientKeys.share_eq hshare, ClientKeys.share_eq hmem, h.limit_eq]
          exact heq ▸ hmem
        have hyoung : (within start (allowed log key)).length ≤ rest.length :=
          calc (within start (allowed log key)).length
              ≤ (young c.now (held a.table.keys key)).length :=
                h.within_le_young key hnow hwithin.2
            _ = (young c.now rest).length := by rw [hrest.young_eq le_rfl]
            _ ≤ rest.length := List.length_filter_le _ _
        have := hlt share hkey
        rw [List.filter_cons_of_pos (by simpa using hwithin), List.filter_nil, List.length_singleton]
        omega
      · rw [List.filter_cons_of_neg (by simpa using hwithin), List.filter_nil, List.length_nil]
        exact hbefore
    · rw [if_neg hcounted, List.append_nil]
      exact hbefore

end Counted

/-- Calls are taken one after another. -/
theorem Attempts.run_snoc (limit : ℕ) (calls : List Call) (c : Call) :
    run limit (calls ++ [c]) = step (run limit calls) c := List.foldl_concat ..

/-- Every run in the clock's order keeps that count. -/
theorem Attempts.run_counted {limit : ℕ} (hlimit : 0 < limit) {calls : List Call}
    (hsorted : (calls.map (·.now)).Pairwise (· ≤ ·)) (hknown : ∀ c ∈ calls, c.known = false) :
    Counted limit ((calls.map (·.now)).getLast?.getD 0) (run limit calls).1 (run limit calls).2 := by
  induction calls using List.reverseRecOn with
  | nil => exact .new limit
  | append_singleton calls c ih =>
    rw [List.map_append, List.pairwise_append] at hsorted
    have hcounted := ih hsorted.1 fun c hc => hknown c (List.mem_append_left _ hc)
    have hnow : (calls.map (·.now)).getLast?.getD 0 ≤ c.now := by
      cases hlast : (calls.map (·.now)).getLast? with
      | none => exact Nat.zero_le _
      | some last =>
        exact hsorted.2.2 last (List.mem_of_getLast? hlast) c.now (List.mem_singleton_self _)
    rw [run_snoc, List.map_append, List.map_singleton, List.getLast?_concat, Option.getD_some]
    exact hcounted.step hlimit (hknown c (List.mem_append_right _ (List.mem_singleton_self _))) hnow

/-- **Sign-in rates.** With a limit above zero, which every limiter has, after any calls at times that
do not fall: in any window as many calls of a key were allowed as its share, at most; the table is
within its cap; it holds of every key, also when it is purged, what was allowed of it in the last
window and so no refused call; and a call refused now leaves no attempt under any key. -/
theorem sign_ins_limited {limit : ℕ} (hlimit : 0 < limit) {calls : List Call}
    (hsorted : (calls.map (·.now)).Pairwise (· ≤ ·)) (hknown : ∀ c ∈ calls, c.known = false) :
    let s := Attempts.run limit calls
    (∀ keys : ClientKeys, ∀ key share, (key, share) ∈ keys.shares limit →
      ∀ start, (within start (allowed s.1 key)).length ≤ share) ∧
    s.2.table.keys.len ≤ maxKeys ∧
    (∀ key now, (∀ c ∈ calls, c.now ≤ now) →
      young now (held s.2.table.keys key) = young now (allowed s.1 key) ∧
      young now (held (purge s.2.table.keys now) key) = young now (allowed s.1 key)) ∧
    ∀ c : Call, (s.2.allow c).1 = false →
      ∀ key, held (s.2.allow c).2.1.table.keys key <:+ held s.2.table.keys key := by
  have hcounted := Attempts.run_counted hlimit hsorted hknown
  refine ⟨hcounted.within_le, hcounted.len_le, fun key now hnow => ?_, fun c hrefused key =>
    (Attempts.refused_thinned hrefused key).suffix⟩
  have hlast : (calls.map (·.now)).getLast?.getD 0 ≤ now := by
    cases hlast : (calls.map (·.now)).getLast? with
    | none => exact Nat.zero_le _
    | some last =>
      obtain ⟨c, hc, rfl⟩ := List.mem_map.mp (List.mem_of_getLast? hlast)
      exact hnow c hc
  have hyoung := hcounted.young_eq key now hlast
  refine ⟨hyoung, ?_⟩
  rw [← (purge_thinned (Attempts.run limit calls).2.table.keys now key).young_eq le_rfl, hyoung]

/-- Three attempts of one client under a limit of two, the third refused. -/
def threeCalls : List Call := [1, 2, 3].map fun now => ⟨.v4 7, false, none, now, now⟩

/-- Of three calls of one address at limit two the third is refused. -/
theorem sign_ins_limited_three :
    0 < 2 ∧ ((threeCalls.map (·.now)).Pairwise (· ≤ ·)) ∧ (∀ c ∈ threeCalls, c.known = false) ∧
      ((Attempts.run 2 threeCalls).1.map (·.2)) = [true, true, false] ∧
      ∀ start, (within start (allowed (Attempts.run 2 threeCalls).1 (.v4 7))).length ≤ 2 :=
  have hsorted : (threeCalls.map (·.now)).Pairwise (· ≤ ·) := by decide
  have hknown : ∀ c ∈ threeCalls, c.known = false := by
    intro c hc
    obtain ⟨now, -, rfl⟩ := List.mem_map.mp hc
    rfl
  ⟨by decide, hsorted, hknown, by decide,
    (sign_ins_limited (by decide) hsorted hknown).1 (.v4 7) (.v4 7) 2 (by decide)⟩

end GraphiteMeter.Server.Auth.Rate
