import GraphiteMeter.Server.Upload.Capacity

/-!
# An upload belongs to its owner

An aggregate's owner is set when it is made and never after (`owner_of_run`). A call reaches an
aggregate only with client keys whose narrowest is that owner (`Reached.owned`), and one that is
refused has changed nothing but what a due sweep did (`Reached.untouched`): on every path of `reach`
the last refusal comes before the first change, and a displacement is never followed by one.

Reference: `rust/server/src/engine/uploads.rs` (`begin`, `subscribe`, `checkpoint`, `finish`, `reach`),
`rust/server/src/peer.rs` (`ClientKeys`).
-/

namespace GraphiteMeter.Server.Upload

open Http3 (Bytes)

namespace Store

variable {env : Env} {s s' : Store} {id : UploadId} {owner : Option ClientKeys} {reach : Reach}
  {r : Readings}

/-- **A call reaches what its client owns.** -/
theorem Reached.owned {ref : ℕ} (h : Reached env s id owner reach r (.ok ref) s') :
    (s'.live.lookup id).map (·.aggregate) = some ref ∧
      owner.bind ClientKeys.narrowest = some (s'.heap ref).owner := by
  cases h with
  | found entry hlive howner hne =>
    rw [hlive]
    exact ⟨rfl, howner⟩
  | joined entry hlive howner heq a hjoin =>
    rw [(Aggregate.join_eq_ok hjoin).2]
    refine ⟨?_, ?_⟩
    · show (s.live.lookup id).map _ = _
      rw [hlive]
      rfl
    · simp only [Store.set, Function.update_self]
      exact howner
  | created keys key hold howner hkey hlive hne htomb hvalid hhold =>
    rw [← (charge_pruned s keys r.displaced).size]
    refine ⟨?_, ?_⟩
    · simp only [Store.create, AList.lookup_insert]
      rfl
    · rw [howner, Option.bind_some, hkey]
      simp only [Store.create, Function.update_self]

/-- **A refused call changes nothing** the store knows of its uploads. -/
theorem Reached.untouched {refusal : Refusal} (haccounted : Accounted s)
    (h : Reached env s id owner reach r (.error refusal) s') :
    s'.live = s.live ∧ s'.tombstones = s.tombstones ∧ s'.heap = s.heap ∧ s'.size = s.size := by
  cases h with
  | refused refusal => exact ⟨rfl, rfl, rfl, rfl⟩
  | full refusal keys hcharge =>
    have hcharged := charge_charged haccounted keys r.displaced
    rw [hcharge] at hcharged
    generalize (s.charge keys r.displaced).2 = after at hcharged
    cases hcharged with
    | refused refusal quota hcapped => exact ⟨rfl, rfl, rfl, rfl⟩

/-- No call changes an owner. -/
theorem Reached.keeps_owner {res : Except Refusal ℕ} (h : Reached env s id owner reach r res s') {ref : ℕ}
    (href : ref < s.size) : (s'.heap ref).owner = (s.heap ref).owner := by
  cases h with
  | refused refusal => rfl
  | found entry hlive howner hne => rfl
  | joined entry hlive howner heq a hjoin =>
    rw [(Aggregate.join_eq_ok hjoin).2]
    by_cases hsame : ref = entry.aggregate
    · subst hsame
      simp only [Store.set, Function.update_self]
    · simp only [Store.set, Function.update_of_ne hsame]
  | full refusal keys hcharge => exact (charge_pruned s keys r.displaced).owner ref
  | created keys key hold howner hkey hlive hne htomb hvalid hhold =>
    have hpruned := charge_pruned s keys r.displaced
    have hne : ref ≠ (s.charge keys r.displaced).2.size := by
      rw [hpruned.size]
      exact Nat.ne_of_lt href
    simp only [Store.create, Function.update_of_ne hne]
    exact hpruned.owner ref

/-- Reaching an upload keeps every aggregate's owner. -/
theorem reach_owner (env : Env) (s : Store) (text : Bytes) (owner : Option ClientKeys)
    (reach : Reach) (r : Readings) {ref : ℕ} (href : ref < s.size) :
    ((s.reach env text owner reach r).2.heap ref).owner = (s.heap ref).owner := by
  have hpruned := entries_pruned s r
  rcases reach_cases env s text owner reach r with ⟨refusal, heq⟩ | ⟨id, hid, hreached⟩
  · rw [heq]
  · rw [← hpruned.size] at href
    exact (hreached.keeps_owner href).trans (hpruned.owner ref)

/-- Reaching an upload takes no place of the heap back. -/
theorem reach_size (env : Env) (s : Store) (text : Bytes) (owner : Option ClientKeys)
    (reach : Reach) (r : Readings) : s.size ≤ (s.reach env text owner reach r).2.size := by
  rcases reach_cases env s text owner reach r with ⟨refusal, heq⟩ | ⟨id, hid, hreached⟩
  · rw [heq]
  · rw [← (entries_pruned s r).size]
    exact hreached.size_le

/-- Writing an aggregate of the same owner keeps every owner. -/
theorem set_owner (s : Store) {ref' : ℕ} {a : Aggregate} (ha : a.owner = (s.heap ref').owner)
    (ref : ℕ) : ((s.set ref' a).heap ref).owner = (s.heap ref).owner := by
  by_cases hsame : ref = ref'
  · subst hsame
    simp only [Store.set, Function.update_self]
    exact ha
  · simp only [Store.set, Function.update_of_ne hsame]

end Store

namespace World

variable {env : Env} {w w' : World} {log events : List Event}

/-- One action leaves every owner as it is. -/
theorem step_owner {a : Action} (hstep : w.step env a = some (w', events)) :
    w.store.size ≤ w'.store.size ∧
      ∀ ref < w.store.size, (w'.store.heap ref).owner = (w.store.heap ref).owner := by
  cases step_cases hstep with
  | minted id => exact ⟨le_rfl, fun _ _ => rfl⟩
  | entered store r hle hstore =>
    rcases hstore with rfl | rfl
    · exact ⟨le_rfl, fun _ _ => rfl⟩
    · have hpruned := Store.entries_pruned w.store r
      exact ⟨hpruned.size.ge, fun ref _ => hpruned.owner ref⟩
  | refused text owner reach r refusal store hle hreach =>
    have hsize := Store.reach_size env w.store text owner reach r
    have howner := fun ref => @Store.reach_owner env w.store text owner reach r ref
    rw [hreach] at hsize howner
    exact ⟨hsize, howner⟩
  | began text owner r ref store hle hreach =>
    -- an aggregate that is made comes behind all that were there
    have hsize := Store.reach_size env w.store text owner .join r
    have howner := fun ref => @Store.reach_owner env w.store text owner .join r ref
    rw [hreach] at hsize howner
    exact ⟨hsize, howner⟩
  | called call text owner r ref store hle hreach =>
    have hsize := Store.reach_size env w.store text owner call.reach r
    have howner := fun ref => @Store.reach_owner env w.store text owner call.reach r ref
    rw [hreach] at hsize howner
    exact ⟨hsize, howner⟩
  | proceeded i call ref now hcall =>
    cases call with
    | finish =>
      refine ⟨le_rfl, fun ref' _ => Store.set_owner _ ?_ ref'⟩
      rw [Aggregate.finalize]
      split_ifs <;> rfl
    | checkpoint => exact ⟨le_rfl, fun _ _ => rfl⟩
    | subscribe =>
      refine ⟨le_rfl, fun ref' _ => Store.set_owner _ ?_ ref'⟩
      rfl
  | recorded i sink bytes now hsink hbytes =>
    refine ⟨le_rfl, fun ref' _ => w.store.set_owner ?_ ref'⟩
    rfl
  | added i sink bytes hsink =>
    refine ⟨le_rfl, fun ref' _ => w.store.set_owner ?_ ref'⟩
    rfl
  | dropped i sink now a hsink htouched hleave =>
    refine ⟨le_rfl, fun ref' _ => w.store.set_owner ?_ ref'⟩
    rw [(Aggregate.leave_eq_some hleave).2]
  | fed i feed ticked now hfeed => exact ⟨le_rfl, fun _ _ => rfl⟩
  | rehashed live hperm => exact ⟨le_rfl, fun _ _ => rfl⟩

/-- **An owner never changes**, along any run. -/
theorem owner_of_run {actions : List Action}
    (hrun : Machine.run (step env) w actions = some (w', events)) {ref : ℕ}
    (href : ref < w.store.size) : (w'.store.heap ref).owner = (w.store.heap ref).owner := by
  have hkept := Machine.run_keeps
    (fun v : World => ref < v.store.size ∧ (v.store.heap ref).owner = (w.store.heap ref).owner)
    (fun _ _ _ _ h hstep =>
      ⟨h.1.trans_le (step_owner hstep).1, ((step_owner hstep).2 ref h.1).trans h.2⟩)
    ⟨href, rfl⟩ hrun
  exact hkept.2

/-! ## Calls -/

/-- A call on `text` reached `ref`: it is the live aggregate of that ID, and the narrowest of the
client's keys is its owner. -/
def Owned (env : Env) (w : World) (text : Bytes) (owner : Option ClientKeys) (ref : ℕ) : Prop :=
  ∃ id, UploadId.parse env text = some id ∧
    (w.store.live.lookup id).map (·.aggregate) = some ref ∧
    owner.bind ClientKeys.narrowest = some (w.store.heap ref).owner

/-- Nothing happened to the uploads but what a due sweep did. -/
def Unchanged (w w' : World) (r : Readings) : Prop :=
  (∃ s, (s = w.store ∨ s = w.store.entries r) ∧ w'.store.live = s.live ∧
    w'.store.tombstones = s.tombstones ∧ w'.store.heap = s.heap ∧ w'.store.size = s.size) ∧
    w'.sinks = w.sinks ∧ w'.feeds = w.feeds ∧ w'.calls = w.calls

/-- An upload that is reached is the caller's. -/
theorem owned_of_reach {text : Bytes} {owner : Option ClientKeys} {reach : Reach} {r : Readings}
    {ref : ℕ} {store : Store} (hreach : w.store.reach env text owner reach r = (.ok ref, store))
    (hstore : w'.store = store) : Owned env w' text owner ref := by
  rcases Store.reach_cases env w.store text owner reach r with ⟨refusal, heq⟩ | ⟨id, hid, hreached⟩
  · rw [hreach] at heq
    cases heq
  · rw [hreach] at hreached
    obtain ⟨hlive, howner⟩ := hreached.owned
    rw [Owned, hstore]
    exact ⟨id, hid, hlive, howner⟩

/-- A refused reach changes nothing but for a due sweep. -/
theorem unchanged_of_reach {text : Bytes} {owner : Option ClientKeys} {reach : Reach} {r : Readings}
    {refusal : Refusal} {store : Store} (h : w.store.Accounted)
    (hreach : w.store.reach env text owner reach r = (.error refusal, store)) :
    Unchanged w { w with store, now := r.touched } r := by
  refine ⟨?_, rfl, rfl, rfl⟩
  rcases Store.reach_cases env w.store text owner reach r with ⟨refusal, heq⟩ | ⟨id, hid, hreached⟩
  · rw [hreach] at heq
    cases heq
    exact ⟨w.store, .inl rfl, rfl, rfl, rfl, rfl⟩
  · rw [hreach] at hreached
    exact ⟨w.store.entries r, .inr rfl, hreached.untouched (h.entries r)⟩

/-- **Uploads are bound to their owner**, over every run. No owner changes afterwards. A lane that
begins, and a feed, checkpoint or finish that reaches its aggregate, was asked for with client keys
whose narrowest is the owner, and one that is refused has changed nothing but what a due sweep did. -/
theorem owner_bound {actions : List Action}
    (hrun : Machine.run (step env) new actions = some (w, log)) :
    (∀ more w' events, Machine.run (step env) w more = some (w', events) →
      ∀ ref < w.store.size, (w'.store.heap ref).owner = (w.store.heap ref).owner) ∧
    (∀ text owner r w' events, w.step env (.begin text owner r) = some (w', events) →
      (∃ ref, w'.sinks = w.sinks ++ [⟨ref, 0, none⟩] ∧ Owned env w' text owner ref) ∨
        Unchanged w w' r) ∧
    (∀ call text owner r w' events, w.step env (.call call text owner r) = some (w', events) →
      (∃ ref, w'.calls = w.calls ++ [(call, ref)] ∧ Owned env w' text owner ref) ∨
        Unchanged w w' r) := by
  have haccounted := Machine.run_keeps (fun w : World => w.store.Accounted)
    (fun _ _ _ _ h hstep => (step_turnover h hstep).accounted) new_accounted hrun
  refine ⟨fun _ _ _ hmore _ href => owner_of_run hmore href, ?_, ?_⟩
  · intro text owner r w' events hstep
    simp only [step] at hstep
    split_ifs at hstep with hle
    rcases hreach : w.store.reach env text owner .join r with ⟨refusal | ref, store⟩
    · rw [hreach] at hstep
      cases hstep
      exact .inr (unchanged_of_reach haccounted hreach)
    · rw [hreach] at hstep
      cases hstep
      exact .inl ⟨ref, rfl, owned_of_reach hreach rfl⟩
  · intro call text owner r w' events hstep
    simp only [step] at hstep
    split_ifs at hstep with hle
    rcases hreach : w.store.reach env text owner call.reach r with ⟨refusal | ref, store⟩
    · rw [hreach] at hstep
      cases hstep
      exact .inr (unchanged_of_reach haccounted hreach)
    · rw [hreach] at hstep
      cases hstep
      exact .inl ⟨ref, rfl, owned_of_reach hreach rfl⟩

/-- Another client's finish is refused on an upload whose lane is open. -/
theorem owner_bound_other :
    ∃ w log w' events, Machine.run (step (oneId firstId firstText (by decide))) new
        [.begin firstText (some (.v4 1)) (.still 0)] = some (w, log) ∧
      w.step (oneId firstId firstText (by decide))
        (.call .finish firstText (some (.v4 2)) (.still 1)) = some (w', events) ∧
      w'.calls = [] ∧ Unchanged w w' (.still 1) := by
  have heval : ((Machine.run (step (oneId firstId firstText (by decide))) new
      [.begin firstText (some (.v4 1)) (.still 0)]).bind fun end_ =>
        (end_.1.step (oneId firstId firstText (by decide))
          (.call .finish firstText (some (.v4 2)) (.still 1))).map fun next => next.1.calls) =
      some [] := by
    decide +kernel
  obtain ⟨⟨w, log⟩, hrun, hnext⟩ := Option.bind_eq_some_iff.mp heval
  obtain ⟨⟨w', events⟩, hstep, hcalls⟩ := Option.map_eq_some_iff.mp hnext
  refine ⟨w, log, w', events, hrun, hstep, hcalls, ?_⟩
  rcases (owner_bound hrun).2.2 _ _ _ _ _ _ hstep with ⟨ref, hreached, -⟩ | hunchanged
  · rw [hcalls] at hreached
    exact absurd hreached (by simp)
  · exact hunchanged

end World

end GraphiteMeter.Server.Upload
