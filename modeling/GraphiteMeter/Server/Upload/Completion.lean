import Mathlib.Data.List.Perm.Basic
import GraphiteMeter.Server.Upload.World

/-!
# A completed upload counted every byte

`lanes` counts the live sinks and `bytes` what they recorded, over every run. A `complete` record
comes only once no lane is left and none can join, so that its count is the last.

The counter has 64 bits: `completion_exact` gives the count modulo `2^64`, and `completion_wraps`
shows an upload of `2^64` bytes that completes with none.
-/

namespace GraphiteMeter.Server.Upload

open Http3 (Bytes)
open Proto (Counters maxCounter)

/-! ## What the heap shows -/

namespace Store

/-- Every aggregate has these lanes and bytes; there is nothing of those not made yet. -/
structure Shows (s : Store) (lanes bytes : ℕ → ℕ) : Prop where
  live : ∀ id entry, s.live.lookup id = some entry → entry.aggregate < s.size
  lanes_eq : ∀ ref, (s.heap ref).life.lanes = lanes ref
  bytes_eq : ∀ ref, (s.heap ref).bytes = bytes ref
  fresh : ∀ ref, s.size ≤ ref → lanes ref = 0 ∧ bytes ref = 0

namespace Shows

variable {s s' : Store} {lanes bytes : ℕ → ℕ}

/-- Sweeping and displacing leave what aggregates show. -/
theorem pruned (h : Shows s lanes bytes) (hp : Pruned s s') : Shows s' lanes bytes where
  live id entry hlive := by
    rw [hp.size]
    exact h.live id entry (hp.live id entry hlive)
  lanes_eq ref := (hp.lanes ref).trans (h.lanes_eq ref)
  bytes_eq ref := (hp.bytes ref).trans (h.bytes_eq ref)
  fresh ref href := h.fresh ref (hp.size ▸ href)

/-- One aggregate changes. -/
theorem set {ref n m : ℕ} {a : Aggregate} (h : Shows s lanes bytes) (href : ref < s.size)
    (hlanes : a.life.lanes = n) (hbytes : a.bytes = m) :
    Shows (s.set ref a) (Function.update lanes ref n) (Function.update bytes ref m) where
  live := h.live
  lanes_eq ref' := by
    by_cases heq : ref' = ref
    · subst heq
      simp only [Store.set, Function.update_self, hlanes]
    · simp only [Store.set, Function.update_of_ne heq, h.lanes_eq]
  bytes_eq ref' := by
    by_cases heq : ref' = ref
    · subst heq
      simp only [Store.set, Function.update_self, hbytes]
    · simp only [Store.set, Function.update_of_ne heq, h.bytes_eq]
  fresh ref' href' := by
    rw [set_size] at href'
    have hne : ref' ≠ ref := by omega
    rw [Function.update_of_ne hne, Function.update_of_ne hne]
    exact h.fresh ref' href'

/-- The lanes once `ref` has one more. -/
def oneMore (lanes : ℕ → ℕ) (ref : ℕ) : ℕ → ℕ := Function.update lanes ref (lanes ref + 1)

/-- A new aggregate shows its lanes and no bytes. -/
theorem create {id : UploadId} {owner : ClientKey} {hold : Hold} {n now : ℕ}
    (h : Shows s lanes bytes) :
    Shows (s.create id owner hold n now) (Function.update lanes s.size n) bytes where
  live id' entry hlive := by
    rw [create_size]
    rcases AList.lookup_insert_of_eq_some hlive with ⟨rfl, rfl⟩ | hlive
    · exact Nat.lt_succ_self _
    · exact Nat.lt_succ_of_lt (h.live id' entry hlive)
  lanes_eq ref := by
    by_cases heq : ref = s.size
    · subst heq
      simp only [Store.create, Function.update_self]
    · simp only [Store.create, Function.update_of_ne heq, h.lanes_eq]
  bytes_eq ref := by
    by_cases heq : ref = s.size
    · subst heq
      simp only [Store.create, Function.update_self]
      exact (h.fresh s.size le_rfl).2.symm
    · simp only [Store.create, Function.update_of_ne heq, h.bytes_eq]
  fresh ref href := by
    rw [create_size] at href
    rw [Function.update_of_ne (by omega)]
    exact h.fresh ref (by omega)

/-- A refusal changes no lanes and no bytes. -/
theorem reached_error {env : Env} {id : UploadId} {owner : Option ClientKeys} {reach : Reach}
    {r : Readings} {refusal : Refusal} (h : Shows s lanes bytes)
    (hreach : Reached env s id owner reach r (.error refusal) s') : Shows s' lanes bytes := by
  cases hreach with
  | refused => exact h
  | full refusal keys hcharge => exact h.pruned (charge_pruned s keys r.displaced)

/-- The aggregate `reach` gives has one lane more if it joined. -/
theorem reached_ok {env : Env} {id : UploadId} {owner : Option ClientKeys} {reach : Reach}
    {r : Readings} {ref : ℕ} (h : Shows s lanes bytes)
    (hreach : Reached env s id owner reach r (.ok ref) s') :
    ref < s'.size ∧ Shows s' (if reach = .join then oneMore lanes ref else lanes) bytes := by
  cases hreach with
  | found entry hlive howner hne =>
    rw [if_neg hne]
    exact ⟨h.live id entry hlive, h⟩
  | joined entry hlive howner heq a hjoin =>
    rw [if_pos heq]
    refine ⟨h.live id entry hlive, ?_⟩
    obtain ⟨-, ha⟩ := Aggregate.join_eq_ok hjoin
    have hlanes : a.life.lanes = lanes entry.aggregate + 1 := by rw [ha, ← h.lanes_eq]
    have hbytes : a.bytes = bytes entry.aggregate := by rw [ha, ← h.bytes_eq]
    have hset := h.set (h.live id entry hlive) hlanes hbytes
    rw [Function.update_eq_self] at hset
    exact hset
  | created keys key hold howner hkey hlive hne htomb hvalid hhold =>
    have hpruned := charge_pruned s keys r.displaced
    have hfresh := (h.fresh s.size le_rfl).1
    rw [create_size, hpruned.size]
    refine ⟨Nat.lt_succ_self _, ?_⟩
    have hlanes : Function.update lanes s.size (if reach = .join then 1 else 0)
        = if reach = .join then oneMore lanes s.size else lanes := by
      split_ifs with hjoin
      · rw [oneMore, hfresh]
      · exact Function.update_eq_self_iff.mpr hfresh.symm
    rw [← hlanes, ← hpruned.size]
    exact (h.pruned hpruned).create

end Shows

end Store

/-! ## What the sinks did -/

/-- The live sinks of an aggregate. -/
def lanesOf (sinks : List UploadSink) (ref : ℕ) : ℕ :=
  sinks.countP fun sink => sink.aggregate = ref

/-- The bytes of each `record` made by a sink of an aggregate. -/
def recordedBytes (log : List Event) (ref : ℕ) : List ℕ :=
  log.filterMap fun
    | .recorded r bytes => if r = ref then some bytes else none
    | _ => none

/-- What the counter of an aggregate then shows. -/
def recordedSum (log : List Event) (ref : ℕ) : ℕ := (recordedBytes log ref).sum % 2 ^ 64

/-- A sink more is a lane more of its aggregate. -/
theorem lanesOf_append (sinks : List UploadSink) (ref bytes : ℕ) (recording : Option ℕ) :
    lanesOf (sinks ++ [⟨ref, bytes, recording⟩]) = Store.Shows.oneMore (lanesOf sinks) ref := by
  funext ref'
  simp only [lanesOf, List.countP_append, List.countP_singleton, Store.Shows.oneMore]
  by_cases heq : ref' = ref
  · subst heq
    simp
  · rw [Function.update_of_ne heq, if_neg (by simpa using Ne.symm heq), Nat.add_zero, lanesOf]

/-- A sink that changes anything but its aggregate leaves the lanes as they are. -/
theorem lanesOf_set {sinks : List UploadSink} {i : ℕ} {sink : UploadSink} (sink' : UploadSink)
    (hsink : sinks[i]? = some sink) (hsame : sink'.aggregate = sink.aggregate) :
    lanesOf (sinks.set i sink') = lanesOf sinks := by
  funext ref
  obtain ⟨hlt, hget⟩ := List.getElem?_eq_some_iff.mp hsink
  have hpos : 0 < lanesOf sinks sink.aggregate :=
    List.countP_pos_iff.mpr ⟨sink, List.mem_of_getElem? hsink, by simp⟩
  rw [lanesOf, List.countP_set hlt, hget, hsame]
  by_cases heq : sink.aggregate = ref
  · subst heq
    rw [lanesOf] at hpos ⊢
    simp only [decide_true, if_true]
    omega
  · simp [heq, lanesOf]

/-- A dropped sink was a lane of its aggregate. -/
theorem lanesOf_eraseIdx {sinks : List UploadSink} {i : ℕ} {sink : UploadSink}
    (hsink : sinks[i]? = some sink) :
    lanesOf sinks = Store.Shows.oneMore (lanesOf (sinks.eraseIdx i)) sink.aggregate := by
  funext ref
  obtain ⟨hlt, hget⟩ := List.getElem?_eq_some_iff.mp hsink
  have hperm := List.getElem_cons_eraseIdx_perm hlt
  rw [hget] at hperm
  rw [lanesOf, ← hperm.countP_eq, List.countP_cons, Store.Shows.oneMore]
  by_cases heq : ref = sink.aggregate
  · subst heq
    rw [Function.update_self, if_pos (by simp), lanesOf]
  · rw [Function.update_of_ne heq, if_neg (by simpa using Ne.symm heq), Nat.add_zero, lanesOf]

/-- The bytes recorded in two logs. -/
theorem recordedBytes_append (log events : List Event) (ref : ℕ) :
    recordedBytes (log ++ events) ref = recordedBytes log ref ++ recordedBytes events ref :=
  List.filterMap_append

/-- Events without records have recorded nothing. -/
theorem recordedBytes_eq_nil {events : List Event} (h : ∀ ref n, Event.recorded ref n ∉ events)
    (ref : ℕ) : recordedBytes events ref = [] := by
  rw [recordedBytes, List.filterMap_eq_nil_iff]
  intro e he
  cases e with
  | recorded r n => exact absurd he (h r n)
  | _ => rfl

/-- Events other than `recorded` leave the sums as they are. -/
theorem recordedSum_append {log events : List Event} (h : ∀ ref n, Event.recorded ref n ∉ events) :
    recordedSum (log ++ events) = recordedSum log := by
  funext ref
  rw [recordedSum, recordedBytes_append, recordedBytes_eq_nil h, List.append_nil, recordedSum]

/-- A record adds to its aggregate's sum. -/
theorem recordedSum_recorded (log : List Event) (ref bytes : ℕ) :
    recordedSum (log ++ [.recorded ref bytes])
      = Function.update (recordedSum log) ref (Word.wrappingAdd (recordedSum log ref) bytes) := by
  funext ref'
  simp only [recordedSum, recordedBytes_append]
  by_cases heq : ref' = ref
  · subst heq
    rw [Function.update_self, Word.wrappingAdd, List.sum_append]
    simp [recordedBytes]
  · rw [Function.update_of_ne heq, recordedSum]
    simp [recordedBytes, Ne.symm heq]

/-! ## One step -/

/-- Making an aggregate records nothing. -/
theorem recorded_notMem_created (env : Env) (text : Bytes) (s s' : Store) (ref n : ℕ) :
    Event.recorded ref n ∉ World.created env text s s' := by
  rw [World.created]
  split_ifs
  · cases UploadId.parse env text <;> simp
  · exact List.not_mem_nil

namespace World

/-- What every run keeps: the heap shows the live sinks and what they recorded, and nothing refers to
an aggregate not made yet. -/
structure Exact (log : List Event) (w : World) : Prop where
  store : w.store.Shows (lanesOf w.sinks) (recordedSum log)
  calls : ∀ call ∈ w.calls, call.2 < w.store.size
  feeds : ∀ feed ∈ w.feeds, feed.aggregate < w.store.size

variable {env : Env} {w w' : World} {log events : List Event}

/-- A sink's aggregate was made. -/
theorem Exact.sink_lt (h : Exact log w) {sink : UploadSink} (hsink : sink ∈ w.sinks) :
    sink.aggregate < w.store.size := by
  by_contra hlt
  have hnone := (h.store.fresh sink.aggregate (by omega)).1
  rw [lanesOf, List.countP_eq_zero] at hnone
  exact hnone sink hsink (by simp)

/-- A sink is a lane, so that leaving does not underflow. -/
theorem Exact.lanes_pos (h : Exact log w) {sink : UploadSink} (hsink : sink ∈ w.sinks) :
    0 < (w.store.heap sink.aggregate).life.lanes := by
  rw [h.store.lanes_eq]
  exact List.countP_pos_iff.mpr ⟨sink, hsink, by simp⟩

/-- A call through `reach`. -/
theorem Exact.reach_ok (h : Exact log w) {text : Bytes} {owner : Option ClientKeys} {reach : Reach}
    {r : Readings} {ref : ℕ} {store : Store}
    (hreach : w.store.reach env text owner reach r = (.ok ref, store)) :
    ref < store.size ∧ w.store.size ≤ store.size ∧
      store.Shows (if reach = .join then Store.Shows.oneMore (lanesOf w.sinks) ref
        else lanesOf w.sinks) (recordedSum log) := by
  have hentries := Store.entries_pruned w.store r
  rcases Store.reach_cases env w.store text owner reach r with ⟨refusal, heq⟩ | ⟨id, hid, hreached⟩
  · rw [hreach] at heq
    cases heq
  · rw [hreach] at hreached
    obtain ⟨hlt, hshows⟩ := (h.store.pruned hentries).reached_ok hreached
    exact ⟨hlt, hentries.size ▸ hreached.size_le, hshows⟩

/-- A refused call leaves what aggregates show. -/
theorem Exact.reach_error (h : Exact log w) {text : Bytes} {owner : Option ClientKeys}
    {reach : Reach} {r : Readings} {refusal : Refusal} {store : Store}
    (hreach : w.store.reach env text owner reach r = (.error refusal, store)) :
    w.store.size ≤ store.size ∧ store.Shows (lanesOf w.sinks) (recordedSum log) := by
  have hentries := Store.entries_pruned w.store r
  rcases Store.reach_cases env w.store text owner reach r with ⟨refusal, heq⟩ | ⟨id, hid, hreached⟩
  · rw [hreach] at heq
    cases heq
    exact ⟨le_rfl, h.store⟩
  · rw [hreach] at hreached
    exact ⟨hentries.size ▸ hreached.size_le, (h.store.pruned hentries).reached_error hreached⟩

/-- Changing an aggregate's lanes and bytes as `lanes` and `bytes` say. -/
theorem Exact.set (h : Exact log w) {ref : ℕ} {a : Aggregate} (href : ref < w.store.size)
    (hlanes : a.life.lanes = (w.store.heap ref).life.lanes)
    (hbytes : a.bytes = (w.store.heap ref).bytes) :
    (w.store.set ref a).Shows (lanesOf w.sinks) (recordedSum log) := by
  rw [h.store.lanes_eq] at hlanes
  rw [h.store.bytes_eq] at hbytes
  have hset := h.store.set href hlanes hbytes
  rw [Function.update_eq_self, Function.update_eq_self] at hset
  exact hset

/-- **One action** keeps lanes and bytes exact. -/
theorem step_exact {a : Action} (h : Exact log w) (hstep : w.step env a = some (w', events)) :
    Exact (log ++ events) w' := by
  cases step_cases hstep with
  | minted id =>
    refine ⟨?_, h.calls, h.feeds⟩
    rw [recordedSum_append (by simp)]
    exact h.store
  | entered store r hle hstore =>
    rw [List.append_nil]
    rcases hstore with rfl | rfl
    · exact ⟨h.store, h.calls, h.feeds⟩
    · have hpruned := Store.entries_pruned w.store r
      refine ⟨h.store.pruned hpruned, fun call hcall => ?_, fun feed hfeed => ?_⟩
      · exact hpruned.size ▸ h.calls call hcall
      · exact hpruned.size ▸ h.feeds feed hfeed
  | refused text owner reach r refusal store hle hreach =>
    rw [List.append_nil]
    obtain ⟨hsize, hshows⟩ := h.reach_error hreach
    exact ⟨hshows, fun call hcall => (h.calls call hcall).trans_le hsize,
      fun feed hfeed => (h.feeds feed hfeed).trans_le hsize⟩
  | began text owner r ref store hle hreach =>
    obtain ⟨-, hsize, hshows⟩ := h.reach_ok hreach
    refine ⟨?_, fun call hcall => (h.calls call hcall).trans_le hsize,
      fun feed hfeed => (h.feeds feed hfeed).trans_le hsize⟩
    rw [recordedSum_append (by simp [recorded_notMem_created]), lanesOf_append]
    exact hshows
  | called call text owner r ref store hle hreach =>
    obtain ⟨href, hsize, hshows⟩ := h.reach_ok hreach
    refine ⟨?_, fun call' hcall => ?_, fun feed hfeed => (h.feeds feed hfeed).trans_le hsize⟩
    · rw [if_neg (by cases call <;> decide)] at hshows
      rw [recordedSum_append (recorded_notMem_created env text w.store store)]
      exact hshows
    · rcases List.mem_append.mp hcall with hcall | hcall
      · exact (h.calls call' hcall).trans_le hsize
      · rw [List.mem_singleton.mp hcall]
        exact href
  | proceeded i call ref now hcall =>
    have href : ref < w.store.size := h.calls _ (List.mem_of_getElem? hcall)
    have hcalls : ∀ c ∈ w.calls.eraseIdx i, c.2 < w.store.size :=
      fun c hc => h.calls c (List.mem_of_mem_eraseIdx hc)
    cases call with
    | finish =>
      rw [proceed, List.append_nil]
      refine ⟨h.set href ?_ ?_, hcalls, h.feeds⟩
      · rw [Aggregate.finalize]
        split_ifs <;> rfl
      · rw [Aggregate.finalize]
        split_ifs <;> rfl
    | checkpoint =>
      rw [proceed]
      refine ⟨?_, hcalls, h.feeds⟩
      rw [recordedSum_append (by simp)]
      exact h.store
    | subscribe =>
      rw [proceed, List.append_nil]
      refine ⟨h.set href rfl rfl, hcalls, fun feed hfeed => ?_⟩
      rcases List.mem_append.mp hfeed with hfeed | hfeed
      · exact h.feeds feed hfeed
      · rw [List.mem_singleton.mp hfeed]
        exact href
  | recorded i sink bytes now hsink hbytes =>
    rw [List.append_nil]
    refine ⟨?_, h.calls, h.feeds⟩
    rw [lanesOf_set { sink with recording := some bytes } hsink rfl]
    exact h.set (h.sink_lt (List.mem_of_getElem? hsink)) rfl rfl
  | added i sink bytes hsink =>
    refine ⟨?_, h.calls, h.feeds⟩
    rw [lanesOf_set { sink with bytes := sink.bytes + bytes, recording := none } hsink rfl,
      recordedSum_recorded]
    set a := (w.store.heap sink.aggregate).recordBytes bytes with ha
    have hlanes : a.life.lanes = lanesOf w.sinks sink.aggregate := h.store.lanes_eq sink.aggregate
    have hbytes : a.bytes = Word.wrappingAdd (recordedSum log sink.aggregate) bytes := by
      rw [ha, Aggregate.recordBytes, h.store.bytes_eq]
    have hset := h.store.set (h.sink_lt (List.mem_of_getElem? hsink)) hlanes hbytes
    -- the lanes stay, and only what this sink recorded is added
    rw [Function.update_eq_self] at hset
    exact hset
  | dropped i sink now a hsink htouched hleave =>
    rw [List.append_nil]
    refine ⟨?_, h.calls, h.feeds⟩
    -- one sink fewer is one lane fewer, and its bytes stay
    obtain ⟨-, ha⟩ := Aggregate.leave_eq_some hleave
    have herase := lanesOf_eraseIdx hsink
    have hlanes : a.life.lanes = lanesOf (w.sinks.eraseIdx i) sink.aggregate := by
      rw [ha, h.store.lanes_eq, herase, Store.Shows.oneMore, Function.update_self,
        Nat.add_sub_cancel]
    have hbytes : a.bytes = recordedSum log sink.aggregate := by rw [ha, ← h.store.bytes_eq]
    have hset := h.store.set (h.sink_lt (List.mem_of_getElem? hsink)) hlanes hbytes
    rw [herase, Store.Shows.oneMore, Function.update_idem, Function.update_eq_self,
      Function.update_eq_self] at hset
    exact hset
  | fed i feed ticked now hfeed =>
    refine ⟨?_, h.calls, fun feed' hfeed' => ?_⟩
    · rw [recordedSum_append (by simp)]
      exact h.store
    · rcases List.mem_or_eq_of_mem_set hfeed' with hfeed' | rfl
      · exact h.feeds feed' hfeed'
      · rw [ProgressFeed.next_aggregate]
        exact h.feeds feed (List.mem_of_getElem? hfeed)
  | rehashed live hperm =>
    rw [List.append_nil]
    refine ⟨⟨fun id entry hlive => ?_, h.store.lanes_eq, h.store.bytes_eq, h.store.fresh⟩, h.calls,
      h.feeds⟩
    rw [AList.perm_lookup hperm] at hlive
    exact h.store.live id entry hlive

end World

/-! ## Once an upload is not open -/

namespace Store

/-- An aggregate that takes no lanes any more. -/
def Left (s : Store) (ref : ℕ) : Prop := ref < s.size ∧ (s.heap ref).life.phase ≠ .open

namespace Left

variable {s s' : Store} {ref : ℕ}

theorem pruned (h : Left s ref) (hp : Pruned s s') : Left s' ref := by
  refine ⟨hp.size ▸ h.1, ?_⟩
  rcases hp.phase ref with hphase | hphase
  · rw [hphase]
    exact h.2
  · rw [hphase]
    decide

/-- Changing an aggregate leaves who has left, unless it opens one. -/
theorem set {ref' : ℕ} {a : Aggregate} (h : Left s ref)
    (ha : a.life.phase = .open → (s.heap ref').life.phase = .open) : Left (s.set ref' a) ref := by
  refine ⟨h.1, ?_⟩
  by_cases heq : ref = ref'
  · subst heq
    simp only [Store.set, Function.update_self]
    exact mt ha h.2
  · simp only [Store.set, Function.update_of_ne heq]
    exact h.2

theorem create {id : UploadId} {owner : ClientKey} {hold : Hold} {n now : ℕ} (h : Left s ref) :
    Left (s.create id owner hold n now) ref := by
  refine ⟨Nat.lt_succ_of_lt h.1, ?_⟩
  simp only [Store.create, Function.update_of_ne (Nat.ne_of_lt h.1)]
  exact h.2

/-- No lane joins it. -/
theorem reached {env : Env} {id : UploadId} {owner : Option ClientKeys} {reach : Reach}
    {r : Readings} {res : Except Refusal ℕ} (h : Left s ref)
    (hreach : Reached env s id owner reach r res s') :
    Left s' ref ∧ (reach = .join → res ≠ .ok ref) := by
  cases hreach with
  | refused refusal => exact ⟨h, fun _ => nofun⟩
  | found entry hlive howner hne => exact ⟨h, fun heq => absurd heq hne⟩
  | joined entry hlive howner heq a hjoin =>
    obtain ⟨hopen, ha⟩ := Aggregate.join_eq_ok hjoin
    refine ⟨h.set fun _ => hopen, fun _ hres => h.2 ?_⟩
    cases hres
    exact hopen
  | full refusal keys hcharge => exact ⟨h.pruned (charge_pruned s keys r.displaced), fun _ => nofun⟩
  | created keys key hold howner hkey hlive hne htomb hvalid hhold =>
    refine ⟨(h.pruned (charge_pruned s keys r.displaced)).create, fun _ hres => ?_⟩
    cases hres
    exact Nat.lt_irrefl _ h.1

/-- A call reaches none that has left to join it. -/
theorem reach {env : Env} {text : Bytes} {owner : Option ClientKeys} {reach : Reach}
    {r : Readings} {res : Except Refusal ℕ} (h : Left s ref)
    (hreach : s.reach env text owner reach r = (res, s')) :
    Left s' ref ∧ (reach = .join → res ≠ .ok ref) := by
  rcases Store.reach_cases env s text owner reach r with ⟨refusal, heq⟩ | ⟨id, hid, hreached⟩
  · rw [hreach] at heq
    cases heq
    exact ⟨h, fun _ => nofun⟩
  · rw [hreach] at hreached
    exact (h.pruned (entries_pruned s r)).reached hreached

end Left

end Store

namespace World

variable {env : Env} {w w' : World} {log events : List Event} {ref : ℕ}

/-- Making an aggregate joins none. -/
theorem joined_notMem_created (text : Bytes) (s s' : Store) :
    Event.joined ref ∉ created env text s s' := by
  rw [created]
  split_ifs
  · cases UploadId.parse env text <;> simp
  · exact List.not_mem_nil

/-- **No lane joins an upload that is not open**, and it does not open again. -/
theorem step_left {a : Action} (h : w.store.Left ref) (hstep : w.step env a = some (w', events)) :
    w'.store.Left ref ∧ Event.joined ref ∉ events := by
  cases step_cases hstep with
  | minted id => exact ⟨h, by simp⟩
  | entered store r hle hstore =>
    refine ⟨?_, List.not_mem_nil⟩
    rcases hstore with rfl | rfl
    · exact h
    · exact h.pruned (Store.entries_pruned w.store r)
  | refused text owner reach r refusal store hle hreach =>
    exact ⟨(h.reach hreach).1, List.not_mem_nil⟩
  | began text owner r ref' store hle hreach =>
    obtain ⟨hleft, hne⟩ := h.reach hreach
    refine ⟨hleft, fun hmem => ?_⟩
    rcases List.mem_append.mp hmem with hmem | hmem
    · exact joined_notMem_created text w.store store hmem
    · cases List.mem_singleton.mp hmem
      exact hne rfl rfl
  | called call text owner r ref' store hle hreach =>
    exact ⟨(h.reach hreach).1, joined_notMem_created text w.store store⟩
  | proceeded i call ref' now hcall =>
    cases call with
    | finish =>
      refine ⟨h.set fun hopen => ?_, List.not_mem_nil⟩
      by_contra hphase
      rw [Aggregate.finalize, if_neg hphase] at hopen
      exact hphase hopen
    | checkpoint => exact ⟨h, by simp [proceed]⟩
    | subscribe => exact ⟨h.set fun hopen => hopen, List.not_mem_nil⟩
  | recorded i sink bytes now hsink hbytes =>
    exact ⟨h.set fun hopen => hopen, List.not_mem_nil⟩
  | added i sink bytes hsink => exact ⟨h.set fun hopen => hopen, by simp⟩
  | dropped i sink now a hsink htouched hleave =>
    refine ⟨h.set fun hopen => ?_, List.not_mem_nil⟩
    rw [(Aggregate.leave_eq_some hleave).2] at hopen
    exact hopen
  | fed i feed ticked now hfeed => exact ⟨h, by simp⟩
  | rehashed live hperm => exact ⟨h, List.not_mem_nil⟩

/-- No lane joins one that has left. -/
theorem run_left {actions : List Action} (h : w.store.Left ref)
    (hrun : Machine.run (step env) w actions = some (w', events)) :
    w'.store.Left ref ∧ Event.joined ref ∉ events := by
  have hstep : ∀ (log : List Event) (w : World) (a : Action) (w' : World) (events : List Event),
      (w.store.Left ref ∧ Event.joined ref ∉ log) → w.step env a = some (w', events) →
      w'.store.Left ref ∧ Event.joined ref ∉ log ++ events := by
    intro log w a w' events ⟨hleft, hlog⟩ ha
    obtain ⟨hleft', hevents⟩ := step_left hleft ha
    exact ⟨hleft', by simp [hlog, hevents]⟩
  exact Machine.run_induct (fun log w => w.store.Left ref ∧ Event.joined ref ∉ log) hstep
    ⟨h, List.not_mem_nil⟩ hrun

/-- An upload that takes no lanes any more and has none. -/
def Drained (w : World) (ref : ℕ) : Prop := w.store.Left ref ∧ lanesOf w.sinks ref = 0

/-- No sink is of a drained aggregate. -/
theorem Drained.ne (h : Drained w ref) {i : ℕ} {sink : UploadSink} (hsink : w.sinks[i]? = some sink) :
    sink.aggregate ≠ ref := by
  have hnone := h.2
  rw [lanesOf, List.countP_eq_zero] at hnone
  simpa using hnone sink (List.mem_of_getElem? hsink)

/-- **Nothing is recorded once an upload has drained.** -/
theorem step_drained {a : Action} (h : Drained w ref) (hstep : w.step env a = some (w', events)) :
    Drained w' ref ∧ recordedBytes events ref = [] := by
  obtain ⟨hleft, hjoined⟩ := step_left h.1 hstep
  cases step_cases hstep with
  | minted id => exact ⟨h, rfl⟩
  | entered store r hle hstore => exact ⟨⟨hleft, h.2⟩, rfl⟩
  | refused text owner reach r refusal store hle hreach => exact ⟨⟨hleft, h.2⟩, rfl⟩
  | began text owner r ref' store hle hreach =>
    have hne : ref ≠ ref' := by
      rintro rfl
      exact hjoined (by simp)
    refine ⟨⟨hleft, ?_⟩, ?_⟩
    · simp only [lanesOf_append, Store.Shows.oneMore, Function.update_of_ne hne]
      exact h.2
    · exact recordedBytes_eq_nil (by simp [recorded_notMem_created]) ref
  | called call text owner r ref' store hle hreach =>
    exact ⟨⟨hleft, h.2⟩, recordedBytes_eq_nil (recorded_notMem_created env text w.store store) ref⟩
  | proceeded i call ref' now hcall =>
    cases call with
    | finish => exact ⟨⟨hleft, h.2⟩, rfl⟩
    | checkpoint => exact ⟨⟨hleft, h.2⟩, rfl⟩
    | subscribe => exact ⟨⟨hleft, h.2⟩, rfl⟩
  | recorded i sink bytes now hsink hbytes =>
    refine ⟨⟨hleft, ?_⟩, rfl⟩
    rw [lanesOf_set { sink with recording := some bytes } hsink rfl]
    exact h.2
  | added i sink bytes hsink =>
    refine ⟨⟨hleft, ?_⟩, ?_⟩
    · rw [lanesOf_set { sink with bytes := sink.bytes + bytes, recording := none } hsink rfl]
      exact h.2
    · simp [recordedBytes, h.ne hsink]
  | dropped i sink now a hsink htouched hleave =>
    refine ⟨⟨hleft, ?_⟩, rfl⟩
    have hlanes := h.2
    rw [lanesOf_eraseIdx hsink, Store.Shows.oneMore, Function.update_of_ne (h.ne hsink).symm] at hlanes
    exact hlanes
  | fed i feed ticked now hfeed => exact ⟨h, recordedBytes_eq_nil (by simp) ref⟩
  | rehashed live hperm => exact ⟨⟨hleft, h.2⟩, rfl⟩

/-- A drained aggregate stays so, and nothing is recorded there. -/
theorem run_drained {actions : List Action} (h : Drained w ref)
    (hrun : Machine.run (step env) w actions = some (w', events)) :
    Drained w' ref ∧ recordedBytes events ref = [] := by
  have hstep : ∀ (log : List Event) (w : World) (a : Action) (w' : World) (events : List Event),
      (Drained w ref ∧ recordedBytes log ref = []) → w.step env a = some (w', events) →
      Drained w' ref ∧ recordedBytes (log ++ events) ref = [] := by
    intro log w a w' events ⟨hdrained, hlog⟩ ha
    obtain ⟨hdrained', hevents⟩ := step_drained hdrained ha
    exact ⟨hdrained', by rw [recordedBytes_append, hlog, hevents, List.append_nil]⟩
  have hnil : recordedBytes [] ref = [] := rfl
  exact Machine.run_induct (fun log w => Drained w ref ∧ recordedBytes log ref = []) hstep
    ⟨h, hnil⟩ hrun

/-- A new store has no lanes and no bytes. -/
theorem new_exact : Exact [] new := by
  refine ⟨⟨fun id entry h => ?_, fun ref => rfl, fun ref => rfl, fun ref _ => ⟨rfl, rfl⟩⟩, ?_, ?_⟩
  · cases h
  · exact fun call hcall => absurd hcall List.not_mem_nil
  · exact fun feed hfeed => absurd hfeed List.not_mem_nil

/-- **Every run** keeps lanes and bytes exact. -/
theorem run_exact {actions : List Action}
    (hrun : Machine.run (step env) new actions = some (w, log)) : Exact log w :=
  Machine.run_induct Exact (fun _ _ _ _ _ h hstep => step_exact h hstep) new_exact hrun

/-- Only a feed's look logs a line. -/
theorem line_mem {a : Action} {record : Record} (hstep : w.step env a = some (w', events))
    (hline : Event.line ref record ∈ events) :
    w'.store = w.store ∧ w'.sinks = w.sinks ∧ ∃ feed ∈ w.feeds, ∃ ticked now,
      feed.aggregate = ref ∧ (feed.next (w.store.heap ref) ticked now).1 = some record := by
  have hcreated : ∀ text store, Event.line ref record ∉ created env text w.store store := by
    intro text store
    rw [created]
    split_ifs
    · cases UploadId.parse env text <;> simp
    · exact List.not_mem_nil
  cases step_cases hstep with
  | minted id => simp at hline
  | entered store r hle hstore => cases hline
  | refused text owner reach r refusal store hle hreach => cases hline
  | began text owner r ref' store hle hreach =>
    rcases List.mem_append.mp hline with hline | hline
    · exact absurd hline (hcreated text store)
    · simp at hline
  | called call text owner r ref' store hle hreach => exact absurd hline (hcreated text store)
  | proceeded i call ref' now hcall =>
    cases call <;> simp [proceed] at hline
  | recorded i sink bytes now hsink hbytes => cases hline
  | added i sink bytes hsink => simp at hline
  | dropped i sink now a hsink htouched hleave => cases hline
  | fed i feed ticked now hfeed =>
    obtain ⟨record', hrecord, heq⟩ := List.mem_map.mp hline
    cases heq
    exact ⟨rfl, rfl, feed, List.mem_of_getElem? hfeed, ticked, now, rfl,
      Option.mem_toList.mp hrecord⟩
  | rehashed live hperm => cases hline

/-- **A completed upload counted every byte.** In every run `lanes` counts the live sinks, so that
none leaves a count of zero, and no lane joins an upload that is not open. A `complete` record comes
only from a finished upload without sinks. It counts what they recorded, modulo the counter's `2^64`
and capped at the largest exact counter, and nothing is recorded from then on. -/
theorem completion_exact {actions : List Action}
    (hrun : Machine.run (step env) new actions = some (w, log)) :
    (∀ ref, (w.store.heap ref).life.lanes = lanesOf w.sinks ref) ∧
    (∀ sink ∈ w.sinks, ∀ now, (w.store.heap sink.aggregate).leave now ≠ none) ∧
    (∀ ref, w.store.Left ref → ∀ more w' later,
      Machine.run (step env) w more = some (w', later) →
        w'.store.Left ref ∧ Event.joined ref ∉ later) ∧
    ∀ a w' events ref counters, w.step env a = some (w', events) →
      Event.line ref (.complete counters) ∈ events →
        (w.store.heap ref).life.phase = .finished ∧ lanesOf w.sinks ref = 0 ∧
        counters.bytes = min ((recordedBytes log ref).sum % 2 ^ 64) maxCounter ∧
        ∀ more w'' later, Machine.run (step env) w' more = some (w'', later) →
          (w''.store.heap ref).bytes = (w.store.heap ref).bytes ∧ recordedBytes later ref = [] := by
  have h := run_exact hrun
  refine ⟨h.store.lanes_eq, fun sink hsink now hnone => ?_, fun ref hleft more w' later => run_left hleft,
    ?_⟩
  · have hpos := h.lanes_pos hsink
    rw [Aggregate.leave] at hnone
    split_ifs at hnone with hzero
    omega
  · intro a w' events ref counters hstep hline
    obtain ⟨hstore, hsinks, feed, hfeed, ticked, now, rfl, hnext⟩ := line_mem hstep hline
    obtain ⟨hphase, hlanes, rfl⟩ := ProgressFeed.next_eq_complete hnext
    rw [h.store.lanes_eq] at hlanes
    have hleft : w.store.Left feed.aggregate := ⟨h.feeds feed hfeed, by rw [hphase]; decide⟩
    refine ⟨hphase, hlanes, ?_, fun more w'' later hmore => ?_⟩
    · rw [Aggregate.counters, Counters.new, h.store.bytes_eq, recordedSum]
    · -- From here on the upload stays drained, so that the sum its counter shows is the last one.
      have hdrained : Drained w' feed.aggregate := ⟨hstore ▸ hleft, hsinks ▸ hlanes⟩
      obtain ⟨-, hnone⟩ := run_drained hdrained hmore
      have hexact := Machine.run_induct Exact (fun _ _ _ _ _ h hstep => step_exact h hstep)
        (step_exact h hstep) hmore
      have hsame := (step_exact h hstep).store.bytes_eq feed.aggregate
      refine ⟨?_, hnone⟩
      rw [hexact.store.bytes_eq, recordedSum, recordedBytes_append, hnone, List.append_nil,
        ← recordedSum, ← hsame, hstore]

/-! ## Two uploads -/

/-- Two lanes record `bytes` each and leave, the upload is finished, and a feed attaches. -/
def twoLanes (bytes : ℕ) : List Action :=
  [.begin firstText (some (.v4 1)) (.still 0),
   .begin firstText (some (.v4 1)) (.still 1),
   .record 0 bytes 2, .record 1 bytes 3, .add 1, .add 0, .drop 0 4, .drop 0 5,
   .call .finish firstText (some (.v4 1)) (.still 6), .proceed 0 7,
   .call .subscribe firstText (some (.v4 1)) (.still 8), .proceed 0 9,
   .feed 0 false 10]

/-- What they recorded, and the feed's next lines. -/
def outcome (bytes : ℕ) : Option (List ℕ × List Event) :=
  match Machine.run (step (oneId firstId firstText (by decide))) new (twoLanes bytes) with
  | none => none
  | some (w, log) =>
    match w.step (oneId firstId firstText (by decide)) (.feed 0 false 11) with
    | none => none
    | some (_, events) => some (recordedBytes log 0, events)

/-- An evaluated outcome is a run's. -/
theorem exists_of_outcome {bytes : ℕ} {recorded : List ℕ} {events : List Event}
    (h : outcome bytes = some (recorded, events)) :
    ∃ w log w', Machine.run (step (oneId firstId firstText (by decide))) new (twoLanes bytes)
        = some (w, log) ∧
      w.step (oneId firstId firstText (by decide)) (.feed 0 false 11) = some (w', events) ∧
      recordedBytes log 0 = recorded := by
  rw [outcome] at h
  split at h
  case h_1 => cases h
  case h_2 w log hrun =>
    split at h
    case h_1 => cases h
    case h_2 w' events' hstep =>
      cases h
      exact ⟨w, log, w', hrun, hstep, rfl⟩

/-- Two lanes of five bytes each complete with ten. -/
theorem completion_exact_ten :
    ∃ w log w' counters,
      Machine.run (step (oneId firstId firstText (by decide))) new (twoLanes 5) = some (w, log) ∧
      w.step (oneId firstId firstText (by decide)) (.feed 0 false 11)
        = some (w', [.line 0 (.complete counters)]) ∧
      lanesOf w.sinks 0 = 0 ∧ counters.bytes = 10 := by
  have heval : outcome 5 = some ([5, 5], [.line 0 (.complete ⟨10, 9⟩)]) := by decide +kernel
  obtain ⟨w, log, w', hrun, hstep, hlog⟩ := exists_of_outcome heval
  obtain ⟨-, -, -, hcomplete⟩ := completion_exact hrun
  obtain ⟨-, hlanes, hbytes, -⟩ := hcomplete _ _ _ _ _ hstep (List.mem_singleton_self _)
  exact ⟨w, log, w', _, hrun, hstep, hlanes, by rw [hbytes, hlog]; decide⟩

/-- Two lanes of `2^63` bytes each complete with none. -/
theorem completion_wraps :
    ∃ w log w' counters,
      Machine.run (step (oneId firstId firstText (by decide))) new (twoLanes (2 ^ 63))
        = some (w, log) ∧
      w.step (oneId firstId firstText (by decide)) (.feed 0 false 11)
        = some (w', [.line 0 (.complete counters)]) ∧
      counters.bytes ≠ min (recordedBytes log 0).sum maxCounter := by
  have heval : outcome (2 ^ 63) = some ([2 ^ 63, 2 ^ 63], [.line 0 (.complete ⟨0, 9⟩)]) := by
    decide +kernel
  obtain ⟨w, log, w', hrun, hstep, hlog⟩ := exists_of_outcome heval
  exact ⟨w, log, w', _, hrun, hstep, by rw [hlog]; decide⟩

end World

end GraphiteMeter.Server.Upload
