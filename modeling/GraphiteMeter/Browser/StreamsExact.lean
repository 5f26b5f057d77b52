import Mathlib.Data.List.Nodup
import GraphiteMeter.Browser.StreamsDealt

/-!
# What a plan of lanes gives each server

The pools hold each server's lanes under the origin they run over (`slots_budgets`), beside what the
servers discovered at that origin reserve there (`available_budgets`). A stage is refused exactly
when an origin is short of connections; otherwise its lanes fit the browser's connections and the
servers' leases (`lanes_planned`).
-/

namespace GraphiteMeter.Browser.Streams

open GraphiteMeter.Measure (Direction Dir)
open Schedule (Activity)

/-! ## What the pools hold -/

/-- The lanes that share an origin's pool, in dealing order. -/
def sharing (servers : List PlanServer) (activity : Activity) (origin : String) : List Slot :=
  servers.zipIdx.flatMap fun entry =>
    if entry.1.http1 = some origin then activity.transfer.map (entry.2, ·) else []

def PlanServer.feeds (server : PlanServer) (activity : Activity) (origin : String) : Bool :=
  server.discovery.origin = origin && server.feed activity

def PlanServer.controls (server : PlanServer) (activity : Activity) (origin : String) : Bool :=
  server.discovery.origin = origin && (needsPings activity || uploads activity)

/-- The connections kept from an origin's lanes: each feed's, and one for control. -/
def reserved (servers : List PlanServer) (activity : Activity) (origin : String) : ℕ :=
  servers.countP (·.feeds activity origin)
    + if servers.any (·.controls activity origin) then 1 else 0

section Pools

variable {servers : List PlanServer} {activity : Activity} {origin : String} {pools : Pools}
  {slot : Slot}

/-- What a server reserves of an origin: its slots, its feed and its control connection. -/
theorem reserve_budget (activity : Activity) (origin : String) (server : PlanServer)
    (pools : Pools) (place : ℕ) :
    ((server.reserve activity place pools).budget origin).slots = (pools.budget origin).slots ++
        (if server.http1 = some origin then activity.transfer.map (place, ·) else []) ∧
      ((server.reserve activity place pools).budget origin).feeds =
        (pools.budget origin).feeds + (if server.feeds activity origin then 1 else 0) ∧
      ((server.reserve activity place pools).budget origin).control =
        ((pools.budget origin).control || server.controls activity origin) := by
  cases home : server.http1 with
  | none =>
    simp only [PlanServer.reserve, home, Pools.pool, Function.update_apply, PlanServer.feeds,
      PlanServer.controls, OriginBudget.slots]
    by_cases here : origin = server.discovery.origin
    · subst here; simp
    · simp [here, Ne.symm here]
  | some fetched =>
    simp only [PlanServer.reserve, home, Pools.pool, Function.update_apply, PlanServer.feeds,
      PlanServer.controls, OriginBudget.slots]
    by_cases here : origin = server.discovery.origin
    · subst here
      by_cases same : server.discovery.origin = fetched
      · subst same; simp
      · simp [same, Ne.symm same]
    · by_cases same : origin = fetched
      · subst same; simp [here, Ne.symm here]
      · simp [here, Ne.symm here, same, Ne.symm same]

/-- The pools once the servers from `place` on have reserved theirs. -/
def reserveAll (servers : List PlanServer) (activity : Activity) (place : ℕ) (pools : Pools) :
    Pools :=
  (servers.zipIdx place).foldl (fun pools entry => entry.1.reserve activity entry.2 pools) pools

/-- Servers reserve in their order. -/
theorem reserveAll_cons (server : PlanServer) (place : ℕ) :
    reserveAll (server :: servers) activity place pools =
      reserveAll servers activity (place + 1) (server.reserve activity place pools) := rfl

/-- What all servers reserve of an origin. -/
theorem reserveAll_budget (servers : List PlanServer) (activity : Activity) (origin : String)
    (pools : Pools) (place : ℕ) :
    ((reserveAll servers activity place pools).budget origin).slots =
        (pools.budget origin).slots ++ (servers.zipIdx place).flatMap (fun entry =>
          if entry.1.http1 = some origin then activity.transfer.map (entry.2, ·) else []) ∧
      ((reserveAll servers activity place pools).budget origin).feeds =
        (pools.budget origin).feeds + servers.countP (·.feeds activity origin) ∧
      ((reserveAll servers activity place pools).budget origin).control =
        ((pools.budget origin).control || servers.any (·.controls activity origin)) := by
  induction servers generalizing place pools with
  | nil => simp [reserveAll]
  | cons server servers ih =>
    obtain ⟨slots, feeds, control⟩ := reserve_budget activity origin server pools place
    obtain ⟨slots', feeds', control'⟩ := ih (server.reserve activity place pools) (place + 1)
    rw [reserveAll_cons]
    refine ⟨?_, ?_, ?_⟩
    · rw [slots', slots, List.zipIdx_cons, List.flatMap_cons, List.append_assoc]
    · rw [feeds', feeds, List.countP_cons]
      omega
    · rw [control', control, List.any_cons, Bool.or_assoc]

/-- The slots of an origin's budget are the lanes that share it. -/
theorem slots_budgets : ((budgets servers activity).budget origin).slots =
    sharing servers activity origin :=
  (reserveAll_budget servers activity origin .new 0).1

/-- Each lane that shares the origin has its limits in the budget. -/
theorem length_lanes_budgets (servers : List PlanServer) (activity : Activity) (origin : String) :
    ((budgets servers activity).budget origin).lanes.length =
    (sharing servers activity origin).length := by
  rw [← slots_budgets, OriginBudget.slots, List.length_map]

/-- What the pool has left once feeds and control connections are reserved. -/
theorem available_budgets : ((budgets servers activity).budget origin).available =
    (browserPool : ℤ) - reserved servers activity origin := by
  obtain ⟨-, feeds, control⟩ := reserveAll_budget servers activity origin .new 0
  have pools : budgets servers activity = reserveAll servers activity 0 .new := rfl
  rw [OriginBudget.available, pools, feeds, control, reserved]
  simp only [Pools.new, zero_add, Bool.false_or]
  split <;> push_cast <;> omega

/-- Changing a budget adds its origin at most, and none twice. -/
theorem origins_pool (origin : String) (change : OriginBudget → OriginBudget)
    (distinct : pools.origins.Nodup) :
    (pools.pool origin change).origins.Nodup ∧
      ∀ other, other ∈ (pools.pool origin change).origins ↔
        other ∈ pools.origins ∨ other = origin := by
  rw [Pools.pool]
  split
  · rename_i known
    exact ⟨distinct, fun other => ⟨.inl, fun h => h.elim id fun h => h ▸ known⟩⟩
  · rename_i new
    refine ⟨List.nodup_append.2 ⟨distinct, List.nodup_singleton _, ?_⟩, by simp⟩
    rintro known mem _ (_ | ⟨_, ⟨⟩⟩) rfl
    exact new mem

/-- A server adds the origin it shares. -/
theorem origins_reserve (activity : Activity) (server : PlanServer) (place : ℕ)
    (distinct : pools.origins.Nodup) :
    (server.reserve activity place pools).origins.Nodup ∧
      ∀ other, (other ∈ pools.origins ∨ server.http1 = some other) →
        other ∈ (server.reserve activity place pools).origins := by
  cases home : server.http1 with
  | none =>
    simp only [PlanServer.reserve, home]
    obtain ⟨distinct', mem⟩ := origins_pool server.discovery.origin _ distinct
    exact ⟨distinct', fun other h => (mem other).2 (.inl (h.resolve_right (by simp)))⟩
  | some fetched =>
    simp only [PlanServer.reserve, home]
    obtain ⟨distinct', mem⟩ := origins_pool fetched (fun budget => { budget with
      lanes := budget.lanes ++ activity.transfer.map fun direction =>
        (server.name, place, direction) }) distinct
    obtain ⟨distinct'', mem'⟩ := origins_pool server.discovery.origin _ distinct'
    refine ⟨distinct'', fun other h => (mem' other).2 (.inl ((mem other).2 ?_))⟩
    exact h.imp_right fun h => (Option.some.inj h).symm

/-- Every origin that is shared has a budget, and one only. -/
theorem reserveAll_origins (servers : List PlanServer) (activity : Activity) (pools : Pools)
    (place : ℕ) (distinct : pools.origins.Nodup) :
    (reserveAll servers activity place pools).origins.Nodup ∧
      ∀ other, (other ∈ pools.origins ∨ ∃ server ∈ servers, server.http1 = some other) →
        other ∈ (reserveAll servers activity place pools).origins := by
  induction servers generalizing place pools with
  | nil => exact ⟨distinct, fun other h => h.resolve_right (by simp)⟩
  | cons server servers ih =>
    obtain ⟨distinct', mem⟩ := origins_reserve activity server place distinct
    obtain ⟨distinct'', mem'⟩ := ih _ (place + 1) distinct'
    rw [reserveAll_cons]
    refine ⟨distinct'', fun other h => mem' other ?_⟩
    rcases h with known | ⟨server', mem'', home⟩
    · exact .inl (mem other (.inl known))
    · rcases List.mem_cons.1 mem'' with rfl | later
      · exact .inl (mem other (.inr home))
      · exact .inr ⟨server', later, home⟩

/-- The lanes that share an origin are those of its servers in the directions measured. -/
theorem mem_sharing : slot ∈ sharing servers activity origin ↔
    ∃ server, servers[slot.1]? = some server ∧ server.http1 = some origin ∧
      slot.2 ∈ activity.transfer := by
  rw [sharing, List.mem_flatMap]
  constructor
  · rintro ⟨⟨server, place⟩, mem, held⟩
    rw [List.mem_zipIdx_iff_getElem?] at mem
    split at held
    · rename_i home
      obtain ⟨direction, measured, rfl⟩ := List.mem_map.1 held
      exact ⟨server, mem, home, measured⟩
    · cases held
  · rintro ⟨server, at_place, home, measured⟩
    refine ⟨(server, slot.1), List.mem_zipIdx_iff_getElem?.2 at_place, ?_⟩
    rw [if_pos home]
    exact List.mem_map.2 ⟨slot.2, measured, rfl⟩

/-- No lane shares an origin twice. -/
theorem nodup_sharing (measured : activity.transfer.Nodup) :
    (sharing servers activity origin).Nodup := by
  rw [sharing, List.nodup_flatMap]
  constructor
  · rintro ⟨server, place⟩ -
    split
    · exact measured.map fun _ _ h => (Prod.mk.inj h).2
    · exact List.nodup_nil
  · have places : servers.zipIdx.Pairwise fun entry other => entry.2 ≠ other.2 := by
      rw [← List.pairwise_map, List.zipIdx_map_snd]
      exact List.nodup_range'
    refine places.imp ?_
    rintro ⟨server, place⟩ ⟨server', place'⟩ ne slot mem mem'
    have held {server : PlanServer} {place : ℕ} (mem : slot ∈ if server.http1 = some origin then
        activity.transfer.map (place, ·) else []) : slot.1 = place := by
      split at mem
      · obtain ⟨_, -, rfl⟩ := List.mem_map.1 mem
        rfl
      · cases mem
    exact ne ((held mem).symm.trans (held mem'))

/-- A lane shares one origin. -/
theorem sharing_apart {origin' : String} (mem : slot ∈ sharing servers activity origin)
    (mem' : slot ∈ sharing servers activity origin') : origin = origin' := by
  obtain ⟨server, at_place, home, -⟩ := mem_sharing.1 mem
  obtain ⟨server', at_place', home', -⟩ := mem_sharing.1 mem'
  obtain rfl : server = server' := Option.some.inj (at_place.symm.trans at_place')
  exact Option.some.inj (home.symm.trans home')

end Pools

/-! ## What the servers ask for -/

section Asked

variable {servers : List PlanServer} {activity : Activity} {policy : StreamPolicy}
  {server : PlanServer} {direction : Direction} {place : ℕ}

/-- A count of streams is at least one. -/
theorem normalizeStreamCount_pos (count : Option ℚ) : 1 ≤ normalizeStreamCount count := by
  cases count with
  | none => exact le_rfl
  | some count =>
    have lowest : (1 : ℤ) ≤ min (maxStreams : ℤ) (max 1 ⌊count + 1 / 2⌋) :=
      le_min (by decide) (le_max_left ..)
    rw [normalizeStreamCount]
    omega

/-- A server's share is at least one lane. -/
theorem share_pos : 1 ≤ server.share activity := le_max_left ..

/-- A direction asks for at least one lane. -/
theorem asked_pos : 1 ≤ server.asked policy direction := by
  have counted := normalizeStreamCount_pos policy.count
  rw [PlanServer.asked]
  split
  · refine le_min (by decide) ?_
    split
    · exact counted
    · exact le_rfl
  · split
    · exact counted
    · cases server.fetchProtocol <;> cases direction <;> simp [multiplexed, Dir.get, counted]

/-- A direction plans at least one lane. -/
theorem lanes_pos : 1 ≤ (server.lanes activity policy direction).planned := by
  simp only [PlanServer.lanes]
  split
  · exact asked_pos
  · exact le_min asked_pos share_pos

/-- A measured direction asks for its server's lanes. -/
theorem asking_measured (policy : StreamPolicy) (at_place : servers[place]? = some server)
    (measured : direction ∈ activity.transfer) :
    asking servers activity policy (place, direction) =
      server.lanes activity policy direction := by
  simp [asking, at_place, measured]

/-- A direction that is not measured asks for none. -/
theorem asking_idle (idle : direction ∉ activity.transfer) :
    asking servers activity policy (place, direction) = ⟨0, none⟩ := by
  rw [asking]
  split <;> simp [idle]

/-- With room for a lane per direction, a server's lanes and its upload's control fit its lease. -/
theorem sum_lanes_le (policy : StreamPolicy) (fetches : ¬ server.session) {held : Direction → ℕ}
    (within : ∀ direction ∈ activity.transfer,
      held direction ≤ (server.lanes activity policy direction).planned)
    (room : activity.transfer.length + (if uploads activity then 2 else 0) ≤
      server.discovery.maxMeasurements) :
    (activity.transfer.map held).sum + (if uploads activity then 2 else 0) ≤
      server.discovery.maxMeasurements := by
  generalize control_eq : (if uploads activity then 2 else 0) = control at room ⊢
  have each : ∀ n ∈ activity.transfer.map held, n ≤ server.share activity := by
    intro n mem
    obtain ⟨direction, measured, rfl⟩ := List.mem_map.1 mem
    refine (within direction measured).trans ?_
    simp only [PlanServer.lanes, fetches]
    exact min_le_right ..
  have total := List.sum_le_card_nsmul _ _ each
  rw [List.length_map, Nat.nsmul_eq_mul] at total
  rcases Nat.eq_zero_or_pos activity.transfer.length with none | some_direction
  · rw [none, zero_mul] at total
    omega
  · have one_each : 1 ≤ (server.discovery.maxMeasurements - control) / activity.transfer.length :=
      (Nat.one_le_div_iff some_direction).2 (by omega)
    have share_eq : server.share activity =
        (server.discovery.maxMeasurements - control) / activity.transfer.length := by
      rw [PlanServer.share, control_eq, max_eq_right one_each]
    have fits := Nat.mul_div_le (server.discovery.maxMeasurements - control)
      activity.transfer.length
    rw [share_eq] at total
    omega

end Asked

/-! ## The plan -/

/-- What a plan gives the servers it was made for. -/
structure Planned (servers : List PlanServer) (activity : Activity) (policy : StreamPolicy)
    (plan : StreamPlan) : Prop where
  /-- Every direction measured has a lane, and no more than the lease lets it ask for. -/
  measured : ∀ place server, servers[place]? = some server → ∀ direction ∈ activity.transfer,
    1 ≤ (plan (place, direction)).planned ∧
      (plan (place, direction)).planned ≤ (server.lanes activity policy direction).planned
  /-- What a pool takes away is said to be the pool's doing. -/
  capped : ∀ place server, servers[place]? = some server → ∀ direction ∈ activity.transfer,
    (plan (place, direction)).capped =
      if (plan (place, direction)).planned < (server.lanes activity policy direction).planned then
        some .pool
      else (server.lanes activity policy direction).capped
  /-- Only HTTP/1.1 lanes share a pool. -/
  apart : ∀ place server, servers[place]? = some server → server.http1 = none →
    ∀ direction ∈ activity.transfer,
      plan (place, direction) = server.lanes activity policy direction
  /-- A direction the stage does not measure has no lanes. -/
  idle : ∀ place, ∀ direction ∉ activity.transfer, plan (place, direction) = ⟨0, none⟩
  /-- A fetch's lanes leave its lease room for an upload's feed and finalize. -/
  leased : ∀ place server, servers[place]? = some server → ¬ server.session →
    activity.transfer.length + (if uploads activity then 2 else 0) ≤
      server.discovery.maxMeasurements →
    (activity.transfer.map fun direction => (plan (place, direction)).planned).sum +
      (if uploads activity then 2 else 0) ≤ server.discovery.maxMeasurements
  /-- An origin's lanes and reservations use the browser's connections, all that are asked for. -/
  spent : ∀ origin, sharing servers activity origin ≠ [] →
    reserved servers activity origin +
        ((sharing servers activity origin).map fun slot => (plan slot).planned).sum =
      min browserPool (reserved servers activity origin +
        ((sharing servers activity origin).map fun slot =>
          (asking servers activity policy slot).planned).sum)
  /-- A lane held back by its pool has as many as any after it, and at most one fewer than any. -/
  fair : ∀ origin i j (hi : i < (sharing servers activity origin).length)
      (hj : j < (sharing servers activity origin).length),
    (plan (sharing servers activity origin)[i]).planned <
        (asking servers activity policy (sharing servers activity origin)[i]).planned →
      (plan (sharing servers activity origin)[j]).planned ≤
        (plan (sharing servers activity origin)[i]).planned + if i < j then 0 else 1

/-- An origin whose reservations leave its lanes less than one each. -/
def Short (servers : List PlanServer) (activity : Activity) (origin : String) : Prop :=
  sharing servers activity origin ≠ [] ∧
    browserPool < reserved servers activity origin + (sharing servers activity origin).length

section Planned

variable {servers : List PlanServer} {activity : Activity} {policy : StreamPolicy}
  {plan : StreamPlan} {origin : String}

/-- An origin's budget is short exactly if the servers that share it are. -/
theorem short_iff : ((budgets servers activity).budget origin).Short ↔
    Short servers activity origin := by
  have lanes := length_lanes_budgets servers activity origin
  rw [OriginBudget.Short, Short, available_budgets, lanes, ← List.length_pos_iff,
    ← List.length_pos_iff, lanes]
  omega

/-- No origin has two budgets. -/
theorem distinct_origins : (budgets servers activity).origins.Nodup :=
  (reserveAll_origins servers activity .new 0 List.nodup_nil).1

/-- An origin that lanes share has a budget. -/
theorem mem_origins (shared : sharing servers activity origin ≠ []) :
    origin ∈ (budgets servers activity).origins := by
  obtain ⟨slot, mem⟩ := List.exists_mem_of_ne_nil _ shared
  obtain ⟨server, at_place, home, -⟩ := mem_sharing.1 mem
  exact (reserveAll_origins servers activity .new 0 List.nodup_nil).2 origin
    (.inr ⟨server, List.mem_of_getElem? at_place, home⟩)

/-- What is left for an origin's lanes. -/
theorem share_budgets : ((budgets servers activity).budget origin).share plan =
    deal (browserPool - reserved servers activity origin)
      ((sharing servers activity origin).map fun slot => (plan slot).planned) := by
  rw [OriginBudget.share, slots_budgets, available_budgets]
  congr 1
  omega

/-- A plan settles every origin's pool on what its lanes asked for, and changes no other lane. -/
theorem planStreams_ok (distinct : activity.transfer.Nodup)
    (planned : planStreams servers activity policy = .ok plan) :
    (∀ origin, ¬ Short servers activity origin ∧
      ∀ i (hi : i < (sharing servers activity origin).length)
          (hd : i < (deal (browserPool - reserved servers activity origin)
            ((sharing servers activity origin).map fun slot =>
              (asking servers activity policy slot).planned)).length),
        plan (sharing servers activity origin)[i] =
          (asking servers activity policy (sharing servers activity origin)[i]).deal
            (deal (browserPool - reserved servers activity origin)
              ((sharing servers activity origin).map fun slot =>
                (asking servers activity policy slot).planned))[i]) ∧
    ∀ slot, (∀ origin, slot ∉ sharing servers activity origin) →
      plan slot = asking servers activity policy slot := by
  have settled := foldlM_settle (budgets servers activity).budget
    (fun origin => by rw [slots_budgets]; exact nodup_sharing distinct)
    (fun origin origin' slot mem mem' => by
      rw [slots_budgets] at mem mem'
      exact sharing_apart mem mem')
    distinct_origins planned
  simp only [slots_budgets, share_budgets, short_iff] at settled
  refine ⟨fun origin => ?_, fun slot elsewhere => settled.2 slot fun origin _ => elsewhere origin⟩
  by_cases shared : sharing servers activity origin = []
  · exact ⟨fun short => short.1 shared, fun i hi => by simp [shared] at hi⟩
  · exact settled.1 origin (mem_origins shared)

/-- The lanes of one origin are its pool's deal. -/
theorem planned_sharing (distinct : activity.transfer.Nodup)
    (planned : planStreams servers activity policy = .ok plan) (origin : String) :
    ((sharing servers activity origin).map fun slot => (plan slot).planned) =
      deal (browserPool - reserved servers activity origin)
        ((sharing servers activity origin).map fun slot =>
          (asking servers activity policy slot).planned) := by
  have dealt := ((planStreams_ok distinct planned).1 origin).2
  refine List.ext_getElem (by simp) fun i hi hi' => ?_
  rw [List.getElem_map, dealt i (by simpa using hi) hi']
  rfl

/-- Where an origin is not short, each lane that shares it has a connection. -/
theorem reserved_le (shared : sharing servers activity origin ≠ [])
    (enough : ¬ Short servers activity origin) :
    reserved servers activity origin + (sharing servers activity origin).length ≤ browserPool :=
  not_lt.1 fun short => enough ⟨shared, short⟩

/-- A lane has what it asked for, or what its pool dealt it of that. -/
theorem exists_deal (distinct : activity.transfer.Nodup)
    (planned : planStreams servers activity policy = .ok plan) {place : ℕ} {server : PlanServer}
    (at_place : servers[place]? = some server) {direction : Direction}
    (measured : direction ∈ activity.transfer) :
    ∃ dealt, plan (place, direction) = (server.lanes activity policy direction).deal dealt ∧
      1 ≤ dealt ∧ dealt ≤ (server.lanes activity policy direction).planned ∧
      (server.http1 = none →
        plan (place, direction) = server.lanes activity policy direction) := by
  obtain ⟨settled, others⟩ := planStreams_ok distinct planned
  have asked := asking_measured policy at_place measured
  cases home : server.http1 with
  | none =>
    have elsewhere : ∀ origin, (place, direction) ∉ sharing servers activity origin := by
      intro origin mem
      obtain ⟨server', at_place', home', -⟩ := mem_sharing.1 mem
      obtain rfl : server = server' := Option.some.inj (at_place.symm.trans at_place')
      cases home.symm.trans home'
    have same := (others _ elsewhere).trans asked
    refine ⟨(server.lanes activity policy direction).planned, ?_, lanes_pos, le_rfl,
      fun _ => same⟩
    rw [same, Lanes.deal, if_neg (lt_irrefl _)]
  | some origin =>
    have mem : (place, direction) ∈ sharing servers activity origin :=
      mem_sharing.2 ⟨server, at_place, home, measured⟩
    obtain ⟨enough, dealt⟩ := settled origin
    have room := reserved_le (List.ne_nil_of_mem mem) enough
    obtain ⟨i, hi, at_i⟩ := List.getElem_of_mem mem
    have all_ask : ∀ c ∈ (sharing servers activity origin).map fun slot =>
        (asking servers activity policy slot).planned, 1 ≤ c := by
      intro c held
      obtain ⟨slot, mem', rfl⟩ := List.mem_map.1 held
      obtain ⟨server', at_place', -, measured'⟩ := mem_sharing.1 mem'
      rw [asking_measured policy at_place' measured']
      exact lanes_pos
    have given := dealt i hi (by simpa using hi)
    have least := deal_pos (browserPool - reserved servers activity origin) _ i
      (by rw [List.length_map]; omega) all_ask (by simpa using hi)
    have most := deal_le (browserPool - reserved servers activity origin)
      ((sharing servers activity origin).map fun slot =>
        (asking servers activity policy slot).planned) i (by simpa using hi) (by simpa using hi)
    simp only [List.getElem_map, at_i, asked] at given most
    exact ⟨_, given, least, most, fun none => by cases none⟩

/-- A plan that is not refused is as it should be. -/
theorem planned_of_ok (distinct : activity.transfer.Nodup)
    (planned : planStreams servers activity policy = .ok plan) :
    Planned servers activity policy plan where
  measured place server at_place direction measured := by
    obtain ⟨dealt, given, least, most, -⟩ := exists_deal distinct planned at_place measured
    rw [given]
    exact ⟨least, most⟩
  capped place server at_place direction measured := by
    obtain ⟨dealt, given, -, -, -⟩ := exists_deal distinct planned at_place measured
    rw [given]
    rfl
  apart place server at_place apart direction measured := by
    obtain ⟨_, -, -, -, same⟩ := exists_deal distinct planned at_place measured
    exact same apart
  idle place direction idle := by
    rw [(planStreams_ok distinct planned).2, asking_idle idle]
    intro origin mem
    obtain ⟨-, -, -, measured⟩ := mem_sharing.1 mem
    exact idle measured
  leased place server at_place fetches room := by
    refine sum_lanes_le policy fetches (fun direction measured => ?_) room
    obtain ⟨dealt, given, -, most, -⟩ := exists_deal distinct planned at_place measured
    rw [given]
    exact most
  spent origin shared := by
    have room := reserved_le shared ((planStreams_ok distinct planned).1 origin).1
    rw [planned_sharing distinct planned, sum_deal]
    omega
  fair origin i j hi hj below := by
    have dealt := ((planStreams_ok distinct planned).1 origin).2
    rw [dealt i hi (by simpa using hi)] at below ⊢
    rw [dealt j hj (by simpa using hj)]
    exact deal_fair _ _ (by simpa using hi) (by simpa using below)

end Planned

/-- A stage measures no direction twice. -/
theorem nodup_directions (stage : Measure.Stage) : stage.directions.Nodup := by
  cases stage <;> decide

/-- A scheduled activity transfers in no direction twice. -/
theorem nodup_transfer {schedule : Schedule.Plan} {activity : Activity}
    (staged : activity ∈ Schedule.activities schedule) : activity.transfer.Nodup := by
  obtain ⟨stage, -, rfl⟩ := List.mem_map.1 staged
  exact nodup_directions stage

/-- A stage's lanes fit the browser's connections and the servers' leases, each pool is shared out
fairly and in full, and a stage is refused exactly when an origin has less than a connection for
each of its lanes. -/
theorem lanes_planned (servers : List PlanServer) (policy : StreamPolicy)
    {schedule : Schedule.Plan} {activity : Activity}
    (staged : activity ∈ Schedule.activities schedule) :
    ((∃ refusal, planStreams servers activity policy = .error refusal) ↔
        ∃ origin, Short servers activity origin) ∧
      (∀ refusal, planStreams servers activity policy = .error refusal →
        ∃ origin, Short servers activity origin ∧
          refusal = ((budgets servers activity).budget origin).refusal) ∧
      ∀ plan, planStreams servers activity policy = .ok plan →
        Planned servers activity policy plan := by
  have distinct := nodup_transfer staged
  have refused (refusal) (failed : planStreams servers activity policy = .error refusal) :
      ∃ origin, Short servers activity origin ∧
        refusal = ((budgets servers activity).budget origin).refusal := by
    obtain ⟨origin, -, short, named⟩ := foldlM_refused failed
    exact ⟨origin, short_iff.1 short, named⟩
  refine ⟨⟨?_, ?_⟩, refused, fun plan planned => planned_of_ok distinct planned⟩
  · rintro ⟨refusal, failed⟩
    obtain ⟨origin, short, -⟩ := refused refusal failed
    exact ⟨origin, short⟩
  · rintro ⟨origin, short⟩
    cases planned : planStreams servers activity policy with
    | error refusal => exact ⟨refusal, rfl⟩
    | ok plan => exact absurd short ((planStreams_ok distinct planned).1 origin).1

/-- A server discovered and fetched from over HTTP/1.1 at one origin. -/
def http1Server (name origin : String) : PlanServer where
  id := name
  name := name
  discovery := ⟨origin, some "http/1.1", 32, [(origin, [.websocket])]⟩
  transport := .fetchStream
  fetchOrigin := origin
  fetchProtocol := .http1

/-- A download with the latency stage on. -/
def downloading : Schedule.Plan :=
  ⟨fun stage => stage = .latency || stage = .download,
    ⟨Schedule.wholeMs 0, fun _ => Schedule.wholeMs 1⟩, false⟩

def download : Activity := ⟨.download, [.down], true⟩

/-- Two servers of one origin that ask for four lanes each share the five connections left. -/
theorem lanes_planned_shared :
    ∃ plan, planStreams [http1Server "A" "o", http1Server "B" "o"] download ⟨.auto, some 4⟩ =
        .ok plan ∧
      (plan (0, .down)).planned = 3 ∧ (plan (1, .down)).planned = 2 ∧
      Planned [http1Server "A" "o", http1Server "B" "o"] download ⟨.auto, some 4⟩ plan := by
  have staged : download ∈ Schedule.activities downloading := by decide +kernel
  have lanes : (planStreams [http1Server "A" "o", http1Server "B" "o"] download
      ⟨.auto, some 4⟩).toOption.map (fun plan =>
        ((plan (0, .down)).planned, (plan (1, .down)).planned)) = some (3, 2) := by
    decide +kernel
  obtain ⟨-, -, given⟩ := lanes_planned [http1Server "A" "o", http1Server "B" "o"]
    ⟨.auto, some 4⟩ staged
  cases planned : planStreams [http1Server "A" "o", http1Server "B" "o"] download
      ⟨.auto, some 4⟩ with
  | error refusal => rw [planned] at lanes; cases lanes
  | ok plan =>
    rw [planned] at lanes
    obtain ⟨first, second⟩ := Prod.mk.inj (Option.some.inj lanes)
    exact ⟨plan, rfl, first, second, given plan planned⟩

end GraphiteMeter.Browser.Streams
