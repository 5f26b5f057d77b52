import GraphiteMeter.Server.Quic.Shard
import Mathlib.Data.List.Nodup

/-!
# First flights follow their first packet

Reference: `rust/server/src/transport/quic/shard.rs` (`FirstFlights::endpoint`, `Router::destination`).
The queue of first flights stays in order of time, so expiry finds what ended, and a new connection is
forgotten only once it ended or as many newer ones came as the queue holds.
-/

namespace GraphiteMeter.Server.Quic

open Http3 (Bytes)

namespace FirstFlights

variable {flights : FirstFlights} {now steered : ℕ} {id : ConnectionId}

/-- Few first flights with distinct IDs, in order of time, none of them after `now`. -/
structure Ordered (flights : FirstFlights) (now : ℕ) : Prop where
  few : flights.queue.length ≤ firstFlights
  ids : (flights.queue.map FirstFlight.id).Nodup
  times : flights.queue.Pairwise fun flight later => flight.since ≤ later.since
  past : ∀ flight ∈ flights.queue, flight.since ≤ now

/-- Whether a datagram naming `id` begins a new connection. -/
def opens (flights : FirstFlights) (now : ℕ) (id : ConnectionId) : Bool :=
  id ∉ (flights.current now).queue.map FirstFlight.id

/-- Fewer flights are in order. -/
theorem Ordered.sublist {flights' : FirstFlights} (h : flights.Ordered now)
    (hsub : flights'.queue.Sublist flights.queue) : flights'.Ordered now where
  few := hsub.length_le.trans h.few
  ids := h.ids.sublist (hsub.map _)
  times := h.times.sublist hsub
  past flight hflight := h.past flight (hsub.subset hflight)

/-- Flights stay in order as time goes by. -/
theorem Ordered.mono {later : ℕ} (h : flights.Ordered now) (hle : now ≤ later) :
    flights.Ordered later :=
  { h with past := fun flight hflight => (h.past flight hflight).trans hle }

/-- In order of time, what ended is what the search finds. -/
theorem Ordered.current_queue (h : flights.Ordered now) (later : ℕ) :
    (flights.current later).queue =
      flights.queue.filter fun flight => later - flight.since ≤ handshakeBound := by
  rw [current]
  simp only
  rw [List.drop_partitionPoint]
  · refine List.filter_congr fun flight _ => ?_
    rw [← decide_not, decide_eq_decide, not_lt]
  · refine h.times.imp fun {flight next} hle hended => ?_
    rw [decide_eq_true_eq] at hended ⊢
    omega

/-- The flights that are still current are in order. -/
theorem Ordered.current (h : flights.Ordered now) (later : ℕ) :
    (flights.current later).Ordered now := by
  apply h.sublist
  rw [h.current_queue]
  exact List.filter_sublist

/-- A flight is not found when no flight has its identifier. -/
theorem find?_eq_none_iff {queue : List FirstFlight} :
    queue.find? (fun flight => flight.id = id) = none ↔ id ∉ queue.map FirstFlight.id := by
  rw [List.find?_eq_none, List.mem_map]
  constructor
  · rintro h ⟨flight, hflight, rfl⟩
    exact h flight hflight (decide_eq_true rfl)
  · intro h flight hflight hid
    exact h ⟨flight, hflight, of_decide_eq_true hid⟩

/-- A known connection keeps its endpoint. -/
theorem endpoint_of_find {flight : FirstFlight}
    (hfind : (flights.current now).queue.find? (fun flight => flight.id = id) = some flight) :
    flights.endpoint now id steered = (flight.endpoint, flights.current now) := by
  rw [endpoint]
  simp only [hfind]

/-- A new one is queued last, in the oldest one's place when the queue is full. -/
theorem endpoint_of_opens (hopens : flights.opens now id = true) :
    flights.endpoint now id steered =
      (steered,
        ⟨(if (flights.current now).queue.length = firstFlights then (flights.current now).queue.tail
          else (flights.current now).queue) ++ [⟨id, steered, now⟩]⟩) := by
  have hfind := find?_eq_none_iff.mpr (of_decide_eq_true hopens)
  rw [endpoint]
  simp only [hfind]

/-- A datagram that opens no flight belongs to one. -/
theorem exists_find (hopens : flights.opens now id = false) :
    ∃ flight, (flights.current now).queue.find? (fun flight => flight.id = id) = some flight := by
  rw [opens, decide_eq_false_iff_not, ← find?_eq_none_iff] at hopens
  exact Option.ne_none_iff_exists'.mp hopens

/-- **The queue stays in order.** -/
theorem Ordered.endpoint {before : ℕ} (h : flights.Ordered before) (hnow : before ≤ now)
    (id : ConnectionId) (steered : ℕ) : (flights.endpoint now id steered).2.Ordered now := by
  have hcurrent := (h.current now).mono hnow
  cases hopens : flights.opens now id with
  | false =>
    obtain ⟨flight, hfind⟩ := exists_find hopens
    rw [endpoint_of_find hfind]
    exact hcurrent
  | true =>
    rw [endpoint_of_opens hopens]
    have hnew := of_decide_eq_true hopens
    set queue := (flights.current now).queue with hqueue
    -- a full queue makes room by dropping its front, so what is kept is still in order
    have hkept : (if queue.length = firstFlights then queue.tail else queue).Sublist queue := by
      split_ifs
      · exact List.tail_sublist queue
      · exact .refl _
    have hlen : (if queue.length = firstFlights then queue.tail else queue).length < firstFlights := by
      have hfew := hcurrent.few
      rw [← hqueue] at hfew
      split_ifs with hfull
      · rw [List.length_tail, hfull]
        decide
      · omega
    generalize (if queue.length = firstFlights then queue.tail else queue) = kept at hkept hlen
    refine ⟨?_, ?_, ?_, ?_⟩
    · rw [List.length_append, List.length_singleton]
      exact hlen
    · rw [List.map_append, List.nodup_append]
      refine ⟨hcurrent.ids.sublist (hkept.map _), List.nodup_singleton _, fun a ha b hb heq => ?_⟩
      rw [List.map_singleton, List.mem_singleton] at hb
      subst heq hb
      exact hnew ((hkept.map _).subset ha)
    · rw [List.pairwise_append]
      refine ⟨hcurrent.times.sublist hkept, List.pairwise_singleton _ _, fun a ha b hb => ?_⟩
      rw [List.mem_singleton] at hb
      subst hb
      exact hcurrent.past a (hkept.subset ha)
    · intro flight hflight
      rcases List.mem_append.mp hflight with hflight | hflight
      · exact hcurrent.past flight (hkept.subset hflight)
      · rw [List.mem_singleton] at hflight
        rw [hflight]

/-! ## A first flight in the queue -/

/-- `flight` is queued, with `newer` later ones behind it. -/
def Holds (flights : FirstFlights) (flight : FirstFlight) (newer : ℕ) : Prop :=
  ∃ older later, flights.queue = older ++ flight :: later ∧ later.length = newer

variable {flight : FirstFlight} {newer before : ℕ}

/-- What is not over is not forgotten, and neither is anything behind it. -/
theorem Ordered.current_holds (h : flights.Ordered before) (hheld : flights.Holds flight newer)
    (hbound : now - flight.since ≤ handshakeBound) : (flights.current now).Holds flight newer := by
  obtain ⟨older, later, hqueue, hlen⟩ := hheld
  have hlater : ∀ next ∈ later, now - next.since ≤ handshakeBound := by
    intro next hnext
    have htimes := h.times
    rw [hqueue, List.pairwise_append] at htimes
    have hle := (List.pairwise_cons.mp htimes.2.1).1 next hnext
    omega
  refine ⟨older.filter fun flight => now - flight.since ≤ handshakeBound, later, ?_, hlen⟩
  rw [h.current_queue, hqueue, List.filter_append, List.filter_cons,
    if_pos (decide_eq_true hbound),
    List.filter_eq_self.mpr fun next hnext => decide_eq_true (hlater next hnext)]

/-- A queued connection's datagrams go where it went. -/
theorem Ordered.endpoint_eq (h : flights.Ordered before) (hheld : flights.Holds flight newer)
    (hbound : now - flight.since ≤ handshakeBound) :
    (flights.endpoint now flight.id steered).1 = flight.endpoint := by
  have hmem : flight ∈ (flights.current now).queue := by
    obtain ⟨older, later, hqueue, -⟩ := h.current_holds hheld hbound
    rw [hqueue]
    simp
  have hopens : flights.opens now flight.id = false := by
    rw [opens, decide_eq_false_iff_not, not_not]
    exact List.mem_map_of_mem hmem
  obtain ⟨found, hfind⟩ := exists_find hopens
  have hid := List.find?_some hfind
  rw [decide_eq_true_eq] at hid
  have heq : found = flight :=
    List.inj_on_of_nodup_map (h.current now).ids (List.mem_of_find?_eq_some hfind) hmem hid
  rw [endpoint_of_find hfind, heq]

/-- Only as many newer ones as the queue holds push it out. -/
theorem Ordered.endpoint_holds (h : flights.Ordered before) (hheld : flights.Holds flight newer)
    (hbound : now - flight.since ≤ handshakeBound)
    (hfew : newer + (if flights.opens now id then 1 else 0) < firstFlights) :
    (flights.endpoint now id steered).2.Holds flight
      (newer + if flights.opens now id then 1 else 0) := by
  have hcurrent := h.current_holds hheld hbound
  cases hopens : flights.opens now id with
  | false =>
    obtain ⟨found, hfind⟩ := exists_find hopens
    rw [endpoint_of_find hfind]
    exact hcurrent
  | true =>
    rw [hopens, if_pos rfl] at hfew
    rw [endpoint_of_opens hopens, if_pos rfl]
    obtain ⟨older, later, hqueue, hlen⟩ := hcurrent
    rw [hqueue]
    split_ifs with hfull
    · -- the front that is dropped is an older one, or the newer ones alone would fill the queue
      cases older with
      | nil =>
        rw [List.nil_append, List.length_cons, hlen] at hfull
        omega
      | cons oldest older =>
        refine ⟨older, later ++ [⟨id, steered, now⟩], ?_, ?_⟩
        · rw [List.cons_append, List.tail_cons, List.append_assoc, List.cons_append]
        · rw [List.length_append, List.length_singleton, hlen]
    · refine ⟨older, later ++ [⟨id, steered, now⟩], ?_, ?_⟩
      · rw [List.append_assoc, List.cons_append]
      · rw [List.length_append, List.length_singleton, hlen]

end FirstFlights

/-! ## A run of datagrams -/

namespace Router

open FirstFlights

variable {r : Router} {shard before : ℕ} {flights : FirstFlights}

/-- The ID of the new connection a datagram begins. -/
def newcomer (r : Router) (flights : FirstFlights) (arrival : Bytes × Reading) :
    Option ConnectionId :=
  match named arrival.1 with
  | .client id => if r.steering ∧ flights.opens arrival.2.now id then some id else none
  | _ => none

/-- The IDs of the new connections that datagrams begin one after another. -/
def newcomers (r : Router) (shard : ℕ) : FirstFlights → List (Bytes × Reading) → List ConnectionId
  | _, [] => []
  | flights, arrival :: rest =>
    (r.newcomer flights arrival).toList ++ r.newcomers shard (r.receive shard flights arrival) rest

/-- No time is before `before`, nor before the one ahead of it. -/
def Timely (before : ℕ) (arrivals : List (Bytes × Reading)) : Prop :=
  (before :: arrivals.map fun arrival => arrival.2.now).Pairwise (· ≤ ·)

/-- A datagram asks the first flights where they steer it, or leaves them alone. -/
theorem receive_cases (r : Router) (shard : ℕ) (flights : FirstFlights)
    (arrival : Bytes × Reading) :
    (∃ id, named arrival.1 = .client id ∧ r.steering = true ∧
      r.receive shard flights arrival =
        (flights.endpoint arrival.2.now id (r.steer shard arrival.2.held)).2) ∨
      r.receive shard flights arrival = flights ∧ r.newcomer flights arrival = none := by
  unfold receive destination newcomer
  match hnamed : named arrival.1 with
  | .endpoint index => exact .inr ⟨rfl, rfl⟩
  | .nothing => exact .inr ⟨rfl, rfl⟩
  | .client id =>
    simp only
    by_cases hsteering : r.steering
    · rw [if_pos hsteering]
      exact .inl ⟨id, rfl, hsteering, rfl⟩
    · rw [if_neg hsteering, if_neg fun h => hsteering h.1]
      exact .inr ⟨rfl, rfl⟩

/-- **A datagram** keeps the flights in order. -/
theorem receive_ordered {arrival : Bytes × Reading} (h : flights.Ordered before)
    (hnow : before ≤ arrival.2.now) : (r.receive shard flights arrival).Ordered arrival.2.now := by
  rcases r.receive_cases shard flights arrival with ⟨id, -, -, heq⟩ | ⟨heq, -⟩
  · rw [heq]
    exact h.endpoint hnow id _
  · rw [heq]
    exact h.mono hnow

/-- **The first flights stay in order** over every run of datagrams. -/
theorem foldl_receive_ordered {arrivals : List (Bytes × Reading)} (h : flights.Ordered before)
    (htimes : Timely before arrivals) :
    ∃ now, (arrivals.foldl (r.receive shard) flights).Ordered now ∧
      ∀ later, (∀ time ∈ before :: arrivals.map (fun arrival => arrival.2.now), time ≤ later) →
        now ≤ later := by
  induction arrivals generalizing flights before with
  | nil => exact ⟨before, h, fun later hlater => hlater before (List.mem_singleton_self before)⟩
  | cons arrival rest ih =>
    obtain ⟨hbefore, hrest⟩ := List.pairwise_cons.mp htimes
    obtain ⟨now, hordered, hnow⟩ :=
      ih (receive_ordered h (hbefore _ (List.mem_cons_self ..))) hrest
    exact ⟨now, hordered, fun later hlater =>
      hnow later fun time htime => hlater time (List.mem_cons_of_mem _ htime)⟩

/-- What keeps a first flight through one datagram. -/
theorem receive_holds {arrival : Bytes × Reading} {flight : FirstFlight} {newer : ℕ}
    (h : flights.Ordered before) (hheld : flights.Holds flight newer)
    (hbound : arrival.2.now - flight.since ≤ handshakeBound)
    (hfew : newer + (r.newcomer flights arrival).toList.length < firstFlights) :
    (r.receive shard flights arrival).Holds flight
      (newer + (r.newcomer flights arrival).toList.length) := by
  rcases r.receive_cases shard flights arrival with ⟨id, hnamed, hsteering, heq⟩ | ⟨heq, hnone⟩
  · have hlength : (r.newcomer flights arrival).toList.length =
        if flights.opens arrival.2.now id then 1 else 0 := by
      rw [newcomer, hnamed]
      simp only [hsteering, true_and]
      split_ifs <;> rfl
    rw [hlength] at hfew ⊢
    rw [heq]
    exact h.endpoint_holds hheld hbound hfew
  · rw [heq, hnone]
    exact hheld

/-- A first flight stays through a run within its bound that begins few others. -/
theorem foldl_receive_holds {arrivals : List (Bytes × Reading)} {flight : FirstFlight} {newer : ℕ}
    (h : flights.Ordered before) (htimes : Timely before arrivals)
    (hheld : flights.Holds flight newer)
    (hbound : ∀ arrival ∈ arrivals, arrival.2.now - flight.since ≤ handshakeBound)
    (hfew : newer + (r.newcomers shard flights arrivals).length < firstFlights) :
    (arrivals.foldl (r.receive shard) flights).Holds flight
      (newer + (r.newcomers shard flights arrivals).length) := by
  induction arrivals generalizing flights before newer with
  | nil => exact hheld
  | cons arrival rest ih =>
    obtain ⟨hbefore, hrest⟩ := List.pairwise_cons.mp htimes
    rw [newcomers, List.length_append, ← Nat.add_assoc] at hfew ⊢
    have hnext : (r.receive shard flights arrival).Holds flight
        (newer + (r.newcomer flights arrival).toList.length) :=
      receive_holds h hheld (hbound arrival (List.mem_cons_self ..)) (by omega)
    exact ih (receive_ordered h (hbefore _ (List.mem_cons_self ..))) hrest hnext
      (fun next hmem => hbound next (List.mem_cons_of_mem _ hmem)) hfew

/-- The datagram that begins a connection is sent where its first flight is then held. -/
theorem begins_holds {arrival : Bytes × Reading} {id : ConnectionId} (hsteering : r.steering = true)
    (hnamed : named arrival.1 = .client id) (hopens : flights.opens arrival.2.now id = true) :
    (r.receive shard flights arrival).Holds
      ⟨id, r.steer shard arrival.2.held, arrival.2.now⟩ 0 := by
  have heq : r.receive shard flights arrival =
      (flights.endpoint arrival.2.now id (r.steer shard arrival.2.held)).2 := by
    rw [receive, destination, hnamed]
    simp only [hsteering, if_true]
  rw [heq, endpoint_of_opens hopens]
  exact ⟨_, [], rfl, rfl⟩

/-- Within its bound and with few others begun since, a connection's datagram follows the first. -/
theorem destination_follows {first later : Bytes × Reading} {between : List (Bytes × Reading)}
    {id : ConnectionId} (h : flights.Ordered before) (hbefore : before ≤ first.2.now)
    (htimes : Timely first.2.now (between ++ [later])) (hfirst : named first.1 = .client id)
    (hlater : named later.1 = .client id) (hopens : flights.opens first.2.now id = true)
    (hbound : later.2.now - first.2.now ≤ handshakeBound)
    (hfew : (r.newcomers shard (r.receive shard flights first) between).length < firstFlights) :
    (r.destination shard (between.foldl (r.receive shard) (r.receive shard flights first)) later.1
        later.2).1 =
      (r.destination shard flights first.1 first.2).1 := by
  by_cases hsteering : r.steering = true
  swap
  · -- Without steering every client's datagram stays.
    rw [destination, destination, hfirst, hlater]
    simp only [hsteering]
    rfl
  rw [Timely, List.map_append, ← List.cons_append, List.pairwise_append] at htimes
  obtain ⟨hbetween, -, hlast⟩ := htimes
  have hwithin : ∀ arrival ∈ between, arrival.2.now - first.2.now ≤ handshakeBound := by
    intro arrival hmem
    have hle := hlast arrival.2.now (List.mem_cons_of_mem _ (List.mem_map_of_mem hmem)) later.2.now
      (List.mem_singleton_self _)
    omega
  have hreceived : (r.receive shard flights first).Ordered first.2.now := receive_ordered h hbefore
  -- the first packet queues its flight, and the packets between push no more than others behind it
  have hbegun := @begins_holds r shard flights first id hsteering hfirst hopens
  have hheld := @foldl_receive_holds r shard _ _ between _ 0 hreceived hbetween hbegun hwithin
    (by omega)
  obtain ⟨now, hordered, -⟩ : ∃ now, _ := @foldl_receive_ordered r shard _ _ between hreceived hbetween
  have hendpoint : (((between.foldl (r.receive shard) (r.receive shard flights first)).endpoint
      later.2.now id (r.steer shard later.2.held)).1 : ℕ) = r.steer shard first.2.held :=
    hordered.endpoint_eq hheld hbound
  have hsteered : (flights.endpoint first.2.now id (r.steer shard first.2.held)).1 =
      r.steer shard first.2.held := by
    rw [endpoint_of_opens hopens]
  rw [destination, destination, hfirst, hlater]
  simp only [hsteering, if_true]
  rw [hendpoint, hsteered]

/-- **First flights follow their first packet.** Over every run of datagrams at times that never go
back, the queue holds few IDs, distinct and in order of time. A client's datagram within the bound of
the one that began its connection, with fewer than 64 other new connections begun between them, goes
where that one went. -/
theorem first_flights (r : Router) (shard : ℕ) (arrivals : List (Bytes × Reading))
    (htimes : (arrivals.map fun arrival => arrival.2.now).Pairwise (· ≤ ·)) :
    (arrivals.foldl (r.receive shard) .new).queue.length ≤ 64 ∧
    ((arrivals.foldl (r.receive shard) .new).queue.map FirstFlight.id).Nodup ∧
    ((arrivals.foldl (r.receive shard) .new).queue.map FirstFlight.since).Pairwise (· ≤ ·) ∧
    ∀ before first between later rest id, arrivals = before ++ first :: between ++ later :: rest →
      named first.1 = .client id → named later.1 = .client id →
      (before.foldl (r.receive shard) .new).opens first.2.now id = true →
      later.2.now - first.2.now ≤ handshakeBound →
      (r.newcomers shard ((before ++ [first]).foldl (r.receive shard) .new) between).length < 64 →
      (r.destination shard ((before ++ first :: between).foldl (r.receive shard) .new) later.1
          later.2).1 =
        (r.destination shard (before.foldl (r.receive shard) .new) first.1 first.2).1 := by
  have hnew : FirstFlights.new.Ordered 0 :=
    ⟨Nat.zero_le _, List.nodup_nil, List.Pairwise.nil, fun _ h => absurd h List.not_mem_nil⟩
  have hstart (arrivals : List (Bytes × Reading))
      (h : (arrivals.map fun arrival => arrival.2.now).Pairwise (· ≤ ·)) : Timely 0 arrivals :=
    List.pairwise_cons.mpr ⟨fun _ _ => Nat.zero_le _, h⟩
  obtain ⟨now, hordered, -⟩ : ∃ now, _ :=
    @foldl_receive_ordered r shard 0 _ arrivals hnew (hstart arrivals htimes)
  refine ⟨hordered.few, hordered.ids, List.pairwise_map.mpr hordered.times, ?_⟩
  rintro before first between later rest id rfl hfirst hlater hopens hbound hfew
  simp only [List.append_assoc, List.map_append, List.map_cons, List.cons_append,
    List.pairwise_append, List.pairwise_cons, List.mem_cons, List.mem_append] at htimes
  obtain ⟨hbefore, ⟨hafter, hbetween, -, hlast⟩, hcross⟩ := htimes
  obtain ⟨time, hordered, hle⟩ : ∃ time, _ :=
    @foldl_receive_ordered r shard 0 _ before hnew (hstart before hbefore)
  have htimely : Timely first.2.now (between ++ [later]) := by
    rw [Timely, List.map_append, List.pairwise_cons, List.pairwise_append]
    refine ⟨fun t ht => ?_, hbetween, List.pairwise_singleton _ _, fun a ha b hb => ?_⟩
    · rcases List.mem_append.mp ht with ht | ht
      · exact hafter t (.inl ht)
      · exact hafter t (.inr (.inl (List.mem_singleton.mp ht)))
    · exact hlast a ha b (.inl (List.mem_singleton.mp hb))
  have hfirstTime : time ≤ first.2.now := by
    refine hle first.2.now fun t ht => ?_
    rcases List.mem_cons.mp ht with rfl | ht
    · exact Nat.zero_le _
    · exact hcross t ht _ (.inl rfl)
  rw [List.foldl_append, List.foldl_cons, List.foldl_nil] at hfew
  rw [List.foldl_append, List.foldl_cons]
  exact destination_follows hordered hfirstTime htimely hfirst hlater hopens hbound hfew

/-- A client's datagram whose ID is eight times `byte`, as it arrives at `now`, while endpoint `busy`
holds a connection. -/
def clientHello (byte : UInt8) (now busy : ℕ) : Bytes × Reading :=
  ([0xc0, 0, 0, 0, 1, 8] ++ List.replicate 8 byte,
    ⟨now, fun _ index => if index = busy then 1 else 0, fun _ => 0, fun _ => false⟩)

/-- The first client leaves busy endpoint 1 for endpoint 0, and does so again once that is the busy
one. -/
theorem first_flights_resent :
    let r : Router := ⟨2, true, 1472⟩
    let arrivals := [clientHello 7 0 1, clientHello 9 1 1, clientHello 7 2 0]
    (arrivals.foldl (r.receive 1) .new).queue.length ≤ 64 ∧
      r.destination 1 .new (clientHello 7 0 1).1 (clientHello 7 0 1).2 =
        (some 0, ⟨[⟨List.replicate 8 7, 0, 0⟩]⟩) ∧
      (r.destination 1 ([clientHello 7 0 1, clientHello 9 1 1].foldl (r.receive 1) .new)
        (clientHello 7 2 0).1 (clientHello 7 2 0).2).1 = some 0 := by
  intro r arrivals
  obtain ⟨hfew, -, -, hfollows⟩ := first_flights r 1 arrivals (by decide)
  have hfirst : r.destination 1 .new (clientHello 7 0 1).1 (clientHello 7 0 1).2 =
      (some 0, ⟨[⟨List.replicate 8 7, 0, 0⟩]⟩) := by
    decide +kernel
  refine ⟨hfew, hfirst, ?_⟩
  have hresent := hfollows [] (clientHello 7 0 1) [clientHello 9 1 1] (clientHello 7 2 0) []
    (List.replicate 8 7) rfl (by decide) (by decide) (by decide +kernel) (by decide)
    (by decide +kernel)
  rw [List.foldl_nil, hfirst] at hresent
  exact hresent

end Router

end GraphiteMeter.Server.Quic
