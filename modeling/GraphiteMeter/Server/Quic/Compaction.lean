import GraphiteMeter.Server.Quic.Shard
import Mathlib.Algebra.BigOperators.Group.List.Basic

/-!
# Received segments for other endpoints

Reference: `rust/server/src/transport/quic/shard.rs` (`Router::route`, `forward`). A receive gives
several segments of one stride. Those for other endpoints are forwarded, and the rest move together in
place. The destinations are those of the segments as they were received: moving one never touches those
behind it.
-/

namespace GraphiteMeter.Server.Quic

open Http3 (Bytes)

/-! ## Segments -/

/-- The segments that a buffer of this stride holds. -/
def segments (stride : ℕ) (data : Bytes) : List Bytes :=
  if data = [] then []
  else data.take (max stride 1) :: segments stride (data.drop (max stride 1))
termination_by data.length
decreasing_by
  have hpos := List.length_pos_iff.mpr ‹data ≠ []›
  rw [List.length_drop]
  omega

/-- No bytes are cut into no segments. -/
theorem segments_nil (stride : ℕ) : segments stride [] = [] := by
  rw [segments, if_pos rfl]

/-- The first segment is a stride of the bytes, and the others follow. -/
theorem segments_of_ne_nil {stride : ℕ} {data : Bytes} (h : data ≠ []) :
    segments stride data = data.take (max stride 1) :: segments stride (data.drop (max stride 1)) := by
  rw [segments, if_neg h]

/-- The segments are the bytes, in order. -/
theorem flatten_segments (stride : ℕ) (data : Bytes) : (segments stride data).flatten = data := by
  induction data using segments.induct stride with
  | case1 => rw [segments_nil, List.flatten_nil]
  | case2 data hne ih =>
    rw [segments_of_ne_nil hne, List.flatten_cons, ih, List.take_append_drop]

/-- Segments of one stride: each of them full but the last. -/
structure Strided (stride : ℕ) (segs : List Bytes) : Prop where
  full : segs.Pairwise fun seg _ => seg.length = max stride 1
  nonempty : ∀ seg ∈ segs, seg ≠ []
  bound : ∀ seg ∈ segs, seg.length ≤ max stride 1

/-- All segments but the last are as long as the stride. -/
theorem strided_segments (stride : ℕ) (data : Bytes) : Strided stride (segments stride data) := by
  induction data using segments.induct stride with
  | case1 =>
    rw [segments_nil]
    exact ⟨.nil, fun _ h => absurd h List.not_mem_nil, fun _ h => absurd h List.not_mem_nil⟩
  | case2 data hne ih =>
    rw [segments_of_ne_nil hne]
    have hpos := List.length_pos_iff.mpr hne
    refine ⟨List.pairwise_cons.mpr ⟨fun seg hseg => ?_, ih.full⟩, ?_, ?_⟩
    · -- What follows the first segment is there only if that one is full.
      have hrest : data.drop (max stride 1) ≠ [] := by
        intro hnil
        rw [hnil, segments_nil] at hseg
        cases hseg
      rw [ne_eq, List.drop_eq_nil_iff, not_le] at hrest
      rw [List.length_take]
      omega
    · intro seg hseg
      rcases List.mem_cons.mp hseg with rfl | hseg
      · rw [← List.length_pos_iff, List.length_take]
        omega
      · exact ih.nonempty seg hseg
    · intro seg hseg
      rcases List.mem_cons.mp hseg with rfl | hseg
      · rw [List.length_take]
        omega
      · exact ih.bound seg hseg

/-- What is left of strided segments is strided, if the last is the last. -/
theorem Strided.sublist {stride : ℕ} {segs kept : List Bytes} (h : Strided stride segs)
    (hkept : kept.Sublist segs) : Strided stride kept where
  full := h.full.sublist hkept
  nonempty seg hseg := h.nonempty seg (hkept.subset hseg)
  bound seg hseg := h.bound seg (hkept.subset hseg)

/-- **Segments of one stride, put together, are split again** into the same ones. -/
theorem Strided.segments_flatten {stride : ℕ} {segs : List Bytes} (h : Strided stride segs) :
    segments stride segs.flatten = segs := by
  induction segs with
  | nil => rw [List.flatten_nil, segments_nil]
  | cons seg rest ih =>
    obtain ⟨hfull, hrest⟩ := List.pairwise_cons.mp h.full
    have htail := ih (h.sublist (List.sublist_cons_self seg rest))
    have hne : (seg :: rest).flatten ≠ [] := by
      rw [List.flatten_cons, ne_eq, List.append_eq_nil_iff]
      exact fun hnil => h.nonempty seg (List.mem_cons_self ..) hnil.1
    rw [segments_of_ne_nil hne, List.flatten_cons]
    cases rest with
    | nil =>
      have hbound := h.bound seg (List.mem_cons_self ..)
      rw [List.flatten_nil, List.append_nil, List.take_of_length_le hbound,
        List.drop_eq_nil_of_le hbound, segments_nil]
    | cons next rest =>
      have hlen := hfull next (List.mem_cons_self ..)
      rw [← hlen, List.take_left, List.drop_left, htail]

/-! ## Copying within the buffer -/

namespace Router

variable {buf : Bytes} {start stop dest : ℕ}

/-- Copying bytes onto themselves changes nothing. -/
theorem copyWithin_self (hstart : start ≤ stop) : copyWithin buf start stop start = buf := by
  have hstop : start + (stop - start) = stop := by omega
  have htake : buf.take start = (buf.take stop).take start := by
    rw [List.take_take, Nat.min_eq_left hstart]
  rw [copyWithin, hstop, htake, List.take_append_drop, List.take_append_drop]

/-- A segment is as long as its bounds are apart. -/
theorem length_seg (hstop : stop ≤ buf.length) :
    ((buf.take stop).drop start).length = stop - start := by
  rw [List.length_drop, List.length_take_of_le hstop]

/-- Copying inside the buffer keeps its length. -/
theorem length_copyWithin (hstart : start ≤ stop) (hstop : stop ≤ buf.length) (hdest : dest ≤ start) :
    (copyWithin buf start stop dest).length = buf.length := by
  rw [copyWithin, List.length_append, List.length_append, length_seg hstop,
    List.length_take_of_le (by omega), List.length_drop]
  omega

/-- What is kept grows by the bytes copied. -/
theorem take_copyWithin (hstop : stop ≤ buf.length) (hdest : dest ≤ start) (hstart : start ≤ stop) :
    (copyWithin buf start stop dest).take (dest + (stop - start)) =
      buf.take dest ++ (buf.take stop).drop start := by
  have hlen : (buf.take dest ++ (buf.take stop).drop start).length = dest + (stop - start) := by
    rw [List.length_append, length_seg hstop, List.length_take_of_le (by omega)]
  rw [copyWithin, ← hlen, List.take_left]

/-- What is behind them stays. -/
theorem drop_copyWithin (hstart : start ≤ stop) (hstop : stop ≤ buf.length) (hdest : dest ≤ start) :
    (copyWithin buf start stop dest).drop stop = buf.drop stop := by
  have hlen : (buf.take dest ++ (buf.take stop).drop start).length = dest + (stop - start) := by
    rw [List.length_append, length_seg hstop, List.length_take_of_le (by omega)]
  rw [copyWithin, List.drop_append, List.drop_eq_nil_of_le (by omega), List.nil_append, hlen,
    List.drop_drop]
  congr 1
  omega

/-! ## The fate of each segment -/

section Fates

variable {ρ : Type*}

/-- The segments with what each finds, the first beginning at `start`. -/
def arrivals (readings : ℕ → Reading) (stride : ℕ) : ℕ → List Bytes → List (Bytes × Reading)
  | _, [] => []
  | start, seg :: rest => (seg, readings start) :: arrivals readings stride (start + stride) rest

/-- Each datagram with the other endpoint it goes to, `none` for one that stays. -/
def fates (r : Router) (shard : ℕ) : FirstFlights → List (Bytes × Reading) → List (Bytes × Option ℕ)
  | _, [] => []
  | flights, arrival :: rest =>
    (arrival.1, (r.destination shard flights arrival.1 arrival.2).1) ::
      r.fates shard (r.receive shard flights arrival) rest

/-- The datagrams that stay. -/
def kept (fates : List (Bytes × Option ℕ)) : List Bytes :=
  (fates.filter fun fate => fate.2.isNone).map Prod.fst

/-- What `index` is given of them. -/
def handed (received : RecvMeta ρ) (fates : List (Bytes × Option ℕ)) (index : ℕ) :
    List (Forwarded ρ) :=
  (fates.filter fun fate => fate.2 = some index).map fun fate =>
    ⟨{ received with len := fate.1.length, stride := fate.1.length }, fate.1⟩

/-- What is kept of the first fate comes first. -/
theorem kept_cons (fate : Bytes × Option ℕ) (rest : List (Bytes × Option ℕ)) :
    kept (fate :: rest) = kept [fate] ++ kept rest := by
  rw [kept, ← List.singleton_append, List.filter_append, List.map_append]
  rfl

/-- What the first fate hands over comes first. -/
theorem handed_cons (received : RecvMeta ρ) (fate : Bytes × Option ℕ)
    (rest : List (Bytes × Option ℕ)) (index : ℕ) :
    handed received (fate :: rest) index = handed received [fate] index ++ handed received rest index := by
  rw [handed, ← List.singleton_append, List.filter_append, List.map_append]
  rfl

/-- Each arrival has one fate, in order. -/
theorem map_fst_fates (r : Router) (shard : ℕ) (flights : FirstFlights)
    (arrivals : List (Bytes × Reading)) :
    (r.fates shard flights arrivals).map Prod.fst = arrivals.map Prod.fst := by
  induction arrivals generalizing flights with
  | nil => rfl
  | cons arrival rest ih => rw [fates, List.map_cons, List.map_cons, ih]

/-- Each segment arrives once, in order. -/
theorem map_fst_arrivals (readings : ℕ → Reading) (stride start : ℕ) (segs : List Bytes) :
    (arrivals readings stride start segs).map Prod.fst = segs := by
  induction segs generalizing start with
  | nil => rfl
  | cons seg rest ih => rw [arrivals, List.map_cons, ih]

/-- A datagram is handed only to another shard that exists. -/
theorem other_of_ite {steered shard shards target : ℕ}
    (h : (if steered ≠ shard ∧ steered < shards then some steered else none) = some target) :
    target ≠ shard ∧ target < shards := by
  split_ifs at h with hother
  cases h
  exact hother

/-- A datagram goes where its ID says, and a new connection's to an endpoint of the set. -/
theorem destination_named (r : Router) (shard : ℕ) (flights : FirstFlights) (datagram : Bytes)
    (reading : Reading) :
    (∀ index, named datagram = .endpoint index →
      (r.destination shard flights datagram reading).1 =
        if index ≠ shard ∧ index < r.shards then some index else none) ∧
    (∀ id, named datagram = .client id → r.steering = false →
      (r.destination shard flights datagram reading).1 = none) ∧
    (named datagram = .nothing → (r.destination shard flights datagram reading).1 = none) ∧
    ∀ target, (r.destination shard flights datagram reading).1 = some target →
      target ≠ shard ∧ target < r.shards := by
  refine ⟨fun index hnamed => ?_, fun id hnamed hsteering => ?_, fun hnamed => ?_,
    fun target htarget => ?_⟩
  · rw [destination, hnamed]
  · rw [destination, hnamed, hsteering]
    exact if_neg fun h => h.1 rfl
  · rw [destination, hnamed]
    exact if_neg fun h => h.1 rfl
  · rw [destination] at htarget
    exact other_of_ite htarget

/-- Each fate is the destination found for its datagram. -/
theorem exists_destination {r : Router} {shard : ℕ} {flights : FirstFlights}
    {arrivals : List (Bytes × Reading)} {fate : Bytes × Option ℕ}
    (h : fate ∈ r.fates shard flights arrivals) :
    ∃ flights reading, fate.2 = (r.destination shard flights fate.1 reading).1 := by
  induction arrivals generalizing flights with
  | nil => cases h
  | cons arrival rest ih =>
    rcases List.mem_cons.mp h with rfl | h
    · exact ⟨flights, arrival.2, rfl⟩
    · exact ih h

/-! ## Queues -/

/-- What a queue was ever given stays when it passes some on. -/
theorem all_pass (queue : Queue ρ) (n : ℕ) (closes : Bool) : (queue.pass n closes).all = queue.all := by
  rw [Queue.all, Queue.all, Queue.pass, List.append_assoc, List.take_append_drop]

/-- A datagram is queued whole, or dropped. -/
theorem all_forward (r : Router) (queues : ℕ → Queue ρ) (target : ℕ) (datagram : Bytes)
    (received : RecvMeta ρ) (index : ℕ) :
    ∃ accepted, accepted.Sublist (handed received [(datagram, some target)] index) ∧
      (r.forward queues target datagram received index).all = (queues index).all ++ accepted := by
  by_cases hlong : r.maxDatagram < datagram.length
  · rw [forward, if_pos hlong]
    exact ⟨[], List.nil_sublist _, (List.append_nil _).symm⟩
  rw [forward, if_neg hlong]
  by_cases hindex : index = target
  · subst hindex
    rw [Function.update_self, Queue.trySend]
    split_ifs
    · exact ⟨[], List.nil_sublist _, (List.append_nil _).symm⟩
    · refine ⟨[⟨{ received with len := datagram.length, stride := datagram.length }, datagram⟩],
        ?_, ?_⟩
      · rw [handed, List.filter_cons_of_pos (by simp)]
        exact .refl _
      · rw [Queue.all, Queue.all, List.append_assoc]
  · rw [Function.update_of_ne hindex]
    exact ⟨[], List.nil_sublist _, (List.append_nil _).symm⟩

/-! ## One segment after another -/

/-- The routing of the segments from `start` on: the bytes behind it are those received, and what is
kept so far is ahead of it. -/
structure Ahead (buf : Bytes) (start : ℕ) (s : Routed ρ) : Prop where
  length : s.buf.length = buf.length
  behind : s.buf.drop start = buf.drop start
  ahead : s.kept ≤ start

/-- What is not yet read stands as it arrived. -/
theorem Ahead.seg_eq {buf : Bytes} {start : ℕ} {s : Routed ρ} (h : Ahead buf start s) (stop : ℕ) :
    (s.buf.take stop).drop start = (buf.take stop).drop start := by
  rw [List.drop_take, List.drop_take, h.behind]

/-- What one segment's routing leaves, by its fate. -/
theorem Ahead.step {r : Router} {shard : ℕ} {received : RecvMeta ρ} {buf : Bytes}
    {start len stride : ℕ} {readings : ℕ → Reading} {s : Routed ρ} (h : Ahead buf start s)
    (hlen : len ≤ buf.length) (hstart : start ≤ len) :
    let stop := min len (start + stride)
    let seg := (buf.take stop).drop start
    let fate := (r.destination shard s.flights seg (readings start)).1
    let after := r.segment shard received len stride readings s start
    Ahead buf stop after ∧
      after.buf.take after.kept = s.buf.take s.kept ++ (kept [(seg, fate)]).flatten ∧
      after.flights = r.receive shard s.flights (seg, readings start) ∧
      ∀ index, ∃ accepted, accepted.Sublist (handed received [(seg, fate)] index) ∧
        (after.queues index).all = (s.queues index).all ++ accepted := by
  intro stop seg fate after
  have hle : start ≤ stop := by omega
  have hstop : stop ≤ s.buf.length := by
    rw [h.length]
    omega
  have hseg : (s.buf.take stop).drop start = seg := h.seg_eq stop
  have hbehind : s.buf.drop stop = buf.drop stop := by
    have hdrop : stop = start + (stop - start) := by omega
    rw [hdrop, ← List.drop_drop, h.behind, List.drop_drop]
  let queues (i : ℕ) := (s.queues i).pass ((readings start).takes i) ((readings start).closes i)
  have hflights : r.receive shard s.flights (seg, readings start) =
      (r.destination shard s.flights seg (readings start)).2 := rfl
  rw [hflights]
  simp only [fate]
  rcases hdestination : r.destination shard s.flights seg (readings start) with ⟨_ | target, flights⟩
  swap
  · have hafter : after = { s with flights, queues := r.forward queues target seg received } := by
      show r.segment shard received len stride readings s start = _
      unfold Router.segment
      simp only [stop, hseg, hdestination]
      rfl
    rw [hafter]
    refine ⟨⟨h.length, hbehind, h.ahead.trans hle⟩, (List.append_nil _).symm, rfl, fun index => ?_⟩
    obtain ⟨accepted, haccepted, hall⟩ := r.all_forward queues target seg received index
    rw [all_pass] at hall
    exact ⟨accepted, haccepted, hall⟩
  · have hafter : after =
        { buf := if start ≠ s.kept then copyWithin s.buf start stop s.kept else s.buf
          kept := s.kept + (stop - start)
          flights
          queues } := by
      show r.segment shard received len stride readings s start = _
      unfold Router.segment
      simp only [stop, hseg, hdestination]
      rfl
    rw [hafter]
    -- a segment that is in place already is as good as copied onto itself
    have hcopy : (if start ≠ s.kept then copyWithin s.buf start stop s.kept else s.buf) =
        copyWithin s.buf start stop s.kept := by
      split_ifs with hmoves
      · rfl
      · rw [not_not] at hmoves
        rw [← hmoves, copyWithin_self hle]
    rw [hcopy]
    refine ⟨⟨?_, ?_, ?_⟩, ?_, ?_, fun index => ?_⟩
    · exact (length_copyWithin hle hstop h.ahead).trans h.length
    · exact (drop_copyWithin hle hstop h.ahead).trans hbehind
    · have hahead := h.ahead
      simp only
      omega
    · rw [take_copyWithin hstop h.ahead hle, hseg]
      exact congrArg _ (List.append_nil seg).symm
    · rfl
    · exact ⟨[], List.nil_sublist _, by rw [all_pass, List.append_nil]⟩

/-- A reader further on still finds what it reads as it arrived. -/
theorem Ahead.mono {buf : Bytes} {start later : ℕ} {s : Routed ρ} (h : Ahead buf start s)
    (hle : start ≤ later) : Ahead buf later s where
  length := h.length
  behind := by
    have hlater : later = start + (later - start) := by omega
    rw [hlater, ← List.drop_drop, h.behind, List.drop_drop]
  ahead := h.ahead.trans hle

/-- One segment fewer remains behind the next. -/
theorem starts_succ {len start width n : ℕ} (hwidth : 0 < width)
    (hn : n + 1 = (len - start + (width - 1)) / width) :
    start < len ∧ n = (len - (start + width) + (width - 1)) / width := by
  have hlt : start < len := by
    by_contra hge
    have hzero : len - start = 0 := by omega
    rw [hzero, Nat.zero_add, Nat.div_eq_of_lt (by omega)] at hn
    omega
  refine ⟨hlt, ?_⟩
  by_cases hfull : width ≤ len - start
  · have hsum : len - start + (width - 1) = len - (start + width) + (width - 1) + width := by omega
    rw [hsum, Nat.add_div_right _ hwidth] at hn
    omega
  · have hzero : len - (start + width) = 0 := by omega
    have hone : (len - start + (width - 1)) / width = 1 := by
      rw [Nat.div_eq_iff hwidth]
      omega
    rw [hzero, Nat.zero_add, Nat.div_eq_of_lt (by omega)]
    omega

/-- What the routing of all segments from `start` on leaves. -/
theorem Ahead.run {r : Router} {shard : ℕ} {received : RecvMeta ρ} {buf : Bytes}
    {len stride : ℕ} {readings : ℕ → Reading} (hlen : len ≤ buf.length) (n : ℕ) {start : ℕ}
    {s : Routed ρ} (h : Ahead buf start s)
    (hn : n = (len - start + (max stride 1 - 1)) / max stride 1) :
    let after := (List.range' start n (max stride 1)).foldl
      (r.segment shard received len (max stride 1) readings) s
    let fates := r.fates shard s.flights
      (arrivals readings (max stride 1) start (segments stride ((buf.take len).drop start)))
    after.buf.length = buf.length ∧
      after.buf.take after.kept = s.buf.take s.kept ++ (Router.kept fates).flatten ∧
      after.kept = s.kept + (Router.kept fates).flatten.length ∧
      ∀ index, ∃ accepted, accepted.Sublist (handed received fates index) ∧
        (after.queues index).all = (s.queues index).all ++ accepted := by
  have hwidth : 0 < max stride 1 := by omega
  induction n generalizing start s with
  | zero =>
    have hend : len ≤ start := by
      by_contra hlt
      have hpos : 0 < (len - start + (max stride 1 - 1)) / max stride 1 :=
        Nat.div_pos (by omega) hwidth
      omega
    have hnil : (buf.take len).drop start = [] := by
      rw [List.drop_eq_nil_iff, List.length_take]
      omega
    rw [hnil, segments_nil]
    exact ⟨h.length, (List.append_nil _).symm, rfl,
      fun index => ⟨[], List.nil_sublist _, (List.append_nil _).symm⟩⟩
  | succ n ih =>
    obtain ⟨hlt, hrest⟩ := starts_succ hwidth hn
    have hne : (buf.take len).drop start ≠ [] := by
      rw [ne_eq, List.drop_eq_nil_iff, List.length_take]
      omega
    have hseg : ((buf.take len).drop start).take (max stride 1) =
        (buf.take (min len (start + max stride 1))).drop start := by
      rw [List.take_drop, List.take_take, Nat.min_comm]
    -- the loop's next offset cuts the segment that comes next
    rw [segments_of_ne_nil hne, hseg, List.drop_drop, List.range'_succ, List.foldl_cons, arrivals,
      fates]
    obtain ⟨hahead, htake, hflights, hqueues⟩ :=
      @Ahead.step ρ r shard received buf start len (max stride 1) readings s h hlen hlt.le
    obtain ⟨hlength, htakes, hkept, hall⟩ := ih (hahead.mono (Nat.min_le_right _ _)) hrest
    rw [hflights] at htakes hkept hall
    have hgrows := congrArg List.length htake
    have hafter := hahead.length
    have hahead := hahead.ahead
    have hbefore := h.ahead
    have hsize := h.length
    rw [List.length_append, List.length_take_of_le (by omega), List.length_take_of_le (by omega)]
      at hgrows
    refine ⟨hlength, ?_, ?_, fun index => ?_⟩
    · rw [htakes, htake, kept_cons _ (r.fates shard _ _), List.flatten_append, List.append_assoc]
    · rw [hkept, hgrows, kept_cons _ (r.fates shard _ _), List.flatten_append, List.length_append,
        Nat.add_assoc]
    · obtain ⟨first, hfirst, hfirstAll⟩ := hqueues index
      obtain ⟨later, hlater, hlaterAll⟩ := hall index
      refine ⟨first ++ later, ?_, ?_⟩
      · rw [handed_cons _ _ (r.fates shard _ _)]
        exact hfirst.append hlater
      · rw [hlaterAll, hfirstAll, List.append_assoc]

/-- **Compaction.** Each segment received has one fate. Those that stay are left in order, whole and
together, so that the same stride splits them again, and the length is theirs. Every other one goes
whole to the endpoint it is for, or is dropped. -/
theorem route_compacts (r : Router) (shard : ℕ) (flights : FirstFlights) (buf : Bytes)
    (received : RecvMeta ρ) (queues : ℕ → Queue ρ) (readings : ℕ → Reading) :
    let segs := segments received.stride (buf.take received.len)
    let fates := r.fates shard flights (arrivals readings (max received.stride 1) 0 segs)
    let routed := r.route shard flights buf received queues readings
    segs.flatten = buf.take received.len ∧
    fates.map Prod.fst = segs ∧
    (∀ fate ∈ fates,
      (∀ index, named fate.1 = .endpoint index →
        fate.2 = if index ≠ shard ∧ index < r.shards then some index else none) ∧
      (∀ id, named fate.1 = .client id → r.steering = false → fate.2 = none) ∧
      (named fate.1 = .nothing → fate.2 = none) ∧
      ∀ target, fate.2 = some target → target ≠ shard ∧ target < r.shards) ∧
    routed.1.buf.length = buf.length ∧
    routed.1.buf.take routed.2.len = (Router.kept fates).flatten ∧
    segments received.stride (routed.1.buf.take routed.2.len) = Router.kept fates ∧
    routed.2 = { received with len := (Router.kept fates).flatten.length } ∧
    ∀ index, ∃ accepted, accepted.Sublist (handed received fates index) ∧
      (routed.1.queues index).all = (queues index).all ++ accepted := by
  intro segs fates routed
  have hlen : min received.len buf.length ≤ buf.length := Nat.min_le_right _ _
  have htake : buf.take (min received.len buf.length) = buf.take received.len := by
    rw [← List.take_eq_take_min]
  have hstart : Ahead buf 0 (⟨buf, 0, flights, queues⟩ : Routed ρ) := ⟨rfl, rfl, le_rfl⟩
  obtain ⟨hlength, htakes, hkept, hqueues⟩ :=
    @Ahead.run ρ r shard received buf (min received.len buf.length) received.stride readings hlen _ 0 _
      hstart rfl
  rw [List.drop_zero, htake] at htakes hkept hqueues
  have hsegs : fates.map Prod.fst = segs := by
    rw [map_fst_fates, map_fst_arrivals]
  have hstays : routed.1.buf.take routed.2.len = (Router.kept fates).flatten := htakes
  -- only the last segment may be short, and what is kept of them is a sublist
  have hstrided : Strided received.stride (Router.kept fates) := by
    have hwhole : Strided received.stride segs :=
      strided_segments received.stride (buf.take received.len)
    rw [← hsegs] at hwhole
    exact hwhole.sublist (List.filter_sublist.map _)
  refine ⟨flatten_segments _ _, hsegs, fun fate hfate => ?_, hlength, hstays, ?_, ?_, hqueues⟩
  · obtain ⟨flights, reading, heq⟩ := exists_destination hfate
    rw [heq]
    exact destination_named r shard flights fate.1 reading
  · rw [hstays, hstrided.segments_flatten]
  · have hcount : routed.1.kept = (Router.kept fates).flatten.length :=
      hkept.trans (Nat.zero_add _)
    rw [← hcount]
    rfl

end Fates

end Router

end GraphiteMeter.Server.Quic
