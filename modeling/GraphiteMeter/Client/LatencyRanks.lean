import Mathlib.Data.List.GetD
import Mathlib.Data.List.Induction
import Mathlib.Data.List.Sort
import Mathlib.Data.List.TakeWhile
import GraphiteMeter.Client.Latency

/-!
# The percentiles of a population

Reference: `rust/client/src/measure/latency.rs` (`Latency::summary`, `Latency::ranked`).

The histogram is the sorted list of the recorded round trips with equal neighbours counted together.
One walk over it finds every rank, since the ranks ascend and none is behind what the walk has seen.
-/

namespace GraphiteMeter.Client.Latency

/-! ## The histogram -/

/-- Every round trip as often as it is counted. -/
def expand (rtts : List (ℕ × ℕ)) : List ℕ := rtts.flatMap fun e => List.replicate e.2 e.1

@[simp] theorem expand_cons (rtt count : ℕ) (rtts : List (ℕ × ℕ)) :
    expand ((rtt, count) :: rtts) = List.replicate count rtt ++ expand rtts := rfl

/-- One more round trip joins the expansion. -/
theorem expand_count (rtt : ℕ) (rtts : List (ℕ × ℕ)) :
    (expand (count rtt rtts)).Perm (rtt :: expand rtts) := by
  induction rtts with
  | nil => exact .refl _
  | cons head rtts ih =>
    obtain ⟨known, n⟩ := head
    rw [count]
    split_ifs with hlt heq
    · exact .refl _
    · subst heq
      rw [expand_cons, List.replicate_succ]
      exact .refl _
    · rw [expand_cons, expand_cons]
      exact (ih.append_left _).trans List.perm_middle

/-- Counting adds no other round trip. -/
theorem mem_count {rtt : ℕ} {rtts : List (ℕ × ℕ)} {e : ℕ × ℕ} (h : e ∈ count rtt rtts) :
    e.1 = rtt ∨ ∃ e' ∈ rtts, e'.1 = e.1 := by
  induction rtts with
  | nil => exact .inl (by rw [List.mem_singleton.mp h])
  | cons head rtts ih =>
    obtain ⟨known, n⟩ := head
    rw [count] at h
    split_ifs at h with hlt heq
    · rcases List.mem_cons.mp h with rfl | h
      · exact .inl rfl
      · exact .inr ⟨e, h, rfl⟩
    · rcases List.mem_cons.mp h with rfl | h
      · exact .inl heq.symm
      · exact .inr ⟨e, List.mem_cons_of_mem _ h, rfl⟩
    · rcases List.mem_cons.mp h with rfl | h
      · exact .inr ⟨_, List.mem_cons_self, rfl⟩
      · exact (ih h).imp id fun ⟨e', he', heq⟩ => ⟨e', List.mem_cons_of_mem _ he', heq⟩

/-- The histogram stays in ascending order. -/
theorem pairwise_count (rtt : ℕ) {rtts : List (ℕ × ℕ)} (h : rtts.Pairwise fun a b => a.1 < b.1) :
    (count rtt rtts).Pairwise fun a b => a.1 < b.1 := by
  induction rtts with
  | nil => exact List.pairwise_singleton _ _
  | cons head rtts ih =>
    obtain ⟨known, n⟩ := head
    obtain ⟨hknown, htail⟩ := List.pairwise_cons.mp h
    rw [count]
    split_ifs with hlt heq
    · refine List.pairwise_cons.mpr ⟨fun e he => ?_, h⟩
      rcases List.mem_cons.mp he with rfl | he
      · exact hlt
      · exact hlt.trans (hknown e he)
    · exact List.pairwise_cons.mpr ⟨hknown, htail⟩
    · refine List.pairwise_cons.mpr ⟨fun e he => ?_, ih htail⟩
      rcases mem_count he with heq' | ⟨e', he', heq'⟩
      · exact heq' ▸ lt_of_le_of_ne (not_lt.mp hlt) (Ne.symm heq)
      · exact heq' ▸ hknown e' he'

/-- Sorted counts expand to a sorted list. -/
theorem sorted_expand {rtts : List (ℕ × ℕ)} (h : rtts.Pairwise fun a b => a.1 < b.1) :
    (expand rtts).Pairwise (· ≤ ·) := by
  refine List.pairwise_flatMap.mpr ⟨fun e _ => ?_, h.imp fun {a b} hab x hx y hy => ?_⟩
  · exact List.pairwise_replicate.mpr (.inr le_rfl)
  · rw [(List.mem_replicate.mp hx).2, (List.mem_replicate.mp hy).2]
    exact hab.le

/-! ## The walk -/

/-- What an ascending list has left past its numbers up to `bound` is above it. -/
theorem lt_of_mem_dropWhile {ranks : List ℕ} (h : ranks.Pairwise (· ≤ ·)) {bound rank : ℕ}
    (hmem : rank ∈ ranks.dropWhile (· ≤ bound)) : bound < rank := by
  induction ranks with
  | nil => exact absurd hmem List.not_mem_nil
  | cons head ranks ih =>
    obtain ⟨hhead, htail⟩ := List.pairwise_cons.mp h
    rw [List.dropWhile_cons] at hmem
    split_ifs at hmem with hle
    · exact ih htail hmem
    · have hlt : bound < head := not_le.mp fun h => hle (decide_eq_true h)
      rcases List.mem_cons.mp hmem with rfl | hmem
      · exact hlt
      · exact hlt.trans_le (hhead rank hmem)

/-- **One walk finds every rank** the sorted list has. -/
theorem ranked_eq (rtts : List (ℕ × ℕ)) {seen : ℕ} {ranks : List ℕ} (h : ranks.Pairwise (· ≤ ·))
    (hseen : ∀ rank ∈ ranks, seen < rank) :
    ranked rtts seen ranks = ranks.map fun rank => (expand rtts).getD (rank - seen - 1) 0 := by
  induction rtts generalizing seen ranks with
  | nil => exact List.map_congr_left fun _ _ => rfl
  | cons head rtts ih =>
    obtain ⟨rtt, count⟩ := head
    have hsplit : ranks = ranks.takeWhile (· ≤ seen + count) ++ ranks.dropWhile (· ≤ seen + count) :=
      (List.takeWhile_append_dropWhile ..).symm
    rw [ranked, ih (h.sublist (List.dropWhile_sublist _)) fun rank => lt_of_mem_dropWhile h]
    conv_rhs => rw [hsplit, List.map_append]
    congr 1
    · -- a rank within this count
      refine List.map_congr_left fun rank hrank => ?_
      have hle : rank ≤ seen + count := by simpa using List.mem_takeWhile_imp hrank
      have hlt := hseen rank ((List.takeWhile_sublist _).subset hrank)
      have hindex : rank - seen - 1 < (List.replicate count rtt).length := by
        rw [List.length_replicate]
        omega
      rw [expand_cons, List.getD_append _ _ _ _ hindex, List.getD_replicate]
      omega
    · -- a rank past it
      refine List.map_congr_left fun rank hrank => ?_
      have hlt := lt_of_mem_dropWhile h hrank
      have hindex : (List.replicate count rtt).length ≤ rank - seen - 1 := by
        rw [List.length_replicate]
        omega
      rw [expand_cons, List.getD_append_right _ _ _ _ hindex, List.length_replicate]
      congr 1
      omega

/-! ## What was recorded -/

/-- A reply rounds to the microsecond, up to the longest time 64 bits of microseconds say. -/
def micros (rtt : ℕ) : ℕ := min ((rtt + 500) / 1000) (2 ^ 64 - 1) * 1000

/-- What a population is told. -/
inductive Entry where
  | outcome (outcome : ProbeOutcome)
  /-- A reconnect or stage boundary. -/
  | boundary
deriving DecidableEq

def take (l : Latency) : Entry → Latency
  | .outcome outcome => l.record outcome
  | .boundary => l.breakContinuity

/-- The round trips of the replies. -/
def roundTrips (entries : List Entry) : List ℕ :=
  entries.filterMap fun
    | .outcome (.reply rtt _) => some rtt
    | _ => none

/-- What a population holds of the entries it was told. -/
structure Tells (l : Latency) (entries : List Entry) : Prop where
  ascending : l.rtts.Pairwise fun a b => a.1 < b.1
  perm : (expand l.rtts).Perm ((roundTrips entries).map micros)
  replies : l.counts.replies = (roundTrips entries).length
  timeouts : l.counts.timeouts = entries.count (.outcome .timeout)
  unresolved : l.counts.unresolved = entries.count (.outcome .unresolved)
  sendFailures : l.counts.sendFailures = entries.count (.outcome .sendFailed)

/-- Taking an entry keeps what a population tells. -/
theorem Tells.take {l : Latency} {entries : List Entry} (h : l.Tells entries) (e : Entry) :
    (l.take e).Tells (entries ++ [e]) := by
  obtain ⟨hascending, hperm, hreplies, htimeouts, hunresolved, hfailures⟩ := h
  have hsnoc : roundTrips (entries ++ [e]) = roundTrips entries ++ roundTrips [e] :=
    List.filterMap_append
  match e with
  | .outcome (.reply rtt handling) =>
    refine ⟨pairwise_count _ hascending, ?_, ?_, ?_, ?_, ?_⟩
    · rw [hsnoc, List.map_append]
      refine (expand_count (micros rtt) l.rtts).trans ?_
      exact (hperm.cons _).trans (List.perm_append_singleton _ _).symm
    · rw [hsnoc, List.length_append, ← hreplies]
      rfl
    · rw [List.count_append, ← htimeouts]
      rfl
    · rw [List.count_append, ← hunresolved]
      rfl
    · rw [List.count_append, ← hfailures]
      rfl
  | .outcome .timeout | .outcome .unresolved | .outcome .sendFailed | .boundary =>
    refine ⟨hascending, ?_, ?_, ?_, ?_, ?_⟩
    · rw [hsnoc]
      exact hperm.trans (by rw [show roundTrips [_] = [] from rfl, List.append_nil])
    · rw [hsnoc]
      exact hreplies.trans (by rw [show roundTrips [_] = [] from rfl, List.append_nil])
    · rw [List.count_append, ← htimeouts]
      rfl
    · rw [List.count_append, ← hunresolved]
      rfl
    · rw [List.count_append, ← hfailures]
      rfl

/-- **A run** of entries is told. -/
theorem tells_run (entries : List Entry) : (entries.foldl take empty).Tells entries := by
  induction entries using List.reverseRecOn with
  | nil => exact ⟨List.Pairwise.nil, .refl _, rfl, rfl, rfl, rfl⟩
  | append_singleton entries e ih =>
    rw [List.foldl_concat]
    exact ih.take e

/-! ## The percentiles -/

/-- The nearest rank of a percentile. -/
def percentile (n share : ℕ) : ℕ := max 1 ((share * n + 99) / 100)

/-- The ranks a summary looks up. -/
def ranks (n : ℕ) : List ℕ :=
  [1, percentile n 10, (n + 1) / 2, n / 2 + 1, percentile n 90, percentile n 95, n]

/-- The ranks ascend. -/
theorem pairwise_ranks {n : ℕ} (h : 0 < n) : (ranks n).Pairwise (· ≤ ·) := by
  refine List.isChain_iff_pairwise.mp ?_
  simp only [ranks, percentile, List.isChain_cons_cons, List.IsChain.singleton, and_true]
  omega

/-- No rank is zero. -/
theorem pos_of_mem_ranks {n rank : ℕ} (h : 0 < n) (hmem : rank ∈ ranks n) : 0 < rank := by
  rcases List.mem_cons.mp hmem with rfl | hmem
  · exact Nat.one_pos
  · exact (List.pairwise_cons.mp (pairwise_ranks h)).1 rank hmem

/-- The value at a 1-based rank. -/
def nth (sorted : List ℕ) (rank : ℕ) : Option ℕ := sorted[rank - 1]?

/-- What a summary says of the sorted round trips. -/
structure Reads (s : Summary) (sorted : List ℕ) : Prop where
  /-- Halfway between the two middle ones. -/
  p50 : s.p50 = (nth sorted ((sorted.length + 1) / 2)).bind fun lower =>
    (nth sorted (sorted.length / 2 + 1)).map fun upper => (lower + upper) / 2
  p95 : s.p95 = nth sorted (percentile sorted.length 95)
  min : s.spread.map (·.min) = nth sorted 1
  p10 : s.spread.map (·.p10) = nth sorted (percentile sorted.length 10)
  p90 : s.spread.map (·.p90) = nth sorted (percentile sorted.length 90)
  max : s.spread.map (·.max) = nth sorted sorted.length

/-- A sorted list ascends. -/
theorem getD_le_getD {sorted : List ℕ} (h : sorted.Pairwise (· ≤ ·)) {i j : ℕ} (hij : i ≤ j)
    (hj : j < sorted.length) : sorted.getD i 0 ≤ sorted.getD j 0 := by
  rw [List.getD_eq_getElem _ _ (hij.trans_lt hj), List.getD_eq_getElem _ _ hj]
  rcases hij.eq_or_lt with rfl | hlt
  · exact le_rfl
  · exact List.pairwise_iff_getElem.mp h i j _ hj hlt

/-- With a reply, a summary is what the walk found at the ranks. -/
theorem summary_ranked {l : Latency} (hn : 0 < l.counts.replies) {at_ : ℕ → ℕ}
    (h : ranked l.rtts 0 (ranks l.counts.replies) = (ranks l.counts.replies).map at_) :
    l.summary.p50 = some (at_ ((l.counts.replies + 1) / 2)
        + (at_ (l.counts.replies / 2 + 1) - at_ ((l.counts.replies + 1) / 2)) / 2) ∧
      l.summary.p95 = some (at_ (percentile l.counts.replies 95)) ∧
      l.summary.spread = some ⟨at_ 1, at_ (percentile l.counts.replies 10),
        at_ (percentile l.counts.replies 90), at_ l.counts.replies⟩ := by
  rw [ranks, percentile, percentile, percentile] at h
  rw [summary]
  simp only [if_pos hn, Option.map_some, h]
  exact ⟨rfl, rfl, rfl⟩

/-- What a summary finds is what the ascending list its histogram stands for has at the ranks. -/
theorem reads_of_expand {l : Latency} (hascending : l.rtts.Pairwise fun a b => a.1 < b.1)
    (hreplies : (expand l.rtts).length = l.counts.replies) : Reads l.summary (expand l.rtts) := by
  by_cases hn : 0 < l.counts.replies
  · obtain ⟨hp50, hp95, hspread⟩ := summary_ranked hn
      (ranked_eq l.rtts (pairwise_ranks hn) fun rank => pos_of_mem_ranks hn)
    -- every rank is one of the list's
    have hnth : ∀ rank, 0 < rank → rank ≤ l.counts.replies →
        nth (expand l.rtts) rank = some ((expand l.rtts).getD (rank - 0 - 1) 0) := by
      intro rank hpos hle
      have hlt : rank - 1 < (expand l.rtts).length := by omega
      rw [nth, List.getD_eq_getElem?_getD, Nat.sub_zero, List.getElem?_eq_getElem hlt,
        Option.getD_some]
    have hpercentile : ∀ share, share ≤ 100 →
        nth (expand l.rtts) (percentile l.counts.replies share)
          = some ((expand l.rtts).getD (percentile l.counts.replies share - 0 - 1) 0) := by
      intro share hshare
      have : share * l.counts.replies ≤ 100 * l.counts.replies := Nat.mul_le_mul_right _ hshare
      exact hnth _ (by rw [percentile]; omega) (by rw [percentile]; omega)
    constructor
    case p50 =>
      have hle := getD_le_getD (sorted_expand hascending)
        (i := (l.counts.replies + 1) / 2 - 0 - 1) (j := l.counts.replies / 2 + 1 - 0 - 1)
        (by omega) (by omega)
      rw [hreplies, hp50, hnth _ (by omega) (by omega), hnth _ (by omega) (by omega)]
      rw [Option.bind_some, Option.map_some]
      congr 1
      omega
    case p95 => rw [hreplies, hp95, hpercentile 95 (by decide)]
    case min => rw [hspread, hnth 1 Nat.one_pos hn, Option.map_some]
    case p10 => rw [hreplies, hspread, hpercentile 10 (by decide), Option.map_some]
    case p90 => rw [hreplies, hspread, hpercentile 90 (by decide), Option.map_some]
    case max => rw [hreplies, hspread, hnth _ hn le_rfl, Option.map_some]
  · have hnil : expand l.rtts = [] := List.eq_nil_of_length_eq_zero (by omega)
    have hnone : l.summary.p50 = none ∧ l.summary.p95 = none ∧ l.summary.spread = none := by
      rw [summary]
      simp only [if_neg hn, Option.map_none, and_self]
    rw [hnil]
    exact ⟨hnone.1, hnone.2.1, by rw [hnone.2.2]; rfl, by rw [hnone.2.2]; rfl,
      by rw [hnone.2.2]; rfl, by rw [hnone.2.2]; rfl⟩

/-- **The summary of a population**, whatever was recorded in whatever order: its percentiles are
those of the sorted list of the rounded round trips, the ranks it walks with ascend, a rounded round
trip is whole microseconds and the nearest, and the counts are exact. -/
theorem summary_exact (entries : List Entry) :
    let l := entries.foldl take empty
    Reads l.summary (((roundTrips entries).map micros).insertionSort (· ≤ ·)) ∧
      (∀ n, 0 < n → (ranks n).Pairwise (· ≤ ·)) ∧
      (∀ rtt, rtt + 500 < 2 ^ 64 * 1000 →
        1000 ∣ micros rtt ∧ micros rtt ≤ rtt + 500 ∧ rtt < micros rtt + 500) ∧
      l.summary.counts.replies = (roundTrips entries).length ∧
      l.summary.counts.timeouts = entries.count (.outcome .timeout) ∧
      l.summary.counts.unresolved = entries.count (.outcome .unresolved) ∧
      l.summary.counts.sendFailures = entries.count (.outcome .sendFailed) := by
  have htells := tells_run entries
  refine ⟨?_, fun n => pairwise_ranks, fun rtt hrtt => ?_, htells.replies, htells.timeouts,
    htells.unresolved, htells.sendFailures⟩
  · have hsorted : ((roundTrips entries).map micros).insertionSort (· ≤ ·)
        = expand (entries.foldl take empty).rtts :=
      ((List.perm_insertionSort _ _).trans htells.perm.symm).eq_of_pairwise'
        (List.pairwise_insertionSort _ _) (sorted_expand htells.ascending)
    rw [hsorted]
    refine reads_of_expand htells.ascending ?_
    rw [htells.perm.length_eq, List.length_map, htells.replies]
  · rw [micros, min_eq_left (by omega)]
    exact ⟨Nat.dvd_mul_left _ _, by omega, by omega⟩

/-- Three replies in no order around a loss. -/
theorem summary_exact_three :
    let entries : List Entry := [.outcome (.reply 3600 0), .outcome .timeout,
      .outcome (.reply 1499 0), .boundary, .outcome (.reply 3500 0)]
    Reads (entries.foldl take empty).summary [1000, 4000, 4000] ∧ (ranks 3).Pairwise (· ≤ ·) ∧
      1000 ∣ micros 1499 :=
  have h := summary_exact [.outcome (.reply 3600 0), .outcome .timeout,
    .outcome (.reply 1499 0), .boundary, .outcome (.reply 3500 0)]
  ⟨h.1, h.2.1 3 (by decide), (h.2.2.1 1499 (by decide)).1⟩

end GraphiteMeter.Client.Latency
