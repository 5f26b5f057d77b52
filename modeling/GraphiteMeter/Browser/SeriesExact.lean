import GraphiteMeter.Browser.SeriesSamples

/-!
# The series keep within their limit

Whatever the limit, `fit` ends and lengthens nothing, and keeps what buckets and samples total. Buckets
stay in start order. Samples of a direction stay in time order within a stage, and over the stages where
none comes back after another: stages fold apart, so a merge of one may pass a sample of the other that
was taken between.
-/

namespace GraphiteMeter.Browser.Series

open GraphiteMeter.Measure (Stage Direction)
open GraphiteMeter.Measure.Browser.Buckets (LatencyBucket)
open Packing (Bin)

structure KeepsBuckets (before after : List LatencyBucket) : Prop where
  length_le : after.length ≤ before.length
  order : InStartOrder before → InStartOrder after
  pings : (after.map (·.pingCount)).sum = (before.map (·.pingCount)).sum
  timeouts : (after.map (·.timeoutCount)).sum = (before.map (·.timeoutCount)).sum

/-- Fitting keeps what the latency buckets count. -/
theorem fit_keepsBuckets (limit : ℚ) (f : Folded LatencyBucket Phase) :
    KeepsBuckets f.items (latencyKind.fit limit f).items := by
  refine fit_keeps (KeepsBuckets f.items) (fun items group grid horizon strict h => ?_)
    ⟨le_rfl, id, rfl, rfl⟩
  refine ⟨(fold_length_le _ _ _ _ _ _).trans h.length_le,
    fun horder => fold_inStartOrder (h.order horder) group grid horizon strict, ?_, ?_⟩
  · exact (fold_sum LatencyBucket.pingCount (fun _ _ _ _ => rfl) group grid horizon strict).trans h.pings
  · exact (fold_sum LatencyBucket.timeoutCount (fun _ _ _ _ => rfl) group grid horizon strict).trans h.timeouts

namespace BucketSeries

def run (limit : ℚ) (buckets : List LatencyBucket) : Folded LatencyBucket Phase :=
  buckets.foldl (upsert limit) .empty

/-- In start order, in whatever order they came. -/
theorem run_inStartOrder (limit : ℚ) (buckets : List LatencyBucket) :
    InStartOrder (run limit buckets).items := by
  induction buckets using List.reverseRecOn with
  | nil => exact List.Pairwise.nil
  | append_singleton buckets bucket ih =>
    rw [run, List.foldl_append]
    exact (fit_keepsBuckets limit _).order (insert_inStartOrder ih bucket)

end BucketSeries

structure KeepsSamples (before after : List ThroughputSample) : Prop where
  length_le : after.length ≤ before.length
  lines : InOrder id before → InOrder id after
  lanes : InOrder Prod.snd before → InOrder Prod.snd after
  ticks : (after.map (·.ticks)).sum = (before.map (·.ticks)).sum
  bytes : (after.map fun x => x.bytesPerSec * (x.ticks : ℚ)).sum
    = (before.map fun x => x.bytesPerSec * (x.ticks : ℚ)).sum

/-- Every sample stands for a tick at least. -/
def Counted (items : List ThroughputSample) : Prop := ∀ x ∈ items, 0 < x.ticks

/-- Folding keeps the samples counted. -/
theorem fold_counted {items : List ThroughputSample} (h : Counted items) (group : Stage) (grid : Grid)
    (horizon : ℚ) (strict : Bool) :
    Counted (throughputKind.fold items group grid horizon strict) := by
  have hpacks := Packing.pack_packs (throughputKind.foldLane group horizon)
    (throughputKind.fits grid strict) items
  rw [fold_eq]
  refine List.forall_mem_map.mpr fun b hb => ?_
  have hbin : ∀ x ∈ b.toList, 0 < x.ticks := fun x hx =>
    h x (hpacks.perm.subset (List.mem_flatMap.mpr ⟨b, hb, hx⟩))
  unfold Kind.value
  split
  case isTrue => exact ticks_pos hbin
  case isFalse => exact hbin _ b.first_mem

/-- Fitting keeps what the throughput samples count. -/
theorem fit_keepsSamples (limit : ℚ) (f : Folded ThroughputSample Stage) (h : Counted f.items) :
    KeepsSamples f.items (throughputKind.fit limit f).items := by
  refine (fit_keeps (fun items => Counted items ∧ KeepsSamples f.items items)
    (fun items group grid horizon strict h => ?_) ⟨h, le_rfl, id, id, rfl, rfl⟩).2
  obtain ⟨hcounted, h⟩ := h
  refine ⟨fold_counted hcounted group grid horizon strict,
    (fold_length_le _ _ _ _ _ _).trans h.length_le,
    fun horder => fold_inOrder byDirection_id (h.lines horder) group grid horizon strict,
    fun horder => fold_inOrder byDirection_snd (h.lanes horder) group grid horizon strict, ?_, ?_⟩
  · exact (fold_sum ThroughputSample.ticks (fun _ _ _ _ => rfl) group grid horizon strict).trans h.ticks
  · refine (fold_sum (fun x : ThroughputSample => x.bytesPerSec * (x.ticks : ℚ)) (fun b start end_ hmem => ?_) group grid
      horizon strict).trans h.bytes
    exact merge_bytes fun x hx => hcounted x (hmem x hx)

/-- **Fitting keeps totals and order.** Whatever the limit and the state, the loop ends, nothing is
lengthened and the totals stay. Buckets, however they come, stay in start order. Live samples that come
in time order stay in time order within each direction of a stage, and within a direction whose stages
do not come back. -/
theorem series_fit (limit : ℚ) :
    (∀ f : Folded LatencyBucket Phase,
      (∃ n, latencyKind.fitIn limit n ⟨f, []⟩ = some (latencyKind.fit limit f)) ∧
      KeepsBuckets f.items (latencyKind.fit limit f).items) ∧
    (∀ buckets, InStartOrder (BucketSeries.run limit buckets).items) ∧
    (∀ f : Folded ThroughputSample Stage,
      (∃ n, throughputKind.fitIn limit n ⟨f, []⟩ = some (throughputKind.fit limit f)) ∧
      (Counted f.items → KeepsSamples f.items (throughputKind.fit limit f).items)) ∧
    ∀ (lives : List Live) (live : Live), ((lives ++ [live]).Pairwise fun a b => a.t ≤ b.t) →
      let before := ThroughputSeries.insert (ThroughputSeries.run limit lives).items live.sample
      let after := (ThroughputSeries.run limit (lives ++ [live])).items
      KeepsSamples before after ∧ InOrder id after ∧
        (Together Prod.snd ((lives ++ [live]).map fun live => key live.sample) →
          InOrder Prod.snd after) := by
  refine ⟨fun f => ⟨fitIn_ends latencyKind limit ⟨f, []⟩, fit_keepsBuckets limit f⟩,
    BucketSeries.run_inStartOrder limit,
    fun f => ⟨fitIn_ends throughputKind limit ⟨f, []⟩, fit_keepsSamples limit f⟩,
    fun lives live htime => ⟨?_, ?_, fun htogether => ?_⟩⟩
  · have hlives := ThroughputSeries.run_added byDirection_id limit (List.pairwise_append.mp htime).1
      (together_id _)
    have hbefore := ThroughputSeries.insert_added hlives htime (together_id _)
    have hcounted : Counted (ThroughputSeries.insert (ThroughputSeries.run limit lives).items
        live.sample) := fun x hx => (hbefore.sane x hx).ticks
    rw [ThroughputSeries.run_concat]
    exact fit_keepsSamples limit { ThroughputSeries.run limit lives with items := _ } hcounted
  · exact (ThroughputSeries.run_added byDirection_id limit htime (together_id _)).toInOrder
  · exact (ThroughputSeries.run_added byDirection_snd limit htime htogether).toInOrder

/-- A download's rate at a time, of a stage. -/
def downAt (stage : Stage) (t : ℚ) : Live := ⟨t, 1, 0, .down, stage, 0⟩

def downloads : List Live := [0, 1, 2, 3].map (downAt .download)

/-- Downloads alone stay in order. -/
theorem series_fit_downloads :
    InOrder Prod.snd (ThroughputSeries.run 3 (downloads ++ [downAt .download 4])).items :=
  ((series_fit 3).2.2.2 downloads (downAt .download 4) (by decide +kernel)).2.2
    fun p q r hsub _ _ _ => by
      have hstage : ∀ k ∈ (downloads ++ [downAt .download 4]).map (fun live => key live.sample),
          k.1 = .download := by decide +kernel
      rw [hstage p (hsub.subset (by simp)), hstage q (hsub.subset (by simp))]

/-- One sample of another stage comes among a stage's. -/
def interleaved : List Live :=
  [downAt .download 0, downAt .bidirectional 1, downAt .download 2, downAt .download 3,
    downAt .download 4]

/-- Samples of two stages that interleave may be put out of order. -/
theorem interleaved_passes :
    ¬ ∀ (limit : ℚ) (lives : List Live), (lives.Pairwise fun a b => a.t ≤ b.t) →
      (ThroughputSeries.run limit lives).items.Pairwise fun a b => a.dir = b.dir → a.t ≤ b.t := by
  intro h
  have hrun : ((ThroughputSeries.runIn 20 3 interleaved).map fun f =>
      f.items.map fun x => (x.dir, x.t)) = some [(.down, 5 / 3), (.down, 1), (.down, 4)] := by
    decide +kernel
  obtain ⟨f, hf, hitems⟩ := Option.map_eq_some_iff.mp hrun
  have hpairwise := h 3 interleaved (by decide +kernel)
  rw [ThroughputSeries.run_of_runIn hf] at hpairwise
  have hmap : (f.items.map fun x => (x.dir, x.t)).Pairwise fun a b => a.1 = b.1 → a.2 ≤ b.2 :=
    List.pairwise_map.mpr hpairwise
  rw [hitems] at hmap
  exact absurd hmap (by decide +kernel)

end GraphiteMeter.Browser.Series
