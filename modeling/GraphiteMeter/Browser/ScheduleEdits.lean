import Mathlib.Data.List.Nodup
import Mathlib.Tactic.Linarith
import GraphiteMeter.Browser.Schedule

/-!
# Edits of the timeline

`Ordered` ranks segments by stage, a warmup before its window. Contiguity from 0, that order, and a
window for every planned stage are what `replan` and `truncate` restore.
-/

namespace GraphiteMeter.Browser.Schedule

open GraphiteMeter.Measure (Stage)
open Rounding (Double)
open Tiling (Tiles)

abbrev Key : Type := Phase × Activity

namespace Segment

def key (segment : Segment) : Key := (segment.phase, segment.activity)

def IsWarmup (stage : Stage) (segment : Segment) : Prop :=
  segment.phase = .warmup ∧ segment.activity.stage = stage

end Segment

/-- The segments follow one another from 0, and none has a negative length. -/
def Contiguous (segments : List Segment) : Prop :=
  ∃ stop, Tiles Segment.start Segment.end_ 0 segments stop

def finished (t : Timed) : List Segment := t.segments.filter (·.end_ ≤ t.elapsed)

/-- The window of a stage that has a warmup comes directly after it. -/
def Paired (segments : List Segment) (stage : Stage) : Prop :=
  ∀ pre window post, segments = pre ++ window :: post → window.phase = .window stage →
    (∃ warmup ∈ segments, warmup.IsWarmup stage) → ∃ last ∈ pre.getLast?, last.IsWarmup stage

/-! ## Stages in order -/

def index (stage : Stage) : ℕ := stages.idxOf stage

/-- No two stages have one place. -/
theorem index_injective : Function.Injective index := by
  intro stage stage'
  cases stage <;> cases stage' <;> decide

def rank (k : Key) : ℕ := 2 * index k.2.stage + if k.1 = .warmup then 0 else 1

/-- A stage's segments have two ranks: its warmup's and its window's. -/
theorem rank_bounds (k : Key) : 2 * index k.2.stage ≤ rank k ∧ rank k ≤ 2 * index k.2.stage + 1 := by
  rw [rank]
  split <;> omega

@[simp] theorem rank_warmup (activity : Activity) :
    rank (.warmup, activity) = 2 * index activity.stage := rfl

@[simp] theorem rank_window (stage : Stage) (activity : Activity) :
    rank (.window stage, activity) = 2 * index activity.stage + 1 := rfl

/-- The even rank of a stage is its warmup's. -/
theorem eq_warmup_of_rank {k : Key} {stage : Stage} (h : rank k = 2 * index stage) :
    k.1 = .warmup ∧ k.2.stage = stage := by
  rw [rank] at h
  split at h
  · exact ⟨‹_›, index_injective (by omega)⟩
  · omega

/-- Stages come in order, each with a warmup, a window or the one before the other. -/
structure Ordered (keys : List Key) : Prop where
  own : ∀ k ∈ keys, ∀ stage, k.1 = .window stage → k.2.stage = stage
  ranks : keys.Pairwise fun k k' => rank k < rank k'

def Covers (plan : Plan) (keys : List Key) : Prop :=
  ∀ stage, planned plan stage → ∃ k ∈ keys, k.1 = .window stage

namespace Ordered

variable {keys keys' : List Key} {k : Key} {stage : Stage}

/-- No segments are in order. -/
theorem nil : Ordered [] := ⟨List.forall_mem_nil _, List.Pairwise.nil⟩

/-- Segments left out leave the others in order. -/
theorem sublist (h : Ordered keys) (hsub : keys'.Sublist keys) : Ordered keys' where
  own k hk := h.own k (hsub.subset hk)
  ranks := h.ranks.sublist hsub

/-- A later segment goes to the end. -/
theorem snoc (h : Ordered keys) (hown : ∀ stage, k.1 = .window stage → k.2.stage = stage)
    (hlt : ∀ k' ∈ keys, rank k' < rank k) : Ordered (keys ++ [k]) where
  own k' hk' := by
    rcases List.mem_append.mp hk' with hk' | hk'
    · exact h.own k' hk'
    · rw [List.mem_singleton.mp hk']
      exact hown
  ranks := List.pairwise_append.mpr ⟨h.ranks, List.pairwise_singleton _ _, fun k' hk' k'' hk'' => by
    rw [List.mem_singleton.mp hk'']
    exact hlt k' hk'⟩

/-- A window has the rank of the stage it measures. -/
theorem rank_of_window (h : Ordered keys) (hk : k ∈ keys) (hwindow : k.1 = .window stage) :
    rank k = 2 * index stage + 1 := by
  obtain ⟨phase, activity⟩ := k
  obtain rfl : phase = .window stage := hwindow
  rw [rank_window, h.own _ hk stage rfl]

end Ordered

/-- Two windows of one stage would have one rank. -/
theorem windows_le_one {segments : List Segment} (h : Ordered (segments.map Segment.key))
    (stage : Stage) : segments.countP (·.phase = .window stage) ≤ 1 := by
  have hranks : (segments.filter (·.phase = .window stage)).Pairwise
      fun s s' => rank s.key < rank s'.key :=
    (List.pairwise_map.mp h.ranks).sublist List.filter_sublist
  have hmem : ∀ s ∈ segments.filter (·.phase = .window stage), rank s.key = 2 * index stage + 1 := by
    intro s hs
    rw [List.mem_filter, decide_eq_true_eq] at hs
    exact h.rank_of_window (List.mem_map_of_mem hs.1) hs.2
  rw [List.countP_eq_length_filter]
  generalize segments.filter (·.phase = .window stage) = windows at hranks hmem
  match windows with
  | [] => exact Nat.zero_le _
  | [_] => exact le_rfl
  | s :: s' :: l =>
    have hlt := (List.pairwise_cons.mp hranks).1 s' List.mem_cons_self
    rw [hmem s List.mem_cons_self, hmem s' (by simp)] at hlt
    exact absurd hlt (lt_irrefl _)

/-- Nothing ranks between a warmup and its window. -/
theorem paired {segments : List Segment} (h : Ordered (segments.map Segment.key)) (stage : Stage) :
    Paired segments stage := by
  rintro pre window post rfl hwindow ⟨warmup, hmem, hphase, hstage⟩
  have hrank : rank window.key = 2 * index stage + 1 :=
    h.rank_of_window (List.mem_map_of_mem (by simp)) hwindow
  have hwarm : rank warmup.key = 2 * index stage := by
    rw [Segment.key, hphase, rank_warmup, hstage]
  obtain ⟨hpre, hpost, hcross⟩ := List.pairwise_append.mp (List.pairwise_map.mp h.ranks)
  have hbefore : warmup ∈ pre := by
    rcases List.mem_append.mp hmem with hmem | hmem
    · exact hmem
    rcases List.mem_cons.mp hmem with rfl | hmem
    · omega
    · have := (List.pairwise_cons.mp hpost).1 warmup hmem
      omega
  rcases List.eq_nil_or_concat pre with rfl | ⟨pre, last, rfl⟩
  · cases hbefore
  rw [List.concat_eq_append] at *
  refine ⟨last, by simp, ?_⟩
  have hlast : rank last.key < rank window.key := hcross last (by simp) window List.mem_cons_self
  have hle : rank warmup.key ≤ rank last.key := by
    rcases List.mem_append.mp hbefore with hbefore | hbefore
    · exact ((List.pairwise_append.mp hpre).2.2 warmup hbefore last (by simp)).le
    · rw [List.mem_singleton.mp hbefore]
  have hrank' : rank last.key = 2 * index stage := by omega
  exact eq_warmup_of_rank hrank'

/-! ## Laying stages -/

/-- A draft whose segments are in order and reach its cursor. -/
structure Laid (d : Draft) : Prop where
  tiles : Tiles Segment.start Segment.end_ 0 d.segments d.cursor
  ordered : Ordered (d.segments.map Segment.key)

/-- The stage has its window, or nothing in the way of one. -/
def Ready (segments : List Segment) (stage : Stage) : Prop :=
  (∃ s ∈ segments, s.phase = .window stage) ∨ ∀ s ∈ segments, rank s.key ≤ 2 * index stage

section Lay

variable {d : Draft} {plan : Plan} {next : Activity} {phase : Phase} {ms : Length} {activity : Activity}

/-- A segment laid at the end keeps the draft. -/
theorem Laid.push (h : Laid d) (hown : ∀ stage, phase = .window stage → activity.stage = stage)
    (hlt : ∀ s ∈ d.segments, rank s.key < rank (phase, activity)) :
    Laid (d.push phase ms activity) where
  tiles := h.tiles.snoc rfl (Double.le_add _ ms.2)
  ordered := by
    rw [Draft.push, List.map_append]
    exact h.ordered.snoc hown (List.forall_mem_map.mpr hlt)

/-- So does a stage's window after everything before it. -/
theorem Laid.pushWindow (h : Laid d) (hactivity : activity.stage = next.stage)
    (hle : ∀ s ∈ d.segments, rank s.key ≤ 2 * index next.stage) :
    Laid (d.push (.window next.stage) ms activity) := by
  refine h.push ?_ fun s hs => ?_
  · rintro stage ⟨⟩
    exact hactivity
  · rw [rank_window, hactivity]
    exact Nat.lt_succ_of_le (hle s hs)

/-- What one pass of the loops adds: segments of the next stage, its window among them. -/
structure Follows (d d' : Draft) (stage : Stage) : Prop where
  laid : Laid d'
  added : ∃ added, d'.segments = d.segments ++ added ∧ ∀ s ∈ added, s.activity.stage = stage
  window : ∃ s ∈ d'.segments, s.phase = .window stage

/-- A window alone follows the draft. -/
theorem push_follows (h : Laid d) (hactivity : activity.stage = next.stage)
    (hle : ∀ s ∈ d.segments, rank s.key ≤ 2 * index next.stage) :
    Follows d (d.push (.window next.stage) ms activity) next.stage where
  laid := h.pushWindow hactivity hle
  added := ⟨[_], rfl, by simpa using hactivity⟩
  window := ⟨_, List.mem_append_right _ List.mem_cons_self, rfl⟩

/-- A warmup and its window follow the draft. -/
theorem push_push_follows {ms' : Length} (h : Laid d)
    (hlt : ∀ s ∈ d.segments, rank s.key < 2 * index next.stage) :
    Follows d ((d.push .warmup ms' next).push (.window next.stage) ms next) next.stage where
  laid := by
    have hwarmup : Laid (d.push .warmup ms' next) := by
      refine h.push ?_ hlt
      rintro stage ⟨⟩
    refine hwarmup.pushWindow rfl fun s hs => ?_
    rcases List.mem_append.mp hs with hs | hs
    · exact (hlt s hs).le
    · rw [List.mem_singleton.mp hs]
      exact le_rfl
  added := ⟨[_, _], List.append_assoc _ _ _, by simp⟩
  window := ⟨_, List.mem_append_right _ List.mem_cons_self, rfl⟩

/-- `follow` lays what is missing of a stage. -/
theorem follow_follows (h : Laid d) (hready : Ready d.segments next.stage) :
    Follows d (follow plan d next) next.stage := by
  unfold follow
  split
  case isTrue hwindow =>
    simp only [List.any_eq_true, decide_eq_true_eq] at hwindow
    exact ⟨h, ⟨[], (List.append_nil _).symm, List.forall_mem_nil _⟩, hwindow⟩
  case isFalse hwindow =>
    simp only [List.any_eq_true, decide_eq_true_eq] at hwindow
    have hle := hready.resolve_left hwindow
    match hfind : d.segments.find? fun segment =>
        segment.phase = .warmup ∧ segment.activity.stage = next.stage with
    | some warmup =>
      have hstage := List.find?_some hfind
      rw [decide_eq_true_eq] at hstage
      simp only [hfind, Option.isNone_some, Bool.false_eq_true, false_and, if_false, Option.map_some,
        Option.getD_some]
      exact push_follows h hstage.2 hle
    | none =>
      -- A segment that ranks like the warmup would be one.
      have hlt : ∀ s ∈ d.segments, rank s.key < 2 * index next.stage := by
        intro s hs
        refine lt_of_le_of_ne (hle s hs) fun heq => ?_
        have hnot := List.find?_eq_none.mp hfind s hs
        rw [decide_eq_true_eq] at hnot
        exact hnot (eq_warmup_of_rank heq)
      simp only [hfind, Option.isNone_none, true_and, Option.map_none, Option.getD_none]
      split
      · exact push_push_follows h hlt
      · exact push_follows h rfl hle

/-- `lay` lays a planned stage. -/
theorem lay_follows (hplanned : planned plan next.stage) (h : Laid d)
    (hlt : ∀ s ∈ d.segments, rank s.key < 2 * index next.stage) :
    Follows d (lay plan d next) next.stage := by
  have hms : 0 < (plan.duration.ms next.stage).val := by
    rw [planned, Bool.and_eq_true, decide_eq_true_eq] at hplanned
    exact hplanned.2
  unfold lay Draft.pushTimed
  rw [if_pos hms]
  split
  · exact push_push_follows h hlt
  · exact push_follows h rfl fun s hs => (hlt s hs).le

end Lay

/-- A plan's activities come in the order of the stages. -/
theorem activities_sorted (plan : Plan) :
    (activities plan).Pairwise fun a b => index a.stage < index b.stage := by
  have hstages : stages.Pairwise fun a b => index a < index b := by decide
  exact List.pairwise_map.mpr (hstages.sublist List.filter_sublist)

/-- Every stage is in the list of them. -/
theorem mem_stages (stage : Stage) : stage ∈ stages := by cases stage <;> decide

/-- A planned stage has an activity. -/
theorem exists_activity {plan : Plan} {stage : Stage} (h : planned plan stage) :
    ∃ a ∈ activities plan, a.stage = stage :=
  ⟨_, List.mem_map_of_mem (List.mem_filter.mpr ⟨mem_stages stage, h⟩), rfl⟩

/-- An activity's stage is planned. -/
theorem planned_of_mem {plan : Plan} {a : Activity} (h : a ∈ activities plan) :
    planned plan a.stage := by
  obtain ⟨stage, hstage, rfl⟩ := List.mem_map.mp h
  exact (List.mem_filter.mp hstage).2

/-- A loop over activities in order, each of which follows what has room for it. -/
theorem foldl_follows {f : Draft → Activity → Draft} {P : List Segment → Stage → Prop}
    (hkeep : ∀ l added stage stage', P l stage' → index stage < index stage' →
      (∀ s ∈ added, s.activity.stage = stage) → P (l ++ added) stage')
    {rest : List Activity}
    (hf : ∀ d, ∀ next ∈ rest, Laid d → P d.segments next.stage → Follows d (f d next) next.stage)
    (hsorted : rest.Pairwise fun a b => index a.stage < index b.stage) {d : Draft} (h : Laid d)
    (hpre : ∀ next ∈ rest, P d.segments next.stage) :
    Laid (rest.foldl f d) ∧ d.segments <+: (rest.foldl f d).segments ∧
      ∀ next ∈ rest, ∃ s ∈ (rest.foldl f d).segments, s.phase = .window next.stage := by
  induction rest generalizing d with
  | nil => exact ⟨h, List.prefix_rfl, List.forall_mem_nil _⟩
  | cons next rest ih =>
    obtain ⟨hfirst, hsorted⟩ := List.pairwise_cons.mp hsorted
    obtain ⟨hlaid, ⟨added, hadded, hstage⟩, window, hwindow, hphase⟩ :=
      hf d next List.mem_cons_self h (hpre next List.mem_cons_self)
    have hlater : ∀ later ∈ rest, P (f d next).segments later.stage := by
      intro later hmem
      rw [hadded]
      exact hkeep _ _ _ _ (hpre later (List.mem_cons_of_mem _ hmem)) (hfirst later hmem) hstage
    obtain ⟨hrest, hkept, hwindows⟩ :=
      ih (fun d next hnext => hf d next (List.mem_cons_of_mem _ hnext)) hsorted hlaid hlater
    refine ⟨hrest, List.IsPrefix.trans ⟨added, hadded.symm⟩ hkept, ?_⟩
    exact List.forall_mem_cons.mpr ⟨⟨window, hkept.subset hwindow, hphase⟩, hwindows⟩

/-- A segment of an earlier stage ranks before a later one. -/
theorem rank_le_of_stage {s : Segment} {stage stage' : Stage} (hs : s.activity.stage = stage)
    (h : index stage < index stage') : rank s.key < 2 * index stage' := by
  obtain ⟨-, hle⟩ := rank_bounds s.key
  have heq : index s.key.2.stage = index stage := congrArg index hs
  omega

/-- What is laid for a stage leaves a later one ready. -/
theorem Ready.append (l added : List Segment) (stage stage' : Stage) (h : Ready l stage')
    (hlt : index stage < index stage') (hadded : ∀ s ∈ added, s.activity.stage = stage) :
    Ready (l ++ added) stage' := by
  rcases h with ⟨s, hs, hphase⟩ | hle
  · exact .inl ⟨s, List.mem_append_left _ hs, hphase⟩
  · refine .inr fun s hs => ?_
    rcases List.mem_append.mp hs with hs | hs
    · exact hle s hs
    · exact (rank_le_of_stage (hadded s hs) hlt).le

/-! ## What each call keeps -/

/-- The segments are contiguous and in order, with a window for every planned stage. -/
structure Timed.Sound (t : Timed) : Prop where
  contiguous : Contiguous t.segments
  ordered : Ordered (t.segments.map Segment.key)
  covers : Covers t.plan (t.segments.map Segment.key)

/-- With a window for each activity, the plan is covered. -/
theorem covers_of_activities {plan : Plan} {segments : List Segment}
    (h : ∀ next ∈ activities plan, ∃ s ∈ segments, s.phase = .window next.stage) :
    Covers plan (segments.map Segment.key) := by
  intro stage hplanned
  obtain ⟨a, ha, rfl⟩ := exists_activity hplanned
  obtain ⟨s, hs, hphase⟩ := h a ha
  exact ⟨s.key, List.mem_map_of_mem hs, hphase⟩

/-- An empty draft is in order. -/
theorem Laid.nil : Laid ⟨[], 0⟩ := ⟨rfl, .nil⟩

/-- A new schedule is sound. -/
theorem new_sound (plan : Plan) : (Timed.new plan).Sound := by
  obtain ⟨hlaid, -, hwindows⟩ := foldl_follows
    (P := fun l stage => ∀ s ∈ l, rank s.key < 2 * index stage)
    (fun l added stage stage' hl hlt hadded s hs => (List.mem_append.mp hs).elim (hl s)
      fun hs => rank_le_of_stage (hadded s hs) hlt)
    (fun d next hnext => lay_follows (planned_of_mem hnext)) (activities_sorted plan) Laid.nil
    fun next _ => List.forall_mem_nil _
  exact ⟨⟨_, hlaid.tiles⟩, hlaid.ordered, covers_of_activities hwindows⟩

section Kept

variable {segments pre post : List Segment} {active : Segment} {stop elapsed : Double}

/-- What ended by `elapsed` is what comes before the running segment. -/
theorem filter_finished (h : Tiles Segment.start Segment.end_ 0 (pre ++ active :: post) stop)
    (hstart : active.start ≤ elapsed) (hend : elapsed < active.end_) :
    (pre ++ active :: post).filter (·.end_ ≤ elapsed) = pre := by
  obtain ⟨hpre, -, hpost⟩ := h.around
  rw [List.filter_append, List.filter_eq_self.mpr, List.filter_eq_nil_iff.mpr, List.append_nil]
  · refine List.forall_mem_cons.mpr ⟨by simpa using hend, fun s hs => ?_⟩
    obtain ⟨hlo, hmid, -⟩ := hpost.bounds hs
    simpa using hend.trans_le (hlo.trans hmid)
  · intro s hs
    simpa using (hpre.bounds hs).2.2.trans hstart

/-- So is what started before it, where nothing before it has no length. -/
theorem filter_started (h : Tiles Segment.start Segment.end_ 0 (pre ++ active :: post) stop)
    (hlength : active.start < active.end_)
    (hclear : ∀ s ∈ pre, s.start = active.start → s.start < s.end_) :
    (pre ++ active :: post).filter (·.start < active.start) = pre := by
  obtain ⟨hpre, -, hpost⟩ := h.around
  rw [List.filter_append, List.filter_eq_self.mpr, List.filter_eq_nil_iff.mpr, List.append_nil]
  · refine List.forall_mem_cons.mpr ⟨by simp, fun s hs => ?_⟩
    simpa using hlength.le.trans (hpost.bounds hs).1
  · intro s hs
    obtain ⟨-, hmid, hhi⟩ := hpre.bounds hs
    rw [decide_eq_true_eq]
    refine lt_of_le_of_ne (hmid.trans hhi) fun heq => ?_
    exact absurd ((hclear s hs heq).trans_le hhi) (heq ▸ lt_irrefl _)

/-- The running segment is the one whose span holds the elapsed time. -/
theorem running_eq_some {between : Bool} (h : running segments elapsed between = some active) :
    active.start ≤ elapsed ∧ elapsed < active.end_ ∧ ∃ pre post, segments = pre ++ active :: post := by
  cases between with
  | true => cases h
  | false =>
    obtain ⟨hat, pre, post, heq, -⟩ := List.find?_eq_some_iff_append.mp h
    rw [decide_eq_true_eq] at hat
    exact ⟨hat.1, hat.2, pre, post, heq⟩

end Kept

/-- What `replan` keeps are the segments that began, in order and contiguous, the finished ones as
they are. The last of them is of the current stage. -/
structure Timed.Keeps (t : Timed) (between : Bool) (kept : List Segment) : Prop where
  tiles : ∃ stop, Tiles Segment.start Segment.end_ 0 kept stop
  finished : finished t <+: kept
  begun : ∃ begun rest, t.segments = begun ++ rest ∧
    kept.map Segment.key = begun.map Segment.key ∧
    t.current between = begun.getLast?.map (·.activity.stage)

/-- A clear replan keeps what ran. -/
theorem keeps {t : Timed} {plan : Plan} {between : Bool} (hcont : Contiguous t.segments)
    (hclear : t.Clear (.replan plan between)) :
    t.Keeps between (kept t.segments t.elapsed plan between) := by
  obtain ⟨stop, htiles⟩ := hcont
  match hrunning : running t.segments t.elapsed between with
  | none =>
    obtain ⟨rest, hrest⟩ := htiles.filter_prefix t.elapsed
    simp only [kept, hrunning]
    refine ⟨?_, List.prefix_rfl, _, rest, hrest.symm, rfl, ?_⟩
    · rw [← hrest] at htiles
      obtain ⟨b, hkept, -⟩ := Tiling.tiles_append.mp htiles
      exact ⟨b, hkept⟩
    · simp only [Timed.current, hrunning]
  | some active =>
    obtain ⟨hstart, hend, pre, post, heq⟩ := running_eq_some hrunning
    have hbefore : ∀ s ∈ pre, s.start = active.start → s.start < s.end_ := fun s hs =>
      hclear active hrunning s (heq ▸ List.mem_append_left _ hs)
    rw [heq] at htiles
    have hkept : kept t.segments t.elapsed plan between = pre ++
        [{ active with end_ := max t.elapsed (active.start + plan.duration.of active.phase) }] := by
      simp only [kept, hrunning]
      rw [heq, filter_started htiles (hstart.trans_lt hend) hbefore]
    have hfinished : finished t = pre := by
      rw [finished, heq, filter_finished htiles hstart hend]
    rw [hkept]
    refine ⟨⟨_, htiles.around.1.snoc rfl (hstart.trans (le_max_left _ _))⟩, ?_, pre ++ [active], post,
      ?_, ?_, ?_⟩
    · rw [hfinished]
      exact List.prefix_append _ _
    · rw [heq, List.append_assoc, List.singleton_append]
    · rw [List.map_append, List.map_append]
      rfl
    · simp only [Timed.current, hrunning, List.getLast?_concat, Option.map_some]

/-- A stage is changeable until the current one is as late. -/
theorem changeable_some {current stage : Stage} :
    changeable (some current) stage = true ↔ index current < index stage := by
  rw [changeable, decide_eq_true_eq]
  exact Int.ofNat_lt

/-- What began ranks no higher than the last of it. -/
theorem rank_le_current {begun : List Segment} {current : Stage}
    (h : Ordered (begun.map Segment.key))
    (hcurrent : begun.getLast?.map (·.activity.stage) = some current) {k : Key}
    (hk : k ∈ begun.map Segment.key) : rank k ≤ 2 * index current + 1 := by
  rcases List.eq_nil_or_concat begun with rfl | ⟨begun, last, rfl⟩
  · cases hk
  rw [List.concat_eq_append] at *
  rw [List.getLast?_concat, Option.map_some, Option.some.injEq] at hcurrent
  have hlast : rank last.key ≤ 2 * index current + 1 := hcurrent ▸ (rank_bounds last.key).2
  rw [List.map_append] at hk h
  rcases List.mem_append.mp hk with hk | hk
  · have hlt := (List.pairwise_append.mp h.ranks).2.2 k hk last.key List.mem_cons_self
    exact hlt.le.trans hlast
  · rw [List.mem_singleton.mp hk]
    exact hlast

/-- Every stage of the new plan has its window among the kept segments or room for it: one that may
still change comes after them, and of the others the old plan had a window. -/
theorem Timed.Keeps.ready {t : Timed} {between : Bool} {kept : List Segment}
    (hkeeps : t.Keeps between kept) (h : t.Sound) {stage : Stage}
    (hold : changeable (t.current between) stage = false → planned t.plan stage) :
    Ready kept stage := by
  obtain ⟨begun, rest, heq, hkeys, hcurrent⟩ := hkeeps.begun
  have hordered := h.ordered
  rw [heq, List.map_append] at hordered
  have hbegun : Ordered (begun.map Segment.key) := hordered.sublist (List.sublist_append_left _ _)
  have hmem : ∀ s ∈ kept, s.key ∈ begun.map Segment.key := fun s hs =>
    hkeys ▸ List.mem_map_of_mem hs
  by_cases hchange : changeable (t.current between) stage = true
  · refine .inr fun s hs => ?_
    match hstage : begun.getLast?.map (·.activity.stage) with
    | none =>
      rw [Option.map_eq_none_iff, List.getLast?_eq_none_iff] at hstage
      rw [hstage] at hmem
      cases hmem s hs
    | some current =>
      rw [hcurrent, hstage, changeable_some] at hchange
      have hle := rank_le_current hbegun hstage (hmem s hs)
      omega
  · rw [Bool.not_eq_true] at hchange
    obtain ⟨k, hk, hwindow⟩ := h.covers stage (hold hchange)
    rw [heq, List.map_append] at hk
    rcases List.mem_append.mp hk with hk' | hk'
    · rw [← hkeys] at hk'
      obtain ⟨s, hs, rfl⟩ := List.mem_map.mp hk'
      exact .inl ⟨s, hs, hwindow⟩
    · refine .inr fun s hs => ?_
      have hlt := (List.pairwise_append.mp hordered.ranks).2.2 s.key (hmem s hs) k hk'
      rw [hordered.rank_of_window hk hwindow] at hlt
      exact Nat.le_of_lt_succ hlt

/-- What a replan keeps is a draft to lay the rest on. -/
theorem Timed.Keeps.laid {t : Timed} {between : Bool} {kept : List Segment}
    (hkeeps : t.Keeps between kept) (h : t.Sound) :
    Laid ⟨kept, (kept.getLast?.map (·.end_)).getD 0⟩ := by
  obtain ⟨stop, htiles⟩ := hkeeps.tiles
  obtain ⟨begun, rest, heq, hkeys, -⟩ := hkeeps.begun
  refine ⟨htiles.end_eq.symm ▸ htiles, ?_⟩
  have hordered := h.ordered
  rw [heq, List.map_append] at hordered
  exact hkeys ▸ hordered.sublist (List.sublist_append_left _ _)

/-- **A clear replan** keeps the schedule sound, and what finished. -/
theorem replan_sound {t : Timed} {plan : Plan} {between : Bool} (h : t.Sound)
    (hallowed : t.Allowed (.replan plan between)) (hclear : t.Clear (.replan plan between)) :
    (t.call (.replan plan between)).Sound ∧
      finished t <+: (t.call (.replan plan between)).segments := by
  have hkeeps := @keeps t plan between h.contiguous hclear
  have hready : ∀ next ∈ activities plan,
      Ready (kept t.segments t.elapsed plan between) next.stage := by
    intro next hnext
    refine hkeeps.ready h fun hchange => ?_
    rw [← hallowed next.stage (mem_stages _) hchange]
    exact planned_of_mem hnext
  obtain ⟨hlaid, hkept, hwindows⟩ := foldl_follows (f := follow plan) Ready.append
    (fun d next _ => follow_follows) (activities_sorted plan) (hkeeps.laid h) hready
  exact ⟨⟨⟨_, hlaid.tiles⟩, hlaid.ordered, covers_of_activities hwindows⟩,
    hkeeps.finished.trans hkept⟩

section Truncate

variable {pre post : List Segment} {active : Segment} {stop elapsed : Double}

/-- A cut is within its segment. -/
theorem boundary_bounds (elapsed : Double) (h : active.start ≤ active.end_) :
    active.start ≤ active.boundary elapsed ∧ active.boundary elapsed ≤ active.end_ :=
  ⟨le_min h (le_max_left _ _), min_le_left _ _⟩

@[simp] theorem moveBack_zero (s : Segment) : s.moveBack 0 = s := by
  simp [Segment.moveBack]

/-- Only what follows the segment moves: a segment before it starts no earlier than it ends only if
both have no length, and then nothing is removed. -/
theorem truncate_eq (h : Tiles Segment.start Segment.end_ 0 (pre ++ active :: post) stop)
    (i : Fin (pre ++ active :: post).length) (hi : i = pre.length) :
    truncate (pre ++ active :: post) i elapsed =
      pre ++ { active with end_ := active.boundary elapsed } ::
        post.map (Segment.moveBack (active.end_ - active.boundary elapsed)) := by
  obtain ⟨hpre, hlength, hpost⟩ := h.around
  have hactive : (pre ++ active :: post)[i] = active := by
    simp only [Fin.getElem_fin, hi]
    simp
  rw [truncate, hactive]
  simp only [List.mapIdx_append, List.mapIdx_cons, Nat.zero_add, hi, if_true]
  congr 1
  · refine List.ext_getElem (List.length_mapIdx) fun j hj hj' => ?_
    rw [List.getElem_mapIdx, if_neg hj'.ne]
    split
    case isTrue hstart =>
      obtain ⟨-, hmid, hhi⟩ := hpre.bounds (List.getElem_mem hj')
      have hall : active.boundary elapsed = active.end_ :=
        le_antisymm (boundary_bounds elapsed hlength).2
          (hstart.trans (hmid.trans (hhi.trans (boundary_bounds elapsed hlength).1)))
      have hmove : ∀ s : Segment, s.moveBack (active.end_ - active.boundary elapsed) = s := by
        intro s
        rw [hall, Double.sub_self, moveBack_zero]
      exact hmove _
    case isFalse => rfl
  · congr 1
    refine List.ext_getElem (by simp) fun j hj hj' => ?_
    rw [List.length_mapIdx] at hj
    rw [List.getElem_mapIdx, List.getElem_map, if_neg (by omega),
      if_pos (hpost.bounds (List.getElem_mem hj)).1]

/-- The tail follows the cut where the time removed is a double. -/
theorem truncate_tiles (h : Tiles Segment.start Segment.end_ 0 (pre ++ active :: post) stop)
    (hexact : post ≠ [] → Double.Exact active.end_ (active.boundary elapsed)) :
    ∃ stop', Tiles Segment.start Segment.end_ 0
      (pre ++ { active with end_ := active.boundary elapsed } ::
        post.map (Segment.moveBack (active.end_ - active.boundary elapsed))) stop' := by
  obtain ⟨hpre, hlength, hpost⟩ := h.around
  obtain ⟨hlo, hhi⟩ := boundary_bounds elapsed hlength
  match post, hpost with
  | [], _ => exact ⟨_, hpre.append ⟨rfl, hlo, rfl⟩⟩
  | s :: post, hpost =>
    have htail := hpost.move (f := Segment.moveBack (active.end_ - active.boundary elapsed))
      (fun _ _ hle => Double.sub_le_sub_right hle _) (fun _ => rfl) fun _ => rfl
    rw [(Double.sub_sub_cancel_iff (hpre.le.trans hlo) hhi).mpr (hexact (List.cons_ne_nil _ _))] at htail
    exact ⟨_, hpre.append ⟨rfl, hlo, htail⟩⟩

/-- Only there: otherwise a gap or an overlap of a rounding follows the cut. -/
theorem exact_of_tiles (h : Tiles Segment.start Segment.end_ 0 (pre ++ active :: post) stop)
    {stop' : Double} (hcut : Tiles Segment.start Segment.end_ 0
      (pre ++ { active with end_ := active.boundary elapsed } ::
        post.map (Segment.moveBack (active.end_ - active.boundary elapsed))) stop')
    (hpost : post ≠ []) : Double.Exact active.end_ (active.boundary elapsed) := by
  obtain ⟨hpre, hlength, htail⟩ := h.around
  obtain ⟨hlo, hhi⟩ := boundary_bounds elapsed hlength
  obtain ⟨s, post, rfl⟩ := List.exists_cons_of_ne_nil hpost
  obtain ⟨hstart, -⟩ := htail
  obtain ⟨hmoved, -⟩ := hcut.around.2.2
  rw [Segment.moveBack, hstart] at hmoved
  exact (Double.sub_sub_cancel_iff (hpre.le.trans hlo) hhi).mp hmoved

/-- A cut changes no phase or activity. -/
theorem truncate_keys (pre post : List Segment) (active : Segment) (elapsed : Double) :
    (pre ++ { active with end_ := active.boundary elapsed } ::
      post.map (Segment.moveBack (active.end_ - active.boundary elapsed))).map Segment.key =
        (pre ++ active :: post).map Segment.key := by
  rw [List.map_append, List.map_append, List.map_cons, List.map_cons, List.map_map]
  rfl

/-- A segment that ended keeps its end, and only what follows the cut one moves. -/
theorem truncate_finished (h : Tiles Segment.start Segment.end_ 0 (pre ++ active :: post) stop) :
    ((pre ++ active :: post).filter (·.end_ ≤ elapsed)) <+:
      pre ++ { active with end_ := active.boundary elapsed } ::
        post.map (Segment.moveBack (active.end_ - active.boundary elapsed)) := by
  obtain ⟨hpre, hlength, hpost⟩ := h.around
  by_cases hend : active.end_ ≤ elapsed
  · have hall : active.boundary elapsed = active.end_ :=
      min_eq_left (hend.trans (le_max_right _ _))
    rw [hall, Double.sub_self, funext moveBack_zero, List.map_id']
    exact h.filter_prefix elapsed
  · have hlater : ∀ s ∈ active :: post, ¬ (decide (s.end_ ≤ elapsed)) = true := by
      refine List.forall_mem_cons.mpr ⟨by simpa using hend, fun s hs => ?_⟩
      obtain ⟨hlo, hmid, -⟩ := hpost.bounds hs
      simpa using (not_le.mp hend).trans_le (hlo.trans hmid)
    rw [List.filter_append, List.filter_eq_nil_iff.mpr hlater, List.append_nil]
    exact (hpre.filter_prefix elapsed).trans (List.prefix_append _ _)

end Truncate

section Cut

variable {t : Timed} {pre post : List Segment} {active : Segment}

/-- A cut is clear exactly where the tail can be moved back by the removed time. -/
theorem clear_truncate_iff (h : t.segments = pre ++ active :: post) :
    t.Clear (.truncate pre.length) ↔
      (post ≠ [] → Double.Exact active.end_ (active.boundary t.elapsed)) := by
  have hat : t.segments[pre.length]? = some active := by simp [h]
  have hlast : pre.length + 1 < t.segments.length ↔ post ≠ [] := by
    rw [h, List.length_append, List.length_cons, ← List.length_pos_iff_ne_nil]
    omega
  rw [Timed.Clear, hat]
  simp only [Option.mem_def, Option.some.injEq, forall_eq', hlast]

/-- A cut ends the segment at its boundary and moves the rest back. -/
theorem call_truncate (h : Contiguous t.segments) (heq : t.segments = pre ++ active :: post) :
    (t.call (.truncate pre.length)).segments =
      pre ++ { active with end_ := active.boundary t.elapsed } ::
        post.map (Segment.moveBack (active.end_ - active.boundary t.elapsed)) := by
  obtain ⟨plan, segments, elapsed⟩ := t
  obtain rfl : segments = pre ++ active :: post := heq
  obtain ⟨stop, htiles⟩ := h
  rw [Timed.call, dif_pos (by simp)]
  exact truncate_eq htiles _ rfl

end Cut

/-- **A clear cut** keeps the schedule sound, and what finished. -/
theorem truncate_sound {t : Timed} (h : t.Sound) {i : ℕ} (hclear : t.Clear (.truncate i)) :
    (t.call (.truncate i)).Sound ∧ finished t <+: (t.call (.truncate i)).segments := by
  by_cases hi : i < t.segments.length
  · obtain ⟨pre, active, post, heq, rfl⟩ : ∃ pre active post,
        t.segments = pre ++ active :: post ∧ pre.length = i :=
      ⟨t.segments.take i, t.segments[i], t.segments.drop (i + 1), by simp, by simp [hi.le]⟩
    have hcall := call_truncate h.contiguous heq
    have hplan : (t.call (.truncate pre.length)).plan = t.plan := by
      rw [Timed.call, dif_pos hi]
    obtain ⟨⟨stop, htiles⟩, hordered, hcovers⟩ := h
    have hkeys := truncate_keys pre post active t.elapsed
    rw [heq] at htiles hordered hcovers
    rw [finished, heq]
    refine ⟨⟨?_, ?_, ?_⟩, ?_⟩
    · rw [hcall]
      exact truncate_tiles htiles ((clear_truncate_iff heq).mp hclear)
    · rw [hcall, hkeys]
      exact hordered
    · rw [hcall, hkeys, hplan]
      exact hcovers
    · rw [hcall]
      exact truncate_finished htiles
  · rw [Timed.call, dif_neg hi]
    obtain ⟨stop, htiles⟩ := h.contiguous
    exact ⟨h, htiles.filter_prefix t.elapsed⟩

/-- A cut that leaves the segments contiguous is of a time that is a double. -/
theorem clear_of_contiguous {t : Timed} (h : Contiguous t.segments) {i : ℕ}
    (hcut : Contiguous (t.call (.truncate i)).segments) : t.Clear (.truncate i) := by
  intro active hactive hlast
  have hi : i < t.segments.length := by omega
  obtain ⟨pre, post, heq, rfl⟩ : ∃ pre post, t.segments = pre ++ active :: post ∧ pre.length = i := by
    obtain ⟨-, rfl⟩ := List.getElem?_eq_some_iff.mp (Option.mem_def.mp hactive)
    exact ⟨t.segments.take i, t.segments.drop (i + 1), by simp, by simp [hi.le]⟩
  obtain ⟨stop', hcut⟩ := hcut
  rw [call_truncate h heq] at hcut
  obtain ⟨stop, htiles⟩ := h
  rw [heq] at htiles
  refine exact_of_tiles htiles hcut fun hpost => ?_
  rw [heq, hpost, List.length_append, List.length_singleton] at hlast
  exact lt_irrefl _ hlast

/-! ## Runs of calls -/

def Timed.Fit (t : Timed) (call : Call) : Prop := t.Allowed call ∧ t.Clear call

instance (t : Timed) (call : Call) : Decidable (t.Fit call) :=
  inferInstanceAs (Decidable (_ ∧ _))

/-- **One call** that is fit keeps the schedule sound, and what finished. -/
theorem call_sound {t : Timed} (h : t.Sound) {call : Call} (hfit : t.Fit call) :
    (t.call call).Sound ∧ finished t <+: finished (t.call call) := by
  have hstep : (t.call call).Sound ∧ finished t <+: (t.call call).segments := by
    cases call with
    | pass elapsed =>
      obtain ⟨stop, htiles⟩ := h.contiguous
      exact ⟨⟨h.contiguous, h.ordered, h.covers⟩, htiles.filter_prefix t.elapsed⟩
    | replan plan between => exact replan_sound h hfit.1 hfit.2
    | truncate i => exact truncate_sound h hfit.2
  have helapsed : t.elapsed ≤ (t.call call).elapsed := by
    cases call with
    | pass elapsed => exact le_max_left _ _
    | replan plan between => exact le_rfl
    | truncate i =>
      rw [Timed.call]
      split <;> exact le_rfl
  have hself : finished t = (finished t).filter (·.end_ ≤ (t.call call).elapsed) := by
    refine (List.filter_eq_self.mpr fun s hs => ?_).symm
    rw [finished, List.mem_filter, decide_eq_true_eq] at hs
    simpa using hs.2.trans helapsed
  rw [hself]
  exact ⟨hstep.1, hstep.2.filter _⟩

/-- So does a run of fit calls. -/
theorem run_sound {t : Timed} (h : t.Sound) {calls : List Call}
    (hfit : Machine.Along Timed.Fit Timed.call t calls) :
    (calls.foldl Timed.call t).Sound ∧ finished t <+: finished (calls.foldl Timed.call t) :=
  hfit.keeps (fun t' => t'.Sound ∧ finished t <+: finished t')
    (fun _ _ hinv hcall => ⟨(call_sound hinv.1 hcall).1, hinv.2.trans (call_sound hinv.1 hcall).2⟩)
    ⟨h, List.prefix_rfl⟩

/-- What a run whose timeline was `t` has of it at `t'`. -/
def Whole (t t' : Timed) : Prop :=
  Contiguous t'.segments ∧ finished t <+: t'.segments ∧
    ∀ stage, t'.segments.countP (·.phase = .window stage) ≤ 1 ∧ Paired t'.segments stage

/-- After a fit run the schedule is whole. -/
theorem run_whole {t : Timed} (h : t.Sound) {calls : List Call}
    (hfit : Machine.Along Timed.Fit Timed.call t calls) : Whole t (calls.foldl Timed.call t) := by
  obtain ⟨hsound, hkept⟩ := run_sound h hfit
  obtain ⟨stop, htiles⟩ := hsound.contiguous
  exact ⟨hsound.contiguous, hkept.trans (htiles.filter_prefix _),
    fun stage => ⟨windows_le_one hsound.ordered stage, paired hsound.ordered stage⟩⟩

/-! ## Where they break -/

/-- `follow` only adds to the end. -/
theorem prefix_follow (plan : Plan) (d : Draft) (next : Activity) :
    d.segments <+: (follow plan d next).segments := by
  unfold follow
  split
  · exact List.prefix_rfl
  · refine List.IsPrefix.trans ?_ (List.prefix_append _ _)
    split
    · exact List.prefix_append _ _
    · exact List.prefix_rfl

/-- So does following one activity after another. -/
theorem prefix_foldl (plan : Plan) (rest : List Activity) (d : Draft) :
    d.segments <+: (rest.foldl (follow plan) d).segments := by
  induction rest generalizing d with
  | nil => exact List.prefix_rfl
  | cons next rest ih => exact (prefix_follow plan d next).trans (ih _)

/-- Where a segment without length starts with the running one, the edit drops it, and the running one
takes the place of one that ended. -/
theorem clear_of_finished {t : Timed} (h : t.Sound) {plan : Plan} {between : Bool}
    (hkept : finished t <+: (t.call (.replan plan between)).segments) :
    t.Clear (.replan plan between) := by
  intro active hactive s hs hstart
  by_contra hlength
  obtain ⟨hbegan, hruns, pre, post, heq⟩ := running_eq_some hactive
  obtain ⟨stop, htiles⟩ := h.contiguous
  have hordered := h.ordered
  rw [heq] at htiles hordered
  have hfinished : finished t = pre := by
    rw [finished, heq]
    exact filter_finished htiles hbegan hruns
  have hended : s ∈ pre := by
    rw [← hfinished, finished, List.mem_filter, decide_eq_true_eq]
    exact ⟨hs, (not_lt.mp hlength).trans (hstart.le.trans hbegan)⟩
  -- fewer segments started before the running one than ended
  have hstarted : (t.segments.filter (·.start < active.start)).length < pre.length := by
    obtain ⟨-, -, hpost⟩ := htiles.around
    have hnil : (active :: post).filter (·.start < active.start) = [] := by
      refine List.filter_eq_nil_iff.mpr (List.forall_mem_cons.mpr ⟨by simp, fun s hs => ?_⟩)
      simpa using (hbegan.trans hruns.le).trans (hpost.bounds hs).1
    rw [heq, List.filter_append, hnil, List.append_nil]
    refine List.length_filter_lt_length_iff_exists.mpr ⟨s, hended, ?_⟩
    rw [hstart, decide_eq_true_eq]
    exact lt_irrefl _
  have hlaid : kept t.segments t.elapsed plan between <+: (t.call (.replan plan between)).segments :=
    prefix_foldl plan (activities plan) ⟨_, _⟩
  simp only [kept, Option.mem_def.mp hactive] at hlaid
  have hprefix := List.prefix_of_prefix_length_le hlaid (hfinished ▸ hkept) (by
    rw [List.length_append, List.length_singleton]
    exact hstarted)
  have hmem := hprefix.subset (List.mem_append_right _ List.mem_cons_self)
  exact lt_irrefl _ ((List.pairwise_append.mp (List.pairwise_map.mp hordered.ranks)).2.2 _ hmem active
    List.mem_cons_self)

/-- **Only clear runs stay whole**: an edit that is not clear leaves a schedule that is not. -/
theorem clear_of_whole {t : Timed} (h : t.Sound) {calls : List Call}
    (hallowed : Machine.Along Timed.Allowed Timed.call t calls)
    (hwhole : ∀ before later rest, calls = before ++ (later ++ rest) →
      Whole (before.foldl Timed.call t) (later.foldl Timed.call (before.foldl Timed.call t))) :
    Machine.Along Timed.Clear Timed.call t calls := by
  induction calls generalizing t with
  | nil => trivial
  | cons c calls ih =>
    have hfirst := hwhole [] [c] calls rfl
    have hclear : t.Clear c := by
      cases c with
      | pass elapsed => trivial
      | replan plan between => exact clear_of_finished h hfirst.2.1
      | truncate i => exact clear_of_contiguous h.contiguous hfirst.1
    exact ⟨hclear, ih (call_sound h ⟨hallowed.1, hclear⟩).1 hallowed.2 fun before later rest heq =>
      hwhole (c :: before) later rest (congrArg (c :: ·) heq)⟩

/-- **Edits keep the timeline whole, but for segments without length and rounded cuts.** In every run in
which only later stages are turned on or off, the segments stay contiguous from 0, those that ended stay
the first of every later timeline, and each stage has its window at most once and directly after its own
warmup, if and only if no timeline is replanned with a segment without length where the running one
starts, and none is cut before other segments by a time that is no double. -/
theorem edits_whole_iff (plan : Plan) (calls : List Call)
    (hallowed : Machine.Along Timed.Allowed Timed.call (.new plan) calls) :
    (∀ before later rest, calls = before ++ (later ++ rest) →
      Whole (before.foldl Timed.call (.new plan))
        (later.foldl Timed.call (before.foldl Timed.call (.new plan)))) ↔
      Machine.Along Timed.Clear Timed.call (.new plan) calls := by
  constructor
  · intro hwhole
    exact clear_of_whole (new_sound plan) hallowed hwhole
  · rintro hclear before later rest rfl
    have hfit : Machine.Along Timed.Fit Timed.call (.new plan) (before ++ (later ++ rest)) :=
      Machine.along_and.mpr ⟨hallowed, hclear⟩
    obtain ⟨hbefore, hafter⟩ := Machine.along_append.mp hfit
    obtain ⟨hsound, -⟩ := run_sound (new_sound plan) hbefore
    exact run_whole hsound (Machine.along_append.mp hafter).1

/-- Two seconds of latency and the given stages of four seconds, each after half a second. -/
def planOf (transfer : List Stage) : Plan where
  stages stage := stage = .latency || transfer.contains stage
  duration := ⟨wholeMs 500, fun stage => if stage = .latency then wholeMs 2000 else wholeMs 4000⟩
  skipLoadedLatencyWhenStageOff := false

/-- Latency finishes early, and before the next stage begins the upload is turned on. -/
def early : List Call :=
  [.pass (.near 1500.25), .truncate 1, .replan (planOf [.download, .upload]) true, .pass (.near 1800)]

/-- A stage that ends early by exact times leaves the schedule whole. -/
theorem edits_whole_early :
    Whole (.new (planOf [.download])) (early.foldl Timed.call (.new (planOf [.download]))) :=
  (edits_whole_iff (planOf [.download]) early (by decide +kernel)).mpr (by decide +kernel) [] early []
    (by rfl)

/-- The latency window ends as it starts, and the same plan is laid again before the next tick. -/
def cutAtStart : List Call := [.pass (.near 500), .truncate 1, .replan (planOf [.download]) false]

/-- The latency window ends early, at a time whose distance from its end is no double. -/
def cutEarly : List Call := [.pass (.near 733.4), .truncate 1]

/-- The window that ended is dropped and laid anew between the warmup of the download and its window.
After the other cut nothing runs: the next warmup starts a rounding later. -/
theorem edits_drop :
    (Machine.Along Timed.Allowed Timed.call (.new (planOf [.download])) cutAtStart ∧
      ¬ finished ((cutAtStart.take 2).foldl Timed.call (.new (planOf [.download]))) <+:
        (cutAtStart.foldl Timed.call (.new (planOf [.download]))).segments ∧
      ¬ Paired (cutAtStart.foldl Timed.call (.new (planOf [.download]))).segments .latency) ∧
    Machine.Along Timed.Allowed Timed.call (.new (planOf [.download])) cutEarly ∧
      ¬ Contiguous (cutEarly.foldl Timed.call (.new (planOf [.download]))).segments ∧
      segmentAt (cutEarly.foldl Timed.call (.new (planOf [.download]))).segments (.near 733.4)
        = none := by
  refine ⟨⟨by decide +kernel, by decide +kernel, fun hpaired => ?_⟩, by decide +kernel, ?_,
    by decide +kernel⟩
  · obtain ⟨last, hlast, -, hstage⟩ := hpaired
      [⟨.warmup, .near 0, .near 500, ⟨.latency, [], false⟩⟩,
        ⟨.warmup, .near 500, .near 1000, ⟨.download, [.down], true⟩⟩]
      ⟨.window .latency, .near 1000, .near 3000, ⟨.latency, [], false⟩⟩
      [⟨.window .download, .near 3000, .near 7000, ⟨.download, [.down], true⟩⟩] (by decide +kernel) rfl
      ⟨⟨.warmup, .near 0, .near 500, ⟨.latency, [], false⟩⟩, by decide +kernel, rfl, rfl⟩
    cases hlast
    cases hstage
  · rintro ⟨stop, htiles⟩
    have hsegments : (cutEarly.foldl Timed.call (.new (planOf [.download]))).segments =
        [⟨.warmup, .near 0, .near 500, ⟨.latency, [], false⟩⟩,
          ⟨.window .latency, .near 500, .near 733.4, ⟨.latency, [], false⟩⟩,
          ⟨.warmup, .near 733.4000000000001, .near 1233.4, ⟨.download, [.down], true⟩⟩,
          ⟨.window .download, .near 1233.4, .near 5233.4, ⟨.download, [.down], true⟩⟩] := by
      decide +kernel
    rw [hsegments] at htiles
    exact absurd htiles.2.2.2.2.1 (by decide +kernel)

end GraphiteMeter.Browser.Schedule
