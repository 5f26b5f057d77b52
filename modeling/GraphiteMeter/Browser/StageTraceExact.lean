import GraphiteMeter.Browser.StageTrace
import GraphiteMeter.Measure.Browser.Window

/-!
# A trace shows the samples that stand

A trace of constant size agrees with the samples of its stage that stand, in any order within a second
(`Traced`). Folding never reaches the newest time, where replacing happens (`Newest`), so the folded
series finds the sample to replace exactly where an unfolded one would.
-/

namespace GraphiteMeter.Browser.Series

open GraphiteMeter.Measure (Stage Direction Dir)

/-! ## Rates of a second -/

section Second

variable {l l' : List Live} {first : ℚ} {k : ℤ}

/-- A mean does not depend on the order. -/
theorem meanRate_perm (h : l.Perm l') : meanRate l = meanRate l' := by
  have hnil : l = [] ↔ l' = [] := by
    rw [← List.length_eq_zero_iff, h.length_eq, List.length_eq_zero_iff]
  simp only [meanRate, hnil, (h.map _).sum_eq, h.length_eq]

/-- Nor does a second's rate. -/
theorem secondRate_perm (h : l.Perm l') : secondRate l = secondRate l' := by
  rw [secondRate, secondRate, meanRate_perm (h.filter _), meanRate_perm (h.filter _)]

/-- A second's samples are the same in any order. -/
theorem inSecond_perm (h : l.Perm l') : (inSecond first l k).Perm (inSecond first l' k) := h.filter _

/-- A sample of another second is not among them. -/
theorem inSecond_cons_of_ne {x : Live} (h : StageTrace.secondOf first x.t ≠ k) :
    inSecond first (x :: l) k = inSecond first l k :=
  List.filter_cons_of_neg (by simpa using h)

/-- A sample of the second is. -/
theorem inSecond_cons_of_eq {x : Live} (h : StageTrace.secondOf first x.t = k) :
    inSecond first (x :: l) k = x :: inSecond first l k :=
  List.filter_cons_of_pos (by simpa using h)

/-- The lane that samples make. -/
def laneOf (l : List Live) : Lane := ⟨(l.map (·.bytesPerSec)).sum, l.length⟩

/-- A lane's sum and count do not depend on the order. -/
theorem laneOf_perm (h : l.Perm l') : laneOf l = laneOf l' := by
  rw [laneOf, laneOf, (h.map _).sum_eq, h.length_eq]

/-- A lane's mean is that of its samples. -/
theorem mean_laneOf (l : List Live) : StageTrace.Lane.mean (laneOf l) = meanRate l := by
  have hlength : (laneOf l).n = 0 ↔ l = [] := by
    rw [laneOf, Int.natCast_eq_zero, List.length_eq_zero_iff]
  rw [StageTrace.Lane.mean, meanRate]
  by_cases hl : l = []
  · rw [if_pos hl, if_neg (not_not.mpr (hlength.mpr hl))]
  · rw [if_neg hl, if_pos (mt hlength.mp hl), laneOf, Int.cast_natCast]

end Second

/-! ## A trace -/

/-- What a trace is of the samples of its stage. The seconds done have rates, before the open one. -/
structure Traced (l : List Live) (tr : StageTrace) : Prop where
  count : tr.count = l.length
  lanes : ∀ d, tr.lanes.get d = laneOf ((inSecond tr.first l tr.second).filter (·.dir = d))
  done : ∃ ks : List ℤ, ks.Pairwise (· < ·) ∧
    (∀ k, k ∈ ks ↔ k < tr.second ∧ ∃ x ∈ l, StageTrace.secondOf tr.first x.t = k) ∧
    tr.seconds = .of (ks.map fun k => secondRate (inSecond tr.first l k)) ∧
    tr.peak = (ks.map fun k => secondRate (inSecond tr.first l k)).foldl max 0
  late : ∀ x ∈ l, StageTrace.secondOf tr.first x.t ≤ tr.second

namespace Traced

variable {l l' : List Live} {tr : StageTrace} {live other : Live}

/-- A new trace has no samples. -/
theorem new (t : ℚ) : Traced [] (.new t) where
  count := rfl
  lanes d := by cases d <;> rfl
  done := ⟨[], .nil, by simp, rfl, rfl⟩
  late _ hx := absurd hx List.not_mem_nil

/-- A trace does not depend on the order of its samples. -/
theorem perm (h : Traced l tr) (hperm : l.Perm l') : Traced l' tr := by
  have hrate : (fun k => secondRate (inSecond tr.first l k))
      = fun k => secondRate (inSecond tr.first l' k) :=
    funext fun k => secondRate_perm (inSecond_perm hperm)
  obtain ⟨ks, horder, hmem, hseconds, hpeak⟩ := h.done
  rw [hrate] at hseconds hpeak
  refine ⟨h.count.trans hperm.length_eq, fun d => ?_, ⟨ks, horder, fun k => ?_, hseconds, hpeak⟩,
    fun x hx => h.late x (hperm.mem_iff.mpr hx)⟩
  · exact (h.lanes d).trans (laneOf_perm ((inSecond_perm hperm).filter _))
  · rw [hmem]
    simp only [hperm.mem_iff]

/-- The open second has no rate exactly if it has no sample. -/
theorem current_eq (h : Traced l tr) :
    tr.current = if inSecond tr.first l tr.second = [] then none
      else some (secondRate (inSecond tr.first l tr.second)) := by
  have hdown : tr.lanes.down = _ := h.lanes .down
  have hup : tr.lanes.up = _ := h.lanes .up
  have hnil : tr.lanes.down.n = 0 ∧ tr.lanes.up.n = 0 ↔ inSecond tr.first l tr.second = [] := by
    rw [hdown, hup, laneOf, laneOf, Int.natCast_eq_zero, Int.natCast_eq_zero, List.length_eq_zero_iff,
      List.length_eq_zero_iff, List.filter_eq_nil_iff, List.filter_eq_nil_iff, List.eq_nil_iff_forall_not_mem]
    constructor
    · rintro ⟨hdown, hup⟩ x hx
      cases hdir : x.dir with
      | down => exact hdown x hx (by simp [hdir])
      | up => exact hup x hx (by simp [hdir])
    · exact fun hnone => ⟨fun x hx => absurd hx (hnone x), fun x hx => absurd hx (hnone x)⟩
  rw [StageTrace.current]
  simp only [hnil]
  rw [hdown, hup, mean_laneOf, mean_laneOf, secondRate]

/-- The open second, where it has a sample. -/
def openSecond (tr : StageTrace) (l : List Live) : List ℤ :=
  if inSecond tr.first l tr.second = [] then [] else [tr.second]

/-- The open second is the newest, if it has samples. -/
theorem mem_openSecond {k : ℤ} : k ∈ openSecond tr l ↔
    k = tr.second ∧ ∃ x ∈ l, StageTrace.secondOf tr.first x.t = k := by
  have hnil : inSecond tr.first l tr.second = [] ↔
      ¬∃ x ∈ l, StageTrace.secondOf tr.first x.t = tr.second := by
    simp [inSecond, List.filter_eq_nil_iff]
  rw [openSecond]
  split_ifs with hopen
  · exact iff_of_false List.not_mem_nil fun ⟨hk, hx⟩ => hnil.mp hopen (hk ▸ hx)
  · rw [List.mem_singleton]
    exact ⟨fun hk => ⟨hk, hk ▸ not_not.mp (mt hnil.mpr hopen)⟩, And.left⟩

/-- Its rate is the trace's current one. -/
theorem rates_openSecond (h : Traced l tr) :
    (openSecond tr l).map (fun k => secondRate (inSecond tr.first l k)) = tr.current.toList := by
  rw [openSecond, h.current_eq]
  split_ifs <;> rfl

/-- The seconds done and the open one are all that have samples. -/
theorem secondsOf_eq (h : Traced l tr) {ks : List ℤ} (horder : ks.Pairwise (· < ·))
    (hmem : ∀ k, k ∈ ks ↔ k < tr.second ∧ ∃ x ∈ l, StageTrace.secondOf tr.first x.t = k) :
    (ks ++ openSecond tr l).Pairwise (· < ·) ∧
      ∀ k, k ∈ ks ++ openSecond tr l ↔ ∃ x ∈ l, StageTrace.secondOf tr.first x.t = k := by
  refine ⟨List.pairwise_append.mpr ⟨horder, ?_, fun k hk k' hk' => ?_⟩, fun k => ?_⟩
  · rw [openSecond]
    split_ifs
    · exact .nil
    · exact List.pairwise_singleton _ _
  · rw [(mem_openSecond.mp hk').1]
    exact ((hmem k).mp hk).1
  · rw [List.mem_append, hmem, mem_openSecond]
    constructor
    · exact fun hk => hk.elim And.right And.right
    · rintro ⟨x, hx, rfl⟩
      exact (h.late x hx).lt_or_eq.imp (fun hlt => ⟨hlt, x, hx, rfl⟩) fun heq => ⟨heq, x, hx, rfl⟩

/-- The rates of the seconds done, and then that of the open one. -/
theorem secondRates_eq (h : Traced l tr) {ks : List ℤ} (horder : ks.Pairwise (· < ·))
    (hmem : ∀ k, k ∈ ks ↔ k < tr.second ∧ ∃ x ∈ l, StageTrace.secondOf tr.first x.t = k) :
    secondRates tr.first l
      = (ks.map fun k => secondRate (inSecond tr.first l k)) ++ tr.current.toList := by
  obtain ⟨hpairwise, hseconds⟩ := h.secondsOf_eq horder hmem
  have hsort : secondsOf tr.first l = ks ++ openSecond tr l := by
    have hset : (l.map fun x => StageTrace.secondOf tr.first x.t).toFinset
        = (ks ++ openSecond tr l).toFinset := by
      ext k
      rw [List.mem_toFinset, List.mem_toFinset, hseconds, List.mem_map]
    rw [secondsOf, hset]
    exact (List.toFinset_sort (· ≤ ·) (hpairwise.imp ne_of_lt)).mpr (hpairwise.imp le_of_lt)
  rw [secondRates, hsort, List.map_append, h.rates_openSecond]

/-- A new second begins. -/
theorem begin_ (h : Traced l tr) {k : ℤ} (hk : tr.second < k) : Traced l (tr.begin_ k) := by
  obtain ⟨ks, horder, hmem, hseconds, hpeak⟩ := h.done
  obtain ⟨hpairwise, hall⟩ := h.secondsOf_eq horder hmem
  have hrates := h.rates_openSecond
  have hfirst : (tr.begin_ k).first = tr.first := by
    rw [StageTrace.begin_, StageTrace.counted]
    cases tr.current <;> rfl
  have hempty : inSecond tr.first l k = [] := by
    rw [inSecond, List.filter_eq_nil_iff]
    exact fun x hx hsecond => absurd (of_decide_eq_true hsecond) ((h.late x hx).trans_lt hk).ne
  refine ⟨?_, fun d => ?_, ⟨ks ++ openSecond tr l, hpairwise, fun k' => ?_, ?_, ?_⟩, fun x hx => ?_⟩
  · rw [StageTrace.begin_, StageTrace.counted]
    cases tr.current <;> exact h.count
  · rw [hfirst]
    change (Dir.mk (⟨0, 0⟩ : Lane) ⟨0, 0⟩).get d = _
    rw [show (tr.begin_ k).second = k from rfl, hempty]
    cases d <;> rfl
  · rw [hfirst, hall]
    refine ⟨fun hx => ⟨?_, hx⟩, And.right⟩
    obtain ⟨x, hx, rfl⟩ := hx
    exact (h.late x hx).trans_lt hk
  · rw [hfirst, List.map_append, hrates, Moments.of_append, ← hseconds, StageTrace.begin_, StageTrace.counted]
    cases tr.current <;> rfl
  · rw [hfirst, List.map_append, hrates, List.foldl_append, ← hpeak, StageTrace.begin_,
      StageTrace.counted]
    cases tr.current <;> rfl
  · rw [hfirst]
    exact ((h.late x hx).trans_lt hk).le

/-- Samples of the open second come and go without changing those done. -/
theorem done_cons {x : Live} (hsecond : StageTrace.secondOf tr.first x.t = tr.second)
    {ks : List ℤ} (hks : ∀ k ∈ ks, k < tr.second) :
    (ks.map fun k => secondRate (inSecond tr.first (x :: l) k))
      = ks.map fun k => secondRate (inSecond tr.first l k) :=
  List.map_congr_left fun k hk => by
    rw [inSecond_cons_of_ne fun heq => absurd (hks k hk) (heq.symm.trans hsecond).not_lt]

/-- A sample of the open second finishes none. -/
theorem mem_done_cons {x : Live} (hsecond : StageTrace.secondOf tr.first x.t = tr.second) (k : ℤ) :
    (k < tr.second ∧ ∃ y ∈ x :: l, StageTrace.secondOf tr.first y.t = k) ↔
      k < tr.second ∧ ∃ y ∈ l, StageTrace.secondOf tr.first y.t = k := by
  refine and_congr_right fun hk => ?_
  rw [List.exists_mem_cons_iff]
  exact or_iff_right fun heq => absurd hk (heq.symm.trans hsecond).not_lt

/-- A sample of the open second adds to its direction's lane. -/
theorem lanes_cons {x : Live} (hsecond : StageTrace.secondOf tr.first x.t = tr.second) (d : Direction) :
    laneOf ((inSecond tr.first (x :: l) tr.second).filter (·.dir = d)) =
      let lane := laneOf ((inSecond tr.first l tr.second).filter (·.dir = d))
      if x.dir = d then ⟨lane.sum + x.bytesPerSec, lane.n + 1⟩ else lane := by
  rw [inSecond_cons_of_eq hsecond, List.filter_cons]
  by_cases hdir : x.dir = d
  · simp only [hdir, decide_true, if_true, laneOf, List.map_cons, List.sum_cons, List.length_cons,
      Nat.cast_add, Nat.cast_one, add_comm]
  · simp only [hdir, decide_false, if_false, Bool.false_eq_true]

/-- The trace once its lanes count one sample more, of the open second. -/
theorem counted (h : Traced l tr) {t : StageTrace} (hsecond : StageTrace.secondOf tr.first live.t = tr.second)
    (hkept : t.first = tr.first ∧ t.second = tr.second ∧ t.seconds = tr.seconds ∧ t.peak = tr.peak)
    (hcount : t.count = l.length + 1)
    (hlanes : ∀ d, t.lanes.get d
      = laneOf ((inSecond tr.first (live :: l) tr.second).filter (·.dir = d))) :
    Traced (live :: l) t := by
  obtain ⟨hfirst, hopen, hsame, hhigh⟩ := hkept
  obtain ⟨ks, horder, hmem, hseconds, hpeak⟩ := h.done
  have hks : ∀ k ∈ ks, k < tr.second := fun k hk => ((hmem k).mp hk).1
  refine ⟨hcount, fun d => ?_, ⟨ks, horder, fun k => ?_, ?_, ?_⟩, ?_⟩ <;> rw [hfirst]
  · rw [hopen, hlanes]
  · rw [hopen]
    exact (hmem k).trans (mem_done_cons hsecond k).symm
  · rw [hsame, done_cons hsecond hks, hseconds]
  · rw [hhigh, done_cons hsecond hks, hpeak]
  · rw [hopen]
    exact List.forall_mem_cons.mpr ⟨hsecond.le, h.late⟩

/-- A sample of the open second is taken into it. -/
theorem take (h : Traced l tr) (hsecond : StageTrace.secondOf tr.first live.t = tr.second) :
    Traced (live :: l) (tr.take live.sample none) := by
  refine h.counted hsecond ⟨rfl, rfl, rfl, rfl⟩ (congrArg (· + 1) h.count) fun d => ?_
  rw [lanes_cons hsecond, ← h.lanes]
  by_cases hdir : live.dir = d
  · subst hdir
    rw [if_pos rfl]
    exact Dir.get_set_self _ _ _
  · rw [if_neg hdir]
    exact Dir.get_set_of_ne _ (Ne.symm hdir) _

/-- The trace without a sample of the open second. -/
def without (tr : StageTrace) (other : Live) : StageTrace :=
  let lane := tr.lanes.get other.dir
  { tr with
    count := tr.count - 1
    lanes := tr.lanes.set other.dir ⟨lane.sum - other.bytesPerSec, lane.n - 1⟩ }

/-- A sample of the open second is taken out again. -/
theorem drop (h : Traced (other :: l) tr) (hsecond : StageTrace.secondOf tr.first other.t = tr.second) :
    Traced l (without tr other) := by
  obtain ⟨ks, horder, hmem, hseconds, hpeak⟩ := h.done
  have hks : ∀ k ∈ ks, k < tr.second := fun k hk => ((hmem k).mp hk).1
  refine ⟨?_, fun d => ?_, ⟨ks, horder, fun k => ?_, ?_, ?_⟩, fun x hx => h.late x (by simp [hx])⟩
  · exact congrArg (· - 1) h.count
  · have hlane := lanes_cons (l := l) hsecond d
    rw [← h.lanes] at hlane
    by_cases hdir : other.dir = d
    · subst hdir
      rw [if_pos rfl] at hlane
      refine (Dir.get_set_self _ _ _).trans ?_
      rw [hlane, add_sub_cancel_right, add_sub_cancel_right]
      rfl
    · rw [if_neg hdir] at hlane
      exact (Dir.get_set_of_ne _ (Ne.symm hdir) _).trans hlane
  · exact (hmem k).trans (mem_done_cons hsecond k)
  · exact hseconds.trans (congrArg _ (done_cons hsecond hks))
  · exact hpeak.trans (congrArg _ (done_cons hsecond hks))

/-- To replace is to leave out and count anew. -/
theorem take_without (h : 0 < tr.count) (hdir : other.dir = live.dir) :
    tr.take live.sample (some other.sample) = (without tr other).take live.sample none := by
  have hcount : tr.count - 1 + 1 = tr.count := Nat.sub_add_cancel h
  simp only [StageTrace.take, without, hdir, Live.sample, Option.isSome_some, if_true,
    Option.isSome_none, Bool.false_eq_true, if_false, hcount]
  cases live.dir <;> rfl

/-- One place is one time, stage and direction. -/
theorem place_inj (hplace : other.place = live.place) :
    other.t = live.t ∧ other.stage = live.stage ∧ other.dir = live.dir :=
  ⟨congrArg Prod.fst hplace, congrArg (·.2.1) hplace, congrArg (·.2.2.1) hplace⟩

/-- A sample comes, and no other of its line stands at its time. -/
theorem add (h : Traced l tr) (hlate : tr.second ≤ StageTrace.secondOf tr.first live.t) :
    Traced (live :: l) (tr.add live.sample none) := by
  rw [StageTrace.add]
  split_ifs with hlt
  · refine (h.begin_ hlt).take ?_
    rw [StageTrace.begin_, StageTrace.counted]
    cases tr.current <;> rfl
  · exact h.take (le_antisymm (not_lt.mp hlt) hlate)

/-- A sample comes in the place of another. -/
theorem add_replaced (h : Traced (other :: l) tr) (hplace : other.place = live.place)
    (hlate : tr.second ≤ StageTrace.secondOf tr.first live.t) :
    Traced (live :: l) (tr.add live.sample (some other.sample)) := by
  obtain ⟨ht, -, hdir⟩ := place_inj hplace
  have hother := h.late other List.mem_cons_self
  have hsecond : StageTrace.secondOf tr.first live.t = tr.second := le_antisymm (ht ▸ hother) hlate
  have hcount : 0 < tr.count := h.count ▸ Nat.succ_pos _
  have hsame : ¬tr.second < StageTrace.secondOf tr.first live.sample.t := hsecond.not_gt
  rw [StageTrace.add, if_neg hsame, take_without hcount hdir]
  exact (h.drop ((congrArg _ ht).trans hsecond)).take hsecond

/-- Samples have seconds. -/
theorem secondRates_ne_nil (first : ℚ) (hne : l ≠ []) : secondRates first l ≠ [] := by
  obtain ⟨x, hx⟩ := List.exists_mem_of_ne_nil l hne
  have hmem : StageTrace.secondOf first x.t ∈ secondsOf first l :=
    (Finset.mem_sort _).mpr (List.mem_toFinset.mpr (List.mem_map_of_mem hx))
  rw [secondRates, ne_eq, List.map_eq_nil_iff]
  exact List.ne_nil_of_mem hmem

/-- The largest is no less than where it started. -/
theorem le_foldl_max (rates : List ℚ) (peak : ℚ) : peak ≤ rates.foldl max peak := by
  induction rates generalizing peak with
  | nil => exact le_rfl
  | cons rate rates ih => exact (le_max_left _ _).trans (ih _)

/-- **A trace shows the rates of the whole seconds.** -/
theorem shape_eq (h : Traced l tr) (hne : l ≠ []) :
    tr.shape = some (shapeOf (secondRates tr.first l)) := by
  obtain ⟨ks, horder, hmem, hseconds, hpeak⟩ := h.done
  have hrates := h.secondRates_eq horder hmem
  have hnil := secondRates_ne_nil tr.first hne
  generalize (ks.map fun k => secondRate (inSecond tr.first l k)) = rates at hseconds hpeak hrates
  generalize secondRates tr.first l = all at hrates hnil ⊢
  have hall : tr.counted.seconds = .of all := by
    rw [hrates, StageTrace.counted]
    cases tr.current with
    | none => rw [Option.toList_none, List.append_nil, hseconds]
    | some rate => rw [Option.toList_some, Moments.of_concat, hseconds]
  have hmax : max tr.peak (tr.current.getD 0) = all.foldl max 0 := by
    rw [hrates, List.foldl_append, ← hpeak]
    cases tr.current with
    | none => exact max_eq_left (hpeak ▸ le_foldl_max rates 0)
    | some rate => rfl
  have hlength : all.length ≠ 0 := mt List.length_eq_zero_iff.mp hnil
  simp only [StageTrace.shape, hall, hmax, Moments.count_of, if_neg hlength, shapeOf,
    Moments.squares_eq, Moments.mean_eq hnil]

end Traced

/-! ## The samples that stand -/

section Standing

variable {lives : List Live} {live other : Live}

/-- A sample replaces the one that stood at its place. -/
theorem standing_concat (lives : List Live) (live : Live) :
    standing (lives ++ [live]) = (standing lives).filter (fun x => x.place ≠ live.place) ++ [live] :=
  List.foldl_append

/-- What stands was recorded. -/
theorem standing_subset : standing lives ⊆ lives := by
  induction lives using List.reverseRecOn with
  | nil => exact List.Subset.refl _
  | append_singleton lives live ih =>
    rw [standing_concat]
    intro x hx
    rcases List.mem_append.mp hx with hx | hx
    · exact List.mem_append_left _ (ih (List.mem_of_mem_filter hx))
    · exact List.mem_append_right _ hx

/-- Something stands in every place. -/
theorem exists_standing (h : live ∈ lives) : ∃ x ∈ standing lives, x.place = live.place := by
  induction lives using List.reverseRecOn with
  | nil => cases h
  | append_singleton lives last ih =>
    rw [standing_concat]
    by_cases hplace : live.place = last.place
    · exact ⟨last, List.mem_append_right _ List.mem_cons_self, hplace.symm⟩
    · have hlive : live ∈ lives := (List.mem_append.mp h).resolve_right fun hlast =>
        hplace (congrArg Live.place (List.mem_singleton.mp hlast))
      obtain ⟨x, hx, heq⟩ := ih hlive
      refine ⟨x, List.mem_append_left _ (List.mem_filter.mpr ⟨hx, decide_eq_true ?_⟩), heq⟩
      rwa [heq]

/-- No place has two samples. -/
theorem standing_nodup (lives : List Live) : ((standing lives).map Live.place).Nodup := by
  induction lives using List.reverseRecOn with
  | nil => exact List.nodup_nil
  | append_singleton lives live ih =>
    rw [standing_concat, List.map_append, List.map_singleton, List.nodup_append_comm,
      List.singleton_append, List.nodup_cons]
    refine ⟨fun hmem => ?_, ih.sublist (List.filter_sublist.map _)⟩
    obtain ⟨x, hx, hplace⟩ := List.mem_map.mp hmem
    exact of_decide_eq_true (List.mem_filter.mp hx).2 hplace

/-- Of one place, one sample stands. -/
theorem perm_of_place {l : List Live} (hnodup : (l.map Live.place).Nodup) (hmem : other ∈ l)
    (hplace : other.place = live.place) :
    l.Perm (other :: l.filter fun x => x.place ≠ live.place) := by
  induction l with
  | nil => cases hmem
  | cons x l ih =>
    obtain ⟨hx, hnodup⟩ := List.nodup_cons.mp hnodup
    rcases List.mem_cons.mp hmem with rfl | hmem
    · have hrest : l.filter (fun x => x.place ≠ live.place) = l := by
        refine List.filter_eq_self.mpr fun y hy => decide_eq_true fun heq => hx ?_
        rw [hplace, ← heq]
        exact List.mem_map_of_mem hy
      rw [List.filter_cons_of_neg (by simp [hplace]), hrest]
    · have hne : x.place ≠ live.place := fun heq => hx (by
        rw [heq, ← hplace]
        exact List.mem_map_of_mem hmem)
      rw [List.filter_cons_of_pos (by simpa using hne)]
      exact ((ih hnodup hmem).cons x).trans (.swap _ _ _)

/-- Where none stands at the place, none is replaced. -/
theorem filter_place_eq_self {l : List Live} (h : ∀ x ∈ l, x.place ≠ live.place) :
    l.filter (fun x => x.place ≠ live.place) = l :=
  List.filter_eq_self.mpr fun x hx => decide_eq_true (h x hx)

end Standing

/-! ## The newest time -/

namespace ThroughputSeries

variable {items history : List ThroughputSample} {sample : ThroughputSample} {lives : List Live}
  {live : Live} {t : ℚ}

/-- Whether a sample is of another's line. -/
def ofLine (sample other : ThroughputSample) : Bool :=
  other.stage = sample.stage ∧ other.dir = sample.dir ∧ other.continuityId = sample.continuityId

/-- The search goes back one sample at a time, while the time is the same. -/
theorem sameLine_cons {n : ℕ} {other : ThroughputSample} (hother : history[n]? = some other) :
    sameLine history sample (n + 1) = if other.t = sample.t then
      if ofLine sample other then some n else sameLine history sample n else none := by
  rw [sameLine, hother]
  simp only [ofLine, decide_eq_true_eq]

/-- What it finds is a sample of the same time and line. -/
theorem sameLine_some {n i : ℕ} (h : sameLine history sample n = some i) :
    ∃ other, history[i]? = some other ∧ other.t = sample.t ∧ ofLine sample other = true := by
  induction n with
  | zero => cases h
  | succ n ih =>
    cases hother : history[n]? with
    | none =>
      rw [sameLine, hother] at h
      cases h
    | some other =>
      rw [sameLine_cons hother] at h
      split_ifs at h with ht hline
      · cases h
        exact ⟨other, hother, ht, hline⟩
      · exact ih h

/-- Where it finds none, no sample of that time is of the line. -/
theorem sameLine_none {n : ℕ} (hn : n ≤ history.length) (h : sameLine history sample n = none)
    {before tail : List ThroughputSample}
    (hsplit : history.take n = before ++ tail) (htail : ∀ x ∈ tail, x.t = sample.t) :
    ∀ x ∈ tail, ofLine sample x = false := by
  induction n generalizing tail with
  | zero =>
    rw [List.take_zero] at hsplit
    rw [(List.append_eq_nil_iff.mp hsplit.symm).2]
    exact List.forall_mem_nil _
  | succ n ih =>
    rcases List.eq_nil_or_concat tail with rfl | ⟨rest, y, rfl⟩
    · exact List.forall_mem_nil _
    rw [List.concat_eq_append] at hsplit htail ⊢
    have hother : history[n]? = some history[n] := List.getElem?_eq_getElem hn
    rw [List.take_add_one, hother, Option.toList_some, ← List.append_assoc] at hsplit
    obtain ⟨hrest, hlast⟩ := List.append_inj' hsplit rfl
    rw [List.cons.injEq] at hlast
    rw [sameLine_cons hother, if_pos (htail _ (by simp [hlast.1]))] at h
    split_ifs at h with hline
    intro x hx
    rcases List.mem_append.mp hx with hx | hx
    · exact ih (Nat.le_of_succ_le hn) h hrest (fun x hx => htail x (List.mem_append_left _ hx)) x hx
    · rw [List.mem_singleton.mp hx, ← hlast.1]
      exact eq_false_of_ne_true hline

/-- A sample is replaced only in the equal-time tail. -/
theorem insert_spec (history : List ThroughputSample) (sample : ThroughputSample) :
    (replaced history sample = none ∧ insert history sample = history ++ [sample] ∧
      ∀ before tail, history = before ++ tail → (∀ x ∈ tail, x.t = sample.t) →
        ∀ x ∈ tail, ofLine sample x = false) ∨
    ∃ before other after, history = before ++ other :: after ∧ other.t = sample.t ∧
      ofLine sample other = true ∧ replaced history sample = some other ∧
      insert history sample = before ++ sample :: after := by
  cases hsame : sameLine history sample history.length with
  | none =>
    refine .inl ⟨by rw [replaced, hsame, Option.bind_none], by rw [insert, hsame], ?_⟩
    exact fun before tail hsplit htail =>
      sameLine_none le_rfl hsame (List.take_length.trans hsplit) htail
  | some i =>
    obtain ⟨other, hother, ht, hline⟩ := sameLine_some hsame
    obtain ⟨hlt, rfl⟩ := List.getElem?_eq_some_iff.mp hother
    obtain ⟨before, after, hhistory, -, hset⟩ := @List.exists_of_set _ i sample _ hlt
    refine .inr ⟨before, _, after, hhistory, ht, hline, ?_, ?_⟩
    · rw [replaced, hsame, Option.bind_some, hother]
    · rw [insert, hsame]
      exact hset

/-- The items that end at `t`, the last, are the samples that stand there; the others end before. -/
def Newest (lives : List Live) (t : ℚ) (items : List ThroughputSample) : Prop :=
  ∃ old tail, items = old ++ tail ∧ (∀ x ∈ old, x.t1 < t) ∧
    tail.Perm (((standing lives).filter (·.t = t)).map Live.sample)

/-- The newest samples end last. -/
theorem Newest.t1_le (h : Newest lives t items) : ∀ x ∈ items, x.t1 ≤ t := by
  obtain ⟨old, tail, rfl, hold, hperm⟩ := h
  intro x hx
  rcases List.mem_append.mp hx with hx | hx
  · exact (hold x hx).le
  · obtain ⟨live, hlive, rfl⟩ := List.mem_map.mp (hperm.subset hx)
    exact (of_decide_eq_true (List.mem_filter.mp hlive).2).le

/-- Later, nothing stands at the newest time yet. -/
theorem Newest.later (h : Newest lives t items) (hlives : ∀ x ∈ lives, x.t ≤ t) {t' : ℚ} (ht : t ≤ t') :
    Newest lives t' items := by
  rcases ht.lt_or_eq with ht | rfl
  · have hnone : (standing lives).filter (·.t = t') = [] := by
      refine List.filter_eq_nil_iff.mpr fun x hx heq => ?_
      exact (hlives x (standing_subset hx)).not_gt (of_decide_eq_true heq ▸ ht)
    refine ⟨items, [], (List.append_nil _).symm, fun x hx => (h.t1_le x hx).trans_lt ht, ?_⟩
    rw [hnone]
    exact .nil
  · exact h

/-- Samples of one line at one time are of one place. -/
theorem place_of_line {other : Live} (ht : other.t = live.t)
    (hline : ofLine live.sample other.sample = true) : other.place = live.place := by
  obtain ⟨hstage, hdir, hcontinuity⟩ := of_decide_eq_true hline
  exact Prod.ext ht (Prod.ext hstage (Prod.ext hdir hcontinuity))

/-- At the newest time a sample replaces the one that stood at its place. -/
theorem filter_concat (lives : List Live) (live : Live) :
    (standing (lives ++ [live])).filter (·.t = live.t)
      = ((standing lives).filter (·.t = live.t)).filter (fun x => x.place ≠ live.place) ++ [live] := by
  rw [standing_concat, List.filter_append, List.filter_filter, List.filter_filter]
  simp [Bool.and_comm]

/-- A sample comes at the newest time: it replaces what stands in its place, if anything does. -/
theorem Newest.insert (h : Newest lives live.t items) (hsane : ∀ x ∈ items, Sane x) :
    Newest (lives ++ [live]) live.t (insert items live.sample) ∧
      ((replaced items live.sample = none ∧ ∀ x ∈ standing lives, x.place ≠ live.place) ∨
        ∃ other ∈ standing lives, other.place = live.place ∧
          replaced items live.sample = some other.sample) := by
  obtain ⟨old, tail, rfl, hold, hperm⟩ := h
  have htail : ∀ x ∈ tail, ∃ other ∈ standing lives, other.t = live.t ∧ x = other.sample := by
    intro x hx
    obtain ⟨other, hother, rfl⟩ := List.mem_map.mp (hperm.subset hx)
    obtain ⟨hother, ht⟩ := List.mem_filter.mp hother
    exact ⟨other, hother, of_decide_eq_true ht, rfl⟩
  rcases insert_spec (old ++ tail) live.sample with ⟨hnone, hinsert, hlines⟩ |
    ⟨before, x, after, hsplit, ht, hline, hsome, hinsert⟩
  · have hlines := hlines old tail rfl fun x hx => by
      obtain ⟨other, -, ht, rfl⟩ := htail x hx
      exact ht
    have hplaces : ∀ x ∈ standing lives, x.place ≠ live.place := by
      intro x hx hplace
      have ht : x.t = live.t := congrArg Prod.fst hplace
      have hmem : x.sample ∈ tail := hperm.symm.subset
        (List.mem_map_of_mem (List.mem_filter.mpr ⟨hx, decide_eq_true ht⟩))
      refine absurd (hlines _ hmem) (ne_false_of_eq_true (decide_eq_true ⟨?_, ?_, ?_⟩))
      · exact congrArg (·.2.1) hplace
      · exact congrArg (·.2.2.1) hplace
      · exact congrArg (·.2.2.2) hplace
    refine ⟨⟨old, tail ++ [live.sample], ?_, hold, ?_⟩, .inl ⟨hnone, hplaces⟩⟩
    · rw [hinsert, List.append_assoc]
    · rw [filter_concat, filter_place_eq_self fun x hx => hplaces x (List.mem_of_mem_filter hx),
        List.map_append]
      exact hperm.append (.refl _)
  · -- what is replaced stands at the newest time, so it is not old
    obtain ⟨rest, hbefore, htailsplit⟩ : ∃ rest, before = old ++ rest ∧ tail = rest ++ x :: after := by
      rcases List.append_eq_append_iff.mp hsplit with ⟨rest, hbefore, htailsplit⟩ | ⟨rest, hold', hafter⟩
      · exact ⟨rest, hbefore, htailsplit⟩
      · cases rest with
        | nil => exact ⟨[], by rw [hold', List.append_nil, List.append_nil], hafter.symm⟩
        | cons y rest =>
          cases hafter
          have hx : x ∈ old := hold' ▸ List.mem_append_right _ List.mem_cons_self
          have hle := (hsane x (List.mem_append_left _ hx)).to_t1
          rw [ht] at hle
          exact absurd (hold x hx) hle.not_gt
    obtain ⟨other, hother, htother, rfl⟩ := htail x (htailsplit ▸ by simp)
    have hplace := place_of_line htother hline
    refine ⟨⟨old, rest ++ live.sample :: after, ?_, hold, ?_⟩, .inr ⟨other, hother, hplace, hsome⟩⟩
    · rw [hinsert, hbefore, List.append_assoc]
    · have hstood : ((standing lives).filter (·.t = live.t)).Perm (other ::
          ((standing lives).filter (·.t = live.t)).filter fun x => x.place ≠ live.place) :=
        perm_of_place ((standing_nodup lives).sublist (List.filter_sublist.map _))
          (List.mem_filter.mpr ⟨hother, decide_eq_true htother⟩) hplace
      have hrest : (rest ++ after).Perm ((((standing lives).filter (·.t = live.t)).filter
          fun x => x.place ≠ live.place).map Live.sample) := by
        refine List.Perm.cons_inv (a := other.sample) ?_
        rw [htailsplit] at hperm
        exact (List.perm_middle.symm.trans hperm).trans (hstood.map _)
      rw [filter_concat, List.map_append]
      exact List.perm_middle.trans ((hrest.cons _).trans (List.perm_append_singleton _ _).symm)

end ThroughputSeries

/-! ## Folding before the newest time -/

/-- Items of no lane keep their places at the end. -/
theorem place_tail {T L : Type} [DecidableEq L] (lane : T → Option L)
    (fits : Packing.Bin T → T → Bool) (s : Packing.Packed T L) {tail : List T}
    (htail : ∀ x ∈ tail, lane x = none) :
    tail.foldl (Packing.Packed.place lane fits) s = { s with bins := s.bins ++ tail.map .single } := by
  induction tail generalizing s with
  | nil => simp
  | cons x tail ih =>
    obtain ⟨hx, htail⟩ := List.forall_mem_cons.mp htail
    have hplace : s.place lane fits x = { s with bins := s.bins ++ [.single x] } := by
      rw [Packing.Packed.place, hx, Option.bind_none, Packing.Packed.append, hx, Option.elim_none]
    rw [List.foldl_cons, hplace, ih _ htail]
    simp

/-- A fold leaves the items from its horizon on where they are. -/
theorem fold_tail (old tail : List ThroughputSample) (group : Stage) (grid : Grid) {horizon : ℚ}
    (strict : Bool) (htail : ∀ x ∈ tail, horizon ≤ x.t1) :
    throughputKind.fold (old ++ tail) group grid horizon strict
      = throughputKind.fold old group grid horizon strict ++ tail := by
  have hlane : ∀ x ∈ tail, throughputKind.foldLane group horizon x = none := fun x hx =>
    if_neg fun h => (htail x hx).not_gt h.2
  rw [fold_eq, fold_eq, Packing.pack, List.foldl_append, place_tail _ _ _ hlane, List.map_append]
  refine congrArg (_ ++ ·) ?_
  rw [List.map_map]
  exact List.map_id'' (fun x => rfl) tail

/-- What every fold up to its items' horizon keeps, `fit` keeps. -/
theorem fit_keeps_of_horizon {T G L : Type} [DecidableEq G] [DecidableEq L] {kind : Kind T G L}
    {limit : ℚ} (P : List T → Prop)
    (hfold : ∀ items group grid horizon strict, kind.horizon items = some horizon → P items →
      P (kind.fold items group grid horizon strict))
    {f : Folded T G} (h : P f.items) : P (kind.fit limit f).items := by
  have hloop : ∀ s : Fitting T G, P s.items → P (kind.fitLoop limit s).items := by
    intro s
    induction s using Kind.fitLoop.induct kind limit with
    | case1 s hround => exact fun h => (fitLoop_of_none hround).symm ▸ h
    | case2 s s' hround ih =>
      intro h
      obtain ⟨group, horizon, strict, hhorizon, -, hitems, -⟩ := round_cases hround
      rw [fitLoop_of_some hround]
      refine ih ?_
      rw [hitems]
      exact hfold _ _ _ _ _ hhorizon h
  exact hloop _ h

namespace ThroughputSeries

variable {items : List ThroughputSample} {lives : List Live} {live : Live} {t : ℚ}

/-- Folding into a coarser grid leaves the newest samples as they are. -/
theorem Newest.fold (h : Newest lives t items) (group : Stage) (grid : Grid) {horizon : ℚ}
    (strict : Bool) (hhorizon : throughputKind.horizon items = some horizon) :
    Newest lives t (throughputKind.fold items group grid horizon strict) := by
  have hle : horizon ≤ t := by
    obtain ⟨last, hlast, rfl⟩ := Option.map_eq_some_iff.mp hhorizon
    obtain ⟨x, hx, rfl⟩ := List.mem_map.mp (List.max?_mem hlast)
    exact (sub_zero x.t1).trans_le (h.t1_le x hx)
  obtain ⟨old, tail, rfl, hold, hperm⟩ := h
  refine ⟨_, tail, fold_tail old tail group grid strict fun x hx => hle.trans ?_, ?_, hperm⟩
  · obtain ⟨other, hother, rfl⟩ := List.mem_map.mp (hperm.subset hx)
    exact (of_decide_eq_true (List.mem_filter.mp hother).2).ge
  · intro x hx
    obtain ⟨y, hy, ht1⟩ := fold_t1 hx
    exact ht1 ▸ hold y hy

/-- **The newest samples stay as they were added.** -/
theorem run_newest (limit : ℚ) (htime : (lives ++ [live]).Pairwise fun a b => a.t ≤ b.t) :
    Newest lives live.t (run limit lives).items := by
  induction lives using List.reverseRecOn generalizing live with
  | nil => exact ⟨[], [], rfl, List.forall_mem_nil _, .nil⟩
  | append_singleton lives last ih =>
    obtain ⟨hlives, -, hbefore⟩ := List.pairwise_append.mp htime
    have hlate : ∀ x ∈ lives ++ [last], x.t ≤ last.t := by
      intro x hx
      rcases List.mem_append.mp hx with hx | hx
      · exact (List.pairwise_append.mp hlives).2.2 x hx last List.mem_cons_self
      · exact (List.mem_singleton.mp hx) ▸ le_rfl
    have hsane := (run_added byDirection_id limit (List.pairwise_append.mp hlives).1
      (together_id _)).sane
    have hfit : Newest (lives ++ [last]) last.t (run limit (lives ++ [last])).items := by
      rw [run_concat]
      exact fit_keeps_of_horizon (Newest (lives ++ [last]) last.t)
        (fun items group grid horizon strict hhorizon h => h.fold group grid strict hhorizon)
        ((ih hlives).insert hsane).1
    exact hfit.later hlate (hbefore last (by simp) live (by simp))

/-! ## Traces beside the series -/

/-- What a stage's trace is of all samples so far. -/
structure Shown (lives : List Live) (stage : Stage) (tr : StageTrace) : Prop where
  first : ((lives.filter (·.stage = stage)).head?.map Live.t) = some tr.first
  last : ((lives.filter (·.stage = stage)).getLast?.map Live.t) = some tr.last
  latest : ∀ d, ((lives.filter fun x => x.stage = stage ∧ x.dir = d).getLast?.map
    Live.bytesPerSec).getD 0 = tr.latest.get d
  second : tr.second = StageTrace.secondOf tr.first tr.last
  traced : Traced ((standing lives).filter (·.stage = stage)) tr

/-- Samples are recorded one after another. -/
theorem recordAll_concat (limit : ℚ) (lives : List Live) (live : Live) :
    recordAll limit (lives ++ [live]) = record limit (recordAll limit lives) live := List.foldl_append

/-- The traces change nothing of the series. -/
theorem recordAll_folded (limit : ℚ) (lives : List Live) :
    (recordAll limit lives).folded = run limit lives := by
  induction lives using List.reverseRecOn with
  | nil => rfl
  | append_singleton lives live ih => rw [recordAll_concat, run_concat, record, ih]

/-- Later samples are in later seconds. -/
theorem secondOf_mono (first : ℚ) {t t' : ℚ} (h : t ≤ t') :
    StageTrace.secondOf first t ≤ StageTrace.secondOf first t' := by
  refine Int.floor_le_floor ?_
  linarith

/-- What a sample changes besides lanes and rates. -/
theorem add_fields (tr : StageTrace) (sample : ThroughputSample) (other : Option ThroughputSample) :
    (tr.add sample other).first = tr.first ∧ (tr.add sample other).last = sample.t ∧
      (tr.add sample other).latest = tr.latest.set sample.dir sample.bytesPerSec ∧
      (tr.second ≤ StageTrace.secondOf tr.first sample.t →
        (tr.add sample other).second = StageTrace.secondOf tr.first sample.t) := by
  rw [StageTrace.add]
  split_ifs with hlt
  · rw [StageTrace.begin_, StageTrace.counted]
    cases tr.current <;> exact ⟨rfl, rfl, rfl, fun _ => rfl⟩
  · exact ⟨rfl, rfl, rfl, fun hle => le_antisymm hle (not_lt.mp hlt)⟩

/-- A sample of the stage comes. -/
theorem stage_standing (stage : Stage) (lives : List Live) (live : Live) :
    (standing (lives ++ [live])).filter (·.stage = stage)
      = ((standing lives).filter (·.stage = stage)).filter (fun x => x.place ≠ live.place) ++
        [live].filter (·.stage = stage) := by
  rw [standing_concat, List.filter_append, List.filter_filter, List.filter_filter]
  simp only [Bool.and_comm]

/-- The trace takes the sample, in the place of what stands in its place. -/
theorem traced_add {tr : StageTrace} {items : List ThroughputSample}
    (h : Traced ((standing lives).filter (·.stage = live.stage)) tr)
    (hlate : tr.second ≤ StageTrace.secondOf tr.first live.t)
    (hreplaced : (replaced items live.sample = none ∧ ∀ x ∈ standing lives, x.place ≠ live.place) ∨
      ∃ other ∈ standing lives, other.place = live.place ∧
        replaced items live.sample = some other.sample) :
    Traced ((standing (lives ++ [live])).filter (·.stage = live.stage))
      (tr.add live.sample (replaced items live.sample)) := by
  have hlive : [live].filter (·.stage = live.stage) = [live] := by simp
  rw [stage_standing, hlive]
  rcases hreplaced with ⟨hnone, hplaces⟩ | ⟨other, hother, hplace, hsome⟩
  · rw [hnone, filter_place_eq_self fun x hx => hplaces x (List.mem_of_mem_filter hx)]
    exact (h.add hlate).perm (List.perm_append_singleton _ _).symm
  · have hmem : other ∈ (standing lives).filter (·.stage = live.stage) :=
      List.mem_filter.mpr ⟨hother, decide_eq_true (congrArg (·.2.1) hplace)⟩
    have hperm := perm_of_place ((standing_nodup lives).sublist (List.filter_sublist.map _)) hmem hplace
    rw [hsome]
    exact ((h.perm hperm).add_replaced hplace hlate).perm (List.perm_append_singleton _ _).symm

/-- What the trace that a sample comes to is of the samples before, whether it has just begun or not. -/
structure Opened (lives : List Live) (live : Live) (tr : StageTrace) : Prop where
  first : (((lives ++ [live]).filter (·.stage = live.stage)).head?.map Live.t) = some tr.first
  latest : ∀ d, ((lives.filter fun x => x.stage = live.stage ∧ x.dir = d).getLast?.map
    Live.bytesPerSec).getD 0 = tr.latest.get d
  late : tr.second ≤ StageTrace.secondOf tr.first live.t
  traced : Traced ((standing lives).filter (·.stage = live.stage)) tr

/-- A stage's first sample opens its trace. -/
theorem Opened.new (hempty : lives.filter (·.stage = live.stage) = []) :
    Opened lives live (.new live.t) where
  first := by
    rw [List.filter_append, hempty]
    simp [StageTrace.new]
  latest d := by
    have hnone : (lives.filter fun x => x.stage = live.stage ∧ x.dir = d) = [] := by
      rw [List.filter_eq_nil_iff] at hempty ⊢
      exact fun x hx hboth => hempty x hx (decide_eq_true (of_decide_eq_true hboth).1)
    rw [hnone]
    cases d <;> rfl
  late := by
    rw [StageTrace.new, StageTrace.secondOf, sub_self, zero_div, Int.floor_zero]
  traced := by
    have hnone : (standing lives).filter (·.stage = live.stage) = [] := by
      rw [List.filter_eq_nil_iff] at hempty ⊢
      exact fun x hx => hempty x (standing_subset hx)
    rw [hnone]
    exact .new live.t

/-- A later sample opens its second. -/
theorem Shown.opened {tr : StageTrace} (h : Shown lives live.stage tr) (htime : ∀ x ∈ lives, x.t ≤ live.t) :
    Opened lives live tr where
  first := by
    obtain ⟨x, hx, -⟩ := Option.map_eq_some_iff.mp h.first
    rw [List.filter_append, List.head?_append, hx, Option.some_or, ← hx]
    exact h.first
  latest := h.latest
  late := by
    obtain ⟨x, hx, hlast⟩ := Option.map_eq_some_iff.mp h.last
    rw [h.second, ← hlast]
    exact secondOf_mono _ (htime x (List.mem_of_mem_filter (List.mem_of_getLast? hx)))
  traced := h.traced

/-- The trace takes the sample. -/
theorem Opened.shown {tr : StageTrace} {items : List ThroughputSample} (h : Opened lives live tr)
    (hreplaced : (replaced items live.sample = none ∧ ∀ x ∈ standing lives, x.place ≠ live.place) ∨
      ∃ other ∈ standing lives, other.place = live.place ∧
        replaced items live.sample = some other.sample) :
    Shown (lives ++ [live]) live.stage (tr.add live.sample (replaced items live.sample)) := by
  obtain ⟨hfirst, hlast, hlatest, hsecond⟩ :=
    add_fields tr live.sample (replaced items live.sample)
  have hlive : [live].filter (·.stage = live.stage) = [live] := by simp
  refine ⟨hfirst ▸ h.first, ?_, fun d => ?_, ?_, traced_add h.traced h.late hreplaced⟩
  · rw [List.filter_append, hlive, List.getLast?_concat, hlast]
    rfl
  · rw [hlatest, List.filter_append]
    by_cases hdir : live.dir = d
    · subst hdir
      have hboth : [live].filter (fun x => x.stage = live.stage ∧ x.dir = live.dir) = [live] := by simp
      rw [hboth, List.getLast?_concat]
      exact (Dir.get_set_self _ _ _).symm
    · have hnone : [live].filter (fun x => x.stage = live.stage ∧ x.dir = d) = [] := by simp [hdir]
      rw [hnone, List.append_nil, h.latest]
      exact (Dir.get_set_of_ne _ (Ne.symm hdir) _).symm
  · rw [hsecond h.late, hfirst, hlast]

/-- No sample of the stage, and no trace; or its trace. -/
def Traces (lives : List Live) (s : ThroughputSeries) (stage : Stage) : Prop :=
  (s.traces stage = none ∧ lives.filter (·.stage = stage) = []) ∨
    ∃ tr, s.traces stage = some tr ∧ Shown lives stage tr

/-- **One sample.** -/
theorem Traces.record {s : ThroughputSeries} (limit : ℚ)
    (h : ∀ stage, Traces lives s stage) (htime : ∀ x ∈ lives, x.t ≤ live.t)
    (hreplaced : (replaced s.folded.items live.sample = none ∧
        ∀ x ∈ standing lives, x.place ≠ live.place) ∨
      ∃ other ∈ standing lives, other.place = live.place ∧
        replaced s.folded.items live.sample = some other.sample) (stage : Stage) :
    Traces (lives ++ [live]) (s.record limit live) stage := by
  by_cases hstage : stage = live.stage
  · subst hstage
    refine .inr ⟨_, Function.update_self _ _ _, ?_⟩
    rcases h live.stage with ⟨hnone, hempty⟩ | ⟨tr, htr, hshown⟩
    · rw [hnone]
      exact (Opened.new hempty).shown hreplaced
    · rw [htr]
      exact (hshown.opened htime).shown hreplaced
  · have hlive : [live].filter (·.stage = stage) = [] := by simp [Ne.symm hstage]
    have hsame : (s.record limit live).traces stage = s.traces stage :=
      Function.update_of_ne hstage _ _
    have hfilter : (lives ++ [live]).filter (·.stage = stage) = lives.filter (·.stage = stage) := by
      rw [List.filter_append, hlive, List.append_nil]
    have hstanding : (standing (lives ++ [live])).filter (·.stage = stage)
        = (standing lives).filter (·.stage = stage) := by
      rw [stage_standing, hlive, List.append_nil, filter_place_eq_self]
      intro x hx hplace
      refine hstage ((of_decide_eq_true (List.mem_filter.mp hx).2).symm.trans ?_)
      exact congrArg (·.2.1) hplace
    rcases h stage with ⟨hnone, hempty⟩ | ⟨tr, htr, hshown⟩
    · exact .inl ⟨hsame.trans hnone, hfilter.trans hempty⟩
    · refine .inr ⟨tr, hsame.trans htr, hfilter ▸ hshown.first, hfilter ▸ hshown.last, fun d => ?_,
        hshown.second, hstanding ▸ hshown.traced⟩
      rw [List.filter_append]
      have hnone : [live].filter (fun x => x.stage = stage ∧ x.dir = d) = [] := by
        simp [Ne.symm hstage]
      rw [hnone, List.append_nil]
      exact hshown.latest d

/-- **A run of samples** keeps every stage's trace. -/
theorem recordAll_traces (limit : ℚ) (htime : lives.Pairwise fun a b => a.t ≤ b.t) (stage : Stage) :
    Traces lives (recordAll limit lives) stage := by
  induction lives using List.reverseRecOn generalizing stage with
  | nil => exact .inl ⟨rfl, rfl⟩
  | append_singleton lives live ih =>
    obtain ⟨hlives, -, hbefore⟩ := List.pairwise_append.mp htime
    have hsane := (run_added byDirection_id limit hlives (together_id _)).sane
    rw [recordAll_concat]
    refine Traces.record limit (ih hlives) (fun x hx => hbefore x hx live List.mem_cons_self) ?_ stage
    rw [recordAll_folded]
    exact ((run_newest limit htime).insert hsane).2

/-- **The traces of a series.** Whatever the samples in time order and the limit they are folded to, a
stage has a trace once it has a sample; the trace counts the samples that stand and shows the latest of
each direction; and its peak and its spread are those of the rates of the whole seconds in which samples
stand, as if no sample had been folded, replaced or forgotten. -/
theorem stage_traces (limit : ℚ) (lives : List Live) (htime : lives.Pairwise fun a b => a.t ≤ b.t)
    (stage : Stage) :
    let stood := (standing lives).filter (·.stage = stage)
    ((recordAll limit lives).traces stage = none ↔ ∀ x ∈ lives, x.stage ≠ stage) ∧
    ∀ tr, (recordAll limit lives).traces stage = some tr →
      ((lives.filter (·.stage = stage)).head?.map Live.t) = some tr.first ∧
      ((lives.filter (·.stage = stage)).getLast?.map Live.t) = some tr.last ∧
      (∀ d, ((lives.filter fun x => x.stage = stage ∧ x.dir = d).getLast?.map
        Live.bytesPerSec).getD 0 = tr.latest.get d) ∧
      tr.count = stood.length ∧ tr.shape = some (shapeOf (secondRates tr.first stood)) := by
  intro stood
  have hnone : (lives.filter (·.stage = stage) = []) ↔ ∀ x ∈ lives, x.stage ≠ stage := by
    simp [List.filter_eq_nil_iff]
  rcases recordAll_traces limit htime stage with ⟨htrace, hempty⟩ | ⟨tr, htrace, hshown⟩
  · refine ⟨iff_of_true htrace (hnone.mp hempty), fun tr htr => ?_⟩
    rw [htrace] at htr
    cases htr
  · have hlast := hshown.last
    refine ⟨iff_of_false (by rw [htrace]; exact Option.some_ne_none tr) fun hall => ?_, fun t ht => ?_⟩
    · rw [hnone.mpr hall] at hlast
      cases hlast
    · rw [htrace, Option.some.injEq] at ht
      subst ht
      refine ⟨hshown.first, hlast, hshown.latest, hshown.traced.count, hshown.traced.shape_eq ?_⟩
      obtain ⟨x, hx, -⟩ := Option.map_eq_some_iff.mp hlast
      obtain ⟨hlive, hstage⟩ := List.mem_filter.mp (List.mem_of_getLast? hx)
      obtain ⟨y, hy, hplace⟩ := exists_standing hlive
      refine List.ne_nil_of_mem (List.mem_filter.mpr ⟨hy, decide_eq_true ?_⟩)
      exact (congrArg (·.2.1) hplace : y.stage = x.stage).trans (of_decide_eq_true hstage)

/-- Two directions over two seconds, the second upload's rate replaced. -/
def rated : List Live :=
  [⟨0, 10, 0, .down, .bidirectional, 0⟩, ⟨0, 20, 0, .up, .bidirectional, 0⟩,
    ⟨1500, 30, 0, .up, .bidirectional, 0⟩, ⟨1500, 40, 0, .up, .bidirectional, 0⟩]

/-- Three samples, the last at another's place: two seconds are rated. -/
theorem stage_traces_rated : ∃ tr, (recordAll 3 rated).traces .bidirectional = some tr ∧
    tr.count = 3 ∧ tr.shape = some (shapeOf [30, 40]) := by
  obtain ⟨hnone, hsome⟩ := stage_traces 3 rated (by decide +kernel) .bidirectional
  obtain ⟨tr, htr⟩ := Option.ne_none_iff_exists'.mp (mt hnone.mp (by decide))
  obtain ⟨hfirst, -, -, hcount, hshape⟩ := hsome tr htr
  have hzero : tr.first = 0 := (Option.some.inj hfirst).symm
  have hseconds : secondsOf 0 ((standing rated).filter (·.stage = .bidirectional)) = [0, 1] := by
    have hset : (((standing rated).filter (·.stage = .bidirectional)).map
        fun x => StageTrace.secondOf 0 x.t).toFinset = [0, 1].toFinset := by decide +kernel
    rw [secondsOf, hset]
    exact (List.toFinset_sort (· ≤ ·) (by decide)).mpr (by decide)
  rw [hzero, secondRates, hseconds] at hshape
  exact ⟨tr, htr, hcount.trans (by decide +kernel), hshape.trans (by decide +kernel)⟩

end ThroughputSeries

end GraphiteMeter.Browser.Series
