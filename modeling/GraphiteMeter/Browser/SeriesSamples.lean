import GraphiteMeter.Browser.SeriesBuckets

/-!
# Samples keep their totals and order

Samples span from `t0` to `t1`. Those of a class follow one another: one span ends before the next
begins. A merge spans its bin and its mean time lies within, so the merges of a class follow one another
as its samples did, where the bins of the class hold them in order (`Packing.class_flatMap`).

The class may be a direction within a stage, or a direction alone where its stages do not come back.
-/

namespace GraphiteMeter.Browser.Series

open GraphiteMeter.Measure (Stage Direction)
open Packing (Bin pack)

/-! ## The mean -/

section Mean

variable {T : Type} {items : List T} {value : T → ℚ} {weight : T → ℕ} {bound : ℚ}

/-- A weighted sum is at most the bound times the weights. -/
theorem weighted_le (h : ∀ x ∈ items, value x ≤ bound) :
    (items.map fun x => value x * weight x).sum ≤ bound * ((items.map weight).sum : ℕ) := by
  induction items with
  | nil => simp
  | cons x items ih =>
    obtain ⟨hx, hitems⟩ := List.forall_mem_cons.mp h
    rw [List.map_cons, List.sum_cons, List.map_cons, List.sum_cons, Nat.cast_add, mul_add]
    exact add_le_add (mul_le_mul_of_nonneg_right hx (Nat.cast_nonneg _)) (ih hitems)

/-- It is at least the bound times the weights. -/
theorem le_weighted (h : ∀ x ∈ items, bound ≤ value x) :
    bound * ((items.map weight).sum : ℕ) ≤ (items.map fun x => value x * weight x).sum := by
  induction items with
  | nil => simp
  | cons x items ih =>
    obtain ⟨hx, hitems⟩ := List.forall_mem_cons.mp h
    rw [List.map_cons, List.sum_cons, List.map_cons, List.sum_cons, Nat.cast_add, mul_add]
    exact add_le_add (mul_le_mul_of_nonneg_right hx (Nat.cast_nonneg _)) (ih hitems)

end Mean

/-! ## One sample -/

structure Sane (x : ThroughputSample) : Prop where
  ticks : 0 < x.ticks
  from_t0 : x.t0 ≤ x.t
  to_t1 : x.t ≤ x.t1

namespace Sane

variable {x : ThroughputSample}

/-- A sane sample starts before it ends. -/
theorem t0_le_t1 (h : Sane x) : x.t0 ≤ x.t1 := h.from_t0.trans h.to_t1

/-- A live sample is sane. -/
theorem live (live : Live) : Sane live.sample := ⟨Nat.one_pos, le_rfl, le_rfl⟩

end Sane

def Follows (a b : ThroughputSample) : Prop := a.t ≤ b.t ∧ a.t1 ≤ b.t0

/-- Sane samples follow one another where their spans do. -/
theorem follows_of {a b : ThroughputSample} (ha : Sane a) (hb : Sane b) (h : a.t1 ≤ b.t0) :
    Follows a b :=
  ⟨ha.to_t1.trans (h.trans hb.from_t0), h⟩

/-- What a fold may put apart: its group and its lane. -/
abbrev Key : Type := Stage × Direction

def key (x : ThroughputSample) : Key := (x.stage, x.dir)

section Merge

variable {bin : Bin ThroughputSample} {grid : Grid}

/-- A bin of samples has ticks. -/
theorem ticks_pos (hticks : ∀ x ∈ bin.toList, 0 < x.ticks) :
    0 < (bin.toList.map (·.ticks)).sum := by
  rw [Bin.toList, List.map_cons, List.sum_cons]
  exact Nat.add_pos_left (hticks _ bin.first_mem) _

/-- A merge carries the ticks and the bytes of its bin. -/
theorem merge_bytes (hticks : ∀ x ∈ bin.toList, 0 < x.ticks) :
    (mergeThroughput bin).bytesPerSec * (mergeThroughput bin).ticks
      = (bin.toList.map fun x => x.bytesPerSec * (x.ticks : ℚ)).sum := by
  have hne : (((bin.toList.map (·.ticks)).sum : ℕ) : ℚ) ≠ 0 :=
    Nat.cast_ne_zero.mpr (ticks_pos hticks).ne'
  exact div_mul_cancel₀ _ hne

/-- A bin's value starts with its first sample. -/
theorem value_t0 : (throughputKind.value grid bin).t0 = bin.first.t0 := by
  unfold Kind.value
  split <;> rfl

/-- It ends with its last. -/
theorem value_t1 : (throughputKind.value grid bin).t1 = bin.last.t1 := by
  unfold Kind.value
  split
  case isTrue => rfl
  case isFalse hrest => rw [Bin.last_of_rest_eq_nil (not_not.mp hrest)]

/-- It is of the stage and direction of its samples. -/
theorem value_key (hkey : ∀ x ∈ bin.toList, key x = key bin.first) :
    key (throughputKind.value grid bin) = key bin.first := by
  unfold Kind.value
  split
  case isTrue => exact hkey bin.last bin.last_mem
  case isFalse => rfl

/-- What a bin in order comes to has its time within its span. -/
theorem value_sane (hsane : ∀ x ∈ bin.toList, Sane x) (horder : bin.toList.Pairwise Follows) :
    Sane (throughputKind.value grid bin) := by
  have hlower : ∀ x ∈ bin.toList, bin.first.t0 ≤ x.t := by
    refine List.forall_mem_cons.mpr ⟨(hsane _ bin.first_mem).from_t0, fun x hx => ?_⟩
    have hfollows := (List.pairwise_cons.mp horder).1 x hx
    exact (hsane _ bin.first_mem).from_t0.trans hfollows.1
  have hupper : ∀ x ∈ bin.toList, x.t ≤ bin.last.t1 := by
    intro x hx
    have hlast := (hsane _ bin.last_mem).to_t1
    rcases Bin.eq_last_or horder x hx with rfl | hfollows
    · exact hlast
    · exact hfollows.1.trans hlast
  unfold Kind.value
  split
  case isFalse => exact hsane _ bin.first_mem
  case isTrue =>
    have hpos := ticks_pos fun x hx => (hsane x hx).ticks
    have hcast : (0 : ℚ) < ((bin.toList.map (·.ticks)).sum : ℕ) := Nat.cast_pos.mpr hpos
    exact ⟨hpos, (le_div_iff₀ hcast).mpr (le_weighted hlower),
      (div_le_iff₀ hcast).mpr (weighted_le hupper)⟩

end Merge

/-! ## Samples in order -/

section Order

variable {C : Type} {cls : Key → C} {items : List ThroughputSample}

/-- Within a stage a class goes by the direction. -/
def ByDirection (cls : Key → C) : Prop := ∀ stage d d', cls (stage, d) = cls (stage, d') ↔ d = d'

/-- Keys by stage and direction tell directions apart. -/
theorem byDirection_id : ByDirection id := fun _ _ _ => by simp

/-- So does the direction alone. -/
theorem byDirection_snd : ByDirection Prod.snd := fun _ _ _ => Iff.rfl

/-- In its class no stage comes back after another. -/
def Together (cls : Key → C) (keys : List Key) : Prop :=
  ∀ p q r, [p, q, r].Sublist keys → cls p = cls q → cls q = cls r → p.1 = r.1 → q.1 = p.1

/-- Each key is together with itself. -/
theorem together_id (keys : List Key) : Together id keys := by
  rintro p q r - rfl rfl -
  rfl

/-- Fewer keys are together as well. -/
theorem Together.sublist {keys keys' : List Key} (h : Together cls keys) (hsub : keys'.Sublist keys) :
    Together cls keys' :=
  fun p q r hpqr => h p q r (hpqr.trans hsub)

/-- Sane samples, those of a class one after another. -/
structure InOrder (cls : Key → C) (items : List ThroughputSample) : Prop where
  sane : ∀ x ∈ items, Sane x
  timely : items.Pairwise fun a b => cls (key a) = cls (key b) → Follows a b
  together : Together cls (items.map key)

/-- No items are in order. -/
theorem InOrder.nil : InOrder cls [] :=
  ⟨List.forall_mem_nil _, List.Pairwise.nil, fun _ _ _ h => by cases h⟩

variable {group : Stage} {horizon : ℚ}

/-- A fold takes the stage's samples before the horizon, by direction. -/
theorem foldLane_eq_some {x : ThroughputSample} {dir : Direction} :
    throughputKind.foldLane group horizon x = some dir ↔
      (x.stage = group ∧ x.t1 < horizon) ∧ x.dir = dir := by
  unfold Kind.foldLane
  split
  case isTrue h => exact Option.some_inj.trans (and_iff_right h).symm
  case isFalse h => exact iff_of_false nofun fun hx => h hx.1

/-- It leaves all others. -/
theorem foldLane_isSome {x : ThroughputSample} :
    (throughputKind.foldLane group horizon x).isSome ↔ x.stage = group ∧ x.t1 < horizon := by
  rw [Option.isSome_iff_exists]
  exact ⟨fun ⟨_, h⟩ => (foldLane_eq_some.mp h).1, fun h => ⟨_, foldLane_eq_some.mpr ⟨h, rfl⟩⟩⟩

/-- Its lanes tell directions apart. -/
theorem foldLane_classifies (hcls : ByDirection cls) :
    Packing.Classifies (throughputKind.foldLane group horizon) fun x => cls (key x) := by
  intro a b ha hb
  rw [foldLane_isSome] at ha hb
  have hlane : ∀ {x : ThroughputSample}, (x.stage = group ∧ x.t1 < horizon) →
      throughputKind.foldLane group horizon x = some x.dir := fun hx => foldLane_eq_some.mpr ⟨hx, rfl⟩
  dsimp only [key]
  rw [hlane ha, hlane hb, Option.some.injEq, ha.1, hb.1]
  exact hcls group a.dir b.dir

/-- What stands between two settled samples of its class is settled. -/
theorem InOrder.unbroken (h : InOrder cls items) (group : Stage) (horizon : ℚ) :
    Packing.Unbroken (throughputKind.foldLane group horizon) (fun x => cls (key x)) items := by
  intro p q r hsub hpq hqr hp hr
  rw [foldLane_isSome] at hp hr ⊢
  have hstage := h.together _ _ _ (hsub.map key) hpq hqr (hp.1.trans hr.1.symm)
  have hqr' : [q, r].Sublist items := (List.sublist_cons_self p _).trans hsub
  have hfollows := List.pairwise_iff_forall_sublist.mp h.timely hqr' hqr
  have hmem : r ∈ items := hsub.subset (by simp)
  exact ⟨hstage.trans hp.1, (hfollows.2.trans (h.sane r hmem).t0_le_t1).trans_lt hr.2⟩

/-- The samples of a folded bin have one stage and direction. -/
theorem bin_key {fits : Bin ThroughputSample → ThroughputSample → Bool}
    {packed : Packing.Packed ThroughputSample Direction}
    (hpacks : Packing.Packs (throughputKind.foldLane group horizon) fits packed items)
    {b : Bin ThroughputSample} (hb : b ∈ packed.bins) : ∀ x ∈ b.toList, key x = key b.first := by
  refine List.forall_mem_cons.mpr ⟨rfl, fun x hx => ?_⟩
  obtain ⟨dir, hfirst, hlane⟩ := hpacks.lanes b hb x hx
  rw [foldLane_eq_some] at hfirst hlane
  exact Prod.ext (hlane.1.1.trans hfirst.1.1.symm) (hlane.2.trans hfirst.2.symm)

/-- A fold leaves the stages and directions in their order. -/
theorem fold_keys (items : List ThroughputSample) (group : Stage) (grid : Grid) (horizon : ℚ)
    (strict : Bool) :
    ((throughputKind.fold items group grid horizon strict).map key).Sublist (items.map key) := by
  have hpacks := Packing.pack_packs (throughputKind.foldLane group horizon)
    (throughputKind.fits grid strict) items
  have hkeys := hpacks.heads.map key
  rw [List.map_map] at hkeys
  rw [fold_eq, List.map_map]
  refine (List.map_congr_left fun b hb => ?_) ▸ hkeys
  exact (value_key (bin_key hpacks hb)).symm

/-- What a fold gives ends where one of its samples did. -/
theorem fold_t1 {group : Stage} {grid : Grid} {horizon : ℚ} {strict : Bool} {x : ThroughputSample}
    (hx : x ∈ throughputKind.fold items group grid horizon strict) : ∃ y ∈ items, x.t1 = y.t1 := by
  have hpacks := Packing.pack_packs (throughputKind.foldLane group horizon)
    (throughputKind.fits grid strict) items
  rw [fold_eq] at hx
  obtain ⟨b, hb, rfl⟩ := List.mem_map.mp hx
  exact ⟨b.last, hpacks.perm.subset (List.mem_flatMap.mpr ⟨b, hb, b.last_mem⟩), value_t1⟩

/-- **A fold keeps samples in order.** -/
theorem fold_inOrder [DecidableEq C] (hcls : ByDirection cls) (h : InOrder cls items) (group : Stage)
    (grid : Grid) (horizon : ℚ) (strict : Bool) :
    InOrder cls (throughputKind.fold items group grid horizon strict) := by
  have hpacks := Packing.pack_packs (throughputKind.foldLane group horizon)
    (throughputKind.fits grid strict) items
  have hclass := Packing.class_flatMap (throughputKind.fits grid strict)
    (foldLane_classifies hcls) (h.unbroken group horizon)
  have htogether := h.together.sublist (fold_keys items group grid horizon strict)
  rw [fold_eq] at htogether ⊢
  generalize pack (throughputKind.foldLane group horizon) (throughputKind.fits grid strict)
    items = packed at hpacks hclass htogether ⊢
  have hvalue : ∀ b ∈ packed.bins, key (throughputKind.value grid b) = key b.first :=
    fun b hb => value_key (bin_key hpacks hb)
  -- A class's bins, read in order, are its samples, which follow one another.
  have hfollow : ∀ c, ((packed.bins.filter fun b => cls (key b.first) = c).flatMap
      Bin.toList).Pairwise Follows := by
    intro c
    rw [hclass c, List.pairwise_filter]
    refine h.timely.imp fun {a b} hab ha hb => hab ?_
    rw [of_decide_eq_true ha, of_decide_eq_true hb]
  have hsane : ∀ b ∈ packed.bins, ∀ x ∈ b.toList, Sane x := fun b hb x hx =>
    h.sane x (hpacks.perm.subset (List.mem_flatMap.mpr ⟨b, hb, hx⟩))
  have hsane' : ∀ b ∈ packed.bins, Sane (throughputKind.value grid b) := by
    intro b hb
    refine value_sane (hsane b hb) ((List.pairwise_flatMap.mp (hfollow (cls (key b.first)))).1 b ?_)
    exact List.mem_filter.mpr ⟨hb, decide_eq_true rfl⟩
  refine ⟨List.forall_mem_map.mpr hsane', ?_, htogether⟩
  refine List.pairwise_map.mpr (List.pairwise_iff_forall_sublist.mpr fun {a b} hab hsame => ?_)
  have ha : a ∈ packed.bins := hab.subset List.mem_cons_self
  have hb : b ∈ packed.bins := hab.subset (List.mem_cons_of_mem _ List.mem_cons_self)
  rw [hvalue a ha, hvalue b hb] at hsame
  have hbins := (List.pairwise_flatMap.mp (hfollow (cls (key a.first)))).2
  rw [List.pairwise_filter, List.pairwise_iff_forall_sublist] at hbins
  have hspan := hbins hab (decide_eq_true rfl) (decide_eq_true hsame.symm) _ a.last_mem _ b.first_mem
  refine follows_of (hsane' a ha) (hsane' b hb) ?_
  rw [value_t1, value_t0]
  exact hspan.2

/-! ## A live sample -/

namespace ThroughputSeries

/-- What the search finds is a sample of the same time, stage and direction. -/
theorem sameLine_spec {history : List ThroughputSample} {sample : ThroughputSample} {n i : ℕ}
    (h : sameLine history sample n = some i) :
    ∃ other, history[i]? = some other ∧ other.t = sample.t ∧ key other = key sample := by
  induction n with
  | zero => cases h
  | succ n ih =>
    unfold sameLine at h
    split at h
    case h_1 => cases h
    case h_2 other hother =>
      split at h
      case isFalse => cases h
      case isTrue ht =>
        split at h
        case isTrue hline =>
          cases h
          exact ⟨other, hother, ht, Prod.ext hline.1 hline.2.1⟩
        case isFalse => exact ih h

/-- It goes to the end, or in the place of one at its time and of its stage and direction. -/
theorem insert_cases (history : List ThroughputSample) (sample : ThroughputSample) :
    insert history sample = history ++ [sample] ∨
    ∃ before other after, history = before ++ other :: after ∧ other.t = sample.t ∧
      key other = key sample ∧ insert history sample = before ++ sample :: after := by
  unfold insert
  split
  case h_2 => exact .inl rfl
  case h_1 i hi =>
    obtain ⟨other, hother, ht, hkey⟩ := sameLine_spec hi
    obtain ⟨hlt, rfl⟩ := List.getElem?_eq_some_iff.mp hother
    obtain ⟨before, after, hhistory, -, hset⟩ := @List.exists_of_set _ i sample _ hlt
    exact .inr ⟨before, _, after, hhistory, ht, hkey, hset⟩

/-- A live sample not earlier than any span's end keeps samples in order. -/
theorem insert_inOrder {live : Live} (h : InOrder cls items) (hlate : ∀ x ∈ items, x.t1 ≤ live.t)
    (htogether : Together cls (items.map key ++ [key live.sample])) :
    InOrder cls (insert items live.sample) := by
  have hafter : ∀ x ∈ items, Follows x live.sample := fun x hx =>
    follows_of (h.sane x hx) (Sane.live live) (hlate x hx)
  rcases insert_cases items live.sample with heq | ⟨before, other, after, rfl, ht, hkey, heq⟩
  · rw [heq]
    refine ⟨List.forall_mem_append.mpr ⟨h.sane, List.forall_mem_singleton.mpr (Sane.live live)⟩, ?_,
      by rwa [List.map_append]⟩
    refine List.pairwise_append.mpr ⟨h.timely, List.pairwise_singleton _ _, fun x hx y hy _ => ?_⟩
    rw [List.mem_singleton.mp hy]
    exact hafter x hx
  · rw [heq]
    obtain ⟨hbefore, hother, hrest⟩ := List.forall_mem_append.mp h.sane |>.imp_right
      List.forall_mem_cons.mp
    obtain ⟨htimely, hcons, hcross⟩ := List.pairwise_append.mp h.timely
    obtain ⟨hnext, htail⟩ := List.pairwise_cons.mp hcons
    refine ⟨List.forall_mem_append.mpr ⟨hbefore, List.forall_mem_cons.mpr ⟨Sane.live live, hrest⟩⟩,
      ?_, ?_⟩
    · refine List.pairwise_append.mpr ⟨htimely, List.pairwise_cons.mpr ⟨fun y hy hsame => ?_, htail⟩,
        fun x hx => List.forall_mem_cons.mpr ⟨fun _ => ?_, ?_⟩⟩
      · -- The earlier version ends where the new one does.
        have hfollows := hnext y hy (hkey ▸ hsame)
        refine follows_of (Sane.live live) (hrest y hy) (le_trans ?_ hfollows.2)
        exact ht.ge.trans hother.to_t1
      · exact hafter x (List.mem_append_left _ hx)
      · exact fun y hy => hcross x hx y (List.mem_cons_of_mem _ hy)
    · have htog := h.together
      rw [List.map_append, List.map_cons, hkey] at htog
      rwa [List.map_append, List.map_cons]

/-- Its keys are the ones before and its own. -/
theorem insert_keys (items : List ThroughputSample) (sample : ThroughputSample) :
    ((insert items sample).map key).Sublist (items.map key ++ [key sample]) := by
  rcases insert_cases items sample with heq | ⟨before, other, after, rfl, -, hkey, heq⟩
  · rw [heq, List.map_append]
    exact .refl _
  · rw [heq, List.map_append, List.map_append, List.map_cons, List.map_cons, hkey]
    exact List.sublist_append_left _ _

/-! ### Runs -/

def run (limit : ℚ) (lives : List Live) : Folded ThroughputSample Stage :=
  lives.foldl (append limit) .empty

/-- Samples are appended one after another. -/
theorem run_concat (limit : ℚ) (lives : List Live) (live : Live) :
    run limit (lives ++ [live]) = append limit (run limit lives) live := List.foldl_append

/-- The run with at most `n` rounds, the last look included, for each sample. -/
def runIn (n : ℕ) (limit : ℚ) (lives : List Live) : Option (Folded ThroughputSample Stage) :=
  lives.foldlM (fun folded live =>
    throughputKind.fitIn limit n ⟨{ folded with items := insert folded.items live.sample }, []⟩) .empty

/-- A run that ends in its passes is the run. -/
theorem run_of_runIn {n : ℕ} {limit : ℚ} {lives : List Live} {f : Folded ThroughputSample Stage}
    (h : runIn n limit lives = some f) : run limit lives = f := by
  unfold runIn at h
  unfold run
  generalize (Folded.empty : Folded ThroughputSample Stage) = folded at h ⊢
  induction lives generalizing folded with
  | nil => exact Option.some.inj h
  | cons live lives ih =>
    rw [List.foldlM_cons, Option.bind_eq_bind, Option.bind_eq_some_iff] at h
    obtain ⟨next, hnext, h⟩ := h
    rw [List.foldl_cons, append, Kind.fit, eq_of_fitIn hnext]
    exact ih next h

/-- Samples in order, of keys in the order added and of times that were. -/
structure Added (cls : Key → C) (lives : List Live) (items : List ThroughputSample) : Prop
    extends InOrder cls items where
  keys : (items.map key).Sublist (lives.map fun live => key live.sample)
  late : ∀ x ∈ items, ∃ live ∈ lives, x.t1 ≤ live.t

variable {lives : List Live} {live : Live}

/-- Folding keeps the totals of what was added. -/
theorem fold_added [DecidableEq C] (hcls : ByDirection cls) (h : Added cls lives items) (group : Stage)
    (grid : Grid) (horizon : ℚ) (strict : Bool) :
    Added cls lives (throughputKind.fold items group grid horizon strict) where
  toInOrder := fold_inOrder hcls h.toInOrder group grid horizon strict
  keys := (fold_keys items group grid horizon strict).trans h.keys
  late x hx := by
    obtain ⟨y, hy, ht1⟩ := fold_t1 hx
    rw [ht1]
    exact h.late y hy

/-- Inserting a sample adds it. -/
theorem insert_added (h : Added cls lives items)
    (htime : (lives ++ [live]).Pairwise fun a b => a.t ≤ b.t)
    (htogether : Together cls ((lives ++ [live]).map fun live => key live.sample)) :
    Added cls (lives ++ [live]) (insert items live.sample) := by
  have hlate : ∀ x ∈ items, x.t1 ≤ live.t := by
    intro x hx
    obtain ⟨before, hbefore, hle⟩ := h.late x hx
    exact hle.trans ((List.pairwise_append.mp htime).2.2 before hbefore live List.mem_cons_self)
  have hkeys : (items.map key ++ [key live.sample]).Sublist
      ((lives ++ [live]).map fun live => key live.sample) := by
    rw [List.map_append]
    exact h.keys.append (.refl _)
  refine ⟨insert_inOrder h.toInOrder hlate (htogether.sublist hkeys),
    (insert_keys items live.sample).trans hkeys, fun x hx => ⟨live, by simp, ?_⟩⟩
  rcases insert_cases items live.sample with heq | ⟨before, other, after, rfl, -, -, heq⟩
  · rw [heq] at hx
    rcases List.mem_append.mp hx with hx | hx
    · exact hlate x hx
    · exact List.mem_singleton.mp hx ▸ le_rfl
  · rw [heq] at hx
    rcases List.mem_append.mp hx with hx | hx
    · exact hlate x (List.mem_append_left _ hx)
    rcases List.mem_cons.mp hx with rfl | hx
    · exact le_rfl
    · exact hlate x (List.mem_append_right _ (List.mem_cons_of_mem _ hx))

/-- **Samples added in time order stay in order.** -/
theorem run_added [DecidableEq C] (hcls : ByDirection cls) (limit : ℚ) {lives : List Live}
    (htime : lives.Pairwise fun a b => a.t ≤ b.t)
    (htogether : Together cls (lives.map fun live => key live.sample)) :
    Added cls lives (run limit lives).items := by
  induction lives using List.reverseRecOn with
  | nil => exact ⟨.nil, .refl _, List.forall_mem_nil _⟩
  | append_singleton lives live ih =>
    have hlives : Added cls lives (run limit lives).items := by
      refine ih (List.pairwise_append.mp htime).1 (htogether.sublist ?_)
      exact (List.sublist_append_left _ _).map _
    rw [run_concat]
    exact fit_keeps (Added cls (lives ++ [live]))
      (fun items group grid horizon strict h => fold_added hcls h group grid horizon strict)
      (insert_added hlives htime htogether)

end ThroughputSeries

end Order

end GraphiteMeter.Browser.Series
