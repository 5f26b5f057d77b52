import GraphiteMeter.Measure.Browser.Window

/-!
# What the browser keeps of the intervals it lets go

Reference: `client/src/engine/measure/aggregate.ts` (`#keep`, `begin`, `settle`, `serverResult`).

`keep` writes what an evicted interval measured over what earlier ones did, so of every direction and
every server the latest evicted result stands. That is what the intervals would still answer, had they
stayed.
-/

namespace GraphiteMeter.Measure.Browser

/-! ## Writing over -/

section Writes

variable {κ α β : Type*} {f : α → Option β}

/-- Writes at one key, one over the other: the last one stands. -/
theorem foldl_writes {step : (κ → Option β) → α → κ → Option β} {key : κ}
    (h : ∀ m a, step m a key = (f a).or (m key)) (m : κ → Option β) (as : List α) :
    as.foldl step m key = (as.reverse.findSome? f).or (m key) := by
  induction as generalizing m with
  | nil => rfl
  | cons a as ih =>
    rw [List.foldl_cons, ih, h, List.reverse_cons, List.findSome?_append, List.findSome?_singleton,
      Option.or_assoc]

/-- A search finds what all that answer agree on. -/
theorem findSome?_of_agree {l : List α} {a : α} {b : β} (ha : a ∈ l) (hb : f a = some b)
    (h : ∀ x ∈ l, ∀ y, f x = some y → y = b) : l.findSome? f = some b := by
  match hfound : l.findSome? f with
  | none =>
    have hnone := List.findSome?_eq_none_iff.mp hfound a ha
    rw [hb] at hnone
    cases hnone
  | some y =>
    obtain ⟨x, hx, hy⟩ := List.exists_of_findSome?_eq_some hfound
    rw [h x hx y hy]

/-- A search where only one element may answer. -/
theorem findSome?_of_only {l : List α} {a : α} (ha : a ∈ l) (h : ∀ x ≠ a, f x = none) :
    l.findSome? f = f a := by
  have hother : ∀ x y, f x = some y → x = a := by
    intro x y hy
    by_contra hne
    rw [h x hne] at hy
    cases hy
  cases hvalue : f a with
  | none =>
    refine List.findSome?_eq_none_iff.mpr fun x _ => Option.eq_none_iff_forall_ne_some.mpr ?_
    intro y hy
    rw [hother x y hy, hvalue] at hy
    cases hy
  | some b =>
    refine findSome?_of_agree ha hvalue fun x _ y hy => ?_
    rw [hother x y hy, hvalue] at hy
    exact (Option.some.inj hy).symm

/-- What is found among the filtered is found past the others. -/
theorem findSome?_filter (p : α → Bool) (l : List α) :
    (l.filter p).findSome? f = l.findSome? fun a => if p a then f a else none := by
  induction l with
  | nil => rfl
  | cons a l ih =>
    rw [List.filter_cons, List.findSome?_cons]
    split
    · rw [List.findSome?_cons, ih]
    · exact ih

end Writes

/-! ## Keeping one interval -/

/-- A headline as it is kept. -/
def Headline.kept (h : Headline) : Kept :=
  ⟨some h.window, h.result.reportedBytesPerSec, h.result.peakBytesPerSec⟩

/-- A server's result as it is kept. -/
def ThroughputResult.kept (r : ThroughputResult) : Kept :=
  ⟨none, r.reportedBytesPerSec, r.peakBytesPerSec⟩

/-- The full window is one for the participants, where there is one. -/
def Full (stage : Stage) (ids : List ServerId) (full : Option AggregateWindow) : Prop :=
  ∀ w, full = some w → ∃ first last, Spans first last stage ids w

/-- What an interval has to keep under a key. -/
def keeps (key : Key) (record : Interval) : Option Kept :=
  if record.stage = key.stage then
    match key.server with
    | none => (headline key.direction record).map Headline.kept
    | some id => (serverHeadline id key.direction record).map ThroughputResult.kept
  else none

namespace Aggregate

variable {record : Interval} {full : AggregateWindow}

/-- A component keeps its server's share. -/
def sharesOf (stage : Stage) (dir : Direction) (peaks : Peaks) (key : Key) (c : ComponentWindow) :
    Option Kept :=
  if key = ⟨stage, dir, some c.serverId⟩ ∧ c.bytes ≠ 0 ∧ minEvidenceMs ≤ c.durationMs then
    some ⟨none, c.bytesPerSec, max ((peaks c.serverId).get dir) c.bytesPerSec⟩
  else none

/-- Keeping a component changes its own key alone. -/
theorem keepComponent_apply (stage : Stage) (dir : Direction) (peaks : Peaks)
    (kept : Key → Option Kept) (c : ComponentWindow) (key : Key) :
    keepComponent stage dir peaks kept c key = (sharesOf stage dir peaks key c).or (kept key) := by
  unfold keepComponent sharesOf
  by_cases henough : c.bytes ≠ 0 ∧ minEvidenceMs ≤ c.durationMs
  · rw [if_pos henough, Function.update_apply]
    by_cases hkey : key = ⟨stage, dir, some c.serverId⟩
    · rw [if_pos hkey, if_pos ⟨hkey, henough⟩, Option.some_or]
    · rw [if_neg hkey, if_neg fun h => hkey h.1, Option.none_or]
  · rw [if_neg henough, if_neg fun h => henough h.2, Option.none_or]

/-- The first component of a server and the last one qualify alike, as they are equal. -/
theorem shares_eq {stage : Stage} {dir : Direction} {id : ServerId} (peaks : Peaks)
    {cs : List ComponentWindow}
    (hunique : ∀ c ∈ cs, ∀ d ∈ cs, c.serverId = d.serverId → c = d) :
    cs.reverse.findSome? (sharesOf stage dir peaks ⟨stage, dir, some id⟩) =
      match cs.find? fun c => c.serverId = id with
      | none => none
      | some c =>
        if c.bytes ≠ 0 ∧ minEvidenceMs ≤ c.durationMs then
          some ⟨none, c.bytesPerSec, max ((peaks id).get dir) c.bytesPerSec⟩
        else none := by
  have hother : ∀ c : ComponentWindow, c.serverId ≠ id →
      sharesOf stage dir peaks ⟨stage, dir, some id⟩ c = none := by
    intro c hne
    refine if_neg fun h => hne ?_
    simpa using h.1.symm
  cases hfound : cs.find? fun c => c.serverId = id with
  | none =>
    refine List.findSome?_eq_none_iff.mpr fun c hc => hother c ?_
    simpa using List.find?_eq_none.mp hfound c (List.mem_reverse.mp hc)
  | some c =>
    have hc := List.mem_of_find?_eq_some hfound
    have hid : c.serverId = id := by simpa using List.find?_some hfound
    have hall : ∀ d ∈ cs.reverse, ∀ share,
        sharesOf stage dir peaks ⟨stage, dir, some id⟩ d = some share → d = c := by
      intro d hd share hshare
      by_cases hd_id : d.serverId = id
      · exact hunique d (List.mem_reverse.mp hd) c hc (hd_id.trans hid.symm)
      · rw [hother d hd_id] at hshare
        cases hshare
    simp only
    by_cases henough : c.bytes ≠ 0 ∧ minEvidenceMs ≤ c.durationMs
    · have hshare : sharesOf stage dir peaks ⟨stage, dir, some id⟩ c
          = some ⟨none, c.bytesPerSec, max ((peaks id).get dir) c.bytesPerSec⟩ := by
        rw [sharesOf, if_pos ⟨by rw [hid], henough⟩, hid]
      rw [if_pos henough]
      refine findSome?_of_agree (List.mem_reverse.mpr hc) hshare fun d hd share hd_share => ?_
      rw [hall d hd share hd_share, hshare] at hd_share
      exact (Option.some.inj hd_share).symm
    · rw [if_neg henough]
      refine List.findSome?_eq_none_iff.mpr fun d hd => ?_
      match hd_share : sharesOf stage dir peaks ⟨stage, dir, some id⟩ d with
      | none => rfl
      | some share =>
        rw [hall d hd share hd_share, sharesOf, if_neg fun h => henough h.2] at hd_share
        cases hd_share

/-- What one direction of a full window keeps. -/
def directionKeeps (record : Interval) (full : AggregateWindow) (key : Key) (dir : Direction) :
    Option Kept :=
  if record.stage = key.stage ∧ dir = key.direction then
    match key.server with
    | none =>
      let rate := (full.bytesPerSec.get dir).getD 0
      if rate ≠ 0 ∧ sufficient full dir then
        some ⟨some full, rate, max ((record.peaks combined).get dir) rate⟩
      else none
    | some id =>
      match ((full.components.get dir).getD []).find? fun c => c.serverId = id with
      | none => none
      | some c =>
        if c.bytes ≠ 0 ∧ minEvidenceMs ≤ c.durationMs then
          some ⟨none, c.bytesPerSec, max ((record.peaks id).get dir) c.bytesPerSec⟩
        else none
  else none

/-- Keeping a direction changes its own keys alone. -/
theorem keepDirection_apply {first last : Boundary} {ids : List ServerId}
    (h : Spans first last record.stage ids full) (kept : Key → Option Kept) (dir : Direction)
    (key : Key) :
    keepDirection record full kept dir key = (directionKeeps record full key dir).or (kept key) := by
  obtain ⟨stage, direction, server⟩ := key
  unfold keepDirection directionKeeps
  simp only
  rw [foldl_writes fun m c => keepComponent_apply record.stage dir record.peaks m c _]
  cases server with
  | none =>
    -- No component is kept under the key of all servers.
    have hshares : ∀ c : ComponentWindow,
        sharesOf record.stage dir record.peaks ⟨stage, direction, none⟩ c = none := by
      intro c
      exact if_neg (by simp)
    rw [List.findSome?_eq_none_iff.mpr fun c _ => hshares c, Option.none_or]
    by_cases henough : (full.bytesPerSec.get dir).getD 0 ≠ 0 ∧ sufficient full dir
    · rw [if_pos henough, if_pos henough, Function.update_apply]
      by_cases hkey : record.stage = stage ∧ dir = direction
      · rw [if_pos hkey, if_pos (by rw [hkey.1, hkey.2]), Option.some_or]
      · rw [if_neg hkey, if_neg, Option.none_or]
        intro heq
        cases heq
        exact hkey ⟨rfl, rfl⟩
    · rw [if_neg henough, if_neg henough, ite_self, Option.none_or]
  | some id =>
    have hkept : (if (full.bytesPerSec.get dir).getD 0 ≠ 0 ∧ sufficient full dir then
        Function.update kept ⟨record.stage, dir, none⟩
          (some ⟨some full, (full.bytesPerSec.get dir).getD 0,
            max ((record.peaks combined).get dir) ((full.bytesPerSec.get dir).getD 0)⟩)
        else kept) ⟨stage, direction, some id⟩ = kept ⟨stage, direction, some id⟩ := by
      split
      · exact Function.update_of_ne (by simp) _ _
      · rfl
    rw [hkept]
    congr 1
    by_cases hkey : record.stage = stage ∧ dir = direction
    · rw [if_pos hkey]
      obtain ⟨hstage, rfl⟩ := hkey
      rw [← hstage]
      apply shares_eq
      intro c hc d hd hid
      by_cases hdir : dir ∈ directions record.stage
      · obtain ⟨cs, hcs, hcomponents, -⟩ := h.moved dir hdir
        rw [hcomponents] at hc hd
        exact component_unique hcs hc hd hid
      · rw [(h.idle dir hdir).1] at hc
        cases hc
    · rw [if_neg hkey]
      refine List.findSome?_eq_none_iff.mpr fun c _ => if_neg fun h => hkey ?_
      have heq := h.1
      cases heq
      exact ⟨rfl, rfl⟩

/-- A direction the stage moves keeps the interval's headlines in it. -/
theorem directionKeeps_self {first last : Boundary} {ids : List ServerId} {stage : Stage}
    {direction : Direction} (h : Spans first last record.stage ids full)
    (hfull : record.full = some full) (hcomplete : record.complete = true)
    (hstage : record.stage = stage) (hdir : direction ∈ directions record.stage)
    (server : Option ServerId) :
    directionKeeps record full ⟨stage, direction, server⟩ direction
      = keeps ⟨stage, direction, server⟩ record := by
  obtain ⟨cs, -, hcomponents, hrate⟩ := h.moved direction hdir
  rw [directionKeeps, if_pos ⟨hstage, rfl⟩, keeps, if_pos hstage]
  cases server with
  | none =>
    simp only [headline, hfull, hcomplete, hrate, if_true, Option.getD_some]
    split <;> rfl
  | some id =>
    simp only [serverHeadline, hfull, hcomplete, hcomponents, if_true, Option.getD_some,
      Option.bind_some]
    cases cs.find? fun c => c.serverId = id with
    | none => rfl
    | some c =>
      simp only
      split <;> rfl

/-- An interval's directions keep its headlines. -/
theorem directionKeeps_eq {first last : Boundary} {ids : List ServerId}
    (h : Spans first last record.stage ids full) (hfull : record.full = some full)
    (hcomplete : record.complete = true) (key : Key) :
    (directions record.stage).reverse.findSome? (directionKeeps record full key)
      = keeps key record := by
  obtain ⟨stage, direction, server⟩ := key
  by_cases hstage : record.stage = stage
  case neg =>
    rw [keeps, if_neg hstage]
    exact List.findSome?_eq_none_iff.mpr fun dir _ => if_neg fun h => hstage h.1
  have hother : ∀ dir ≠ direction,
      directionKeeps record full ⟨stage, direction, server⟩ dir = none := by
    intro dir hne
    exact if_neg fun h => hne h.2
  by_cases hdir : direction ∈ directions record.stage
  · rw [findSome?_of_only (List.mem_reverse.mpr hdir) hother,
      directionKeeps_self h hfull hcomplete hstage hdir]
  · -- The stage does not move this direction, so the window holds nothing of it.
    obtain ⟨hcomponents, hrate⟩ := h.idle direction hdir
    have hleft : ∀ dir ∈ (directions record.stage).reverse,
        directionKeeps record full ⟨stage, direction, server⟩ dir = none := by
      intro dir hmem
      apply hother
      rintro rfl
      exact hdir (List.mem_reverse.mp hmem)
    rw [List.findSome?_eq_none_iff.mpr hleft, keeps, if_pos hstage]
    cases server with
    | none => simp only [headline, hfull, hcomplete, hrate, if_true, Option.map_none]
    | some id =>
      simp only [serverHeadline, hfull, hcomplete, hcomponents, if_true, Option.bind_some,
        Option.map_none]

/-- **An evicted interval's headlines are kept over those of earlier ones.** -/
theorem keep_apply (h : Full record.stage record.participants record.full)
    (kept : Key → Option Kept) (key : Key) :
    keep kept record key = (keeps key record).or (kept key) := by
  unfold keep
  match hfull : record.full with
  | none =>
    have hnone : keeps key record = none := by
      simp only [keeps, headline, serverHeadline, hfull]
      split
      · split
        · rfl
        · simp
      · rfl
    rw [hnone, Option.none_or]
  | some full =>
    simp only
    by_cases hcomplete : record.complete = true
    · obtain ⟨first, last, hspans⟩ := h full hfull
      rw [if_pos hcomplete, foldl_writes fun m dir => keepDirection_apply hspans m dir key,
        directionKeeps_eq hspans hfull hcomplete]
    · have hnone : keeps key record = none := by
        simp only [keeps, headline, serverHeadline, hfull, if_neg hcomplete]
        split
        · split <;> rfl
        · rfl
      rw [if_neg hcomplete, hnone, Option.none_or]

end Aggregate

end GraphiteMeter.Measure.Browser
