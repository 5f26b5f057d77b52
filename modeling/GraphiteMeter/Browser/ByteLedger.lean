import GraphiteMeter.Browser.ByteReports

/-!
# What byte reports count

A `World` keeps every count and, at every reading, how many counts came before it. `cut` is where a new
epoch begins among them: at the latest reading by its time. `Tracks` says that the totals, through the
subtractions of every epoch, are the bytes counted since there.
-/

namespace GraphiteMeter.Browser.Bytes

open ByteReports (Call)

/-- Bytes counted at a time. -/
structure Count where
  at_ : ℚ
  bytes : ℕ
deriving DecidableEq

/-- A reading, and how many counts came before it. -/
structure Mark where
  at_ : ℚ
  counted : ℕ
deriving DecidableEq

def sumBytes (counts : List Count) : ℤ := (counts.map fun c => (c.bytes : ℤ)).sum

/-- The reports, and what they were told. The first `begun` counts came before the epoch. -/
structure World where
  reports : ByteReports
  counts : List Count
  marks : List Mark
  begun : ℕ
  clock : ℚ

namespace World

def new (now : ℚ) : World := ⟨.new now, [], [], 0, now⟩

/-- The counts of the epoch. -/
def epoch (w : World) : List Count := w.counts.drop w.begun

/-- Where a new epoch begins: after every count by `at_`, else at the latest reading kept by then, else
at the earliest one kept, or where the last epoch began if none was lost. -/
def cut (w : World) (at_ : ℚ) : ℕ :=
  let kept := w.marks.reverse.take totals
  if w.counts.getLast?.all (·.at_ ≤ at_) then w.counts.length
  else
    match kept.find? (·.at_ ≤ at_) with
    | some mark => mark.counted
    | none =>
      if w.marks.length ≤ totals then w.begun else (kept.getLast?.map (·.counted)).getD w.begun

/-- The clock read `now`; a reading taken then is marked. -/
def read (w : World) (now : ℚ) (reports : ByteReports) (counts : List Count) : World :=
  { w with
    reports, counts, clock := now
    marks := if reports.taken = w.reports.taken then w.marks else w.marks ++ [⟨now, counts.length⟩] }

def call (w : World) : Call → World
  | .share reporters => { w with reports := w.reports.share reporters }
  | .count bytes now => w.read now (w.reports.count bytes now) (w.counts ++ [⟨now, bytes⟩])
  | .flush now => w.read now (w.reports.flush now) w.counts
  | .measure epoch at_ =>
    { w with
      reports := w.reports.measure epoch at_
      begun := if epoch = w.reports.epoch then w.begun else w.cut at_ }
  | .edgesFrom at_ => { w with reports := w.reports.edgesFrom at_ }

/-- The clock never goes back, and where edges begin, no byte of the epoch was counted past the first
of them. -/
def Allowed (w : World) : Call → Prop
  | .count _ now | .flush now => w.clock ≤ now
  | .edgesFrom at_ =>
    w.reports.opened ≠ some at_ → ∀ c ∈ w.epoch, 0 < c.bytes → c.at_ ≤ at_ + edgeMs
  | _ => True

end World

/-! ## Totals of counts -/

@[simp] theorem sumBytes_nil : sumBytes [] = 0 := rfl

@[simp] theorem sumBytes_append (l l' : List Count) :
    sumBytes (l ++ l') = sumBytes l + sumBytes l' := by
  simp [sumBytes]

@[simp] theorem sumBytes_singleton (c : Count) : sumBytes [c] = c.bytes := by
  simp [sumBytes]

/-- What is behind a prefix adds up to the difference. -/
theorem sumBytes_drop (l : List Count) (n : ℕ) :
    sumBytes (l.drop n) = sumBytes l - sumBytes (l.take n) := by
  have h := sumBytes_append (l.take n) (l.drop n)
  rw [List.take_append_drop] at h
  linarith

/-- Updating two functions updates their pair. -/
theorem update_pair {ι α β : Type*} [DecidableEq ι] (f : ι → α) (g : ι → β) (i : ι) (x : α) (y : β) :
    Function.update (fun s => (f s, g s)) i (x, y) =
      fun s => (Function.update f i x s, Function.update g i y s) := by
  funext s
  by_cases hs : s = i
  · subst hs
    simp only [Function.update_self]
  · simp only [Function.update_of_ne hs]

/-! ## What each function of the reports changes -/

/-- Passing the time changes the edges alone. -/
theorem ByteReports.pass_eq (r : ByteReports) (now : ℚ) :
    ∃ edge edges, r.pass now = { r with edge, edges } := by
  unfold ByteReports.pass
  split
  · exact ⟨r.edge, r.edges, rfl⟩
  · exact ⟨_, _, rfl⟩

@[simp] theorem ByteReports.pass_taken (r : ByteReports) (now : ℚ) :
    (r.pass now).taken = r.taken := by
  obtain ⟨edge, edges, heq⟩ := r.pass_eq now
  rw [heq]

/-- The totals and the ring of readings are those of the counts since the epoch began. -/
structure Tracks (r : ByteReports) (counts : List Count) (marks : List Mark) (begun : ℕ) : Prop where
  total : r.total = sumBytes (counts.drop begun)
  last : r.last = counts.getLast?.map (·.at_)
  taken : r.taken = marks.length
  ring : RingLog.Holds (fun s => (r.times s, r.totals s))
    (marks.map fun m => (m.at_, sumBytes (counts.take m.counted) - sumBytes (counts.take begun)))
  counted : ∀ m ∈ marks, m.counted ≤ counts.length
  begun_le : begun ≤ counts.length

namespace Tracks

variable {r : ByteReports} {counts : List Count} {marks : List Mark} {begun : ℕ}

/-- New reports track an empty log. -/
theorem new (now : ℚ) : Tracks (.new now) [] [] 0 :=
  ⟨rfl, rfl, rfl, .nil, List.forall_mem_nil _, le_rfl⟩

/-- Passing the time keeps the track. -/
theorem pass (h : Tracks r counts marks begun) (now : ℚ) :
    Tracks (r.pass now) counts marks begun := by
  obtain ⟨edge, edges, heq⟩ := r.pass_eq now
  rw [heq]
  exact ⟨h.total, h.last, h.taken, h.ring, h.counted, h.begun_le⟩

/-- Sending keeps the track. -/
theorem send (h : Tracks r counts marks begun) (now : ℚ) :
    Tracks (r.send now) counts marks begun :=
  ⟨h.total, h.last, h.taken, h.ring, h.counted, h.begun_le⟩

/-- A count is tracked as it is added. -/
theorem add (h : Tracks r counts marks begun) (c : Count) :
    Tracks (r.add c.bytes c.at_) (counts ++ [c]) marks begun where
  total := by
    rw [List.drop_append_of_le_length h.begun_le, sumBytes_append, sumBytes_singleton, ← h.total]
    rfl
  last := by
    rw [List.getLast?_concat]
    rfl
  taken := h.taken
  ring := by
    have hmarks : (marks.map fun m => (m.at_, sumBytes ((counts ++ [c]).take m.counted)
        - sumBytes ((counts ++ [c]).take begun))) =
        marks.map fun m => (m.at_, sumBytes (counts.take m.counted) - sumBytes (counts.take begun)) := by
      refine List.map_congr_left fun m hm => ?_
      rw [List.take_append_of_le_length (h.counted m hm), List.take_append_of_le_length h.begun_le]
    rw [hmarks]
    exact h.ring
  counted m hm := (h.counted m hm).trans (by simp)
  begun_le := h.begun_le.trans (by simp)

/-- A reading that is taken is one of everything counted. -/
theorem keep (h : Tracks r counts marks begun) (now : ℚ) (reported : Bool) :
    Tracks (r.keep now reported) counts
      (if (r.keep now reported).taken = r.taken then marks else marks ++ [⟨now, counts.length⟩])
      begun := by
  unfold ByteReports.keep
  split
  · rw [if_pos rfl]
    exact h
  · rw [if_neg (Nat.succ_ne_self r.taken)]
    refine ⟨h.total, h.last, ?_, ?_, ?_, h.begun_le⟩
    · rw [List.length_append, ← h.taken]
      rfl
    · have hpush := h.ring.push (now, r.total)
      rw [List.length_map, ← h.taken] at hpush
      rw [List.map_append, List.map_singleton, List.take_length, ← sumBytes_drop, ← h.total]
      rw [update_pair] at hpush
      exact hpush
    · intro m hm
      rcases List.mem_append.mp hm with hm | hm
      · exact h.counted m hm
      · rw [List.mem_singleton.mp hm]

/-- Flushing adds a mark when it takes a total. -/
theorem flush (h : Tracks r counts marks begun) (now : ℚ) :
    Tracks (r.flush now) counts
      (if (r.flush now).taken = r.taken then marks else marks ++ [⟨now, counts.length⟩]) begun := by
  have hkeep := ((h.pass now).send now).keep now true
  have hsent : ((r.pass now).send now).taken = r.taken := r.pass_taken now
  rw [hsent] at hkeep
  exact hkeep

/-- Counting adds to the log, and a mark when it takes a total. -/
theorem count (h : Tracks r counts marks begun) (bytes : ℕ) (now : ℚ) :
    Tracks (r.count bytes now) (counts ++ [⟨now, bytes⟩])
      (if (r.count bytes now).taken = r.taken then marks
        else marks ++ [⟨now, (counts ++ [(⟨now, bytes⟩ : Count)]).length⟩]) begun := by
  have hadd := (h.pass now).add ⟨now, bytes⟩
  have htaken : ((r.pass now).add bytes now).taken = r.taken := r.pass_taken now
  unfold ByteReports.count
  dsimp only
  rw [← htaken]
  split
  · exact hadd.flush now
  · exact hadd.keep now false

/-- The kept totals are those at the latest marks, newest first. -/
theorem map_kept (h : Tracks r counts marks begun) :
    (List.range' 1 (min r.taken totals)).map (fun back =>
        (r.times (slot (r.taken - back)), r.totals (slot (r.taken - back)))) =
      (marks.reverse.take totals).map fun m =>
        (m.at_, sumBytes (counts.take m.counted) - sumBytes (counts.take begun)) := by
  have hback := h.ring.map_back
  rw [List.length_map, ← h.taken] at hback
  rw [List.map_take, List.map_reverse]
  exact hback

end Tracks

namespace World

/-- The total found for a time is what was counted, since the epoch began, where `cut` cuts. -/
theorem totalAt_eq {w : World} (h : Tracks w.reports w.counts w.marks w.begun) (at_ : ℚ) :
    (w.reports.totalAt at_).total =
      sumBytes (w.counts.take (w.cut at_)) - sumBytes (w.counts.take w.begun) := by
  have hlast : w.reports.last.all (· ≤ at_) = w.counts.getLast?.all (·.at_ ≤ at_) := by
    rw [h.last, Option.all_map]
  unfold ByteReports.totalAt cut
  dsimp only
  rw [hlast]
  split
  case isTrue =>
    rw [List.take_length, ← sumBytes_drop]
    exact h.total
  case isFalse =>
    have hfind := congrArg (List.find? fun x : ℚ × ℤ => x.1 ≤ at_) h.map_kept
    rw [List.find?_map, List.find?_map] at hfind
    simp only [Function.comp_def] at hfind
    -- Both look back through the same readings.
    match hback : (List.range' 1 (min w.reports.taken totals)).find? fun back =>
        w.reports.times (slot (w.reports.taken - back)) ≤ at_,
      hmark : (w.marks.reverse.take totals).find? (·.at_ ≤ at_) with
    | some back, some mark =>
      rw [hback, hmark] at hfind
      simp only [Option.map_some, Option.some.injEq, Prod.mk.injEq] at hfind
      rw [hmark]
      exact hfind.2
    | some back, none =>
      rw [hback, hmark] at hfind
      cases hfind
    | none, some mark =>
      rw [hback, hmark] at hfind
      cases hfind
    | none, none =>
      rw [hmark]
      dsimp only
      rw [h.taken]
      split
      case isTrue => exact (sub_self _).symm
      case isFalse hfull =>
        have holdest := h.ring.oldest (by rw [List.length_map]; omega)
        rw [List.length_map, ← List.map_reverse, ← List.map_take, List.getLast?_map] at holdest
        obtain ⟨mark, hlast, hmark⟩ := Option.map_eq_some_iff.mp holdest
        rw [hlast, Option.map_some, Option.getD_some]
        exact (congrArg Prod.snd hmark).symm

/-- A cut stays inside the log. -/
theorem cut_le {w : World} (h : Tracks w.reports w.counts w.marks w.begun) (at_ : ℚ) :
    w.cut at_ ≤ w.counts.length := by
  have hkept : ∀ m ∈ w.marks.reverse.take totals, m.counted ≤ w.counts.length := fun m hm =>
    h.counted m (List.mem_reverse.mp (List.mem_of_mem_take hm))
  unfold cut
  dsimp only
  split
  · exact le_rfl
  split
  case h_1 mark hmark => exact hkept mark (List.mem_of_find?_eq_some hmark)
  case h_2 =>
    split
    · exact h.begun_le
    · match hlast : (w.marks.reverse.take totals).getLast? with
      | none => exact h.begun_le
      | some mark => exact hkept mark (List.mem_of_getLast? hlast)

/-- A new epoch subtracts what came before it from the total and from every reading in use. -/
theorem tracks_measure {w : World} (h : Tracks w.reports w.counts w.marks w.begun) (epoch : ℕ)
    (at_ : ℚ) :
    Tracks (w.reports.measure epoch at_) w.counts w.marks
      (if epoch = w.reports.epoch then w.begun else w.cut at_) := by
  unfold ByteReports.measure
  dsimp only
  split
  · exact ⟨h.total, h.last, h.taken, h.ring, h.counted, h.begun_le⟩
  have hbefore := totalAt_eq h at_
  refine ⟨?_, h.last, h.taken, ?_, h.counted, cut_le h at_⟩
  · have hcut := sumBytes_drop w.counts (w.cut at_)
    have hold := h.total
    have hepoch := sumBytes_drop w.counts w.begun
    show w.reports.total - (w.reports.totalAt at_).total = _
    linarith
  · have hmarks : (w.marks.map fun m => (m.at_, sumBytes (w.counts.take m.counted)
        - sumBytes (w.counts.take (w.cut at_)))) =
        (w.marks.map fun m => (m.at_, sumBytes (w.counts.take m.counted)
          - sumBytes (w.counts.take w.begun))).map
          fun x => (x.1, x.2 - (w.reports.totalAt at_).total) := by
      rw [List.map_map, hbefore]
      exact List.map_congr_left fun m _ => Prod.ext rfl (sub_sub_sub_cancel_right _ _ _).symm
    rw [hmarks]
    refine h.ring.map fun s hs => Prod.ext rfl ?_
    rw [List.length_map, ← h.taken] at hs
    exact if_pos hs

/-- The totals are those of what was counted, none of it after the clock. -/
structure Sound (w : World) : Prop where
  tracks : Tracks w.reports w.counts w.marks w.begun
  clock : ∀ c ∈ w.counts, c.at_ ≤ w.clock

/-- A new world is sound. -/
theorem new_sound (now : ℚ) : (World.new now).Sound := ⟨.new now, List.forall_mem_nil _⟩

/-- **One call** keeps the totals. -/
theorem call_sound {w : World} (h : w.Sound) {c : Call} (hallowed : w.Allowed c) :
    (w.call c).Sound := by
  have hold : ∀ {now : ℚ}, w.clock ≤ now → ∀ c ∈ w.counts, c.at_ ≤ now := fun hnow c hc =>
    (h.clock c hc).trans hnow
  cases c with
  | share reporters =>
    exact ⟨⟨h.tracks.total, h.tracks.last, h.tracks.taken, h.tracks.ring, h.tracks.counted,
      h.tracks.begun_le⟩, h.clock⟩
  | count bytes now =>
    have hnow : ∀ c ∈ w.counts ++ [⟨now, bytes⟩], c.at_ ≤ now :=
      List.forall_mem_append.mpr ⟨hold hallowed, by simp⟩
    exact ⟨h.tracks.count bytes now, hnow⟩
  | flush now => exact ⟨h.tracks.flush now, hold hallowed⟩
  | measure epoch at_ => exact ⟨tracks_measure h.tracks epoch at_, h.clock⟩
  | edgesFrom at_ =>
    refine ⟨?_, h.clock⟩
    show Tracks (w.reports.edgesFrom at_) _ _ _
    unfold ByteReports.edgesFrom
    split
    · exact h.tracks
    · exact ⟨h.tracks.total, h.tracks.last, h.tracks.taken, h.tracks.ring, h.tracks.counted,
        h.tracks.begun_le⟩

end World

end GraphiteMeter.Browser.Bytes
