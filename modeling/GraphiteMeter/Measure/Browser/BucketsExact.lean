import GraphiteMeter.Measure.Browser.Buckets

/-!
# Each outcome in one bucket

Reference: `client/src/engine/measure/buckets.ts`. Between a restart and the next flush the buckets
made are cells of the grid, later ones after earlier ones, and each holds the outcomes counted so far
that fall in its cell (`Sound`). The closed ones kept are the cells right before the pending one, back
to the horizon or the first bucket, so an outcome no older than that is counted. `Logged` is what was
emitted: of every bucket that closed, and was not revised since, the last version holds all. Times are
exact here: on doubles a bucket at the horizon may be lost (`buckets_drop_late`).
-/

namespace GraphiteMeter.Measure.Browser.Buckets

open Rounding (Numbers Double)

/-! ## Runs -/

section Runs

variable {K : Type} [Numbers K]

inductive Call (K : Type := ℚ) where
  | observe (o : Outcome K)
  | closeThrough (t : K)
deriving DecidableEq, Repr

def Call.t : Call K → K
  | .observe o => o.t
  | .closeThrough t => t

/-- How a line of buckets begins. -/
inductive Opening (K : Type := ℚ) [Numbers K] where
  | reset (t : K) (phase : Phase) (continuity : ℕ) (intervalMs : Option (Interval K)) (warmup : Bool)
  | restart (t : K) (continuity : ℕ)

namespace LatencyBuckets

def opened (s : LatencyBuckets K) : Opening K → LatencyBuckets K
  | .reset t phase continuity intervalMs warmup => s.reset t phase continuity intervalMs warmup
  | .restart t continuity => s.restart t continuity

def call (s : LatencyBuckets K) : Call K → LatencyBuckets K × List (Emission K)
  | .observe o => s.observe o
  | .closeThrough t => s.closeThrough t

def run (s : LatencyBuckets K) : List (Call K) → LatencyBuckets K × List (Emission K)
  | [] => (s, [])
  | c :: rest =>
    let (s, emitted) := s.call c
    let (s, more) := s.run rest
    (s, emitted ++ more)

/-- All that is emitted to the flush. -/
def emitted (s : LatencyBuckets K) (calls : List (Call K)) (atT : K) : List (Emission K) :=
  (s.run calls).2 ++ ((s.run calls).1.flush atT).2

/-- The outcome of a call, if a bucket counts it. -/
def takes (s : LatencyBuckets K) : Call K → List (Outcome K)
  | .observe o => ((s.close o.t).1.target o.t).toList.map fun _ => o
  | .closeThrough _ => []

/-- The outcomes that a bucket counts. -/
def taken (s : LatencyBuckets K) : List (Call K) → List (Outcome K)
  | [] => []
  | c :: rest => s.takes c ++ (s.call c).1.taken rest

/-- Where the first bucket starts. -/
def firstT (s : LatencyBuckets K) : K := s.pendingOpen.elim 0 Open.startT

end LatencyBuckets

end Runs

/-! ## The loop of `close` -/

namespace LatencyBuckets

@[simp] theorem pendingOpen_openAt (s : LatencyBuckets) (startT : ℚ) :
    (s.openAt startT).pendingOpen = some ⟨startT, [], 0, 0⟩ := by
  simp [openAt, pendingOpen]

/-- A bucket that opens by `t`, a width or more after the pending one, is less far behind. -/
theorem behind_openAt {s s' : LatencyBuckets} {pending : Open} {t startT : ℚ}
    (h : s.pendingOpen = some pending) (hgrid : s'.grid = s.grid)
    (hend : s.endT pending ≤ t) (hstart : s.endT pending ≤ startT) :
    (s'.openAt startT).behind t < s.behind t := by
  have hpos := s.grid.width_pos
  rw [Line.endT] at hend hstart
  have hle : (t - startT) / s.grid.width ≤ (t - pending.startT) / s.grid.width - 1 := by
    rw [div_sub_one hpos.ne', div_le_div_iff_of_pos_right hpos]
    linarith
  have hone : 1 ≤ (t - pending.startT) / s.grid.width := by
    rw [le_div_iff₀ hpos]
    linarith
  have hceil := Int.ceil_mono hle
  have hceil' := Int.ceil_mono hone
  rw [Int.ceil_sub_one] at hceil
  rw [Int.ceil_one] at hceil'
  rw [behind, behind, h, pendingOpen_openAt]
  simp only [openAt, hgrid, Numbers.ceil_rat]
  omega

/-- Skipping empty buckets brings the series closer. -/
theorem behind_skip {s : LatencyBuckets} {pending : Open} {t : ℚ} (h : s.pendingOpen = some pending)
    (hend : s.endT pending ≤ t) (hskip : 0 < s.skipped pending t) :
    (s.skip pending (s.skipped pending t)).behind t < s.behind t := by
  refine @behind_openAt s { s with closed := [] } pending t _ h rfl hend ?_
  have hone : (1 : ℚ) ≤ s.skipped pending t := by exact_mod_cast hskip
  rw [Line.endT, Numbers.near_rat]
  nlinarith [s.grid.width_pos]

/-- Closing a bucket brings the series closer. -/
theorem behind_shut {s : LatencyBuckets} {pending : Open} {t : ℚ} (h : s.pendingOpen = some pending)
    (hend : s.endT pending ≤ t) : (s.shut pending).behind t < s.behind t :=
  @behind_openAt s { s with closed := _ } pending t _ h rfl hend le_rfl

/-- More passes than widths behind do as well as one more. -/
theorem closeIn_eq {n : ℕ} {s : LatencyBuckets} {t : ℚ} (h : s.behind t < n) :
    closeIn n s t = s.close t := by
  induction n using Nat.strong_induction_on generalizing s with
  | _ n ih =>
    obtain ⟨n, rfl⟩ := Nat.exists_eq_add_one_of_ne_zero (Nat.ne_zero_of_lt h)
    rw [close]
    match hb : s.behind t, hpending : s.pendingOpen with
    | b, none => simp only [closeIn, hpending]
    | b, some pending =>
      simp only [closeIn, hpending]
      by_cases hlt : t < s.endT pending
      · rw [if_pos hlt, if_pos hlt]
      rw [if_neg hlt, if_neg hlt]
      by_cases hskip : 0 < s.skipped pending t
      · have hless := behind_skip hpending (not_lt.mp hlt) hskip
        rw [if_pos hskip, if_pos hskip, ih n (lt_add_one n) (by omega), ih b (by omega) (by omega)]
      · have hless := behind_shut hpending (not_lt.mp hlt)
        rw [if_neg hskip, if_neg hskip, ih n (lt_add_one n) (by omega), ih b (by omega) (by omega)]

/-- The loop of `close`, as the code has it. -/
theorem close_of_pending {s : LatencyBuckets} {pending : Open} {t : ℚ}
    (h : s.pendingOpen = some pending) :
    s.close t =
      if t < s.endT pending then (s, [])
      else
        if 0 < s.skipped pending t then (s.skip pending (s.skipped pending t)).close t
        else
          (((s.shut pending).close t).1,
            (if pending.pings ≠ 0 then [s.emission pending (s.endT pending)] else [])
              ++ ((s.shut pending).close t).2) := by
  conv_lhs => rw [close, closeIn]
  simp only [h]
  by_cases hlt : t < s.endT pending
  · rw [if_pos hlt, if_pos hlt]
  rw [if_neg hlt, if_neg hlt]
  by_cases hskip : 0 < s.skipped pending t
  · rw [if_pos hskip, if_pos hskip, closeIn_eq (behind_skip h (not_lt.mp hlt) hskip)]
  · rw [if_neg hskip, if_neg hskip, closeIn_eq (behind_shut h (not_lt.mp hlt))]

end LatencyBuckets

/-! ## What a cell holds -/

/-- The outcomes of a cell. -/
def inCell (g : Grid) (k : ℤ) (taken : List Outcome) : List Outcome :=
  taken.filter fun o => g.cell o.t = k

/-- A cell's bucket: it counts each outcome, and keeps the RTTs of those that did not time out. -/
def tallied (g : Grid) (taken : List Outcome) (k : ℤ) : Open :=
  { startT := g.start k
    rtts := (inCell g k taken).filterMap fun o => if o.timedOut then none else o.rttMs.map (max 0)
    pings := (inCell g k taken).length
    timeouts := (inCell g k taken).countP Outcome.timedOut }

/-- The last version of a cell's bucket. -/
def lastVersion (g : Grid) (log : List Emission) (k : ℤ) : Option Emission :=
  (log.filter fun e => e.1.startT = g.start k).getLast?

section Cell

variable {g : Grid} {k : ℤ} {o : Outcome} {taken : List Outcome} {log more : List Emission}

/-- The outcomes of a bucket among more of them. -/
theorem inCell_append (g : Grid) (k : ℤ) (taken more : List Outcome) :
    inCell g k (taken ++ more) = inCell g k taken ++ inCell g k more :=
  List.filter_append _ _

/-- An outcome is in its bucket. -/
theorem inCell_ne_nil (h : o ∈ taken) : inCell g (g.cell o.t) taken ≠ [] :=
  List.ne_nil_of_mem (List.mem_filter.mpr ⟨h, decide_eq_true rfl⟩)

/-- Counting an outcome of a cell. -/
theorem record_tallied (g : Grid) (taken : List Outcome) (o : Outcome) :
    (tallied g taken (g.cell o.t)).record o = tallied g (taken ++ [o]) (g.cell o.t) := by
  have hcell : inCell g (g.cell o.t) [o] = [o] := List.filter_cons_of_pos (decide_eq_true rfl)
  obtain ⟨t, rttMs, timedOut⟩ := o
  rw [tallied, tallied, inCell_append, hcell, Open.record]
  cases timedOut <;> cases rttMs <;> simp

/-- An outcome elsewhere. -/
theorem tallied_of_ne (h : g.cell o.t ≠ k) : tallied g (taken ++ [o]) k = tallied g taken k := by
  have hcell : inCell g k [o] = [] := List.filter_cons_of_neg (by simpa using h)
  rw [tallied, tallied, inCell_append, hcell, List.append_nil]

/-- A bucket without pings has no outcomes. -/
theorem pings_tallied : (tallied g taken k).pings = 0 ↔ inCell g k taken = [] :=
  List.length_eq_zero_iff

/-- A later version replaces an earlier one. -/
theorem lastVersion_append (g : Grid) (log more : List Emission) (k : ℤ) :
    lastVersion g (log ++ more) k = (lastVersion g more k).or (lastVersion g log k) := by
  rw [lastVersion, List.filter_append, List.getLast?_append]
  rfl

/-- A bucket that was never emitted has no version. -/
theorem lastVersion_eq_none (h : ∀ e ∈ log, e.1.startT ≠ g.start k) : lastVersion g log k = none := by
  rw [lastVersion, List.getLast?_eq_none_iff, List.filter_eq_nil_iff]
  intro e he
  simpa using h e he

/-- Where all versions are the same, that is the last. -/
theorem lastVersion_eq_some {e : Emission} (he : e ∈ log) (hstart : e.1.startT = g.start k)
    (h : ∀ e' ∈ log, e'.1.startT = g.start k → e' = e) : lastVersion g log k = some e := by
  have hmem : e ∈ log.filter fun e => e.1.startT = g.start k :=
    List.mem_filter.mpr ⟨he, decide_eq_true hstart⟩
  rw [lastVersion, List.getLast?_eq_some_getLast (List.ne_nil_of_mem hmem)]
  obtain ⟨hlog, hlast⟩ := List.mem_filter.mp (List.getLast_mem (List.ne_nil_of_mem hmem))
  rw [h _ hlog (of_decide_eq_true hlast)]

/-- Other buckets leave a version as it is. -/
theorem lastVersion_append_of_ne (h : ∀ e ∈ more, e.1.startT ≠ g.start k) :
    lastVersion g (log ++ more) k = lastVersion g log k := by
  rw [lastVersion_append, lastVersion_eq_none h, Option.none_or]

end Cell

/-! ## What was emitted -/

/-- The version of a closed bucket that holds all. -/
def version (line : Line) (taken : List Outcome) (k : ℤ) : Option Emission :=
  if inCell line.grid k taken = [] then none
  else some (line.emission (tallied line.grid taken k) (line.endT (tallied line.grid taken k)))

/-- A version spans its bucket. -/
theorem of_mem_version {line : Line} {taken : List Outcome} {k : ℤ} {e : Emission}
    (h : e ∈ (version line taken k).toList) :
    e.1.startT = line.grid.start k ∧ e.1.endT = line.grid.start k + line.grid.width := by
  rw [version] at h
  split_ifs at h
  · cases h
  · rw [Option.toList_some, List.mem_singleton] at h
    rw [h]
    exact ⟨rfl, rfl⟩

/-- A version that is emitted is the last one. -/
theorem lastVersion_version (line : Line) (taken : List Outcome) (k : ℤ) :
    lastVersion line.grid (version line taken k).toList k = version line taken k := by
  match hversion : version line taken k with
  | none => rfl
  | some e =>
    have hmem : e ∈ (version line taken k).toList := by
      rw [hversion]
      exact List.mem_cons_self
    exact lastVersion_eq_some List.mem_cons_self (of_mem_version hmem).1
      fun _ he _ => List.mem_singleton.mp he

/-- Closed buckets were emitted with all they hold, but for the revised ones. -/
structure Logged (line : Line) (log : List Emission) (taken : List Outcome) (older : List ℤ)
    (revised : List ℕ) : Prop where
  holds : ∀ i ∈ revised, ∃ k, older[i]? = some k ∧ inCell line.grid k taken ≠ []
  last : ∀ i k, older[i]? = some k → i ∉ revised →
    lastVersion line.grid log k = version line taken k
  emitted : ∀ e ∈ log, ∃ k ∈ older, e.1.startT = line.grid.start k ∧
    e.1.endT = line.grid.start k + line.grid.width

namespace Logged

variable {line : Line} {log : List Emission} {taken : List Outcome} {older : List ℤ}
  {revised : List ℕ} {k : ℤ} {o : Outcome}

/-- A cell that no bucket is closed of has no version. -/
theorem eq_none (h : Logged line log taken older revised) (hk : k ∉ older) :
    lastVersion line.grid log k = none := by
  refine lastVersion_eq_none fun e he hstart => hk ?_
  obtain ⟨l, hl, hstart', -⟩ := h.emitted e he
  rwa [← line.grid.start_inj.mp (hstart'.symm.trans hstart)]

/-- Closing the next bucket emits what it holds. -/
theorem close (h : Logged line log taken older revised) (hk : k ∉ older) :
    Logged line (log ++ (version line taken k).toList) taken (older ++ [k]) revised where
  holds i hi := by
    obtain ⟨l, hl, hne⟩ := h.holds i hi
    obtain ⟨hlt, -⟩ := List.getElem?_eq_some_iff.mp hl
    exact ⟨l, by rwa [List.getElem?_append_left hlt], hne⟩
  last i l hl hi := by
    rcases Nat.lt_or_ge i older.length with hlt | hge
    · rw [List.getElem?_append_left hlt] at hl
      have hne : k ≠ l := fun heq => hk (heq ▸ List.mem_of_getElem? hl)
      rw [lastVersion_append_of_ne fun e he => ?_, h.last i l hl hi]
      rw [(of_mem_version he).1]
      exact fun heq => hne (line.grid.start_inj.mp heq)
    · rw [List.getElem?_append_right hge] at hl
      obtain rfl : l = k := List.mem_singleton.mp (List.mem_of_getElem? hl)
      rw [lastVersion_append, lastVersion_version, h.eq_none hk, Option.or_none]
  emitted e he := by
    rcases List.mem_append.mp he with he | he
    · obtain ⟨l, hl, hends⟩ := h.emitted e he
      exact ⟨l, List.mem_append_left _ hl, hends⟩
    · exact ⟨k, List.mem_append_right _ List.mem_cons_self, of_mem_version he⟩

/-- A report emits what the revised buckets hold. -/
theorem report (h : Logged line log taken older revised) (hnodup : older.Nodup) {opens : List Open}
    (hopens : ∀ (i : ℕ) k, older[i]? = some k → opens[i]? = some (tallied line.grid taken k)) :
    Logged line (log ++ (revised.filterMap fun i => opens[i]?).map fun bucket =>
      line.emission bucket (line.endT bucket)) taken older [] where
  holds := nofun
  last i k hk _ := by
    -- what is reported of a revised bucket is its version
    have hreport : ∀ e ∈ (revised.filterMap fun i => opens[i]?).map fun bucket =>
        line.emission bucket (line.endT bucket), ∃ j ∈ revised, ∃ l, older[j]? = some l ∧
          e.1.startT = line.grid.start l ∧ version line taken l = some e := by
      intro e he
      obtain ⟨bucket, hbucket, rfl⟩ := List.mem_map.mp he
      obtain ⟨j, hj, hopen⟩ := List.mem_filterMap.mp hbucket
      obtain ⟨l, hl, hne⟩ := h.holds j hj
      rw [hopens j l hl] at hopen
      cases hopen
      exact ⟨j, hj, l, hl, rfl, if_neg hne⟩
    by_cases hi : i ∈ revised
    · obtain ⟨l, hl, hne⟩ := h.holds i hi
      rw [hk] at hl
      cases hl
      have hversion : version line taken k = some _ := if_neg hne
      rw [lastVersion_append, hversion]
      refine congrArg (Option.or · _) (lastVersion_eq_some ?_ rfl ?_)
      · exact List.mem_map.mpr ⟨_, List.mem_filterMap.mpr ⟨i, hi, hopens i k hk⟩, rfl⟩
      · intro e he hstart
        obtain ⟨j, -, l, -, hstart', he'⟩ := hreport e he
        obtain rfl : l = k := line.grid.start_inj.mp (hstart'.symm.trans hstart)
        exact Option.some.inj (he'.symm.trans hversion)
    · rw [lastVersion_append_of_ne fun e he hstart => ?_, h.last i k hk hi]
      obtain ⟨j, hj, l, hl, hstart', -⟩ := hreport e he
      rw [line.grid.start_inj.mp (hstart'.symm.trans hstart), ← hk] at hl
      obtain ⟨hlt, -⟩ := List.getElem?_eq_some_iff.mp (hl.trans hk)
      exact hi ((List.getElem?_inj hlt hnodup).mp hl ▸ hj)
  emitted e he := by
    rcases List.mem_append.mp he with he | he
    · exact h.emitted e he
    · obtain ⟨bucket, hbucket, rfl⟩ := List.mem_map.mp he
      obtain ⟨j, hj, hopen⟩ := List.mem_filterMap.mp hbucket
      obtain ⟨l, hl, -⟩ := h.holds j hj
      rw [hopens j l hl] at hopen
      cases hopen
      exact ⟨l, List.mem_of_getElem? hl, rfl, rfl⟩

/-- An outcome of another bucket leaves a version as it is. -/
theorem version_of_ne (h : line.grid.cell o.t ≠ k) :
    version line (taken ++ [o]) k = version line taken k := by
  have hcell : inCell line.grid k [o] = [] := List.filter_cons_of_neg (by simpa using h)
  rw [version, version, tallied_of_ne h, inCell_append, hcell, List.append_nil]

/-- Counting an outcome: a closed bucket that does is revised. -/
theorem count (h : Logged line log taken older revised) {revised' : List ℕ}
    (hsub : ∀ i ∈ revised, i ∈ revised')
    (hrevised : ∀ i ∈ revised', i ∈ revised ∨ older[i]? = some (line.grid.cell o.t))
    (hcell : ∀ i : ℕ, older[i]? = some (line.grid.cell o.t) → i ∈ revised') :
    Logged line log (taken ++ [o]) older revised' where
  holds i hi := by
    rcases hrevised i hi with hold | hnew
    · obtain ⟨k, hk, hne⟩ := h.holds i hold
      refine ⟨k, hk, ?_⟩
      rw [inCell_append]
      exact List.append_ne_nil_of_left_ne_nil hne _
    · exact ⟨_, hnew, inCell_ne_nil (List.mem_append_right _ List.mem_cons_self)⟩
  last i k hk hi := by
    have hne : line.grid.cell o.t ≠ k := fun heq => hi (hcell i (heq ▸ hk))
    rw [version_of_ne hne]
    exact h.last i k hk fun hold => hi (hsub i hold)
  emitted := h.emitted

end Logged

/-! ## The buckets in cells -/

/-- The cells right before one. -/
def consecutive (last : ℤ) (kept : ℕ) : List ℤ :=
  (List.range kept).map fun j : ℕ => last - kept + (j : ℤ)

/-- One more bucket goes to the end. -/
theorem consecutive_succ (last : ℤ) (kept : ℕ) :
    consecutive (last + 1) (kept + 1) = consecutive last kept ++ [last] := by
  rw [consecutive, consecutive, List.range_succ, List.map_append, List.map_singleton]
  congr 1
  · refine List.map_congr_left fun j _ => ?_
    push_cast
    ring
  · push_cast
    ring_nf

/-- The bucket at a place. -/
theorem getElem?_consecutive {last : ℤ} {kept j : ℕ} (h : j < kept) :
    (consecutive last kept)[j]? = some (last - kept + (j : ℤ)) := by
  rw [consecutive, List.getElem?_map, List.getElem?_range h]
  rfl

/-- Dropping the oldest leaves consecutive ones. -/
theorem drop_consecutive (last : ℤ) {kept d : ℕ} (h : d ≤ kept) :
    (consecutive last kept).drop d = consecutive last (kept - d) := by
  refine List.ext_getElem? fun j => ?_
  rw [List.getElem?_drop]
  rcases Nat.lt_or_ge j (kept - d) with hlt | hge
  · rw [getElem?_consecutive hlt, getElem?_consecutive (by omega)]
    congr 1
    push_cast [Nat.cast_sub h]
    ring
  · rw [List.getElem?_eq_none, List.getElem?_eq_none] <;> simp [consecutive] <;> omega

/-- A run of indices is dropped from its start. -/
theorem dropWhile_range' (p : ℕ → Bool) (m n : ℕ) :
    ∃ d ≤ n, (List.range' m n).dropWhile p = List.range' (m + d) (n - d) ∧
      ∀ i, m ≤ i → i < m + d → p i = true := by
  induction n generalizing m with
  | zero => exact ⟨0, le_rfl, rfl, fun i hle hlt => absurd hle (not_le.mpr hlt)⟩
  | succ n ih =>
    rw [List.range'_succ, List.dropWhile_cons]
    split_ifs with hp
    · obtain ⟨d, hd, hdrop, hall⟩ := ih (m + 1)
      refine ⟨d + 1, by omega, ?_, fun i hle hlt => ?_⟩
      · rw [hdrop]
        congr 1 <;> omega
      · rcases Nat.eq_or_lt_of_le hle with rfl | hlt'
        · exact hp
        · exact hall i hlt' (by omega)
    · exact ⟨0, Nat.zero_le _, rfl, fun i hle hlt => absurd hle (not_le.mpr hlt)⟩

/-- The buckets made are cells that each hold the outcomes counted there, the last one pending. The
closed ones kept are the cells right before it, back to the first or the horizon. -/
structure Sound (line : Line) (first : ℤ) (s : LatencyBuckets) (seen : List ℚ) (log : List Emission)
    (taken : List Outcome) (older : List ℤ) (last : ℤ) (kept : ℕ) : Prop where
  same : s.toLine = line
  opens : s.opens = (older ++ [last]).map (tallied line.grid taken)
  pending : s.pending = some older.length
  recent : ∃ gone, older = gone ++ consecutive last kept
  closed : s.closed = List.range' (older.length - kept) kept
  increasing : (older ++ [last]).Pairwise (· < ·)
  reach : ∀ t, first ≤ line.grid.cell t → (∀ u ∈ seen, u - revisionMs ≤ t) →
    last - kept ≤ line.grid.cell t
  home : ∀ o ∈ taken, line.grid.cell o.t ∈ older ++ [last]
  logged : Logged line log taken older s.revised

namespace Sound

variable {line : Line} {first last next : ℤ} {s : LatencyBuckets} {seen : List ℚ}
  {log : List Emission} {taken : List Outcome} {older : List ℤ} {kept kept' : ℕ} {t : ℚ}
  {o : Outcome}

/-- The pending bucket tallies its outcomes. -/
theorem pendingOpen (h : Sound line first s seen log taken older last kept) :
    s.pendingOpen = some (tallied line.grid taken last) := by
  rw [LatencyBuckets.pendingOpen, h.pending, h.opens]
  simp

/-- No more buckets are kept than there were. -/
theorem kept_le (h : Sound line first s seen log taken older last kept) : kept ≤ older.length := by
  obtain ⟨gone, rfl⟩ := h.recent
  simp [consecutive]

/-- The pending bucket is none of the older ones. -/
theorem last_notMem (h : Sound line first s seen log taken older last kept) : last ∉ older :=
  fun hmem => absurd ((List.pairwise_append.mp h.increasing).2.2 last hmem last List.mem_cons_self)
    (lt_irrefl last)

/-- The cells that are kept, by their index. -/
theorem getElem?_recent (h : Sound line first s seen log taken older last kept) {j : ℕ}
    (hj : j ≤ kept) : (older ++ [last])[older.length - kept + j]? = some (last - kept + (j : ℤ)) := by
  obtain ⟨gone, hgone⟩ := h.recent
  have hlength : older.length - kept = gone.length := by
    rw [hgone]
    simp [consecutive]
  rw [hlength, hgone, List.append_assoc, ← consecutive_succ, List.getElem?_append_right (by omega),
    Nat.add_sub_cancel_left, getElem?_consecutive (by omega)]
  congr 1
  push_cast
  ring

/-- A cell's bucket, by its index. -/
theorem getElem?_opens (h : Sound line first s seen log taken older last kept) {i : ℕ} {k : ℤ}
    (hk : (older ++ [last])[i]? = some k) : s.opens[i]? = some (tallied line.grid taken k) := by
  rw [h.opens, List.getElem?_map, hk]
  rfl

/-- A later time seen. -/
theorem see (h : Sound line first s seen log taken older last kept) (more : List ℚ) :
    Sound line first s (seen ++ more) log taken older last kept :=
  { h with reach := fun t hfirst hseen =>
      h.reach t hfirst fun u hu => hseen u (List.mem_append_left _ hu) }

/-- The next bucket opens. -/
theorem openNext (h : Sound line first s seen log taken older last kept) (hlt : last < next)
    {closed : List ℕ} (hclosed : closed = List.range' (older.length + 1 - kept') kept')
    (hrecent : ∃ gone, older ++ [last] = gone ++ consecutive next kept')
    (hreach : ∀ t, first ≤ line.grid.cell t → (∀ u ∈ seen, u - revisionMs ≤ t) →
      next - kept' ≤ line.grid.cell t) :
    Sound line first ({ s with closed := closed }.openAt (line.grid.start next)) seen
      (log ++ (version line taken last).toList) taken (older ++ [last]) next kept' where
  same := h.same
  opens := by
    -- all that was counted falls in the cells before, so the new bucket holds nothing yet
    have hempty : inCell line.grid next taken = [] := by
      refine List.filter_eq_nil_iff.mpr fun o ho => ?_
      have hmem := h.home o ho
      have hle : line.grid.cell o.t ≤ last := by
        rcases List.mem_append.mp hmem with hold | hlast
        · exact ((List.pairwise_append.mp h.increasing).2.2 _ hold last List.mem_cons_self).le
        · exact (List.mem_singleton.mp hlast).le
      simpa using (hle.trans_lt hlt).ne
    have hnew : tallied line.grid taken next = ⟨line.grid.start next, [], 0, 0⟩ := by
      rw [tallied, hempty]
      rfl
    rw [List.map_append, List.map_singleton, hnew, ← h.opens]
    rfl
  pending := by
    rw [LatencyBuckets.openAt, h.opens]
    simp
  recent := hrecent
  closed := by
    rw [List.length_append, List.length_singleton]
    exact hclosed
  increasing := by
    refine List.pairwise_append.mpr ⟨h.increasing, List.pairwise_singleton _ _, fun k hk l hl => ?_⟩
    rw [List.mem_singleton.mp hl]
    rcases List.mem_append.mp hk with hold | hlast
    · exact ((List.pairwise_append.mp h.increasing).2.2 k hold last List.mem_cons_self).trans hlt
    · exact (List.mem_singleton.mp hlast).trans_lt hlt
  reach := hreach
  home o ho := List.mem_append_left _ (h.home o ho)
  logged := h.logged.close h.last_notMem

/-- Closing the pending bucket keeps what the horizon of a time seen by its end reaches. -/
theorem shut (h : Sound line first s seen log taken older last kept) (ht : t ∈ seen)
    (hend : line.grid.start (last + 1) ≤ t) :
    ∃ kept', Sound line first (s.shut (tallied line.grid taken last)) seen
      (log ++ (version line taken last).toList) taken (older ++ [last]) (last + 1) kept' := by
  have hkept := h.kept_le
  obtain ⟨gone, hgone⟩ := h.recent
  have hcells : older ++ [last] = gone ++ consecutive (last + 1) (kept + 1) := by
    rw [hgone, consecutive_succ, List.append_assoc]
  obtain ⟨d, hd, hdrop, hall⟩ := dropWhile_range' (fun i => (s.opens[i]?).any fun bucket =>
    decide (s.endT bucket < s.endT (tallied line.grid taken last) - revisionMs))
    (older.length - kept) (kept + 1)
  have hends (k : ℤ) : s.endT (tallied line.grid taken k) = line.grid.start (k + 1) := by
    rw [line.grid.start_succ, Line.endT, h.same]
    rfl
  refine ⟨kept + 1 - d, ?_⟩
  rw [LatencyBuckets.shut, hends]
  rw [hends] at hdrop hall
  refine h.openNext (lt_add_one last) ?_ ⟨gone ++ (consecutive (last + 1) (kept + 1)).take d, ?_⟩ ?_
  · have hrange : s.closed ++ s.pending.toList = List.range' (older.length - kept) (kept + 1) := by
      rw [h.closed, h.pending, List.range'_concat, Option.toList_some]
      congr 2
      omega
    rw [hrange, hdrop]
    congr 1
    omega
  · rw [List.append_assoc, ← drop_consecutive _ hd, List.take_append_drop, hcells]
  · intro u hfirst hseen
    have hreach := h.reach u hfirst hseen
    rcases Nat.eq_zero_or_pos d with rfl | hpos
    · push_cast
      linarith
    -- the last one dropped ended before the horizon
    have hcell := h.getElem?_recent (j := d - 1) (by omega)
    have hp := hall (older.length - kept + (d - 1)) (by omega) (by omega)
    rw [h.getElem?_opens hcell, Option.any_some, decide_eq_true_iff, hends] at hp
    have hle := (line.grid.le_cell (k := last - kept + ((d - 1 : ℕ) : ℤ) + 1)).mpr
      ((hp.le.trans (sub_le_sub_right hend _)).trans (hseen t ht))
    push_cast [Nat.cast_sub hd, Nat.cast_sub hpos] at hle ⊢
    linarith

/-- Empty time is skipped to the horizon. -/
theorem skip (h : Sound line first s seen log taken older last kept) (ht : t ∈ seen)
    (hempty : inCell line.grid last taken = []) {skipped : ℤ}
    (hskip : skipped = ⌊(t - line.grid.start last - revisionMs) / line.grid.width⌋)
    (hpos : 0 < skipped) :
    Sound line first (s.skip (tallied line.grid taken last) skipped) seen log taken
      (older ++ [last]) (last + skipped) 0 := by
  have hstart : (tallied line.grid taken last).startT + Numbers.near skipped * s.grid.width
      = line.grid.start (last + skipped) := by
    rw [line.grid.start_add, h.same]
    rfl
  have hhorizon : line.grid.start (last + skipped) ≤ t - revisionMs := by
    have hfloor : (skipped : ℚ) ≤ (t - line.grid.start last - revisionMs) / line.grid.width := by
      rw [hskip]
      exact Int.floor_le _
    rw [le_div_iff₀ line.grid.width_pos] at hfloor
    rw [line.grid.start_add]
    linarith
  have hlog : log ++ (version line taken last).toList = log := by
    rw [version, if_pos hempty]
    exact List.append_nil log
  rw [LatencyBuckets.skip, hstart]
  have hnext : Sound line first ({ s with closed := [] }.openAt (line.grid.start (last + skipped)))
      seen (log ++ (version line taken last).toList) taken (older ++ [last]) (last + skipped) 0 := by
    refine h.openNext (lt_add_of_pos_right last hpos) rfl
      ⟨older ++ [last], (List.append_nil _).symm⟩ fun u hfirst hseen => ?_
    rw [Nat.cast_zero, sub_zero, line.grid.le_cell]
    exact hhorizon.trans (hseen t ht)
  rwa [hlog] at hnext

/-- The pending bucket ends where the next one starts. -/
theorem endT_last (h : Sound line first s seen log taken older last kept) :
    s.endT (tallied line.grid taken last) = line.grid.start (last + 1) := by
  rw [line.grid.start_succ, Line.endT, h.same]
  rfl

/-- **Closing through a time** that was seen. -/
theorem close (h : Sound line first s seen log taken older last kept) (ht : t ∈ seen) :
    ∃ older last kept, Sound line first (s.close t).1 seen (log ++ (s.close t).2) taken older last kept ∧
      t < line.grid.start (last + 1) := by
  induction hb : s.behind t using Nat.strong_induction_on generalizing s log older last kept with
  | _ b ih =>
    have hpending := h.pendingOpen
    rw [LatencyBuckets.close_of_pending hpending]
    by_cases hlt : t < s.endT (tallied line.grid taken last)
    · rw [if_pos hlt, List.append_nil]
      exact ⟨older, last, kept, h, h.endT_last ▸ hlt⟩
    rw [if_neg hlt]
    by_cases hskip : 0 < s.skipped (tallied line.grid taken last) t
    · rw [if_pos hskip]
      -- the pending bucket is empty, or nothing would be skipped
      have hempty : inCell line.grid last taken = [] := by
        by_contra hne
        rw [LatencyBuckets.skipped, if_pos (pings_tallied.not.mpr hne)] at hskip
        exact absurd hskip (lt_irrefl 0)
      have hskipped : s.skipped (tallied line.grid taken last) t
          = ⌊(t - line.grid.start last - revisionMs) / line.grid.width⌋ := by
        rw [LatencyBuckets.skipped, if_neg (not_not.mpr (pings_tallied.mpr hempty)), h.same]
        rfl
      exact ih _ (hb ▸ LatencyBuckets.behind_skip hpending (not_lt.mp hlt) hskip)
        (h.skip ht hempty hskipped hskip) rfl
    · rw [if_neg hskip]
      obtain ⟨kept', hshut⟩ := h.shut ht (h.endT_last ▸ not_lt.mp hlt)
      have hversion : (version line taken last).toList =
          if (tallied line.grid taken last).pings ≠ 0 then
            [s.emission (tallied line.grid taken last) (s.endT (tallied line.grid taken last))]
          else [] := by
        rw [version, h.same]
        simp only [ne_eq, pings_tallied]
        split_ifs <;> rfl
      rw [hversion] at hshut
      simp only [← List.append_assoc]
      exact ih _ (hb ▸ LatencyBuckets.behind_shut hpending (not_lt.mp hlt)) hshut rfl

/-- No bucket is there twice. -/
theorem nodup (h : Sound line first s seen log taken older last kept) : (older ++ [last]).Nodup :=
  h.increasing.imp fun hlt => hlt.ne

/-- A report emits versions and changes no tally. -/
theorem report (h : Sound line first s seen log taken older last kept) :
    Sound line first s.report.1 seen (log ++ s.report.2) taken older last kept :=
  { h with
    logged := by
      rw [LatencyBuckets.report, h.same]
      refine h.logged.report (List.nodup_append.mp h.nodup).1 fun i k hk => h.getElem?_opens ?_
      obtain ⟨hlt, -⟩ := List.getElem?_eq_some_iff.mp hk
      rwa [List.getElem?_append_left hlt] }

/-- A time before the pending bucket's end is owned by its cell's bucket. -/
theorem getElem?_target (h : Sound line first s seen log taken older last kept)
    (ht : t < line.grid.start (last + 1)) {i : ℕ} (hi : s.target t = some i) :
    (older ++ [last])[i]? = some (line.grid.cell t) := by
  rw [LatencyBuckets.target, h.pendingOpen, Option.any_some] at hi
  split_ifs at hi with hlast
  · rw [h.pending] at hi
    cases hi
    rw [line.grid.start_succ] at ht
    rw [line.grid.cell_eq.mpr ⟨of_decide_eq_true hlast, ht⟩, List.getElem?_concat_length]
  · have hmem := List.mem_reverse.mp (List.mem_of_find?_eq_some hi)
    have howns := List.find?_some hi
    rw [h.closed] at hmem
    obtain ⟨j, hj, rfl⟩ := List.mem_range'.mp hmem
    rw [one_mul] at howns ⊢
    have hcell := h.getElem?_recent hj.le
    rw [h.getElem?_opens hcell, Option.any_some, decide_eq_true_iff, h.same] at howns
    rw [hcell, line.grid.cell_eq.mpr howns]

/-- A time in a kept cell is owned. -/
theorem isSome_target (h : Sound line first s seen log taken older last kept)
    (ht : last - kept ≤ line.grid.cell t) : (s.target t).isSome := by
  rw [LatencyBuckets.target, h.pendingOpen, Option.any_some]
  split_ifs with hlast
  · rw [h.pending]
    rfl
  · have hlt : line.grid.cell t < last :=
      line.grid.cell_lt.mpr (not_le.mp fun hle => hlast (decide_eq_true hle))
    obtain ⟨j, hj⟩ : ∃ j : ℕ, line.grid.cell t = last - kept + j :=
      ⟨(line.grid.cell t - (last - kept)).toNat, by omega⟩
    have hcell := h.getElem?_recent (j := j) (by omega)
    rw [List.find?_isSome]
    refine ⟨older.length - kept + j, ?_, ?_⟩
    · rw [List.mem_reverse, h.closed, List.mem_range']
      exact ⟨j, by omega, by omega⟩
    · rw [h.getElem?_opens hcell, Option.any_some, decide_eq_true_iff, h.same]
      exact line.grid.cell_eq.mp hj

/-- A closed bucket that counts an outcome is revised. -/
theorem revise (h : Sound line first s seen log taken older last kept) {i : ℕ}
    (hcell : (older ++ [last])[i]? = some (line.grid.cell o.t)) :
    Logged line log (taken ++ [o]) older
      (if s.pending = some i ∨ i ∈ s.revised then s.revised else s.revised ++ [i]) := by
  obtain ⟨hlt, -⟩ := List.getElem?_eq_some_iff.mp hcell
  refine h.logged.count (fun j hj => ?_) (fun j hj => ?_) fun j hj => ?_
  · split_ifs
    · exact hj
    · exact List.mem_append_left _ hj
  · split_ifs at hj with hknown
    · exact .inl hj
    rcases List.mem_append.mp hj with hold | hnew
    · exact .inl hold
    · -- a closed bucket that was not revised
      obtain rfl := List.mem_singleton.mp hnew
      have hne : older.length ≠ j := fun heq => hknown (.inl (heq ▸ h.pending))
      rw [List.length_append, List.length_singleton] at hlt
      rw [List.getElem?_append_left (by omega)] at hcell
      exact .inr hcell
  · obtain ⟨hclosed, -⟩ := List.getElem?_eq_some_iff.mp hj
    obtain rfl : i = j := (List.getElem?_inj hlt h.nodup).mp
      (hcell.trans (by rw [List.getElem?_append_left hclosed, hj]))
    split_ifs with hknown
    · rcases hknown with hpending | hrevised
      · rw [h.pending] at hpending
        cases hpending
        exact absurd hclosed (lt_irrefl _)
      · exact hrevised
    · exact List.mem_append_right _ List.mem_cons_self

/-- **Counting an outcome** in the bucket that owns its time. -/
theorem count (h : Sound line first s seen log taken older last kept)
    (ht : o.t < line.grid.start (last + 1)) :
    Sound line first (s.count o) seen log (taken ++ (s.target o.t).toList.map fun _ => o) older last
      kept := by
  match hi : s.target o.t with
  | none =>
    rw [LatencyBuckets.count, hi]
    simpa using h
  | some i =>
    have hcell := h.getElem?_target ht hi
    rw [LatencyBuckets.count, hi]
    refine { h with opens := ?_, home := ?_, logged := ?_ }
    · -- the owner's bucket counts it; the others are of other cells
      refine List.ext_getElem? fun j => ?_
      rw [List.getElem?_modify, h.opens, List.getElem?_map, List.getElem?_map]
      split_ifs with hj
      · rw [← hj, hcell]
        exact congrArg some (record_tallied line.grid taken o)
      · match hk : (older ++ [last])[j]? with
        | none => rfl
        | some k =>
          have hne : line.grid.cell o.t ≠ k := by
            rintro rfl
            obtain ⟨hlt, -⟩ := List.getElem?_eq_some_iff.mp hcell
            exact hj ((List.getElem?_inj hlt h.nodup).mp (hcell.trans hk.symm))
          exact congrArg some (tallied_of_ne hne).symm
    · intro o' ho'
      rcases List.mem_append.mp ho' with hold | hnew
      · exact h.home o' hold
      · rw [List.mem_singleton.mp hnew]
        exact List.mem_of_getElem? hcell
    · exact h.revise hcell

/-! ### Calls -/

/-- **A call** keeps the buckets in their cells. -/
theorem call (h : Sound line first s seen log taken older last kept) (c : Call) :
    ∃ older last kept, Sound line first (s.call c).1 (seen ++ [c.t]) (log ++ (s.call c).2)
      (taken ++ s.takes c) older last kept := by
  have ht : c.t ∈ seen ++ [c.t] := List.mem_append_right _ List.mem_cons_self
  match c with
  | .observe o =>
    obtain ⟨older, last, kept, hclose, hlt⟩ := (h.see [o.t]).close ht
    have hcount := hclose.count hlt
    refine ⟨older, last, kept, ?_⟩
    rw [LatencyBuckets.call, LatencyBuckets.observe, h.pending, if_neg (by simp)]
    exact hcount
  | .closeThrough t =>
    obtain ⟨older, last, kept, hclose, -⟩ := (h.report.see [t]).close ht
    refine ⟨older, last, kept, ?_⟩
    rw [List.append_assoc] at hclose
    rw [LatencyBuckets.takes, List.append_nil]
    exact hclose

/-- **An outcome within the horizon** is counted. -/
theorem takes_eq (h : Sound line first s seen log taken older last kept)
    (hfirst : first ≤ line.grid.cell o.t) (hseen : ∀ u ∈ seen, u - revisionMs ≤ o.t) :
    s.takes (.observe o) = [o] := by
  obtain ⟨older, last, kept, hclose, -⟩ :=
    (h.see [o.t]).close (List.mem_append_right _ List.mem_cons_self)
  have hreach := hclose.reach o.t hfirst fun u hu => by
    rcases List.mem_append.mp hu with hold | hnew
    · exact hseen u hold
    · rw [List.mem_singleton.mp hnew]
      exact sub_le_self _ (by norm_num [revisionMs])
  obtain ⟨i, hi⟩ := Option.isSome_iff_exists.mp (hclose.isSome_target hreach)
  rw [LatencyBuckets.takes, hi]
  rfl

/-- **A run** keeps the buckets in their cells. -/
theorem run (h : Sound line first s seen log taken older last kept) (calls : List Call) :
    ∃ older last kept, Sound line first (s.run calls).1 (seen ++ calls.map Call.t)
      (log ++ (s.run calls).2) (taken ++ s.taken calls) older last kept := by
  induction calls generalizing s seen log taken older last kept with
  | nil =>
    refine ⟨older, last, kept, ?_⟩
    simpa [LatencyBuckets.run, LatencyBuckets.taken] using h
  | cons c rest ih =>
    obtain ⟨older, last, kept, hcall⟩ := h.call c
    obtain ⟨older, last, kept, hrest⟩ := ih hcall
    refine ⟨older, last, kept, ?_⟩
    simpa [LatencyBuckets.run, LatencyBuckets.taken, List.append_assoc] using hrest

/-- A line begins with the pending bucket alone. -/
theorem restart (s : LatencyBuckets) (t : ℚ) (continuity : ℕ) :
    Sound { s.toLine with continuity := continuity } (s.grid.cell t) (s.restart t continuity) [] [] []
      [] (s.grid.cell t) 0 where
  same := rfl
  opens := rfl
  pending := rfl
  recent := ⟨[], rfl⟩
  closed := rfl
  increasing := List.pairwise_singleton _ _
  reach t hfirst _ := by
    rw [Nat.cast_zero, sub_zero]
    exact hfirst
  home _ ho := absurd ho List.not_mem_nil
  logged := ⟨nofun, nofun, fun _ he => absurd he List.not_mem_nil⟩

/-- A restart aligns its first bucket. -/
theorem firstT_restart (s : LatencyBuckets) (t : ℚ) (continuity : ℕ) :
    (s.restart t continuity).firstT = s.aligned t := by
  rw [LatencyBuckets.firstT, LatencyBuckets.restart, LatencyBuckets.pendingOpen_openAt]
  rfl

/-- A series that opens is sound. -/
theorem opened (s : LatencyBuckets) (opening : Opening) :
    ∃ first, Sound (s.opened opening).toLine first (s.opened opening) [] [] [] [] first 0 ∧
      (s.opened opening).firstT = (s.opened opening).grid.start first := by
  match opening with
  | .reset t phase continuity intervalMs warmup => exact ⟨_, restart _ _ _, firstT_restart _ _ _⟩
  | .restart t continuity => exact ⟨_, restart _ _ _, firstT_restart _ _ _⟩

/-! ### The flush -/

/-- The flush reports, and emits the pending bucket, cut off at the flush. -/
theorem flush (h : Sound line first s seen log taken older last kept) (atT : ℚ) :
    ∃ endT ≤ line.grid.start last + line.grid.width, (s.flush atT).2 = s.report.2 ++
      if inCell line.grid last taken = [] then []
      else [line.emission (tallied line.grid taken last) endT] := by
  have hpos := line.grid.width_pos
  refine ⟨max (line.grid.start last) (min (line.grid.start last + line.grid.width) atT),
    max_le (by linarith) (min_le_left _ _), ?_⟩
  have hpending : s.report.1.pendingOpen = some (tallied line.grid taken last) := h.report.pendingOpen
  have hsame : s.report.1.toLine = line := h.report.same
  rw [LatencyBuckets.flush]
  simp only [hpending, hsame, Option.toList_some, List.flatMap_singleton, ne_eq, pings_tallied,
    ite_not]
  rfl

/-- **To the flush**, the last version of each cell's bucket holds all that was counted there. -/
theorem lastVersion_flush (h : Sound line first s seen log taken older last kept) (atT : ℚ) (k : ℤ) :
    (inCell line.grid k taken = [] ∧ lastVersion line.grid (log ++ (s.flush atT).2) k = none) ∨
      (inCell line.grid k taken ≠ [] ∧ ∃ endT, lastVersion line.grid (log ++ (s.flush atT).2) k
        = some (line.emission (tallied line.grid taken k) endT)) := by
  obtain ⟨endT, -, hflush⟩ := h.flush atT
  have hreport := h.report.logged
  rw [hflush, ← List.append_assoc]
  by_cases hk : k = last
  · -- the pending bucket's only version is the flush's
    rw [hk, lastVersion_append, hreport.eq_none h.last_notMem, Option.or_none]
    split_ifs with hempty
    · exact .inl ⟨hempty, rfl⟩
    · exact .inr ⟨hempty, endT, lastVersion_eq_some List.mem_cons_self rfl
        fun e he _ => List.mem_singleton.mp he⟩
  · rw [lastVersion_append_of_ne fun e he => ?_]
    · by_cases hmem : k ∈ older
      · obtain ⟨i, hi⟩ := List.mem_iff_getElem?.mp hmem
        rw [hreport.last i k hi List.not_mem_nil, version]
        split_ifs with hempty
        · exact .inl ⟨hempty, rfl⟩
        · exact .inr ⟨hempty, _, rfl⟩
      · refine .inl ⟨List.filter_eq_nil_iff.mpr fun o ho hcell => ?_, hreport.eq_none hmem⟩
        rcases List.mem_append.mp (h.home o ho) with hold | hlast
        · exact hmem (of_decide_eq_true hcell ▸ hold)
        · exact hk ((of_decide_eq_true hcell).symm.trans (List.mem_singleton.mp hlast))
    · split_ifs at he
      · cases he
      · rw [List.mem_singleton.mp he]
        exact fun heq => hk (line.grid.start_inj.mp heq).symm

/-- What is emitted to the flush starts on the grid and stays in its cell. -/
theorem mem_flush (h : Sound line first s seen log taken older last kept) (atT : ℚ) :
    ∀ e ∈ log ++ (s.flush atT).2, ∃ k, e.1.startT = line.grid.start k ∧
      e.1.endT ≤ line.grid.start k + line.grid.width := by
  intro e he
  obtain ⟨endT, hend, hflush⟩ := h.flush atT
  rw [hflush, ← List.append_assoc] at he
  rcases List.mem_append.mp he with he | he
  · obtain ⟨k, -, hstart, hends⟩ := h.report.logged.emitted e he
    exact ⟨k, hstart, hends.le⟩
  · split_ifs at he
    · cases he
    · rw [List.mem_singleton.mp he]
      exact ⟨last, rfl, hend⟩

end Sound

namespace LatencyBuckets

/-- What a run takes is what its parts take. -/
theorem taken_append (s : LatencyBuckets) (before after : List Call) :
    s.taken (before ++ after) = s.taken before ++ (s.run before).1.taken after := by
  induction before generalizing s with
  | nil => rfl
  | cons c before ih => rw [List.cons_append, taken, taken, ih, List.append_assoc, run]

/-- **The buckets are exact.** For any calls from a reset or a restart to a flush, the emitted buckets
start on the grid, and two of them start at the same time or do not overlap. An outcome observed at a
time not before the first bucket, nor more than 10 s before any time seen, is counted. Of the outcomes
counted, each falls in one cell, and of each cell's bucket the last version counts just those that
fall there; no version is emitted where none do. -/
theorem buckets_exact (b : LatencyBuckets) (opening : Opening) (calls : List Call) (atT : ℚ) :
    let s := b.opened opening
    (∀ e ∈ s.emitted calls atT, ∃ k : ℤ, e.1.startT = s.grid.origin + k * s.grid.width) ∧
    (∀ e ∈ s.emitted calls atT, ∀ e' ∈ s.emitted calls atT,
      e.1.startT = e'.1.startT ∨ e.1.endT ≤ e'.1.startT ∨ e'.1.endT ≤ e.1.startT) ∧
    (∀ before o after, calls = before ++ .observe o :: after → s.firstT ≤ o.t →
      (∀ c ∈ before, c.t - revisionMs ≤ o.t) → s.taken before ++ [o] <+: s.taken calls) ∧
    ∀ k, (inCell s.grid k (s.taken calls) = [] ∧
        lastVersion s.grid (s.emitted calls atT) k = none) ∨
      (inCell s.grid k (s.taken calls) ≠ [] ∧
        ∃ endT, lastVersion s.grid (s.emitted calls atT) k
          = some (s.emission (tallied s.grid (s.taken calls) k) endT)) := by
  intro s
  obtain ⟨first, hopened, hfirstT⟩ := Sound.opened b opening
  obtain ⟨older, last, kept, hrun⟩ := hopened.run calls
  have hcells := hrun.mem_flush atT
  rw [List.nil_append] at hcells hrun
  rw [List.nil_append] at hrun
  refine ⟨fun e he => ?_, fun e he e' he' => ?_, ?_, hrun.lastVersion_flush atT⟩
  · obtain ⟨k, hstart, -⟩ := hcells e he
    exact ⟨k, hstart⟩
  · obtain ⟨k, hstart, hend⟩ := hcells e he
    obtain ⟨l, hstart', hend'⟩ := hcells e' he'
    rw [hstart, hstart']
    rw [← Grid.start_succ] at hend hend'
    rcases lt_trichotomy k l with hlt | rfl | hlt
    · exact .inr (.inl (hend.trans ((Grid.start_le_start _).mpr hlt)))
    · exact .inl rfl
    · exact .inr (.inr (hend'.trans ((Grid.start_le_start _).mpr hlt)))
  · rintro before o after rfl hfirst hseen
    obtain ⟨older, last, kept, hbefore⟩ := hopened.run before
    have htakes := hbefore.takes_eq (o := o) ((Grid.le_cell _).mpr (hfirstT ▸ hfirst)) fun u hu => by
      obtain ⟨c, hc, rfl⟩ := List.mem_map.mp hu
      exact hseen c hc
    rw [taken_append, taken, htakes, ← List.append_assoc]
    exact List.prefix_append _ _

/-- A page back after a day counts an outcome of just ten seconds ago. -/
theorem buckets_exact_day :
    (({} : LatencyBuckets).opened (.reset 13 (.stage .download) 7 none false)).taken
        [.observe ⟨50, some 11, false⟩, .closeThrough 86400073] ++ [⟨86390073, some 23, false⟩] <+:
      (({} : LatencyBuckets).opened (.reset 13 (.stage .download) 7 none false)).taken
        [.observe ⟨50, some 11, false⟩, .closeThrough 86400073,
          .observe ⟨86390073, some 23, false⟩] := by
  have hexact := buckets_exact {} (.reset 13 (.stage .download) 7 none false)
    [.observe ⟨50, some 11, false⟩, .closeThrough 86400073, .observe ⟨86390073, some 23, false⟩]
    86400073
  refine hexact.2.2.1 [.observe ⟨50, some 11, false⟩, .closeThrough 86400073]
    ⟨86390073, some 23, false⟩ [] rfl ?_ ?_
  · simp only [opened, reset, firstT, restart, pendingOpen_openAt, aligned, Grid.start, Grid.cell,
      sub_self, zero_div, Option.elim]
    norm_num
  · intro c hc
    simp only [List.mem_cons, List.not_mem_nil, or_false] at hc
    rcases hc with rfl | rfl <;> norm_num [Call.t, revisionMs]

/-- A stage whose first bucket starts at a fraction of a ms, on doubles. -/
def rounded : LatencyBuckets Double :=
  ({} : LatencyBuckets Double).opened (.reset (.near 5795.6) (.stage .download) 7 none false)

/-- An outcome of exactly ten seconds before 23195.6 ms. -/
def late : Outcome Double := ⟨.near 13195.599999999999, some (.near 23), false⟩

/-- On doubles the page skips 37 buckets where 36 end by the horizon, and drops the outcome. -/
theorem buckets_drop_late :
    let calls : List (Call Double) := [.closeThrough (.near 23195.6), .observe late]
    rounded.firstT ≤ late.t ∧ (∀ c ∈ calls, c.t.val - 10000 ≤ late.t.val) ∧
      rounded.taken calls = [] ∧ rounded.emitted calls (.near 23195.6) = [] := by
  refine ⟨by decide +kernel, ?_, by decide +kernel, by decide +kernel⟩
  exact List.forall_mem_cons.mpr
    ⟨by decide +kernel, List.forall_mem_cons.mpr ⟨by decide +kernel, List.forall_mem_nil _⟩⟩

end LatencyBuckets

end GraphiteMeter.Measure.Browser.Buckets
