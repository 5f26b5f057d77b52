import GraphiteMeter.Lib.Machine
import GraphiteMeter.Browser.ByteLedger

/-!
# Byte reports are exact

`Edged` is the invariant of a window's edges: those reported and those taken since are numbered from 1
without a gap, each with what was counted by it. No byte was counted past the next edge, so its total is
the one at hand, and the clock is past the last one, so no later byte changes it.
-/

namespace GraphiteMeter.Browser.Bytes

open ByteReports (Call)

/-- The bytes counted by a time. -/
def countedBy (counts : List Count) (at_ : ℚ) : ℤ := sumBytes (counts.filter (·.at_ ≤ at_))

/-- By a time that no byte was counted after, everything is counted. -/
theorem countedBy_of_late {counts : List Count} {at_ : ℚ}
    (h : ∀ c ∈ counts, 0 < c.bytes → c.at_ ≤ at_) : countedBy counts at_ = sumBytes counts := by
  induction counts with
  | nil => rfl
  | cons c counts ih =>
    have ih := ih fun c hc => h c (List.mem_cons_of_mem _ hc)
    have hcons : sumBytes (c :: counts) = c.bytes + sumBytes counts := by simp [sumBytes]
    rw [hcons, ← ih, countedBy, List.filter_cons]
    split
    case isTrue => simp [countedBy, sumBytes]
    case isFalse hlate =>
      have hzero : c.bytes = 0 := by
        by_contra hne
        exact hlate (decide_eq_true (h c List.mem_cons_self (Nat.pos_of_ne_zero hne)))
      rw [hzero, Nat.cast_zero, zero_add, countedBy]

/-- What is counted later does not count at an earlier edge. -/
theorem countedBy_append_of_lt {counts : List Count} {c : Count} {at_ : ℚ} (h : at_ < c.at_) :
    countedBy (counts ++ [c]) at_ = countedBy counts at_ := by
  rw [countedBy, List.filter_append, List.filter_singleton, decide_eq_false (not_le.mpr h)]
  exact congrArg sumBytes (List.append_nil _)

/-- The edges of a report with their numbers. -/
def Report.numbered (report : Report) : List (ℤ × ℕ) :=
  report.edges.elim [] fun edges => edges.totals.zipIdx edges.first

/-- The edges taken since the last report. -/
def ByteReports.pending (r : ByteReports) : List (ℤ × ℕ) :=
  r.edges.zipIdx (r.edge - r.edges.length)

/-- What is due carries the pending edges under their numbers. -/
theorem due_numbered (r : ByteReports) : r.due.flatMap Report.numbered = r.pending := by
  unfold ByteReports.due ByteReports.passed ByteReports.pending
  by_cases hedges : r.edges.length = 0
  · rw [List.length_eq_zero_iff.mp hedges]
    by_cases hbytes : r.bytes = 0 <;> simp [hbytes, Report.numbered]
  · simp [hedges, Report.numbered]

/-- Passing edges gives each that is before `now` the current total, and stops at the first that is
not. -/
theorem passFrom_eq (opened : ℚ) (total : ℤ) (now : ℚ) (edge : ℕ) (edges : List ℤ) :
    ∃ n, ByteReports.passFrom opened total now edge edges
        = (edge + n, edges ++ List.replicate n total) ∧
      (∀ k, edge ≤ k → k < edge + n → opened + k * edgeMs < now) ∧
      now ≤ opened + (edge + n : ℕ) * edgeMs := by
  induction edge, edges using ByteReports.passFrom.induct opened total now with
  | case1 edge edges hlt ih =>
    obtain ⟨n, heq, hpassed, hnext⟩ := ih
    rw [ByteReports.passFrom, if_pos hlt]
    refine ⟨n + 1, ?_, fun k hk hkn => ?_, ?_⟩
    · rw [heq, List.append_assoc, List.singleton_append, ← List.replicate_succ, Nat.add_assoc,
        Nat.add_comm 1 n]
    · rcases Nat.eq_or_lt_of_le hk with rfl | hk
      · exact hlt
      · exact hpassed k hk (by omega)
    · rw [Nat.add_comm n 1, ← Nat.add_assoc]
      exact hnext
  | case2 edge edges hge =>
    rw [ByteReports.passFrom, if_neg hge]
    exact ⟨0, by simp, fun k hk hkn => absurd hkn (by omega), not_lt.mp hge⟩

/-- Equal totals get consecutive numbers. -/
theorem zipIdx_replicate (n : ℕ) (total : ℤ) (first : ℕ) :
    (List.replicate n total).zipIdx first = (List.range' first n).map fun k => (total, k) := by
  induction n generalizing first with
  | zero => rfl
  | succ n ih => rw [List.replicate_succ, List.zipIdx_cons, ih, List.range'_succ, List.map_cons]

/-- The edges of a window that opened at `at_`, reported since `base` and taken since. -/
structure Edged (at_ : ℚ) (base : List Report) (r : ByteReports) (epoch : List Count) (clock : ℚ) :
    Prop where
  opened : r.opened = some at_
  short : r.edges.length < r.edge
  sent : ∃ made, r.reported = base ++ made ∧ made.flatMap Report.numbered ++ r.pending =
    (List.range' 1 (r.edge - 1)).map fun k : ℕ => (countedBy epoch (at_ + k * edgeMs), k)
  late : ∀ c ∈ epoch, 0 < c.bytes → c.at_ ≤ at_ + r.edge * edgeMs
  early : ∀ k, 1 ≤ k → k < r.edge → at_ + (k : ℚ) * edgeMs < clock

namespace Edged

variable {at_ : ℚ} {base : List Report} {r : ByteReports} {epoch : List Count} {clock : ℚ}

/-- The clock comes to `now`, with every edge before it in hand. -/
theorem pass (h : Edged at_ base r epoch clock) (htotal : r.total = sumBytes epoch) {now : ℚ}
    (hnow : clock ≤ now) :
    Edged at_ base (r.pass now) epoch now ∧ now ≤ at_ + (r.pass now).edge * edgeMs := by
  obtain ⟨n, heq, hpassed, hnext⟩ := passFrom_eq at_ r.total now r.edge r.edges
  have hpass : r.pass now
      = { r with edge := r.edge + n, edges := r.edges ++ List.replicate n r.total } := by
    simp only [ByteReports.pass, h.opened, heq]
  obtain ⟨made, hmade, hlog⟩ := h.sent
  have hshort := h.short
  rw [hpass]
  have hgrow : ∀ {m n : ℕ}, m ≤ n → at_ + (m : ℚ) * edgeMs ≤ at_ + (n : ℚ) * edgeMs := by
    intro m n hmn
    have hcast : (m : ℚ) ≤ n := Nat.cast_le.mpr hmn
    have hms : (0 : ℚ) ≤ edgeMs := by norm_num [edgeMs]
    have := mul_le_mul_of_nonneg_right hcast hms
    linarith
  refine ⟨⟨h.opened, ?_, ⟨made, hmade, ?_⟩, fun c hc hpos => ?_, fun k hk hlt => ?_⟩, hnext⟩
  · simp only [List.length_append, List.length_replicate]
    omega
  · have hpending : (r.edges ++ List.replicate n r.total).zipIdx
        (r.edge + n - (r.edges ++ List.replicate n r.total).length) =
        r.pending ++ (List.range' r.edge n).map fun k => (r.total, k) := by
      rw [List.zipIdx_append, List.length_append, List.length_replicate, zipIdx_replicate]
      have hfirst : r.edge + n - (r.edges.length + n) = r.edge - r.edges.length := by omega
      have hnumber : r.edge - r.edges.length + r.edges.length = r.edge := by omega
      rw [hfirst, hnumber]
      rfl
    have hnew : (List.range' r.edge n).map (fun k => (r.total, k)) =
        (List.range' r.edge n).map fun k : ℕ => (countedBy epoch (at_ + k * edgeMs), k) := by
      refine List.map_congr_left fun k hk => ?_
      rw [htotal, countedBy_of_late fun c hc hpos =>
        (h.late c hc hpos).trans (hgrow (List.mem_range'_1.mp hk).1)]
    have hrange : List.range' 1 (r.edge + n - 1)
        = List.range' 1 (r.edge - 1) ++ List.range' r.edge n := by
      have happend := @List.range'_append_1 1 (r.edge - 1) n
      rw [Nat.add_sub_cancel' (by omega)] at happend
      rw [happend]
      congr 1
      omega
    show _ ++ List.zipIdx _ _ = _
    rw [hpending, hnew, ← List.append_assoc, hlog, hrange, List.map_append]
  · exact (h.late c hc hpos).trans (hgrow (Nat.le_add_right _ _))
  · by_cases hold : k < r.edge
    · exact (h.early k hk hold).trans_le hnow
    · exact hpassed k (not_lt.mp hold) hlt

/-- Bytes counted by the next edge leave those before it as they are. -/
theorem add (h : Edged at_ base r epoch clock) (bytes : ℕ)
    (hnext : clock ≤ at_ + r.edge * edgeMs) :
    Edged at_ base (r.add bytes clock) (epoch ++ [⟨clock, bytes⟩]) clock where
  opened := h.opened
  short := h.short
  sent := by
    obtain ⟨made, hmade, hlog⟩ := h.sent
    refine ⟨made, hmade, hlog.trans (List.map_congr_left fun k hk => ?_)⟩
    have hk := List.mem_range'_1.mp hk
    rw [countedBy_append_of_lt (h.early k hk.1 (by omega))]
  late c hc hpos := by
    rcases List.mem_append.mp hc with hc | hc
    · exact h.late c hc hpos
    · rw [List.mem_singleton.mp hc]
      exact hnext
  early := h.early

/-- Reporting moves the pending edges to what is reported. -/
theorem send (h : Edged at_ base r epoch clock) (now : ℚ) :
    Edged at_ base (r.send now) epoch clock where
  opened := h.opened
  short := (Nat.zero_le _).trans_lt h.short
  sent := by
    obtain ⟨made, hmade, hlog⟩ := h.sent
    refine ⟨made ++ r.due, ?_, ?_⟩
    · rw [ByteReports.send, hmade, List.append_assoc]
    · rw [List.flatMap_append, due_numbered]
      exact (List.append_nil _).trans hlog
  late := h.late
  early := h.early

/-- Keeping a reading for a later epoch changes no edge. -/
theorem keep (h : Edged at_ base r epoch clock) (now : ℚ) (reported : Bool) :
    Edged at_ base (r.keep now reported) epoch clock := by
  unfold ByteReports.keep
  split
  · exact h
  · exact ⟨h.opened, h.short, h.sent, h.late, h.early⟩

/-- A flush passes the edges before it and reports what is due. -/
theorem flush (h : Edged at_ base r epoch clock) (htotal : r.total = sumBytes epoch) {now : ℚ}
    (hnow : clock ≤ now) : Edged at_ base (r.flush now) epoch now :=
  ((h.pass htotal hnow).1.send now).keep now true

/-- A count closes the edges before its bytes and is not in them. -/
theorem count (h : Edged at_ base r epoch clock) (htotal : r.total = sumBytes epoch) {now : ℚ}
    (hnow : clock ≤ now) (bytes : ℕ) :
    Edged at_ base (r.count bytes now) (epoch ++ [⟨now, bytes⟩]) now := by
  obtain ⟨hpass, hnext⟩ := h.pass htotal hnow
  have hadd := hpass.add bytes hnext
  unfold ByteReports.count
  dsimp only
  split
  · refine hadd.flush ?_ le_rfl
    obtain ⟨edge, edges, heq⟩ := r.pass_eq now
    rw [heq, sumBytes_append, sumBytes_singleton, ← htotal]
    rfl
  · exact hadd.keep now false

/-- A window that opens starts at edge 1 with nothing pending. -/
theorem opens (r : ByteReports) (at_ : ℚ) (hnew : r.opened ≠ some at_) (epoch : List Count)
    (clock : ℚ) (hlate : ∀ c ∈ epoch, 0 < c.bytes → c.at_ ≤ at_ + edgeMs) :
    Edged at_ r.reported (r.edgesFrom at_) epoch clock := by
  rw [ByteReports.edgesFrom, if_neg hnew]
  refine ⟨rfl, Nat.one_pos, ⟨[], (List.append_nil _).symm, rfl⟩, fun c hc hpos => ?_, ?_⟩
  · rw [Nat.cast_one, one_mul]
    exact hlate c hc hpos
  · intro k hk hlt
    exact absurd hk (not_le.mpr hlt)

end Edged

namespace ByteReports

/-- What was reported and what is pending, over the total. -/
def held (r : ByteReports) : ℤ := (r.reported.map (·.bytes)).sum + r.bytes - r.total

end ByteReports

/-- Allowed calls keep the totals. -/
theorem run_sound {w : World} (h : w.Sound) {calls : List Call}
    (hallowed : Machine.Along World.Allowed World.call w calls) : (calls.foldl World.call w).Sound :=
  hallowed.keeps World.Sound (fun _ _ hsound hfit => World.call_sound hsound hfit) h

/-- What is reported are the first of the edges passed. -/
theorem Edged.reported {at_ : ℚ} {base : List Report} {r : ByteReports} {epoch : List Count}
    {clock : ℚ} (h : Edged at_ base r epoch clock) :
    ∃ made n, r.reported = base ++ made ∧ made.flatMap Report.numbered =
      (List.range' 1 n).map (fun k : ℕ => (countedBy epoch (at_ + k * edgeMs), k)) ∧
        n + r.edges.length = r.edge - 1 := by
  obtain ⟨made, hmade, hlog⟩ := h.sent
  have hlength := congrArg List.length hlog
  rw [List.length_append, ByteReports.pending, List.length_zipIdx, List.length_map,
    List.length_range'] at hlength
  refine ⟨made, (made.flatMap Report.numbered).length, hmade, ?_, hlength⟩
  have htake := congrArg (List.take (made.flatMap Report.numbered).length) hlog
  rw [List.take_left, ← List.map_take, List.take_range'_of_length_ge (by omega)] at htake
  exact htake

end GraphiteMeter.Browser.Bytes
