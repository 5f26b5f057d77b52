import Mathlib.Algebra.BigOperators.Group.Finset.Basic
import GraphiteMeter.Measure.Observe

/-!
# The byte ledger

Reference: `rust/client/src/measure/aggregate.rs` (`credit`, `Ledger::credit`). Resuming and dropping
out observe boundaries again that were credited before, after newer ones were. A ledger holds the
highest download count and the latest receiver with its highest count, so it covers every reading it
was credited with, and one it covers changes nothing.

`downloaded` and `uploaded` say what a server's bytes are in the counts it reported, without the
order in which a ledger meets them.
-/

namespace Word

/-- Saturating before an addition changes nothing. -/
theorem saturatingAdd_saturate (a b : ℕ) : saturatingAdd (saturate a) b = saturate (a + b) := by
  simp only [saturatingAdd, saturate]
  omega

end Word

namespace GraphiteMeter.Measure

/-! ## What a ledger covers -/

/-- The counts of the receivers in one reading, in the order a ledger meets them. -/
def Reading.feds (reading : Reading) : List Fed :=
  reading.fed.toList ++ (reading.up.map fun up => (⟨up.id, up.counters.bytes⟩ : Fed)).toList

namespace Ledger

/-- Whether a count is no news: of an older receiver, or at most the highest of the current one. -/
def Old (ledger : Ledger) (fed : Fed) : Prop :=
  ∃ current, ledger.up = some current ∧
    (fed.id < current.id ∨ fed.id = current.id ∧ fed.bytes ≤ current.bytes)

structure Covers (ledger : Ledger) (reading : Reading) : Prop where
  bounded : ledger.bytes.down ≤ Word.max
  down : ∀ count, reading.down = some count → ∃ high, ledger.down = some high ∧ count ≤ high
  up : ∀ fed ∈ reading.feds, ledger.Old fed

variable {ledger : Ledger}

/-- A reading credits its download count, then its feeds in order. -/
theorem read_eq (ledger : Ledger) (reading : Reading) :
    ledger.read reading
      = reading.feds.foldl credit (reading.down.elim ledger ledger.creditDown) := rfl

/-- What is old credits nothing. -/
theorem credit_of_old {fed : Fed} (h : ledger.Old fed) : ledger.credit fed = ledger := by
  obtain ⟨current, hcurrent, hold⟩ := h
  simp only [credit, hcurrent, if_pos hold]

/-- Nor do feeds that are all old. -/
theorem foldl_credit_of_old {feds : List Fed} (h : ∀ fed ∈ feds, ledger.Old fed) :
    feds.foldl credit ledger = ledger := by
  induction feds with
  | nil => rfl
  | cons fed feds ih =>
    rw [List.foldl_cons, credit_of_old (h fed List.mem_cons_self)]
    exact ih fun f hf => h f (List.mem_cons_of_mem _ hf)

/-- A download count that is not higher credits nothing. -/
theorem creditDown_of_le {count high : ℕ} (hbounded : ledger.bytes.down ≤ Word.max)
    (hdown : ledger.down = some high) (hle : count ≤ high) : ledger.creditDown count = ledger := by
  obtain ⟨server, down, up, bytes⟩ := ledger
  subst hdown
  have hnone : count - high = 0 := by omega
  simp only [creditDown, Option.getD_some, Nat.max_eq_left hle, hnone, Word.saturatingAdd,
    Word.saturate, Nat.add_zero, Nat.min_eq_left hbounded]

/-- **A reading that is covered changes nothing.** -/
theorem Covers.read {reading : Reading} (h : ledger.Covers reading) :
    ledger.read reading = ledger := by
  rw [read_eq]
  match hdown : reading.down with
  | none => exact foldl_credit_of_old h.up
  | some count =>
    obtain ⟨high, hhigh, hle⟩ := h.down count hdown
    rw [Option.elim_some, creditDown_of_le h.bounded hhigh hle]
    exact foldl_credit_of_old h.up

/-! ### What was covered stays covered -/

/-- What is old stays so. -/
theorem Old.credit {fed : Fed} (h : ledger.Old fed) (next : Fed) : (ledger.credit next).Old fed := by
  obtain ⟨current, hcurrent, hold⟩ := h
  simp only [Ledger.credit, hcurrent]
  split_ifs with hnext hid
  · exact ⟨current, hcurrent, hold⟩
  · exact ⟨next, rfl, by omega⟩
  · exact ⟨next, rfl, by omega⟩

/-- What was credited is old. -/
theorem old_credit_self (ledger : Ledger) (next : Fed) : (ledger.credit next).Old next := by
  rw [Ledger.credit]
  match hup : ledger.up with
  | none => exact ⟨next, rfl, .inr ⟨rfl, le_rfl⟩⟩
  | some current =>
    simp only
    split_ifs with hnext hid
    · exact ⟨current, hup, hnext⟩
    · exact ⟨next, rfl, .inr ⟨rfl, le_rfl⟩⟩
    · exact ⟨next, rfl, .inr ⟨rfl, le_rfl⟩⟩

/-- What is old stays so over a run of feeds. -/
theorem Old.foldl {fed : Fed} (h : ledger.Old fed) (feds : List Fed) :
    (feds.foldl Ledger.credit ledger).Old fed := by
  induction feds generalizing ledger with
  | nil => exact h
  | cons next feds ih => exact ih (h.credit next)

/-- Every feed of a run is old after it. -/
theorem old_foldl {feds : List Fed} {fed : Fed} (h : fed ∈ feds) (ledger : Ledger) :
    (feds.foldl Ledger.credit ledger).Old fed := by
  induction feds generalizing ledger with
  | nil => cases h
  | cons next feds ih =>
    rcases List.mem_cons.mp h with rfl | h
    · exact (old_credit_self ledger fed).foldl feds
    · exact ih h _

@[simp]
theorem credit_down (ledger : Ledger) (next : Fed) :
    (ledger.credit next).down = ledger.down ∧ (ledger.credit next).bytes.down = ledger.bytes.down ∧
      (ledger.credit next).server = ledger.server := by
  rw [Ledger.credit]
  split
  · exact ⟨rfl, rfl, rfl⟩
  · split_ifs <;> exact ⟨rfl, rfl, rfl⟩

/-- Receivers' counts leave the download side alone. -/
theorem foldl_credit_down (ledger : Ledger) (feds : List Fed) :
    (feds.foldl Ledger.credit ledger).down = ledger.down ∧
      (feds.foldl Ledger.credit ledger).bytes.down = ledger.bytes.down ∧
      (feds.foldl Ledger.credit ledger).server = ledger.server := by
  induction feds generalizing ledger with
  | nil => exact ⟨rfl, rfl, rfl⟩
  | cons next feds ih =>
    obtain ⟨hdown, hbytes, hserver⟩ := ih (ledger.credit next)
    obtain ⟨hdown', hbytes', hserver'⟩ := credit_down ledger next
    exact ⟨hdown.trans hdown', hbytes.trans hbytes', hserver.trans hserver'⟩

/-- A reading that is covered stays so. -/
theorem Covers.of_read {reading : Reading} (h : ledger.Covers reading) (next : Reading) :
    (ledger.read next).Covers reading := by
  rw [read_eq]
  match next.down with
  | none =>
    obtain ⟨hdown, hbytes, -⟩ := foldl_credit_down ledger next.feds
    exact ⟨hbytes ▸ h.bounded, fun count hc => hdown ▸ h.down count hc,
      fun fed hfed => (h.up fed hfed).foldl next.feds⟩
  | some count =>
    obtain ⟨hdown, hbytes, -⟩ := foldl_credit_down (ledger.creditDown count) next.feds
    refine ⟨hbytes ▸ Nat.min_le_right _ _, fun c hc => ?_, fun fed hfed => ?_⟩
    · obtain ⟨high, hhigh, hle⟩ := h.down c hc
      refine ⟨max high count, ?_, hle.trans (Nat.le_max_left _ _)⟩
      rw [Option.elim_some, hdown]
      simp only [creditDown, hhigh, Option.getD_some]
    · obtain ⟨current, hcurrent, hold⟩ := h.up fed hfed
      have hstill : (ledger.creditDown count).Old fed := ⟨current, hcurrent, hold⟩
      exact hstill.foldl next.feds

/-- A reading is covered once read. -/
theorem covers_read (ledger : Ledger) (hbounded : ledger.bytes.down ≤ Word.max)
    (reading : Reading) : (ledger.read reading).Covers reading := by
  rw [read_eq]
  match hreading : reading.down with
  | none =>
    obtain ⟨-, hbytes, -⟩ := foldl_credit_down ledger reading.feds
    refine ⟨hbytes ▸ hbounded, fun count hc => ?_, fun fed hfed => old_foldl hfed _⟩
    rw [hreading] at hc
    cases hc
  | some count =>
    obtain ⟨hdown, hbytes, -⟩ := foldl_credit_down (ledger.creditDown count) reading.feds
    refine ⟨hbytes ▸ Nat.min_le_right _ _, fun c hc => ?_, fun fed hfed => old_foldl hfed _⟩
    rw [hreading] at hc
    cases hc
    exact ⟨_, hdown, Nat.le_max_right _ _⟩

/-- A reading that is covered stays so over a run. -/
theorem Covers.foldl {reading : Reading} (h : ledger.Covers reading) (readings : List Reading) :
    (readings.foldl Ledger.read ledger).Covers reading := by
  induction readings generalizing ledger with
  | nil => exact h
  | cons next readings ih => exact ih (h.of_read next)

/-- A ledger covers every reading it was credited with. -/
theorem covers_foldl (hbounded : ledger.bytes.down ≤ Word.max) {readings : List Reading}
    {reading : Reading} (h : reading ∈ readings) : (readings.foldl read ledger).Covers reading := by
  induction readings generalizing ledger with
  | nil => cases h
  | cons next readings ih =>
    rcases List.mem_cons.mp h with rfl | h
    · exact (covers_read ledger hbounded reading).foldl readings
    · exact ih (covers_read ledger hbounded next).bounded h

/-- **Readings credited before change nothing when they are credited again.** -/
theorem foldl_read_again (hbounded : ledger.bytes.down ≤ Word.max) {readings again : List Reading}
    (h : ∀ reading ∈ again, reading ∈ readings) :
    (readings ++ again).foldl read ledger = readings.foldl read ledger := by
  rw [List.foldl_append]
  induction again with
  | nil => rfl
  | cons reading again ih =>
    rw [List.foldl_cons, (covers_foldl hbounded (h reading List.mem_cons_self)).read]
    exact ih fun r hr => h r (List.mem_cons_of_mem _ hr)

@[simp]
theorem read_server (ledger : Ledger) (reading : Reading) :
    (ledger.read reading).server = ledger.server := by
  rw [read_eq, (foldl_credit_down _ reading.feds).2.2]
  cases reading.down <;> rfl

end Ledger

/-! ## One server's ledger -/

/-- The readings of one server at a boundary. -/
def Boundary.readingsOf (b : Boundary) (server : ServerId) : List Reading :=
  b.readings.filter fun reading => reading.server = server

/-- Crediting a reading changes only its server's ledger. -/
theorem find?_creditReading (ledgers : List Ledger) (reading : Reading) (server : ServerId) :
    (creditReading ledgers reading).find? (fun ledger => ledger.server = server)
      = (ledgers.find? fun ledger => ledger.server = server).map fun ledger =>
        if reading.server = server then ledger.read reading else ledger := by
  induction ledgers with
  | nil => rfl
  | cons ledger ledgers ih =>
    rw [creditReading]
    by_cases hown : ledger.server = server
    · -- The server's ledger stands first; a reading of another server leaves it.
      by_cases hread : ledger.server = reading.server
      · simp [hread, hread.symm.trans hown]
      · have hother : reading.server ≠ server := fun h => hread (hown.trans h.symm)
        rw [if_neg hread]
        simp [hown, hother]
    · by_cases hread : ledger.server = reading.server
      · have hother : reading.server ≠ server := fun h => hown (hread.trans h)
        simp [hread, hother]
      · rw [if_neg hread, List.find?_cons_of_neg (by simpa using hown), ih,
          List.find?_cons_of_neg (by simpa using hown)]

namespace Aggregate

/-- The ledger `bytes` reads for a server. -/
def ledgerOf (s : Aggregate) (server : ServerId) : Option Ledger :=
  s.ledgers.find? fun ledger => ledger.server = server

/-- A boundary credits each ledger with the readings of its server. -/
theorem ledgerOf_credit (s : Aggregate) (b : Boundary) (server : ServerId) :
    (s.credit b).ledgerOf server
      = (s.ledgerOf server).map fun ledger => (b.readingsOf server).foldl Ledger.read ledger := by
  have hfold : ∀ (readings : List Reading) (ledgers : List Ledger),
      (readings.foldl creditReading ledgers).find? (fun ledger => ledger.server = server)
        = (ledgers.find? fun ledger => ledger.server = server).map fun ledger =>
          (readings.filter fun reading => reading.server = server).foldl Ledger.read ledger := by
    intro readings
    induction readings with
    | nil => simp
    | cons reading readings ih =>
      intro ledgers
      rw [List.foldl_cons, ih, find?_creditReading, Option.map_map]
      congr 1
      funext ledger
      by_cases hserver : reading.server = server
      · simp [hserver]
      · simp [hserver]
  exact hfold b.readings s.ledgers

/-! ## Replays -/

variable {s : Aggregate}

/-- Observing a boundary credits it once or, where evidence resumes, twice. -/
theorem observe_ledgers (s : Aggregate) (b : Boundary) :
    (s.observe b).2.ledgers = (s.credit b).ledgers ∨
      (s.observe b).2.ledgers = ((s.credit b).credit b).ledgers := by
  have hobserved := observe_cases s b
  generalize (s.observe b).1 = sample, (s.observe b).2 = t at hobserved
  have hagain : ∀ r, (s.noted b).resumed b = some r →
      (r.credit b).ledgers = ((s.credit b).credit b).ledgers := by
    intro r hresumed
    rw [credit, resumed_ledgers hresumed]
    rfl
  cases hobserved with
  | skipped => exact .inl rfl
  | started => exact .inl (start_ledgers _ _)
  | extended => exact .inl rfl
  | waiting r hresumed => exact .inr (hagain r hresumed)
  | resumed r interval earlier hresumed =>
    exact .inr ((start_ledgers _ _).trans (hagain r hresumed))

/-- The boundaries a caller passed, in order. -/
def passed : List Call → List Boundary
  | [] => []
  | .observe b :: calls => b :: passed calls
  | .dropout _ _ :: calls => passed calls

/-- The readings of one server at these boundaries. -/
def readingsAt (bs : List Boundary) (server : ServerId) : List Reading :=
  bs.flatMap fun b => b.readingsOf server

/-- The ledgers are those of one fold over the boundaries passed, and the latest is one of them. -/
structure Credited (s₀ : Aggregate) (bs : List Boundary) (s : Aggregate) : Prop where
  ledgers : ∀ server, s.ledgerOf server
    = (s₀.ledgerOf server).map fun ledger => (readingsAt bs server).foldl Ledger.read ledger
  latest : ∀ b, s.latest = some b → b ∈ bs

variable {s₀ : Aggregate} {bs : List Boundary}

/-- One more boundary is credited after the others. -/
theorem Credited.credit (h : Credited s₀ bs s) (b : Boundary) (server : ServerId) :
    (s.credit b).ledgerOf server = (s₀.ledgerOf server).map fun ledger =>
      (readingsAt (bs ++ [b]) server).foldl Ledger.read ledger := by
  rw [ledgerOf_credit, h.ledgers, Option.map_map]
  congr 1
  funext ledger
  simp only [Function.comp_apply, readingsAt, List.flatMap_append, List.flatMap_singleton,
    List.foldl_append]

/-- A boundary credited before changes nothing. -/
theorem Credited.credit_again (h : Credited s₀ bs s) (hbounded : ∀ server ledger,
    s₀.ledgerOf server = some ledger → ledger.bytes.down ≤ Word.max) {b : Boundary} (hb : b ∈ bs)
    (server : ServerId) : (s.credit b).ledgerOf server = s.ledgerOf server := by
  rw [h.credit, h.ledgers]
  match hledger : s₀.ledgerOf server with
  | none => rfl
  | some ledger =>
    have hagain : ∀ reading ∈ b.readingsOf server, reading ∈ readingsAt bs server :=
      fun reading hr => List.mem_flatMap.mpr ⟨b, hb, hr⟩
    rw [Option.map_some, Option.map_some, ← Ledger.foldl_read_again (hbounded _ _ hledger) hagain]
    simp only [readingsAt, List.flatMap_append, List.flatMap_singleton]

/-- What is credited again is what was. -/
theorem Credited.of_ledgers (h : Credited s₀ bs s) {t : Aggregate} (hledgers : t.ledgers = s.ledgers)
    (hlatest : ∀ b, t.latest = some b → b ∈ bs) : Credited s₀ bs t := by
  refine ⟨fun server => ?_, hlatest⟩
  rw [ledgerOf, hledgers]
  exact h.ledgers server

/-- **Observing a boundary** credits it once. -/
theorem Credited.observe (h : Credited s₀ bs s) (hbounded : ∀ server ledger,
    s₀.ledgerOf server = some ledger → ledger.bytes.down ≤ Word.max) (b : Boundary) :
    Credited s₀ (bs ++ [b]) (s.observe b).2 := by
  have hb : ∀ b', (s.observe b).2.latest = some b' → b' ∈ bs ++ [b] := by
    intro b' hb'
    cases (observe_latest s b).symm.trans hb'
    exact List.mem_append_right _ (List.mem_singleton_self _)
  have honce : Credited s₀ (bs ++ [b]) (s.noted b) :=
    ⟨h.credit b, fun b' hb' => by cases hb'; simp⟩
  rcases observe_ledgers s b with hledgers | hledgers
  · exact honce.of_ledgers hledgers hb
  · refine ⟨fun server => ?_, hb⟩
    rw [ledgerOf, hledgers, ← honce.ledgers]
    exact honce.credit_again hbounded (by simp) server

/-- Observing it again credits nothing. -/
theorem Credited.observe_again (h : Credited s₀ bs s) (hbounded : ∀ server ledger,
    s₀.ledgerOf server = some ledger → ledger.bytes.down ≤ Word.max) {b : Boundary} (hb : b ∈ bs) :
    Credited s₀ bs (s.observe b).2 := by
  have hb' : ∀ b', (s.observe b).2.latest = some b' → b' ∈ bs := by
    intro b' h'
    cases (observe_latest s b).symm.trans h'
    exact hb
  have honce : Credited s₀ bs (s.credit b) :=
    ⟨fun server => (h.credit_again hbounded hb server).trans (h.ledgers server), h.latest⟩
  rcases observe_ledgers s b with hledgers | hledgers
  · exact honce.of_ledgers hledgers hb'
  · refine ⟨fun server => ?_, hb'⟩
    rw [ledgerOf, hledgers, ← honce.ledgers]
    exact honce.credit_again hbounded hb server

/-- A restart among the survivors keeps the ledgers. -/
theorem Credited.survived (h : Credited s₀ bs s) (interval : Interval) (earlier : List Interval)
    (mark : Mark) (survivors : List ServerId) :
    Credited s₀ bs
      (((s.cut interval earlier mark).restart .dropout survivors mark.boundary.at_).start
        mark.boundary) := by
  refine h.of_ledgers (start_ledgers _ _) fun b hb => ?_
  rw [start_latest] at hb
  exact h.latest b hb

/-- A dropout keeps the ledgers. -/
theorem Credited.dropout (h : Credited s₀ bs s) (hbounded : ∀ server ledger,
    s₀.ledgerOf server = some ledger → ledger.bytes.down ≤ Word.max) (survivors : List ServerId)
    (at_ : ℕ) : Credited s₀ bs (s.dropout survivors at_) := by
  have hdropped := dropout_cases s survivors at_
  generalize s.dropout survivors at_ = t at hdropped
  cases hdropped with
  | idle => exact h
  | restarted => exact h.of_ledgers rfl h.latest
  | cut => exact h.of_ledgers rfl h.latest
  | survived interval earlier mark => exact h.survived interval earlier mark survivors
  | replayed interval earlier mark latest hintervals hmark hsome hlatest =>
    exact (h.survived interval earlier mark survivors).observe_again hbounded
      (h.latest latest hlatest)

/-- **Each boundary passed is credited once**, whatever is observed again. -/
theorem run_credited (hbounded : ∀ server ledger,
    s₀.ledgerOf server = some ledger → ledger.bytes.down ≤ Word.max) (calls : List Call)
    (h : Credited s₀ bs s) : Credited s₀ (bs ++ passed calls) (calls.foldl call s) := by
  induction calls generalizing bs s with
  | nil =>
    rw [passed, List.append_nil]
    exact h
  | cons c calls ih =>
    cases c with
    | observe b =>
      rw [passed, ← List.singleton_append, ← List.append_assoc]
      exact ih (h.observe hbounded b)
    | dropout survivors at_ => exact ih (h.dropout hbounded survivors at_)

end Aggregate

/-! ## What the counts come to -/

/-- The highest download count less the first. -/
def downloaded (counts : List ℕ) : ℕ := counts.foldl max 0 - counts.headD 0

/-- A count joins those of current receivers unless its receiver is older than one of them. -/
def joinCurrent (current : List Fed) (fed : Fed) : List Fed :=
  if current.any fun f => fed.id < f.id then current else current ++ [fed]

/-- The counts of receivers while they were current. -/
def whileCurrent (feds : List Fed) : List Fed := feds.foldl joinCurrent []

def highest (feds : List Fed) (id : ℕ) : ℕ :=
  ((feds.filter fun fed => fed.id = id).map Fed.bytes).foldl max 0

/-- The growth of the first receiver and the highest counts of the others. -/
def growth (current : List Fed) : ℕ :=
  match current with
  | [] => 0
  | first :: _ =>
    (highest current first.id - first.bytes) +
      ∑ id ∈ (current.map Fed.id).toFinset.erase first.id, highest current id

/-- The growth of the first-seen receiver while it was current and the highest count of each newer
one while current. -/
def uploaded (feds : List Fed) : ℕ := growth (whileCurrent feds)

/-- The largest of a longer list. -/
theorem foldl_max_append (l : List ℕ) (n : ℕ) : (l ++ [n]).foldl max 0 = max (l.foldl max 0) n := by
  rw [List.foldl_append]
  rfl

/-- No member is larger than the largest. -/
theorem le_foldl_max {l : List ℕ} {n : ℕ} (h : n ∈ l) : n ≤ l.foldl max 0 := by
  induction l using List.reverseRecOn with
  | nil => cases h
  | append_singleton l last ih =>
    rw [foldl_max_append]
    rcases List.mem_append.mp h with h | h
    · exact (ih h).trans (Nat.le_max_left _ _)
    · rw [List.mem_singleton.mp h]
      exact Nat.le_max_right _ _

/-- One more feed raises only its own receiver's count. -/
theorem highest_append (feds : List Fed) (fed : Fed) (id : ℕ) :
    highest (feds ++ [fed]) id
      = if fed.id = id then max (highest feds id) fed.bytes else highest feds id := by
  rw [highest, List.filter_append]
  by_cases h : fed.id = id
  · rw [if_pos h, List.filter_cons_of_pos (by simpa using h), List.filter_nil, List.map_append,
      List.map_singleton, foldl_max_append, highest]
  · rw [if_neg h, List.filter_cons_of_neg (by simpa using h), List.filter_nil, List.append_nil,
      highest]

/-- No feed is above its receiver's highest count. -/
theorem le_highest {feds : List Fed} {fed : Fed} (h : fed ∈ feds) :
    fed.bytes ≤ highest feds fed.id :=
  le_foldl_max (List.mem_map.mpr ⟨fed, List.mem_filter.mpr ⟨h, by simp⟩, rfl⟩)

/-- A receiver without feeds has counted nothing. -/
theorem highest_of_notMem {feds : List Fed} {id : ℕ} (h : id ∉ feds.map Fed.id) :
    highest feds id = 0 := by
  have hnone : (feds.filter fun fed => fed.id = id) = [] := by
    rw [List.filter_eq_nil_iff]
    intro fed hfed heq
    exact h (List.mem_map.mpr ⟨fed, hfed, by simpa using heq⟩)
  rw [highest, hnone]
  rfl

/-- One more count adds what it is above the highest of its receiver. -/
theorem growth_append {current : List Fed} (hne : current ≠ []) (fed : Fed) :
    growth (current ++ [fed]) = growth current + (fed.bytes - highest current fed.id) := by
  obtain ⟨first, rest, rfl⟩ := List.exists_cons_of_ne_nil hne
  rw [List.cons_append, growth, growth, ← List.cons_append]
  set current := first :: rest with hcurrent
  have hfirst : first.bytes ≤ highest current first.id := le_highest List.mem_cons_self
  set ids := (current.map Fed.id).toFinset with hids
  have hids' : ((current ++ [fed]).map Fed.id).toFinset = insert fed.id ids := by
    ext id
    simp [hids]
  rw [hids', highest_append]
  by_cases hown : fed.id = first.id
  · -- The first receiver counts on; the others' counts stay.
    have hmem : first.id ∈ ids := by simp [hids, hcurrent]
    have hsum : ∑ id ∈ ids.erase first.id, highest (current ++ [fed]) id
        = ∑ id ∈ ids.erase first.id, highest current id := by
      refine Finset.sum_congr rfl fun id hid => ?_
      rw [highest_append, if_neg fun h => (Finset.mem_erase.mp hid).1 (h.symm.trans hown)]
    rw [if_pos hown, hown, Finset.insert_eq_of_mem hmem, hsum]
    omega
  · rw [if_neg hown, Finset.erase_insert_of_ne hown]
    set others := ids.erase first.id
    have hnew : fed.id ∉ others → highest current fed.id = 0 := by
      intro hnot
      refine highest_of_notMem fun hmem => hnot ?_
      exact Finset.mem_erase.mpr ⟨hown, List.mem_toFinset.mpr hmem⟩
    have hinsert := Finset.mem_insert_self fed.id others
    have hrest : ∑ id ∈ (insert fed.id others).erase fed.id, highest (current ++ [fed]) id
        = ∑ id ∈ (insert fed.id others).erase fed.id, highest current id := by
      refine Finset.sum_congr rfl fun id hid => ?_
      rw [highest_append, if_neg fun h => (Finset.mem_erase.mp hid).1 h.symm]
    rw [← Finset.add_sum_erase _ _ hinsert, hrest, highest_append, if_pos rfl,
      ← Finset.sum_insert_of_eq_zero_if_notMem hnew, ← Finset.add_sum_erase _ _ hinsert]
    omega

namespace Ledger

variable {ledger : Ledger} {current : List Fed}

/-- The upload side of a ledger is that of the counts of current receivers. -/
structure UpHolds (ledger : Ledger) (current : List Fed) : Prop where
  bytes : ledger.bytes.up = Word.saturate (growth current)
  empty : current = [] → ledger.up = none
  latest : current ≠ [] → ∃ latest, ledger.up = some latest ∧ (∀ fed ∈ current, fed.id ≤ latest.id) ∧
    latest.id ∈ current.map Fed.id ∧ latest.bytes = highest current latest.id

/-- A feed keeps what the upload side holds. -/
theorem UpHolds.credit (h : ledger.UpHolds current) (fed : Fed) :
    (ledger.credit fed).UpHolds (joinCurrent current fed) := by
  by_cases hempty : current = []
  · subst hempty
    have hjoin : joinCurrent [] fed = [fed] := rfl
    rw [hjoin, Ledger.credit, h.empty rfl]
    refine ⟨?_, nofun, fun _ => ⟨fed, rfl, by simp, by simp, by simp [highest]⟩⟩
    simp only [h.bytes, Word.saturatingAdd_saturate]
    simp [growth, highest]
  obtain ⟨latest, hup, hle, hmem, hhighest⟩ := h.latest hempty
  have hjoin : (current.any fun f => fed.id < f.id) = true ↔ fed.id < latest.id := by
    rw [List.any_eq_true]
    constructor
    · rintro ⟨f, hf, hlt⟩
      exact (of_decide_eq_true hlt).trans_le (hle f hf)
    · intro hlt
      obtain ⟨f, hf, hid⟩ := List.mem_map.mp hmem
      exact ⟨f, hf, decide_eq_true (hid ▸ hlt)⟩
  simp only [Ledger.credit, hup, joinCurrent]
  by_cases hold : fed.id < latest.id
  · rw [if_pos (.inl hold), if_pos (hjoin.mpr hold)]
    exact h
  rw [if_neg (hjoin.not.mpr hold)]
  have hne : current ++ [fed] ≠ [] := by simp
  have hlatest : ∀ f ∈ current ++ [fed], f.id ≤ fed.id := by
    intro f hf
    rcases List.mem_append.mp hf with hf | hf
    · exact (hle f hf).trans (Nat.le_of_not_lt hold)
    · rw [List.mem_singleton.mp hf]
  by_cases hid : fed.id = latest.id
  · by_cases hbytes : fed.bytes ≤ latest.bytes
    · -- The current receiver counted no more.
      rw [if_pos (.inr ⟨hid, hbytes⟩)]
      have hzero : fed.bytes - highest current fed.id = 0 := by
        rw [hid, ← hhighest]
        omega
      refine ⟨?_, fun h => absurd h hne,
        fun _ => ⟨latest, hup, fun f hf => hid ▸ hlatest f hf, by simp [hid], ?_⟩⟩
      · rw [growth_append hempty, hzero, Nat.add_zero]
        exact h.bytes
      · rw [highest_append, if_pos hid, ← hhighest, Nat.max_eq_left hbytes]
    · rw [if_neg (by omega), if_pos hid]
      refine ⟨?_, fun h => absurd h hne, fun _ => ⟨fed, rfl, hlatest, by simp, ?_⟩⟩
      · rw [growth_append hempty, h.bytes, Word.saturatingAdd_saturate, hhighest, hid]
      · rw [highest_append, if_pos rfl, hid, ← hhighest, Nat.max_eq_right (by omega)]
  · -- A newer receiver counts from zero.
    have hnew : highest current fed.id = 0 := by
      refine highest_of_notMem fun hmem => ?_
      obtain ⟨f, hf, heq⟩ := List.mem_map.mp hmem
      have := hle f hf
      omega
    rw [if_neg (by omega), if_neg hid]
    refine ⟨?_, fun h => absurd h hne, fun _ => ⟨fed, rfl, hlatest, by simp, ?_⟩⟩
    · rw [growth_append hempty, h.bytes, Word.saturatingAdd_saturate, hnew, Nat.sub_zero]
    · rw [highest_append, if_pos rfl, hnew, Nat.max_eq_right (Nat.zero_le _)]

/-- So does a run of feeds. -/
theorem UpHolds.foldl (h : ledger.UpHolds current) (feds : List Fed) :
    (feds.foldl Ledger.credit ledger).UpHolds (feds.foldl joinCurrent current) := by
  induction feds generalizing ledger current with
  | nil => exact h
  | cons fed feds ih => exact ih (h.credit fed)

/-- So does a reading. -/
theorem UpHolds.read (h : ledger.UpHolds current) (reading : Reading) :
    (ledger.read reading).UpHolds (reading.feds.foldl joinCurrent current) := by
  rw [read_eq]
  refine UpHolds.foldl ?_ reading.feds
  match reading.down with
  | none => exact h
  | some count => exact ⟨h.bytes, h.empty, h.latest⟩

/-- So does a run of readings. -/
theorem UpHolds.foldl_read (h : ledger.UpHolds current) (readings : List Reading) :
    (readings.foldl Ledger.read ledger).UpHolds
      ((readings.flatMap Reading.feds).foldl joinCurrent current) := by
  induction readings generalizing ledger current with
  | nil => exact h
  | cons reading readings ih =>
    rw [List.flatMap_cons, List.foldl_append]
    exact ih (h.read reading)

/-- The download side of a ledger is that of the counts it met. -/
structure DownHolds (ledger : Ledger) (counts : List ℕ) : Prop where
  bytes : ledger.bytes.down = Word.saturate (downloaded counts)
  down : ledger.down = if counts = [] then none else some (counts.foldl max 0)

/-- A download count keeps what the download side holds. -/
theorem DownHolds.creditDown {counts : List ℕ} (h : ledger.DownHolds counts) (count : ℕ) :
    (ledger.creditDown count).DownHolds (counts ++ [count]) := by
  match counts with
  | [] =>
    have hdown : ledger.down = none := h.down
    refine ⟨?_, ?_⟩
    · simp only [Ledger.creditDown, hdown, h.bytes, Word.saturatingAdd_saturate]
      simp [downloaded]
    · simp only [Ledger.creditDown, hdown]
      simp
  | first :: rest =>
    have hdown : ledger.down = some ((first :: rest).foldl max 0) := h.down
    have hfirst : first ≤ (first :: rest).foldl max 0 := le_foldl_max List.mem_cons_self
    refine ⟨?_, ?_⟩
    · simp only [Ledger.creditDown, hdown, h.bytes, Word.saturatingAdd_saturate,
        Option.getD_some, downloaded, List.headD_cons, List.cons_append]
      rw [← List.cons_append, foldl_max_append]
      congr 1
      omega
    · simp only [Ledger.creditDown, hdown, Option.getD_some, foldl_max_append]
      simp

/-- So does a reading. -/
theorem DownHolds.read {counts : List ℕ} (h : ledger.DownHolds counts) (reading : Reading) :
    (ledger.read reading).DownHolds (counts ++ reading.down.toList) := by
  rw [read_eq]
  match reading.down with
  | none =>
    obtain ⟨hdown, hbytes, -⟩ := foldl_credit_down ledger reading.feds
    rw [Option.toList_none, List.append_nil]
    exact ⟨hbytes.trans h.bytes, hdown.trans h.down⟩
  | some count =>
    obtain ⟨hdown, hbytes, -⟩ := foldl_credit_down (ledger.creditDown count) reading.feds
    exact ⟨hbytes.trans (h.creditDown count).bytes, hdown.trans (h.creditDown count).down⟩

/-- So does a run of readings. -/
theorem DownHolds.foldl_read {counts : List ℕ} (h : ledger.DownHolds counts)
    (readings : List Reading) :
    (readings.foldl Ledger.read ledger).DownHolds
      (counts ++ readings.flatMap fun reading => reading.down.toList) := by
  induction readings generalizing ledger counts with
  | nil =>
    rw [List.flatMap_nil, List.append_nil]
    exact h
  | cons reading readings ih =>
    rw [List.flatMap_cons, ← List.append_assoc]
    exact ih (h.read reading)

end Ledger

namespace Aggregate

/-- Each participant starts with an empty ledger. -/
theorem ledgerOf_new (stage : Stage) (participants : List ServerId) (at_ : ℕ) (server : ServerId) :
    (new stage participants at_).ledgerOf server
      = if server ∈ participants then some ⟨server, none, none, ⟨0, 0⟩⟩ else none := by
  change (participants.map _).find? _ = _
  induction participants with
  | nil => rfl
  | cons id ids ih =>
    by_cases hid : id = server
    · subst hid
      simp
    · rw [List.map_cons, List.find?_cons_of_neg (by simpa using hid), ih]
      simp [Ne.symm hid]

/-- An empty ledger is within the counters. -/
theorem new_bounded (stage : Stage) (participants : List ServerId) (at_ : ℕ) (server : ServerId)
    (ledger : Ledger) (h : (new stage participants at_).ledgerOf server = some ledger) :
    ledger.bytes.down ≤ Word.max := by
  rw [ledgerOf_new] at h
  split_ifs at h
  cases h
  exact Nat.zero_le _

/-- One fold over the boundaries reads a server's readings in order. -/
theorem ledgerOf_foldl_credit (bs : List Boundary) (s : Aggregate) (server : ServerId) :
    (bs.foldl credit s).ledgerOf server
      = (s.ledgerOf server).map fun ledger => (readingsAt bs server).foldl Ledger.read ledger := by
  induction bs generalizing s with
  | nil => simp [readingsAt]
  | cons b bs ih =>
    rw [List.foldl_cons, ih, ledgerOf_credit, Option.map_map]
    congr 1
    funext ledger
    simp only [Function.comp_apply, readingsAt, List.flatMap_cons, List.foldl_append]

/-- **The ledger is one fold over the boundaries passed.** After any calls a server's bytes are those
of crediting each boundary once in order: the download count's rise, and each receiver's growth while
it was current, up to the largest number the counters hold. -/
theorem bytes_exact (stage : Stage) (participants : List ServerId) (at_ : ℕ) (calls : List Call)
    (server : ServerId) :
    (∀ direction, (calls.foldl call (new stage participants at_)).bytes server direction
      = ((passed calls).foldl credit (new stage participants at_)).bytes server direction) ∧
    ((calls.foldl call (new stage participants at_)).bytes server .down
      = if server ∈ participants then
          Word.saturate (downloaded
            ((readingsAt (passed calls) server).flatMap fun reading => reading.down.toList))
        else 0) ∧
    (calls.foldl call (new stage participants at_)).bytes server .up
      = if server ∈ participants then
          Word.saturate (uploaded ((readingsAt (passed calls) server).flatMap Reading.feds))
        else 0 := by
  have hinit : Credited (new stage participants at_) [] (new stage participants at_) := by
    refine ⟨fun server => ?_, nofun⟩
    simp [readingsAt]
  have hrun := run_credited (new_bounded stage participants at_) calls hinit
  rw [List.nil_append] at hrun
  have hbytes : ∀ (s : Aggregate) direction, s.bytes server direction
      = (s.ledgerOf server).elim 0 fun ledger => ledger.bytes.get direction := fun _ _ => rfl
  refine ⟨fun direction => ?_, ?_, ?_⟩
  · rw [hbytes, hbytes, hrun.ledgers, ledgerOf_foldl_credit]
  all_goals
    rw [hbytes, hrun.ledgers, ledgerOf_new]
    split_ifs
    swap
    · rfl
    rw [Option.map_some, Option.elim_some]
  · have hholds : (⟨server, none, none, ⟨0, 0⟩⟩ : Ledger).DownHolds [] := ⟨rfl, rfl⟩
    exact (hholds.foldl_read _).bytes
  · have hholds : (⟨server, none, none, ⟨0, 0⟩⟩ : Ledger).UpHolds [] :=
      ⟨rfl, fun _ => rfl, fun h => absurd rfl h⟩
    exact (hholds.foldl_read _).bytes

end Aggregate

end GraphiteMeter.Measure
