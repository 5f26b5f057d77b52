import GraphiteMeter.Lib.Machine
import GraphiteMeter.Server.Upload.Aggregate
import Mathlib.Order.MinMax

/-!
# Observations of one aggregate

Reference: `rust/server/src/engine/uploads.rs` (`Aggregate::record`, `Aggregate::counters`) and
`rust/proto/src/upload.rs` (`Counters`).

Any number of lanes record and any number of readers observe, one atomic step at a time and in any
order. A lane passes the once-cell of the first chunk's time before it adds its bytes; the lane that
finds the cell empty runs its initialiser, which reads the clock, and the others wait. A reader holds
the `observing` lock while it loads the bytes, reads the cell and then the clock. So what a reader
sees of either counter is never less than what the reader before it saw (`Seen`).
-/

namespace GraphiteMeter.Server.Upload.Observation

open Proto (Counters maxCounter)

/-- How far the reader that holds the lock has come. -/
inductive Reader where
  | locked
  | loaded (bytes : ℕ)
  /-- With what it read of the cell. -/
  | got (bytes : ℕ) (first : Option ℕ)
deriving DecidableEq, Repr

structure World where
  aggregate : Aggregate
  /-- A lane runs the cell's initialiser, with the clock once it read it. -/
  initializing : Option (Option ℕ)
  /-- What the lanes record that have not passed the cell yet. -/
  entering : List ℕ
  /-- What the lanes record that have passed it and not added their bytes yet. -/
  adding : List ℕ
  /-- The reader that holds `observing`. -/
  observing : Option Reader
  now : ℕ

/-- One atomic step of some lane or reader, or of the clock. -/
inductive Action where
  | clock (now : ℕ)
  /-- A lane calls `record`. -/
  | record (bytes : ℕ)
  /-- It finds the cell set. -/
  | pass (bytes : ℕ)
  /-- It finds the cell empty and starts to initialise it. -/
  | startInit
  | readClock
  /-- It sets the cell and goes on. -/
  | set (bytes : ℕ)
  | add (bytes : ℕ)
  /-- A reader calls `counters`. -/
  | lock
  | load
  | get
  /-- It reads the clock if the cell was set, and unlocks. -/
  | observe
deriving DecidableEq, Repr

inductive Event where
  | added (bytes : ℕ)
  /-- An observation, with what it read of the cell. -/
  | observed (counters : Counters) (first : Option ℕ)
deriving DecidableEq, Repr

/-- The nanoseconds since the first chunk, none before it. -/
def elapsed (first : Option ℕ) (now : ℕ) : ℕ := first.elim 0 fun first => clockNow now - first

namespace World

/-- A new aggregate of `owner`. -/
def new (owner : ClientKey) : World :=
  ⟨⟨owner, 0, none, ⟨0, 0, .open, 0⟩⟩, none, [], [], none, 0⟩

def step (w : World) : Action → Option (World × List Event)
  | .clock now => if w.now ≤ now then some ({ w with now }, []) else none
  | .record bytes => some ({ w with entering := bytes :: w.entering }, [])
  | .pass bytes =>
    if bytes ∈ w.entering ∧ w.aggregate.first.isSome then
      some ({ w with entering := w.entering.erase bytes, adding := bytes :: w.adding }, [])
    else none
  | .startInit =>
    if w.entering ≠ [] ∧ w.aggregate.first = none ∧ w.initializing = none then
      some ({ w with initializing := some none }, [])
    else none
  | .readClock =>
    if w.initializing = some none then
      some ({ w with initializing := some (some (clockNow w.now)) }, [])
    else none
  | .set bytes =>
    match w.initializing with
    | some (some first) =>
      if bytes ∈ w.entering then
        some ({ w with
          aggregate := { w.aggregate with first := some first }
          initializing := none
          entering := w.entering.erase bytes
          adding := bytes :: w.adding }, [])
      else none
    | _ => none
  | .add bytes =>
    if bytes ∈ w.adding then
      some ({ w with
        aggregate := w.aggregate.recordBytes bytes
        adding := w.adding.erase bytes }, [.added bytes])
    else none
  | .lock => if w.observing = none then some ({ w with observing := some .locked }, []) else none
  | .load =>
    if w.observing = some .locked then
      some ({ w with observing := some (.loaded w.aggregate.bytes) }, [])
    else none
  | .get =>
    match w.observing with
    | some (.loaded bytes) =>
      some ({ w with observing := some (.got bytes w.aggregate.first) }, [])
    | _ => none
  | .observe =>
    match w.observing with
    | some (.got bytes first) =>
      some ({ w with observing := none },
        [.observed (Counters.new bytes (elapsed first w.now)) first])
    | _ => none

end World

/-! ## What the log says -/

/-- The bytes lanes added. -/
def addedBytes (log : List Event) : List ℕ :=
  log.filterMap fun
    | .added bytes => some bytes
    | .observed _ _ => none

/-- The observations, in the order they were taken. -/
def observations (log : List Event) : List Counters :=
  log.filterMap fun
    | .added _ => none
    | .observed counters _ => some counters

/-- A longer log added what each part of it did. -/
theorem addedBytes_append (log events : List Event) :
    addedBytes (log ++ events) = addedBytes log ++ addedBytes events := List.filterMap_append

/-- A longer log observed what each part of it did. -/
theorem observations_append (log events : List Event) :
    observations (log ++ events) = observations log ++ observations events :=
  List.filterMap_append

/-! ## The invariant -/

namespace World

/-- The bytes the next observation shows: those its reader loaded, or those there are. -/
def shown (w : World) : ℕ :=
  match w.observing with
  | some (.loaded bytes) | some (.got bytes _) => bytes
  | _ => w.aggregate.bytes

/-- The cell the next observation shows. -/
def cell (w : World) : Option ℕ :=
  match w.observing with
  | some (.got _ first) => first
  | _ => w.aggregate.first

/-- What holds of an aggregate and its log, as long as the bytes fit the counter. -/
structure Seen (log : List Event) (w : World) : Prop where
  /-- No byte is lost. -/
  total : w.aggregate.bytes = (addedBytes log).sum
  /-- Whoever adds has passed the cell. -/
  passed : w.adding ≠ [] → w.aggregate.first.isSome
  counted : 0 < w.aggregate.bytes → w.aggregate.first.isSome
  /-- While the cell is being initialised it is empty. -/
  once : w.initializing ≠ none → w.aggregate.first = none
  /-- The clock is not behind what it showed the initialiser. -/
  reading : ∀ first, w.initializing = some (some first) → first ≤ clockNow w.now
  first : ∀ first, w.aggregate.first = some first → first ≤ clockNow w.now
  /-- What a reader has seen is still so. -/
  shown_le : w.shown ≤ w.aggregate.bytes
  cell_eq : ∀ first, w.cell = some first → w.aggregate.first = some first
  /-- A reader shows no bytes without a first chunk's time. -/
  timed : 0 < w.shown → w.cell.isSome
  /-- The next observation shows no less than any before it. -/
  follows : ∀ c ∈ observations log,
    c.bytes ≤ min w.shown maxCounter ∧ c.nanos ≤ min (elapsed w.cell w.now) maxCounter
  ordered : (observations log).Pairwise fun earlier later => later.follows earlier = true
  evidence : ∀ c first, .observed c first ∈ log → 0 < c.bytes → first.isSome

variable {w w' : World} {log events : List Event}

/-- The clock follows the time. -/
theorem clockNow_mono {t u : ℕ} (h : t ≤ u) : clockNow t ≤ clockNow u :=
  min_le_min_right _ h

/-- What has elapsed follows the time. -/
theorem elapsed_mono (first : Option ℕ) {t u : ℕ} (h : t ≤ u) : elapsed first t ≤ elapsed first u := by
  cases first with
  | none => exact le_rfl
  | some first => exact Nat.sub_le_sub_right (clockNow_mono h) first

/-- A cell that is set since it was read shows no less time. -/
theorem elapsed_le_of_eq {cell first : Option ℕ} (h : ∀ t, cell = some t → first = some t) (now : ℕ) :
    elapsed cell now ≤ elapsed first now := by
  cases cell with
  | none => exact Nat.zero_le _
  | some t => rw [h t rfl]

/-- What was seen is followed by whatever shows no less. -/
theorem Seen.follows_mono {shown : ℕ} {cell : Option ℕ} {now : ℕ} (h : Seen log w)
    (hshown : w.shown ≤ shown) (hcell : elapsed w.cell w.now ≤ elapsed cell now) :
    ∀ c ∈ observations log,
      c.bytes ≤ min shown maxCounter ∧ c.nanos ≤ min (elapsed cell now) maxCounter := by
  intro c hc
  obtain ⟨hbytes, hnanos⟩ := h.follows c hc
  exact ⟨hbytes.trans (min_le_min_right _ hshown), hnanos.trans (min_le_min_right _ hcell)⟩

/-- The passing of time keeps what was seen. -/
theorem Seen.clock (h : Seen log w) {now : ℕ} (hle : w.now ≤ now) : Seen log { w with now } where
  total := h.total
  passed := h.passed
  counted := h.counted
  once := h.once
  reading first hfirst := (h.reading first hfirst).trans (clockNow_mono hle)
  first first hfirst := (h.first first hfirst).trans (clockNow_mono hle)
  shown_le := h.shown_le
  cell_eq := h.cell_eq
  timed := h.timed
  follows := h.follows_mono le_rfl (elapsed_mono _ hle)
  ordered := h.ordered
  evidence := h.evidence

/-- Lanes that wait or have not added yet change nothing a reader sees. -/
theorem Seen.lanes (h : Seen log w) {initializing : Option (Option ℕ)} (entering adding : List ℕ)
    (hpassed : adding ≠ [] → w.aggregate.first.isSome)
    (honce : initializing ≠ none → w.aggregate.first = none)
    (hreading : ∀ first, initializing = some (some first) → first ≤ clockNow w.now) :
    Seen log { w with initializing, entering, adding } where
  total := h.total
  passed := hpassed
  counted := h.counted
  once := honce
  reading := hreading
  first := h.first
  shown_le := h.shown_le
  cell_eq := h.cell_eq
  timed := h.timed
  follows := h.follows
  ordered := h.ordered
  evidence := h.evidence

/-- The first chunk's time is set. A reader that has read the cell found it empty. -/
theorem Seen.set (h : Seen log w) {first : ℕ} (hinit : w.initializing = some (some first))
    (entering adding : List ℕ) :
    Seen log { w with
      aggregate := { w.aggregate with first := some first }
      initializing := none, entering, adding } := by
  have hnone : w.aggregate.first = none := h.once (by rw [hinit]; simp)
  have hcell : w.cell = none := by
    by_contra hsome
    obtain ⟨t, ht⟩ := Option.ne_none_iff_exists'.mp hsome
    rw [h.cell_eq t ht] at hnone
    cases hnone
  have hshown : ¬ 0 < w.shown := fun hpos => by
    have hsome := h.timed hpos
    rw [hcell] at hsome
    cases hsome
  refine ⟨h.total, fun _ => rfl, fun _ => rfl, nofun, nofun, ?_, h.shown_le, ?_, fun hpos => absurd hpos hshown,
    ?_, h.ordered, h.evidence⟩
  · rintro t ht
    cases ht
    exact h.reading first hinit
  · intro t ht
    obtain ⟨aggregate, initializing, entering', adding', observing, now⟩ := w
    match observing with
    | none | some .locked | some (.loaded _) => exact ht
    | some (.got _ cell) =>
      -- what this reader read of the cell stays empty
      have hgot : cell = none := hcell
      rw [show (cell = some t) from ht] at hgot
      cases hgot
  · refine h.follows_mono le_rfl ?_
    rw [hcell]
    exact Nat.zero_le _

/-- Adding bytes keeps what was seen. -/
theorem Seen.add (h : Seen log w) {bytes : ℕ} (hmem : bytes ∈ w.adding)
    (hfits : (addedBytes (log ++ [.added bytes])).sum < 2 ^ 64) :
    Seen (log ++ [.added bytes]) { w with
      aggregate := w.aggregate.recordBytes bytes, adding := w.adding.erase bytes } := by
  have hfirst : w.aggregate.first.isSome := h.passed (List.ne_nil_of_mem hmem)
  have hsum : (addedBytes (log ++ [.added bytes])).sum = (addedBytes log).sum + bytes := by
    rw [addedBytes_append, List.sum_append]
    rfl
  have hbytes : (w.aggregate.recordBytes bytes).bytes = w.aggregate.bytes + bytes := by
    refine Word.wrappingAdd_of_lt ?_
    rw [h.total, ← hsum]
    exact hfits
  have hobs : observations (log ++ [.added bytes]) = observations log := by
    rw [observations_append]
    exact List.append_nil _
  obtain ⟨aggregate, initializing, entering, adding, observing, now⟩ := w
  have hshown : World.shown ⟨aggregate, initializing, entering, adding, observing, now⟩ ≤
      World.shown ⟨aggregate.recordBytes bytes, initializing, entering, adding.erase bytes,
        observing, now⟩ := by
    match observing with
    | none | some .locked => exact (Nat.le_add_right _ _).trans hbytes.ge
    | some (.loaded _) | some (.got _ _) => exact le_rfl
  refine ⟨?_, fun _ => hfirst, fun _ => hfirst, h.once, h.reading, h.first, ?_, h.cell_eq, ?_, ?_, ?_, ?_⟩
  · rw [hsum, ← h.total]
    exact hbytes
  · have hle := h.shown_le
    match observing with
    | none | some .locked => exact le_rfl
    | some (.loaded _) | some (.got _ _) =>
      rw [hbytes]
      exact hle.trans (Nat.le_add_right _ _)
  · match observing with
    | none | some .locked => exact fun _ => hfirst
    | some (.loaded _) | some (.got _ _) => exact h.timed
  · rw [hobs]
    exact h.follows_mono hshown le_rfl
  · rw [hobs]
    exact h.ordered
  · intro c first hmem'
    apply h.evidence c first
    simpa using hmem'

/-- A reader takes a step before its last: what it will show does not change. -/
theorem Seen.reader (h : Seen log w) {observing : Option Reader}
    (hshown : World.shown { w with observing } = w.shown)
    (hcell : World.cell { w with observing } = w.cell) : Seen log { w with observing } where
  total := h.total
  passed := h.passed
  counted := h.counted
  once := h.once
  reading := h.reading
  first := h.first
  shown_le := by
    rw [hshown]
    exact h.shown_le
  cell_eq := by
    rw [hcell]
    exact h.cell_eq
  timed := by
    rw [hshown, hcell]
    exact h.timed
  follows := by
    rw [hshown, hcell]
    exact h.follows
  ordered := h.ordered
  evidence := h.evidence

/-- A reader is done: its observation follows all before it. -/
theorem Seen.observe (h : Seen log w) {bytes : ℕ} {first : Option ℕ}
    (hgot : w.observing = some (.got bytes first)) :
    Seen (log ++ [.observed (Counters.new bytes (elapsed first w.now)) first])
      { w with observing := none } := by
  have hshown : w.shown = bytes := by rw [shown, hgot]
  have hcell : w.cell = first := by rw [cell, hgot]
  have hadded : addedBytes (log ++ [.observed (Counters.new bytes (elapsed first w.now)) first]) =
      addedBytes log := by
    rw [addedBytes_append]
    exact List.append_nil _
  have hobs : observations (log ++ [.observed (Counters.new bytes (elapsed first w.now)) first]) =
      observations log ++ [Counters.new bytes (elapsed first w.now)] := by
    rw [observations_append]
    rfl
  -- what was loaded may be behind by now, and what is observed next only grows
  have hbytes : bytes ≤ w.aggregate.bytes := hshown ▸ h.shown_le
  have htime : elapsed first w.now ≤ elapsed w.aggregate.first w.now :=
    elapsed_le_of_eq (hcell ▸ h.cell_eq) w.now
  refine ⟨?_, h.passed, h.counted, h.once, h.reading, h.first, le_rfl, fun _ hfirst => hfirst,
    h.counted, ?_, ?_, ?_⟩
  · rw [hadded]
    exact h.total
  · rw [hobs]
    intro c hc
    rcases List.mem_append.mp hc with hc | hc
    · exact h.follows_mono (hshown ▸ hbytes) (hcell ▸ htime) c hc
    · rw [List.mem_singleton.mp hc]
      exact ⟨min_le_min_right _ hbytes, min_le_min_right _ htime⟩
  · rw [hobs, List.pairwise_append]
    refine ⟨h.ordered, List.pairwise_singleton _ _, ?_⟩
    intro earlier hearlier later hlater
    rw [List.mem_singleton.mp hlater]
    obtain ⟨hle, hle'⟩ := h.follows earlier hearlier
    rw [hshown] at hle
    rw [hcell] at hle'
    simp only [Counters.follows, decide_eq_true_eq]
    exact ⟨hle, hle'⟩
  · intro c first' hmem hpos
    rcases List.mem_append.mp hmem with hmem | hmem
    · exact h.evidence c first' hmem hpos
    · obtain ⟨rfl, rfl⟩ : c = Counters.new bytes (elapsed first w.now) ∧ first' = first := by
        simpa using hmem
      rw [← hcell]
      apply h.timed
      rw [hshown]
      exact hpos.trans_le (Nat.min_le_left _ _)

/-! ## Every interleaving -/

/-- Adding events adds to the bytes. -/
theorem sum_le_of_append (log events : List Event) :
    (addedBytes log).sum ≤ (addedBytes (log ++ events)).sum := by
  rw [addedBytes_append, List.sum_append]
  exact Nat.le_add_right _ _

/-- **One atomic step** of any lane or reader keeps what was seen. -/
theorem step_seen {a : Action} (h : Seen log w) (hstep : w.step a = some (w', events))
    (hfits : (addedBytes (log ++ events)).sum < 2 ^ 64) : Seen (log ++ events) w' := by
  cases a with
  | clock now =>
    simp only [step] at hstep
    split_ifs at hstep with hle
    cases hstep
    rw [List.append_nil]
    exact h.clock hle
  | record bytes =>
    cases hstep
    rw [List.append_nil]
    exact h.lanes (bytes :: w.entering) w.adding h.passed h.once h.reading
  | pass bytes =>
    simp only [step] at hstep
    split_ifs at hstep with hset
    cases hstep
    rw [List.append_nil]
    exact h.lanes (w.entering.erase bytes) (bytes :: w.adding) (fun _ => hset.2) h.once h.reading
  | startInit =>
    simp only [step] at hstep
    split_ifs at hstep with hempty
    cases hstep
    rw [List.append_nil]
    exact h.lanes w.entering w.adding h.passed (fun _ => hempty.2.1) nofun
  | readClock =>
    simp only [step] at hstep
    split_ifs at hstep with hinit
    cases hstep
    rw [List.append_nil]
    refine h.lanes w.entering w.adding h.passed (fun _ => h.once (by rw [hinit]; simp)) ?_
    intro first hfirst
    cases hfirst
    exact le_rfl
  | set bytes =>
    simp only [step] at hstep
    split at hstep
    case h_1 first hinit =>
      split_ifs at hstep
      cases hstep
      rw [List.append_nil]
      exact h.set hinit _ _
    case h_2 => cases hstep
  | add bytes =>
    simp only [step] at hstep
    split_ifs at hstep with hmem
    cases hstep
    exact h.add hmem hfits
  | lock =>
    simp only [step] at hstep
    split_ifs at hstep with hfree
    cases hstep
    rw [List.append_nil]
    refine h.reader ?_ ?_
    · simp only [shown, hfree]
    · simp only [cell, hfree]
  | load =>
    simp only [step] at hstep
    split_ifs at hstep with hlocked
    cases hstep
    rw [List.append_nil]
    refine h.reader ?_ ?_
    · simp only [shown, hlocked]
    · simp only [cell, hlocked]
  | get =>
    simp only [step] at hstep
    split at hstep
    case h_1 bytes hloaded =>
      cases hstep
      rw [List.append_nil]
      refine h.reader ?_ ?_
      · simp only [shown, hloaded]
      · simp only [cell, hloaded]
    case h_2 => cases hstep
  | observe =>
    simp only [step] at hstep
    split at hstep
    case h_1 bytes first hgot =>
      cases hstep
      exact h.observe hgot
    case h_2 => cases hstep

/-- A new aggregate has been seen to hold nothing. -/
theorem new_seen (owner : ClientKey) : Seen [] (new owner) where
  total := rfl
  passed := fun h => absurd rfl h
  counted := fun h => absurd h (Nat.lt_irrefl 0)
  once := fun h => absurd rfl h
  reading := nofun
  first := nofun
  shown_le := le_rfl
  cell_eq := nofun
  timed := fun h => absurd h (Nat.lt_irrefl 0)
  follows := nofun
  ordered := List.Pairwise.nil
  evidence := nofun

/-- **Observations of an aggregate follow one another**, however the steps of its lanes and readers
interleave: in the order they were taken neither bytes nor nanos fall, capped or not, and none shows
bytes without having read a first chunk's time. -/
theorem observations_follow {owner : ClientKey} {actions : List Action}
    (hrun : Machine.run step (new owner) actions = some (w, log))
    (hfits : (addedBytes log).sum < 2 ^ 64) :
    (observations log).Pairwise (fun earlier later =>
      earlier.bytes ≤ later.bytes ∧ earlier.nanos ≤ later.nanos ∧ later.follows earlier = true) ∧
      ∀ c first, .observed c first ∈ log → 0 < c.bytes → first.isSome := by
  have hseen : (addedBytes ([] ++ log)).sum < 2 ^ 64 → Seen ([] ++ log) w :=
    Machine.run_induct (fun log w => (addedBytes log).sum < 2 ^ 64 → Seen log w)
      (fun log _ _ _ events h hstep hsum =>
        step_seen (h ((sum_le_of_append log events).trans_lt hsum)) hstep hsum)
      (fun _ => new_seen owner) hrun
  rw [List.nil_append] at hseen
  refine ⟨(hseen hfits).ordered.imp ?_, (hseen hfits).evidence⟩
  intro earlier later hfollows
  have hboth := hfollows
  simp only [Counters.follows, decide_eq_true_eq] at hboth
  exact ⟨hboth.1, hboth.2, hfollows⟩

/-- A lane adds between the two reads of a reader. -/
def torn : List Action :=
  [.record 5, .startInit, .readClock, .set 5, .lock, .load, .add 5, .get, .clock 7, .observe,
   .lock, .load, .get, .clock 9, .observe]

/-- A torn observation, followed by a whole one. -/
theorem observations_follow_torn :
    ∃ w log, Machine.run step (new (.v4 1)) torn = some (w, log) ∧
      observations log = [⟨0, 7⟩, ⟨5, 9⟩] ∧ (⟨5, 9⟩ : Counters).follows ⟨0, 7⟩ = true := by
  have heval : (Machine.run step (new (.v4 1)) torn).map (fun end_ =>
      (observations end_.2, (addedBytes end_.2).sum)) = some ([⟨0, 7⟩, ⟨5, 9⟩], 5) := by
    decide +kernel
  obtain ⟨⟨w, log⟩, hrun, hend⟩ := Option.map_eq_some_iff.mp heval
  obtain ⟨hobs, hsum⟩ := Prod.mk.inj hend
  dsimp only at hobs hsum
  refine ⟨w, log, hrun, hobs, ?_⟩
  have hordered := (observations_follow hrun (by rw [hsum]; decide)).1
  rw [hobs] at hordered
  exact (List.rel_of_pairwise_cons hordered (List.mem_singleton_self _)).2.2

end World

end GraphiteMeter.Server.Upload.Observation
