import GraphiteMeter.Browser.Series

/-!
# A fold packs

`fold` reads and writes one array. What it has written are the bins of a packing, each one's first item
while it is open and its merge once it is closed, and what it has yet to read is untouched
(`Refines`). So a fold is the merge of each bin (`fold_eq`), and lengthens nothing.
-/

namespace GraphiteMeter.Browser.Series

open Packing (Bin Packed Packs pack)

variable {T G L : Type}

/-- The lane of an item that the fold may merge. -/
def Kind.foldLane [DecidableEq G] (kind : Kind T G L) (group : G) (horizon : ℚ) (item : T) : Option L :=
  if kind.group item = group ∧ kind.end_ item < horizon then some (kind.lane item) else none

/-- An item joins a bin of its slot. -/
def Kind.fits (kind : Kind T G L) (grid : Grid) (strict : Bool) (bin : Bin T) (item : T) : Bool :=
  grid.cell (kind.at_ bin.first) = grid.cell (kind.at_ item) ∧ (!strict || kind.joins bin.last item)

/-- What a bin comes to. -/
def Kind.value (kind : Kind T G L) (grid : Grid) (bin : Bin T) : T :=
  if bin.rest ≠ [] then
    kind.merge bin (grid.start (grid.cell (kind.at_ bin.first)))
      (grid.start (grid.cell (kind.at_ bin.first)) + grid.width)
  else bin.first

section Settled

variable {kind : Kind T G L} {grid : Grid} {items : List T} {bins : List (Bin T)} {P Q : ℕ → Prop}

/-- Each bin is written: its first item while it is open, and else what it comes to. -/
structure Settled (kind : Kind T G L) (grid : Grid) (items : List T) (bins : List (Bin T))
    (P : ℕ → Prop) : Prop where
  open_ : ∀ j b, bins[j]? = some b → P j → items[j]? = some b.first
  closed : ∀ j b, bins[j]? = some b → ¬ P j → items[j]? = some (kind.value grid b)

/-- The entry of an open bin. -/
def entryOf (kind : Kind T G L) (grid : Grid) (j : ℕ) (bin : Bin T) : Entry T :=
  ⟨j, grid.cell (kind.at_ bin.first), bin⟩

/-- Closing a bin leaves the others. -/
theorem close_getElem?_of_ne (items : List T) {entry : Entry T} {k : ℕ} (hk : entry.index ≠ k) :
    (kind.close grid items entry)[k]? = items[k]? := by
  unfold Kind.close
  split
  · exact List.getElem?_set_ne hk
  · rfl

/-- What is settled reads which bins are closed. -/
theorem Settled.congr (h : Settled kind grid items bins P) (hPQ : ∀ j, P j ↔ Q j) :
    Settled kind grid items bins Q :=
  funext (fun j => propext (hPQ j)) ▸ h

/-- Closing a bin settles one more. -/
theorem Settled.close (h : Settled kind grid items bins P) {j : ℕ} {b : Bin T}
    (hb : bins[j]? = some b) (hj : P j) :
    Settled kind grid (kind.close grid items (entryOf kind grid j b)) bins fun k => P k ∧ k ≠ j := by
  have hlt : j < items.length := (List.getElem?_eq_some_iff.mp (h.open_ j b hb hj)).1
  have hset : kind.close grid items (entryOf kind grid j b) = items.set j (kind.value grid b) := by
    unfold Kind.close Kind.value entryOf
    split
    · rfl
    · have hsame := List.set_getElem_self hlt
      obtain ⟨_, hfirst⟩ := List.getElem?_eq_some_iff.mp (h.open_ j b hb hj)
      rw [hfirst] at hsame
      exact hsame.symm
  rw [hset]
  constructor
  · rintro k b' hb' ⟨hk, hne⟩
    rw [List.getElem?_set_ne hne.symm]
    exact h.open_ k b' hb' hk
  · intro k b' hb' hk
    by_cases hkj : k = j
    · subst hkj
      rw [hb, Option.some.injEq] at hb'
      rw [List.getElem?_set_self hlt, hb']
    · rw [List.getElem?_set_ne (Ne.symm hkj)]
      exact h.closed k b' hb' fun hP => hk ⟨hP, hkj⟩

/-- A new bin is written after the others. -/
theorem Settled.put (h : Settled kind grid items bins P) (hPQ : ∀ j, j < bins.length → (Q j ↔ P j))
    (hlt : bins.length < items.length) (x : T) :
    Settled kind grid (items.set bins.length x) (bins ++ [.single x]) Q := by
  have hcases : ∀ {j : ℕ} {b : Bin T}, (bins ++ [.single x])[j]? = some b →
      (bins[j]? = some b ∧ (Q j ↔ P j) ∧ (items.set bins.length x)[j]? = items[j]?) ∨
        b = .single x ∧ (items.set bins.length x)[j]? = some x := by
    intro j b hb
    by_cases hj : j < bins.length
    · rw [List.getElem?_append_left hj] at hb
      exact .inl ⟨hb, hPQ j hj, List.getElem?_set_ne hj.ne'⟩
    · have hle := (List.getElem?_eq_some_iff.mp hb).1
      rw [List.length_append, List.length_singleton] at hle
      obtain rfl : j = bins.length := by omega
      rw [List.getElem?_concat_length, Option.some.injEq] at hb
      exact .inr ⟨hb.symm, List.getElem?_set_self hlt⟩
  constructor
  · intro j b hb hj
    rcases hcases hb with ⟨hb, hiff, hitem⟩ | ⟨rfl, hitem⟩
    · exact hitem.trans (h.open_ j b hb (hiff.mp hj))
    · exact hitem
  · intro j b hb hj
    rcases hcases hb with ⟨hb, hiff, hitem⟩ | ⟨rfl, hitem⟩
    · exact hitem.trans (h.closed j b hb fun hP => hj (hiff.mpr hP))
    · exact hitem

/-- Closing every open bin leaves none open. -/
theorem Settled.closeAll (h : Settled kind grid items bins P) {entries : List (Entry T)}
    (hopen : ∀ e ∈ entries, ∃ j b, e = entryOf kind grid j b ∧ bins[j]? = some b ∧ P j)
    (hdistinct : entries.Pairwise fun e e' => e.index ≠ e'.index) :
    Settled kind grid (entries.foldl (kind.close grid) items) bins fun j =>
      P j ∧ ∀ e ∈ entries, j ≠ e.index := by
  induction entries generalizing items P with
  | nil => exact h.congr fun j => (and_iff_left (List.forall_mem_nil _)).symm
  | cons e entries ih =>
    obtain ⟨hfirst, hrest⟩ := List.pairwise_cons.mp hdistinct
    obtain ⟨j, b, rfl, hb, hj⟩ := hopen e List.mem_cons_self
    refine (ih (h.close hb hj) (fun e' he' => ?_) hrest).congr fun k => ?_
    · obtain ⟨j', b', rfl, hb', hj'⟩ := hopen e' (List.mem_cons_of_mem _ he')
      exact ⟨j', b', rfl, hb', hj', (hfirst _ he').symm⟩
    · rw [List.forall_mem_cons, and_assoc]
      rfl

/-- A bin that is open takes an item without a write. -/
theorem Settled.push {before after : List (Bin T)} {b : Bin T}
    (h : Settled kind grid items (before ++ b :: after) P) (hopen : P before.length) (x : T) :
    Settled kind grid items (before ++ b.push x :: after) P := by
  have hcases : ∀ {j : ℕ} {c : Bin T}, (before ++ b.push x :: after)[j]? = some c →
      (before ++ b :: after)[j]? = some c ∨ j = before.length ∧ c = b.push x := by
    intro j c hc
    rcases Nat.lt_trichotomy j before.length with hj | rfl | hj
    · rw [List.getElem?_append_left hj] at hc ⊢
      exact .inl hc
    · rw [List.getElem?_append_right le_rfl, Nat.sub_self, List.getElem?_cons_zero,
        Option.some.injEq] at hc
      exact .inr ⟨rfl, hc.symm⟩
    · obtain ⟨k, rfl⟩ := Nat.exists_eq_add_of_lt hj
      have hk : before.length + k + 1 - before.length = k + 1 := by omega
      rw [List.getElem?_append_right (by omega), hk, List.getElem?_cons_succ] at hc ⊢
      exact .inl hc
  constructor
  · intro j c hc hj
    rcases hcases hc with hc | ⟨rfl, rfl⟩
    · exact h.open_ j c hc hj
    · exact h.open_ _ b (by simp) hj
  · intro j c hc hj
    rcases hcases hc with hc | ⟨rfl, rfl⟩
    · exact h.closed j c hc hj
    · exact absurd hopen hj

end Settled

variable [DecidableEq L] {kind : Kind T G L} {grid : Grid} {whole : List T} {i : ℕ}
  {pass : Pass T L} {s : Packed T L}

/-- The pass has packed what it read into what it wrote, and has left the rest as it was. -/
structure Refines (kind : Kind T G L) (grid : Grid) (whole : List T) (i : ℕ) (pass : Pass T L)
    (s : Packed T L) : Prop where
  write : pass.write = s.bins.length
  write_le : s.bins.length ≤ i
  rest : ∀ k, i ≤ k → pass.items[k]? = whole[k]?
  opened : ∀ l, pass.opened.lookup l =
    (s.opened l).bind fun j => s.bins[j]?.map (entryOf kind grid j)
  settled : Settled kind grid pass.items s.bins fun j => ∃ l, s.opened l = some j

/-- The open bin of the lane is closed. -/
theorem Refines.close {lane : T → Option L} {fits : Bin T → T → Bool} {done : List T}
    (h : Refines kind grid whole i pass s) (hpacks : Packs lane fits s done) (l : L) :
    (∀ k, i ≤ k → (pass.closed kind grid l)[k]? = whole[k]?) ∧
      Settled kind grid (pass.closed kind grid l) s.bins fun j =>
        ∃ l', l' ≠ l ∧ s.opened l' = some j := by
  unfold Pass.closed
  cases hopened : s.opened l with
  | none =>
    have hlookup : pass.opened.lookup l = none := by rw [h.opened, hopened, Option.bind_none]
    rw [hlookup]
    refine ⟨h.rest, h.settled.congr fun j => ?_⟩
    refine exists_congr fun l' => ⟨fun hj => ⟨?_, hj⟩, fun hj => hj.2⟩
    rintro rfl
    rw [hopened] at hj
    cases hj
  | some j =>
    obtain ⟨b, hb, -⟩ := hpacks.opened l j hopened
    have hlookup : pass.opened.lookup l = some (entryOf kind grid j b) := by
      rw [h.opened, hopened, Option.bind_some, hb, Option.map_some]
    have hclose := h.settled.close hb ⟨l, hopened⟩
    rw [hlookup]
    refine ⟨fun k hk => ?_, hclose.congr fun j' => ?_⟩
    · have hlt := hpacks.opened_lt hopened
      have hle := h.write_le
      have hne : (entryOf kind grid j b).index ≠ k := fun heq => absurd (show j = k from heq) (by omega)
      exact (close_getElem?_of_ne _ hne).trans (h.rest k hk)
    · constructor
      · rintro ⟨⟨l', hl'⟩, hne⟩
        refine ⟨l', ?_, hl'⟩
        rintro rfl
        exact hne (Option.some.inj (hl'.symm.trans hopened))
      · rintro ⟨l', hne, hl'⟩
        refine ⟨⟨l', hl'⟩, ?_⟩
        rintro rfl
        exact hne (hpacks.opened_injective hl' hopened)

/-- Opening a bin again keeps the refinement. -/
theorem Refines.reopen {lane : T → Option L} {fits : Bin T → T → Bool} {done : List T}
    (h : Refines kind grid whole i pass s) (hpacks : Packs lane fits s done) {item : T}
    (hitem : whole[i]? = some item) (hlane : lane item = some (kind.lane item)) :
    Refines kind grid whole (i + 1) (pass.reopen kind grid item) (s.append lane item) := by
  obtain ⟨hrest, hsettled⟩ := h.close hpacks (kind.lane item)
  have hle := h.write_le
  have hlt : s.bins.length < (pass.closed kind grid (kind.lane item)).length := by
    have hi := (List.getElem?_eq_some_iff.mp ((hrest i le_rfl).trans hitem)).1
    omega
  have hreopen : pass.reopen kind grid item =
      ⟨(pass.closed kind grid (kind.lane item)).set s.bins.length item, s.bins.length + 1,
        pass.opened.insert (kind.lane item) (entryOf kind grid s.bins.length (.single item))⟩ := by
    simp only [Pass.reopen, Pass.put, h.write]
    rfl
  have happend : s.append lane item = ⟨s.bins ++ [.single item],
      Function.update s.opened (kind.lane item) (some s.bins.length)⟩ := by
    rw [Packed.append, hlane, Option.elim_some]
  rw [hreopen, happend]
  have hlength : (s.bins ++ [Bin.single item]).length = s.bins.length + 1 := by
    rw [List.length_append, List.length_singleton]
  refine ⟨hlength.symm, hlength.trans_le (Nat.succ_le_succ hle), fun k hk => ?_, fun l => ?_, ?_⟩
  · exact (List.getElem?_set_ne (by omega)).trans (hrest k (by omega))
  · by_cases hl : l = kind.lane item
    · subst hl
      dsimp only
      rw [AList.lookup_insert, Function.update_self, Option.bind_some, List.getElem?_concat_length,
        Option.map_some]
    · dsimp only
      rw [AList.lookup_insert_ne hl, h.opened, Function.update_of_ne hl]
      cases hopened : s.opened l with
      | none => rfl
      | some j =>
        rw [Option.bind_some, Option.bind_some, List.getElem?_append_left (hpacks.opened_lt hopened)]
  · refine hsettled.put (fun j hj => ?_) hlt item
    refine exists_congr fun l => ?_
    by_cases hl : l = kind.lane item
    · subst hl
      dsimp only
      rw [Function.update_self, Option.some.injEq]
      exact ⟨fun heq => absurd heq hj.ne', fun hne => absurd rfl hne.1⟩
    · dsimp only
      rw [Function.update_of_ne hl]
      exact ⟨fun hopened => ⟨hl, hopened⟩, fun hopened => hopened.2⟩

/-- Putting an item keeps the refinement. -/
theorem Refines.put {lane : T → Option L} {fits : Bin T → T → Bool} {done : List T}
    (h : Refines kind grid whole i pass s) (hpacks : Packs lane fits s done) {item : T}
    (hitem : whole[i]? = some item) (hlane : lane item = none) :
    Refines kind grid whole (i + 1) (pass.put item) (s.append lane item) := by
  have hle := h.write_le
  have hlt : s.bins.length < pass.items.length := by
    have hi := (List.getElem?_eq_some_iff.mp ((h.rest i le_rfl).trans hitem)).1
    omega
  have hput : pass.put item
      = ⟨pass.items.set s.bins.length item, s.bins.length + 1, pass.opened⟩ := by
    rw [Pass.put, h.write]
  have happend : s.append lane item = ⟨s.bins ++ [.single item], s.opened⟩ := by
    rw [Packed.append, hlane, Option.elim_none]
  have hlength : (s.bins ++ [Bin.single item]).length = s.bins.length + 1 := by
    rw [List.length_append, List.length_singleton]
  rw [hput, happend]
  refine ⟨hlength.symm, hlength.trans_le (Nat.succ_le_succ hle), fun k hk => ?_, fun l => ?_, ?_⟩
  · exact (List.getElem?_set_ne (by omega)).trans (h.rest k (by omega))
  · dsimp only
    rw [h.opened]
    cases hopened : s.opened l with
    | none => rfl
    | some j =>
      rw [Option.bind_some, Option.bind_some, List.getElem?_append_left (hpacks.opened_lt hopened)]
  · exact h.settled.put (fun _ _ => Iff.rfl) hlt item

/-- The open bin of the lane takes the item. -/
theorem Refines.push {lane : T → Option L} {fits : Bin T → T → Bool} {done : List T}
    (h : Refines kind grid whole i pass s) (hpacks : Packs lane fits s done) {item : T} {l : L}
    {before after : List (Bin T)} {b : Bin T} (hopened : s.opened l = some before.length)
    (hbins : s.bins = before ++ b :: after) :
    Refines kind grid whole (i + 1)
      { pass with opened := pass.opened.insert l (entryOf kind grid before.length (b.push item)) }
      { s with bins := before ++ b.push item :: after } := by
  have hlength : (before ++ b.push item :: after).length = s.bins.length := by
    rw [hbins, List.length_append, List.length_append, List.length_cons, List.length_cons]
  refine ⟨h.write.trans hlength.symm, hlength.trans_le (h.write_le.trans (Nat.le_succ i)),
    fun k hk => h.rest k (by omega), fun l' => ?_, ?_⟩
  · dsimp only
    by_cases hl : l' = l
    · subst hl
      rw [AList.lookup_insert, hopened, Option.bind_some, List.getElem?_append_right le_rfl,
        Nat.sub_self, List.getElem?_cons_zero, Option.map_some]
    · rw [AList.lookup_insert_ne hl, h.opened]
      match hopened' : s.opened l' with
      | none => rfl
      | some j =>
        have hne : j ≠ before.length := by
          rintro rfl
          exact hl (hpacks.opened_injective hopened' hopened)
        rw [Option.bind_some, Option.bind_some, hbins]
        congr 1
        rcases Nat.lt_or_gt_of_ne hne with hj | hj
        · rw [List.getElem?_append_left hj, List.getElem?_append_left hj]
        · obtain ⟨k, rfl⟩ := Nat.exists_eq_add_of_lt hj
          have hk : before.length + k + 1 - before.length = k + 1 := by omega
          rw [List.getElem?_append_right (by omega), List.getElem?_append_right (by omega), hk,
            List.getElem?_cons_succ, List.getElem?_cons_succ]
  · have hsettled := h.settled
    rw [hbins] at hsettled
    exact hsettled.push ⟨l, hopened⟩ item

section Fold

variable [DecidableEq G] {group : G} {horizon : ℚ} {strict : Bool}

/-- One item read is one item placed. -/
theorem Refines.read {done : List T} (h : Refines kind grid whole i pass s)
    (hpacks : Packs (kind.foldLane group horizon) (kind.fits grid strict) s done) {item : T}
    (hitem : whole[i]? = some item) :
    Refines kind grid whole (i + 1) (pass.read kind group grid horizon strict i)
      (s.place (kind.foldLane group horizon) (kind.fits grid strict) item) := by
  have hread : pass.items[i]? = some item := (h.rest i le_rfl).trans hitem
  simp only [Pass.read, hread]
  split
  case isFalse hnot =>
    have hlane : kind.foldLane group horizon item = none := if_neg hnot
    have hplace : s.place (kind.foldLane group horizon) (kind.fits grid strict) item
        = s.append (kind.foldLane group horizon) item := by
      rw [Packed.place, hlane, Option.bind_none]
    rw [hplace]
    exact h.put hpacks hitem hlane
  case isTrue hfold =>
    have hlane : kind.foldLane group horizon item = some (kind.lane item) := if_pos hfold
    match hopened : s.opened (kind.lane item) with
    | none =>
      have hplace : s.place (kind.foldLane group horizon) (kind.fits grid strict) item
          = s.append (kind.foldLane group horizon) item := by
        rw [Packed.place, hlane, Option.bind_some, hopened]
      have hlookup : pass.opened.lookup (kind.lane item) = none := by
        rw [h.opened, hopened, Option.bind_none]
      rw [hplace, hlookup]
      exact h.reopen hpacks hitem hlane
    | some j =>
      obtain ⟨b, hb, -⟩ := hpacks.opened _ j hopened
      have hlookup : pass.opened.lookup (kind.lane item) = some (entryOf kind grid j b) := by
        rw [h.opened, hopened, Option.bind_some, hb, Option.map_some]
      have hplace : s.place (kind.foldLane group horizon) (kind.fits grid strict) item
          = if kind.fits grid strict b item then { s with bins := s.bins.set j (b.push item) }
            else s.append (kind.foldLane group horizon) item := by
        simp only [Packed.place, hlane, Option.bind_some, hopened, hb]
      have hslot : ((entryOf kind grid j b).slot = grid.cell (kind.at_ item) ∧
          (!strict || kind.joins (entryOf kind grid j b).bin.last item) = true) ↔
            kind.fits grid strict b item := decide_eq_true_iff.symm
      rw [hplace, hlookup]
      simp only [hslot]
      by_cases hfits : kind.fits grid strict b item
      · obtain ⟨hlt, rfl⟩ := List.getElem?_eq_some_iff.mp hb
        obtain ⟨before, after, hbins, rfl, hset⟩ :=
          @List.exists_of_set _ j (s.bins[j].push item) _ hlt
        rw [if_pos hfits, if_pos hfits, hset]
        exact h.push hpacks hopened hbins
      · rw [if_neg hfits, if_neg hfits]
        exact h.reopen hpacks hitem hlane

/-- **A pass** over a prefix refines the packing of it. -/
theorem range_refines (kind : Kind T G L) (group : G) (grid : Grid) (horizon : ℚ) (strict : Bool)
    (whole : List T) {n : ℕ} (hn : n ≤ whole.length) :
    Refines kind grid whole n
      ((List.range n).foldl (Pass.read kind group grid horizon strict) ⟨whole, 0, ∅⟩)
      (pack (kind.foldLane group horizon) (kind.fits grid strict) (whole.take n)) := by
  induction n with
  | zero =>
    refine ⟨rfl, le_rfl, fun _ _ => rfl, fun _ => rfl, ⟨?_, ?_⟩⟩
    · rintro j b ⟨⟩
    · rintro j b ⟨⟩
  | succ n ih =>
    have hitem : whole[n]? = some whole[n] := List.getElem?_eq_getElem hn
    rw [List.range_succ, List.foldl_append, List.take_add_one, hitem, pack, List.foldl_append]
    exact (ih (Nat.le_of_succ_le hn)).read (Packing.pack_packs _ _ _) hitem

/-- **A fold packs its items and merges each bin.** -/
theorem fold_eq (kind : Kind T G L) (group : G) (grid : Grid) (horizon : ℚ) (strict : Bool)
    (items : List T) :
    kind.fold items group grid horizon strict =
      (pack (kind.foldLane group horizon) (kind.fits grid strict) items).bins.map
        (kind.value grid) := by
  have hpacks := Packing.pack_packs (kind.foldLane group horizon) (kind.fits grid strict) items
  have h := range_refines kind group grid horizon strict items le_rfl
  rw [List.take_length] at h
  unfold Kind.fold
  dsimp only
  generalize (List.range items.length).foldl (Pass.read kind group grid horizon strict)
    ⟨items, 0, ∅⟩ = pass at h
  generalize pack (kind.foldLane group horizon) (kind.fits grid strict) items = s at h hpacks
  have hentry : ∀ l e, pass.opened.lookup l = some e →
      ∃ j b, s.opened l = some j ∧ s.bins[j]? = some b ∧ e = entryOf kind grid j b := by
    intro l e hlookup
    rw [h.opened, Option.bind_eq_some_iff] at hlookup
    obtain ⟨j, hj, hmap⟩ := hlookup
    obtain ⟨b, hb, rfl⟩ := Option.map_eq_some_iff.mp hmap
    exact ⟨j, b, hj, hb, rfl⟩
  have hopen : ∀ e ∈ pass.opened.entries.map (·.2), ∃ j b, e = entryOf kind grid j b ∧
      s.bins[j]? = some b ∧ ∃ l, s.opened l = some j := by
    intro e he
    obtain ⟨⟨l, e⟩, hmem, rfl⟩ := List.mem_map.mp he
    obtain ⟨j, b, hj, hb, heq⟩ := hentry l e (AList.mem_lookup_iff.mpr hmem)
    exact ⟨j, b, heq, hb, l, hj⟩
  have hdistinct : (pass.opened.entries.map (·.2)).Pairwise fun e e' => e.index ≠ e'.index := by
    refine List.pairwise_map.mpr ((List.pairwise_map.mp pass.opened.nodupKeys).imp_of_mem ?_)
    rintro ⟨l, e⟩ ⟨l', e'⟩ hmem hmem' hne hindex
    obtain ⟨j, b, hj, -, rfl⟩ := hentry l e (AList.mem_lookup_iff.mpr hmem)
    obtain ⟨j', b', hj', -, rfl⟩ := hentry l' e' (AList.mem_lookup_iff.mpr hmem')
    obtain rfl : j = j' := hindex
    exact hne (hpacks.opened_injective hj hj')
  have hclosed : ∀ (j : ℕ) (b : Bin T), s.bins[j]? = some b →
      ((pass.opened.entries.map (·.2)).foldl (kind.close grid) pass.items)[j]?
        = some (kind.value grid b) := by
    intro j b hb
    refine (h.settled.closeAll hopen hdistinct).closed j b hb ?_
    rintro ⟨⟨l, hl⟩, hnone⟩
    have hlookup : pass.opened.lookup l = some (entryOf kind grid j b) := by
      rw [h.opened, hl, Option.bind_some, hb, Option.map_some]
    exact hnone _ (List.mem_map_of_mem (AList.mem_lookup_iff.mp hlookup)) rfl
  refine List.ext_getElem? fun j => ?_
  rw [List.getElem?_take, List.getElem?_map, h.write]
  split
  case isTrue hj =>
    rw [List.getElem?_eq_getElem hj]
    exact hclosed j _ (List.getElem?_eq_getElem hj)
  case isFalse hj =>
    rw [List.getElem?_eq_none (not_lt.mp hj)]
    rfl

/-- A fold is no longer than what it folds. -/
theorem fold_length_le (kind : Kind T G L) (group : G) (grid : Grid) (horizon : ℚ) (strict : Bool)
    (items : List T) : (kind.fold items group grid horizon strict).length ≤ items.length := by
  rw [fold_eq, List.length_map, ← List.length_map (f := Bin.first)]
  exact (Packing.pack_packs _ _ items).heads.length_le

/-- A fold that shortens nothing merges nothing. -/
theorem fold_eq_self {group : G} {items : List T}
    (h : (kind.fold items group grid horizon strict).length = items.length) :
    kind.fold items group grid horizon strict = items := by
  rw [fold_eq, List.length_map] at h
  rw [fold_eq, (Packing.pack_packs _ _ items).singles h, List.map_map]
  exact List.map_id' items

end Fold

end GraphiteMeter.Browser.Series
