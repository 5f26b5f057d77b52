import Mathlib.Data.List.Basic
import Mathlib.Data.List.Perm.Basic
import Mathlib.Logic.Function.Basic

/-!
# Packing a list into bins

One pass over a list puts each element in a bin. An element without a lane gets one to itself. Of those
in a lane, each joins the lane's open bin where it fits, and else opens one at the end. So lanes may
interleave: a bin takes elements while later bins already stand.

`pack_perm` is that nothing is lost or put twice, and `class_flatMap` that the bins of a class of
elements, read in order, give those elements in order.
-/

namespace Packing

variable {T L C : Type*}

/-- Elements put together, one at least. -/
structure Bin (T : Type*) where
  first : T
  rest : List T
deriving DecidableEq

namespace Bin

def single (x : T) : Bin T := ⟨x, []⟩

def push (b : Bin T) (x : T) : Bin T := { b with rest := b.rest ++ [x] }

def toList (b : Bin T) : List T := b.first :: b.rest

def last (b : Bin T) : T := b.rest.getLastD b.first

@[simp] theorem toList_single (x : T) : (single x).toList = [x] := rfl

@[simp] theorem toList_push (b : Bin T) (x : T) : (b.push x).toList = b.toList ++ [x] := rfl

@[simp] theorem first_push (b : Bin T) (x : T) : (b.push x).first = b.first := rfl

@[simp] theorem first_single (x : T) : (single x).first = x := rfl

theorem first_mem (b : Bin T) : b.first ∈ b.toList := List.mem_cons_self

/-- The last item is in the bin. -/
theorem last_mem (b : Bin T) : b.last ∈ b.toList := by
  obtain ⟨first, rest⟩ := b
  rcases List.eq_nil_or_concat rest with rfl | ⟨rest, x, rfl⟩
  · exact List.mem_cons_self
  · simp [last, toList]

/-- The last of one item is the first. -/
theorem last_of_rest_eq_nil {b : Bin T} (h : b.rest = []) : b.last = b.first := by
  rw [last, h, List.getLastD_nil]

/-- In a bin that is in order all but the last come before it. -/
theorem eq_last_or {R : T → T → Prop} {b : Bin T} (h : b.toList.Pairwise R) :
    ∀ x ∈ b.toList, x = b.last ∨ R x b.last := by
  obtain ⟨first, rest⟩ := b
  rcases List.eq_nil_or_concat rest with rfl | ⟨rest, z, rfl⟩
  · exact fun x hx => .inl (List.mem_singleton.mp hx)
  · intro x hx
    have hlast : (⟨first, rest.concat z⟩ : Bin T).last = z := by simp [last]
    have hlist : (⟨first, rest.concat z⟩ : Bin T).toList = (first :: rest) ++ [z] := by simp [toList]
    rw [hlist] at h hx
    rw [hlast]
    rcases List.mem_append.mp hx with hx | hx
    · exact .inr ((List.pairwise_append.mp h).2.2 x hx z List.mem_cons_self)
    · exact .inl (List.mem_singleton.mp hx)

end Bin

/-- A bin grew by what fit it. -/
inductive Grown (fits : Bin T → T → Bool) : Bin T → Prop
  | single (x : T) : Grown fits (.single x)
  | push {b : Bin T} {x : T} (h : Grown fits b) (hfits : fits b x) : Grown fits (b.push x)

/-- The bins, and where each lane's open one stands. -/
structure Packed (T L : Type*) where
  bins : List (Bin T)
  opened : L → Option ℕ

def Packed.empty : Packed T L := ⟨[], fun _ => none⟩

/-- What the bins are of the elements placed so far. -/
structure Packs (lane : T → Option L) (fits : Bin T → T → Bool) (s : Packed T L) (done : List T) :
    Prop where
  perm : (s.bins.flatMap Bin.toList).Perm done
  heads : (s.bins.map Bin.first).Sublist done
  grown : ∀ b ∈ s.bins, Grown fits b
  lanes : ∀ b ∈ s.bins, ∀ y ∈ b.rest, ∃ l, lane b.first = some l ∧ lane y = some l
  singles : s.bins.length = done.length → s.bins = done.map .single
  opened : ∀ l j, s.opened l = some j → ∃ b, s.bins[j]? = some b ∧ lane b.first = some l

/-- No bins hold no items. -/
theorem Packs.nil {lane : T → Option L} {fits : Bin T → T → Bool} : Packs lane fits .empty [] where
  perm := .nil
  heads := .slnil
  grown := List.forall_mem_nil _
  lanes := List.forall_mem_nil _
  singles _ := rfl
  opened _ _ h := by cases h

namespace Packs

variable {lane : T → Option L} {fits : Bin T → T → Bool} {s : Packed T L} {done : List T}

/-- Two lanes have two open bins. -/
theorem opened_injective (h : Packs lane fits s done) {l l' : L} {j : ℕ} (hl : s.opened l = some j)
    (hl' : s.opened l' = some j) : l = l' := by
  obtain ⟨b, hb, hlane⟩ := h.opened l j hl
  obtain ⟨b', hb', hlane'⟩ := h.opened l' j hl'
  rw [hb, Option.some.injEq] at hb'
  rw [← hb', hlane, Option.some.injEq] at hlane'
  exact hlane'

/-- The bin that is open for a lane is one of the bins. -/
theorem opened_lt (h : Packs lane fits s done) {l : L} {j : ℕ} (hl : s.opened l = some j) :
    j < s.bins.length := by
  obtain ⟨b, hb, -⟩ := h.opened l j hl
  exact (List.getElem?_eq_some_iff.mp hb).1

end Packs

variable [DecidableEq L] (lane : T → Option L) (fits : Bin T → T → Bool)

/-- A bin of its own at the end, the lane's open one where it has a lane. -/
def Packed.append (s : Packed T L) (x : T) : Packed T L where
  bins := s.bins ++ [.single x]
  opened := (lane x).elim s.opened fun l => Function.update s.opened l (some s.bins.length)

def Packed.place (s : Packed T L) (x : T) : Packed T L :=
  match (lane x).bind s.opened with
  | none => s.append lane x
  | some j =>
    match s.bins[j]? with
    | none => s.append lane x
    | some b => if fits b x then { s with bins := s.bins.set j (b.push x) } else s.append lane x

def pack (l : List T) : Packed T L := l.foldl (Packed.place lane fits) .empty

variable {lane fits} {s : Packed T L} {x : T} {done l : List T}

/-- An element gets a bin at the end, or joins the open bin of its lane. -/
theorem Packed.place_cases (lane : T → Option L) (fits : Bin T → T → Bool) (s : Packed T L) (x : T) :
    s.place lane fits x = s.append lane x ∨
    ∃ l before b after, lane x = some l ∧ s.opened l = some before.length ∧ fits b x ∧
      s.bins = before ++ b :: after ∧
      s.place lane fits x = { s with bins := before ++ b.push x :: after } := by
  unfold Packed.place
  split
  case h_1 => exact .inl rfl
  case h_2 j hj =>
    split
    case h_1 => exact .inl rfl
    case h_2 b hb =>
      split
      case isFalse => exact .inl rfl
      case isTrue hfits =>
        obtain ⟨l, hl, hopened⟩ := Option.bind_eq_some_iff.mp hj
        obtain ⟨hlt, rfl⟩ := List.getElem?_eq_some_iff.mp hb
        obtain ⟨before, after, hbins, rfl, hset⟩ :=
          @List.exists_of_set _ j (s.bins[j].push x) _ hlt
        exact .inr ⟨l, before, _, after, hl, hopened, hfits, hbins, congrArg (Packed.mk · _) hset⟩

/-- A new bin for an item keeps the packing. -/
theorem Packs.append (h : Packs lane fits s done) (x : T) :
    Packs lane fits (s.append lane x) (done ++ [x]) where
  perm := by
    rw [Packed.append, List.flatMap_append, List.flatMap_singleton]
    exact h.perm.append_right [x]
  heads := by
    rw [Packed.append, List.map_append]
    exact h.heads.append (List.Sublist.refl [x])
  grown := List.forall_mem_append.mpr ⟨h.grown, List.forall_mem_singleton.mpr (.single x)⟩
  lanes := List.forall_mem_append.mpr ⟨h.lanes,
    List.forall_mem_singleton.mpr (List.forall_mem_nil _)⟩
  singles hlength := by
    rw [Packed.append, List.length_append, List.length_append, List.length_singleton,
      List.length_singleton] at hlength
    rw [Packed.append, List.map_append, h.singles (by omega)]
    rfl
  opened l j hj := by
    have hold : ∀ j, s.opened l = some j →
        ∃ b, (s.bins ++ [.single x])[j]? = some b ∧ lane b.first = some l := by
      intro j hj
      obtain ⟨b, hb, hlane⟩ := h.opened l j hj
      obtain ⟨hlt, -⟩ := List.getElem?_eq_some_iff.mp hb
      exact ⟨b, (List.getElem?_append_left hlt).trans hb, hlane⟩
    match hlane : lane x with
    | none =>
      simp only [Packed.append, hlane, Option.elim_none] at hj
      exact hold j hj
    | some l' =>
      simp only [Packed.append, hlane, Option.elim_some] at hj
      by_cases hl : l = l'
      · subst hl
        rw [Function.update_self, Option.some.injEq] at hj
        subst hj
        exact ⟨_, List.getElem?_concat_length, hlane⟩
      · rw [Function.update_of_ne hl] at hj
        exact hold j hj

/-- Placing an item keeps the packing. -/
theorem Packs.place (h : Packs lane fits s done) (x : T) :
    Packs lane fits (s.place lane fits x) (done ++ [x]) := by
  rcases Packed.place_cases lane fits s x with
    heq | ⟨l, before, b, after, hlane, hopened, hfits, hbins, heq⟩
  · rw [heq]
    exact h.append x
  rw [heq]
  have hmem : b ∈ s.bins := hbins ▸ List.mem_append_right _ List.mem_cons_self
  have hfirst : lane b.first = some l := by
    obtain ⟨b', hb', hlane'⟩ := h.opened l _ hopened
    rw [hbins, List.getElem?_append_right (Nat.le_refl _), Nat.sub_self, List.getElem?_cons_zero,
      Option.some.injEq] at hb'
    exact hb' ▸ hlane'
  have hmap : ((before ++ b.push x :: after).map Bin.first) = s.bins.map Bin.first := by
    rw [hbins, List.map_append, List.map_append]
    rfl
  have hbin : ∀ {P : Bin T → Prop}, (∀ c ∈ s.bins, P c) → P (b.push x) →
      ∀ c ∈ before ++ b.push x :: after, P c := by
    intro P hall hx
    rw [hbins, List.forall_mem_append, List.forall_mem_cons] at hall
    exact List.forall_mem_append.mpr ⟨hall.1, List.forall_mem_cons.mpr ⟨hx, hall.2.2⟩⟩
  refine ⟨?_, ?_, hbin h.grown (.push (h.grown b hmem) hfits), hbin h.lanes fun y hy => ?_, ?_, ?_⟩
  · have hperm := h.perm
    rw [hbins, List.flatMap_append, List.flatMap_cons] at hperm
    rw [List.flatMap_append, List.flatMap_cons, Bin.toList_push, List.append_assoc b.toList]
    refine List.Perm.trans ?_ (hperm.append_right [x])
    rw [List.append_assoc, List.append_assoc]
    exact List.perm_append_comm.append_left _ |>.append_left _
  · rw [hmap]
    exact h.heads.trans (List.sublist_append_left _ _)
  · rcases List.mem_append.mp hy with hy | hy
    · obtain ⟨l', hl', hy'⟩ := h.lanes b hmem y hy
      exact ⟨l', hl', hy'⟩
    · rw [List.mem_singleton.mp hy]
      exact ⟨l, hfirst, hlane⟩
  · -- It has fewer bins than elements.
    intro hlength
    have hle := h.heads.length_le
    rw [List.length_map, hbins] at hle
    simp only [List.length_append, List.length_cons] at hlength hle
    omega
  · intro l' j hj
    obtain ⟨c, hc, hlane'⟩ := h.opened l' j hj
    have hget : (s.bins.map Bin.first)[j]? = some c.first := by
      rw [List.getElem?_map, hc]
      rfl
    rw [← hmap, List.getElem?_map] at hget
    obtain ⟨c', hc', hfirst'⟩ := Option.map_eq_some_iff.mp hget
    exact ⟨c', hc', hfirst' ▸ hlane'⟩

/-- Placing several items keeps the packing. -/
theorem foldl_packs (h : Packs lane fits s done) (l : List T) :
    Packs lane fits (l.foldl (Packed.place lane fits) s) (done ++ l) := by
  induction l generalizing s done with
  | nil => rwa [List.append_nil]
  | cons x l ih =>
    rw [List.append_cons]
    exact ih (h.place x)

/-- **The packing** holds every item once, in bins that fit. -/
theorem pack_packs (lane : T → Option L) (fits : Bin T → T → Bool) (l : List T) :
    Packs lane fits (pack lane fits l) l := foldl_packs .nil l

/-! ## Classes

Lanes are classes of the elements that have one. The bins of a class, read in order, give its elements
in order, where none without a lane comes between two that have one: a bin that took the later one would
take it before it.
-/

/-- Nothing without a lane comes between two of its class that have one. -/
def Unbroken (lane : T → Option L) (cls : T → C) (l : List T) : Prop :=
  ∀ p q r, [p, q, r].Sublist l → cls p = cls q → cls q = cls r → (lane p).isSome → (lane r).isSome →
    (lane q).isSome

/-- Of the elements with a lane, those of one class are those of one lane. -/
def Classifies (lane : T → Option L) (cls : T → C) : Prop :=
  ∀ a b, (lane a).isSome → (lane b).isSome → (cls a = cls b ↔ lane a = lane b)

section Class

variable [DecidableEq C] {cls : T → C}

/-- The elements placed of a class are in its bins in order, and a class has a bin after the open one of
its lane only for an element without a lane. -/
structure InClass (lane : T → Option L) (cls : T → C) (s : Packed T L) (done : List T) : Prop where
  concat : ∀ c, (s.bins.filter fun b => cls b.first = c).flatMap Bin.toList
    = done.filter fun x => cls x = c
  latest : ∀ l j f, s.opened l = some j → (s.bins.map Bin.first)[j]? = some f →
    ∀ k f', j < k → (s.bins.map Bin.first)[k]? = some f' → cls f' = cls f →
      ∃ q, [f, q].Sublist done ∧ cls q = cls f ∧ lane q = none

/-- A new bin for an item keeps the bins in their classes. -/
theorem InClass.append (h : InClass lane cls s done) (hpacks : Packs lane fits s done)
    (hcls : Classifies lane cls) (x : T) : InClass lane cls (s.append lane x) (done ++ [x]) where
  concat c := by
    rw [Packed.append, List.filter_append, List.flatMap_append, List.filter_append, h.concat c,
      List.filter_singleton, List.filter_singleton]
    by_cases hc : cls x = c <;> simp [hc]
  latest l j f hj hf k f' hk hf' hsame := by
    have hfirsts : (s.append lane x).bins.map Bin.first = s.bins.map Bin.first ++ [x] := by
      rw [Packed.append, List.map_append]
      rfl
    rw [hfirsts] at hf hf'
    have hlength : k < (s.bins.map Bin.first).length + 1 := by
      obtain ⟨hlt, -⟩ := List.getElem?_eq_some_iff.mp hf'
      rwa [List.length_append] at hlt
    have hold : s.opened l = some j := by
      match hlane : lane x with
      | none => simpa only [Packed.append, hlane, Option.elim_none] using hj
      | some l' =>
        simp only [Packed.append, hlane, Option.elim_some] at hj
        by_cases hl : l = l'
        · subst hl
          rw [Function.update_self, Option.some.injEq] at hj
          rw [List.length_map] at hlength
          omega
        · rwa [Function.update_of_ne hl] at hj
    rw [List.getElem?_append_left (by omega)] at hf
    by_cases hlast : k < (s.bins.map Bin.first).length
    · rw [List.getElem?_append_left hlast] at hf'
      obtain ⟨q, hq, hsameq, hnone⟩ := h.latest l j f hold hf k f' hk hf' hsame
      exact ⟨q, hq.trans (List.sublist_append_left _ _), hsameq, hnone⟩
    · obtain rfl : k = (s.bins.map Bin.first).length := by omega
      rw [List.getElem?_concat_length, Option.some.injEq] at hf'
      subst hf'
      have hmem : f ∈ done := hpacks.heads.subset (List.mem_of_getElem? hf)
      refine ⟨x, (List.singleton_sublist.mpr hmem).append (List.Sublist.refl [x]), hsame, ?_⟩
      -- An element with a lane is of another class, or opened the bin.
      match hlane : lane x with
      | none => rfl
      | some l' =>
        obtain ⟨b, hb, hbl⟩ := hpacks.opened l j hold
        rw [List.getElem?_map, hb, Option.map_some, Option.some.injEq] at hf
        subst hf
        have heq : lane x = lane b.first :=
          (hcls x b.first (by rw [hlane]; rfl) (by rw [hbl]; rfl)).mp hsame
        rw [hlane, hbl, Option.some.injEq] at heq
        subst heq
        simp only [Packed.append, hlane, Option.elim_some, Function.update_self,
          Option.some.injEq] at hj
        rw [List.length_map] at hk
        omega

/-- Placing an item keeps the bins in their classes. -/
theorem InClass.place (h : InClass lane cls s done) (hpacks : Packs lane fits s done)
    (hcls : Classifies lane cls) (x : T) (hunbroken : Unbroken lane cls (done ++ [x])) :
    InClass lane cls (s.place lane fits x) (done ++ [x]) := by
  rcases Packed.place_cases lane fits s x with
    heq | ⟨l, before, b, after, hlane, hopened, hfits, hbins, heq⟩
  · rw [heq]
    exact h.append hpacks hcls x
  rw [heq]
  have hfirsts : ((before ++ b.push x :: after).map Bin.first) = s.bins.map Bin.first := by
    rw [hbins, List.map_append, List.map_append]
    rfl
  have hfirst : lane b.first = some l := by
    obtain ⟨b', hb', hlane'⟩ := hpacks.opened l _ hopened
    rw [hbins, List.getElem?_append_right (Nat.le_refl _), Nat.sub_self, List.getElem?_cons_zero,
      Option.some.injEq] at hb'
    exact hb' ▸ hlane'
  have hsame : cls b.first = cls x :=
    (hcls _ _ (by rw [hfirst]; rfl) (by rw [hlane]; rfl)).mpr (hfirst.trans hlane.symm)
  have hlast : ∀ b' ∈ after, cls b'.first ≠ cls b.first := by
    intro b' hb' heq'
    obtain ⟨k, hk, rfl⟩ := List.getElem_of_mem hb'
    have hat : (s.bins.map Bin.first)[before.length + (k + 1)]? = some after[k].first := by
      rw [hbins, List.getElem?_map, List.getElem?_append_right (Nat.le_add_right _ _),
        Nat.add_sub_cancel_left, List.getElem?_cons_succ, List.getElem?_eq_getElem hk]
      rfl
    obtain ⟨q, hq, hsameq, hnone⟩ := h.latest l before.length b.first hopened
      (by rw [hbins]; simp) _ _ (by omega) hat heq'
    have hsome := hunbroken b.first q x (hq.append (List.Sublist.refl [x])) hsameq.symm
      (hsameq.trans hsame) (by rw [hfirst]; rfl) (by rw [hlane]; rfl)
    rw [hnone] at hsome
    cases hsome
  constructor
  · intro c
    have hconcat := h.concat c
    rw [hbins, List.filter_append, List.filter_cons] at hconcat
    rw [List.filter_append, List.filter_append, List.filter_cons, List.filter_singleton, ← hconcat,
      Bin.first_push, ← hsame]
    by_cases hc : cls b.first = c
    · have hnone : (after.filter fun b => cls b.first = c) = [] := by
        refine List.filter_eq_nil_iff.mpr fun b' hb' => ?_
        rw [decide_eq_true_eq, ← hc]
        exact hlast b' hb'
      simp [hc, hnone]
    · simp [hc]
  · intro l' j f hj hf k f' hk hf' hsame'
    rw [hfirsts] at hf hf'
    obtain ⟨q, hq, hrest⟩ := h.latest l' j f hj hf k f' hk hf' hsame'
    exact ⟨q, hq.trans (List.sublist_append_left _ _), hrest⟩

/-- Placing several items keeps the bins in their classes. -/
theorem foldl_inClass (h : InClass lane cls s done) (hpacks : Packs lane fits s done)
    (hcls : Classifies lane cls) (l : List T) (hunbroken : Unbroken lane cls (done ++ l)) :
    InClass lane cls (l.foldl (Packed.place lane fits) s) (done ++ l) := by
  induction l generalizing s done with
  | nil => rwa [List.append_nil]
  | cons x l ih =>
    rw [List.append_cons] at hunbroken ⊢
    refine ih (h.place hpacks hcls x fun p q r hsub => ?_) (hpacks.place x) hunbroken
    exact hunbroken p q r (hsub.trans (List.sublist_append_left _ _))

/-- The bins of a class, read in order, are its elements in order. -/
theorem class_flatMap (fits : Bin T → T → Bool) (hcls : Classifies lane cls) {l : List T}
    (hunbroken : Unbroken lane cls l) (c : C) :
    ((pack lane fits l).bins.filter fun b => cls b.first = c).flatMap Bin.toList
      = l.filter fun x => cls x = c := by
  have hnil : InClass lane cls .empty [] := ⟨fun _ => rfl, fun _ _ _ h => by cases h⟩
  exact (foldl_inClass hnil .nil hcls l hunbroken).concat c

end Class

end Packing
