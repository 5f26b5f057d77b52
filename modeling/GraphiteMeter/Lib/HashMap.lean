import Mathlib.Algebra.GroupWithZero.Nat
import Mathlib.Data.List.AList

/-!
# Hash maps

A hash map is a list of entries with distinct keys whose order means nothing. `retain` and `len`
complete what `AList` has, and `HashMap.total` adds up a map of counts.
-/

/-- A map with values of one type. -/
abbrev HashMap (K V : Type*) := AList fun _ : K => V

namespace AList

variable {α : Type*} {β : α → Type*}

/-- Keeps the entries that pass. -/
def retain (p : (a : α) → β a → Bool) (s : AList β) : AList β :=
  ⟨s.entries.filter fun e => p e.1 e.2, s.nodupKeys.sublist List.filter_sublist⟩

def len (s : AList β) : ℕ := s.entries.length

/-- Changes every value in place. -/
def mapValues {γ : α → Type*} (f : (a : α) → β a → γ a) (s : AList β) : AList γ :=
  ⟨s.entries.map (.map id f), s.nodupKeys.map₂ f s.entries⟩

variable [DecidableEq α]

/-- What is retained are the entries that pass. -/
theorem mem_lookup_retain {p : (a : α) → β a → Bool} {s : AList β} {a : α} {b : β a} :
    b ∈ lookup a (retain p s) ↔ b ∈ lookup a s ∧ p a b = true := by
  rw [mem_lookup_iff, mem_lookup_iff, retain, List.mem_filter]

/-- An entry is found among the retained when it is found and passes. -/
theorem lookup_retain_eq_some {p : (a : α) → β a → Bool} {s : AList β} {a : α} {b : β a} :
    lookup a (retain p s) = some b ↔ lookup a s = some b ∧ p a b = true :=
  mem_lookup_retain

/-- A mapped value is found at its own key. -/
theorem lookup_mapValues {γ : α → Type*} {f : (a : α) → β a → γ a} {s : AList β} {a : α} :
    lookup a (mapValues f s) = (lookup a s).map (f a) :=
  List.dlookup_map₂ a

/-- What is found after an insertion is the inserted or was there. -/
theorem lookup_insert_of_eq_some {s : AList β} {a a' : α} {b : β a} {b' : β a'}
    (h : lookup a (insert a' b' s) = some b) : (∃ h : a = a', h ▸ b = b') ∨ lookup a s = some b := by
  by_cases hne : a = a'
  · subst hne
    rw [lookup_insert] at h
    exact .inl ⟨rfl, (Option.some.inj h).symm⟩
  · rw [lookup_insert_ne hne] at h
    exact .inr h

/-- What is found after an erasure was there under another key. -/
theorem lookup_erase_eq_some {s : AList β} {a a' : α} {b : β a} :
    lookup a (erase a' s) = some b ↔ a ≠ a' ∧ lookup a s = some b := by
  by_cases hne : a = a'
  · subst hne
    simp
  · rw [lookup_erase_ne hne]
    exact ⟨fun h => ⟨hne, h⟩, fun h => h.2⟩

/-- A key is in a map when something is found there. -/
theorem mem_iff_exists_lookup {s : AList β} {a : α} : a ∈ s ↔ ∃ b, lookup a s = some b := by
  rw [← lookup_isSome, Option.isSome_iff_exists]

/-! ## Counting entries -/

/-- An entry and what erasing it leaves are all the entries. -/
theorem perm_cons_erase {s : AList β} {a : α} {b : β a} (hlookup : lookup a s = some b) :
    s.entries.Perm (⟨a, b⟩ :: (erase a s).entries) := by
  have hmem : a ∈ s.entries.keys := mem_keys.mp (mem_iff_exists_lookup.mpr ⟨b, hlookup⟩)
  obtain ⟨b', l₁, l₂, -, hentries, herase⟩ := List.exists_of_kerase hmem
  have hb : b' = b := by
    have hb' : lookup a s = some b' := mem_lookup_iff.mpr (by rw [hentries]; simp)
    exact Option.some.inj (hb'.symm.trans hlookup)
  subst hb
  have herased : (erase a s).entries = l₁ ++ l₂ := herase
  rw [herased, hentries]
  exact List.perm_middle

/-- Erasing an entry that passes leaves one less that does. -/
theorem len_filter_erase {s : AList β} {a : α} {b : β a} (p : Sigma β → Bool)
    (hlookup : lookup a s = some b) (hp : p ⟨a, b⟩ = true) :
    ((erase a s).entries.filter p).length + 1 = (s.entries.filter p).length := by
  rw [((perm_cons_erase hlookup).filter p).length_eq, List.filter_cons_of_pos hp, List.length_cons]

/-- Inserting a new entry adds one to those that pass, if it does. -/
theorem len_filter_insert {s : AList β} {a : α} {b : β a} (p : Sigma β → Bool) (h : a ∉ s) :
    ((insert a b s).entries.filter p).length
      = (s.entries.filter p).length + if p ⟨a, b⟩ then 1 else 0 := by
  rw [entries_insert_of_notMem h]
  by_cases hp : p ⟨a, b⟩ = true
  · rw [List.filter_cons_of_pos hp, if_pos hp, List.length_cons]
  · rw [List.filter_cons_of_neg hp, if_neg hp, Nat.add_zero]

/-- Inserting a new entry adds one. -/
theorem len_insert {s : AList β} {a : α} {b : β a} (h : a ∉ s) : (insert a b s).len = s.len + 1 := by
  rw [len, entries_insert_of_notMem h, List.length_cons, len]

/-- Erasing keeps the other entries in order. -/
theorem entries_erase_sublist (a : α) (s : AList β) : (erase a s).entries.Sublist s.entries :=
  List.kerase_sublist a s.entries

end AList

namespace HashMap

variable {K : Type*} [DecidableEq K]

/-! ## Counts by key -/

/-- All values added up. -/
def total (s : HashMap K ℕ) : ℕ := (s.entries.map fun e => e.2).sum

/-- Erasing an amount takes it off the total. -/
theorem total_erase {s : HashMap K ℕ} {k : K} {n : ℕ} (h : s.lookup k = some n) :
    total (s.erase k) + n = total s := by
  rw [total, total, ((AList.perm_cons_erase h).map _).sum_nat, List.map_cons, List.sum_cons,
    Nat.add_comm]

/-- Inserting an amount replaces the one that was there in the total. -/
theorem total_insert (s : HashMap K ℕ) (k : K) (n : ℕ) :
    total (s.insert k n) + (s.lookup k).getD 0 = total s + n := by
  have hinsert : total (s.insert k n) = n + total (s.erase k) := by
    rw [total, AList.entries_insert, List.map_cons, List.sum_cons]
    rfl
  match hlookup : s.lookup k with
  | some m =>
    rw [hinsert, Option.getD_some, ← total_erase hlookup]
    omega
  | none =>
    have herase : s.erase k = s :=
      AList.ext (List.kerase_of_notMem_keys (AList.lookup_eq_none.mp hlookup))
    rw [hinsert, herase, Option.getD_none]
    omega

end HashMap
