import Mathlib.Data.List.Basic
import Mathlib.Data.Fin.Basic
import Mathlib.Data.Nat.ModEq
import Mathlib.Logic.Function.Basic

/-!
# A ring that holds the latest entries of a log

Entry `i` of the log goes to slot `i` modulo the size, over the entry written there a lap before.
`Holds slots log` says that the latest entries, as many as there are slots, stand in theirs.
-/

namespace RingLog

variable {α β : Type*} {N : ℕ} [NeZero N]

def Holds (slots : Fin N → α) (log : List α) : Prop :=
  ∀ i (hi : i < log.length), log.length ≤ i + N → slots (Fin.ofNat N i) = log[i]

namespace Holds

variable {slots : Fin N → α} {log : List α}

theorem nil : Holds slots [] := nofun

/-- Of the entries still held, only the new one is in its slot. -/
theorem push (h : Holds slots log) (x : α) :
    Holds (Function.update slots (Fin.ofNat N log.length) x) (log ++ [x]) := by
  intro i hi hheld
  rw [List.length_append, List.length_singleton] at hi hheld
  by_cases hlast : i = log.length
  · subst hlast
    rw [Function.update_self, List.getElem_concat_length rfl]
  · have hne : Fin.ofNat N i ≠ Fin.ofNat N log.length := by
      intro heq
      have hmod : i % N = log.length % N := congrArg Fin.val heq
      have hdvd : N ∣ log.length - i := (Nat.modEq_iff_dvd' (by omega)).mp hmod
      have := Nat.le_of_dvd (by omega) hdvd
      omega
    rw [Function.update_of_ne hne, List.getElem_append_left (by omega)]
    exact h i (by omega) (by omega)

/-- A change made in every slot in use is made to every entry. -/
theorem map (h : Holds slots log) {slots' : Fin N → β} {f : α → β}
    (hslots : ∀ s : Fin N, s < min log.length N → slots' s = f (slots s)) :
    Holds slots' (log.map f) := by
  intro i hi hheld
  rw [List.length_map] at hi hheld
  have hused : (Fin.ofNat N i : ℕ) < min log.length N :=
    lt_min ((Nat.mod_le i N).trans_lt hi) (Nat.mod_lt i (Nat.pos_of_neZero N))
  rw [List.getElem_map, hslots _ hused, h i hi hheld]

/-- Read back from the latest, the slots give the log. -/
theorem map_back (h : Holds slots log) :
    (List.range' 1 (min log.length N)).map (fun back => slots (Fin.ofNat N (log.length - back))) =
      log.reverse.take N := by
  refine List.ext_getElem (by simp [Nat.min_comm]) fun i hi hi' => ?_
  rw [List.length_map, List.length_range'] at hi
  rw [List.getElem_map, List.getElem_range', List.getElem_take, List.getElem_reverse,
    h _ (by omega) (by omega)]
  congr 1
  omega

/-- The slot that is written next holds the oldest entry kept. -/
theorem oldest (h : Holds slots log) (hfull : N ≤ log.length) :
    (log.reverse.take N).getLast? = some (slots (Fin.ofNat N log.length)) := by
  have hpos := Nat.pos_of_neZero N
  have hslot : Fin.ofNat N log.length = Fin.ofNat N (log.length - N) :=
    Fin.ext (Nat.mod_eq_sub_mod hfull)
  rw [hslot, h _ (by omega) (by omega), List.getLast?_eq_getElem?, List.length_take,
    List.length_reverse, min_eq_left hfull, List.getElem?_take_of_lt (by omega),
    List.getElem?_reverse (by omega), List.getElem?_eq_getElem (by omega)]
  congr 2
  omega

end Holds

end RingLog
