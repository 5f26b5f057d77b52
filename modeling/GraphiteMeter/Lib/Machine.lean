import Mathlib.Data.List.Basic

/-!
# Runs of a machine that logs what it does

A machine is a partial step function: `step s a` takes action `a` in state `s` and gives the next
state with the events it logs, or `none` where the action is not enabled. Choices of the environment
(readings of a clock, an order of iteration) are part of the action, so a machine is a function and
its runs can be evaluated.

`run_induct` is the invariant rule over a state and its history; `run_append` takes runs apart.
-/

namespace Machine

variable {σ α ε : Type*}

section Run

variable (step : σ → α → Option (σ × List ε))

/-- Takes the actions in order. The events come in the order they were logged. -/
def run (s : σ) : List α → Option (σ × List ε)
  | [] => some (s, [])
  | a :: as =>
    match step s a with
    | none => none
    | some (s, events) =>
      match run s as with
      | none => none
      | some (s, later) => some (s, events ++ later)

end Run

variable {step : σ → α → Option (σ × List ε)}

/-- A run of no action stays where it is. -/
theorem run_nil_iff {s t : σ} {events : List ε} :
    run step s [] = some (t, events) ↔ t = s ∧ events = [] := by
  rw [run, Option.some.injEq, Prod.mk.injEq]
  exact ⟨fun h => ⟨h.1.symm, h.2.symm⟩, fun h => ⟨h.1.symm, h.2.symm⟩⟩

/-- A run that starts with `a` takes that step and runs on from there. -/
theorem run_cons_iff {s t : σ} {a : α} {as : List α} {events : List ε} :
    run step s (a :: as) = some (t, events) ↔
      ∃ u first later, step s a = some (u, first) ∧ run step u as = some (t, later) ∧
        events = first ++ later := by
  rw [run]
  constructor
  · intro h
    match hstep : step s a with
    | none =>
      rw [hstep] at h
      cases h
    | some (u, first) =>
      simp only [hstep] at h
      match hrest : run step u as with
      | none =>
        rw [hrest] at h
        cases h
      | some (t', later) =>
        simp only [hrest, Option.some.injEq, Prod.mk.injEq] at h
        obtain ⟨rfl, rfl⟩ := h
        exact ⟨u, first, later, rfl, hrest, rfl⟩
  · rintro ⟨u, first, later, hstep, hrest, rfl⟩
    simp only [hstep, hrest]

/-- A run of two parts goes through a state between them. -/
theorem run_append_iff {s t : σ} {as bs : List α} {events : List ε} :
    run step s (as ++ bs) = some (t, events) ↔
      ∃ u first later, run step s as = some (u, first) ∧ run step u bs = some (t, later) ∧
        events = first ++ later := by
  induction as generalizing s events with
  | nil =>
    rw [List.nil_append]
    constructor
    · intro h
      exact ⟨s, [], events, rfl, h, rfl⟩
    · rintro ⟨u, first, later, hnil, h, rfl⟩
      obtain ⟨rfl, rfl⟩ := run_nil_iff.mp hnil
      exact h
  | cons a as ih =>
    rw [List.cons_append]
    constructor
    · intro h
      obtain ⟨v, e₁, e₂, hstep, hrest, rfl⟩ := run_cons_iff.mp h
      obtain ⟨u, e₃, e₄, has, hbs, rfl⟩ := ih.mp hrest
      exact ⟨u, e₁ ++ e₃, e₄, run_cons_iff.mpr ⟨v, e₁, e₃, hstep, has, rfl⟩, hbs,
        (List.append_assoc _ _ _).symm⟩
    · rintro ⟨u, first, later, hcons, hbs, rfl⟩
      obtain ⟨v, e₁, e₂, hstep, has, rfl⟩ := run_cons_iff.mp hcons
      exact run_cons_iff.mpr ⟨v, e₁, e₂ ++ later, hstep, ih.mpr ⟨u, e₂, later, has, hbs, rfl⟩,
        List.append_assoc _ _ _⟩

/-- Runs compose. -/
theorem run_append {s t u : σ} {as bs : List α} {first later : List ε}
    (has : run step s as = some (t, first)) (hbs : run step t bs = some (u, later)) :
    run step s (as ++ bs) = some (u, first ++ later) :=
  run_append_iff.mpr ⟨t, first, later, has, hbs, rfl⟩

/-- One step is a run. -/
theorem run_singleton {s t : σ} {a : α} {events : List ε} (h : step s a = some (t, events)) :
    run step s [a] = some (t, events) :=
  run_cons_iff.mpr ⟨t, events, [], h, rfl, (List.append_nil _).symm⟩

/-- **The invariant rule.** What one step keeps of a state and the log so far, a run keeps. -/
theorem run_induct (Inv : List ε → σ → Prop)
    (hstep : ∀ log s a t events, Inv log s → step s a = some (t, events) → Inv (log ++ events) t)
    {log : List ε} {s t : σ} {as : List α} {events : List ε} (hinit : Inv log s)
    (hrun : run step s as = some (t, events)) : Inv (log ++ events) t := by
  induction as generalizing log s events with
  | nil =>
    obtain ⟨rfl, rfl⟩ := run_nil_iff.mp hrun
    rw [List.append_nil]
    exact hinit
  | cons a as ih =>
    obtain ⟨u, first, later, ha, hrest, rfl⟩ := run_cons_iff.mp hrun
    rw [← List.append_assoc]
    exact ih (hstep log s a u first hinit ha) hrest

/-- The same of the state alone. -/
theorem run_keeps (Inv : σ → Prop)
    (hstep : ∀ s a t events, Inv s → step s a = some (t, events) → Inv t) {s t : σ} {as : List α}
    {events : List ε} (hinit : Inv s) (hrun : run step s as = some (t, events)) : Inv t :=
  @run_induct σ α ε step (fun _ => Inv) (fun _ => hstep) [] s t as events hinit hrun

/-- Every action of a run is fit for the state it is taken in. -/
def Fit (fit : σ → α → Prop) (step : σ → α → Option (σ × List ε)) (s : σ) : List α → Prop
  | [] => True
  | a :: as => fit s a ∧
    match step s a with
    | none => True
    | some (t, _) => Fit fit step t as

instance decidableFit {fit : σ → α → Prop} [∀ s a, Decidable (fit s a)] :
    (s : σ) → (as : List α) → Decidable (Fit fit step s as)
  | _, [] => isTrue trivial
  | s, a :: as =>
    let _ : Decidable (match step s a with | none => True | some (t, _) => Fit fit step t as) :=
      match step s a with
      | none => isTrue trivial
      | some (t, _) => decidableFit t as
    inferInstanceAs (Decidable (fit s a ∧ _))

/-- Actions that are fit for any state. -/
theorem fit_of_forall {fit : σ → α → Prop} {as : List α} (h : ∀ a ∈ as, ∀ s, fit s a) (s : σ) :
    Fit fit step s as := by
  induction as generalizing s with
  | nil => trivial
  | cons a as ih =>
    rw [List.forall_mem_cons] at h
    refine ⟨h.1 s, ?_⟩
    match step s a with
    | none => trivial
    | some (t, _) => exact ih h.2 t

/-- What every fit step keeps of a state and the log so far, a run of fit steps keeps. -/
theorem run_induct_of_fit {fit : σ → α → Prop} (Inv : List ε → σ → Prop)
    (hstep : ∀ log s a t events, Inv log s → fit s a → step s a = some (t, events) →
      Inv (log ++ events) t)
    (log : List ε) {s t : σ} {as : List α} {events : List ε} (hinit : Inv log s)
    (hfit : Fit fit step s as) (hrun : run step s as = some (t, events)) :
    Inv (log ++ events) t := by
  induction as generalizing log s events with
  | nil =>
    obtain ⟨rfl, rfl⟩ := run_nil_iff.mp hrun
    rw [List.append_nil]
    exact hinit
  | cons a as ih =>
    obtain ⟨u, first, later, ha, hrest, rfl⟩ := run_cons_iff.mp hrun
    obtain ⟨hfirst, hlater⟩ := hfit
    rw [ha] at hlater
    rw [← List.append_assoc]
    exact ih _ (hstep log s a u first hinit hfirst ha) hlater hrest

/-- The same of the state alone. -/
theorem run_keeps_of_fit {fit : σ → α → Prop} (Inv : σ → Prop)
    (hstep : ∀ s a t events, Inv s → fit s a → step s a = some (t, events) → Inv t)
    {s t : σ} {as : List α} {events : List ε} (hinit : Inv s) (hfit : Fit fit step s as)
    (hrun : run step s as = some (t, events)) : Inv t :=
  run_induct_of_fit (fun _ => Inv) (fun _ => hstep) [] hinit hfit hrun

/-! ## Moves

A step may be made of smaller moves. What every move keeps, every run then keeps.
-/

/-- A sequence of moves with what they log. -/
inductive Path (move : σ → σ → List ε → Prop) : σ → σ → List ε → Prop
  | nil (s : σ) : Path move s s []
  | cons {s t u : σ} {first later : List ε} (hmove : move s t first) (hrest : Path move t u later) :
      Path move s u (first ++ later)

namespace Path

variable {move : σ → σ → List ε → Prop} {s t u : σ} {first later events : List ε}

/-- One move is a path. -/
theorem single (h : move s t events) : Path move s t events := by
  have hpath := cons h (nil t)
  rw [List.append_nil] at hpath
  exact hpath

/-- Paths compose. -/
theorem trans (hst : Path move s t first) (htu : Path move t u later) :
    Path move s u (first ++ later) := by
  induction hst with
  | nil s => exact htu
  | cons hmove hrest ih =>
    rw [List.append_assoc]
    exact cons hmove (ih htu)

/-- What one move keeps of a state and the log so far, a sequence of them keeps. -/
theorem induct {Inv : List ε → σ → Prop}
    (hmove : ∀ log s t events, Inv log s → move s t events → Inv (log ++ events) t)
    {log : List ε} (hinit : Inv log s) (hpath : Path move s t events) : Inv (log ++ events) t := by
  induction hpath generalizing log with
  | nil s =>
    rw [List.append_nil]
    exact hinit
  | cons hstep hrest ih =>
    rw [← List.append_assoc]
    exact ih (hmove _ _ _ _ hinit hstep)

/-- The same of the state alone. -/
theorem keeps (Inv : σ → Prop) (hmove : ∀ s t events, Inv s → move s t events → Inv t)
    (hinit : Inv s) (hpath : Path move s t events) : Inv t := by
  induction hpath with
  | nil s => exact hinit
  | cons hstep hrest ih => exact ih (hmove _ _ _ hinit hstep)

end Path

/-- A machine whose steps are made of moves runs along them, where the moves keep what its steps
rely on. -/
theorem run_path {move : σ → σ → List ε → Prop} {Inv : σ → Prop}
    (hmove : ∀ s t events, Inv s → move s t events → Inv t)
    (hstep : ∀ s a t events, Inv s → step s a = some (t, events) → Path move s t events) {s t : σ}
    {as : List α} {events : List ε} (hinit : Inv s) (hrun : run step s as = some (t, events)) :
    Inv t ∧ Path move s t events := by
  induction as generalizing s events with
  | nil =>
    obtain ⟨rfl, rfl⟩ := run_nil_iff.mp hrun
    exact ⟨hinit, .nil _⟩
  | cons a as ih =>
    obtain ⟨u, first, later, ha, hrest, rfl⟩ := run_cons_iff.mp hrun
    have hpath := hstep s a u first hinit ha
    obtain ⟨hinv, htail⟩ := ih (hpath.keeps Inv hmove hinit) hrest
    exact ⟨hinv, hpath.trans htail⟩

/-! ## Justified logs

What an event relies on is a property of the log before it.
-/

/-- Every event of the log was due when it was logged. -/
def Justified (due : List ε → ε → Prop) (log : List ε) : Prop :=
  ∀ before e after, log = before ++ e :: after → due before e

namespace Justified

variable {due : List ε → ε → Prop} {log : List ε} {e e' : ε}

/-- An empty log is justified. -/
theorem nil : Justified due [] := by
  intro before e after h
  cases before <;> cases h

/-- One more event that is due keeps a log justified. -/
theorem snoc (h : Justified due log) (hdue : due log e) : Justified due (log ++ [e]) := by
  intro before e' after heq
  rcases List.eq_nil_or_concat after with rfl | ⟨after, last, rfl⟩
  · obtain ⟨rfl, hlast⟩ := List.append_inj' heq rfl
    cases hlast
    exact hdue
  · rw [List.concat_eq_append, ← List.cons_append, ← List.append_assoc] at heq
    exact h before e' after (List.append_inj' heq rfl).1

/-- Events that are due whenever they are logged are added to a justified log. -/
theorem append {later : List ε} (h : Justified due log)
    (hdue : ∀ before, ∀ e ∈ later, due before e) : Justified due (log ++ later) := by
  induction later generalizing log with
  | nil =>
    rw [List.append_nil]
    exact h
  | cons e later ih =>
    rw [List.append_cons]
    exact ih (h.snoc (hdue log e List.mem_cons_self)) fun before e' he' =>
      hdue before e' (List.mem_cons_of_mem e he')

/-- A justified log is justified up to any point. -/
theorem of_append {later : List ε} (h : Justified due (log ++ later)) : Justified due log := by
  intro before e after heq
  subst heq
  exact h before e (after ++ later) (by simp)

/-- An event of a justified log was due when it was logged. -/
theorem exists_of_mem (h : Justified due log) (he : e ∈ log) :
    ∃ before after, log = before ++ e :: after ∧ due before e := by
  obtain ⟨before, after, heq⟩ := List.append_of_mem he
  exact ⟨before, after, heq, h before e after heq⟩

/-- Events that are due only where no rival was logged before have no rivals in the log. -/
theorem eq_of_rivals {rivals : ε → ε → Prop} (hsymm : ∀ e e', rivals e e' → rivals e' e)
    (hdue : ∀ before e e', due before e → rivals e e' → e' ∉ before) (h : Justified due log)
    (he : e ∈ log) (he' : e' ∈ log) (hrivals : rivals e e') : e = e' := by
  obtain ⟨before, after, rfl, hbefore⟩ := h.exists_of_mem he
  rcases List.mem_append.mp he' with hmem | hmem
  · exact absurd hmem (hdue _ _ _ hbefore hrivals)
  rcases List.mem_cons.mp hmem with rfl | hmem
  · rfl
  · obtain ⟨between, rest, rfl⟩ := List.append_of_mem hmem
    have hlater : due (before ++ e :: between) e' := h _ e' rest (by simp)
    exact absurd (by simp) (hdue _ _ _ hlater (hsymm _ _ hrivals))

end Justified

/-! ## Guarded runs

A total machine whose callers keep to a rule: each action is fit for the state it is taken in.
-/

/-- Every action is fit for the state it is taken in. -/
def Along (fit : σ → α → Prop) (step : σ → α → σ) : σ → List α → Prop
  | _, [] => True
  | s, a :: as => fit s a ∧ Along fit step (step s a) as

instance decidableAlong {fit : σ → α → Prop} {step : σ → α → σ} [∀ s a, Decidable (fit s a)] :
    (s : σ) → (as : List α) → Decidable (Along fit step s as)
  | _, [] => isTrue trivial
  | s, a :: as =>
    let _ : Decidable (Along fit step (step s a) as) := decidableAlong (step s a) as
    inferInstanceAs (Decidable (fit s a ∧ _))

/-- What holds along a run holds along both of its parts. -/
theorem along_append {fit : σ → α → Prop} {step : σ → α → σ} {s : σ} {as bs : List α} :
    Along fit step s (as ++ bs) ↔ Along fit step s as ∧ Along fit step (as.foldl step s) bs := by
  induction as generalizing s with
  | nil => exact (and_iff_right trivial).symm
  | cons a as ih => exact (and_congr_right fun _ => ih).trans and_assoc.symm

/-- Two things hold along a run when each of them does. -/
theorem along_and {fit fit' : σ → α → Prop} {step : σ → α → σ} {s : σ} {as : List α} :
    Along (fun s a => fit s a ∧ fit' s a) step s as ↔ Along fit step s as ∧ Along fit' step s as := by
  induction as generalizing s with
  | nil => exact (and_iff_right trivial).symm
  | cons a as ih => exact (and_congr_right fun _ => ih).trans and_and_and_comm

/-- What every fit action keeps, a run of fit actions keeps. -/
theorem Along.keeps {fit : σ → α → Prop} {step : σ → α → σ} {s : σ} {as : List α} (Inv : σ → Prop)
    (hstep : ∀ s a, Inv s → fit s a → Inv (step s a)) (hinit : Inv s)
    (hfit : Along fit step s as) : Inv (as.foldl step s) := by
  induction as generalizing s with
  | nil => exact hinit
  | cons a as ih => exact ih (hstep s a hinit hfit.1) hfit.2

end Machine
