import Mathlib.Data.List.Basic
import Mathlib.Data.List.TakeDrop
import Mathlib.Tactic.Common

/-!
# Reading a stream that arrives in chunks

Two notions for code that is fed a stream piece by piece, over arbitrary element types.

A *resumable* reader returns at most one value per call and leaves what it did not read. `Resumable`
asks only how it treats an empty chunk and the first element of a chunk; that it then reads the same
value at the same place however the stream is cut is `Resumable.read_append`.

A *feed* takes a whole chunk and returns the events in it, and may fail. A failure inside a chunk can
hide events that a finer cut would have delivered before it, so feeds are compared by `Refines`: the
same end, and the same tokens up to a run of soft tokens that only a failing feed may lack. Every
chunking of a stream refines the reading element by element (`feedAll_refines_each`).
-/

namespace Chunked

variable {α β σ ε ι τ : Type*}

/-! ## Resumable readers -/

/-- A reader that can stop after any element and go on with the next chunk: reading a chunk is
reading its first element and, while that completes nothing, reading the rest. -/
structure Resumable (read : σ → List α → Option β × σ × List α) : Prop where
  nil : ∀ s, read s [] = (none, s, [])
  cons : ∀ s a rest, read s (a :: rest) =
    match read s [a] with
    | (none, s', _) => read s' rest
    | (some v, s', _) => (some v, s', rest)

namespace Resumable

variable {read : σ → List α → Option β × σ × List α}

/-- A chunk that completes nothing is read to its end, and reading goes on from its state; one that
completes a value leaves the same rest, longer by what follows. -/
theorem read_append (h : Resumable read) (s : σ) (xs ys : List α) :
    read s (xs ++ ys) =
      match read s xs with
      | (none, s', _) => read s' ys
      | (some v, s', rest) => (some v, s', rest ++ ys) := by
  induction xs generalizing s with
  | nil => rw [h.nil, List.nil_append]
  | cons a xs ih =>
    rw [List.cons_append, h.cons s a (xs ++ ys), h.cons s a xs]
    match read s [a] with
    | (none, s', _) => exact ih s'
    | (some v, s', _) => rfl

/-- What completes nothing is read to its end. -/
theorem rest_eq_nil (h : Resumable read) {s s' : σ} {xs rest : List α}
    (hread : read s xs = (none, s', rest)) : rest = [] := by
  induction xs generalizing s with
  | nil =>
    rw [h.nil] at hread
    cases hread
    rfl
  | cons a xs ih =>
    rw [h.cons] at hread
    match hone : read s [a] with
    | (none, t, _) =>
      rw [hone] at hread
      exact ih hread
    | (some v, t, _) =>
      rw [hone] at hread
      cases hread

/-- A completed value takes a nonempty run of elements off the chunk. -/
theorem exists_used (h : Resumable read) {s s' : σ} {xs rest : List α} {v : β}
    (hread : read s xs = (some v, s', rest)) :
    ∃ used, used ≠ [] ∧ xs = used ++ rest ∧ read s used = (some v, s', []) := by
  induction xs generalizing s with
  | nil =>
    rw [h.nil] at hread
    cases hread
  | cons a xs ih =>
    rw [h.cons] at hread
    have hone := h.cons s a []
    match hs : read s [a] with
    | (none, t, _) =>
      simp only [hs] at hread
      obtain ⟨used, hne, rfl, hused⟩ := ih hread
      refine ⟨a :: used, List.cons_ne_nil a used, rfl, ?_⟩
      rw [h.cons, hs]
      exact hused
    | (some w, t, r) =>
      simp only [hs] at hread hone
      cases hread
      exact ⟨[a], List.cons_ne_nil a [], rfl, hs.trans hone⟩

/-- A read that gives a value takes at least one item. -/
theorem length_lt (h : Resumable read) {s s' : σ} {xs rest : List α} {v : β}
    (hread : read s xs = (some v, s', rest)) : rest.length < xs.length := by
  obtain ⟨used, hne, rfl, -⟩ := h.exists_used hread
  have hpos := List.length_pos_iff.mpr hne
  rw [List.length_append]
  omega

end Resumable

/-! ## Feeds -/

/-- What feeding a chunk gives: the events in it, then the state to go on from, or the failure. -/
structure Outcome (ε σ ι : Type*) where
  events : List ι
  state : Except ε σ

namespace Outcome

/-- Goes on with `f` unless the feed failed. -/
def andThen (o : Outcome ε σ ι) (f : σ → Outcome ε σ ι) : Outcome ε σ ι :=
  match o.state with
  | .error _ => o
  | .ok s => ⟨o.events ++ (f s).events, (f s).state⟩

/-- A feed that has read nothing. -/
def start (s : σ) : Outcome ε σ ι := ⟨[], .ok s⟩

@[simp] theorem start_andThen (s : σ) (f : σ → Outcome ε σ ι) : (start s).andThen f = f s := by
  simp [andThen, start]

@[simp] theorem andThen_error (es : List ι) (e : ε) (f : σ → Outcome ε σ ι) :
    (Outcome.mk es (.error e)).andThen f = ⟨es, .error e⟩ := rfl

@[simp] theorem andThen_ok (es : List ι) (s : σ) (f : σ → Outcome ε σ ι) :
    (Outcome.mk es (.ok s)).andThen f = ⟨es ++ (f s).events, (f s).state⟩ := rfl

/-- What follows a state leaves its own. -/
theorem andThen_state_ok {o : Outcome ε σ ι} {s : σ} (h : o.state = .ok s)
    (f : σ → Outcome ε σ ι) : (o.andThen f).state = (f s).state := by
  simp only [andThen, h]

/-- An error stays the state. -/
theorem andThen_state_error {o : Outcome ε σ ι} {e : ε} (h : o.state = .error e)
    (f : σ → Outcome ε σ ι) : (o.andThen f).state = .error e := by
  simp only [andThen, h]

/-- What follows is read at the state alone. -/
theorem andThen_congr {o : Outcome ε σ ι} {f g : σ → Outcome ε σ ι}
    (h : ∀ s, o.state = .ok s → f s = g s) : o.andThen f = o.andThen g := by
  obtain ⟨es, e | s⟩ := o
  · rfl
  · rw [andThen_ok, andThen_ok, h s rfl]

/-- Starting again adds nothing. -/
theorem andThen_start (o : Outcome ε σ ι) : o.andThen start = o := by
  obtain ⟨es, e | s⟩ := o
  · rfl
  · simp [start]

/-- Following is associative. -/
theorem andThen_assoc (o : Outcome ε σ ι) (f g : σ → Outcome ε σ ι) :
    (o.andThen f).andThen g = o.andThen fun s => (f s).andThen g := by
  obtain ⟨es, e | s⟩ := o
  · rfl
  · rw [andThen_ok, andThen_ok]
    match f s with
    | ⟨fs, .error e⟩ => rfl
    | ⟨fs, .ok s'⟩ => simp only [andThen_ok, List.append_assoc]

end Outcome

/-- The same end, and the same tokens up to a run of soft ones that only a failure may cut off. -/
def Refines (tokens : ι → List τ) (soft : τ → Prop) (o o' : Outcome ε σ ι) : Prop :=
  o.state = o'.state ∧
    ∃ extra, o'.events.flatMap tokens = o.events.flatMap tokens ++ extra ∧
      (∀ t ∈ extra, soft t) ∧ ∀ s, o.state = .ok s → extra = []

namespace Refines

variable {tokens : ι → List τ} {soft : τ → Prop} {o o' o'' : Outcome ε σ ι}

/-- An outcome refines itself. -/
theorem refl (o : Outcome ε σ ι) : Refines tokens soft o o :=
  ⟨rfl, [], (List.append_nil _).symm, by simp, fun _ _ => rfl⟩

/-- The same tokens and the same end refine, however the tokens are spread over events. -/
theorem of_tokens_eq (hstate : o.state = o'.state)
    (htokens : o'.events.flatMap tokens = o.events.flatMap tokens) : Refines tokens soft o o' :=
  ⟨hstate, [], by rw [htokens, List.append_nil], by simp, fun _ _ => rfl⟩

/-- Refinements compose. -/
theorem trans (h : Refines tokens soft o o') (h' : Refines tokens soft o' o'') :
    Refines tokens soft o o'' := by
  obtain ⟨hstate, extra, htokens, hsoft, hok⟩ := h
  obtain ⟨hstate', extra', htokens', hsoft', hok'⟩ := h'
  refine ⟨hstate.trans hstate', extra ++ extra', ?_, ?_, ?_⟩
  · rw [htokens', htokens, List.append_assoc]
  · intro t ht
    exact (List.mem_append.mp ht).elim (hsoft t) (hsoft' t)
  · intro s hs
    rw [hok s hs, hok' s (hstate ▸ hs), List.append_nil]

/-- Going on with refining feeds refines: a feed that has not failed lacks no token. -/
theorem andThen (h : Refines tokens soft o o') {f g : σ → Outcome ε σ ι}
    (hfg : ∀ s, Refines tokens soft (f s) (g s)) :
    Refines tokens soft (o.andThen f) (o'.andThen g) := by
  obtain ⟨es, st⟩ := o
  obtain ⟨es', st'⟩ := o'
  obtain ⟨rfl, extra, htokens, hsoft, hok⟩ := h
  cases st with
  | error e => exact ⟨rfl, extra, htokens, hsoft, fun s hs => nomatch hs⟩
  | ok s =>
    obtain ⟨hstate, extra', htokens', hsoft', hok'⟩ := hfg s
    have hnil : extra = [] := hok s rfl
    subst hnil
    refine ⟨hstate, extra', ?_, hsoft', hok'⟩
    simp only [Outcome.andThen_ok, List.flatMap_append, htokens', htokens, List.append_assoc,
      List.append_nil]

end Refines

section FeedAll

variable (feed : σ → List α → Outcome ε σ ι)

/-- Feeds the chunks one after another, stopping at a failure. -/
def feedAll (s : σ) : List (List α) → Outcome ε σ ι
  | [] => .start s
  | chunk :: chunks => (feed s chunk).andThen fun s' => feedAll s' chunks

/-- Feeds the stream one element at a time, the finest chunking. -/
def feedEach (s : σ) (xs : List α) : Outcome ε σ ι := feedAll feed s (xs.map ([·]))

/-- Chunks are fed one after another. -/
theorem feedAll_append (s : σ) (xss yss : List (List α)) :
    feedAll feed s (xss ++ yss) = (feedAll feed s xss).andThen fun s' => feedAll feed s' yss := by
  induction xss generalizing s with
  | nil => simp [feedAll]
  | cons xs xss ih => simp only [List.cons_append, feedAll, Outcome.andThen_assoc, ih]

/-- Items are fed one after another. -/
theorem feedEach_append (s : σ) (xs ys : List α) :
    feedEach feed s (xs ++ ys) = (feedEach feed s xs).andThen fun s' => feedEach feed s' ys := by
  simp only [feedEach, List.map_append, feedAll_append]

variable {feed} {tokens : ι → List τ} {soft : τ → Prop}
  (hnil : ∀ s, feed s [] = .start s)
  (hcons : ∀ s a rest, Refines tokens soft (feed s (a :: rest))
    ((feed s [a]).andThen fun s' => feed s' rest))

include hnil hcons

/-- **A chunk** refines its items one by one. -/
theorem feed_refines_each (s : σ) (xs : List α) :
    Refines tokens soft (feed s xs) (feedEach feed s xs) := by
  induction xs generalizing s with
  | nil =>
    rw [hnil]
    exact .refl _
  | cons a xs ih => exact (hcons s a xs).trans (.andThen (.refl _) ih)

/-- **Every chunking refines the reading element by element**, if one chunk refines its first element
followed by its rest. -/
theorem feedAll_refines_each (s : σ) (chunks : List (List α)) :
    Refines tokens soft (feedAll feed s chunks) (feedEach feed s chunks.flatten) := by
  induction chunks generalizing s with
  | nil => exact .refl _
  | cons chunk chunks ih =>
    rw [List.flatten_cons, feedEach_append]
    exact .andThen (feed_refines_each hnil hcons s chunk) ih

end FeedAll

/-- **Every chunking gives what the reading element by element gives**, events and end, if one chunk is
its first element followed by its rest in every state the feed keeps to. -/
theorem feedAll_eq_each (feed : σ → List α → Outcome ε σ ι) (Inv : σ → Prop)
    (hkeeps : ∀ s xs s', Inv s → (feed s xs).state = .ok s' → Inv s')
    (hnil : ∀ s, feed s [] = .start s)
    (hcons : ∀ s a rest, Inv s →
      feed s (a :: rest) = (feed s [a]).andThen fun s' => feed s' rest)
    {s : σ} (h : Inv s) (chunks : List (List α)) :
    feedAll feed s chunks = feedEach feed s chunks.flatten := by
  have hone : ∀ (xs : List α) (s : σ), Inv s → feed s xs = feedEach feed s xs := by
    intro xs
    induction xs with
    | nil =>
      intro s _
      exact hnil s
    | cons a xs ih =>
      intro s hs
      rw [hcons s a xs hs]
      apply Outcome.andThen_congr
      intro s' hs'
      exact ih s' (hkeeps s [a] s' hs hs')
  induction chunks generalizing s with
  | nil => rfl
  | cons chunk chunks ih =>
    rw [List.flatten_cons, feedEach_append, ← hone chunk s h, feedAll]
    apply Outcome.andThen_congr
    intro s' hs'
    exact ih (hkeeps s chunk s' h hs')

end Chunked
