import GraphiteMeter.Http3.CapsuleChunks
import GraphiteMeter.Http3.Connect

/-!
# What the peer says on a CONNECT stream

Reference: `rust/http3/src/webtransport.rs` (`Connect::poll_read`), `rust/http3/src/capsule.rs`
(`Reader::read`).

The receiving half gives the stream's DATA in chunks, a few at each poll. `heard` reads off all of it at
once what the peer says: its CLOSE, its FIN, a failure, or what the stream is aborted for.
`pollRead_hears` shows that the polls together make just that of it, wherever the chunks and the
polls end.
-/

namespace GraphiteMeter.Http3

open Chunked

/-! ## Reading up to a CLOSE -/

/-- Where there is no piece, nothing is left of the chunk. -/
theorem Reader.rest_of_next_none {K : Type} [Kind K] {r r' : Reader K} {input rest : Bytes}
    (h : r.next input = (none, r', rest)) : rest = [] := by
  unfold next at h
  split at h
  · split at h
    · rename_i hread
      cases h
      exact Pair.read_resumable.rest_eq_nil hread
    · cases h
  · split at h
    · rename_i hempty
      cases h
      exact List.isEmpty_iff.mp hempty
    · cases h

/-- What a piece took of the chunk is a chunk of its own. -/
theorem Reader.exists_used {K : Type} [Kind K] {r r' : Reader K} {input rest : Bytes} {piece : Piece K}
    (h : r.next input = (some piece, r', rest)) :
    ∃ used, input = used ++ rest ∧ r.next used = (some piece, r', []) := by
  by_cases hrem : r.remaining = 0
  · unfold next at h
    rw [if_pos hrem] at h
    match hread : r.header.read input with
    | (none, header, left) =>
      rw [hread] at h
      cases h
    | (some (kind, length), header, left) =>
      rw [hread] at h
      cases h
      obtain ⟨used, -, heq, hused⟩ := Pair.read_resumable.exists_used hread
      refine ⟨used, heq, ?_⟩
      unfold next
      rw [if_pos hrem, hused]
  · match input with
    | [] =>
      rw [next_nil] at h
      cases h
    | b :: input =>
      rw [next_payload hrem] at h
      cases h
      refine ⟨b :: input.take (r.remaining - 1), ?_, ?_⟩
      · rw [List.cons_append, List.take_append_drop]
      · rw [next_payload hrem, List.take_take, Nat.min_self, List.length_take,
          List.drop_of_length_le (by rw [List.length_take]; exact Nat.min_le_left _ _)]
        congr 3
        omega

namespace Capsule.Reader

variable {r r' : Reader} {input rest : Bytes} {code : Code} {close : SessionClose}

/-- A chunk without a CLOSE is read to its end. -/
theorem read_none (h : r.read input = .ok (none, r', rest)) :
    rest = [] ∧ r.drain input = .start r' := by
  refine ⟨?_, by rw [drain_unfold, h]; rfl⟩
  induction hlen : input.length using Nat.strongRecOn generalizing r input with
  | ind n ih =>
    subst hlen
    rw [read_eq] at h
    rcases hnext : r.frames.next input with ⟨_ | p, frames, left⟩
    · rw [hnext] at h
      cases h
      exact Http3.Reader.rest_of_next_none hnext
    · simp only [hnext] at h
      rcases hpiece : piece { r with frames } p with code | ⟨_ | close, r''⟩
      · rw [hpiece] at h
        cases h
      · rw [hpiece] at h
        exact ih _ (Http3.Reader.length_lt_of_next hnext) h rfl
      · rw [hpiece] at h
        cases h

/-- A piece that completes a CLOSE is the rest of its payload, to the last byte. -/
theorem piece_some {frames : Http3.Reader CapsuleType} {p : Piece CapsuleType}
    (hnext : r.frames.next input = (some p, frames, rest))
    (hpiece : piece { r with frames } p = .ok (some close, r')) :
    ∃ body b, input = body ++ b :: rest ∧ r.kind = .close ∧ r.frames.remaining = body.length + 1 ∧
      frames = ⟨r.frames.header, 0⟩ ∧ parse (r.close ++ (body ++ [b])) = .ok close ∧
      r' = { r with frames, close := [] } := by
  obtain ⟨hzero, kind, length, rfl, hlength⟩ | ⟨hrem, part, rfl, hremaining⟩ :=
    Http3.Reader.next_some hnext
  · -- a header completes nothing
    simp only [piece] at hpiece
    split at hpiece <;> cases hpiece
  · by_cases hkind : r.kind = .close
    · simp only [piece, if_pos hkind] at hpiece
      split at hpiece
      · rename_i hend
        cases input with
        | nil =>
          rw [Http3.Reader.next_nil] at hnext
          cases hnext
        | cons a input =>
          rw [Http3.Reader.next_payload hrem] at hnext
          cases hnext
          have hlen : r.frames.remaining - 1 ≤ input.length := Nat.sub_eq_zero_iff_le.mp hend
          cases hparse : parse (r.close ++ a :: input.take (r.frames.remaining - 1)) with
          | error code =>
            rw [hparse] at hpiece
            cases hpiece
          | ok close' =>
            rw [hparse] at hpiece
            cases hpiece
            -- the part is not empty, so it has a last byte
            have hne : a :: input.take (r.frames.remaining - 1) ≠ [] := List.cons_ne_nil _ _
            have hpart := List.dropLast_append_getLast hne
            refine ⟨_, _, ?_, hkind, ?_, ?_, hpart ▸ hparse, rfl⟩
            · rw [List.append_cons, hpart, List.cons_append, List.take_append_drop]
            · rw [List.length_dropLast, List.length_cons, List.length_take, Nat.min_eq_left hlen]
              omega
            · exact congrArg _ hend
      · cases hpiece
    · simp only [piece, if_neg hkind] at hpiece
      cases hpiece

/-- The payload of a CLOSE collects up to its last byte. -/
theorem drain_begun {body : Bytes} (hkind : r.kind = .close)
    (hrem : r.frames.remaining = body.length + 1) :
    r.drain body =
      .start { r with frames := ⟨r.frames.header, 1⟩, close := r.close ++ body } := by
  obtain ⟨⟨header, remaining⟩, kind, kept⟩ := r
  obtain rfl : remaining = body.length + 1 := hrem
  match body with
  | [] => rw [drain_nil, List.append_nil]; rfl
  | b :: body =>
    have hnext : (Http3.Reader.next (⟨header, (b :: body).length + 1⟩ : Http3.Reader CapsuleType)
        (b :: body)) = (some (.payload (b :: body)), ⟨header, 1⟩, []) := by
      rw [Http3.Reader.next_payload (Nat.succ_ne_zero _)]
      simp only [List.length_cons, Nat.add_sub_cancel, List.drop_of_length_le (Nat.le_succ _),
        List.take_of_length_le (Nat.le_succ _)]
      congr 3
      omega
    rw [drain_some hnext, pieceOutcome_close (by exact hkind), if_neg Nat.one_ne_zero,
      Outcome.start_andThen, drain_nil]

/-- **A CLOSE ends with the last byte that was read**: before it nothing is told, and that byte
completes it. -/
theorem read_some (h : r.read input = .ok (some close, r', rest)) :
    ∃ before b between, input = before ++ b :: rest ∧ r.drain before = .start between ∧
      between.drain [b] = ⟨[close], .ok r'⟩ := by
  induction hlen : input.length using Nat.strongRecOn generalizing r input with
  | ind n ih =>
    subst hlen
    rw [read_eq] at h
    rcases hnext : r.frames.next input with ⟨_ | p, frames, left⟩
    · rw [hnext] at h
      cases h
    · simp only [hnext] at h
      rcases hpiece : piece { r with frames } p with code | ⟨_ | close', r''⟩
      · rw [hpiece] at h
        cases h
      · rw [hpiece] at h
        obtain ⟨used, rfl, hused⟩ := Http3.Reader.exists_used hnext
        obtain ⟨before, b, between, rfl, hbefore, hlast⟩ :=
          ih _ (Http3.Reader.length_lt_of_next hnext) h rfl
        refine ⟨used ++ before, b, between, by rw [List.append_assoc], ?_, hlast⟩
        have houtcome : Reader.pieceOutcome { r with frames } p = .start r'' := by
          simp only [pieceOutcome, hpiece]
          rfl
        rw [drain_append, drain_some hused, houtcome, Outcome.start_andThen, drain_nil,
          Outcome.start_andThen, hbefore]
      · rw [hpiece] at h
        cases h
        obtain ⟨body, b, hinput, hkind, hrem, hframes, hparse, rfl⟩ := piece_some hnext hpiece
        refine ⟨body, b, { r with frames := ⟨r.frames.header, 1⟩, close := r.close ++ body }, hinput,
          drain_begun hkind hrem, ?_⟩
        have hlast : (Http3.Reader.next (⟨r.frames.header, 1⟩ : Http3.Reader CapsuleType) [b]) =
            (some (.payload [b]), ⟨r.frames.header, 0⟩, []) :=
          Http3.Reader.next_payload Nat.one_ne_zero b []
        rw [drain_some hlast, pieceOutcome_close (by exact hkind), if_pos rfl, List.append_assoc, hparse,
          hframes]
        simp only [Outcome.andThen_ok, drain_nil, Outcome.start, List.append_nil]

/-- A CLOSE is read where its last byte comes. -/
theorem read_of_split {first : Bytes} {b : UInt8} {between : Reader}
    (hfirst : r.drain first = .start between) (hlast : between.drain [b] = ⟨[close], .ok r'⟩) :
    r.read (first ++ b :: rest) = .ok (some close, r', rest) := by
  have hdrain (rest : Bytes) :
      r.drain (first ++ b :: rest) = ⟨close :: (r'.drain rest).events, (r'.drain rest).state⟩ := by
    rw [drain_append, hfirst, Outcome.start_andThen, drain_cons, hlast]
    rfl
  have hevents := congrArg Outcome.events (hdrain rest)
  match hread : r.read (first ++ b :: rest) with
  | .error code =>
    rw [drain_unfold, hread] at hevents
    cases hevents
  | .ok (none, r'', left) =>
    rw [drain_unfold, hread] at hevents
    cases hevents
  | .ok (some close', r'', left) =>
    obtain ⟨before, b', between', heq, hbefore, hlast'⟩ := read_some hread
    -- neither beginning reaches past the other, as it would tell the CLOSE
    have hquiet {short long : Bytes} {a : UInt8} {left : Bytes} {r₁ r₂ r₃ : Reader}
        {told : SessionClose} (hlong : r.drain long = .start r₁) (hshort : r.drain short = .start r₂)
        (hcloses : r₂.drain [a] = ⟨[told], .ok r₃⟩) (hsplit : long = short ++ a :: left) : False := by
      rw [hsplit, drain_append, hshort, Outcome.start_andThen, drain_cons, hcloses] at hlong
      have htold := congrArg Outcome.events hlong
      cases htold
    rcases List.append_eq_append_iff.mp heq with ⟨more, hmore, hcons⟩ | ⟨more, hmore, hcons⟩
    · match more with
      | [] =>
        rw [List.append_nil] at hmore
        subst hmore
        rw [hfirst] at hbefore
        cases hbefore
        cases hcons
        rw [hlast] at hlast'
        cases hlast'
        rfl
      | a :: more =>
        cases hcons
        exact (hquiet hbefore hfirst hlast hmore).elim
    · match more with
      | [] =>
        rw [List.append_nil] at hmore
        subst hmore
        rw [hfirst] at hbefore
        cases hbefore
        cases hcons
        rw [hlast] at hlast'
        cases hlast'
        rfl
      | a :: more =>
        cases hcons
        exact (hquiet hfirst hbefore hlast' hmore).elim

/-- Behind bytes that tell nothing, a reader goes on as if they had come with what follows. -/
theorem read_start {first : Bytes} (h : r.drain first = .start r') (later : Bytes) :
    r.read (first ++ later) = r'.read later := by
  have hdrain : r.drain (first ++ later) = r'.drain later := by
    rw [drain_append, h, Outcome.start_andThen]
  match hlater : r'.read later with
  | .error code =>
    rw [drain_unfold r', hlater, drain_unfold] at hdrain
    match hread : r.read (first ++ later) with
    | .error code' =>
      rw [hread] at hdrain
      cases hdrain
      rfl
    | .ok (none, r'', left) =>
      rw [hread] at hdrain
      cases hdrain
    | .ok (some close, r'', left) =>
      rw [hread] at hdrain
      cases hdrain
  | .ok (none, r'', left) =>
    obtain ⟨rfl, -⟩ := read_none hlater
    rw [drain_unfold r', hlater, drain_unfold] at hdrain
    match hread : r.read (first ++ later) with
    | .error code' =>
      rw [hread] at hdrain
      cases hdrain
    | .ok (none, r₁, left) =>
      obtain ⟨rfl, -⟩ := read_none hread
      rw [hread] at hdrain
      cases hdrain
      rfl
    | .ok (some close, r₁, left) =>
      rw [hread] at hdrain
      cases hdrain
  | .ok (some close, r'', left) =>
    obtain ⟨before, b, between, rfl, hbefore, hlast⟩ := read_some hlater
    rw [← List.append_assoc]
    refine read_of_split ?_ hlast
    rw [drain_append, h, Outcome.start_andThen, hbefore]

/-- **A chunk and what follows it** are read as one: the reader goes on, and what is left of a chunk
comes before what follows. -/
theorem read_append (r : Reader) (first later : Bytes) :
    r.read (first ++ later) =
      match r.read first with
      | .error code => .error code
      | .ok (none, r', _) => r'.read later
      | .ok (some close, r', rest) => .ok (some close, r', rest ++ later) := by
  match hread : r.read first with
  | .ok (none, r', rest) => exact read_start (read_none hread).2 later
  | .ok (some close, r', rest) =>
    obtain ⟨before, b, between, rfl, hbefore, hlast⟩ := read_some hread
    rw [List.append_assoc, List.cons_append]
    exact read_of_split hbefore hlast
  | .error code =>
    have hdrain : r.drain (first ++ later) = ⟨[], .error code⟩ := by
      rw [drain_append, drain_unfold r first, hread]
      rfl
    rw [drain_unfold] at hdrain
    match hall : r.read (first ++ later) with
    | .error code' =>
      rw [hall] at hdrain
      cases hdrain
      rfl
    | .ok (none, r'', left) =>
      rw [hall] at hdrain
      cases hdrain
    | .ok (some close, r'', left) =>
      rw [hall] at hdrain
      cases hdrain

@[simp] theorem read_nil (r : Reader) : r.read [] = .ok (none, r, []) := by
  rw [read_eq, Http3.Reader.next_nil]

end Capsule.Reader

/-! ## What the peer says -/

namespace Session

/-- What the peer says of the session's end, and what its stream is aborted for. -/
inductive Heard where
  | closed (close : SessionClose)
  | fin
  | failed (error : Error)
  | aborted (code : Code)
deriving DecidableEq, Repr

/-- The DATA before the stream's end. -/
def spoken : List Data → Bytes
  | .bytes bytes :: data => bytes ++ spoken data
  | .fin :: _ | .failed _ :: _ | [] => []

/-- How the stream ends, if it does: with its FIN or a failure. -/
def stop : List Data → Option Data
  | .bytes _ :: data => stop data
  | last :: _ => some last
  | [] => none

/-- What the stream's end says. Its FIN may only come between capsules. -/
def lastHeard (atBoundary : Bool) : Option Data → List Heard
  | none | some (.bytes _) => []
  | some .fin => if atBoundary then [.fin] else [.aborted .h3MessageError]
  | some (.failed error) => [.failed error]

/-- What all the DATA of a stream and its end say. Behind a CLOSE only the end may follow. -/
def hear (bytes : Bytes) (stop : Option Data) : List Heard :=
  match Capsule.Reader.empty.read bytes with
  | .error code => [.aborted code]
  | .ok (none, capsules, _) => lastHeard capsules.atBoundary stop
  | .ok (some close, capsules, behind) =>
    .closed close ::
      if behind ≠ [] then [.aborted .h3MessageError] else lastHeard capsules.atBoundary stop

/-- What the peer says in all that the receiving half gave. -/
def heard (told : List Data) : List Heard := hear (spoken told) (stop told)

/-- What the session heard, as its log has it. -/
def Event.heard : Event → Option Heard
  | .peerClose close _ => some (.closed close)
  | .fin => some .fin
  | .failed error => some (.failed error)
  | .aborted code => some (.aborted code)
  | .data _ | .lost _ | .requested _ | .closeQueued _ _ => none

def heardIn (log : List Event) : List Heard := log.filterMap Event.heard

@[simp] theorem heardIn_append (log later : List Event) :
    heardIn (log ++ later) = heardIn log ++ heardIn later := List.filterMap_append

section Append

variable {told : List Data}

/-- Until something stops the reading, more data speaks more. -/
theorem spoken_append (h : stop told = none) (more : List Data) :
    spoken (told ++ more) = spoken told ++ spoken more := by
  induction told with
  | nil => rfl
  | cons d told ih =>
    cases d with
    | bytes bytes =>
      show bytes ++ spoken (told ++ more) = bytes ++ spoken told ++ spoken more
      rw [ih h, List.append_assoc]
    | fin => cases h
    | failed error => cases h

/-- Until something stops the reading, what stops it is yet to come. -/
theorem stop_append (h : stop told = none) (more : List Data) : stop (told ++ more) = stop more := by
  induction told with
  | nil => rfl
  | cons d told ih =>
    cases d with
    | bytes bytes => exact ih h
    | fin => cases h
    | failed error => cases h

/-- Behind the stream's end nothing counts. -/
theorem ended_append (h : stop told ≠ none) (more : List Data) :
    spoken (told ++ more) = spoken told ∧ stop (told ++ more) = stop told := by
  induction told with
  | nil => exact absurd rfl h
  | cons d told ih =>
    cases d with
    | bytes bytes =>
      refine ⟨?_, (ih h).2⟩
      show bytes ++ spoken (told ++ more) = bytes ++ spoken told
      rw [(ih h).1]
    | fin => exact ⟨rfl, rfl⟩
    | failed error => exact ⟨rfl, rfl⟩

/-- What has stopped the reading has stopped it for good. -/
theorem stop_append_ne_none (h : stop told ≠ none) (more : List Data) : stop (told ++ more) ≠ none := by
  rw [(ended_append h more).2]
  exact h

/-- What comes behind the stream's end is not heard. -/
theorem heard_append (told more : List Data) :
    heard (told ++ more) =
      if stop told = none then hear (spoken told ++ spoken more) (stop more) else heard told := by
  unfold heard
  split
  · rename_i hnone
    rw [spoken_append hnone, stop_append hnone]
  · rename_i hsome
    rw [(ended_append hsome more).1, (ended_append hsome more).2]

end Append

/-! ## What the polls make of it -/

/-- The stream's reader has read `bytes`, and they tell of the peer's CLOSE exactly where it has
come. -/
structure Listens (bytes : Bytes) (c : Connect) : Prop where
  open_ : c.peerClosed = false → Capsule.Reader.empty.read bytes = .ok (none, c.capsules, [])
  closed : c.peerClosed = true →
    ∃ close, Capsule.Reader.empty.read bytes = .ok (some close, c.capsules, [])

section Listens

variable {bytes : Bytes} {c c' : Connect}

/-- Only the reader matters, and whether the CLOSE came. -/
theorem Listens.congr (h : Listens bytes c) (hcapsules : c'.capsules = c.capsules)
    (hclosed : c'.peerClosed = c.peerClosed) : Listens bytes c' where
  open_ := by
    rw [hclosed, hcapsules]
    exact h.open_
  closed := by
    rw [hclosed, hcapsules]
    exact h.closed

/-- Before the CLOSE nothing was said. -/
theorem Listens.hear_open (h : Listens bytes c) (hclosed : c.peerClosed = false) :
    hear bytes none = [] := by
  rw [hear, h.open_ hclosed]
  rfl

/-- Before the CLOSE the reader goes on with what follows. -/
theorem Listens.read_open (h : Listens bytes c) (hclosed : c.peerClosed = false) (more : Bytes) :
    Capsule.Reader.empty.read (bytes ++ more) = c.capsules.read more := by
  rw [Capsule.Reader.read_append, h.open_ hclosed]

/-- What a chunk of the peer's without a CLOSE leaves. -/
theorem Listens.more (h : Listens bytes c) {input : Bytes} {capsules : Capsule.Reader}
    (hbehind : ¬ (c.peerClosed = true ∧ input ≠ []))
    (hread : c.capsules.read input = .ok (none, capsules, [])) (next : Bytes) :
    Listens (bytes ++ input) { c with capsules, input := next } where
  open_ := fun hclosed => (h.read_open hclosed input).trans hread
  closed := by
    intro hclosed
    obtain ⟨close, hclose⟩ := h.closed hclosed
    have hnil : input = [] := by
      by_contra hne
      exact hbehind ⟨hclosed, hne⟩
    rw [hnil, Capsule.Reader.read_nil] at hread
    cases hread
    rw [hnil, List.append_nil]
    exact ⟨close, hclose⟩

/-- Where nothing follows what was read, only the CLOSE was said so far, if it came. -/
theorem Listens.hear_stop (h : Listens bytes c) (stop : Option Data) :
    hear bytes stop = hear bytes none ++ lastHeard c.capsules.atBoundary stop := by
  match hclosed : c.peerClosed with
  | false =>
    rw [h.hear_open hclosed, hear, h.open_ hclosed]
    rfl
  | true =>
    obtain ⟨close, hclose⟩ := h.closed hclosed
    rw [hear, hear, hclose]
    rfl

/-- The chunk says as much with what came before it as the reader makes of it alone. -/
theorem Listens.hear_more (h : Listens bytes c) {input : Bytes} {capsules : Capsule.Reader}
    (hbehind : ¬ (c.peerClosed = true ∧ input ≠ []))
    (hread : c.capsules.read input = .ok (none, capsules, [])) :
    hear (bytes ++ input) none = hear bytes none := by
  match hclosed : c.peerClosed with
  | false => rw [h.hear_open hclosed, (h.more hbehind hread []).hear_open hclosed]
  | true =>
    have hnil : input = [] := by
      by_contra hne
      exact hbehind ⟨hclosed, hne⟩
    rw [hnil, List.append_nil]

end Listens

/-- What a poll's read adds to what was heard: all that the stream's DATA and its end say. -/
structure Hears (bytes : Bytes) (c : Connect) (data : List Data)
    (result : Option Error × Connect × List Event) : Prop where
  heard : hear bytes none ++ heardIn result.2.2 = hear (bytes ++ c.input ++ spoken data) (stop data)
  finished : result.1 = none → result.2.1.peerFinished = true → stop data ≠ none
  listens : result.1 = none → result.2.1.peerFinished = false →
    stop data = none ∧ result.2.1.input = [] ∧
      Listens (bytes ++ c.input ++ spoken data) result.2.1

/-- A poll for data hears the data that is there. -/
theorem pollRead_hears {bytes : Bytes} {c : Connect} (h : Listens bytes c)
    (hopen : c.peerFinished = false) (data : List Data) : Hears bytes c data (c.pollRead data) := by
  fun_induction Connect.pollRead c data generalizing bytes with
  | case1 c data hfinished =>
    rw [hopen] at hfinished
    cases hfinished
  | case2 c data hfinished hbehind =>
    obtain ⟨close, hclose⟩ := h.closed hbehind.1
    refine ⟨?_, (fun hnone => by cases hnone), fun hnone => by cases hnone⟩
    have hread : Capsule.Reader.empty.read (bytes ++ c.input ++ spoken data) =
        .ok (some close, c.capsules, c.input ++ spoken data) := by
      rw [List.append_assoc, Capsule.Reader.read_append, hclose]
      rfl
    have hne : c.input ++ spoken data ≠ [] := fun hnil =>
      hbehind.2 (List.append_eq_nil_iff.mp hnil).1
    rw [hear, hear, hclose, hread]
    simp only [ne_eq, not_true_eq_false, if_false, lastHeard, if_pos hne]
    rfl
  | case3 c data hfinished hbehind code hread =>
    have hclosed : c.peerClosed = false := by
      by_contra htrue
      have hclosed : c.peerClosed = true := Bool.not_eq_false _ ▸ htrue
      have hnil : c.input = [] := by
        by_contra hne
        exact hbehind ⟨hclosed, hne⟩
      rw [hnil, Capsule.Reader.read_nil] at hread
      cases hread
    refine ⟨?_, (fun hnone => by cases hnone), fun hnone => by cases hnone⟩
    rw [h.hear_open hclosed, hear, List.append_assoc, h.read_open hclosed, Capsule.Reader.read_append,
      hread]
    rfl
  | case4 c data hfinished hbehind close capsules input hread closed error c' events heq =>
    rename_i ih
    have hclosed : c.peerClosed = false := by
      by_contra htrue
      have hclosed : c.peerClosed = true := Bool.not_eq_false _ ▸ htrue
      have hnil : c.input = [] := by
        by_contra hne
        exact hbehind ⟨hclosed, hne⟩
      rw [hnil, Capsule.Reader.read_nil] at hread
      cases hread
    -- the bytes up to the CLOSE's last one, and those behind it
    obtain ⟨before, b, between, hinput, hbefore, hlast⟩ := Capsule.Reader.read_some hread
    have hclose : Capsule.Reader.empty.read (bytes ++ (before ++ [b])) =
        .ok (some close, capsules, []) := by
      rw [h.read_open hclosed]
      exact Capsule.Reader.read_of_split hbefore hlast
    have hfinish : (closed.finish (.ok close)).peerFinished = false ∧
        (closed.finish (.ok close)).capsules = capsules ∧
        (closed.finish (.ok close)).input = input ∧
        (closed.finish (.ok close)).peerClosed = true := by
      unfold Connect.finish
      split <;> exact ⟨hopen, rfl, rfl, rfl⟩
    have hlistens : Listens (bytes ++ (before ++ [b])) (closed.finish (.ok close)) := by
      refine ⟨fun hfalse => ?_, fun _ => ⟨close, ?_⟩⟩
      · rw [hfinish.2.2.2] at hfalse
        cases hfalse
      · rw [hfinish.2.1]
        exact hclose
    have hlater := ih hlistens hfinish.1
    rw [heq] at hlater
    have hall : bytes ++ (before ++ [b]) ++ (closed.finish (.ok close)).input = bytes ++ c.input := by
      rw [hfinish.2.2.1, hinput, List.append_assoc, List.append_assoc]
      rfl
    have hsaid : hear (bytes ++ (before ++ [b])) none = [.closed close] := by
      rw [hear, hclose]
      rfl
    refine ⟨?_, hlater.finished, ?_⟩
    · have hheard := hlater.heard
      rw [hsaid, hall] at hheard
      rw [h.hear_open hclosed]
      exact hheard
    · have hgoes := hlater.listens
      rw [hall] at hgoes
      exact hgoes
  | case5 c hfinished hbehind capsules input hread =>
    rename_i read
    obtain ⟨rfl, -⟩ := Capsule.Reader.read_none hread
    refine ⟨?_, fun _ htrue => ?_, fun _ _ => ⟨rfl, rfl, ?_⟩⟩
    · show hear bytes none ++ [] = hear (bytes ++ c.input ++ []) none
      rw [List.append_nil, List.append_nil, h.hear_more hbehind hread]
    · rw [show read.peerFinished = c.peerFinished from rfl, hopen] at htrue
      cases htrue
    · show Listens (bytes ++ c.input ++ []) _
      rw [List.append_nil]
      exact h.more hbehind hread []
  | case6 c hfinished hbehind capsules input hread read next data error c' events heq =>
    rename_i ih
    obtain ⟨rfl, -⟩ := Capsule.Reader.read_none hread
    have hlater := ih (h.more hbehind hread next) hopen
    rw [heq] at hlater
    have hall : bytes ++ c.input ++ next ++ spoken data =
        bytes ++ c.input ++ spoken (.bytes next :: data) := List.append_assoc _ _ _
    refine ⟨?_, hlater.finished, ?_⟩
    · have hheard := hlater.heard
      rw [h.hear_more hbehind hread] at hheard
      exact hheard.trans (congrArg (hear · (stop data)) hall)
    · have hgoes := hlater.listens
      rw [show (bytes ++ c.input ++ ({ read with input := next } : Connect).input ++ spoken data) =
        _ from hall] at hgoes
      exact hgoes
  | case7 c hfinished hbehind capsules input hread read rest =>
    rename_i hboundary
    obtain ⟨rfl, -⟩ := Capsule.Reader.read_none hread
    refine ⟨?_, fun _ _ => Option.some_ne_none _, fun _ hfalse => ?_⟩
    · show hear bytes none ++ [.fin] = hear (bytes ++ c.input ++ []) (some .fin)
      rw [List.append_nil, (h.more hbehind hread []).hear_stop, h.hear_more hbehind hread]
      exact congrArg _ (if_pos hboundary).symm
    · have htrue : ({ read with peerFinished := true } : Connect).finish (.ok ⟨0, ""⟩) |>.peerFinished := by
        unfold Connect.finish
        split <;> rfl
      rw [show _ = true from htrue] at hfalse
      cases hfalse
  | case8 c hfinished hbehind capsules input hread read rest =>
    rename_i hboundary
    obtain ⟨rfl, -⟩ := Capsule.Reader.read_none hread
    refine ⟨?_, (fun hnone => by cases hnone), fun hnone => by cases hnone⟩
    show hear bytes none ++ [.aborted .h3MessageError] = hear (bytes ++ c.input ++ []) (some .fin)
    rw [List.append_nil, (h.more hbehind hread []).hear_stop, h.hear_more hbehind hread]
    exact congrArg _ (if_neg hboundary).symm
  | case9 c hfinished hbehind capsules input hread read error =>
    rename_i rest
    obtain ⟨rfl, -⟩ := Capsule.Reader.read_none hread
    refine ⟨?_, (fun hnone => by cases hnone), fun hnone => by cases hnone⟩
    show hear bytes none ++ [.failed error] = hear (bytes ++ c.input ++ []) (some (.failed error))
    rw [List.append_nil, (h.more hbehind hread []).hear_stop, h.hear_more hbehind hread]
    rfl

/-! ## Writing and closing hear nothing -/

/-- Two streams that have read the same. -/
structure Unread (c c' : Connect) : Prop where
  capsules : c'.capsules = c.capsules
  input : c'.input = c.input
  finished : c'.peerFinished = c.peerFinished
  closed : c'.peerClosed = c.peerClosed

section Unread

variable {c c' : Connect}

/-- A session that does not change has not read. -/
theorem Unread.refl (c : Connect) : Unread c c := ⟨rfl, rfl, rfl, rfl⟩

/-- Steps that do not read compose. -/
theorem Unread.trans {c'' : Connect} (h : Unread c c') (h' : Unread c' c'') : Unread c c'' :=
  ⟨h'.capsules.trans h.capsules, h'.input.trans h.input, h'.finished.trans h.finished,
    h'.closed.trans h.closed⟩

/-- Finishing reads nothing. -/
theorem finish_unread (c : Connect) (ending : Except Error SessionClose) :
    Unread c (c.finish ending) := by
  unfold Connect.finish
  split <;> exact ⟨rfl, rfl, rfl, rfl⟩

/-- Polling the writes reads nothing. -/
theorem pollWrite_unread (c : Connect) (e : Polling) :
    Unread c (c.pollWrite e).2.1 ∧ heardIn (c.pollWrite e).2.2 = [] := by
  unfold Connect.pollWrite
  split
  · exact ⟨.refl c, rfl⟩
  · simp only
    split
    · refine ⟨?_, rfl⟩
      unfold Connect.opened
      split <;> exact ⟨rfl, rfl, rfl, rfl⟩
    · exact ⟨⟨rfl, rfl, rfl, rfl⟩, rfl⟩
    · exact ⟨⟨rfl, rfl, rfl, rfl⟩, rfl⟩

/-- Closing reads nothing. -/
theorem close_unread {r r' : Registry} {now deadline : ℕ} {events : List Event}
    (h : c.close r now = some (deadline, c', r', events)) : Unread c c' ∧ heardIn events = [] := by
  have hqueued (close : SessionClose) (capsule : Bytes) :
      Unread c ({ c with send := c.send.queueAfter .data capsule } : Connect) ∧
        heardIn [.closeQueued close capsule] = [] := ⟨⟨rfl, rfl, rfl, rfl⟩, rfl⟩
  unfold Connect.close at h
  split at h
  · cases h
    exact ⟨⟨rfl, rfl, rfl, rfl⟩, rfl⟩
  · obtain ⟨close, -, heq⟩ := Option.map_eq_some_iff.mp h
    cases heq
    have hend := finish_unread
      { c with send := c.send.queueAfter .data (Capsule.close close.code close.reason) }
      (.ok close)
    exact ⟨⟨hend.capsules, hend.input, hend.finished, hend.closed⟩, rfl⟩
  · obtain ⟨close, -, heq⟩ := Option.map_eq_some_iff.mp h
    cases heq
    have hend := finish_unread
      { c with send := c.send.queueAfter .data (Capsule.close close.code close.reason) }
      (.ok close)
    exact ⟨⟨hend.capsules, hend.input, hend.finished, hend.closed⟩, rfl⟩

/-- Polling the close reads nothing. -/
theorem pollClose_unread (c : Connect) (r : Registry) (e : Polling) :
    Unread c (c.pollClose r e).2.1 ∧ heardIn (c.pollClose r e).2.2.2 = [] := by
  unfold Connect.pollClose
  cases hdeadline : c.deadline with
  | some deadline =>
    simp only
    split <;> exact ⟨⟨rfl, rfl, rfl, rfl⟩, rfl⟩
  | none =>
    simp only
    rcases hclose : c.close r e.now with _ | ⟨deadline, c', r', events⟩
    · exact ⟨.refl c, rfl⟩
    · obtain ⟨hunread, hquiet⟩ := close_unread hclose
      simp only
      split <;> exact ⟨hunread.trans ⟨rfl, rfl, rfl, rfl⟩, hquiet⟩

/-- **A poll hears** what its DATA says behind what was read before, and goes on with the next DATA
while it is not done and no FIN came. -/
theorem poll_hears {bytes : Bytes} (h : Listens bytes c) (hopen : c.peerFinished = false)
    (hinput : c.input = []) (r : Registry) (e : Polling) :
    hear bytes none ++ heardIn (c.poll r e).2.2.2 = hear (bytes ++ spoken e.data) (stop e.data) ∧
      ((c.poll r e).1 = false →
        ((c.poll r e).2.1.peerFinished = true → stop e.data ≠ none) ∧
        ((c.poll r e).2.1.peerFinished = false → stop e.data = none ∧ (c.poll r e).2.1.input = [] ∧
          Listens (bytes ++ spoken e.data) (c.poll r e).2.1)) := by
  have hread := pollRead_hears h hopen e.data
  have hall : bytes ++ c.input ++ spoken e.data = bytes ++ spoken e.data := by
    rw [hinput, List.append_nil]
  unfold Connect.poll
  generalize c.pollRead e.data = result at hread ⊢
  obtain ⟨_ | error, c', events⟩ := result
  · have hwrite := pollWrite_unread c' e
    simp only
    generalize c'.pollWrite e = result at hwrite ⊢
    obtain ⟨_ | error, c'', written⟩ := result
    · obtain ⟨hunread, hquiet⟩ := pollClose_unread c'' r e
      have hkept := hwrite.1.trans hunread
      simp only
      constructor
      · rw [heardIn_append, heardIn_append, hquiet, hwrite.2, List.append_nil, List.append_nil]
        exact hread.heard.trans (congrArg (hear · _) hall)
      · intro _
        constructor
        · intro hfin
          exact hread.finished rfl (hkept.finished.symm.trans hfin)
        · intro hfin
          obtain ⟨hstop, hnil, hlistens⟩ := hread.listens rfl (hkept.finished.symm.trans hfin)
          refine ⟨hstop, hkept.input.trans hnil, ?_⟩
          rw [hall] at hlistens
          exact hlistens.congr hkept.capsules hkept.closed
    · refine ⟨?_, fun hdone => by cases hdone⟩
      show hear bytes none ++ heardIn (events ++ written) = _
      rw [heardIn_append, hwrite.2, List.append_nil]
      exact hread.heard.trans (congrArg (hear · _) hall)
  · refine ⟨?_, fun hdone => by cases hdone⟩
    simp only [List.append_nil]
    exact hread.heard.trans (congrArg (hear · _) hall)

/-- Behind the peer's FIN a poll hears nothing. -/
theorem poll_finished (hfinished : c.peerFinished = true) (r : Registry) (e : Polling) :
    heardIn (c.poll r e).2.2.2 = [] ∧ (c.poll r e).2.1.peerFinished = true := by
  have hread : c.pollRead e.data = (none, c, []) := by
    rw [Connect.pollRead, if_pos hfinished]
  unfold Connect.poll
  rw [hread]
  have hwrite := pollWrite_unread c e
  simp only
  generalize c.pollWrite e = result at hwrite ⊢
  obtain ⟨_ | error, c', written⟩ := result
  · obtain ⟨hunread, hquiet⟩ := pollClose_unread c' r e
    simp only
    refine ⟨?_, (hwrite.1.trans hunread).finished.trans hfinished⟩
    rw [heardIn_append, hquiet, List.append_nil]
    exact hwrite.2
  · refine ⟨hwrite.2, ?_⟩
    exact (hwrite.1.trans (finish_unread c' _)).finished.trans hfinished

end Unread

end Session

end GraphiteMeter.Http3
