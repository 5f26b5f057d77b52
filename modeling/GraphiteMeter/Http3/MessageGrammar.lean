import GraphiteMeter.Http3.MessageRules

/-!
# The grammar of a request stream

The streams that break no rule are those of the form
`(extension)* HEADERS (DATA | extension)* [HEADERS (extension)*]`, in complete frames, with field
sections within the limit and a body of the declared length.

`firstViolation_lead`, `firstViolation_body` and `firstViolation_trailing` read the grammar off the
rules, one for each number of field sections behind the reader; `read_grammar` puts it together with
what the reader does.
-/

namespace GraphiteMeter.Http3.Message

/-! ## The grammar -/

/-- A stream of complete frames, each its two integers and its payload. -/
inductive Framed : Bytes → List (Frame FrameType) → Prop
  | nil : Framed [] []
  | cons {type length payload rest : Bytes} {kind : ℕ} {frames : List (Frame FrameType)} :
    Varint.decode type = some (kind, type.length) →
    Varint.decode length = some (payload.length, length.length) →
    Framed rest frames →
    Framed (type ++ (length ++ (payload ++ rest))) (⟨⟨kind⟩, payload.length, payload⟩ :: frames)

/-- What may follow the head: `(DATA | extension)* [HEADERS (extension)*]`. -/
def Rest (limit : ℕ) (body trailing : List (Frame FrameType)) : Prop :=
  (∀ frame ∈ body, frame.kind = .data ∨ frame.kind.IsExtension) ∧
    (trailing = [] ∨ ∃ trailers rest, trailing = trailers :: rest ∧
      (trailers.kind = .headers ∧ trailers.length ≤ limit) ∧
      ∀ frame ∈ rest, frame.kind.IsExtension)

/-- `(extension)* HEADERS (DATA | extension)* [HEADERS (extension)*]`, with field sections of at most
`limit` bytes and a body of the length declared by the head. -/
def Grammatical (limit : ℕ) (declared : Bytes → Option ℕ) (frames : List (Frame FrameType)) : Prop :=
  ∃ lead head body trailing, frames = lead ++ head :: (body ++ trailing) ∧
    (∀ frame ∈ lead, frame.kind.IsExtension) ∧
    (head.kind = .headers ∧ head.length ≤ limit) ∧
    Rest limit body trailing ∧
    ∀ length, declared head.payload = some length → bodyLength body = length

variable {limit : ℕ} {peer : Role} {declared : Bytes → Option ℕ} {before : List (Frame FrameType)}

/-! ## Which frames break no rule -/

theorem not_isExtension_headers : ¬ FrameType.IsExtension .headers := by decide

theorem not_isExtension_data : ¬ FrameType.IsExtension .data := by decide

/-- An extension is no field section. -/
theorem ne_headers_of_isExtension {kind : FrameType} (h : kind.IsExtension) : kind ≠ .headers :=
  fun hkind => not_isExtension_headers (hkind ▸ h)

/-- An extension is no body's frame. -/
theorem ne_data_of_isExtension {kind : FrameType} (h : kind.IsExtension) : kind ≠ .data :=
  fun hkind => not_isExtension_data (hkind ▸ h)

/-- The frame headers that are allowed. -/
theorem headerViolation_eq_none {kind : FrameType} {length : ℕ} :
    headerViolation limit peer before kind length = none ↔
      (kind = .headers ∧ sectionCount before < 2 ∧ length ≤ limit) ∨
      (kind = .data ∧ sectionCount before = 1) ∨ kind.IsExtension := by
  unfold headerViolation
  by_cases hheaders : kind = .headers
  · subst hheaders
    have hdata : FrameType.headers ≠ .data := by decide
    simp only [if_true, true_and, hdata, false_and, not_isExtension_headers, or_false]
    split_ifs <;> simp only [true_iff, false_iff] <;> omega
  · by_cases hdata : kind = .data
    · subst hdata
      simp [hheaders, not_isExtension_data]
    · simp only [hheaders, hdata, if_false, false_and, false_or]
      by_cases hext : kind.IsExtension
      · have hbidi : kind ≠ .webtransportBidi := by
          rintro rfl
          revert hext
          decide
        have hpush : kind ≠ .pushPromise := by
          rintro rfl
          revert hext
          decide
        simp [hbidi, hpush, hext]
      · simp only [hext, if_false, iff_false]
        split_ifs <;> exact nofun

/-- The frames that are allowed. -/
theorem violation_eq_none {frame : Frame FrameType} :
    violation limit peer declared before frame = none ↔
      headerViolation limit peer before frame.kind frame.length = none ∧
      (frame.kind = .data → ∀ length, declaredLength declared before = some length →
        bodyLength before + frame.payload.length ≤ length) := by
  unfold violation
  cases headerViolation limit peer before frame.kind frame.length with
  | some code => simp
  | none =>
    simp only [true_and]
    by_cases hdata : frame.kind = .data
    · cases declaredLength declared before with
      | none => simp
      | some length => simp [hdata]
    · simp [hdata]

/-- Frames are allowed when the first is and the others are behind it. -/
theorem firstViolation_cons {left : Bytes} {frame : Frame FrameType}
    {frames : List (Frame FrameType)} :
    firstViolation limit peer declared left before (frame :: frames) = none ↔
      violation limit peer declared before frame = none ∧
        firstViolation limit peer declared left (before ++ [frame]) frames = none := by
  rw [firstViolation]
  cases violation limit peer declared before frame with
  | some code => simp
  | none => simp

/-- The body's length is added up frame by frame. -/
theorem bodyLength_append (frames frames' : List (Frame FrameType)) :
    bodyLength (frames ++ frames') = bodyLength frames + bodyLength frames' := by
  simp [bodyLength]

/-- Without a body's frame the body is empty. -/
theorem bodyLength_eq_zero {frames : List (Frame FrameType)}
    (h : ∀ frame ∈ frames, frame.kind ≠ .data) : bodyLength frames = 0 := by
  have hnil : frames.filter (·.kind = .data) = [] := by
    rw [List.filter_eq_nil_iff]
    intro frame hmem hkind
    exact h frame hmem (of_decide_eq_true hkind)
  rw [bodyLength, hnil]
  rfl

/-! ## No violation is the grammar -/

/-- Behind the trailers only extensions follow. -/
theorem firstViolation_trailing {left : Bytes} {frames : List (Frame FrameType)}
    (hcount : 2 ≤ sectionCount before) :
    firstViolation limit peer declared left before frames = none ↔
      (∀ frame ∈ frames, frame.kind.IsExtension) ∧
        endViolation declared (before ++ frames) left = none := by
  induction frames generalizing before with
  | nil => simp [firstViolation]
  | cons frame frames ih =>
    have hcount' : 2 ≤ sectionCount (before ++ [frame]) := by
      rw [sectionCount_concat]
      omega
    rw [firstViolation_cons, ih hcount', List.append_assoc, List.singleton_append,
      List.forall_mem_cons, violation_eq_none, headerViolation_eq_none]
    constructor
    · rintro ⟨⟨hkind, -⟩, hext, hend⟩
      refine ⟨⟨?_, hext⟩, hend⟩
      rcases hkind with ⟨-, hlt, -⟩ | ⟨-, hone⟩ | hext
      · omega
      · omega
      · exact hext
    · rintro ⟨⟨hext, hrest⟩, hend⟩
      refine ⟨⟨.inr (.inr hext), ?_⟩, hrest, hend⟩
      intro hdata
      exact absurd hdata (ne_data_of_isExtension hext)

/-- What trails a body adds nothing to it. -/
theorem Rest.bodyLength_eq {body trailing : List (Frame FrameType)}
    (h : Rest limit body trailing) : bodyLength (body ++ trailing) = bodyLength body := by
  have hzero : bodyLength trailing = 0 := by
    apply bodyLength_eq_zero
    intro frame hmem
    rcases h.2 with rfl | ⟨trailers, rest, rfl, ⟨hkind, -⟩, hext⟩
    · cases hmem
    · rcases List.mem_cons.mp hmem with rfl | hmem
      · rw [hkind]
        decide
      · exact ne_data_of_isExtension (hext frame hmem)
  rw [bodyLength_append, hzero, Nat.add_zero]

/-- What follows the head starts with a frame of the body, or with the trailers. -/
theorem exists_rest_cons {frame : Frame FrameType} {frames : List (Frame FrameType)} :
    (∃ body trailing, frame :: frames = body ++ trailing ∧ Rest limit body trailing) ↔
      ((frame.kind = .headers ∧ frame.length ≤ limit) ∧
        ∀ frame ∈ frames, frame.kind.IsExtension) ∨
      ((frame.kind = .data ∨ frame.kind.IsExtension) ∧
        ∃ body trailing, frames = body ++ trailing ∧ Rest limit body trailing) := by
  constructor
  · rintro ⟨_ | ⟨first, body⟩, trailing, heq, hbody, htrailing⟩
    · rcases htrailing with rfl | ⟨trailers, rest, rfl, hkind, hext⟩
      · cases heq
      · cases heq
        exact .inl ⟨hkind, hext⟩
    · cases heq
      rw [List.forall_mem_cons] at hbody
      exact .inr ⟨hbody.1, body, trailing, rfl, hbody.2, htrailing⟩
  · rintro (⟨hkind, hext⟩ | ⟨hkind, body, trailing, rfl, hbody, htrailing⟩)
    · exact ⟨[], frame :: frames, rfl, by simp, .inr ⟨frame, frames, rfl, hkind, hext⟩⟩
    · exact ⟨frame :: body, trailing, rfl, List.forall_mem_cons.mpr ⟨hkind, hbody⟩, htrailing⟩

/-- Behind the head the body and the trailers follow, within the declared length. -/
theorem firstViolation_body {left : Bytes} {frames : List (Frame FrameType)}
    (hcount : sectionCount before = 1)
    (hfits : ∀ length, declaredLength declared before = some length → bodyLength before ≤ length) :
    firstViolation limit peer declared left before frames = none ↔
      (∃ body trailing, frames = body ++ trailing ∧ Rest limit body trailing) ∧
      (∀ length, declaredLength declared before = some length →
        bodyLength (before ++ frames) ≤ length) ∧
      endViolation declared (before ++ frames) left = none := by
  induction frames generalizing before with
  | nil =>
    rw [List.append_nil, firstViolation]
    have hrest : ∃ body trailing, ([] : List (Frame FrameType)) = body ++ trailing ∧
        Rest limit body trailing := ⟨[], [], rfl, by simp, .inl rfl⟩
    exact ⟨fun hend => ⟨hrest, hfits, hend⟩, fun h => h.2.2⟩
  | cons frame frames ih =>
    have hdeclared : declaredLength declared (before ++ [frame]) = declaredLength declared before := by
      rw [declaredLength_concat, if_neg fun h => by omega]
    have happend : before ++ [frame] ++ frames = before ++ frame :: frames := by simp
    rw [firstViolation_cons, violation_eq_none, headerViolation_eq_none, exists_rest_cons]
    by_cases hheaders : frame.kind = .headers
    · -- the trailers: behind them nothing adds to the body
      have hext := not_isExtension_headers
      have hdata : FrameType.headers ≠ .data := by decide
      rw [firstViolation_trailing (by rw [sectionCount_concat, if_pos hheaders]; omega), happend]
      simp only [hheaders, hcount, true_and, hdata, false_and, hext, or_false, false_imp_iff,
        and_true, Nat.one_lt_two]
      constructor
      · rintro ⟨hlimit, hrest, hend⟩
        refine ⟨⟨hlimit, hrest⟩, ?_, hend⟩
        intro length hlength
        have hzero : bodyLength (frame :: frames) = 0 := by
          apply bodyLength_eq_zero
          rw [List.forall_mem_cons]
          exact ⟨hheaders ▸ hdata, fun f hf => ne_data_of_isExtension (hrest f hf)⟩
        rw [bodyLength_append, hzero, Nat.add_zero]
        exact hfits length hlength
      · rintro ⟨⟨hlimit, hrest⟩, -, hend⟩
        exact ⟨hlimit, hrest, hend⟩
    · have hcount' : sectionCount (before ++ [frame]) = 1 := by
        rw [sectionCount_concat, if_neg hheaders, hcount]
      have hbody : ∀ length, bodyLength (before ++ frame :: frames) ≤ length →
          bodyLength (before ++ [frame]) ≤ length := by
        intro length hle
        rw [← happend, bodyLength_append] at hle
        omega
      simp only [hheaders, false_and, false_or, hcount, and_true]
      constructor
      · rintro ⟨⟨hkind, hover⟩, hrest⟩
        have hfits' : ∀ length, declaredLength declared (before ++ [frame]) = some length →
            bodyLength (before ++ [frame]) ≤ length := by
          intro length hlength
          rw [hdeclared] at hlength
          rw [bodyLength_concat]
          split
          · exact hover (by assumption) length hlength
          · exact hfits length hlength
        rw [ih hcount' hfits', hdeclared, happend] at hrest
        exact ⟨⟨hkind, hrest.1⟩, hrest.2⟩
      · rintro ⟨⟨hkind, hrest⟩, hlength, hend⟩
        have hfits' : ∀ length, declaredLength declared (before ++ [frame]) = some length →
            bodyLength (before ++ [frame]) ≤ length := by
          intro length hdecl
          exact hbody length (hlength length (hdeclared ▸ hdecl))
        refine ⟨⟨hkind, ?_⟩, ?_⟩
        · intro hdata length hdecl
          have hle := hfits' length (hdeclared.trans hdecl)
          rwa [bodyLength_concat, if_pos hdata] at hle
        · rw [ih hcount' hfits', hdeclared, happend]
          exact ⟨hrest, hlength, hend⟩

/-- Before the head only extensions stand. -/
theorem firstViolation_lead {left : Bytes} {frames : List (Frame FrameType)}
    (hcount : sectionCount before = 0) (hzero : bodyLength before = 0) :
    firstViolation limit peer declared left before frames = none ↔
      (∃ lead head body trailing, frames = lead ++ head :: (body ++ trailing) ∧
        (∀ frame ∈ lead, frame.kind.IsExtension) ∧
        (head.kind = .headers ∧ head.length ≤ limit) ∧ Rest limit body trailing ∧
        ∀ length, declared head.payload = some length → bodyLength body ≤ length) ∧
      endViolation declared (before ++ frames) left = none := by
  induction frames generalizing before with
  | nil =>
    rw [List.append_nil, firstViolation]
    have hend : endViolation declared before left ≠ none := by
      unfold endViolation
      rw [if_pos hcount]
      split <;> exact Option.some_ne_none _
    refine ⟨fun h => absurd h hend, fun h => absurd h.2 hend⟩
  | cons frame frames ih =>
    have happend : before ++ [frame] ++ frames = before ++ frame :: frames := by simp
    rw [firstViolation_cons, violation_eq_none, headerViolation_eq_none]
    by_cases hheaders : frame.kind = .headers
    · -- the head: what follows is the body, against the length it declares
      have hcount' : sectionCount (before ++ [frame]) = 1 := by
        rw [sectionCount_concat, if_pos hheaders, hcount]
      have hdeclared : declaredLength declared (before ++ [frame]) = declared frame.payload := by
        rw [declaredLength_concat, if_pos ⟨hcount, hheaders⟩]
      have hdata : FrameType.headers ≠ .data := by decide
      have hbody : bodyLength (before ++ [frame]) = 0 := by
        rw [bodyLength_concat, hheaders, if_neg hdata, hzero]
      rw [firstViolation_body hcount' (by rw [hbody]; exact fun _ _ => Nat.zero_le _), happend,
        hdeclared]
      simp only [hheaders, hcount, true_and, hdata, false_and, not_isExtension_headers, or_false,
        false_imp_iff, and_true, Nat.zero_lt_two]
      have hlength : ∀ body trailing, Rest limit body trailing →
          bodyLength (before ++ frame :: (body ++ trailing)) = bodyLength body := by
        intro body trailing hrest
        rw [List.append_cons, bodyLength_append, hbody, hrest.bodyLength_eq, Nat.zero_add]
      constructor
      · rintro ⟨hlimit, ⟨body, trailing, rfl, hrest⟩, hfits, hend⟩
        refine ⟨⟨[], frame, body, trailing, rfl, by simp, ⟨hheaders, hlimit⟩, hrest, ?_⟩, hend⟩
        rwa [hlength body trailing hrest] at hfits
      · rintro ⟨⟨_ | ⟨first, lead⟩, head, body, trailing, heq, hlead, hhead, hrest, hfits⟩, hend⟩
        · cases heq
          rw [hlength body trailing hrest]
          exact ⟨hhead.2, ⟨body, trailing, rfl, hrest⟩, hfits, hend⟩
        · cases heq
          exact absurd hheaders (ne_headers_of_isExtension (hlead _ List.mem_cons_self))
    · -- before the head only an extension frame may come, which counts for nothing
      have hone : ¬ (0 = 1) := Nat.zero_ne_one
      simp only [hheaders, false_and, false_or, hcount, hone, and_false]
      have hnext (hext : frame.kind.IsExtension) :
          sectionCount (before ++ [frame]) = 0 ∧ bodyLength (before ++ [frame]) = 0 := by
        rw [sectionCount_concat, if_neg hheaders, bodyLength_concat,
          if_neg (ne_data_of_isExtension hext)]
        exact ⟨hcount, hzero⟩
      constructor
      · rintro ⟨⟨hext, -⟩, hrest⟩
        rw [ih (hnext hext).1 (hnext hext).2, happend] at hrest
        obtain ⟨⟨lead, head, body, trailing, rfl, hlead, hhead, hrest, hfits⟩, hend⟩ := hrest
        exact ⟨⟨frame :: lead, head, body, trailing, rfl, List.forall_mem_cons.mpr ⟨hext, hlead⟩,
          hhead, hrest, hfits⟩, hend⟩
      · rintro ⟨⟨_ | ⟨first, lead⟩, head, body, trailing, heq, hlead, hhead, hrest, hfits⟩, hend⟩
        · cases heq
          exact absurd hhead.1 hheaders
        · cases heq
          rw [List.forall_mem_cons] at hlead
          refine ⟨⟨hlead.1, fun hdata => absurd hdata (ne_data_of_isExtension hlead.1)⟩, ?_⟩
          rw [ih (hnext hlead.1).1 (hnext hlead.1).2, happend]
          exact ⟨⟨lead, head, body, trailing, rfl, hlead.2, hhead, hrest, hfits⟩, hend⟩

/-- The declared length is the head's, whatever stands before it. -/
theorem declaredLength_head {lead more : List (Frame FrameType)} {head : Frame FrameType}
    (hlead : ∀ frame ∈ lead, frame.kind.IsExtension) (hhead : head.kind = .headers) :
    declaredLength declared (lead ++ head :: more) = declared head.payload := by
  have hnone : lead.find? (·.kind = .headers) = none := by
    rw [List.find?_eq_none]
    intro frame hmem hkind
    exact ne_headers_of_isExtension (hlead frame hmem) (of_decide_eq_true hkind)
  simp [declaredLength, List.find?_append, hnone, hhead]

/-- The message may end after a whole frame, once it has begun and the body is complete. -/
theorem endViolation_eq_none {left : Bytes} {frames : List (Frame FrameType)} :
    endViolation declared frames left = none ↔
      left = [] ∧ (∀ frame ∈ frames, frame.Whole) ∧ sectionCount frames ≠ 0 ∧
        ∀ length, declaredLength declared frames = some length → length ≤ bodyLength frames := by
  unfold endViolation
  by_cases hcut : left ≠ [] ∨ ∃ frame ∈ frames, ¬ frame.Whole
  · rw [if_pos hcut]
    refine ⟨nofun, ?_⟩
    rintro ⟨hleft, hwhole, -⟩
    rcases hcut with hne | ⟨frame, hmem, hcut⟩
    · exact absurd hleft hne
    · exact absurd (hwhole frame hmem) hcut
  · have hwhole : left = [] ∧ ∀ frame ∈ frames, frame.Whole := by
      push Not at hcut
      exact hcut
    rw [if_neg hcut]
    simp only [hwhole.1, true_and]
    by_cases hcount : sectionCount frames = 0
    · simp [hcount]
    · cases declaredLength declared frames with
      | none => simpa [hcount] using hwhole.2
      | some length => simpa [hcount] using fun _ => hwhole.2

/-- **A stream breaks no rule when its frames are whole and follow the grammar.** -/
theorem firstViolation_eq_none {left : Bytes} {frames : List (Frame FrameType)} :
    firstViolation limit peer declared left [] frames = none ↔
      left = [] ∧ (∀ frame ∈ frames, frame.Whole) ∧ Grammatical limit declared frames := by
  rw [firstViolation_lead rfl rfl, List.nil_append, endViolation_eq_none]
  -- only the body adds to the length that the end of the stream is judged by
  have hbody : ∀ lead head body trailing, (∀ frame ∈ lead, frame.kind.IsExtension) →
      head.kind = .headers → Rest limit body trailing →
      bodyLength (lead ++ head :: (body ++ trailing)) = bodyLength body := by
    intro lead head body trailing hlead hhead hrest
    rw [List.append_cons, bodyLength_append, hrest.bodyLength_eq]
    have hzero : bodyLength (lead ++ [head]) = 0 := by
      rw [bodyLength_concat, hhead, if_neg (by decide),
        bodyLength_eq_zero fun frame hmem => ne_data_of_isExtension (hlead frame hmem)]
    rw [hzero, Nat.zero_add]
  constructor
  · rintro ⟨⟨lead, head, body, trailing, rfl, hlead, hhead, hrest, hfits⟩, hleft, hwhole, -, hend⟩
    rw [declaredLength_head hlead hhead.1, hbody lead head body trailing hlead hhead.1 hrest] at hend
    refine ⟨hleft, hwhole, lead, head, body, trailing, rfl, hlead, hhead, hrest, ?_⟩
    intro length hlength
    exact Nat.le_antisymm (hfits length hlength) (hend length hlength)
  · rintro ⟨hleft, hwhole, lead, head, body, trailing, rfl, hlead, hhead, hrest, hlength⟩
    rw [declaredLength_head hlead hhead.1, hbody lead head body trailing hlead hhead.1 hrest]
    refine ⟨⟨lead, head, body, trailing, rfl, hlead, hhead, hrest, ?_⟩, hleft, hwhole, ?_, ?_⟩
    · intro length hdeclared
      exact Nat.le_of_eq (hlength length hdeclared)
    · simp [sectionCount, hhead.1]
    · intro length hdeclared
      exact Nat.le_of_eq (hlength length hdeclared).symm

/-! ## Streams of complete frames -/

/-- Complete frames are those `framesOf` finds, with nothing left over. -/
theorem framed_iff {stream : Bytes} {frames : List (Frame FrameType)} :
    Framed stream frames ↔
      framesOf stream = (frames, []) ∧ ∀ frame ∈ frames, frame.Whole := by
  constructor
  · intro h
    induction h with
    | nil => exact ⟨framesOf_nil, by simp⟩
    | @cons type length payload rest kind frames htype hlength _ ih =>
      rw [framesOf_some (headerOf_append htype hlength (payload ++ rest)), List.take_left,
        List.drop_left, ih.1, List.forall_mem_cons]
      exact ⟨rfl, rfl, ih.2⟩
  · rintro ⟨hframes, hwhole⟩
    induction hlen : stream.length using Nat.strongRecOn generalizing stream frames with
    | ind n ih =>
      subst hlen
      match hheader : headerOf stream with
      | none =>
        rw [framesOf_none hheader] at hframes
        cases hframes
        exact .nil
      | some (kind, length, rest) =>
        have hlt := length_lt_of_headerOf hheader
        rw [framesOf_some hheader] at hframes
        obtain ⟨rfl, hleft⟩ := Prod.mk.inj hframes
        rw [List.forall_mem_cons] at hwhole
        have hrest := ih (rest.drop length).length (by rw [List.length_drop]; omega)
          (Prod.ext rfl hleft) hwhole.2 rfl
        have hpayload : (rest.take length).length = length := hwhole.1
        obtain ⟨type, length', rfl, htype, hlength⟩ := exists_of_headerOf hheader
        rw [← hpayload] at hlength
        have hcons := Framed.cons htype hlength hrest
        rwa [List.take_append_drop, hpayload] at hcons

/-! ## What a message accepts -/

/-- **The message grammar.** Whatever the chunks, a stream ends with the code of the first rule it
breaks, and it breaks none exactly when it is a sequence of complete frames of the form
`(extension)* HEADERS (DATA | extension)* [HEADERS (extension)*]`, each field section within the limit
and the body as long as the head declares. -/
theorem read_grammar (declared : Bytes → Option ℕ) (limit : ℕ) (peer : Role)
    (chunks : List Bytes) :
    let stream := chunks.flatten
    let outcome := ((new limit peer).read declared chunks).2
    outcome = verdict (firstViolation limit peer declared (framesOf (K := FrameType) stream).2 []
      (framesOf stream).1) ∧
    (outcome = .ok () ↔ ∃ frames, Framed stream frames ∧ Grammatical limit declared frames) := by
  have hwhole : ((new limit peer).read declared chunks).2 =
      ((new limit peer).drain declared chunks.flatten).state.bind finish := by
    have hone := (read_each declared (new limit peer) [chunks.flatten]).2.1
    rw [(read_each declared (new limit peer) chunks).2.1]
    simp only [List.flatten_cons, List.flatten_nil, List.append_nil] at hone
    rw [← hone]
    simp only [read, Chunked.feedAll, Chunked.Outcome.andThen_start]
  have hnew : Behind limit peer declared [] (new limit peer) := new_behind
  have hverdict := hwhole.trans (drain_verdict hnew rfl chunks.flatten)
  refine ⟨hverdict, ?_⟩
  have hok : ∀ code : Option Code, verdict code = .ok () ↔ code = none := by
    intro code
    cases code <;> simp [verdict]
  rw [hverdict, hok, firstViolation_eq_none]
  constructor
  · rintro ⟨hleft, hwhole, hgrammar⟩
    exact ⟨_, framed_iff.mpr ⟨Prod.ext rfl hleft, hwhole⟩, hgrammar⟩
  · rintro ⟨frames, hframed, hgrammar⟩
    obtain ⟨hframes, hwhole⟩ := framed_iff.mp hframed
    rw [hframes]
    exact ⟨rfl, hwhole, hgrammar⟩

end GraphiteMeter.Http3.Message
