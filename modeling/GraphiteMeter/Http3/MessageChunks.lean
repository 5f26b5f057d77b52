import GraphiteMeter.Http3.Message

/-!
# A message reads the same in any chunks

Events are compared through their tokens: a field section is one token, DATA is one token a byte, so
two lists of events with equal tokens have the same sections in the same order and the same bytes
between them. `drain_refines_cons` says what cutting a chunk after its first byte does; with
`Chunked.feedAll_refines_each` it gives `read_chunks`.

Only a declared content length makes chunkings differ: a payload piece over what is owed fails as a
whole, so a coarser chunking delivers a shorter prefix of the body before the same failure.
-/

namespace GraphiteMeter.Http3.Message

open Chunked

/-- What an event adds to the message: a field section, or bytes of the body. -/
inductive Token where
  | fields (event : Event)
  | byte (byte : UInt8)

def tokens : Event → List Token
  | .data bytes => bytes.map .byte
  | event => [.fields event]

/-- Bytes of the body are soft: a failing feed may not have delivered them. -/
def IsByte (t : Token) : Prop := ∃ b, t = .byte b

/-! ## What a payload piece does, by the kind of its frame -/

section Payload

variable (declared : Bytes → Option ℕ) {m : Message}

/-- A complete field section is handed on. -/
def sectionOutcome (m : Message) (fieldSection : Bytes) : Outcome Code Message Event :=
  ⟨[(m.fields fieldSection).1],
    .ok ((m.fields fieldSection).2.declare declared (m.fields fieldSection).1)⟩

/-- Without a declared length a body's bytes are told as they come. -/
theorem pieceOutcome_data_unbounded (hkind : m.kind = .data) (howed : m.owed = none)
    (bytes : Bytes) :
    m.pieceOutcome declared (.payload bytes) = ⟨[.data bytes], .ok m⟩ := by
  simp only [pieceOutcome, piece, payload, hkind, howed, if_true, declare]

/-- Under a declared length a body's bytes are told while they are owed. -/
theorem pieceOutcome_data_owed (hkind : m.kind = .data) {owed : ℕ} (howed : m.owed = some owed)
    (bytes : Bytes) :
    m.pieceOutcome declared (.payload bytes) =
      if bytes.length ≤ owed then
        ⟨[.data bytes], .ok { m with owed := some (owed - bytes.length) }⟩
      else ⟨[], .error .h3MessageError⟩ := by
  simp only [pieceOutcome, piece, payload, hkind, howed, if_true]
  split <;> rename_i h <;> split at h <;> cases h <;> simp_all [declare]

/-- The bytes of a field section collect until its frame ends. A section that is whole in one piece
takes the source's shorter path, with the same effect. -/
theorem pieceOutcome_headers (hkind : m.kind = .headers) (bytes : Bytes) :
    m.pieceOutcome declared (.payload bytes) =
      if 0 < m.frames.remaining then
        ⟨[], .ok { m with fieldSection := m.fieldSection ++ bytes }⟩
      else sectionOutcome declared { m with fieldSection := [] } (m.fieldSection ++ bytes) := by
  have hheaders : FrameType.headers ≠ .data := by decide
  obtain ⟨frames, phase, started, kind, fieldSection, limit, owed, response⟩ := m
  simp only at hkind
  subst hkind
  by_cases hrem : frames.remaining = 0
  · by_cases hnil : fieldSection = []
    · simp [pieceOutcome, piece, payload, hheaders, hrem, hnil, sectionOutcome]
    · simp [pieceOutcome, piece, payload, hheaders, hrem, hnil, sectionOutcome]
  · have hpos : 0 < frames.remaining := by omega
    simp [pieceOutcome, piece, payload, hheaders, hrem, hpos]

/-- The payload of any other frame tells nothing. -/
theorem pieceOutcome_other (hdata : m.kind ≠ .data) (hheaders : m.kind ≠ .headers)
    (bytes : Bytes) :
    m.pieceOutcome declared (.payload bytes) = ⟨[], .ok m⟩ := by
  simp only [pieceOutcome, piece, payload, hdata, hheaders, if_false, false_and]

variable {declared} in
/-- A payload leaves the frames that are being read. -/
theorem pieceOutcome_payload_frames {m' : Message} {bytes : Bytes}
    (h : (m.pieceOutcome declared (.payload bytes)).state = .ok m') : m'.frames = m.frames := by
  simp only [pieceOutcome, piece, payload, fields] at h
  grind [declare]

/-- **A payload cut after its first byte** gives the same tokens and state. Only when its bytes exceed
what is owed does the uncut one fail with fewer bytes delivered. -/
theorem pieceOutcome_payload_cons (m : Message) (header : Pair) (remaining : ℕ) (b : UInt8)
    (q : Bytes) (hq : q ≠ []) :
    Refines tokens IsByte
      (pieceOutcome declared { m with frames := ⟨header, remaining⟩ } (.payload (b :: q)))
      ((pieceOutcome declared { m with frames := ⟨header, remaining + q.length⟩ }
        (.payload [b])).andThen fun m' =>
          pieceOutcome declared { m' with frames := ⟨header, remaining⟩ } (.payload q)) := by
  have hlen : 0 < q.length := List.length_pos_iff.mpr hq
  by_cases hdata : m.kind = .data
  · obtain howed | ⟨owed, howed⟩ := Option.eq_none_or_eq_some m.owed
    · rw [pieceOutcome_data_unbounded declared (by exact hdata) (by exact howed),
        pieceOutcome_data_unbounded declared (by exact hdata) (by exact howed), Outcome.andThen_ok,
        pieceOutcome_data_unbounded declared (by exact hdata) (by exact howed)]
      exact .of_tokens_eq rfl (by simp [tokens])
    · rw [pieceOutcome_data_owed declared (by exact hdata) (by exact howed),
        pieceOutcome_data_owed declared (by exact hdata) (by exact howed)]
      by_cases hone : 1 ≤ owed
      · rw [if_pos (c := [b].length ≤ owed) hone, Outcome.andThen_ok,
          pieceOutcome_data_owed declared (by exact hdata) rfl]
        by_cases hall : q.length + 1 ≤ owed
        · rw [if_pos (c := (b :: q).length ≤ owed) hall,
            if_pos (show q.length ≤ owed - [b].length by simp only [List.length_singleton]; omega)]
          refine .of_tokens_eq ?_ (by simp [tokens])
          simp only [List.length_cons, List.length_nil, Nat.zero_add, Nat.sub_sub, Nat.add_comm]
        · -- the first byte is still owed, so only the cut payload delivers it
          rw [if_neg (c := (b :: q).length ≤ owed) hall,
            if_neg (show ¬ q.length ≤ owed - [b].length by
              simp only [List.length_singleton]; omega)]
          exact ⟨rfl, [.byte b], by simp [tokens], by simp [IsByte], fun s hs => nomatch hs⟩
      · rw [if_neg (c := [b].length ≤ owed) hone,
          if_neg (show ¬ (b :: q).length ≤ owed by simp only [List.length_cons]; omega)]
        exact .refl _
  · by_cases hheaders : m.kind = .headers
    · rw [pieceOutcome_headers declared (by exact hheaders),
        pieceOutcome_headers declared (by exact hheaders),
        if_pos (show 0 < remaining + q.length by omega), Outcome.andThen_ok,
        pieceOutcome_headers declared (by exact hheaders)]
      simp only [List.append_assoc, List.singleton_append, List.nil_append]
      exact .refl _
    · rw [pieceOutcome_other declared (by exact hdata) (by exact hheaders),
        pieceOutcome_other declared (by exact hdata) (by exact hheaders), Outcome.andThen_ok,
        pieceOutcome_other declared (by exact hdata) (by exact hheaders)]
      exact .refl _

end Payload

/-! ## What a chunk does -/

/-- **A chunk cut after its first byte** drains to the same tokens and state. -/
theorem drain_refines_cons (declared : Bytes → Option ℕ) (m : Message) (b : UInt8) (rest : Bytes) :
    Refines tokens IsByte (m.drain declared (b :: rest))
      ((m.drain declared [b]).andThen fun m' => m'.drain declared rest) := by
  by_cases hrem : m.frames.remaining = 0
  · -- header bytes: the reader goes on where it stopped
    rw [drain_eq declared m (b :: rest), drain_eq declared m [b], Reader.next_cons_header hrem]
    match hone : m.frames.next [b] with
    | (none, frames, _) =>
      simp only [Outcome.start_andThen]
      rw [drain_eq declared { m with frames } rest]
      exact .refl _
    | (some piece, frames, left) =>
      have hleft : left = [] := by
        have hlt := Reader.length_lt_of_next hone
        exact List.length_eq_zero_iff.mp (by simpa using hlt)
      subst hleft
      simp only [drain_nil, Outcome.andThen_start]
      exact .refl _
  · match rest with
    | [] =>
      simp only [drain_nil, Outcome.andThen_start]
      exact .refl _
    | c :: rest =>
      obtain ⟨header, remaining, hframes⟩ :
          ∃ header remaining, m.frames = ⟨header, remaining⟩ := ⟨_, _, rfl⟩
      rw [hframes] at hrem
      simp only at hrem
      rw [drain_eq declared m (b :: c :: rest), drain_eq declared m [b], hframes,
        Reader.next_payload hrem, Reader.next_payload hrem]
      simp only [drain_nil, Outcome.andThen_start, List.take_nil, List.drop_nil, List.length_nil,
        Nat.sub_zero]
      by_cases hlast : remaining = 1
      · -- the payload ends with `b`
        subst hlast
        simp only [Nat.sub_self, Nat.zero_sub, List.take_zero, List.drop_zero]
        exact .refl _
      · have hinner : remaining - 1 ≠ 0 := by omega
        have hsecond : ∀ m' : Message, m'.frames = ⟨header, remaining - 1⟩ →
            m'.drain declared (c :: rest) =
              (pieceOutcome declared
                { m' with frames := ⟨header, remaining - 1 - 1 - rest.length⟩ }
                (.payload (c :: rest.take (remaining - 1 - 1)))).andThen
                  fun m'' => m''.drain declared (rest.drop (remaining - 1 - 1)) := by
          intro m' hm'
          rw [drain_eq, hm', Reader.next_payload hinner]
        rw [Outcome.andThen_congr (g := fun m' => (pieceOutcome declared
            { m' with frames := ⟨header, remaining - 1 - 1 - rest.length⟩ }
            (.payload (c :: rest.take (remaining - 1 - 1)))).andThen
              fun m'' => m''.drain declared (rest.drop (remaining - 1 - 1)))
          (fun m' hm' => hsecond m' (pieceOutcome_payload_frames hm')),
          ← Outcome.andThen_assoc]
        obtain ⟨n, rfl⟩ : ∃ n, remaining = n + 1 + 1 := ⟨remaining - 2, by omega⟩
        simp only [Nat.add_sub_cancel, List.take_succ_cons, List.drop_succ_cons, List.length_cons]
        refine .andThen ?_ fun _ => .refl _
        have hsplit := pieceOutcome_payload_cons declared m header (n - rest.length) b
          (c :: rest.take n) (List.cons_ne_nil _ _)
        have hcount : n - rest.length + (c :: rest.take n).length = n + 1 := by
          rw [List.length_cons, List.length_take]
          omega
        rw [hcount] at hsplit
        rw [show n + 1 - (rest.length + 1) = n - rest.length by omega]
        exact hsplit

/-! ## Sections and bodies -/

/-- The field sections among the events, in order. -/
def sections (events : List Event) : List Event :=
  events.filter fun
    | .data _ => false
    | _ => true

/-- The body bytes before, between and after the field sections, each run concatenated. -/
def bodies : List Event → List Bytes
  | [] => [[]]
  | .data bytes :: events => (bodies events).modifyHead (bytes ++ ·)
  | _ :: events => [] :: bodies events

/-- `sections`, read off the tokens. -/
def tokenSections (ts : List Token) : List Event :=
  ts.filterMap fun
    | .fields event => some event
    | .byte _ => none

/-- `bodies`, read off the tokens. -/
def tokenBodies : List Token → List Bytes
  | [] => [[]]
  | .byte b :: ts => (tokenBodies ts).modifyHead (b :: ·)
  | .fields _ :: ts => [] :: tokenBodies ts

/-- The sections told are those of the tokens. -/
theorem sections_eq (events : List Event) :
    sections events = tokenSections (events.flatMap tokens) := by
  have hbytes : ∀ bytes : Bytes, tokenSections (bytes.map .byte) = [] := by
    intro bytes
    simp [tokenSections, List.filterMap_map]
  induction events with
  | nil => rfl
  | cons event events ih =>
    rw [List.flatMap_cons, tokenSections, List.filterMap_append, ← tokenSections, ← tokenSections,
      ← ih]
    cases event with
    | data bytes => simp [sections, tokens, hbytes]
    | head fields => simp [sections, tokens, tokenSections]
    | trailers fields => simp [sections, tokens, tokenSections]

/-- The body told is that of the tokens. -/
theorem bodies_eq (events : List Event) : bodies events = tokenBodies (events.flatMap tokens) := by
  have hbytes : ∀ (bytes : Bytes) (ts : List Token),
      tokenBodies (bytes.map .byte ++ ts) = (tokenBodies ts).modifyHead (bytes ++ ·) := by
    intro bytes ts
    induction bytes with
    | nil => exact (congrFun List.modifyHead_id _).symm
    | cons b bytes ih =>
      simp only [List.map_cons, List.cons_append, tokenBodies, ih, List.modifyHead_modifyHead,
        Function.comp_def]
  induction events with
  | nil => rfl
  | cons event events ih =>
    rw [List.flatMap_cons]
    cases event with
    | data bytes => rw [bodies, ih, tokens, hbytes]
    | head fields => simp [bodies, ih, tokens, tokenBodies]
    | trailers fields => simp [bodies, ih, tokens, tokenBodies]

/-- A body's bytes add no section. -/
theorem tokenSections_append_bytes (ts extra : List Token) (h : ∀ t ∈ extra, IsByte t) :
    tokenSections (ts ++ extra) = tokenSections ts := by
  have hextra : tokenSections extra = [] := by
    rw [tokenSections, List.filterMap_eq_nil_iff]
    intro t ht
    obtain ⟨b, rfl⟩ := h t ht
    rfl
  rw [tokenSections, List.filterMap_append, ← tokenSections, ← tokenSections, hextra,
    List.append_nil]

/-- Further bytes only lengthen the last run. -/
theorem tokenBodies_append_bytes (ts extra : List Token) (h : ∀ t ∈ extra, IsByte t) :
    ∃ before last more, tokenBodies ts = before ++ [last] ∧
      tokenBodies (ts ++ extra) = before ++ [last ++ more] := by
  induction ts with
  | nil =>
    suffices hextra : ∃ more, tokenBodies extra = [more] by
      obtain ⟨more, hmore⟩ := hextra
      exact ⟨[], [], more, rfl, hmore⟩
    induction extra with
    | nil => exact ⟨[], rfl⟩
    | cons t extra ih =>
      obtain ⟨b, rfl⟩ := h t (by simp)
      obtain ⟨more, hmore⟩ := ih fun t' ht' => h t' (by simp [ht'])
      exact ⟨b :: more, by rw [tokenBodies, hmore]; rfl⟩
  | cons t ts ih =>
    obtain ⟨before, last, more, hts, happ⟩ := ih
    rw [List.cons_append]
    cases t with
    | fields event =>
      exact ⟨[] :: before, last, more, by rw [tokenBodies, hts]; rfl, by rw [tokenBodies, happ]; rfl⟩
    | byte b =>
      simp only [tokenBodies, hts, happ]
      cases before with
      | nil => exact ⟨[], b :: last, more, rfl, rfl⟩
      | cons run before => exact ⟨(b :: run) :: before, last, more, rfl, rfl⟩

/-- What one chunking has in common with the reading byte by byte. -/
theorem read_each (declared : Bytes → Option ℕ) (m : Message) (chunks : List Bytes) :
    let split := m.read declared chunks
    let each := m.read declared (chunks.flatten.map ([·]))
    sections split.1 = sections each.1 ∧ split.2 = each.2 ∧
      (split.2 = .ok () → bodies split.1 = bodies each.1) ∧
      ∃ before last more, bodies split.1 = before ++ [last] ∧
        bodies each.1 = before ++ [last ++ more] := by
  obtain ⟨hstate, extra, htokens, hsoft, hok⟩ :=
    feedAll_refines_each (drain_nil declared) (drain_refines_cons declared) m chunks
  simp only [read, sections_eq, bodies_eq]
  rw [← feedEach, htokens]
  refine ⟨(tokenSections_append_bytes _ _ hsoft).symm, by rw [hstate], ?_,
    tokenBodies_append_bytes _ _ hsoft⟩
  intro hfinish
  have hnil : extra = [] := by
    cases hs : (feedAll (drain declared) m chunks).state with
    | error code =>
      rw [hs] at hfinish
      cases hfinish
    | ok m' => exact hok m' hs
  rw [hnil, List.append_nil]

/-- **A request stream reads the same in any chunks.** Two chunkings of one byte sequence give the
same field sections in the same order, the same end and, on success, the same bytes between the
sections; on a failure the runs before the last section agree, and the last runs are prefixes of one
body. -/
theorem read_chunks (declared : Bytes → Option ℕ) (limit : ℕ) (peer : Role)
    (chunks : List Bytes) :
    let split := (new limit peer).read declared chunks
    let whole := (new limit peer).read declared [chunks.flatten]
    sections split.1 = sections whole.1 ∧ split.2 = whole.2 ∧
      (split.2 = .ok () → bodies split.1 = bodies whole.1) ∧
      ∀ code, split.2 = .error code →
        ∃ before last last' body, bodies split.1 = before ++ [last] ∧
          bodies whole.1 = before ++ [last'] ∧ last <+: body ∧ last' <+: body := by
  obtain ⟨hsec, hend, hok, before, last, more, hsplit, heach⟩ :=
    read_each declared (new limit peer) chunks
  obtain ⟨hsec', hend', hok', before', last', more', hwhole, heach'⟩ :=
    read_each declared (new limit peer) [chunks.flatten]
  have hflat : [chunks.flatten].flatten = chunks.flatten := by simp
  rw [hflat] at hsec' hend' heach'
  refine ⟨hsec.trans hsec'.symm, hend.trans hend'.symm, ?_, ?_⟩
  · intro h
    rw [hok h, hok' (hend'.trans (hend.symm.trans h)), hflat]
  · intro code _
    obtain ⟨rfl, hlast⟩ := List.append_inj' (heach.symm.trans heach') rfl
    refine ⟨before, last, last', last ++ more, hsplit, hwhole, List.prefix_append _ _, ?_⟩
    rw [List.singleton_inj.mp hlast]
    exact List.prefix_append _ _

end GraphiteMeter.Http3.Message
