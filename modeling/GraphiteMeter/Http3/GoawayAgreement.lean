import GraphiteMeter.Http3.ControlRules
import GraphiteMeter.Http3.Driver

/-!
# Both ends of GOAWAY

A server's driver writes its control stream, a client's `ControlReader` reads it. `read_settings` and
`read_goaway` are what the reader makes of one frame the driver writes, `read_goaways` of all of
them, and `goaway_agreement` puts them behind any run of the driver: the client takes every
identifier, in whatever chunks and as far as the stream got, and the last of them is the line
between the requests that were handed out and those that were not.

Reference: `rust/http3/src/driver.rs` (`Driver`, `ControlReader`, `Shared::control`).
-/

namespace GraphiteMeter.Http3

open Chunked

/-- RFC 9297 §2.1.1: `H3_DATAGRAM` without the transport parameter is `H3_SETTINGS_ERROR`. -/
def Settings.Peer.check (peer : Settings.Peer) (datagramFrames : Bool) : Except Code Unit :=
  if peer.h3Datagram && !datagramFrames then .error .h3SettingsError else .ok ()

/-- What a connection does with an event of the peer's control stream. -/
def control (datagramFrames : Bool) : ControlEvent → Except Code Unit
  | .settings peer => peer.check datagramFrames
  | .goaway => .ok ()

namespace ControlReader

variable {event : ControlEvent → Except Code Unit}

/-! ## One frame -/

/-- The header of a frame, from between two frames. -/
theorem read_header {peer : Role} {c : ControlReader} (hframes : c.frames = .empty) {kind length : ℕ}
    (hkind : kind ≤ Varint.max) (hlength : length ≤ Varint.max) (rest : Bytes) :
    read event peer c (Varint.put kind ++ Varint.put length ++ rest) =
      (piece event peer { c with frames := ⟨.empty, length⟩ } (.header ⟨kind⟩ length)).andThen
        fun c' => read event peer c' rest := by
  have hheader := headerOf_put hkind hlength rest
  obtain ⟨kind', length', rest', hheader', hnext⟩ | ⟨hnone, -⟩ := Reader.next_empty
    (K := FrameType) (Varint.put kind ++ Varint.put length ++ rest)
  · rw [hheader] at hheader'
    cases hheader'
    rw [read_eq, hframes, hnext]
    rfl
  · rw [hheader] at hnone
    cases hnone

/-- The payload of a frame that the stream holds as a whole. -/
theorem read_payload (event : ControlEvent → Except Code Unit) (peer : Role) (c : ControlReader)
    {payload : Bytes} (hne : payload ≠ [])
    (rest : Bytes) :
    read event peer { c with frames := ⟨.empty, payload.length⟩ } (payload ++ rest) =
      (piece event peer { c with frames := .empty } (.payload payload)).andThen
        fun c' => read event peer c' rest := by
  have hlength : payload.length ≠ 0 := mt List.length_eq_zero_iff.mp hne
  obtain ⟨hnil, -⟩ | ⟨-, hopened⟩ := read_opened event peer c hlength (payload ++ rest)
  · exact absurd (List.append_eq_nil_iff.mp hnil).1 hne
  · rw [hopened, List.take_left, List.drop_left, List.length_append, Nat.sub_eq_zero_of_le (by omega)]
    rfl

/-- A reader between two frames behind SETTINGS: the last frame's kind, and the last GOAWAY. -/
def between (kind : FrameType) (goaway : Option ℕ) : ControlReader :=
  ⟨.empty, none, true, kind, .empty, goaway⟩

/-- **SETTINGS** that are acceptable are taken, and told. -/
theorem read_settings (peer : Role) {settings : List (ℕ × ℕ)} (hacceptable : Settings.Acceptable settings)
    (hfits : ∀ pair ∈ settings, pair.1 ≤ Varint.max ∧ pair.2 ≤ Varint.max) (hne : settings ≠ [])
    (hevent : event (.settings (Settings.peerOf settings)) = .ok ()) (rest : Bytes) :
    read event peer empty (putHeader FrameType.settings (Settings.encode settings).length ++
        Settings.encode settings ++ rest) =
      (⟨[.settings (Settings.peerOf settings)], .ok (between .data none)⟩ : Outcome _ _ _).andThen
        fun c => read event peer c rest := by
  have hpairs := Settings.pairsOf_encode hfits
  -- the payload is far below the bound of a settings reader
  have hshort : (Settings.encode settings).length ≤ Settings.maxLength := by
    have hend : (Settings.pairsOf (Settings.encode settings)).2 = [] := by rw [hpairs]
    have hle := Settings.length_le_of_pairsOf hend
    have hfew := hacceptable.few
    rw [hpairs] at hle
    unfold Settings.maxIds at hfew
    unfold Settings.maxLength
    dsimp only at hle
    omega
  have hpayload : Settings.encode settings ≠ [] := by
    intro hnil
    rw [hnil, Settings.pairsOf_none rfl] at hpairs
    cases hpairs
    exact hne rfl
  obtain ⟨length, hlength⟩ : ∃ length, (Settings.encode settings).length = length + 1 :=
    ⟨_, (Nat.succ_pred_eq_of_pos (List.length_pos_iff.mpr hpayload)).symm⟩
  have hopen : Settings.Reader.read ⟨.empty, (Settings.encode settings).length, [], .empty⟩ [] =
      .ok (none, ⟨.empty, (Settings.encode settings).length, [], .empty⟩) := by
    simp only [Settings.Reader.read, Settings.Reader.drainPairs_nil, List.length_nil, Nat.sub_zero,
      hlength]
  have hgood : Settings.Acceptable (Settings.pairsOf (Settings.encode settings)).1 := by
    rw [hpairs]
    exact hacceptable
  obtain ⟨r, hread⟩ := Settings.read_whole hgood (by rw [hpairs])
  rw [hpairs] at hread
  have hmax : Settings.maxLength ≤ Varint.max := by decide
  rw [List.append_assoc, putHeader, read_header rfl (by decide) (by omega)]
  -- the header opens the settings reader, which then takes the payload
  have hfirst : piece event peer
      { empty with frames := ⟨.empty, (Settings.encode settings).length⟩ }
      (.header ⟨Kind.wire FrameType.settings⟩ (Settings.encode settings).length) =
        ⟨[], .ok { empty with
          frames := ⟨.empty, (Settings.encode settings).length⟩, started := true,
          settings := some ⟨.empty, (Settings.encode settings).length, [], .empty⟩ }⟩ := by
    have hkind : ¬ (⟨Kind.wire FrameType.settings⟩ : FrameType) ≠ .settings := not_not.mpr rfl
    simp only [piece, empty, Bool.false_eq_true, if_false, first, if_neg hkind,
      Settings.Reader.new, if_neg (Nat.not_lt.mpr hshort), hopen, settled]
  rw [hfirst, Outcome.andThen_ok, List.nil_append]
  have htold : piece event peer { empty with
      frames := .empty, started := true,
      settings := some ⟨.empty, (Settings.encode settings).length, [], .empty⟩ }
      (.payload (Settings.encode settings)) =
        ⟨[.settings (Settings.peerOf settings)], .ok (between .data none)⟩ := by
    simp only [piece, hread, settled, emit, hevent]
    rfl
  have hwhole := read_payload event peer { empty with
    started := true,
    settings := some ⟨.empty, (Settings.encode settings).length, [], .empty⟩ } hpayload rest
  rw [htold] at hwhole
  exact hwhole

/-- The client admits a goodbye of a whole identifier. -/
theorem header_goaway (c : ControlReader) {length : ℕ} (hpos : 0 < length) (hle : length ≤ 8) :
    c.header .goaway length .server = .ok { c with kind := .goaway } := by
  unfold header
  rw [if_neg (by decide), if_neg (by decide), if_neg (fun h => h.2 ⟨hpos, hle⟩), if_neg (by decide),
    if_neg (by decide), if_neg (by decide)]

/-- An integer's own bytes are read to their end. -/
theorem read_put {value : ℕ} (h : value ≤ Varint.max) :
    Varint.Partial.empty.read (Varint.put value) = (some value, .empty, []) := by
  have hput := Varint.decode_put h
  obtain ⟨value', used, hdecode, hread⟩ | ⟨hnone, -⟩ :=
    Varint.Partial.empty.read_eq (Varint.put value)
  · have hdecode' : Varint.decode (Varint.put value) = some (value', used) := hdecode
    rw [hput] at hdecode'
    cases hdecode'
    rw [hread]
    show (some value, Varint.Partial.empty, (Varint.put value).drop (Varint.put value).length) = _
    rw [List.drop_length]
  · have hnone' : Varint.decode (Varint.put value) = none := hnone
    rw [hput] at hnone'
    cases hnone'

/-- The identifier of a GOAWAY is taken where it may be named and is none above the last. -/
theorem readValue_goaway {last : Option ℕ} {id : ℕ} (hid : Driver.Nameable id)
    (hfalls : ∀ g ∈ last, id ≤ g) :
    (between .goaway last).readValue (Varint.put id) .server =
      .ok (some id, between .goaway (some id)) := by
  have hmax : id ≤ Varint.max := Nat.le_trans hid.2 (Nat.sub_le _ _)
  have htaken : ¬ (id % 4 ≠ 0 ∨ last.any (· < id) = true) := by
    rintro (hfour | habove)
    · exact hfour hid.1
    · obtain ⟨g, hg, hlt⟩ := (Option.any_eq_true _ _).mp habove
      have hle := hfalls g hg
      have hlt' : g < id := of_decide_eq_true hlt
      omega
  have hone : ¬ FrameType.goaway ∉ oneVarint := by decide
  unfold readValue between
  rw [if_neg hone]
  simp only [read_put hmax, Option.isSome_some, Reader.empty, decide_true, ne_eq,
    not_true_eq_false, or_self, if_false, Option.filter_some, and_self, if_true, takeGoaway]
  rw [if_neg htaken]

/-- **A GOAWAY** that names a request, and none above the last, is taken and told. -/
theorem read_goaway (hgoaway : event .goaway = .ok ()) (kind : FrameType) {last : Option ℕ} {id : ℕ}
    (hid : Driver.Nameable id) (hfalls : ∀ g ∈ last, id ≤ g) (rest : Bytes) :
    read event .server (between kind last) (goawayFrame id ++ rest) =
      (⟨[.goaway], .ok (between .goaway (some id))⟩ : Outcome _ _ _).andThen fun c =>
        read event .server c rest := by
  have hlength := Varint.length_put (Nat.le_trans hid.2 (Nat.sub_le _ _))
  have hpos := Varint.len_pos id
  have hle := Varint.len_le id
  have hpayload : Varint.put id ≠ [] := by
    intro hnil
    rw [hnil, List.length_nil] at hlength
    omega
  have hsmall : Varint.len id ≤ Varint.max := Nat.le_trans hle (by decide)
  unfold goawayFrame putHeader
  rw [List.append_assoc, read_header rfl (by decide) hsmall]
  have hheader : piece event .server { between kind last with frames := ⟨.empty, Varint.len id⟩ }
      (.header ⟨Kind.wire FrameType.goaway⟩ (Varint.len id)) =
        ⟨[], .ok { between .goaway last with frames := ⟨.empty, Varint.len id⟩ }⟩ :=
    congrArg (Outcome.mk []) (header_goaway _ hpos hle)
  rw [hheader, Outcome.andThen_ok, List.nil_append, ← hlength]
  have htold : piece event .server { between .goaway last with frames := .empty }
      (.payload (Varint.put id)) = ⟨[.goaway], .ok (between .goaway (some id))⟩ := by
    have hvalue : ({ between .goaway last with frames := .empty } : ControlReader).readValue
        (Varint.put id) .server = _ := readValue_goaway hid hfalls
    rw [piece_of_none rfl, hvalue]
    simp only [emit, hgoaway]
    rfl
  have hwhole := read_payload event .server (between .goaway last) hpayload rest
  dsimp only at hwhole htold ⊢
  rw [htold] at hwhole
  exact hwhole

/-! ## The stream -/

/-- **All the GOAWAY frames of a driver**, whose identifiers may be named and fall. -/
theorem read_goaways (hgoaway : event .goaway = .ok ()) (kind : FrameType) (last : Option ℕ)
    {ids : List ℕ} (hids : ∀ id ∈ ids, Driver.Nameable id) (hfalls : ids.Pairwise (· ≥ ·))
    (hlast : ∀ g ∈ last, ∀ id ∈ ids, id ≤ g) :
    ∃ c, read event .server (between kind last) (ids.flatMap goawayFrame) =
      ⟨List.replicate ids.length .goaway, .ok c⟩ := by
  induction ids generalizing kind last with
  | nil => exact ⟨_, read_nil _ _ _⟩
  | cons id ids ih =>
    obtain ⟨hbelow, hfalls⟩ := List.pairwise_cons.mp hfalls
    have hstep := read_goaway hgoaway kind (hids id List.mem_cons_self)
      (fun g hg => hlast g hg id List.mem_cons_self) (ids.flatMap goawayFrame)
    obtain ⟨c, hrest⟩ := ih .goaway (some id)
      (fun id' hmem => hids id' (List.mem_cons_of_mem _ hmem)) hfalls (by
        rintro _ ⟨⟩ id' hmem
        exact hbelow id' hmem)
    refine ⟨c, ?_⟩
    rw [List.flatMap_cons, hstep, Outcome.andThen_ok, hrest, List.length_cons,
      List.replicate_succ]
    rfl

/-- The identifiers in the frames are those that were put there. -/
theorem goawayIds_flatMap {ids : List ℕ} (hids : ∀ id ∈ ids, Driver.Nameable id) :
    goawayIds .server (framesOf (ids.flatMap goawayFrame)).1 = ids := by
  induction ids with
  | nil =>
    rw [List.flatMap_nil, framesOf_nil]
    rfl
  | cons id ids ih =>
    have hmax : id ≤ Varint.max := Nat.le_trans (hids id List.mem_cons_self).2 (Nat.sub_le _ _)
    have hlen := Varint.length_put hmax
    have hsmall : Varint.len id ≤ Varint.max := Nat.le_trans (Varint.len_le id) (by decide)
    have hheader : headerOf ((id :: ids).flatMap goawayFrame) =
        some (Kind.wire FrameType.goaway, Varint.len id,
          Varint.put id ++ ids.flatMap goawayFrame) := by
      rw [List.flatMap_cons, goawayFrame, List.append_assoc]
      exact headerOf_put (by decide) hsmall _
    rw [framesOf_some hheader, ← hlen, List.take_left, List.drop_left]
    have hid : goawayId .server
        ⟨Kind.fromWire (Kind.wire FrameType.goaway), (Varint.put id).length, Varint.put id⟩ =
          some id := by
      rw [goawayId, if_pos ⟨rfl, rfl, rfl⟩]
      simp only [Varint.decode_put hmax, Option.map_some]
    rw [goawayIds, List.filterMap_cons, hid, ← goawayIds,
      ih fun id' hmem => hids id' (List.mem_cons_of_mem _ hmem)]

/-- What stands behind the first frame does not change with it. -/
theorem framesOf_frame {kind : FrameType} {payload : Bytes} (hkind : kind.code ≤ Varint.max)
    (hlength : payload.length ≤ Varint.max) (rest : Bytes) :
    (framesOf (K := FrameType) (putHeader kind payload.length ++ payload ++ rest)).1 =
      ⟨kind, payload.length, payload⟩ :: (framesOf rest).1 := by
  have hheader : headerOf (putHeader kind payload.length ++ payload ++ rest) =
      some (kind.code, payload.length, payload ++ rest) := by
    rw [List.append_assoc]
    exact headerOf_put hkind hlength _
  rw [framesOf_some hheader, List.take_left, List.drop_left]
  rfl

/-- A stream that is taken is taken as far as it got. -/
theorem readAll_ok_of_append {peer : Role} {chunks more : List Bytes}
    (h : (readAll event peer (chunks ++ more)).2 = .ok ()) :
    (readAll event peer chunks).2 = .ok () := by
  unfold readAll at h ⊢
  dsimp only at h ⊢
  rw [feedAll_append] at h
  match hstate : (feedAll (read event peer) empty chunks).state with
  | .error code =>
    rw [Outcome.andThen_state_error hstate] at h
    cases h
  | .ok c => rfl

end ControlReader

open ControlReader

/-- A driver's control stream behind its type: SETTINGS, then the GOAWAY frames. -/
def controlFrames (ids : List ℕ) : Bytes :=
  putHeader FrameType.settings (Settings.encode Settings.server).length ++
    Settings.encode Settings.server ++ ids.flatMap goawayFrame

/-- What the driver writes are the type and the frames. -/
theorem controlFrames_eq (ids : List ℕ) :
    Settings.controlStream Settings.server ++ ids.flatMap goawayFrame =
      Varint.put StreamType.control.code ++ controlFrames ids := by
  have hlength := Settings.length_encode Settings.server_fits
  rw [Settings.controlStream, hlength, controlFrames, List.append_assoc, List.append_assoc]

/-- The goodbyes of the frames are those that were written. -/
theorem goawayIds_controlFrames {ids : List ℕ} (hids : ∀ id ∈ ids, Driver.Nameable id) :
    goawayIds .server (framesOf (controlFrames ids)).1 = ids := by
  have hshort : (Settings.encode Settings.server).length ≤ Varint.max := by
    rw [← Settings.length_encode Settings.server_fits]
    decide
  rw [controlFrames, framesOf_frame (by decide) hshort, goawayIds, List.filterMap_cons,
    goawayId_eq_none (fun h => absurd h.1 (by decide)), ← goawayIds, goawayIds_flatMap hids]

/-- **What a client makes of a driver's control stream**: SETTINGS, then every GOAWAY. -/
theorem readAll_announced {event : ControlEvent → Except Code Unit}
    (hsettings : event (.settings (Settings.peerOf Settings.server)) = .ok ())
    (hgoaway : event .goaway = .ok ()) {ids : List ℕ} (hids : ∀ id ∈ ids, Driver.Nameable id)
    (hfalls : ids.Pairwise (· ≥ ·)) {chunks : List Bytes}
    (hchunks : chunks.flatten = controlFrames ids) :
    readAll event .server chunks =
      (.settings (Settings.peerOf Settings.server) :: List.replicate ids.length .goaway, .ok ()) := by
  obtain ⟨c, hrest⟩ := read_goaways hgoaway .data none hids hfalls nofun
  have hfirst := read_settings .server Settings.server_acceptable Settings.server_fits (by decide)
    hsettings (ids.flatMap goawayFrame)
  rw [Outcome.andThen_ok, hrest] at hfirst
  rw [readAll_eq, hchunks, controlFrames, hfirst]
  rfl

/-- **Both ends agree on GOAWAY.** In every run of a server's driver, the identifiers on its control
stream are multiples of 4 that never rise, and a client's reader takes them all: of the same bytes, in
any chunks, it tells SETTINGS and each GOAWAY, and of what the stream got so far it refuses nothing. The
final GOAWAY names the line: every request that was handed out, before or after it, stands below, and
every stream that arrived below was handed out unless the budget refused it. -/
theorem goaway_agreement {event : ControlEvent → Except Code Unit}
    (hsettings : event (.settings (Settings.peerOf Settings.server)) = .ok ())
    (hgoaway : event .goaway = .ok ()) {steps : List Driver.Step} {d : Driver}
    {log : List Driver.Arrival} (hrun : Driver.run .new steps = some (d, log)) :
    ∃ body, d.control.bytes = Varint.put StreamType.control.code ++ body ∧
      (∀ id ∈ goawayIds .server (framesOf body).1, id % 4 = 0) ∧
      (goawayIds .server (framesOf body).1).Pairwise (· ≥ ·) ∧
      (∀ chunks : List Bytes, chunks.flatten = body →
        readAll event .server chunks =
          (.settings (Settings.peerOf Settings.server) ::
            List.replicate (goawayIds .server (framesOf body).1).length .goaway, .ok ())) ∧
      (∀ chunks : List Bytes, chunks.flatten <+: body →
        (readAll event .server chunks).2 = .ok ()) ∧
      ∀ g, d.goaway = some g →
        (goawayIds .server (framesOf body).1).getLast? = some g ∧
        (∀ a ∈ log, a.handed = true → a.id < g) ∧
        ∀ a ∈ log, a.id < g → a.charged = true → a.handed = true := by
  have hagreed := Driver.agreed_of_run hrun
  obtain ⟨retired, hwrote⟩ := hagreed.wrote
  obtain ⟨hnameable, hfalls⟩ := hagreed.announced_falls retired
  -- the identifiers in the frames are those announced
  have hids := goawayIds_controlFrames hnameable
  refine ⟨controlFrames (Driver.announced retired d.goaway), ?_, ?_, ?_, ?_, ?_, ?_⟩
  · rw [hwrote, controlFrames_eq]
  · rw [hids]
    exact fun id hmem => (hnameable id hmem).1
  · rw [hids]
    exact hfalls
  · intro chunks hchunks
    rw [hids]
    exact readAll_announced hsettings hgoaway hnameable hfalls hchunks
  · rintro chunks ⟨rest, hrest⟩
    have hflat : (chunks ++ [rest]).flatten = chunks.flatten ++ rest := by
      rw [List.flatten_append, List.flatten_singleton]
    have hwhole := readAll_announced hsettings hgoaway hnameable hfalls (hflat.trans hrest)
    exact readAll_ok_of_append (congrArg Prod.snd hwhole)
  · intro g hg
    rw [hids]
    refine ⟨?_, ?_, ?_⟩
    · rw [Driver.announced, hg, Option.toList_some, List.getLast?_concat]
    · intro a hmem hhanded
      rw [hagreed.behind g hg a hmem, Bool.and_eq_true] at hhanded
      exact of_decide_eq_true hhanded.2
    · intro a hmem hbelow hcharged
      rw [hagreed.behind g hg a hmem, hcharged, decide_eq_true hbelow]
      rfl

/-- Requests 8 and 0 arrive around a GOAWAY that refuses nothing, then the final one names 12: request
12 is refused, and request 4, which comes late, is handed out. -/
def lateArrival : List Driver.Step :=
  [.admitStream ⟨8, rfl, by decide⟩ true, .retire, .admitStream ⟨0, rfl, by decide⟩ true,
    .poll [9, 100], .goAway, .admitStream ⟨12, rfl, by decide⟩ true,
    .admitStream ⟨4, rfl, by decide⟩ true]

/-- Behind an announced 12 the request 12 is refused, and the late request 4 is served. -/
theorem goaway_agreement_late :
    ∃ d, Driver.run .new lateArrival = some (d, [⟨8, true, true⟩, ⟨0, true, true⟩,
        ⟨12, true, false⟩, ⟨4, true, true⟩]) ∧ d.goaway = some 12 ∧
      ∃ body, d.control.bytes = Varint.put StreamType.control.code ++ body ∧
        (goawayIds .server (framesOf body).1).getLast? = some 12 ∧
        (readAll (control true) .server [body]).2 = .ok () := by
  obtain ⟨d, hd⟩ : ∃ d, Driver.run .new lateArrival = some (d, [⟨8, true, true⟩, ⟨0, true, true⟩,
      ⟨12, true, false⟩, ⟨4, true, true⟩]) ∧ d.goaway = some 12 := by
    refine ⟨_, rfl, ?_⟩
    decide +kernel
  have hsettings : control true (.settings (Settings.peerOf Settings.server)) = .ok () := by decide
  have hgoaway : control true .goaway = .ok () := rfl
  obtain ⟨body, hbytes, -, -, -, hprefix, hfinal⟩ :=
    goaway_agreement hsettings hgoaway hd.1
  exact ⟨d, hd.1, hd.2, body, hbytes, (hfinal 12 hd.2).1,
    hprefix [body] ⟨[], by rw [List.append_nil, List.flatten_singleton]⟩⟩

end GraphiteMeter.Http3
