import GraphiteMeter.Http3.Message
import GraphiteMeter.Http3.RequestAdmission
import Mathlib.Algebra.Order.BigOperators.Group.List
import Mathlib.Algebra.Order.Group.Nat

/-!
# What the encoder writes, the decoder has room for

Reference: `rust/http3/src/fields.rs` (`encode`, `Fields::count`), `rust/http3/src/qpack/mod.rs`,
`rust/http3/src/message.rs` (`Message::header`).

The encoder checks the size of the fields, the peer checks the length of the section before it reads it
and the size of the fields as it reads them. `length_encode_le` says that a section is no longer
than its fields' size, and `Within` follows the size through the decoder. `encoder_fits` puts both
ends together.
-/

namespace GraphiteMeter.Http3

open Qpack (Invalid bind_eq_ok)

/-! ## The length of a section -/

namespace Qpack

/-- The rest of an integer takes no more bytes than it has groups of bits. -/
theorem length_putRest {n rest : ℕ} (hrest : rest < 128 ^ n) (hn : n ≠ 0) :
    (putRest rest).length ≤ n := by
  induction n generalizing rest with
  | zero => exact absurd rfl hn
  | succ n ih =>
    rw [putRest]
    split_ifs with hmore
    · have hn' : n ≠ 0 := by
        rintro rfl
        omega
      have hsmall : rest >>> 7 < 128 ^ n := by
        rw [Nat.shiftRight_eq_div_pow, Nat.div_lt_iff_lt_mul (by omega)]
        rw [Nat.pow_succ] at hrest
        omega
      rw [List.length_cons]
      exact Nat.succ_le_succ (ih hsmall hn')
    · exact Nat.succ_le_succ (Nat.zero_le n)

/-- A 64-bit integer takes eleven bytes at most. -/
theorem length_putInteger {value : ℕ} (h : value < 2 ^ 64) (bits : ℕ) (pattern : UInt8) :
    (putInteger value bits pattern).length ≤ 11 := by
  rw [putInteger]
  split_ifs
  · rw [List.length_singleton]
    omega
  · have hrest : value - (1 <<< bits - 1) < 128 ^ 10 := by omega
    have hlen := length_putRest hrest (by omega)
    rw [List.length_cons]
    omega

/-- A string takes its own bytes and those of its length: Huffman is chosen only where it is shorter. -/
theorem length_putString {text : Bytes} (h : text.length < 2 ^ 64) (bits : ℕ) (pattern : UInt8) :
    (putString text bits pattern).length ≤ text.length + 11 := by
  rw [putString]
  split_ifs with hshorter
  · have hlen := length_putInteger (Nat.lt_trans hshorter h) bits (pattern ||| UInt8.ofNat (1 <<< bits))
    rw [Huffman.encodedLen_eq] at hshorter hlen ⊢
    rw [List.length_append]
    omega
  · have hlen := length_putInteger h bits pattern
    rw [List.length_append]
    omega

/-- The allowance of 32 bytes covers what a line adds to its strings, with two to spare. -/
theorem length_putLine {name value : Bytes} (hname : name.length < 2 ^ 64)
    (hvalue : value.length < 2 ^ 64) :
    (putLine name value).length + 2 ≤ fieldSize name value := by
  have hvalueLen := length_putString hvalue 7 0x00
  have hfound := Table.find_sound name value
  rw [putLine, fieldSize]
  split
  · rename_i index hfind
    rw [hfind, Table.Match.Sound] at hfound
    have hindex := length_putInteger (Nat.lt_trans (index_lt hfound) (by omega)) 6 0xc0
    omega
  · rename_i index hfind
    rw [hfind, Table.Match.Sound] at hfound
    obtain ⟨other, hentry⟩ := hfound
    have hindex := length_putInteger (Nat.lt_trans (index_lt hentry) (by omega)) 4 0x50
    rw [List.length_append]
    omega
  · have hnameLen := length_putString hname 3 0x20
    rw [List.length_append]
    omega

/-- Field lines are shorter than the size that is counted for them. -/
theorem length_lines {fields : FieldList} (h : sectionSize fields < 2 ^ 64) :
    (fields.flatMap fun f => putLine f.1 f.2).length + 2 * fields.length ≤ sectionSize fields := by
  induction fields with
  | nil => exact Nat.le_refl 0
  | cons f fields ih =>
    have hsize : sectionSize (f :: fields) = fieldSize f.1 f.2 + sectionSize fields := by
      rw [sectionSize, List.map_cons, List.sum_cons, ← sectionSize]
    rw [hsize] at h ⊢
    have hfield : fieldSize f.1 f.2 = f.1.length + f.2.length + 32 := rfl
    have hline := @length_putLine f.1 f.2 (by omega) (by omega)
    have hrest := ih (by omega)
    rw [List.flatMap_cons, List.length_append, List.length_cons]
    omega

/-- **A section is no longer than its fields' size.** -/
theorem length_encode_le {fields : FieldList} (hne : fields ≠ []) (h : sectionSize fields < 2 ^ 64) :
    (encode fields).length ≤ sectionSize fields := by
  have hlines := length_lines h
  have hpos := List.length_pos_iff.mpr hne
  have hencode : encode fields = [0, 0] ++ fields.flatMap fun f => putLine f.1 f.2 := rfl
  rw [hencode, List.length_append, List.length_cons, List.length_singleton]
  omega

end Qpack

/-! ## The size the decoder counts -/

/-- What is read is within the limit, and satisfies `post` where nothing else is wrong with it. -/
def Within {α : Type} (read : Except Invalid α) (post : α → Prop) : Prop :=
  match read with
  | .ok a => post a
  | .error invalid => invalid ≠ .tooLarge

namespace Within

variable {α β : Type} {read : Except Invalid α} {f : α → Except Invalid β} {post : α → Prop}
  {post' : β → Prop}

/-- What reads in turn stays within the bound. -/
theorem bind (h : Within read post) (hf : ∀ a, post a → Within (f a) post') :
    Within (read >>= f) post' := by
  cases read with
  | ok a => exact hf a h
  | error invalid => exact h

/-- What is within the bound is never too large. -/
theorem ne_tooLarge (h : Within read post) : read ≠ .error .tooLarge := by
  rintro rfl
  exact h rfl

/-- What is read within the bound has what the bound promises. -/
theorem of_ok (h : Within read post) {a : α} (hread : read = .ok a) : post a := by
  rw [hread] at h
  exact h

end Within

/-- Setting a slot is within the bound. -/
theorem set_within {T : Type} (slot value : Option T) : Within (set slot value) fun _ => True := by
  unfold set
  split
  · exact trivial
  · exact nofun

/-- Reading a pseudo-field is within the bound. -/
theorem pseudo_within (f : Fields) : Within f.pseudo fun _ => True := by
  unfold Fields.pseudo
  split
  · exact nofun
  · exact trivial

/-- Requiring a slot is within the bound. -/
theorem required_within {T : Type} (slot : Option T) : Within (required slot) fun _ => True := by
  cases slot with
  | none => exact nofun
  | some value => exact trivial

/-- Counting a field that fits is within the bound. -/
theorem count_within {f : Fields} {name value : Bytes} {limit : ℕ}
    (h : f.size + fieldSize name value ≤ limit) :
    Within (f.count name value limit) fun f' => f'.size = f.size + fieldSize name value := by
  unfold Fields.count
  dsimp only
  rw [if_neg (Nat.not_lt.mpr h)]
  exact rfl

/-- A regular field is kept without counting it again. -/
theorem putRegular_within (http : Http) (f : Fields) (name value : Bytes) :
    Within (f.putRegular http name value) fun f' => f'.size = f.size := by
  have hregular : ∀ invalid, regularField http name value = .error invalid → invalid = .malformed := by
    intro invalid h
    unfold regularField at h
    split at h
    · cases h
      rfl
    · split at h
      · cases h
        rfl
      · split at h
        · cases h
          rfl
        · cases h
  unfold Fields.putRegular
  split
  · rename_i invalid h
    rw [hregular invalid h]
    exact nofun
  · split
    · split
      · exact nofun
      · split
        · exact nofun
        · exact rfl
    · exact rfl

/-- A pseudo-header's arm of a visitor. -/
theorem arm_within {T α : Type} {slot value : Option T} {f : Fields} {done : Option T → α}
    {post : α → Prop} (h : ∀ slot, post (done slot)) :
    Within (do
      let slot ← set slot value
      f.pseudo
      Except.ok (done slot)) post := by
  apply (set_within slot value).bind
  intro slot _
  apply (pseudo_within f).bind
  intro _ _
  exact h slot

/-- A visitor counts a field before it keeps it. -/
theorem visit_within (http : Http) {limit : ℕ} (p : Pending) (name value : Bytes)
    (h : p.fields.size + fieldSize name value ≤ limit) :
    Within (p.visit http limit name value) fun p' =>
      p'.fields.size = p.fields.size + fieldSize name value := by
  unfold Pending.visit
  apply (count_within h).bind
  intro f hf
  split_ifs
  · exact arm_within fun _ => hf
  · exact arm_within fun _ => hf
  · exact arm_within fun _ => hf
  · exact arm_within fun _ => hf
  · exact arm_within fun _ => hf
  · exact nofun
  · apply (putRegular_within http f name value).bind
    intro f' hf'
    exact hf'.trans hf

/-- Visiting a response's field that fits is within the bound. -/
theorem visitResponse_within (http : Http) (statusCode : Bytes → Option Bytes) {limit : ℕ}
    (p : PendingResponse) (name value : Bytes) (h : p.fields.size + fieldSize name value ≤ limit) :
    Within (p.visit http statusCode limit name value) fun p' =>
      p'.fields.size = p.fields.size + fieldSize name value := by
  unfold PendingResponse.visit
  apply (count_within h).bind
  intro f hf
  split_ifs
  · exact arm_within fun _ => hf
  · exact nofun
  · apply (putRegular_within http f name value).bind
    intro f' hf'
    exact hf'.trans hf

section Visitor

variable {σ : Type} {visit : σ → Bytes → Bytes → Except Invalid σ} {size : σ → ℕ} {limit : ℕ}
  (hvisit : ∀ s name value, size s + fieldSize name value ≤ limit →
    Within (visit s name value) fun s' => size s' = size s + fieldSize name value)

include hvisit

/-- Visiting fields that fit together is within the bound. -/
theorem foldlM_within (fields : FieldList) (s : σ) (h : size s + sectionSize fields ≤ limit) :
    Within (fields.foldlM (fun s f => visit s f.1 f.2) s) fun s' =>
      size s' = size s + sectionSize fields := by
  induction fields generalizing s with
  | nil => exact rfl
  | cons f fields ih =>
    have hsize : sectionSize (f :: fields) = fieldSize f.1 f.2 + sectionSize fields := by
      rw [sectionSize, List.map_cons, List.sum_cons, ← sectionSize]
    rw [hsize] at h ⊢
    rw [List.foldlM_cons]
    apply (hvisit s f.1 f.2 (by omega)).bind
    intro s' hs'
    have hrest := ih s' (by omega)
    rw [hs', Nat.add_assoc] at hrest
    exact hrest

/-- **Within the limit the encoder checked, no field is over the decoder's.** -/
theorem decode_within (fields : FieldList) (s : σ) (hs : size s = 0)
    (h : sectionSize fields ≤ limit) :
    Within (Qpack.decode visit s (Qpack.encode fields)) fun s' => size s' = sectionSize fields := by
  have hfold := foldlM_within hvisit fields s (by omega)
  rw [hs, Nat.zero_add] at hfold
  obtain hdecode | ⟨-, hdecode⟩ := Qpack.decode_encode_cases visit fields s
  · rw [hdecode]
    exact hfold
  · rw [hdecode]
    exact nofun

end Visitor

/-- Checking the protocol is within the bound. -/
theorem checkProtocol_within (p : Pending) (method : Bytes) :
    Within (checkProtocol p method) fun _ => True := by
  unfold checkProtocol
  split
  · dsimp only
    split
    · exact trivial
    · exact nofun
    · split
      · exact nofun
      · exact nofun
    · exact nofun
  · split
    · exact nofun
    · exact trivial

/-- Reading the authority is within the bound. -/
theorem requestAuthority_within (http : Http) (authority : Option Bytes)
    (headers : List (Bytes × Bytes)) :
    Within (requestAuthority http authority headers) fun _ => True := by
  have hagreed : ∀ hosts, Within (agreedAuthority http authority hosts) fun _ => True := by
    intro hosts
    unfold agreedAuthority
    split
    · exact nofun
    · exact nofun
    · split_ifs
      · exact nofun
      · exact trivial
    · exact trivial
    · split
      · exact nofun
      · exact trivial
  unfold requestAuthority
  apply (hagreed _).bind
  intro authority _
  split_ifs
  · exact nofun
  · exact trivial

/-- What is put together at the end carries the size that was counted. -/
theorem request_within (http : Http) (p : Pending) :
    Within (p.request http) fun head => head.size = p.fields.size := by
  unfold Pending.request
  apply (required_within p.method).bind
  intro method _
  apply (checkProtocol_within p method).bind
  intro _ _
  apply (requestAuthority_within http p.authority p.fields.headers).bind
  intro authority _
  apply (required_within p.path).bind
  intro path _
  split_ifs
  · exact nofun
  · apply (required_within p.scheme).bind
    intro scheme _
    split_ifs
    · exact rfl
    · exact nofun

/-! ## Both ends -/

/-- A section that was encoded within a limit fits a peer of that limit: it is no longer than its
fields' size, which is within the limit, and no message of that limit refuses its HEADERS frame. -/
structure Fits (limit : ℕ) (fields : FieldList) (fieldSection : Bytes) : Prop where
  short : fieldSection.length ≤ sectionSize fields
  within : sectionSize fields ≤ limit
  header : ∀ m : Message, m.limit = limit → m.phase ≠ .trailers →
    ∃ after, m.header .headers fieldSection.length = .ok after
  /-- Every string of it is short enough to be read back, unless the limit is beyond 32 GiB. -/
  read : limit ≤ 2 ^ 35 → Qpack.decode Qpack.collect [] fieldSection = .ok fields

/-- What is encoded under a limit fits it. -/
theorem encode_fits {pseudo headers : List (Bytes × Bytes)} {limit : ℕ} {fieldSection : Bytes}
    (hlimit : limit < 2 ^ 64) (hne : pseudo ≠ [])
    (h : encode pseudo headers (some limit) = .ok fieldSection) :
    fieldSection = Qpack.encode (sentFields pseudo headers) ∧
      Fits limit (sentFields pseudo headers) fieldSection := by
  unfold encode at h
  dsimp only [Option.any_some] at h
  split_ifs at h with hlarge
  cases h
  rw [decide_eq_true_eq, Nat.not_lt] at hlarge
  have hwithin : sectionSize (sentFields pseudo headers) ≤ limit := hlarge
  have hfields : sentFields pseudo headers ≠ [] := List.append_ne_nil_of_left_ne_nil hne _
  have hshort := Qpack.length_encode_le hfields (by omega)
  refine ⟨rfl, hshort, hwithin, ?_, ?_⟩
  · -- outside the trailers a HEADERS frame is refused for its length alone
    intro m hm hphase
    have hearly : m.phase = .head ∨ m.phase = .body := by
      cases hm' : m.phase with
      | head => exact .inl rfl
      | body => exact .inr rfl
      | trailers => exact absurd hm' hphase
    have hfits : ¬ (Qpack.encode (sentFields pseudo headers)).length > m.limit := by
      rw [hm]
      omega
    unfold Message.header
    dsimp only
    rw [if_neg fun h => hfits h.2.2]
    split
    · exact ⟨_, rfl⟩
    · rw [if_pos (.inl ⟨rfl, hearly⟩)]
      exact ⟨_, rfl⟩
  · intro hsmall
    rw [Qpack.decode_encode_foldlM, Qpack.foldlM_collect, List.nil_append]
    intro f hf
    have hmem : fieldSize f.1 f.2 ∈ (sentFields pseudo headers).map fun f => fieldSize f.1 f.2 :=
      List.mem_map_of_mem hf
    have hle : fieldSize f.1 f.2 ≤ sectionSize (sentFields pseudo headers) :=
      List.single_le_sum (fun _ _ => Nat.zero_le _) _ hmem
    have hfield : fieldSize f.1 f.2 = f.1.length + f.2.length + 32 := rfl
    have hname : Qpack.stringLen f.1 ≤ f.1.length := Nat.min_le_right _ _
    have hvalue : Qpack.stringLen f.2 ≤ f.2.length := Nat.min_le_right _ _
    omega

/-- The fields of a request, which has a scheme and an authority. -/
def requestFields (request : RequestParts) (protocol : Option Bytes) : FieldList :=
  sentFields (requestPseudo request (request.scheme.getD []) (request.authority.getD []) protocol)
    request.headers

def responseFields (response : Response) : FieldList :=
  sentFields [(text ":status", response.status)] response.headers

/-- **The encoder fits the decoder.** Whatever request or response is encoded within a limit, its
section is no longer than the size of its fields, a peer of the same limit takes its HEADERS frame and
never finds the fields too large, and the size it counts is the one the encoder checked. -/
theorem encoder_fits (http : Http) (statusCode : Bytes → Option Bytes) (limit : UInt64) :
    (∀ request protocol fieldSection,
      encodeRequest request protocol (some limit.toNat) = .ok fieldSection →
      Fits limit.toNat (requestFields request protocol) fieldSection ∧
        decodeRequest http fieldSection limit.toNat ≠ .error .tooLarge ∧
        ∀ head, decodeRequest http fieldSection limit.toNat = .ok head →
          head.size = sectionSize (requestFields request protocol)) ∧
      ∀ response fieldSection,
        encodeResponse response (some limit.toNat) = .ok fieldSection →
        Fits limit.toNat (responseFields response) fieldSection ∧
          decodeResponse http statusCode fieldSection limit.toNat ≠ .error .tooLarge ∧
          ∀ head, decodeResponse http statusCode fieldSection limit.toNat = .ok head →
            head.size = sectionSize (responseFields response) := by
  constructor
  · intro request protocol fieldSection hencode
    unfold encodeRequest at hencode
    obtain ⟨scheme, hscheme, hencode⟩ := bind_eq_ok hencode
    obtain ⟨authority, hauthority, hencode⟩ := bind_eq_ok hencode
    have hfields : requestFields request protocol =
        sentFields (requestPseudo request scheme authority protocol) request.headers := by
      rw [requestFields, required_eq_ok hscheme, required_eq_ok hauthority, Option.getD_some,
        Option.getD_some]
    have hne : requestPseudo request scheme authority protocol ≠ [] := by
      unfold requestPseudo
      split <;> exact List.cons_ne_nil _ _
    obtain ⟨hsection, hfits⟩ := encode_fits limit.toNat_lt hne hencode
    rw [← hfields] at hsection hfits
    -- the peer's visitor never counts past what was encoded, and at the end has counted all of it
    have hdecode : Within (decodeRequest http fieldSection limit.toNat) fun head =>
        head.size = sectionSize (requestFields request protocol) := by
      rw [hsection]
      refine (decode_within (visit_within http) _ .empty rfl hfits.within).bind ?_
      intro p hp
      have hrequest := request_within http p
      rw [hp] at hrequest
      exact hrequest
    exact ⟨hfits, hdecode.ne_tooLarge, fun head => hdecode.of_ok⟩
  · intro response fieldSection hencode
    obtain ⟨hsection, hfits⟩ := encode_fits limit.toNat_lt (List.cons_ne_nil _ _) hencode
    have hdecode : Within (decodeResponse http statusCode fieldSection limit.toNat) fun head =>
        head.size = sectionSize (responseFields response) := by
      rw [hsection]
      refine (decode_within (visitResponse_within http statusCode) _ .empty rfl hfits.within).bind ?_
      intro p hp
      apply (required_within p.status).bind
      intro status _
      exact hp
    exact ⟨hfits, hdecode.ne_tooLarge, fun head => hdecode.of_ok⟩

/-- A GET with one field more, and a connection-specific one that is not sent. -/
theorem encoder_fits_get :
    let request : RequestParts :=
      ⟨text "GET", some (text "https"), some (text "meter.example"), none,
        [(text "accept", text "text/html"), (text "connection", text "close")]⟩
    ∃ fieldSection, encodeRequest request none (some 4096) = .ok fieldSection ∧
      Fits 4096 (requestFields request none) fieldSection ∧
      decodeRequest visibleHttp fieldSection 4096 ≠ .error .tooLarge := by
  intro request
  have hok : (encodeRequest request none (some 4096)).isOk = true := by decide +kernel
  cases hencode : encodeRequest request none (some 4096) with
  | error invalid =>
    rw [hencode] at hok
    cases hok
  | ok fieldSection =>
    have hfits := (encoder_fits visibleHttp some 4096).1 request none fieldSection hencode
    exact ⟨fieldSection, rfl, hfits.1, hfits.2.1⟩

end GraphiteMeter.Http3
