import GraphiteMeter.Http3.Fields

/-!
# What an accepted request may hold

The visitor of `decode_request` sees one field at a time. `Pending.Seen` says what its state knows about
all the fields so far, whatever their order and repetition; `Pending.Seen.visit` carries it over one
field, `seen_foldlM` over a section, and `decodeRequest_admitted` reads off it what the final
assembly leaves of a request: the boundary against request smuggling.

Reference: `rust/http3/src/fields.rs`, `rust/http3/src/qpack/mod.rs`.
-/

namespace GraphiteMeter.Http3

open Qpack (Invalid bind_eq_ok)

/-- The fields of a section, in order. -/
abbrev FieldList := List (Bytes × Bytes)

/-- Pseudo-headers start with a colon. -/
def IsPseudo (name : Bytes) : Prop := name.head? = some 0x3a

instance (name : Bytes) : Decidable (IsPseudo name) :=
  inferInstanceAs (Decidable (_ = _))

/-- The values of the fields of one name. -/
def values (name : Bytes) (fields : FieldList) : List Bytes :=
  (fields.filter (·.1 = name)).map (·.2)

/-- The size that the limit is about. -/
def sectionSize (fields : FieldList) : ℕ := (fields.map fun f => fieldSize f.1 f.2).sum

/-- **What an accepted section and its request satisfy.** -/
structure Admitted (http : Http) (limit : ℕ) (fields : FieldList) (head : Head) : Prop where
  /-- Every pseudo-header occurs at most once. -/
  pseudo_once : ∀ name, IsPseudo name → (values name fields).length ≤ 1
  /-- Pseudo-headers come before every regular field. -/
  pseudo_first : ∃ pseudo regular, fields = pseudo ++ regular ∧ (∀ f ∈ pseudo, IsPseudo f.1) ∧
    ∀ f ∈ regular, ¬ IsPseudo f.1
  /-- No field is specific to an HTTP/1.1 connection. -/
  connection : ∀ f ∈ fields, connectionSpecific f.1 = false
  te : ∀ value ∈ values (text "te") fields, value = text "trailers"
  /-- All content lengths are digits, and the number they denote is the one the head declares. -/
  content_length : ∀ value ∈ values (text "content-length") fields,
    value ≠ [] ∧ value.all isAsciiDigit ∧ head.contentLength = some (decimal value)
  /-- The authority is one value, from `:authority`, from at most one Host, or from both. -/
  authority : values (text ":authority") fields ++ values (text "host") fields ≠ [] ∧
    (∀ value ∈ values (text ":authority") fields ++ values (text "host") fields,
      value = head.message.authority) ∧
    (values (text "host") fields).length ≤ 1
  /-- It carries no userinfo. -/
  userinfo : 0x40 ∉ head.message.authority
  /-- The path is that of the one `:path`, and begins with `/` or is the `*` of OPTIONS. -/
  path : (∃ value, values (text ":path") fields = [value] ∧
      http.pathAndQuery value = some head.message.path) ∧
    (head.message.path.head? = some 0x2f ∨
      (values (text ":method") fields = [text "OPTIONS"] ∧ head.message.path = text "*"))
  /-- Only CONNECT has a protocol. -/
  protocol : values (text ":protocol") fields ≠ [] → values (text ":method") fields = [text "CONNECT"]
  size : sectionSize fields ≤ limit

/-! ## One more field -/

/-- One more field adds its value to those of its own name. -/
theorem values_concat (name : Bytes) (fields : FieldList) (f : Bytes × Bytes) :
    values name (fields ++ [f]) = values name fields ++ if f.1 = name then [f.2] else [] := by
  by_cases h : f.1 = name
  · simp [values, List.filter_append, h]
  · simp [values, List.filter_append, h]

/-- A value of a name is that of a field. -/
theorem mem_values {name value : Bytes} {fields : FieldList} :
    value ∈ values name fields ↔ (name, value) ∈ fields := by
  simp [values]

/-- One more field adds its size. -/
theorem sectionSize_concat (fields : FieldList) (f : Bytes × Bytes) :
    sectionSize (fields ++ [f]) = sectionSize fields + fieldSize f.1 f.2 := by
  simp [sectionSize]

/-- The pseudo-headers of a request. -/
def pseudoNames : List Bytes :=
  [":method", ":scheme", ":authority", ":path", ":protocol"].map text

/-- No pseudo-field's name is an ordinary one. -/
theorem pseudoNames_plain : ∀ name ∈ pseudoNames, IsPseudo name ∧ connectionSpecific name = false ∧
    name ≠ text "te" ∧ name ≠ text "content-length" := by
  decide +kernel

/-! ## What the visitor knows about the fields -/

/-- What `f` knows about the fields so far. -/
structure Fields.Seen (limit : ℕ) (fields : FieldList) (f : Fields) : Prop where
  size : f.size = sectionSize fields
  within : f.size ≤ limit
  order : ∃ pseudo regular, fields = pseudo ++ regular ∧ (∀ f ∈ pseudo, f.1 ∈ pseudoNames) ∧
    (∀ f ∈ regular, ¬ IsPseudo f.1) ∧ (f.regular = false → regular = [])
  headers : f.headers = fields.filter fun f => ¬ IsPseudo f.1
  connection : ∀ f ∈ fields, connectionSpecific f.1 = false
  te : ∀ value ∈ values (text "te") fields, value = text "trailers"
  lengths : ∀ value ∈ values (text "content-length") fields,
    ∃ length, parseLength value = some length ∧ f.contentLength = some length

variable {http : Http} {limit : ℕ} {fields : FieldList} {name value : Bytes}

/-- Before any field nothing has been seen. -/
theorem Fields.seen_empty : Fields.Seen limit [] .empty where
  size := rfl
  within := Nat.zero_le limit
  order := ⟨[], [], rfl, by simp, by simp, fun _ => rfl⟩
  headers := rfl
  connection := by simp
  te := by simp [values]
  lengths := by simp [values]

/-- A field that is counted fits the limit, and adds its size. -/
theorem Fields.count_eq_ok {f f' : Fields} (h : f.count name value limit = .ok f') :
    f.size + fieldSize name value ≤ limit ∧
      f' = { f with size := f.size + fieldSize name value } := by
  unfold Fields.count at h
  simp only at h
  split at h
  · cases h
  · cases h
    exact ⟨by omega, rfl⟩

/-- A pseudo-header is counted, before any regular field. -/
theorem Fields.Seen.pseudo {f f' : Fields} (h : f.Seen limit fields)
    (hcount : f.count name value limit = .ok f') (hpseudo : f'.pseudo = .ok ())
    (hname : name ∈ pseudoNames) : f'.Seen limit (fields ++ [(name, value)]) := by
  obtain ⟨hle, rfl⟩ := Fields.count_eq_ok hcount
  have hregular : f.regular = false := by
    unfold Fields.pseudo at hpseudo
    split at hpseudo
    · cases hpseudo
    · rename_i hne
      simpa using hne
  obtain ⟨hkind, hconnection, hte, hlength⟩ := pseudoNames_plain name hname
  exact {
    size := by rw [sectionSize_concat, ← h.size]
    within := hle
    order := by
      obtain ⟨pseudo, regular, rfl, hpseudos, -, hnil⟩ := h.order
      refine ⟨pseudo ++ [(name, value)], [], by rw [hnil hregular]; simp, ?_, by simp, fun _ => rfl⟩
      intro g hg
      rcases List.mem_append.mp hg with hg | hg
      · exact hpseudos g hg
      · rw [List.mem_singleton.mp hg]
        exact hname
    headers := by
      rw [List.filter_append, h.headers]
      simp [hkind]
    connection := by
      intro g hg
      rcases List.mem_append.mp hg with hg | hg
      · exact h.connection g hg
      · rw [List.mem_singleton.mp hg]
        exact hconnection
    te := by
      rw [values_concat, if_neg hte, List.append_nil]
      exact h.te
    lengths := by
      rw [values_concat, if_neg hlength, List.append_nil]
      exact h.lengths }

/-- An ordinary field that is accepted is itself, and not connection-specific. -/
theorem regularField_eq_ok {field : Bytes × Bytes}
    (h : regularField http name value = .ok field) :
    field = (name, value) ∧ connectionSpecific name = false ∧
      (name = text "te" → value = text "trailers") := by
  unfold regularField at h
  split at h
  · cases h
  · rename_i name' hname
    obtain rfl := http.headerName_text hname
    split at h
    · cases h
    · rename_i hcheck
      rw [not_or, Bool.not_eq_true, not_and, not_not] at hcheck
      split at h
      · cases h
      · rename_i value' hvalue
        obtain rfl := http.headerValue_text hvalue
        cases h
        exact ⟨rfl, hcheck.1, hcheck.2⟩

/-- What keeping a regular field leaves, and what it has checked. -/
theorem Fields.putRegular_eq_ok {f f' : Fields} (h : f.putRegular http name value = .ok f') :
    connectionSpecific name = false ∧ (name = text "te" → value = text "trailers") ∧
      f'.size = f.size ∧ f'.regular = true ∧ f'.headers = f.headers ++ [(name, value)] ∧
      (name ≠ text "content-length" → f'.contentLength = f.contentLength) ∧
      (name = text "content-length" → ∃ length, parseLength value = some length ∧
        f'.contentLength = some length ∧ (f.contentLength = none ∨ f.contentLength = some length)) := by
  unfold Fields.putRegular at h
  split at h
  · cases h
  · rename_i name' value' hregular
    obtain ⟨hfield, hconnection, hte⟩ := regularField_eq_ok hregular
    obtain ⟨rfl, rfl⟩ := Prod.mk.inj hfield
    split at h
    · rename_i hname
      split at h
      · cases h
      · rename_i length hlength
        split at h
        · cases h
        · rename_i hagree
          cases h
          refine ⟨hconnection, hte, rfl, rfl, rfl, fun hne => absurd hname hne, fun _ => ?_⟩
          refine ⟨length, hlength, rfl, ?_⟩
          cases hprev : f.contentLength with
          | none => exact .inl rfl
          | some previous =>
            rw [hprev, Option.getD_some, not_not] at hagree
            exact .inr (by rw [hagree])
    · rename_i hname
      cases h
      exact ⟨hconnection, hte, rfl, rfl, rfl, fun _ => rfl, fun heq => absurd heq hname⟩

/-- An ordinary field that is accepted has been seen. -/
theorem Fields.Seen.regular {f f₁ f' : Fields} (h : f.Seen limit fields)
    (hcount : f.count name value limit = .ok f₁) (hname : ¬ IsPseudo name)
    (hput : f₁.putRegular http name value = .ok f') :
    f'.Seen limit (fields ++ [(name, value)]) := by
  obtain ⟨hle, rfl⟩ := Fields.count_eq_ok hcount
  obtain ⟨hconnection, hte, hsize, hregular, hheaders, hother, hlength⟩ :=
    Fields.putRegular_eq_ok hput
  exact {
    size := by rw [hsize, sectionSize_concat, ← h.size]
    within := by rw [hsize]; exact hle
    order := by
      obtain ⟨pseudo, regular, rfl, hpseudos, hregulars, -⟩ := h.order
      refine ⟨pseudo, regular ++ [(name, value)], by simp, hpseudos, ?_, ?_⟩
      · intro g hg
        rcases List.mem_append.mp hg with hg | hg
        · exact hregulars g hg
        · rw [List.mem_singleton.mp hg]
          exact hname
      · intro hfalse
        rw [hregular] at hfalse
        cases hfalse
    headers := by
      rw [hheaders, List.filter_append, ← h.headers]
      simp [hname]
    connection := by
      intro g hg
      rcases List.mem_append.mp hg with hg | hg
      · exact h.connection g hg
      · rw [List.mem_singleton.mp hg]
        exact hconnection
    te := by
      intro v hv
      rw [values_concat, List.mem_append] at hv
      rcases hv with hv | hv
      · exact h.te v hv
      · split at hv
        · rename_i heq
          rw [List.mem_singleton.mp hv]
          exact hte heq
        · cases hv
    lengths := by
      intro v hv
      rw [values_concat, List.mem_append] at hv
      by_cases heq : name = text "content-length"
      · obtain ⟨length, hparse, hset, hprev⟩ := hlength heq
        rcases hv with hv | hv
        · -- an earlier value: the one that was kept agrees
          obtain ⟨length', hparse', hkept⟩ := h.lengths v hv
          have hkept' : f.contentLength = some length' := hkept
          rcases hprev with hnone | hsome
          · rw [hkept'] at hnone
            cases hnone
          · rw [hkept'] at hsome
            cases hsome
            exact ⟨length, hparse', hset⟩
        · rw [if_pos heq, List.mem_singleton] at hv
          rw [hv]
          exact ⟨length, hparse, hset⟩
      · rw [hother heq]
        rcases hv with hv | hv
        · exact h.lengths v hv
        · rw [if_neg heq] at hv
          cases hv }

/-! ## Pseudo-headers -/

/-- What a slot knows about the values of its pseudo-header: there was none, or one that parses. -/
def Slot {T : Type} (parse : Bytes → Option T) : Option T → List Bytes → Prop
  | none, vs => vs = []
  | some t, vs => ∃ v, vs = [v] ∧ parse v = some t

/-- A field of another name leaves a slot. -/
theorem Slot.other {T : Type} {parse : Bytes → Option T} {slot : Option T} {n : Bytes}
    (h : Slot parse slot (values n fields)) (hne : name ≠ n) :
    Slot parse slot (values n (fields ++ [(name, value)])) := by
  rw [values_concat, if_neg hne, List.append_nil]
  exact h

/-- `set` fills an empty slot. -/
theorem Slot.set {T : Type} {parse : Bytes → Option T} {slot slot' : Option T}
    (h : Slot parse slot (values name fields)) (hset : Http3.set slot (parse value) = .ok slot') :
    Slot parse slot' (values name (fields ++ [(name, value)])) := by
  unfold Http3.set at hset
  split at hset
  · rename_i t hparse
    cases hset
    have hnil : values name fields = [] := h
    rw [values_concat, if_pos rfl, hnil]
    exact ⟨value, rfl, hparse⟩
  · cases hset

/-- A slot is filled at most once. -/
theorem Slot.length_le {T : Type} {parse : Bytes → Option T} {slot : Option T} {vs : List Bytes}
    (h : Slot parse slot vs) : vs.length ≤ 1 := by
  cases slot with
  | none =>
    obtain rfl : vs = [] := h
    exact Nat.zero_le 1
  | some t =>
    obtain ⟨v, rfl, -⟩ := h
    exact Nat.le_refl 1

/-- Whether a protocol is one of WebTransport's. -/
def webtransport (value : Bytes) : Option Bool :=
  some (decide (value = text "webtransport" ∨ value = text "webtransport-h3"))

/-- What the visitor knows about the fields so far. -/
structure Pending.Seen (http : Http) (limit : ℕ) (fields : FieldList) (p : Pending) : Prop where
  kept : p.fields.Seen limit fields
  method : Slot http.method p.method (values (text ":method") fields)
  scheme : Slot http.scheme p.scheme (values (text ":scheme") fields)
  authority : Slot http.authority p.authority (values (text ":authority") fields)
  path : Slot http.pathAndQuery p.path (values (text ":path") fields)
  protocol : Slot webtransport p.protocol (values (text ":protocol") fields)

/-- A request has seen no field before the first. -/
theorem Pending.seen_empty : Pending.Seen http limit [] .empty where
  kept := Fields.seen_empty
  method := rfl
  scheme := rfl
  authority := rfl
  path := rfl
  protocol := rfl

/-- A pseudo-header's arm of the visitor, taken apart. -/
theorem pseudo_arm {T : Type} {slot value : Option T} {f : Fields} {done : Option T → Pending}
    {p' : Pending}
    (h : (do
      let slot ← Http3.set slot value
      f.pseudo
      Except.ok (done slot)) = Except.ok p') :
    ∃ slot', Http3.set slot value = .ok slot' ∧ f.pseudo = .ok () ∧ p' = done slot' := by
  obtain ⟨slot', hset, hrest⟩ := bind_eq_ok h
  obtain ⟨⟨⟩, hpseudo, hdone⟩ := bind_eq_ok hrest
  cases hdone
  exact ⟨slot', hset, hpseudo, rfl⟩

/-- **One field.** -/
theorem Pending.Seen.visit {p p' : Pending} (h : p.Seen http limit fields)
    (hvisit : p.visit http limit name value = .ok p') :
    p'.Seen http limit (fields ++ [(name, value)]) := by
  unfold Pending.visit at hvisit
  obtain ⟨f, hcount, hfield⟩ := bind_eq_ok hvisit
  by_cases hmethod : name = text ":method"
  · rw [if_pos hmethod] at hfield
    obtain ⟨slot, hset, hpseudo, rfl⟩ := pseudo_arm hfield
    subst hmethod
    exact {
      kept := h.kept.pseudo hcount hpseudo (by decide +kernel)
      method := h.method.set hset
      scheme := h.scheme.other (by decide +kernel)
      authority := h.authority.other (by decide +kernel)
      path := h.path.other (by decide +kernel)
      protocol := h.protocol.other (by decide +kernel) }
  rw [if_neg hmethod] at hfield
  by_cases hscheme : name = text ":scheme"
  · rw [if_pos hscheme] at hfield
    obtain ⟨slot, hset, hpseudo, rfl⟩ := pseudo_arm hfield
    subst hscheme
    exact {
      kept := h.kept.pseudo hcount hpseudo (by decide +kernel)
      method := h.method.other hmethod
      scheme := h.scheme.set hset
      authority := h.authority.other (by decide +kernel)
      path := h.path.other (by decide +kernel)
      protocol := h.protocol.other (by decide +kernel) }
  rw [if_neg hscheme] at hfield
  by_cases hauthority : name = text ":authority"
  · rw [if_pos hauthority] at hfield
    obtain ⟨slot, hset, hpseudo, rfl⟩ := pseudo_arm hfield
    subst hauthority
    exact {
      kept := h.kept.pseudo hcount hpseudo (by decide +kernel)
      method := h.method.other hmethod
      scheme := h.scheme.other hscheme
      authority := h.authority.set hset
      path := h.path.other (by decide +kernel)
      protocol := h.protocol.other (by decide +kernel) }
  rw [if_neg hauthority] at hfield
  by_cases hpath : name = text ":path"
  · rw [if_pos hpath] at hfield
    obtain ⟨slot, hset, hpseudo, rfl⟩ := pseudo_arm hfield
    subst hpath
    exact {
      kept := h.kept.pseudo hcount hpseudo (by decide +kernel)
      method := h.method.other hmethod
      scheme := h.scheme.other hscheme
      authority := h.authority.other hauthority
      path := h.path.set hset
      protocol := h.protocol.other (by decide +kernel) }
  rw [if_neg hpath] at hfield
  by_cases hprotocol : name = text ":protocol"
  · rw [if_pos hprotocol] at hfield
    obtain ⟨slot, hset, hpseudo, rfl⟩ := pseudo_arm hfield
    subst hprotocol
    exact {
      kept := h.kept.pseudo hcount hpseudo (by decide +kernel)
      method := h.method.other hmethod
      scheme := h.scheme.other hscheme
      authority := h.authority.other hauthority
      path := h.path.other hpath
      protocol := h.protocol.set hset }
  -- any other name is a regular field's, or refused
  rw [if_neg hprotocol] at hfield
  by_cases hpseudo : name.head? = some 0x3a
  · rw [if_pos hpseudo] at hfield
    cases hfield
  · rw [if_neg hpseudo] at hfield
    obtain ⟨f', hput, hdone⟩ := bind_eq_ok hfield
    cases hdone
    exact {
      kept := h.kept.regular hcount hpseudo hput
      method := h.method.other hmethod
      scheme := h.scheme.other hscheme
      authority := h.authority.other hauthority
      path := h.path.other hpath
      protocol := h.protocol.other hprotocol }

/-- **All the fields of a section**, in whatever order they come. -/
theorem seen_foldlM {more : FieldList} {p p' : Pending} (h : p.Seen http limit fields)
    (hfold : more.foldlM (fun p f => p.visit http limit f.1 f.2) p = .ok p') :
    p'.Seen http limit (fields ++ more) := by
  induction more generalizing p fields with
  | nil =>
    cases hfold
    rwa [List.append_nil]
  | cons f more ih =>
    rw [List.foldlM_cons] at hfold
    obtain ⟨p₁, hvisit, hrest⟩ := bind_eq_ok hfold
    rw [List.append_cons]
    exact ih (h.visit hvisit) hrest

/-! ## The request put together -/

/-- A required slot was filled. -/
theorem required_eq_ok {T : Type} {slot : Option T} {t : T} (h : required slot = .ok t) :
    slot = some t := by
  cases slot with
  | none => cases h
  | some _ =>
    cases h
    rfl

/-- A protocol passes with CONNECT alone. -/
theorem checkProtocol_eq_ok {p : Pending} {method : Bytes} (h : checkProtocol p method = .ok ()) :
    method = text "CONNECT" ∨ p.protocol = none := by
  unfold checkProtocol at h
  by_cases hconnect : method = text "CONNECT"
  · exact .inl hconnect
  · rw [if_neg hconnect] at h
    right
    cases hprotocol : p.protocol with
    | none => rfl
    | some _ =>
      rw [hprotocol] at h
      cases h

/-- The authority is the one value that `:authority` and Host give. -/
theorem requestAuthority_eq_ok {authority : Option Bytes} {headers : FieldList} {a : Bytes}
    (h : requestAuthority http authority headers = .ok a) :
    0x40 ∉ a ∧ (values (text "host") headers).length ≤ 1 ∧
      (∀ host ∈ values (text "host") headers, host = a) ∧ (∀ b ∈ authority, b = a) ∧
      (authority = none → values (text "host") headers ≠ []) := by
  unfold requestAuthority at h
  rw [← values] at h
  obtain ⟨b, hmatch, hinfo⟩ := bind_eq_ok h
  have huser : 0x40 ∉ a ∧ a = b := by
    split at hinfo
    · cases hinfo
    · cases hinfo
      exact ⟨by assumption, rfl⟩
  obtain ⟨huser, rfl⟩ := huser
  refine ⟨huser, ?_⟩
  generalize values (text "host") headers = hosts at hmatch ⊢
  unfold agreedAuthority at hmatch
  split at hmatch
  · cases hmatch
  · cases hmatch
  · split at hmatch
    · cases hmatch
    · rename_i hagree
      cases hmatch
      rw [not_not] at hagree
      simp [hagree]
  · cases hmatch
    simp
  · split at hmatch
    · cases hmatch
    · rename_i hparse
      cases hmatch
      simp [http.authority_text hparse]

/-- A request that is accepted has its method, its path and its authority. -/
theorem Pending.request_eq_ok {p : Pending} {head : Head} (h : p.request http = .ok head) :
    p.method = some head.message.method ∧ p.path = some head.message.path ∧
      (head.message.method = text "CONNECT" ∨ p.protocol = none) ∧
      requestAuthority http p.authority p.fields.headers = .ok head.message.authority ∧
      (head.message.path.head? = some 0x2f ∨
        (head.message.method = text "OPTIONS" ∧ head.message.path = text "*")) ∧
      head.contentLength = p.fields.contentLength := by
  unfold Pending.request at h
  obtain ⟨method, hmethod, h⟩ := bind_eq_ok h
  obtain ⟨⟨⟩, hprotocol, h⟩ := bind_eq_ok h
  obtain ⟨authority, hauthority, h⟩ := bind_eq_ok h
  obtain ⟨path, hpath, h⟩ := bind_eq_ok h
  by_cases hslash : path.head? ≠ some 0x2f ∧ ¬ (method = text "OPTIONS" ∧ path = text "*")
  · rw [if_pos hslash] at h
    cases h
  · rw [if_neg hslash] at h
    obtain ⟨scheme, -, h⟩ := bind_eq_ok h
    by_cases hparts : http.fromParts scheme authority path
    · rw [if_pos hparts] at h
      cases h
      refine ⟨required_eq_ok hmethod, required_eq_ok hpath, checkProtocol_eq_ok hprotocol,
        hauthority, ?_, rfl⟩
      by_contra hneither
      exact hslash (not_or.mp hneither)
    · rw [if_neg hparts] at h
      cases h

/-- A name that no pseudo-header has is looked up among the regular fields alone. -/
theorem values_filter (hname : ¬ IsPseudo name) :
    values name (fields.filter fun f => ¬ IsPseudo f.1) = values name fields := by
  unfold values
  rw [List.filter_filter]
  congr 1
  apply List.filter_congr
  intro f _
  by_cases heq : f.1 = name
  · simp [heq, hname]
  · simp [heq]

/-- A pseudo-field occurs at most once. -/
theorem Pending.Seen.pseudo_once {p : Pending} (h : p.Seen http limit fields)
    (hname : IsPseudo name) : (values name fields).length ≤ 1 := by
  by_cases hknown : name ∈ pseudoNames
  · simp only [pseudoNames, List.map_cons, List.map_nil, List.mem_cons, List.not_mem_nil,
      or_false] at hknown
    rcases hknown with rfl | rfl | rfl | rfl | rfl
    · exact h.method.length_le
    · exact h.scheme.length_le
    · exact h.authority.length_le
    · exact h.path.length_le
    · exact h.protocol.length_le
  · -- the visitor refuses other pseudo-headers, so no field has this name
    have hnil : values name fields = [] := by
      rw [List.eq_nil_iff_forall_not_mem]
      intro value hvalue
      rw [mem_values] at hvalue
      obtain ⟨pseudo, regular, rfl, hpseudos, hregulars, -⟩ := h.kept.order
      rcases List.mem_append.mp hvalue with hmem | hmem
      · exact hknown (hpseudos _ hmem)
      · exact hregulars _ hmem hname
    rw [hnil]
    exact Nat.zero_le 1

/-- A slot that holds a token holds the value of its pseudo-header. -/
theorem Slot.values_eq {parse : Bytes → Option Bytes} {token : Bytes} {vs : List Bytes}
    (htext : ∀ {bytes token}, parse bytes = some token → token = bytes)
    (h : Slot parse (some token) vs) : vs = [token] := by
  obtain ⟨v, rfl, hparse⟩ := h
  rw [htext hparse]

/-- **What a request accepted by `decode_request` may hold.** Its section decodes to fields in which
every pseudo-header occurs at most once and before every regular field, with no connection-specific
field and `te` only for trailers; the content lengths are digits and agree; the authority is one
value without userinfo, which at most one Host repeats; the path begins with `/` or is the `*` of
OPTIONS; only CONNECT has a protocol; and the fields' sizes add up to at most the limit. -/
theorem decodeRequest_admitted (http : Http) (fieldSection : Bytes) (limit : ℕ) (head : Head)
    (h : decodeRequest http fieldSection limit = .ok head) :
    ∃ fields, Qpack.decode Qpack.collect [] fieldSection = .ok fields ∧
      Admitted http limit fields head := by
  unfold decodeRequest at h
  obtain ⟨p, hdecode, hrequest⟩ := bind_eq_ok h
  obtain ⟨fields, hfields, hfold⟩ := Qpack.decode_collect hdecode
  -- each clause is read off what the visitor has seen once all fields went by
  have hseen : p.Seen http limit fields := seen_foldlM Pending.seen_empty hfold
  obtain ⟨hmethod, hpath, hprotocol, hauthority, hslash, hlength⟩ := Pending.request_eq_ok hrequest
  obtain ⟨huser, honce, hhosts, hagree, hsome⟩ := requestAuthority_eq_ok hauthority
  have hhost : ¬ IsPseudo (text "host") := by decide +kernel
  rw [hseen.kept.headers, values_filter hhost] at honce hhosts hsome
  have htoken : values (text ":method") fields = [head.message.method] := by
    have hslot := hseen.method
    rw [hmethod] at hslot
    exact hslot.values_eq http.method_text
  refine ⟨fields, hfields, ?_⟩
  exact {
    pseudo_once := fun name hname => hseen.pseudo_once hname
    pseudo_first := by
      obtain ⟨pseudo, regular, rfl, hpseudos, hregulars, -⟩ := hseen.kept.order
      exact ⟨pseudo, regular, rfl, fun f hf => (pseudoNames_plain _ (hpseudos f hf)).1, hregulars⟩
    connection := hseen.kept.connection
    te := hseen.kept.te
    content_length := by
      intro value hvalue
      obtain ⟨length, hparse, hkept⟩ := hseen.kept.lengths value hvalue
      unfold parseLength at hparse
      split at hparse
      · rename_i hdigits
        cases hparse
        exact ⟨hdigits.1, hdigits.2.1, hlength.trans hkept⟩
      · cases hparse
    authority := by
      have hslot := hseen.authority
      cases hslotEq : p.authority with
      | none =>
        rw [hslotEq] at hslot
        have hnil : values (text ":authority") fields = [] := hslot
        rw [hnil, List.nil_append]
        exact ⟨hsome hslotEq, hhosts, honce⟩
      | some authority =>
        rw [hslotEq] at hslot
        have hvalue := hslot.values_eq http.authority_text
        rw [hvalue]
        refine ⟨by simp, ?_, honce⟩
        intro value hmem
        rcases List.mem_append.mp hmem with hmem | hmem
        · rw [List.mem_singleton.mp hmem]
          exact hagree authority hslotEq
        · exact hhosts value hmem
    userinfo := huser
    path := by
      have hslot := hseen.path
      rw [hpath] at hslot
      refine ⟨hslot, ?_⟩
      rcases hslash with hslash | ⟨hoptions, hstar⟩
      · exact .inl hslash
      · exact .inr ⟨by rw [htoken, hoptions], hstar⟩
    protocol := by
      intro hne
      rcases hprotocol with hconnect | hnone
      · rw [htoken, hconnect]
      · have hslot := hseen.protocol
        rw [hnone] at hslot
        exact absurd hslot hne
    size := by
      rw [← hseen.kept.size]
      exact hseen.kept.within }

/-- The parsers on visible ASCII without a fragment, where each keeps the bytes it accepts. -/
def visibleHttp : Http where
  headerName bytes := if bytes.all fun b => (0x61 ≤ b ∧ b ≤ 0x7a) ∨ b = 0x2d then some bytes else none
  headerValue bytes := if bytes.all fun b => 0x20 ≤ b ∧ b < 0x7f then some bytes else none
  method bytes := if bytes ≠ [] ∧ bytes.all fun b => 0x41 ≤ b ∧ b ≤ 0x5a then some bytes else none
  scheme bytes := if bytes = text "http" ∨ bytes = text "https" then some bytes else none
  authority bytes :=
    if bytes ≠ [] ∧ bytes.all fun b => (0x61 ≤ b ∧ b ≤ 0x7a) ∨ b = 0x2e then some bytes else none
  pathAndQuery bytes := if bytes.head? = some 0x2f ∧ 0x23 ∉ bytes then some bytes else none
  fromParts _ _ _ := true
  headerName_text := by grind
  headerValue_text := by grind
  method_text := by grind
  authority_text := by grind

/-- A request with a repeated content length and a Host that agrees. -/
theorem decodeRequest_admitted_get :
    let fields : FieldList :=
      [(":method", "GET"), (":scheme", "https"), (":authority", "meter.example"), (":path", "/"),
        ("host", "meter.example"), ("content-length", "7"), ("content-length", "7")].map
        fun (name, value) => (text name, text value)
    let head : Head :=
      ⟨⟨text "GET", text "https", text "meter.example", text "/", fields.drop 4⟩, some 7, 322⟩
    decodeRequest visibleHttp (Qpack.encode fields) 4096 = .ok head ∧
      ∃ fields', Qpack.decode Qpack.collect [] (Qpack.encode fields) = .ok fields' ∧
        Admitted visibleHttp 4096 fields' head := by
  intro fields head
  have hlen : ∀ f ∈ fields, f.1.length < 2 ^ 35 ∧ f.2.length < 2 ^ 35 := by decide +kernel
  have hok : decodeRequest visibleHttp (Qpack.encode fields) 4096 = .ok head := by
    unfold decodeRequest
    rw [Qpack.decode_encode_foldlM _ _ _ fun f hf =>
      ⟨Nat.lt_of_le_of_lt (min_le_right _ _) (hlen f hf).1,
        Nat.lt_of_le_of_lt (min_le_right _ _) (hlen f hf).2⟩]
    decide +kernel
  exact ⟨hok, decodeRequest_admitted visibleHttp _ 4096 head hok⟩

end GraphiteMeter.Http3
