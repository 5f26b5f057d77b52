import GraphiteMeter.Http3.Qpack.Codec

/-!
# Messages as field sections

Reference: `rust/http3/src/fields.rs` (RFC 9114 §4.2–4.3, RFC 9220).

`decodeRequest` and `decodeResponse` visit a section field by field and put the message together at the
end; `encodeRequest` and `encodeResponse` check the size of the fields before they write any. The
types of the `http` crate are represented by their text: a parser takes bytes to the text of what it
accepts, and `Http` holds the parsers with what their documentation promises about that text.
-/

namespace GraphiteMeter.Http3

open Qpack (Invalid)

/-- The bytes of a text. -/
def text (s : String) : Bytes := s.toUTF8.toList

/-- The parsers of the `http` crate. A name, a value, a method and an authority keep the bytes they
were parsed from; a path may be cut (`as_str` drops a fragment, and reads an empty path as `/`). -/
structure Http where
  /-- `HeaderName::from_lowercase`. -/
  headerName : Bytes → Option Bytes
  /-- `HeaderValue::from_bytes`. -/
  headerValue : Bytes → Option Bytes
  /-- `Method::from_bytes`. -/
  method : Bytes → Option Bytes
  /-- `uri::Scheme::try_from`. -/
  scheme : Bytes → Option Bytes
  /-- `uri::Authority::try_from`. -/
  authority : Bytes → Option Bytes
  /-- `uri::PathAndQuery::try_from`. -/
  pathAndQuery : Bytes → Option Bytes
  /-- `Uri::from_parts` accepts a scheme, an authority and a path. -/
  fromParts : Bytes → Bytes → Bytes → Bool
  headerName_text : ∀ {bytes name}, headerName bytes = some name → name = bytes
  headerValue_text : ∀ {bytes value}, headerValue bytes = some value → value = bytes
  method_text : ∀ {bytes token}, method bytes = some token → token = bytes
  authority_text : ∀ {bytes name}, authority bytes = some name → name = bytes

/-! ## Regular fields -/

/-- What the visitor keeps of the fields: the regular ones in order, and the content length and the
size they add up to. -/
structure Fields where
  headers : List (Bytes × Bytes)
  contentLength : Option ℕ
  size : ℕ
  /-- A regular field has been seen. -/
  regular : Bool
deriving DecidableEq, Repr

/-- A field's size as the field section limit counts it (RFC 9114 §4.2.2). -/
def fieldSize (name value : Bytes) : ℕ := name.length + value.length + 32

/-- Specific to an HTTP/1.1 connection. -/
def connectionSpecific (name : Bytes) : Bool :=
  name ∈ ["connection", "keep-alive", "proxy-connection", "transfer-encoding", "upgrade"].map text

/-- A regular field: lowercase, valid, and not specific to an HTTP/1.1 connection. -/
def regularField (http : Http) (name value : Bytes) : Except Invalid (Bytes × Bytes) :=
  match http.headerName name with
  | none => .error .malformed
  | some name =>
    if connectionSpecific name ∨ (name = text "te" ∧ value ≠ text "trailers") then
      .error .malformed
    else
      match http.headerValue value with
      | none => .error .malformed
      | some value => .ok (name, value)

def isAsciiDigit (byte : UInt8) : Bool := 0x30 ≤ byte && byte ≤ 0x39

/-- The number that decimal digits denote. -/
def decimal (digits : Bytes) : ℕ :=
  digits.foldl (fun value digit => value * 10 + (digit.toNat - 0x30)) 0

/-- A content length is all digits and fits in 64 bits. Digits are text, so the source's conversion to
a string refuses nothing more. -/
def parseLength (value : Bytes) : Option ℕ :=
  if value ≠ [] ∧ value.all isAsciiDigit ∧ decimal value < 2 ^ 64 then some (decimal value) else none

namespace Fields

def empty : Fields := ⟨[], none, 0, false⟩

/-- Counts a field against the limit before any of it is kept. The source's `u64` holds the sum: one
byte of a section makes at most two hundred of it. -/
def count (f : Fields) (name value : Bytes) (limit : ℕ) : Except Invalid Fields :=
  let size := f.size + fieldSize name value
  if limit < size then .error .tooLarge else .ok { f with size }

/-- A pseudo-header comes before every regular field. -/
def pseudo (f : Fields) : Except Invalid Unit :=
  if f.regular then .error .malformed else .ok ()

/-- Keeps a regular field. All content lengths agree. -/
def putRegular (http : Http) (f : Fields) (name value : Bytes) : Except Invalid Fields :=
  match regularField http name value with
  | .error invalid => .error invalid
  | .ok (name, value) =>
    if name = text "content-length" then
      match parseLength value with
      | none => .error .malformed
      | some length =>
        if f.contentLength.getD length ≠ length then .error .malformed
        else .ok { f with
          headers := f.headers ++ [(name, value)], contentLength := some length, regular := true }
    else .ok { f with headers := f.headers ++ [(name, value)], regular := true }

end Fields

/-! ## Requests -/

/-- Sets a pseudo-header once; a repeat or an invalid value is malformed. -/
def set {T : Type} (slot value : Option T) : Except Invalid (Option T) :=
  match slot, value with
  | none, some value => .ok (some value)
  | _, _ => .error .malformed

/-- A message under way: its fields and the pseudo-headers seen. -/
structure Pending where
  fields : Fields
  method : Option Bytes
  scheme : Option Bytes
  authority : Option Bytes
  path : Option Bytes
  /-- Whether the protocol is one of WebTransport's. -/
  protocol : Option Bool
deriving DecidableEq, Repr

def Pending.empty : Pending := ⟨.empty, none, none, none, none, none⟩

/-- The visitor of `decode_request`. -/
def Pending.visit (http : Http) (limit : ℕ) (p : Pending) (name value : Bytes) :
    Except Invalid Pending := do
  let fields ← p.fields.count name value limit
  if name = text ":method" then
    let method ← set p.method (http.method value)
    fields.pseudo
    .ok { p with fields, method }
  else if name = text ":scheme" then
    let scheme ← set p.scheme (http.scheme value)
    fields.pseudo
    .ok { p with fields, scheme }
  else if name = text ":authority" then
    let authority ← set p.authority (http.authority value)
    fields.pseudo
    .ok { p with fields, authority }
  else if name = text ":path" then
    let path ← set p.path (http.pathAndQuery value)
    fields.pseudo
    .ok { p with fields, path }
  else if name = text ":protocol" then
    let protocol ← set p.protocol
      (some (decide (value = text "webtransport" ∨ value = text "webtransport-h3")))
    fields.pseudo
    .ok { p with fields, protocol }
  else if name.head? = some 0x3a then .error .malformed
  else
    let fields ← fields.putRegular http name value
    .ok { p with fields }

/-- A request, with the parts of its URI. -/
structure Request where
  method : Bytes
  scheme : Bytes
  authority : Bytes
  path : Bytes
  headers : List (Bytes × Bytes)
deriving DecidableEq, Repr

/-- A decoded request head and the field section size (RFC 9114 §4.2.2) it was checked against. -/
structure Head where
  message : Request
  contentLength : Option ℕ
  size : ℕ
deriving DecidableEq, Repr

/-- The match of `request_authority` over `:authority` and the Host fields: two Hosts, none of
either, or a Host that differs are malformed. -/
def agreedAuthority (http : Http) : Option Bytes → List Bytes → Except Invalid Bytes
  | _, _ :: _ :: _ => .error .malformed
  | none, [] => .error .malformed
  | some authority, [host] => if authority ≠ host then .error .malformed else .ok authority
  | some authority, [] => .ok authority
  | none, [host] =>
    match http.authority host with
    | none => .error .malformed
    | some authority => .ok authority

/-- Host may stand in for :authority and must agree with it (RFC 9114 §4.3.1); neither carries
userinfo. -/
def requestAuthority (http : Http) (authority : Option Bytes) (headers : List (Bytes × Bytes)) :
    Except Invalid Bytes := do
  let hosts := (headers.filter (·.1 = text "host")).map (·.2)
  let authority ← agreedAuthority http authority hosts
  if 0x40 ∈ authority then .error .malformed else .ok authority

/-- A required pseudo-header. -/
def required {T : Type} : Option T → Except Invalid T
  | none => .error .malformed
  | some value => .ok value

/-- CONNECT must be WebTransport's extended form: plain CONNECT and other protocols are unsupported,
and no other method has a protocol. -/
def checkProtocol (p : Pending) (method : Bytes) : Except Invalid Unit :=
  if method = text "CONNECT" then
    let extended := p.scheme.isSome && p.path.isSome && p.authority.isSome
    match p.protocol, extended with
    | some true, true => .ok ()
    | some _, true => .error .unsupported
    | none, _ =>
      if p.authority.isSome && p.scheme.isNone && p.path.isNone then .error .unsupported
      else .error .malformed
    | _, _ => .error .malformed
  else if p.protocol.isSome then .error .malformed
  else .ok ()

/-- Puts a request together from what the visitor has seen. -/
def Pending.request (http : Http) (p : Pending) : Except Invalid Head := do
  let method ← required p.method
  checkProtocol p method
  let authority ← requestAuthority http p.authority p.fields.headers
  let path ← required p.path
  if path.head? ≠ some 0x2f ∧ ¬ (method = text "OPTIONS" ∧ path = text "*") then .error .malformed
  let scheme ← required p.scheme
  if http.fromParts scheme authority path then
    .ok ⟨⟨method, scheme, authority, path, p.fields.headers⟩, p.fields.contentLength,
      p.fields.size⟩
  else .error .malformed

/-- A request the routes serve. Plain CONNECT and other extended CONNECT protocols are unsupported. -/
def decodeRequest (http : Http) (fieldSection : Bytes) (limit : ℕ) : Except Invalid Head := do
  let p ← Qpack.decode (Pending.visit http limit) Pending.empty fieldSection
  p.request http

/-! ## Responses -/

structure Response where
  status : Bytes
  headers : List (Bytes × Bytes)
deriving DecidableEq, Repr

/-- A decoded response head. -/
structure ResponseHead where
  message : Response
  contentLength : Option ℕ
  size : ℕ
deriving DecidableEq, Repr

/-- A response under way. -/
structure PendingResponse where
  fields : Fields
  status : Option Bytes
deriving DecidableEq, Repr

def PendingResponse.empty : PendingResponse := ⟨.empty, none⟩

section

variable (http : Http) (statusCode : Bytes → Option Bytes)

/-- The visitor of `decode_response`, where `statusCode` is `StatusCode::from_bytes`. HTTP/3 has no 101
(RFC 9114 §4.5), so a head that claims it is malformed. -/
def PendingResponse.visit (limit : ℕ) (p : PendingResponse) (name value : Bytes) :
    Except Invalid PendingResponse := do
  let fields ← p.fields.count name value limit
  if name = text ":status" ∧ value ≠ text "101" then
    let status ← set p.status (statusCode value)
    fields.pseudo
    .ok { fields, status }
  else if name.head? = some 0x3a then .error .malformed
  else
    let fields ← fields.putRegular http name value
    .ok { p with fields }

def decodeResponse (fieldSection : Bytes) (limit : ℕ) : Except Invalid ResponseHead := do
  let p ← Qpack.decode (PendingResponse.visit http statusCode limit) PendingResponse.empty fieldSection
  let status ← required p.status
  .ok ⟨⟨status, p.fields.headers⟩, p.fields.contentLength, p.fields.size⟩

end

/-! ## Encoding -/

/-- The fields that are sent: the pseudo-headers, then those not specific to HTTP/1.1. -/
def sentFields (pseudo headers : List (Bytes × Bytes)) : List (Bytes × Bytes) :=
  pseudo ++ headers.filter fun field => !connectionSpecific field.1

/-- The section of the fields, if they are within the limit. -/
def encode (pseudo headers : List (Bytes × Bytes)) (limit : Option ℕ) : Except Invalid Bytes :=
  let fields := sentFields pseudo headers
  let size := (fields.map fun field => fieldSize field.1 field.2).sum
  if limit.any (· < size) then .error .tooLarge else .ok (Qpack.encode fields)

/-- A request to be sent, with the parts its URI has. -/
structure RequestParts where
  method : Bytes
  scheme : Option Bytes
  authority : Option Bytes
  pathAndQuery : Option Bytes
  headers : List (Bytes × Bytes)
deriving DecidableEq, Repr

/-- The pseudo-headers of a request, the last of them for a protocol. -/
def requestPseudo (request : RequestParts) (scheme authority : Bytes) (protocol : Option Bytes) :
    List (Bytes × Bytes) :=
  [(text ":method", request.method), (text ":scheme", scheme), (text ":authority", authority),
    (text ":path", request.pathAndQuery.getD (text "/")), (text ":protocol", protocol.getD [])].take
      (if protocol.isSome then 5 else 4)

def encodeRequest (request : RequestParts) (protocol : Option Bytes) (limit : Option ℕ) :
    Except Invalid Bytes := do
  let scheme ← required request.scheme
  let authority ← required request.authority
  encode (requestPseudo request scheme authority protocol) request.headers limit

def encodeResponse (response : Response) (limit : Option ℕ) : Except Invalid Bytes :=
  encode [(text ":status", response.status)] response.headers limit

end GraphiteMeter.Http3
