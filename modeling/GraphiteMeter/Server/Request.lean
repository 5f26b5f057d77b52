import Mathlib.Data.List.DropRight
import GraphiteMeter.Http3.Varint
import GraphiteMeter.Lib.IpAddr
import GraphiteMeter.Lib.Text

/-!
# Requests as the server sees them

Reference: `rust/server/src/peer.rs`, `rust/server/src/headers.rs`, `rust/server/src/app/mod.rs`.
The head of a request (the `http` crate's types by their text and bytes), the endpoint that accepted
it and the peer it is from.
-/

namespace GraphiteMeter.Server

open Http3 (Bytes)

/-! ## Header fields -/

/-- A field's name in lower case. -/
abbrev HeaderName := Text

abbrev HeaderValue := Bytes

namespace HeaderValue

/-- The value's text: `none` when a byte is no visible ASCII, space or tab. -/
def toStr (value : HeaderValue) : Option Text :=
  if value.all fun byte => 32 ≤ byte ∧ byte < 127 ∨ byte = 9 then
    some (value.map fun byte => Char.ofNat byte.toNat)
  else none

/-- The value a text makes: `none` when a byte is no visible ASCII, space or tab. -/
def fromStr (text : Text) : Option HeaderValue :=
  if text.all fun c => 32 ≤ c.toNat ∧ c.toNat < 127 ∨ c.toNat = 9 then
    some (text.map fun c => UInt8.ofNat c.toNat)
  else none

/-- A value is what its text is made of. -/
theorem eq_of_toStr {value : HeaderValue} {text : Text} (h : toStr value = some text) :
    value = text.map fun c => UInt8.ofNat c.toNat := by
  rw [toStr] at h
  split_ifs at h
  obtain rfl := Option.some.inj h
  rw [List.map_map]
  refine (List.map_id value).symm.trans (List.map_congr_left ?_)
  intro byte _
  have hlt := byte.toNat_lt
  have hchar : (Char.ofNat byte.toNat).toNat = byte.toNat := by
    rw [Char.ofNat, dif_pos (show byte.toNat.isValidChar from Or.inl (by omega))]
    rfl
  show byte = UInt8.ofNat (Char.ofNat byte.toNat).toNat
  rw [hchar, UInt8.ofNat_toNat]

/-- Two headers of the same text are the same. -/
theorem toStr_inj {value other : HeaderValue} {text : Text} (h : toStr value = some text)
    (hother : toStr other = some text) : value = other :=
  (eq_of_toStr h).trans (eq_of_toStr hother).symm

/-- A value made from a text has that text. -/
theorem toStr_of_fromStr {text : Text} {value : HeaderValue} (h : fromStr text = some value) :
    toStr value = some text := by
  rw [fromStr] at h
  split_ifs at h with hall
  obtain rfl := Option.some.inj h
  rw [List.all_eq_true] at hall
  have hbyte : ∀ c ∈ text, (UInt8.ofNat c.toNat).toNat = c.toNat := by
    intro c hc
    have := of_decide_eq_true (hall c hc)
    exact UInt8.toNat_ofNat_of_lt (show c.toNat < 256 by omega)
  have hvisible : (text.map fun c => UInt8.ofNat c.toNat).all
      fun byte => 32 ≤ byte ∧ byte < 127 ∨ byte = 9 := by
    rw [List.all_map, List.all_eq_true]
    intro c hc
    have hc' := of_decide_eq_true (hall c hc)
    refine decide_eq_true ?_
    rw [UInt8.le_iff_toNat_le, UInt8.lt_iff_toNat_lt, ← UInt8.toNat_inj, hbyte c hc]
    exact hc'
  rw [toStr, if_pos hvisible, List.map_map]
  congr 1
  refine (List.map_congr_left ?_).trans (List.map_id text)
  intro c hc
  show Char.ofNat (UInt8.ofNat c.toNat).toNat = c
  rw [hbyte c hc, Char.ofNat_toNat]

end HeaderValue

/-- The fields in the order they came. -/
abbrev HeaderMap := List (HeaderName × HeaderValue)

namespace HeaderMap

def getAll (headers : HeaderMap) (name : HeaderName) : List HeaderValue :=
  (headers.filter fun field => field.1 = name).map Prod.snd

/-- A field's first value. -/
def get (headers : HeaderMap) (name : HeaderName) : Option HeaderValue := (headers.getAll name).head?

def containsKey (headers : HeaderMap) (name : HeaderName) : Bool := (headers.get name).isSome

end HeaderMap

def authorization : HeaderName := "authorization".toList
def leaseHeader : HeaderName := "graphite-meter-lease".toList
def originHeader : HeaderName := "origin".toList
def secFetchSite : HeaderName := "sec-fetch-site".toList
def xCsrfToken : HeaderName := "x-csrf-token".toList
def accessControlRequestMethod : HeaderName := "access-control-request-method".toList
def accessControlRequestHeaders : HeaderName := "access-control-request-headers".toList
def xForwardedProto : HeaderName := "x-forwarded-proto".toList
def xForwardedHost : HeaderName := "x-forwarded-host".toList
def hostHeader : HeaderName := "host".toList
def cookieHeader : HeaderName := "cookie".toList

/-- What `str::trim` takes off a header's text. -/
def trim (t : Text) : Text :=
  let blank (c : Char) : Bool := c = ' ' ∨ c = '\t'
  (t.dropWhile blank).rdropWhile blank

/-- Reads a field that is present once with one comma-free value. -/
def single (headers : HeaderMap) (name : HeaderName) : Option Text :=
  match headers.getAll name with
  | [value] => do
    let value ← HeaderValue.toStr value
    if ',' ∈ value then none else some (trim value)
  | _ => none

/-! ## Requests -/

inductive Method where
  | get
  | head
  | post
  | put
  | delete
  | options
  | connect
  | patch
  | trace
  | extension (name : Text)
deriving DecidableEq, Repr

namespace Method

def asStr : Method → Text
  | .get => "GET".toList
  | .head => "HEAD".toList
  | .post => "POST".toList
  | .put => "PUT".toList
  | .delete => "DELETE".toList
  | .options => "OPTIONS".toList
  | .connect => "CONNECT".toList
  | .patch => "PATCH".toList
  | .trace => "TRACE".toList
  | .extension name => name

end Method

inductive Version where
  | http09
  | http10
  | http11
  | http2
  | http3
deriving DecidableEq, Repr

/-- A request's head. -/
structure Request where
  method : Method
  /-- The authority of its URI. -/
  authority : Option Text
  path : Text
  version : Version
  headers : HeaderMap

/-- The authority a request names: its URI's, else its `Host`, neither with credentials.
`parseAuthority` is the `http` crate's. -/
def authority (parseAuthority : Text → Bool) (request : Request) : Option Text :=
  let named : Option Text := do
    let value ← request.headers.get hostHeader
    let text ← HeaderValue.toStr value
    if parseAuthority text then some text else none
  (request.authority.or named).filter fun authority => '@' ∉ authority

/-! ## Endpoints and peers -/

/-- What accepted a connection: a TCP listener, HTTP/3's TCP companion or QUIC. -/
inductive Endpoint where
  | h1
  | h1Tls
  | h2
  | h3Companion
  | quic
deriving DecidableEq, Repr

/-- It serves the browser app and the authentication pages. -/
def Endpoint.ui : Endpoint → Bool
  | .h1 | .h1Tls => true
  | _ => false

inductive Address where
  /-- The socket peer is no trusted proxy. -/
  | socket (ip : IpAddr)
  /-- A trusted proxy sent this single `X-Real-IP`. -/
  | forwarded (ip : IpAddr)
  /-- A trusted proxy's request named no single client. -/
  | ambiguous (ip : IpAddr)
deriving DecidableEq, Repr

/-- The client of a request that has not been authorized. -/
structure Peer where
  address : Address
deriving DecidableEq, Repr

/-- Tells whether a trusted proxy says the client connected over TLS. -/
def Peer.forwardedTls (peer : Peer) (headers : HeaderMap) : Bool :=
  let proto := single headers xForwardedProto
  match peer.address with
  | .socket _ => false
  | _ => proto = some "https".toList ∨ proto = some "wss".toList

end GraphiteMeter.Server
