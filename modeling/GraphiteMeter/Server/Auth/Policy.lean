import GraphiteMeter.Proto.Origin
import GraphiteMeter.Proto.Route
import GraphiteMeter.Server.Auth.Store
import GraphiteMeter.Server.Request

/-!
# Which requests pass under authentication

Reference: `rust/server/src/auth/policy.rs`. `authorize` is the boundary: ambiguous fields, trust in
the connection, preflights, the controller's routes, then credentials and origins.

The store is locked once for the credentials and once for a CSRF proof, and other requests may run
in between, so what either finds is an argument. A refusal is represented by what its answer is made
of; how that is rendered is not modelled.
-/

namespace GraphiteMeter.Server.Auth

open Http3 (Bytes)
open Proto (Origin Scheme Route AuthRoute Kind)

/-- What the policy takes from elsewhere: the store's, how IPv6 addresses are read and printed, and
which texts the `http` crate parses as an authority. -/
structure PolicyEnv where
  store : Env
  ipv6 : Ipv6Text
  parseAuthority : Text → Bool

/-- The store as a call that locks it finds it. -/
structure Moment where
  state : State
  now : ℕ

inductive Trust where
  /-- TLS naming another hostname than the public origin's. -/
  | foreign
  | insecure
  | secure
  | canonical
deriving DecidableEq, Repr

/-- Whether the trust is `Trust::Secure` or more. -/
def Trust.isSecure : Trust → Bool
  | .foreign | .insecure => false
  | .secure | .canonical => true

/-- Who may read an answer from another origin. -/
inductive Access where
  | cookie (origin : HeaderValue)
  | bearer (origin : HeaderValue)
deriving DecidableEq, Repr

/-- What a refusal's answer is made of. -/
inductive Denial where
  | forbidden (secure : Bool)
  /-- The sign-in-required answer: whether it redirects, who may read it and whether it ends the
  connection. -/
  | required (root secure : Bool) (access : Option Access) (close : Bool)
  /-- A preflight's answer: who may read it, with the methods and fields it allows. -/
  | preflight (access : Access) (methods allowed : String) (secure : Bool)
deriving DecidableEq, Repr

/-- Serve it, as the lease's holder when signed in, or the policy's own answer. -/
abbrev Decision := Except Denial (Option AuthLease)

def AuthLease.browser (lease : AuthLease) : Option BrowserOrigin :=
  match lease.via with
  | .bearer browser => browser
  | .cookie => none

/-- The same sign-in, presented through `via`. -/
def AuthLease.presented (lease : AuthLease) (via : Via) : AuthLease := { lease with via }

/-- The sign-in a measurement lease keeps (`rust/server/src/admission.rs`): whoever presents the lease
presents it as a bearer, with the browser origin of the grant it was taken under. -/
def AuthLease.leased (lease : AuthLease) : AuthLease := lease.presented (.bearer lease.browser)

/-! ## Fields -/

/-- The fields a request may carry once. -/
def singles : List HeaderName :=
  [authorization, leaseHeader, originHeader, secFetchSite, xCsrfToken, accessControlRequestMethod,
    accessControlRequestHeaders]

/-- A field's first value: empty when absent, `none` when it is no text. -/
def text (headers : HeaderMap) (name : HeaderName) : Option Text :=
  match headers.get name with
  | none => some []
  | some value => HeaderValue.toStr value

def sameHost (first second : Text) : Bool :=
  Text.eqIgnoreAsciiCase (first.rdropWhile (· = '.')) (second.rdropWhile (· = '.'))

/-- An exact canonical HTTPS origin. -/
def BrowserOrigin.parse (ipv6 : Ipv6Text) (origin : HeaderValue) : Option BrowserOrigin := do
  let text ← HeaderValue.toStr origin
  let parsed ← Origin.parse ipv6 text
  if parsed.scheme = .https ∧ parsed.display ipv6 = text then some ⟨String.ofList text⟩ else none

/-- The preflight's requested headers in lower case, when each is `Content-Type` or one of
`allowed`. -/
def requested (headers : HeaderMap) (allowed : List Text) : Option (List Text) :=
  let names := ((text headers accessControlRequestHeaders).getD []).splitOn ','
  let names := (names.map fun name => (trim name).toAsciiLowercase).filter (· ≠ [])
  names.mapM fun name =>
    if name = "content-type".toList ∨ name ∈ allowed then some name else none

inductive Cookie where
  | session
  | login
  | csrf
  | device
  | transaction
deriving DecidableEq, Repr

def Cookie.name : Cookie → Text
  | .session => "__Host-gm_session".toList
  | .login => "__Host-gm_login".toList
  | .csrf => "__Host-gm_csrf".toList
  | .device => "__Host-gm_device".toList
  | .transaction => "__Host-gm_oidc".toList

def trimAscii (bytes : Bytes) : Bytes :=
  let blank (byte : UInt8) : Bool := byte ∈ [32, 9, 10, 12, 13]
  (bytes.dropWhile blank).rdropWhile blank

/-- A pair's name, and its value without the quotes around it. -/
def cookiePair (pair : Bytes) : Bytes × Bytes :=
  let pair := trimAscii pair
  let key := trimAscii (pair.takeWhile (· ≠ 61))
  let value := (pair.dropWhile (· ≠ 61)).drop 1
  let unquoted := (value.dropPrefix? [34]).bind fun value => value.dropSuffix? [34]
  (key, unquoted.getD value)

def validCookie (value : Bytes) : Bool :=
  value.all fun byte => 32 ≤ byte ∧ byte < 127 ∧ byte ∉ [34, 59, 92]

/-- Walks the pairs: invalid ones are skipped, and two valid ones are ambiguous. -/
def findCookie (name : Bytes) : ℕ → Option Bytes → List Bytes → Option Bytes
  | _, found, [] => found
  | index, found, pair :: pairs =>
    if index = 3000 then none
    else
      let (key, value) := cookiePair pair
      if key = name ∧ validCookie value then
        if found.isSome then none else findCookie name (index + 1) (some value) pairs
      else findCookie name (index + 1) found pairs

/-- The cookie's value. -/
def cookie (headers : HeaderMap) (cookie : Cookie) : Option String :=
  let pairs := (headers.getAll cookieHeader).flatMap fun value => value.splitOn 59
  let name := cookie.name.map fun c => UInt8.ofNat c.toNat
  (findCookie name 0 none pairs).map fun value =>
    String.ofList (value.map fun byte => Char.ofNat byte.toNat)

/-! ## Routes -/

def authRoute (method path : Text) : Option AuthRoute :=
  (AuthRoute.findByPath path).filter fun route => route.method = method

/-- Whether `path` lies in the sign-in controller's namespace, a route there or not. -/
def controls (path : Text) : Bool :=
  path = AuthRoute.path .login ∨ (path.dropPrefix? "/auth/".toList).isSome

/-! ## The policy -/

structure Policy where
  publicOrigin : Origin
  origin : HeaderValue
  login : HeaderValue
  password : Bool
  oidc : Bool
deriving DecidableEq

namespace Policy

/-- The policy of a public origin and the sign-in methods it offers. -/
def new (ipv6 : Ipv6Text) (publicOrigin : Origin) (password oidc : Bool) : Option Policy := do
  let origin := publicOrigin.display ipv6
  let login ← HeaderValue.fromStr (origin ++ AuthRoute.path .login)
  let origin ← HeaderValue.fromStr origin
  some ⟨publicOrigin, origin, login, password, oidc⟩

/-- The public origin's text. -/
def publicText (policy : Policy) : Text := (HeaderValue.toStr policy.origin).getD []

/-- Takes every leading `pattern` off. -/
def trimStartMatches (pattern t : Text) : Text :=
  (fun rest : Text => (rest.dropPrefix? pattern).getD rest)^[t.length] t

def trust (env : PolicyEnv) (policy : Policy) (request : Request) (endpoint : Endpoint)
    (peer : Peer) : Trust :=
  let named := trimStartMatches "https://".toList policy.publicText
  if endpoint ≠ .h1 then
    let asked := (authority env.parseAuthority request).getD []
    let host := (Origin.parse env.ipv6 ("https://".toList ++ asked)).map Origin.host
    if host ≠ some policy.publicOrigin.host then .foreign
    else if sameHost asked named then .canonical
    else .secure
  else if peer.forwardedTls request.headers ∧
      (single request.headers xForwardedHost).any fun host => sameHost host named then
    .canonical
  else .insecure

/-- Whether `method` reaches `path` without a session: the sign-in pages and their fonts, and the
token exchanges. -/
def isPublic (policy : Policy) (method : Method) (path : Text) : Bool :=
  let sans := "/fonts/ibm-plex-sans-var-latin1.woff2".toList
  let mono := "/fonts/ibm-plex-mono-600-latin1.woff2".toList
  if (method = .get ∨ method = .head) ∧ (path = sans ∨ path = mono) then true
  else
    match authRoute method.asStr path with
    | none => false
    | some route =>
      match route with
      | .login | .cli | .browser | .cliToken | .browserToken => true
      | .password => policy.password
      | .oidcStart | .oidcCallback => policy.oidc
      | .session | .cliApprove | .browserApprove | .logout => false

/-! ### Answers -/

/-- The sign-in-required answer, readable by the public or a measuring browser origin; the app root
redirects. -/
def required (env : PolicyEnv) (policy : Policy) (request : Request) (endpoint : Endpoint)
    (secure : Bool) : Denial :=
  let root : Bool := endpoint.ui ∧ request.method = .get ∧ request.path = "/".toList
  let origin := request.headers.get originHeader
  let access :=
    if origin = some policy.origin then some (.cookie policy.origin)
    else if (origin.bind (BrowserOrigin.parse env.ipv6)).isSome ∧
        (Route.findByPath request.path).isSome then
      origin.map .bearer
    else none
  let close := match request.version with
    | .http09 | .http10 | .http11 => true
    | .http2 | .http3 => false
  .required root secure access close

/-- Preflights: the browser token exchange, a browser grant's measurement routes, else the public
origin's. -/
def preflight (env : PolicyEnv) (policy : Policy) (headers : HeaderMap) (route : Option Route)
    (trust : Trust) : Denial :=
  let secure := trust.isSecure
  let sent := headers.get originHeader
  -- A browser origin keeps the value it was parsed from.
  let origin := sent.filter fun value => (BrowserOrigin.parse env.ipv6 value).isSome
  let method := (text headers accessControlRequestMethod).getD []
  let allowed : Bool := route.any fun route => method ∈ route.methods
  let measurement := "GET, POST, DELETE, OPTIONS"
  let names := requested headers ["authorization".toList, leaseHeader]
  match route, origin with
  | none, some origin =>
    if trust = .canonical ∧ method = "POST".toList ∧ (requested headers []).isSome then
      .preflight (.bearer origin) "POST" "Content-Type" secure
    else .forbidden secure
  | none, none => .forbidden secure
  | some route, origin =>
    if secure ∧ (origin.any fun origin => origin ≠ policy.origin) ∧ route ≠ .servers then
      if ¬allowed ∨ ¬names.any (fun names => "authorization".toList ∈ names) then .forbidden secure
      else
        .preflight (.bearer (origin.getD [])) measurement
          "Authorization, Content-Type, Graphite-Meter-Lease" secure
    else if secure ∧ sent = some policy.origin ∧ allowed then
      if requested headers ["authorization".toList, "x-csrf-token".toList, leaseHeader] = none then
        .forbidden secure
      else
        .preflight (.cookie policy.origin) measurement
          "Authorization, Content-Type, Graphite-Meter-Lease, X-CSRF-Token" secure
    else .forbidden secure

/-! ### Credentials and origins -/

/-- The lease of the grant whose token `Authorization` bears. -/
def bearer (env : PolicyEnv) (store : Moment) (headers : HeaderMap) : Option AuthLease := do
  let value ← headers.get authorization
  let credentials ← HeaderValue.toStr value
  let token ← credentials.dropPrefix? "Bearer ".toList
  store.state.bearer env.store (String.ofList token) store.now

/-- The lease of the login whose session cookie the request carries. -/
def cookieLease (env : PolicyEnv) (store : Moment) (headers : HeaderMap) :
    Option AuthLease × State :=
  match cookie headers .session with
  | none => (none, store.state)
  | some token => store.state.cookie env.store token store.now

/-- A bearer grant once `Authorization` is present, else the cookie. -/
def authenticate (env : PolicyEnv) (store : Moment) (headers : HeaderMap) :
    Option AuthLease × State :=
  if headers.containsKey authorization then (bearer env store headers, store.state)
  else cookieLease env store headers

/-- The lease a request is served under: a WebTransport session's grant comes before the measurement
lease it presents, any other request's credentials after it. -/
def credentials (env : PolicyEnv) (store : Moment) (request : Request) (endpoint : Endpoint)
    (route : Option Route) (leased : Option AuthLease) : Option AuthLease × State :=
  let session : Bool := endpoint = .quic ∧ route.any fun route => route.kind = .webTransport
  if request.method = .connect ∧ session then
    ((bearer env store request.headers).or leased, store.state)
  else
    match leased with
    | some lease => (some lease, store.state)
    | none => authenticate env store request.headers

/-- Origin rules: browser grants serve only their origin's measurement routes; unsafe cookie
requests prove CSRF. -/
def validOrigin (policy : Policy) (store : Moment) (request : Request) (route : Option Route)
    (lease : AuthLease) : Bool :=
  match text request.headers originHeader with
  | none => false
  | some origin =>
    match lease.browser with
    | some browser => origin = browser.header.toList ∧ route.any fun route => route ≠ .servers
    | none =>
      if origin ≠ [] ∧ origin ≠ policy.publicText then false
      else if lease.via ≠ .cookie then true
      else
        let ours : Bool := origin = policy.publicText
        let site := text request.headers secFetchSite
        let near : Bool := site = some [] ∨ site = some "same-origin".toList ∨
          site = some "none".toList ∨ site = some "same-site".toList ∧ ours
        let read : Bool := request.method = .get ∨ request.method = .head
        let sameOrigin : Bool := site = some "same-origin".toList
        if ¬near then false
        else if route.isSome ∧ read ∧ ¬ours ∧ ¬sameOrigin ∨
            (route.any fun route => route.kind = .webSocket) ∧ ¬ours then false
        else if read ∨ request.method = .options then true
        else
          let proof : Bool := (text request.headers xCsrfToken).any fun proof =>
            store.state.csrf lease.login (String.ofList proof) store.now
          ours ∧ (route = none ∨ proof)

/-- Whether a bearer's lease is used where none is served. -/
def misplaced (route : Option Route) (lease : AuthLease) : Bool :=
  match lease.via with
  | .bearer browser => route = none ∨ browser.isSome ∧ route = some .servers
  | .cookie => false

/-- The boundary: ambiguous fields, trust, preflights, the controller's routes, then credentials and
origins. `found` is the store the credentials are looked up in and `proved` the one a CSRF proof is
checked against. -/
def authorize (env : PolicyEnv) (policy : Policy) (found proved : Moment) (request : Request)
    (endpoint : Endpoint) (peer : Peer) (leased : Option AuthLease) : Decision × State :=
  if singles.any fun name => 1 < (request.headers.getAll name).length then
    (.error (.forbidden false), found.state)
  else
    let trust := policy.trust env request endpoint peer
    let secure := trust.isSecure
    let route := Route.findByPath request.path
    if trust = .foreign then (.error (policy.required env request endpoint false), found.state)
    else if request.method = .options ∧
        (route.isSome ∨ request.path = AuthRoute.path .browserToken) then
      (.error (policy.preflight env request.headers route trust), found.state)
    else if controls request.path ∧ (¬endpoint.ui ∨ trust ≠ .canonical) then
      (.error (.forbidden secure), found.state)
    else if endpoint.ui ∧ policy.isPublic request.method request.path then
      if trust = .canonical then (.ok none, found.state)
      else (.error (policy.required env request endpoint secure), found.state)
    else if ¬secure then (.error (policy.required env request endpoint false), found.state)
    else
      match credentials env found request endpoint route leased with
      | (none, state) => (.error (policy.required env request endpoint true), state)
      | (some lease, state) =>
        if misplaced route lease ∨ ¬policy.validOrigin proved request route lease then
          (.error (.forbidden true), state)
        else (.ok (some lease), state)

end Policy

end GraphiteMeter.Server.Auth
