import GraphiteMeter.Server.Auth.Store

/-!
# Sign-in approvals

Reference: `rust/server/src/auth/approval.rs`. A terminal or browser asks with a challenge, the
operator approves, the verifier earns a grant.

A handler here is the part of the source's that runs with the store locked; what it resolved before
(its cookie's lease, its form's CSRF proof, the rate limiter's answer) comes as an argument. Each
gives its answer, the state and the events it logs.
-/

namespace GraphiteMeter.Server.Auth

open Http3 (Bytes)

/-- Two minutes. -/
def approvalLifetime : ℕ := 2 * 60 * 10 ^ 9

/-- How long an issued grant answers its verifier again, for an exchange whose answer was lost. -/
def replay : ℕ := 30 * 10 ^ 9

def maxApprovals : ℕ := 256

def maxLoginApprovals : ℕ := 8

def maxClientApprovals : ℕ := 8

def maxVerifier : ℕ := 128

def minBrowserVerifier : ℕ := 32

/-! ## Challenges -/

/-- RFC 4648 base32. -/
def base32 : List Char := "ABCDEFGHIJKLMNOPQRSTUVWXYZ234567".toList

/-- The digest's first five bytes in unpadded base32. A challenge that is no S256 digest gives
`none`. -/
def verificationCode (env : Env) (challenge : String) : Option String :=
  if 64 < challenge.utf8ByteSize then none
  else
    match env.decode challenge with
    | none => none
    | some digest =>
      if digest.length = 32 then
        let bits := (digest.take 5).foldl (fun bits byte => bits <<< 8 ||| byte.toNat) 0
        let code := (List.range 8).reverse.map fun group =>
          base32.getD (bits >>> (5 * group) &&& 31) 'A'
        some (String.ofList code)
      else none

namespace Challenge

def parse (env : Env) (text : String) : Option Challenge :=
  (verificationCode env text).map fun code => ⟨text, code⟩

/-- The S256 challenge of `verifier`, its SHA-256 digest in unpadded base64url. -/
def of (env : Env) (verifier : String) : Option Challenge :=
  parse env (env.encode (env.digest verifier))

end Challenge

/-! ## Answers and events -/

inductive Answer where
  | refusedLink
  | refusedBusy
  | toBrowser (challenge : Challenge) (origin : BrowserOrigin)
  | signIn (challenge : Challenge)
  /-- A navigation from another site reenters with the session cookie. -/
  | continuing (challenge : Challenge)
  /-- The approval page, with the login's CSRF token. -/
  | page (challenge : Challenge)
  | capacity
  | forbidden
  | done
  | pending
  | gone
  | tooManyRequests
  | token (token : String) (expires : ℕ)
deriving DecidableEq, Repr

inductive Event where
  | signedIn (login : Digest) (csrf : String)
  /-- A form proved the login's CSRF token. -/
  | proved (login : Digest) (csrf : String)
  | opened (serial : ℕ) (challenge : Challenge) (origin : Option BrowserOrigin) (deadline : ℕ)
  | claimed (serial : ℕ) (login : Digest)
  /-- The login approved at `now`, with the proof of `csrf`. -/
  | approved (serial : ℕ) (login : Digest) (csrf : String) (now : ℕ)
  /-- `issue` created a grant of `login` for the holder of `verifier` at `origin`. -/
  | granted (serial : ℕ) (login : Digest) (verifier : String) (origin : Option BrowserOrigin)
      (token : String)
  /-- `issue` succeeded with `token`. -/
  | answered (serial : ℕ) (token : String)
deriving DecidableEq

/-- Whether a grant was created. -/
def Event.grants : Event → Bool
  | .granted .. => true
  | _ => false

namespace State

/-! ## Room -/

/-- Room for one more approval: within its login's grants, the server bounds and the client's
share. -/
structure Room where
  login : Bool
  shared : Bool
deriving DecidableEq, Repr

/-- Tells if `keys`' client holds its share of `limit`, as `held` counts per key. -/
def shareFull (keys : ClientKeys) (limit : ℕ) (held : ClientKey → ℕ) : Bool :=
  (keys.shares limit).any fun (key, share) => share ≤ held key

/-- The room for one more approval of `login`; before sign-in at most half the server's approvals. -/
def approvalRoom (s : State) (login : Option Digest) (keys : ClientKeys) : Room :=
  -- An issued approval is bounded by its live grant, so only pending ones count.
  let pending := (s.approvals.entries.map Sigma.snd).filter fun approval => !approval.issued
  let held := pending.countP fun approval => approval.login = login
  let client (key : ClientKey) := pending.countP fun approval => approval.clients.contains key
  let total := pending.length < maxApprovals ∧ (login.isSome ∨ held < maxApprovals / 2)
  { login := held < maxLoginApprovals
    shared := total ∧ ¬ shareFull keys maxClientApprovals client }

def pending (s : State) (challenge : Challenge) (now : ℕ) : Option Approval :=
  (s.approvals.lookup challenge).filter fun approval => now < approval.deadline

/-- Opens an approval, claimed at once by a login that is there. -/
def openApproval (s : State) (challenge : Challenge) (browser : Option BrowserOrigin)
    (keys : ClientKeys) (login : Option Digest) (now serial : ℕ) : State :=
  { s with
    approvals := s.approvals.insert challenge
      { browser
        clients := keys.iter
        stage := login.elim .open .claimed
        deadline := now + approvalLifetime
        serial } }

/-! ## Handlers -/

/-- `GET /auth/cli`: the signed-in login's approval page for a terminal's challenge. The clock is
read when the approval is looked up, when the state is swept, and when an approval is opened. -/
def cliPage (env : Env) (s : State) (lease : Option AuthLease) (text : String)
    (keys : Option ClientKeys) (serial looked swept opened : ℕ) : Answer × State × List Event :=
  match Challenge.parse env text with
  | none => (.refusedLink, s, [])
  | some challenge =>
    let found := s.pending challenge looked
    match found.bind Approval.browser with
    | some origin => (.toBrowser challenge origin, s, [])
    | none =>
      match lease with
      | none => (.signIn challenge, s, [])
      | some lease =>
        match keys with
        | none => (.refusedBusy, s, [])
        | some keys =>
          match found with
          | some approval =>
            if approval.issued ∨ approval.login ≠ some lease.login then (.refusedLink, s, [])
            else (.page challenge, s, [])
          | none =>
            let s := s.sweep swept
            let room := s.approvalRoom (some lease.login) keys
            if room.login ∧ room.shared then
              (.page challenge, s.openApproval challenge none keys (some lease.login) opened serial,
                [.opened serial challenge none (opened + approvalLifetime),
                 .claimed serial lease.login])
            else (.refusedBusy, s, [])

/-- The page a login that may approve is given, unless its grants are full. -/
def approvalPage (s : State) (login : Digest) (challenge : Challenge) : Answer :=
  if maxLoginGrants ≤ s.grantsOf login then .capacity else .page challenge

/-- The second half of `browserPage`, with the approval there: a login claims an open one. -/
def claimBrowser (s : State) (lease : Option AuthLease) (challenge : Challenge)
    (origin : BrowserOrigin) (keys : ClientKeys) (crossSite : Bool) : Answer × State × List Event :=
  match s.approvals.lookup challenge with
  | none => (.refusedLink, s, [])
  | some approval =>
    if approval.browser ≠ some origin ∨ approval.issued then (.refusedLink, s, [])
    else
      match lease with
      | none => (if crossSite then .continuing challenge else .signIn challenge, s, [])
      | some lease =>
        match approval.stage with
        | .open =>
          if (s.approvalRoom (some lease.login) keys).login then
            let approval := { approval with stage := .claimed lease.login }
            (s.approvalPage lease.login challenge,
              { s with approvals := s.approvals.insert challenge approval },
              [.claimed approval.serial lease.login])
          else (.refusedBusy, s, [])
        | .claimed login | .approved login =>
          if login ≠ lease.login then (.refusedLink, s, [])
          else (s.approvalPage lease.login challenge, s, [])
        | .issued _ => (.refusedLink, s, [])

/-- `GET /auth/browser`: the approval page for a browser origin's challenge, opened before sign-in
when need be. `keys` are the client's if the rate limiter let it through. -/
def browserPage (env : Env) (s : State) (lease : Option AuthLease) (text : String)
    (origin : BrowserOrigin) (keys : Option ClientKeys) (crossSite : Bool)
    (serial looked swept opened : ℕ) : Answer × State × List Event :=
  match Challenge.parse env text with
  | none => (.refusedLink, s, [])
  | some challenge =>
    match keys with
    | none => (.refusedBusy, s, [])
    | some keys =>
      match s.pending challenge looked with
      | some _ => s.claimBrowser lease challenge origin keys crossSite
      | none =>
        let s := s.sweep swept
        if (s.approvalRoom (lease.map AuthLease.login) keys).shared then
          let s := s.openApproval challenge (some origin) keys none opened serial
          let (answer, s, events) := s.claimBrowser lease challenge origin keys crossSite
          (answer, s, .opened serial challenge (some origin) (opened + approvalLifetime) :: events)
        else (.refusedBusy, s, [])

/-- `POST /auth/{cli,browser}/approve`: the approval by `login`, whose form proved `csrf`. -/
def approve (env : Env) (s : State) (login : Digest) (csrf text : String) (browser : Bool)
    (now : ℕ) : Answer × State × List Event :=
  match Challenge.parse env text with
  | none => (.forbidden, s, [])
  | some challenge =>
    match s.approvals.lookup challenge with
    | none => (.forbidden, s, [])
    | some approval =>
      if now < approval.deadline ∧ approval.login = some login ∧
          approval.browser.isSome = browser ∧ approval.issued = false then
        if browser ∧ maxLoginGrants ≤ s.grantsOf login then (.capacity, s, [])
        else
          (.done,
            { s with
              approvals := s.approvals.insert challenge { approval with stage := .approved login } },
            [.approved approval.serial login csrf now])
      else (.forbidden, s, [])

/-- The approval of `challenge` becomes a grant. -/
def becomeGrant (env : Env) (s : State) (challenge : Challenge) (login : Digest) (token : String)
    (now : ℕ) : State :=
  match s.approvals.lookup challenge with
  | none => s
  | some approval =>
    let issued : Issued := ⟨login, env.digest token, some token, now + replay⟩
    { s with
      approvals := s.approvals.insert challenge
        { approval with deadline := max approval.deadline (now + replay), stage := .issued issued } }

/-- Issues the grant an approved challenge of `verifier` holds for `origin`, the same one again
briefly. The clock is read when the state is swept, when the approval is looked up, and twice when
its login is. -/
def issue (env : Env) (s : State) (verifier : String) (origin : Option BrowserOrigin)
    (credentials : Credentials) (now looked owned granted : ℕ) : Answer × State × List Event :=
  match Challenge.of env verifier with
  | none => (.pending, s, [])
  | some challenge =>
    let s := s.sweep now
    match (s.pending challenge looked).filter fun approval => approval.browser = origin with
    | none => (.pending, s, [])
    | some approval =>
      match approval.login with
      | none => (.pending, s, [])
      | some login =>
        match s.login login owned with
        | none => (.pending, s, [])
        | some owner =>
          match approval.stage with
          -- A lost answer is asked again with the same verifier, so it gets the same grant.
          | .issued ⟨_, _, some token, _⟩ =>
            (.token token owner.expires, s, [.answered approval.serial token])
          | .issued ⟨_, _, none, _⟩ => (.gone, s, [])
          | .open | .claimed _ =>
            if origin.isSome ∧ maxLoginGrants ≤ s.grantsOf login then (.tooManyRequests, s, [])
            else (.pending, s, [])
          | .approved _ =>
            match s.grant env login origin credentials granted with
            | (.error .full, s) => (.tooManyRequests, s, [])
            | (.error .noLogin, s) => (.pending, s, [])
            | (.ok token, s) =>
              (.token token owner.expires, s.becomeGrant env challenge login token now,
                [.granted approval.serial login verifier origin token,
                 .answered approval.serial token])

/-- `POST /auth/{cli,browser}/token`: the grant for an approved challenge's verifier; a browser's
from its origin. -/
def token (env : Env) (s : State) (browser : Bool) (origin : Option BrowserOrigin)
    (verifier : Option String) (credentials : Credentials) (now looked owned granted : ℕ) :
    Answer × State × List Event :=
  let origin := origin.filter fun _ => browser
  if browser ∧ origin = none then (.forbidden, s, [])
  else
    let shortest := if browser then minBrowserVerifier else 0
    match verifier.filter fun v => shortest ≤ v.utf8ByteSize ∧ v.utf8ByteSize ≤ maxVerifier with
    | some verifier => s.issue env verifier origin credentials now looked owned granted
    | none => (if browser then .forbidden else .pending, s, [])

end State

end GraphiteMeter.Server.Auth
