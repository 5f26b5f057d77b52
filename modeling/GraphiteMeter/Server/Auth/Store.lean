import Mathlib.Data.List.MinMax
import GraphiteMeter.Http3.Varint
import GraphiteMeter.Lib.HashMap
import GraphiteMeter.Server.Peer

/-!
# The store of logins and grants

Reference: `rust/server/src/auth/store.rs`, with the types of `rust/server/src/auth/approval.rs` its
state holds. Raw credentials go only to their issuer, keyed by SHA-256.

Every function here runs with the store locked. What it reads of the clock and the random tokens it
is given are arguments.
-/

namespace GraphiteMeter.Server.Auth

open Http3 (Bytes)

/-- Eight hours. -/
def loginLifetime : ℕ := 8 * 60 * 60 * 10 ^ 9

def maxLogins : ℕ := 1024

def maxPrincipalLogins : ℕ := 8

def maxLoginGrants : ℕ := 8

/-- What the store takes from elsewhere: unpadded base64url and SHA-256. -/
structure Env where
  encode : Bytes → String
  decode : String → Option Bytes
  digest : String → Bytes

/-- A SHA-256 digest; a login's key is the digest of its session cookie. -/
abbrev Digest := Bytes

/-- An exact canonical HTTPS origin. -/
structure BrowserOrigin where
  header : String
deriving DecidableEq, Repr

/-! ## Cancellation -/

/-- A token that is cancelled itself or through its parent. -/
structure CancellationToken where
  id : ℕ
  parent : Option ℕ
deriving DecidableEq, Repr

/-- The tokens made so far, and those `cancel` was called on. -/
structure Tokens where
  next : ℕ
  cancelled : List ℕ
deriving DecidableEq, Repr

namespace Tokens

def new (t : Tokens) : CancellationToken × Tokens := (⟨t.next, none⟩, { t with next := t.next + 1 })

def child (t : Tokens) (parent : CancellationToken) : CancellationToken × Tokens :=
  (⟨t.next, some parent.id⟩, { t with next := t.next + 1 })

def cancel (t : Tokens) (token : CancellationToken) : Tokens :=
  { t with cancelled := token.id :: t.cancelled }

def isCancelled (t : Tokens) (token : CancellationToken) : Bool :=
  token.id ∈ t.cancelled ∨ ∃ parent ∈ token.parent, parent ∈ t.cancelled

end Tokens

/-! ## The state -/

structure Login where
  id : String
  principal : Principal
  name : String
  provider : String
  csrf : String
  sequence : ℕ
  deadline : ℕ
  expires : ℕ
  /-- Cancelled when the login ends; its grants' tokens are children. -/
  revoked : CancellationToken
deriving DecidableEq, Repr

structure Grant where
  login : Digest
  id : String
  browser : Option BrowserOrigin
  sequence : ℕ
  revoked : CancellationToken
deriving DecidableEq

/-- An approval challenge: an S256 digest, with the code the operator compares it by. -/
structure Challenge where
  text : String
  code : String
deriving DecidableEq, Repr

structure Issued where
  login : Digest
  grant : Digest
  token : Option String
  replayUntil : ℕ
deriving DecidableEq

/-- How far an approval is: unclaimed, claimed by the login that may approve it, approved by it, or
its grant. -/
inductive Stage where
  | open
  | claimed (login : Digest)
  | approved (login : Digest)
  | issued (issued : Issued)
deriving DecidableEq

/-- An approval of one challenge: pending, then the grant it issued while that lasts. -/
structure Approval where
  /-- The browser origin asking, or none for a terminal. -/
  browser : Option BrowserOrigin
  clients : List ClientKey
  stage : Stage
  deadline : ℕ
  /-- Numbers the openings, so that a run can tell them apart. Nothing reads it. -/
  serial : ℕ
deriving DecidableEq

namespace Approval

def login (approval : Approval) : Option Digest :=
  match approval.stage with
  | .open => none
  | .claimed login | .approved login => some login
  | .issued issued => some issued.login

def issued (approval : Approval) : Bool :=
  match approval.stage with
  | .issued _ => true
  | _ => false

/-- Whether the approval became this grant. -/
def became (approval : Approval) (grant : Digest) : Bool :=
  match approval.stage with
  | .issued issued => issued.grant = grant
  | _ => false

def forgetToken (approval : Approval) (now : ℕ) : Approval :=
  match approval.stage with
  | .issued issued =>
    if issued.replayUntil ≤ now then
      { approval with stage := .issued { issued with token := none } }
    else approval
  | _ => approval

end Approval

structure State where
  logins : HashMap Digest Login
  grants : HashMap Digest Grant
  approvals : HashMap Challenge Approval
  sequence : ℕ
  tokens : Tokens

structure Identity where
  principal : Principal
  name : String
  provider : String
deriving DecidableEq, Repr

inductive GrantRefusal where
  | noLogin
  /-- The login holds all its grants and none may be replaced. -/
  | full
deriving DecidableEq, Repr

inductive Via where
  | cookie
  /-- A grant's bearer token, with the browser origin a browser grant serves. -/
  | bearer (browser : Option BrowserOrigin)
deriving DecidableEq, Repr

/-- A signed-in request's identity, and what ends it. -/
structure AuthLease where
  holder : Holder
  principal : Principal
  login : Digest
  via : Via
  revoked : CancellationToken
  expires : ℕ
deriving DecidableEq

/-- A new grant's credentials. -/
structure Credentials where
  token : String
  id : String
deriving DecidableEq, Repr

def Login.lease (login : Login) (key : Digest) (holder : Holder) (via : Via)
    (revoked : CancellationToken) : AuthLease :=
  ⟨holder, login.principal, key, via, revoked, login.deadline⟩

namespace State

def new : State := ⟨∅, ∅, ∅, 0, ⟨0, []⟩⟩

/-- A login that has not expired. -/
def login (s : State) (key : Digest) (now : ℕ) : Option Login :=
  (s.logins.lookup key).filter fun login => now < login.deadline

/-- The logins of a principal, the oldest first. -/
def held (s : State) (principal : Principal) : List Digest :=
  let held := s.logins.entries.filter fun e => e.2.principal = principal
  let order (a b : ℕ × Digest) : Bool := a.1 < b.1 ∨ a.1 = b.1 ∧ a.2 ≤ b.2
  ((held.map fun e => (e.2.sequence, e.1)).mergeSort order).map Prod.snd

/-- Ends the login keyed `key`, revoking every lane its grants hold. -/
def endLogin (s : State) (key : Digest) : State :=
  { s with
    logins := s.logins.erase key
    tokens := (s.logins.lookup key).elim s.tokens fun login => s.tokens.cancel login.revoked
    grants := s.grants.retain fun _ grant => grant.login ≠ key
    approvals := s.approvals.retain fun _ approval => approval.login ≠ some key }

def sweep (s : State) (now : ℕ) : State :=
  let expired := (s.logins.entries.filter fun e => e.2.deadline ≤ now).map Sigma.fst
  let s := expired.foldl endLogin s
  { s with
    approvals := (s.approvals.mapValues fun _ approval => approval.forgetToken now).retain
      fun _ approval => now < approval.deadline }

def grantsOf (s : State) (login : Digest) : ℕ :=
  (s.grants.entries.filter fun e => e.2.login = login).length

/-- Makes room for one more grant of `login`: at the cap native replaces oldest native. -/
def evict (s : State) (login : Digest) (browser : Option BrowserOrigin) :
    Except GrantRefusal State :=
  let held := s.grants.entries.filter fun e => e.2.login = login
  if maxLoginGrants ≤ held.length then
    let native := held.filter fun e => e.2.browser = none
    match native.argmin fun e => e.2.sequence, browser with
    | some ⟨oldest, evicted⟩, none =>
      .ok { s with
        grants := s.grants.erase oldest
        tokens := s.tokens.cancel evicted.revoked
        approvals := s.approvals.retain fun _ approval => !approval.became oldest }
    | _, _ => .error .full
  else .ok s

/-- Issues `login` a grant with `credentials`. -/
def grant (env : Env) (s : State) (login : Digest) (browser : Option BrowserOrigin)
    (credentials : Credentials) (now : ℕ) : Except GrantRefusal String × State :=
  match s.login login now with
  | none => (.error .noLogin, s)
  | some owner =>
    let (revoked, tokens) := s.tokens.child owner.revoked
    match evict { s with tokens } login browser with
    | .error refusal => (.error refusal, { s with tokens })
    | .ok s =>
      (.ok credentials.token,
        { s with
          sequence := s.sequence + 1
          grants := s.grants.insert (env.digest credentials.token)
            ⟨login, credentials.id, browser, s.sequence + 1, revoked⟩ })

/-- Ends a principal's oldest login at its cap. -/
def madeRoom (s : State) (principal : Principal) : State :=
  match s.held principal with
  | oldest :: rest => if maxPrincipalLogins ≤ (oldest :: rest).length then s.endLogin oldest else s
  | [] => s

/-- Signs `identity` in, ending its principal's oldest login at the cap; `none` when the server is
full. `token`, `csrf` and `id` are fresh, and `expires` is the wall clock's end of the login. -/
def signIn (env : Env) (s : State) (identity : Identity) (token csrf id : String)
    (now expires : ℕ) : Option Digest × State :=
  let s := (s.sweep now).madeRoom identity.principal
  if maxLogins ≤ s.logins.len then (none, s)
  else
    let (revoked, tokens) := s.tokens.new
    let login : Login :=
      { id, principal := identity.principal, name := identity.name, provider := identity.provider,
        csrf, sequence := s.sequence + 1, deadline := now + loginLifetime, expires, revoked }
    (some (env.digest token),
      { s with
        sequence := s.sequence + 1
        logins := s.logins.insert (env.digest token) login
        tokens })

/-- Ends the login, or with `every` its principal's logins; `false` when it already ended. -/
def signOut (s : State) (login : Digest) (every : Bool) (now : ℕ) : Bool × State :=
  match s.login login now with
  | none => (false, s)
  | some found =>
    let ended := if every then s.held found.principal else [login]
    (true, ended.foldl endLogin s)

def cookie (env : Env) (s : State) (token : String) (now : ℕ) : Option AuthLease × State :=
  let key := env.digest token
  match s.logins.lookup key with
  | some login =>
    if now < login.deadline then
      (some (login.lease key (.login login.id) .cookie login.revoked), s)
    else (none, s.endLogin key)
  | none => (none, s)

/-- The lease of the grant whose bearer token is `token`: 32 bytes in unpadded base64url. -/
def bearer (env : Env) (s : State) (token : String) (now : ℕ) : Option AuthLease :=
  if token.utf8ByteSize ≠ 43 ∨ (env.decode token).map List.length ≠ some 32 then none
  else
    match s.grants.lookup (env.digest token) with
    | none => none
    | some grant =>
      if s.tokens.isCancelled grant.revoked then none
      else
        match s.login grant.login now with
        | none => none
        | some login =>
          some (login.lease grant.login (.grant grant.id) (.bearer grant.browser) grant.revoked)

/-- Whether `proof` is the login's CSRF token. -/
def csrf (s : State) (login : Digest) (proof : String) (now : ℕ) : Bool :=
  (s.login login now).any fun login => login.csrf = proof

end State

end GraphiteMeter.Server.Auth
