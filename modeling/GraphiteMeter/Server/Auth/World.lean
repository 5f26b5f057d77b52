import GraphiteMeter.Lib.Machine
import GraphiteMeter.Server.Auth.Approval

/-!
# Clients of the auth store

Reference: `rust/server/src/auth/store.rs`, `rust/server/src/auth/approval.rs` and, for who may call
what, `rust/server/src/auth/routes.rs`.

The store with every lease a request was given and every form that proved its CSRF token, as a
machine. An action is what happens under the store's lock once. A handler that locks it more than
once takes several actions: its cookie gives a lease, which it uses later, however long after; its
form proves a CSRF token, and `approve` follows.

Nothing is assumed of the clock: each reading is any number. Fresh tokens are distinct from those
drawn before, and so are their digests, which `step` asks of the ones that become keys.
-/

namespace GraphiteMeter.Server.Auth

structure World where
  state : State
  /-- Each lease given, with the digest of the token it was given for. -/
  leases : List (Digest × AuthLease)
  /-- Each CSRF token proved, with the login it was proved for. -/
  proofs : List (Digest × String)
  /-- The keys of all logins so far. -/
  loginKeys : List Digest
  /-- The keys of all grants so far. -/
  grantKeys : List Digest
  /-- The number of the next approval opened. -/
  serial : ℕ

inductive Action where
  | signIn (identity : Identity) (token csrf id : String) (now expires : ℕ)
  | signOut (login : Digest) (every : Bool) (now : ℕ)
  | cookie (token : String) (now : ℕ)
  | bearer (token : String) (now : ℕ)
  | grant (login : Digest) (browser : Option BrowserOrigin) (credentials : Credentials) (now : ℕ)
  | endLogin (key : Digest)
  | sweep (now : ℕ)
  /-- The form of a request with the `i`-th lease proves a CSRF token. -/
  | prove (i : ℕ) (proof : String) (now : ℕ)
  | cliPage (lease : Option ℕ) (text : String) (keys : Option ClientKeys) (looked swept opened : ℕ)
  | browserPage (lease : Option ℕ) (text : String) (origin : BrowserOrigin)
      (keys : Option ClientKeys) (crossSite : Bool) (looked swept opened : ℕ)
  /-- The request whose form gave the `i`-th proof approves. -/
  | approve (i : ℕ) (text : String) (browser : Bool) (now : ℕ)
  | token (browser : Bool) (origin : Option BrowserOrigin) (verifier : Option String)
      (credentials : Credentials) (now looked owned granted : ℕ)

namespace World

def new : World := ⟨State.new, [], [], [], [], 0⟩

/-- The lease a page's cookie was given, `none` without one. -/
def session (w : World) : Option ℕ → Option (Option AuthLease)
  | none => some none
  | some i =>
    match w.leases[i]? with
    | some (_, lease) => if lease.via = .cookie then some (some lease) else none
    | none => none

/-- One action, where it is enabled, with what it logs. -/
def step (env : Env) (w : World) : Action → Option (World × List Event)
  | .signIn identity token csrf id now expires =>
    if env.digest token ∉ w.loginKeys then
      match w.state.signIn env identity token csrf id now expires with
      | (none, state) => some ({ w with state }, [])
      | (some key, state) =>
        some ({ w with state, loginKeys := w.loginKeys ++ [key] }, [.signedIn key csrf])
    else none
  | .signOut login every now =>
    some ({ w with state := (w.state.signOut login every now).2 }, [])
  | .cookie token now =>
    match w.state.cookie env token now with
    | (none, state) => some ({ w with state }, [])
    | (some lease, state) =>
      some ({ w with state, leases := w.leases ++ [(env.digest token, lease)] }, [])
  | .bearer token now =>
    match w.state.bearer env token now with
    | none => some (w, [])
    | some lease => some ({ w with leases := w.leases ++ [(env.digest token, lease)] }, [])
  | .grant login browser credentials now =>
    if env.digest credentials.token ∉ w.grantKeys then
      match w.state.grant env login browser credentials now with
      | (.error _, state) => some ({ w with state }, [])
      | (.ok _, state) =>
        some ({ w with state, grantKeys := w.grantKeys ++ [env.digest credentials.token] }, [])
    else none
  | .endLogin key => some ({ w with state := w.state.endLogin key }, [])
  | .sweep now => some ({ w with state := w.state.sweep now }, [])
  | .prove i proof now =>
    match w.leases[i]? with
    | none => none
    | some (_, lease) =>
      if lease.via = .cookie ∧ w.state.csrf lease.login proof now then
        some ({ w with proofs := w.proofs ++ [(lease.login, proof)] }, [.proved lease.login proof])
      else some (w, [])
  | .cliPage lease text keys looked swept opened =>
    match w.session lease with
    | none => none
    | some lease =>
      let (_, state, events) := w.state.cliPage env lease text keys w.serial looked swept opened
      some ({ w with state, serial := w.serial + 1 }, events)
  | .browserPage lease text origin keys crossSite looked swept opened =>
    match w.session lease with
    | none => none
    | some lease =>
      let (_, state, events) :=
        w.state.browserPage env lease text origin keys crossSite w.serial looked swept opened
      some ({ w with state, serial := w.serial + 1 }, events)
  | .approve i text browser now =>
    match w.proofs[i]? with
    | none => none
    | some (login, csrf) =>
      let (_, state, events) := w.state.approve env login csrf text browser now
      some ({ w with state }, events)
  | .token browser origin verifier credentials now looked owned granted =>
    if env.digest credentials.token ∉ w.grantKeys then
      let (_, state, events) :=
        w.state.token env browser origin verifier credentials now looked owned granted
      let made := if events.any Event.grants then [env.digest credentials.token] else []
      some ({ w with state, grantKeys := w.grantKeys ++ made }, events)
    else none

/-! ## One terminal

A session token of 32 zero bytes, a grant's of 32 ones, and a terminal's verifier, with the digests
and encodings of these three.
-/

def sessionToken : String := "AAAAAAAAAAAAAAAAAAAAAAAAAAAAAAAAAAAAAAAAAAA"

def grantToken : String := "AQEBAQEBAQEBAQEBAQEBAQEBAQEBAQEBAQEBAQEBAQE"

def terminalVerifier : String := "verifier-of-the-terminal"

def terminalDigest : Digest :=
  [0xaf, 0x66, 0x8e, 0xd2, 0xe0, 0x56, 0x7c, 0x7e, 0x41, 0x01, 0xd5, 0x9b, 0x4f, 0x73, 0x49, 0x50,
   0x67, 0x47, 0x77, 0x9c, 0x5f, 0x6a, 0x53, 0x95, 0x4c, 0x68, 0xf1, 0x02, 0xb4, 0x7e, 0xdc, 0xa9]

def terminalChallenge : String := "r2aO0uBWfH5BAdWbT3NJUGdHd5xfalOVTGjxArR-3Kk"

def terminalEnv : Env where
  encode bytes := if bytes = terminalDigest then terminalChallenge else ""
  decode text :=
    if text = sessionToken then some (List.replicate 32 0)
    else if text = grantToken then some (List.replicate 32 1)
    else if text = terminalChallenge then some terminalDigest
    else none
  digest text :=
    if text = sessionToken then
      [0x0f, 0x00, 0x73, 0x85, 0xb6, 0xf9, 0xd4, 0xb7, 0xee, 0xb2, 0x74, 0x86, 0x05, 0xaf, 0xe1, 0xa9,
       0x84, 0xa0, 0xa3, 0xbf, 0xa3, 0xf0, 0x14, 0xd0, 0x9e, 0x2a, 0x78, 0x4c, 0xe9, 0xe5, 0xcd, 0x1a]
    else if text = grantToken then
      [0x56, 0xd5, 0xfa, 0x73, 0x33, 0xf6, 0xd7, 0x47, 0xdb, 0x42, 0xc2, 0x39, 0x40, 0x7e, 0x5d, 0xa4,
       0xc3, 0x2f, 0x4c, 0x79, 0xf3, 0x5d, 0x09, 0x2b, 0x13, 0x4f, 0xd3, 0x5a, 0x40, 0x2d, 0x9c, 0x5c]
    else if text = terminalVerifier then terminalDigest
    else []

def terminalIdentity : Identity := ⟨⟨"operator"⟩, "Operator", "password"⟩

/-- The operator signs in, and a request of the session resolves its cookie. -/
def signsIn : List Action :=
  [.signIn terminalIdentity sessionToken "csrf" "login" 0 loginLifetime, .cookie sessionToken 1]

/-- The operator opens and approves the terminal's challenge. -/
def approvesTerminal : List Action :=
  [.cliPage (some 0) terminalChallenge (some (.v4 1)) 2 2 2, .prove 0 "csrf" 3,
   .approve 0 terminalChallenge false 4]

/-- The terminal asks for its grant. -/
def terminalAsks : Action :=
  .token false none (some terminalVerifier) ⟨grantToken, "grant"⟩ 5 5 5 5

end World

end GraphiteMeter.Server.Auth
