import GraphiteMeter.Server.Auth.Policy
import GraphiteMeter.Server.Auth.World

/-!
# The boundary

Reference: `rust/server/src/auth/policy.rs`. What holds of every request that passes `authorize`.

An admitted request went past every refusal, so it is either public or carries a lease that
`validOrigin` passed. The rules are then read off by the lease's kind: the cookie of a login, a
browser grant's bearer, or any other bearer.
-/

namespace GraphiteMeter.Server.Auth

open Proto (Origin Route AuthRoute)

/-! ## Fields that came once -/

/-- A field that came at most once is absent, or its text is its one value's. -/
theorem getAll_of_text {headers : HeaderMap} {name : HeaderName} {found : Text}
    (hsingle : (headers.getAll name).length ≤ 1) (h : text headers name = some found) :
    headers.getAll name = [] ∧ found = [] ∨
      ∃ value, headers.getAll name = [value] ∧ HeaderValue.toStr value = some found := by
  rw [text, HeaderMap.get] at h
  cases hvalues : headers.getAll name with
  | nil =>
    rw [hvalues] at h
    exact Or.inl ⟨rfl, (Option.some.inj h).symm⟩
  | cons value rest =>
    rw [hvalues] at h hsingle
    have hrest : rest = [] := List.eq_nil_of_length_eq_zero (by rw [List.length_cons] at hsingle; omega)
    exact Or.inr ⟨value, by rw [hrest], h⟩

/-- An empty header is the empty text. -/
theorem toStr_nil {value : HeaderValue} (h : HeaderValue.toStr value = some []) : value = [] :=
  HeaderValue.eq_of_toStr h

/-- The fields of `singles` came at most once. -/
theorem length_le_one {headers : HeaderMap}
    (h : ¬singles.any fun name => 1 < (headers.getAll name).length) {name : HeaderName}
    (hname : name ∈ singles) : (headers.getAll name).length ≤ 1 := by
  rw [List.any_eq_true] at h
  by_contra hlong
  exact h ⟨name, hname, decide_eq_true (by omega)⟩

/-! ## The public origin -/

namespace Policy

section
variable {env : PolicyEnv} {policy : Policy} {origin : Origin} {password oidc : Bool}

/-- A policy's origin is a header of its public text. -/
theorem toStr_origin (hpolicy : new env.ipv6 origin password oidc = some policy) :
    HeaderValue.toStr policy.origin = some policy.publicText ∧ policy.publicText ≠ [] := by
  obtain ⟨login, -, hpolicy⟩ := Option.bind_eq_some_iff.mp hpolicy
  obtain ⟨value, hvalue, hpolicy⟩ := Option.bind_eq_some_iff.mp hpolicy
  obtain rfl := Option.some.inj hpolicy
  have hvalue := HeaderValue.toStr_of_fromStr hvalue
  rw [publicText, hvalue, Option.getD_some]
  refine ⟨rfl, ?_⟩
  intro hnil
  have hscheme := (List.append_eq_nil_iff.mp (List.append_eq_nil_iff.mp hnil).1).2
  cases hscheme

/-! ## What a lease was found by -/

/-- A lease of a bearer token is of a bearer. -/
theorem via_of_storeBearer {s : State} {storeEnv : Env} {token : String} {now : ℕ}
    {lease : AuthLease} (h : s.bearer storeEnv token now = some lease) :
    ∃ browser, lease.via = .bearer browser := by
  rw [State.bearer] at h
  split_ifs at h
  split at h
  · cases h
  · split_ifs at h
    split at h
    · cases h
    · obtain rfl := Option.some.inj h
      exact ⟨_, rfl⟩

/-- A lease of the authorization header is of no cookie. -/
theorem via_of_bearer {store : Moment} {headers : HeaderMap} {lease : AuthLease}
    (h : bearer env store headers = some lease) : lease.via ≠ .cookie := by
  obtain ⟨value, -, h⟩ := Option.bind_eq_some_iff.mp h
  obtain ⟨sent, -, h⟩ := Option.bind_eq_some_iff.mp h
  obtain ⟨token, -, h⟩ := Option.bind_eq_some_iff.mp h
  obtain ⟨browser, hvia⟩ := via_of_storeBearer h
  rw [hvia]
  exact nofun

/-- **A cookie's lease is only found without `Authorization`.** -/
theorem no_authorization {store : Moment} {request : Request} {endpoint : Endpoint}
    {route : Option Route} {leased : Option AuthLease} {lease : AuthLease}
    (hleased : ∀ l ∈ leased, l.via ≠ .cookie)
    (h : (credentials env store request endpoint route leased).1 = some lease)
    (hvia : lease.via = .cookie) : request.headers.getAll authorization = [] := by
  unfold credentials at h
  dsimp only at h
  split_ifs at h
  · -- A session's lease is a grant's, or the one presented.
    rcases Option.or_eq_some_iff.mp h with h | ⟨-, h⟩
    · exact absurd hvia (via_of_bearer h)
    · exact absurd hvia (hleased lease h)
  · cases leased with
    | some presented =>
      obtain rfl := Option.some.inj h
      exact absurd hvia (hleased presented rfl)
    | none =>
      dsimp only at h
      rw [authenticate] at h
      split_ifs at h with hpresent
      · exact absurd hvia (via_of_bearer h)
      · rw [HeaderMap.containsKey, HeaderMap.get] at hpresent
        cases hvalues : request.headers.getAll authorization with
        | nil => rfl
        | cons value rest => rw [hvalues] at hpresent; exact absurd rfl hpresent

/-! ## What `validOrigin` passes -/

/-- The origin is none at all, empty, or the public one. -/
def Ours (policy : Policy) (request : Request) : Prop :=
  request.headers.getAll originHeader = [] ∨ request.headers.getAll originHeader = [[]] ∨
    request.headers.getAll originHeader = [policy.origin]

/-- A request whose single origin is a text is ours by that text. -/
theorem ours_of_text (hpolicy : new env.ipv6 origin password oidc = some policy)
    {request : Request} (hsingle : (request.headers.getAll originHeader).length ≤ 1) {sent : Text}
    (htext : text request.headers originHeader = some sent)
    (h : ¬(sent ≠ [] ∧ sent ≠ policy.publicText)) : policy.Ours request := by
  rcases getAll_of_text hsingle htext with ⟨hnone, -⟩ | ⟨value, hvalue, hstr⟩
  · exact Or.inl hnone
  · rw [Ours, hvalue]
    by_cases hempty : sent = []
    · subst hempty
      exact Or.inr (Or.inl (by rw [toStr_nil hstr]))
    · have hpublic : sent = policy.publicText := by
        by_contra hne
        exact h ⟨hempty, hne⟩
      subst hpublic
      exact Or.inr (Or.inr (by rw [HeaderValue.toStr_inj hstr (toStr_origin hpolicy).1]))

/-- A request whose single origin is the public one is ours. -/
theorem public_of_text (hpolicy : new env.ipv6 origin password oidc = some policy)
    {request : Request} (hsingle : (request.headers.getAll originHeader).length ≤ 1)
    (htext : text request.headers originHeader = some policy.publicText) :
    request.headers.getAll originHeader = [policy.origin] := by
  obtain ⟨hstr, hne⟩ := toStr_origin hpolicy
  rcases getAll_of_text hsingle htext with ⟨-, hempty⟩ | ⟨value, hvalue, hsent⟩
  · exact absurd hempty hne
  · rw [hvalue, HeaderValue.toStr_inj hsent hstr]

/-- The request proves the CSRF token of the login behind `lease`. -/
def ProvesCsrf (store : Moment) (request : Request) (lease : AuthLease) : Prop :=
  ∃ login proof, store.state.login lease.login store.now = some login ∧
    text request.headers xCsrfToken = some proof ∧ login.csrf = String.ofList proof

/-- A token that matches the login's proves the request. -/
theorem provesCsrf_of_any {store : Moment} {request : Request} {lease : AuthLease}
    (h : (text request.headers xCsrfToken).any fun proof =>
      store.state.csrf lease.login (String.ofList proof) store.now) :
    ProvesCsrf store request lease := by
  cases hproof : text request.headers xCsrfToken with
  | none => rw [hproof] at h; cases h
  | some proof =>
    rw [hproof, Option.any_some, State.csrf] at h
    cases hlogin : store.state.login lease.login store.now with
    | none => rw [hlogin] at h; cases h
    | some login =>
      rw [hlogin, Option.any_some] at h
      exact ⟨login, proof, hlogin, hproof, of_decide_eq_true h⟩

/-- What a cookie's lease passes with. -/
theorem validOrigin_cookie (hpolicy : new env.ipv6 origin password oidc = some policy)
    {store : Moment} {request : Request} {route : Option Route} {lease : AuthLease}
    (hsingle : (request.headers.getAll originHeader).length ≤ 1) (hvia : lease.via = .cookie)
    (h : policy.validOrigin store request route lease) :
    policy.Ours request ∧ (request.method ∉ [.get, .head, .options] →
      request.headers.getAll originHeader = [policy.origin] ∧
        (route.isSome → ProvesCsrf store request lease)) := by
  have hbrowser : lease.browser = none := by rw [AuthLease.browser, hvia]
  unfold validOrigin at h
  cases htext : text request.headers originHeader with
  | none => rw [htext] at h; cases h
  | some sent =>
    rw [htext, hbrowser] at h
    dsimp only at h
    split_ifs at h with hforeign hcookie hnear hread hsafe
    · exact absurd hvia hcookie
    · -- A read passes with any origin of the three.
      refine ⟨ours_of_text hpolicy hsingle htext hforeign, ?_⟩
      intro hmethod
      simp only [List.mem_cons, List.not_mem_nil, or_false, not_or] at hmethod
      simp only [decide_eq_true_eq] at hsafe
      rcases hsafe with (hget | hhead) | hoptions
      · exact absurd hget hmethod.1
      · exact absurd hhead hmethod.2.1
      · exact absurd hoptions hmethod.2.2
    · -- Anything else comes from the public origin, and to a route with the token.
      obtain ⟨hours, hproof⟩ := of_decide_eq_true h
      obtain rfl := of_decide_eq_true hours
      have hpublic := public_of_text hpolicy hsingle htext
      refine ⟨Or.inr (Or.inr hpublic), fun _ => ⟨hpublic, ?_⟩⟩
      intro hroute
      rcases hproof with hnone | hproof
      · rw [hnone] at hroute
        cases hroute
      · exact provesCsrf_of_any hproof

/-- What a browser grant's lease passes with. -/
theorem validOrigin_browser {store : Moment} {request : Request} {route : Option Route}
    {lease : AuthLease} {browser : BrowserOrigin} (hbrowser : lease.browser = some browser)
    (h : policy.validOrigin store request route lease) :
    text request.headers originHeader = some browser.header.toList ∧
      ∃ r, route = some r ∧ r ≠ .servers := by
  unfold validOrigin at h
  cases htext : text request.headers originHeader with
  | none => rw [htext] at h; cases h
  | some sent =>
    rw [htext, hbrowser] at h
    obtain ⟨rfl, hroute⟩ := of_decide_eq_true h
    refine ⟨rfl, ?_⟩
    cases route with
    | none => cases hroute
    | some r => exact ⟨r, rfl, of_decide_eq_true hroute⟩

/-- What any other bearer's lease passes with. -/
theorem validOrigin_bearer (hpolicy : new env.ipv6 origin password oidc = some policy)
    {store : Moment} {request : Request} {route : Option Route} {lease : AuthLease}
    (hsingle : (request.headers.getAll originHeader).length ≤ 1)
    (hvia : lease.via = .bearer none) (h : policy.validOrigin store request route lease) :
    policy.Ours request := by
  have hbrowser : lease.browser = none := by rw [AuthLease.browser, hvia]
  unfold validOrigin at h
  cases htext : text request.headers originHeader with
  | none => rw [htext] at h; cases h
  | some sent =>
    rw [htext, hbrowser] at h
    dsimp only at h
    split_ifs at h with hforeign
    all_goals exact ours_of_text hpolicy hsingle htext hforeign

/-! ## What `authorize` passes -/

/-- **An admitted request** is public, on an endpoint of the app and at the canonical host, or its
lease is in place and its origin valid. -/
theorem authorize_cases {found proved : Moment} {request : Request} {endpoint : Endpoint}
    {peer : Peer} {leased admitted : Option AuthLease}
    (h : (policy.authorize env found proved request endpoint peer leased).1 = .ok admitted) :
    (∀ name ∈ singles, (request.headers.getAll name).length ≤ 1) ∧
      policy.trust env request endpoint peer ≠ .foreign ∧
      (admitted = none ∧ endpoint.ui ∧ policy.isPublic request.method request.path ∧
          policy.trust env request endpoint peer = .canonical ∨
        ∃ lease, admitted = some lease ∧
          (credentials env found request endpoint (Route.findByPath request.path) leased).1 =
            some lease ∧
          ¬misplaced (Route.findByPath request.path) lease ∧
          policy.validOrigin proved request (Route.findByPath request.path) lease) := by
  unfold authorize at h
  dsimp only at h
  split_ifs at h with hsingle hforeign hpreflight hcontrols hpublic hcanonical hsecure
  · obtain rfl := Except.ok.inj h
    exact ⟨fun name => length_le_one hsingle, hforeign,
      Or.inl ⟨rfl, hpublic.1, hpublic.2, hcanonical⟩⟩
  · rcases hfound : credentials env found request endpoint (Route.findByPath request.path) leased
      with ⟨lease | lease, state⟩
    · rw [hfound] at h
      cases h
    · rw [hfound] at h
      dsimp only at h
      split_ifs at h with hrefused
      obtain rfl := Except.ok.inj h
      obtain ⟨hplaced, hvalid⟩ := not_or.mp hrefused
      exact ⟨fun name => length_le_one hsingle, hforeign,
        Or.inr ⟨lease, rfl, rfl, hplaced, not_not.mp hvalid⟩⟩

/-- **The authorization policy.** -/
theorem authorize_admits (hpolicy : new env.ipv6 origin password oidc = some policy)
    {found proved : Moment} {request : Request} {endpoint : Endpoint} {peer : Peer}
    {leased admitted : Option AuthLease} (hleased : ∀ lease ∈ leased, lease.via ≠ .cookie)
    (h : (policy.authorize env found proved request endpoint peer leased).1 = .ok admitted) :
    policy.trust env request endpoint peer ≠ .foreign ∧
      match admitted with
      | none =>
        policy.isPublic request.method request.path ∧ endpoint.ui ∧
          policy.trust env request endpoint peer = .canonical
      | some lease =>
        match lease.via with
        | .cookie =>
          policy.Ours request ∧ request.headers.getAll authorization = [] ∧
            (request.method ∉ [.get, .head, .options] →
              request.headers.getAll originHeader = [policy.origin] ∧
                ((Route.findByPath request.path).isSome → ProvesCsrf proved request lease))
        | .bearer (some browser) =>
          (∃ route, Route.findByPath request.path = some route ∧ route ≠ .servers) ∧
            text request.headers originHeader = some browser.header.toList ∧
            (browser.header.toList ≠ [] → ∃ value,
              request.headers.getAll originHeader = [value] ∧
                HeaderValue.toStr value = some browser.header.toList)
        | .bearer none =>
          (Route.findByPath request.path).isSome ∧ policy.Ours request := by
  obtain ⟨hsingles, hforeign, hcases⟩ := authorize_cases h
  refine ⟨hforeign, ?_⟩
  have hsingle : (request.headers.getAll originHeader).length ≤ 1 :=
    hsingles originHeader (by decide)
  rcases hcases with ⟨rfl, hui, hpublic, hcanonical⟩ | ⟨lease, rfl, hfound, hplaced, hvalid⟩
  · exact ⟨hpublic, hui, hcanonical⟩
  dsimp only
  split
  next hvia =>
    obtain ⟨hours, hunsafe⟩ := validOrigin_cookie hpolicy hsingle hvia hvalid
    exact ⟨hours, no_authorization hleased hfound hvia, hunsafe⟩
  next browser hvia =>
    have hbrowser : lease.browser = some browser := by rw [AuthLease.browser, hvia]
    obtain ⟨htext, hroute⟩ := validOrigin_browser hbrowser hvalid
    refine ⟨hroute, htext, ?_⟩
    intro hne
    rcases getAll_of_text hsingle htext with ⟨-, hempty⟩ | hvalue
    · exact absurd hempty hne
    · exact hvalue
  next hvia =>
    refine ⟨?_, validOrigin_bearer hpolicy hsingle hvia hvalid⟩
    -- a token that names no browser is out of place off the API
    rw [misplaced, hvia] at hplaced
    cases hroute : Route.findByPath request.path with
    | none => exact absurd (decide_eq_true (Or.inl hroute)) hplaced
    | some route => rfl

end

/-! ### An upload of a signed-in browser -/

def browserEnv : PolicyEnv := ⟨World.terminalEnv, Ipv6Text.full, fun _ => true⟩

def meterOrigin : Origin := ⟨.https, .name "meter.example".toList, 443⟩

def meterPolicy : Policy where
  publicOrigin := meterOrigin
  origin := "https://meter.example".toUTF8.toList
  login := "https://meter.example/login".toUTF8.toList
  password := true
  oidc := false

/-- The operator has signed in. -/
def signedIn : Moment :=
  ⟨(State.new.signIn World.terminalEnv World.terminalIdentity World.sessionToken "csrf" "login" 0
    loginLifetime).2, 1⟩

def uploadRequest : Request where
  method := .post
  authority := some "meter.example".toList
  path := "/upload".toList
  version := .http11
  headers :=
    [(originHeader, "https://meter.example".toUTF8.toList),
      (secFetchSite, "same-origin".toUTF8.toList),
      (xCsrfToken, "csrf".toUTF8.toList),
      (cookieHeader, ("__Host-gm_session=" ++ World.sessionToken).toUTF8.toList)]

def uploadPeer : Peer := ⟨.socket (.v4 ⟨192, 0, 2, 1⟩)⟩

/-- The upload passes with the login's cookie, from the public origin and with its CSRF token. -/
theorem authorize_admits_upload :
    new browserEnv.ipv6 meterOrigin true false = some meterPolicy ∧
      ∃ lease, (meterPolicy.authorize browserEnv signedIn signedIn uploadRequest .h1Tls uploadPeer
          none).1 = .ok (some lease) ∧ lease.via = .cookie ∧
        uploadRequest.headers.getAll authorization = [] ∧
        uploadRequest.headers.getAll originHeader = [meterPolicy.origin] ∧
        ProvesCsrf signedIn uploadRequest lease := by
  have hpolicy : new browserEnv.ipv6 meterOrigin true false = some meterPolicy := by
    decide +kernel
  have heval : ((meterPolicy.authorize browserEnv signedIn signedIn uploadRequest .h1Tls uploadPeer
      none).1.toOption.join.any fun lease => lease.via = .cookie) = true := by
    decide +kernel
  rcases hadmitted : (meterPolicy.authorize browserEnv signedIn signedIn uploadRequest .h1Tls
    uploadPeer none).1 with denial | _ | lease
  · rw [hadmitted] at heval
    cases heval
  · rw [hadmitted] at heval
    cases heval
  · rw [hadmitted] at heval
    have hvia : lease.via = .cookie := of_decide_eq_true heval
    obtain ⟨-, hrules⟩ := authorize_admits hpolicy (by simp) hadmitted
    simp only [hvia] at hrules
    obtain ⟨-, hbearer, hunsafe⟩ := hrules
    obtain ⟨horigin, hproof⟩ := hunsafe (by decide)
    exact ⟨hpolicy, lease, rfl, hvia, hbearer, horigin, hproof (by decide)⟩

end Policy

end GraphiteMeter.Server.Auth
