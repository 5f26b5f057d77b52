import GraphiteMeter.Server.Auth.World

/-!
# The moves behind the handlers

Every action of `World.step` is a sequence of the moves below, which each change one thing and say
under which condition. `step_moves` takes the handlers apart into them once, so that what holds of
every run is proved move by move.
-/

namespace GraphiteMeter.Server.Auth

/-- An approval after its token may have been forgotten. -/
def Approval.Kept (before after : Approval) : Prop :=
  after.browser = before.browser ∧ after.deadline = before.deadline ∧
    after.serial = before.serial ∧
    (after.stage = before.stage ∨ ∃ issued, before.stage = .issued issued ∧
      after.stage = .issued { issued with token := none })

/-- Forgetting a token leaves the rest of an approval. -/
theorem Approval.forgetToken_kept (approval : Approval) (now : ℕ) :
    approval.Kept (approval.forgetToken now) := by
  rw [forgetToken]
  match hstage : approval.stage with
  | .issued issued =>
    simp only
    split_ifs
    · exact ⟨rfl, rfl, rfl, .inr ⟨issued, hstage, rfl⟩⟩
    · exact ⟨rfl, rfl, rfl, .inl rfl⟩
  | .open => exact ⟨rfl, rfl, rfl, .inl rfl⟩
  | .claimed login => exact ⟨rfl, rfl, rfl, .inl rfl⟩
  | .approved login => exact ⟨rfl, rfl, rfl, .inl rfl⟩

/-- A kept approval has its login. -/
theorem Approval.Kept.login_eq {before after : Approval} (h : before.Kept after) :
    after.login = before.login := by
  obtain ⟨-, -, -, hstage | ⟨issued, hbefore, hafter⟩⟩ := h
  · rw [Approval.login, hstage, Approval.login]
  · simp only [Approval.login, hbefore, hafter]

namespace World

/-- One thing that may happen to the store and its clients. -/
inductive Move (env : Env) (w : World) : World → List Event → Prop
  | ended (key : Digest) : Move env w { w with state := w.state.endLogin key } []
  /-- Approvals expire, and tokens of issued ones are forgotten. -/
  | tidied (approvals : HashMap Challenge Approval)
      (hkept : ∀ c after, approvals.lookup c = some after →
        ∃ before, w.state.approvals.lookup c = some before ∧ before.Kept after) :
      Move env w { w with state := { w.state with approvals } } []
  /-- A cancellation token is made. -/
  | drew : Move env w
      { w with state := { w.state with
          tokens := { w.state.tokens with next := w.state.tokens.next + 1 } } } []
  | evicted (key : Digest) (grant : Grant) (hgrant : w.state.grants.lookup key = some grant) :
      Move env w
        { w with state := { w.state with
            grants := w.state.grants.erase key
            tokens := w.state.tokens.cancel grant.revoked
            approvals := w.state.approvals.retain fun _ approval => !approval.became key } } []
  | signedIn (key : Digest) (login : Login) (sequence : ℕ) (hfresh : key ∉ w.loginKeys)
      (hprincipal : (w.state.logins.entries.filter
        fun e => e.2.principal = login.principal).length < maxPrincipalLogins)
      (hroom : w.state.logins.len < maxLogins)
      (hrevoked : login.revoked = ⟨w.state.tokens.next, none⟩) :
      Move env w
        { w with
          state := { w.state with
            sequence
            logins := w.state.logins.insert key login
            tokens := { w.state.tokens with next := w.state.tokens.next + 1 } }
          loginKeys := w.loginKeys ++ [key] } [.signedIn key login.csrf]
  | session (key : Digest) (login : Login) (hlogin : w.state.logins.lookup key = some login) :
      Move env w
        { w with leases := w.leases ++
            [(key, login.lease key (.login login.id) .cookie login.revoked)] } []
  | bearer (key : Digest) (grant : Grant) (login : Login)
      (hgrant : w.state.grants.lookup key = some grant)
      (hlogin : w.state.logins.lookup grant.login = some login) :
      Move env w
        { w with leases := w.leases ++
            [(key, login.lease grant.login (.grant grant.id) (.bearer grant.browser)
              grant.revoked)] } []
  | proved (key : Digest) (login : Login) (hlogin : w.state.logins.lookup key = some login) :
      Move env w { w with proofs := w.proofs ++ [(key, login.csrf)] } [.proved key login.csrf]
  /-- A page that opens no approval passes its number over. -/
  | passed : Move env w { w with serial := w.serial + 1 } []
  /-- An approval is opened, claimed at once by the login of a lease if there is one. -/
  | opened (challenge : Challenge) (browser : Option BrowserOrigin) (keys : ClientKeys)
      (lease : Option (Digest × AuthLease)) (now : ℕ) (hlease : ∀ l ∈ lease, l ∈ w.leases) :
      Move env w
        { w with
          state := w.state.openApproval challenge browser keys (lease.map fun l => l.2.login) now
            w.serial
          serial := w.serial + 1 }
        (.opened w.serial challenge browser (now + approvalLifetime) ::
          (lease.map fun l => Event.claimed w.serial l.2.login).toList)
  | claimed (challenge : Challenge) (approval : Approval) (lease : Digest × AuthLease)
      (happroval : w.state.approvals.lookup challenge = some approval)
      (hopen : approval.stage = .open) (hlease : lease ∈ w.leases) :
      Move env w
        { w with state := { w.state with
            approvals := w.state.approvals.insert challenge
              { approval with stage := .claimed lease.2.login } } }
        [.claimed approval.serial lease.2.login]
  | approved (challenge : Challenge) (approval : Approval) (proof : Digest × String) (now : ℕ)
      (happroval : w.state.approvals.lookup challenge = some approval)
      (hlogin : approval.login = some proof.1) (hissued : approval.issued = false)
      (hnow : now < approval.deadline) (hproof : proof ∈ w.proofs) :
      Move env w
        { w with state := { w.state with
            approvals := w.state.approvals.insert challenge
              { approval with stage := .approved proof.1 } } }
        [.approved approval.serial proof.1 proof.2 now]
  | granted (key : Digest) (grant : Grant) (login : Login) (sequence : ℕ)
      (hfresh : key ∉ w.grantKeys) (hlogin : w.state.logins.lookup grant.login = some login)
      (hrevoked : grant.revoked.parent = some login.revoked.id)
      (hroom : w.state.grantsOf grant.login < maxLoginGrants) :
      Move env w
        { w with
          state := { w.state with sequence, grants := w.state.grants.insert key grant }
          grantKeys := w.grantKeys ++ [key] } []
  /-- The approval of a challenge becomes the grant of the one who holds its verifier. -/
  | became (challenge : Challenge) (verifier : String) (approval : Approval) (login : Digest)
      (token : String) (grant : Grant) (deadline replayUntil : ℕ)
      (hchallenge : Challenge.of env verifier = some challenge)
      (happroval : w.state.approvals.lookup challenge = some approval)
      (hstage : approval.stage = .approved login)
      (hgrant : w.state.grants.lookup (env.digest token) = some grant)
      (hlogin : grant.login = login) (hbrowser : grant.browser = approval.browser) :
      Move env w
        { w with state := { w.state with
            approvals := w.state.approvals.insert challenge
              { approval with
                deadline
                stage := .issued ⟨login, env.digest token, some token, replayUntil⟩ } } }
        [.granted approval.serial login verifier approval.browser token]
  /-- An issued approval answers with its token. -/
  | answered (challenge : Challenge) (approval : Approval) (issued : Issued) (token : String)
      (happroval : w.state.approvals.lookup challenge = some approval)
      (hstage : approval.stage = .issued issued) (htoken : issued.token = some token) :
      Move env w w [.answered approval.serial token]

end World

/-! ## Ending and sweeping -/

namespace World

open Machine (Path)

variable {env : Env}

/-- Ending logins is a sequence of moves. -/
theorem foldl_endLogin_moves (keys : List Digest) (w : World) :
    Path (Move env) w { w with state := keys.foldl State.endLogin w.state } [] := by
  induction keys generalizing w with
  | nil => exact .nil w
  | cons key keys ih => exact .cons (.ended key) (ih { w with state := w.state.endLogin key })

/-- A sweep is a sequence of moves. -/
theorem sweep_moves (w : World) (now : ℕ) :
    Path (Move env) w { w with state := w.state.sweep now } [] := by
  refine (foldl_endLogin_moves _ w).trans (.single (.tidied _ fun c after h => ?_))
  obtain ⟨hlookup, -⟩ := AList.lookup_retain_eq_some.mp h
  rw [AList.lookup_mapValues, Option.map_eq_some_iff] at hlookup
  obtain ⟨before, hbefore, rfl⟩ := hlookup
  exact ⟨before, hbefore, before.forgetToken_kept now⟩

/-- A sign-out is a sequence of moves. -/
theorem signOut_moves (w : World) (login : Digest) (every : Bool) (now : ℕ) :
    Path (Move env) w { w with state := (w.state.signOut login every now).2 } [] := by
  rw [State.signOut]
  match w.state.login login now with
  | none => exact .nil w
  | some found => exact foldl_endLogin_moves _ w

end World

/-! ## The caps

What ends one login or evicts one grant makes room for another only where no cap was passed before.
-/

namespace State

/-- No principal has more logins, and no login more grants, than its cap. -/
structure Capped (s : State) : Prop where
  principals : ∀ principal,
    (s.logins.entries.filter fun e => e.2.principal = principal).length ≤ maxPrincipalLogins
  grants : ∀ login, s.grantsOf login ≤ maxLoginGrants

/-- Fewer entries keep the caps. -/
theorem Capped.sublist {s s' : State} (h : s.Capped)
    (hlogins : s'.logins.entries.Sublist s.logins.entries)
    (hgrants : s'.grants.entries.Sublist s.grants.entries) : s'.Capped where
  principals principal := (hlogins.filter _).length_le.trans (h.principals principal)
  grants login := (hgrants.filter _).length_le.trans (h.grants login)

/-- Ending a login keeps the caps. -/
theorem Capped.endLogin {s : State} (h : s.Capped) (key : Digest) : (s.endLogin key).Capped :=
  h.sublist (AList.entries_erase_sublist key s.logins) List.filter_sublist

/-- Ending several keeps the caps. -/
theorem Capped.foldl_endLogin {s : State} (h : s.Capped) (keys : List Digest) :
    (keys.foldl State.endLogin s).Capped := by
  induction keys generalizing s with
  | nil => exact h
  | cons key keys ih => exact ih (h.endLogin key)

/-- A sweep keeps the caps. -/
theorem Capped.sweep {s : State} (h : s.Capped) (now : ℕ) : (s.sweep now).Capped :=
  (h.foldl_endLogin _).sublist (List.Sublist.refl _) (List.Sublist.refl _)

/-- A principal's logins are its own. -/
theorem mem_held {s : State} {principal : Principal} {key : Digest} (h : key ∈ s.held principal) :
    ∃ login, s.logins.lookup key = some login ∧ login.principal = principal := by
  simp only [held, List.mem_map, List.mem_mergeSort, List.mem_filter, decide_eq_true_eq] at h
  obtain ⟨_, ⟨e, ⟨hmem, hprincipal⟩, rfl⟩, rfl⟩ := h
  exact ⟨e.2, AList.mem_lookup_iff.mpr hmem, hprincipal⟩

/-- They are as many as the logins under its name. -/
theorem length_held (s : State) (principal : Principal) :
    (s.held principal).length
      = (s.logins.entries.filter fun e => e.2.principal = principal).length := by
  simp [held]

/-- A principal has room, or its oldest login ends. -/
theorem madeRoom_cases (s : State) (principal : Principal) :
    s.madeRoom principal = s ∧
        (s.logins.entries.filter fun e => e.2.principal = principal).length < maxPrincipalLogins ∨
      ∃ oldest ∈ s.held principal, s.madeRoom principal = s.endLogin oldest := by
  have hlen := length_held s principal
  rw [madeRoom]
  match hheld : s.held principal with
  | [] =>
    rw [hheld] at hlen
    exact .inl ⟨rfl, by rw [← hlen]; decide⟩
  | oldest :: rest =>
    simp only
    split_ifs with hfull
    · exact .inr ⟨oldest, List.mem_cons_self, rfl⟩
    · rw [hheld] at hlen
      exact .inl ⟨rfl, by omega⟩

/-- Below its cap, or with its oldest login ended, a principal has room for one more. -/
theorem Capped.madeRoom_lt {s : State} (h : s.Capped) (principal : Principal) :
    ((s.madeRoom principal).logins.entries.filter
      fun e => e.2.principal = principal).length < maxPrincipalLogins := by
  rcases madeRoom_cases s principal with ⟨heq, hlt⟩ | ⟨oldest, hmem, heq⟩
  · rw [heq]
    exact hlt
  · obtain ⟨login, hlookup, hprincipal⟩ := mem_held hmem
    have hcount := AList.len_filter_erase (fun e => decide (e.2.principal = principal)) hlookup
      (by simpa using hprincipal)
    have hcap := h.principals principal
    rw [heq, State.endLogin]
    simp only
    omega

end State

namespace World

open Machine (Path)

variable {env : Env}

/-- Making room is a sequence of moves. -/
theorem madeRoom_moves (w : World) (principal : Principal) :
    Path (Move env) w { w with state := w.state.madeRoom principal } [] := by
  rcases State.madeRoom_cases w.state principal with ⟨heq, -⟩ | ⟨oldest, -, heq⟩
  · rw [heq]
    exact .nil w
  · rw [heq]
    exact .single (.ended oldest)

/-- A sign-in is a sequence of moves. -/
theorem signIn_moves {w w' : World} {identity : Identity} {token csrf id : String}
    {now expires : ℕ} {events : List Event} (hcap : w.state.Capped)
    (hstep : w.step env (.signIn identity token csrf id now expires) = some (w', events)) :
    Path (Move env) w w' events := by
  simp only [step] at hstep
  split_ifs at hstep with hfresh
  have hroom := (hcap.sweep now).madeRoom_lt identity.principal
  have hpath : Path (Move env) w
      { w with state := (w.state.sweep now).madeRoom identity.principal } [] :=
    (sweep_moves w now).trans (madeRoom_moves { w with state := w.state.sweep now } _)
  simp only [State.signIn] at hstep
  generalize (w.state.sweep now).madeRoom identity.principal = s at hstep hroom hpath
  by_cases hfull : maxLogins ≤ s.logins.len
  · rw [if_pos hfull] at hstep
    cases hstep
    exact hpath
  · rw [if_neg hfull] at hstep
    cases hstep
    exact hpath.trans (.single (@Move.signedIn env { w with state := s } (env.digest token) _ _
      hfresh hroom (by simp only; omega) rfl))

end World

/-! ## Granting -/

namespace State

/-- At the cap the oldest native grant goes, or the request is refused. -/
theorem evict_cases (s : State) (login : Digest) (browser : Option BrowserOrigin) :
    s.evict login browser = .error .full ∨
      s.evict login browser = .ok s ∧ s.grantsOf login < maxLoginGrants ∨
      ∃ oldest grant, s.grants.lookup oldest = some grant ∧ grant.login = login ∧
        s.evict login browser = .ok { s with
          grants := s.grants.erase oldest
          tokens := s.tokens.cancel grant.revoked
          approvals := s.approvals.retain fun _ approval => !approval.became oldest } := by
  simp only [evict]
  split_ifs with hfull
  · split
    case h_1 oldest grant holdest =>
      have hmem := List.argmin_mem (Option.mem_def.mpr holdest)
      simp only [List.mem_filter, decide_eq_true_eq] at hmem
      exact .inr (.inr ⟨oldest, grant, AList.mem_lookup_iff.mpr hmem.1.1, hmem.1.2, rfl⟩)
    case h_2 => exact .inl rfl
  · exact .inr (.inl ⟨rfl, Nat.lt_of_not_le hfull⟩)

/-- A login that is found is there. -/
theorem lookup_of_login {s : State} {key : Digest} {now : ℕ} {login : Login}
    (h : s.login key now = some login) : s.logins.lookup key = some login :=
  (Option.filter_eq_some_iff.mp h).1

/-- An approval that became no grant is none that became this one. -/
theorem became_eq_false {approval : Approval} (h : approval.issued = false) (grant : Digest) :
    approval.became grant = false := by
  rw [Approval.issued] at h
  rw [Approval.became]
  split at h
  · cases h
  · rfl

end State

namespace World

open Machine (Path)

variable {env : Env} {w : World} {state : State} {login : Digest} {browser : Option BrowserOrigin}
  {credentials : Credentials} {now : ℕ}

/-- A refused grant is a sequence of moves. -/
theorem grant_error_moves {refusal : GrantRefusal}
    (h : w.state.grant env login browser credentials now = (.error refusal, state)) :
    Path (Move env) w { w with state } [] := by
  rw [State.grant] at h
  match howner : w.state.login login now with
  | none =>
    rw [howner] at h
    cases h
    exact .nil w
  | some owner =>
    simp only [howner, Tokens.child] at h
    split at h
    · cases h
      exact .single .drew
    · cases h

/-- **A grant is made** of a login that is there, with room for it. Approvals that became no grant
yet are left as they are. -/
theorem grant_ok_moves {token : String} (hcap : w.state.Capped)
    (hfresh : env.digest credentials.token ∉ w.grantKeys)
    (h : w.state.grant env login browser credentials now = (.ok token, state)) :
    token = credentials.token ∧
    Path (Move env) w
      { w with state, grantKeys := w.grantKeys ++ [env.digest credentials.token] } [] ∧
    (∃ grant, state.grants.lookup (env.digest token) = some grant ∧ grant.login = login ∧
      grant.browser = browser) ∧
    ∀ c approval, w.state.approvals.lookup c = some approval → approval.issued = false →
      state.approvals.lookup c = some approval := by
  rw [State.grant] at h
  match howner : w.state.login login now with
  | none =>
    rw [howner] at h
    cases h
  | some owner =>
    simp only [howner, Tokens.child] at h
    have hlookup := State.lookup_of_login howner
    set drawn : State :=
      { w.state with tokens := { w.state.tokens with next := w.state.tokens.next + 1 } } with hdrawn
    -- the token is drawn before the room is looked at
    have hdraw : Path (Move env) w { w with state := drawn } [] := .single .drew
    rcases State.evict_cases drawn login browser with hevict | ⟨hevict, hroom⟩ |
      ⟨oldest, evicted, hgrant, hown, hevict⟩
    · rw [hevict] at h
      cases h
    · rw [hevict] at h
      cases h
      refine ⟨rfl, hdraw.trans (.single (@Move.granted env { w with state := drawn } _
        ⟨login, credentials.id, browser, _, ⟨w.state.tokens.next, some owner.revoked.id⟩⟩ owner _
        hfresh hlookup rfl hroom)), ⟨_, AList.lookup_insert _, rfl, rfl⟩, fun c a ha _ => ha⟩
    · rw [hevict] at h
      cases h
      have hcount := AList.len_filter_erase (fun e => decide (e.2.login = login)) hgrant
        (by simpa using hown)
      have hcap : drawn.grantsOf login ≤ maxLoginGrants := hcap.grants login
      have hroom : ((drawn.grants.erase oldest).entries.filter
          fun e => decide (e.2.login = login)).length < maxLoginGrants := by
        rw [State.grantsOf] at hcap
        omega
      refine ⟨rfl, hdraw.trans (.cons (@Move.evicted env { w with state := drawn } oldest
        evicted hgrant) (.single
        (@Move.granted env { w with state := { drawn with
            grants := drawn.grants.erase oldest
            tokens := drawn.tokens.cancel evicted.revoked
            approvals := drawn.approvals.retain fun _ approval => !approval.became oldest } } _
          ⟨login, credentials.id, browser, _, ⟨w.state.tokens.next, some owner.revoked.id⟩⟩ owner _
          hfresh hlookup rfl hroom))), ⟨_, AList.lookup_insert _, rfl, rfl⟩, fun c a ha hissued => ?_⟩
      refine AList.lookup_retain_eq_some.mpr ⟨ha, ?_⟩
      rw [State.became_eq_false hissued]
      rfl

/-! ## Pages, approvals and tokens -/

/-- A page's session is one of the leases given. -/
theorem session_held {w : World} {i : Option ℕ} {session : Option AuthLease}
    (h : w.session i = some session) :
    ∃ lease : Option (Digest × AuthLease), (∀ l ∈ lease, l ∈ w.leases) ∧
      lease.map Prod.snd = session := by
  cases i with
  | none =>
    cases h
    exact ⟨none, by simp, rfl⟩
  | some i =>
    rw [World.session] at h
    rcases hlease : w.leases[i]? with _ | ⟨key, lease⟩
    · simp only [hlease] at h
      cases h
    · simp only [hlease] at h
      split_ifs at h
      cases h
      refine ⟨some (key, lease), fun l hl => ?_, rfl⟩
      cases hl
      exact List.mem_of_getElem? hlease

/-- A terminal's page is a sequence of moves. -/
theorem cliPage_moves {lease : Option (Digest × AuthLease)} (hlease : ∀ l ∈ lease, l ∈ w.leases)
    (text : String) (keys : Option ClientKeys) (looked swept opened : ℕ) :
    Path (Move env) w
      { w with
        state := (w.state.cliPage env (lease.map Prod.snd) text keys w.serial looked swept opened).2.1
        serial := w.serial + 1 }
      (w.state.cliPage env (lease.map Prod.snd) text keys w.serial looked swept opened).2.2 := by
  have hpassed : Path (Move env) w { w with serial := w.serial + 1 } [] := .single .passed
  rw [State.cliPage]
  match Challenge.parse env text with
  | none => exact hpassed
  | some challenge =>
    simp only
    match (w.state.pending challenge looked).bind Approval.browser with
    | some origin => exact hpassed
    | none =>
      match lease with
      | none => exact hpassed
      | some lease =>
        match keys with
        | none => exact hpassed
        | some keys =>
          simp only [Option.map_some]
          match w.state.pending challenge looked with
          | some approval =>
            simp only
            split_ifs <;> exact hpassed
          | none =>
            simp only
            have hsweep : Path (Move env) w { w with state := w.state.sweep swept } [] :=
              sweep_moves w swept
            split_ifs
            · exact hsweep.trans (.single (@Move.opened env { w with state := w.state.sweep swept }
                challenge none keys (some lease) opened hlease))
            · exact hsweep.trans (.single .passed)

/-- A claim is a sequence of moves. -/
theorem claimBrowser_moves (w : World) {lease : Option (Digest × AuthLease)}
    (hlease : ∀ l ∈ lease, l ∈ w.leases) (challenge : Challenge) (origin : BrowserOrigin)
    (keys : ClientKeys) (crossSite : Bool) :
    Path (Move env) w
      { w with
        state :=
          (w.state.claimBrowser (lease.map Prod.snd) challenge origin keys crossSite).2.1 }
      (w.state.claimBrowser (lease.map Prod.snd) challenge origin keys crossSite).2.2 := by
  rw [State.claimBrowser]
  match happroval : w.state.approvals.lookup challenge with
  | none => exact .nil w
  | some approval =>
    simp only
    by_cases hother : approval.browser ≠ some origin ∨ approval.issued
    · rw [if_pos hother]
      exact .nil w
    rw [if_neg hother]
    match lease with
    | none => exact .nil w
    | some lease =>
      simp only [Option.map_some]
      match hstage : approval.stage with
      | .open =>
        simp only
        split_ifs
        · exact .single (.claimed challenge approval lease happroval hstage (hlease lease rfl))
        · exact .nil w
      | .claimed login =>
        simp only
        split_ifs <;> exact .nil w
      | .approved login =>
        simp only
        split_ifs <;> exact .nil w
      | .issued issued => exact .nil w

/-- A browser's page is a sequence of moves. -/
theorem browserPage_moves {lease : Option (Digest × AuthLease)}
    (hlease : ∀ l ∈ lease, l ∈ w.leases) (text : String) (origin : BrowserOrigin)
    (keys : Option ClientKeys) (crossSite : Bool) (looked swept opened : ℕ) :
    Path (Move env) w
      { w with
        state := (w.state.browserPage env (lease.map Prod.snd) text origin keys crossSite w.serial
          looked swept opened).2.1
        serial := w.serial + 1 }
      (w.state.browserPage env (lease.map Prod.snd) text origin keys crossSite w.serial looked swept
        opened).2.2 := by
  have hpassed : Path (Move env) w { w with serial := w.serial + 1 } [] := .single .passed
  rw [State.browserPage]
  match Challenge.parse env text with
  | none => exact hpassed
  | some challenge =>
    match keys with
    | none => exact hpassed
    | some keys =>
      simp only
      match w.state.pending challenge looked with
      | some _ =>
        exact hpassed.trans (claimBrowser_moves { w with serial := w.serial + 1 } hlease challenge
          origin keys crossSite)
      | none =>
        simp only
        have hsweep : Path (Move env) w { w with state := w.state.sweep swept } [] :=
          sweep_moves w swept
        split_ifs
        · have hopened := @Move.opened env { w with state := w.state.sweep swept } challenge
            (some origin) keys none opened (by simp)
          exact (hsweep.trans (.single hopened)).trans (claimBrowser_moves
            { w with
              state := (w.state.sweep swept).openApproval challenge (some origin) keys none opened
                w.serial
              serial := w.serial + 1 } hlease challenge origin keys crossSite)
        · exact hsweep.trans (.single .passed)

/-- Approving is a sequence of moves. -/
theorem approve_moves {proof : Digest × String} (hproof : proof ∈ w.proofs) (text : String)
    (browser : Bool) (now : ℕ) :
    Path (Move env) w
      { w with state := (w.state.approve env proof.1 proof.2 text browser now).2.1 }
      (w.state.approve env proof.1 proof.2 text browser now).2.2 := by
  rw [State.approve]
  match Challenge.parse env text with
  | none => exact .nil w
  | some challenge =>
    simp only
    match happroval : w.state.approvals.lookup challenge with
    | none => exact .nil w
    | some approval =>
      simp only
      split_ifs with hmay hfull
      · exact .nil w
      · obtain ⟨hnow, hlogin, -, hissued⟩ := hmay
        exact .single (.approved challenge approval proof now happroval hlogin hissued hnow hproof)
      · exact .nil w

end World

namespace State

/-- Everything `issue` can do: its answer, the state and what it logs. -/
inductive Issues (env : Env) (s : State) (verifier : String) (origin : Option BrowserOrigin)
    (credentials : Credentials) (now granted : ℕ) : Answer → State → List Event → Prop
  | idle (answer : Answer) (hanswer : ∀ token expires, answer ≠ .token token expires) :
      Issues env s verifier origin credentials now granted answer s []
  | swept (answer : Answer) (hanswer : ∀ token expires, answer ≠ .token token expires) :
      Issues env s verifier origin credentials now granted answer (s.sweep now) []
  | refused (answer : Answer) (hanswer : ∀ token expires, answer ≠ .token token expires)
      (login : Digest) (refusal : GrantRefusal) (state : State)
      (hgrant : (s.sweep now).grant env login origin credentials granted = (.error refusal, state)) :
      Issues env s verifier origin credentials now granted answer state []
  | answered (challenge : Challenge) (approval : Approval) (issued : Issued) (token : String)
      (expires : ℕ) (hchallenge : Challenge.of env verifier = some challenge)
      (happroval : (s.sweep now).approvals.lookup challenge = some approval)
      (hbrowser : approval.browser = origin)
      (hstage : approval.stage = .issued issued) (htoken : issued.token = some token) :
      Issues env s verifier origin credentials now granted (.token token expires) (s.sweep now)
        [.answered approval.serial token]
  | granted (challenge : Challenge) (approval : Approval) (login : Digest) (token : String)
      (expires : ℕ) (state : State) (hchallenge : Challenge.of env verifier = some challenge)
      (happroval : (s.sweep now).approvals.lookup challenge = some approval)
      (hbrowser : approval.browser = origin) (hstage : approval.stage = .approved login)
      (hgrant : (s.sweep now).grant env login origin credentials granted = (.ok token, state)) :
      Issues env s verifier origin credentials now granted (.token token expires)
        (state.becomeGrant env challenge login token now)
        [.granted approval.serial login verifier origin token, .answered approval.serial token]

/-- Everything that issuing a token can do. -/
theorem issue_cases (env : Env) (s : State) (verifier : String) (origin : Option BrowserOrigin)
    (credentials : Credentials) (now looked owned granted : ℕ) :
    Issues env s verifier origin credentials now granted
      (s.issue env verifier origin credentials now looked owned granted).1
      (s.issue env verifier origin credentials now looked owned granted).2.1
      (s.issue env verifier origin credentials now looked owned granted).2.2 := by
  unfold issue
  match hchallenge : Challenge.of env verifier with
  | none => exact .idle _ nofun
  | some challenge =>
    simp only
    generalize happroval : ((s.sweep now).pending challenge looked).filter
        (fun approval => approval.browser = origin) = found
    match found with
    | none => exact .swept _ nofun
    | some approval =>
      obtain ⟨hpending, hbrowser⟩ := Option.filter_eq_some_iff.mp happroval
      have hlookup := (Option.filter_eq_some_iff.mp hpending).1
      have hbrowser : approval.browser = origin := by simpa using hbrowser
      simp only
      match hlogin : approval.login with
      | none => exact .swept _ nofun
      | some login =>
        simp only
        match (s.sweep now).login login owned with
        | none => exact .swept _ nofun
        | some owner =>
          simp only
          match hstage : approval.stage with
          | .issued ⟨_, _, some token, _⟩ =>
            exact .answered challenge approval _ token owner.expires hchallenge hlookup hbrowser
              hstage rfl
          | .issued ⟨_, _, none, _⟩ => exact .swept _ nofun
          | .open =>
            simp only
            split_ifs <;> exact .swept _ nofun
          | .claimed _ =>
            simp only
            split_ifs <;> exact .swept _ nofun
          | .approved login' =>
            simp only
            -- the login that approved is the one the approval is for
            rw [Approval.login, hstage] at hlogin
            cases hlogin
            match hgrant : (s.sweep now).grant env login origin credentials granted with
            | (.error .full, state) => exact .refused .tooManyRequests nofun login .full state hgrant
            | (.error .noLogin, state) => exact .refused .pending nofun login .noLogin state hgrant
            | (.ok token, state) =>
              exact .granted challenge approval login token owner.expires state hchallenge hlookup
                hbrowser hstage hgrant

/-- A grant made for an approval is no other change of the grants. -/
@[simp]
theorem becomeGrant_grants (env : Env) (s : State) (challenge : Challenge) (login : Digest)
    (token : String) (now : ℕ) : (s.becomeGrant env challenge login token now).grants = s.grants := by
  rw [becomeGrant]
  match s.approvals.lookup challenge with
  | none => rfl
  | some approval => rfl

/-- A token request issues for its verifier, and a browser's for its origin, or leaves the state
alone. -/
theorem token_cases (env : Env) (s : State) (browser : Bool) (origin : Option BrowserOrigin)
    (verifier : Option String) (credentials : Credentials) (now looked owned granted : ℕ) :
    (∃ answer, s.token env browser origin verifier credentials now looked owned granted
        = (answer, s, []) ∧ ∀ token expires, answer ≠ .token token expires) ∨
    ∃ proof, verifier = some proof ∧
      s.token env browser origin verifier credentials now looked owned granted
        = s.issue env proof (origin.filter fun _ => browser) credentials now looked owned granted := by
  simp only [token]
  by_cases hforbidden : browser ∧ origin.filter (fun _ => browser) = none
  · rw [if_pos hforbidden]
    exact .inl ⟨_, rfl, nofun⟩
  · rw [if_neg hforbidden]
    split
    case h_1 proof hproof => exact .inr ⟨proof, (Option.filter_eq_some_iff.mp hproof).1, rfl⟩
    case h_2 =>
      refine .inl ⟨_, rfl, fun token expires => ?_⟩
      split_ifs <;> nofun

end State

namespace World

open Machine (Path)

variable {env : Env} {w : World} {credentials : Credentials}

/-- **What a token request comes to.** A grant made is the one its approval becomes. -/
theorem issue_moves (hcap : w.state.Capped) (hfresh : env.digest credentials.token ∉ w.grantKeys)
    {answer : Answer} {state : State} {events : List Event} {verifier : String}
    {origin : Option BrowserOrigin} {now granted : ℕ}
    (h : w.state.Issues env verifier origin credentials now granted answer state events) :
    Path (Move env) w
      { w with
        state
        grantKeys := w.grantKeys ++
          if events.any Event.grants then [env.digest credentials.token] else [] } events := by
  have hsweep : Path (Move env) w { w with state := w.state.sweep now } [] := sweep_moves w now
  have hnone : w.grantKeys ++ [] = w.grantKeys := List.append_nil _
  cases h with
  | idle answer hanswer =>
    simp only [List.any_nil, Bool.false_eq_true, if_false, hnone]
    exact .nil w
  | swept answer hanswer =>
    simp only [List.any_nil, Bool.false_eq_true, if_false, hnone]
    exact hsweep
  | refused answer hanswer login refusal state hgrant =>
    simp only [List.any_nil, Bool.false_eq_true, if_false, hnone]
    exact hsweep.trans (grant_error_moves hgrant)
  | answered challenge approval issued token expires hchallenge happroval hbrowser hstage htoken =>
    simp only [List.any_cons, List.any_nil, Event.grants, Bool.or_false, Bool.false_eq_true,
      if_false, hnone]
    exact hsweep.trans (.single (.answered challenge approval issued token happroval hstage htoken))
  | granted challenge approval login token expires state hchallenge happroval hbrowser hstage
      hgrant =>
    simp only [List.any_cons, Event.grants, Bool.true_or, if_true]
    -- the eviction of an older grant leaves this approval, which issued none yet
    have hissued : approval.issued = false := by rw [Approval.issued, hstage]
    obtain ⟨htoken, hpath, ⟨grant, hlookup, hown, hserved⟩, hkept⟩ :=
      @grant_ok_moves env { w with state := w.state.sweep now } _ _ _ _ _ _ (hcap.sweep now) hfresh
        hgrant
    have hstill := hkept challenge approval happroval hissued
    have hbecame := @Move.became env
      { w with state, grantKeys := w.grantKeys ++ [env.digest credentials.token] } challenge verifier
      approval login token grant (max approval.deadline (now + replay)) (now + replay) hchallenge
      hstill hstage hlookup hown (hserved.trans hbrowser.symm)
    set issued : Approval :=
      { approval with
        deadline := max approval.deadline (now + replay)
        stage := .issued ⟨login, env.digest token, some token, now + replay⟩ } with hset
    have hanswered := @Move.answered env
      { w with
        state := { state with approvals := state.approvals.insert challenge issued }
        grantKeys := w.grantKeys ++ [env.digest credentials.token] } challenge issued _ token
      (AList.lookup_insert _) rfl rfl
    subst hbrowser
    rw [State.becomeGrant, hstill]
    exact (hsweep.trans hpath).trans (.cons hbecame (.single hanswered))

/-- **Every action is a sequence of moves**, where no cap was passed before it. -/
theorem step_moves {w w' : World} {a : Action} {events : List Event} (hcap : w.state.Capped)
    (h : w.step env a = some (w', events)) : Path (Move env) w w' events := by
  cases a with
  | signIn identity token csrf id now expires => exact signIn_moves hcap h
  | signOut login every now =>
    cases h
    exact signOut_moves w login every now
  | cookie token now =>
    simp only [step, State.cookie] at h
    match hlookup : w.state.logins.lookup (env.digest token) with
    | none =>
      simp only [hlookup] at h
      cases h
      exact .nil w
    | some login =>
      simp only [hlookup] at h
      by_cases hlive : now < login.deadline
      · rw [if_pos hlive] at h
        cases h
        exact .single (.session _ login hlookup)
      · rw [if_neg hlive] at h
        cases h
        exact .single (.ended _)
  | bearer token now =>
    simp only [step, State.bearer] at h
    by_cases hform : token.utf8ByteSize ≠ 43 ∨ (env.decode token).map List.length ≠ some 32
    · rw [if_pos hform] at h
      cases h
      exact .nil w
    rw [if_neg hform] at h
    match hgrant : w.state.grants.lookup (env.digest token) with
    | none =>
      simp only [hgrant] at h
      cases h
      exact .nil w
    | some grant =>
      simp only [hgrant] at h
      -- a revoked grant is refused, as is one whose login is over, and nothing changes
      by_cases hrevoked : w.state.tokens.isCancelled grant.revoked
      · rw [if_pos hrevoked] at h
        cases h
        exact .nil w
      rw [if_neg hrevoked] at h
      match hlogin : w.state.login grant.login now with
      | none =>
        simp only [hlogin] at h
        cases h
        exact .nil w
      | some login =>
        simp only [hlogin] at h
        cases h
        exact .single (.bearer _ grant login hgrant (State.lookup_of_login hlogin))
  | grant login browser credentials now =>
    simp only [step] at h
    split_ifs at h with hfresh
    match hgrant : w.state.grant env login browser credentials now with
    | (.error refusal, state) =>
      simp only [hgrant] at h
      cases h
      exact grant_error_moves hgrant
    | (.ok token, state) =>
      simp only [hgrant] at h
      cases h
      exact (grant_ok_moves hcap hfresh hgrant).2.1
  | endLogin key =>
    cases h
    exact .single (.ended key)
  | sweep now =>
    cases h
    exact sweep_moves w now
  | prove i proof now =>
    simp only [step] at h
    match hlease : w.leases[i]? with
    | none =>
      simp only [hlease] at h
      cases h
    | some (key, lease) =>
      simp only [hlease] at h
      split_ifs at h with hproof
      · cases h
        obtain ⟨login, hlogin, hcsrf⟩ := (Option.any_eq_true _ _).mp hproof.2
        rw [decide_eq_true_eq] at hcsrf
        subst hcsrf
        exact .single (.proved lease.login login (State.lookup_of_login hlogin))
      · cases h
        exact .nil w
  | cliPage lease text keys looked swept opened =>
    simp only [step] at h
    match hsession : w.session lease with
    | none =>
      simp only [hsession] at h
      cases h
    | some session =>
      simp only [hsession] at h
      cases h
      obtain ⟨held, hheld, rfl⟩ := session_held hsession
      exact cliPage_moves hheld text keys looked swept opened
  | browserPage lease text origin keys crossSite looked swept opened =>
    simp only [step] at h
    match hsession : w.session lease with
    | none =>
      simp only [hsession] at h
      cases h
    | some session =>
      simp only [hsession] at h
      cases h
      obtain ⟨held, hheld, rfl⟩ := session_held hsession
      exact browserPage_moves hheld text origin keys crossSite looked swept opened
  | approve i text browser now =>
    simp only [step] at h
    match hproof : w.proofs[i]? with
    | none =>
      simp only [hproof] at h
      cases h
    | some proof =>
      simp only [hproof] at h
      cases h
      exact approve_moves (List.mem_of_getElem? hproof) text browser now
  | token browser origin verifier credentials now looked owned granted =>
    by_cases hfresh : env.digest credentials.token ∉ w.grantKeys
    · simp only [step, if_pos hfresh] at h
      cases h
      rcases State.token_cases env w.state browser origin verifier credentials now looked owned
        granted with ⟨answer, heq, -⟩ | ⟨proof, -, heq⟩
      · rw [heq]
        exact issue_moves hcap hfresh
          (@State.Issues.idle env _ "" none credentials now granted .pending nofun)
      · rw [heq]
        exact issue_moves hcap hfresh (State.issue_cases env w.state proof _ credentials now looked
          owned granted)
    · simp only [step, if_neg hfresh] at h
      cases h

end World

end GraphiteMeter.Server.Auth
