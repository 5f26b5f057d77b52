import GraphiteMeter.Server.Auth.Moves

/-!
# Room for approvals

Only approvals that issued no grant yet take up room. A page checks the room before it opens one, and
again before a login claims it, so the bounds hold in every state of the store.
-/

namespace GraphiteMeter.Server.Auth

namespace State

variable {s s' : State} {challenge : Challenge} {approval after : Approval}

/-- The approvals that issued no grant yet. -/
def unissued (s : State) : List Approval :=
  (s.approvals.entries.map Sigma.snd).filter fun approval => !approval.issued

/-! ## What fewer approvals leave -/

/-- Approvals that leave take no others with them. -/
theorem unissued_sublist (h : s'.approvals.entries.Sublist s.approvals.entries) :
    s'.unissued.Sublist s.unissued := by
  unfold unissued
  exact (h.map _).filter _

/-- Dropping approvals leaves fewer of them. -/
theorem unissued_retain (s : State) (p : Challenge → Approval → Bool) :
    (unissued { s with approvals := s.approvals.retain p }).Sublist s.unissued := by
  apply unissued_sublist
  exact List.filter_sublist

/-- Ending a login only takes approvals away. -/
theorem unissued_endLogin (s : State) (key : Digest) : (s.endLogin key).unissued.Sublist s.unissued :=
  s.unissued_retain fun _ approval => approval.login ≠ some key

/-- So does ending several. -/
theorem unissued_foldl_endLogin (s : State) (keys : List Digest) :
    (keys.foldl endLogin s).unissued.Sublist s.unissued := by
  induction keys generalizing s with
  | nil => exact .refl _
  | cons key keys ih => exact (ih (s.endLogin key)).trans (s.unissued_endLogin key)

/-- A token is forgotten by an approval that issued its grant, which takes up no room. -/
theorem forgetToken_eq (approval : Approval) (now : ℕ) :
    approval.issued = false ∧ approval.forgetToken now = approval ∨
      approval.issued = true ∧ (approval.forgetToken now).issued = true := by
  unfold Approval.forgetToken
  match hstage : approval.stage with
  | .open | .claimed _ | .approved _ =>
    left
    exact ⟨by rw [Approval.issued, hstage], rfl⟩
  | .issued issued =>
    have hissued : approval.issued = true := by rw [Approval.issued, hstage]
    refine .inr ⟨hissued, ?_⟩
    show Approval.issued (if issued.replayUntil ≤ now then _ else _) = true
    split_ifs
    · rfl
    · exact hissued

/-- Forgetting old tokens leaves who was issued one. -/
theorem filter_forgetToken (approvals : List Approval) (now : ℕ) :
    (approvals.map fun approval => approval.forgetToken now).filter (fun approval => !approval.issued)
      = approvals.filter fun approval => !approval.issued := by
  induction approvals with
  | nil => rfl
  | cons approval approvals ih =>
    rw [List.map_cons, List.filter_cons, List.filter_cons, ih]
    rcases forgetToken_eq approval now with ⟨hissued, heq⟩ | ⟨hissued, hafter⟩
    · rw [heq]
    · rw [hissued, hafter]
      rfl

/-- So it leaves the approvals that wait. -/
theorem unissued_forgetToken (s : State) (now : ℕ) :
    unissued { s with
      approvals := s.approvals.mapValues fun _ approval => approval.forgetToken now } = s.unissued := by
  have hforgot := filter_forgetToken (s.approvals.entries.map Sigma.snd) now
  rw [List.map_map] at hforgot
  unfold unissued AList.mapValues
  rw [List.map_map]
  exact hforgot

/-- A sweep only takes approvals away. -/
theorem unissued_sweep (s : State) (now : ℕ) : (s.sweep now).unissued.Sublist s.unissued := by
  let expired := (s.logins.entries.filter fun e => e.2.deadline ≤ now).map Sigma.fst
  let ended := expired.foldl endLogin s
  let forgot : State :=
    { ended with approvals := ended.approvals.mapValues fun _ approval => approval.forgetToken now }
  have hended : ended.unissued.Sublist s.unissued := s.unissued_foldl_endLogin expired
  have hforgot : forgot.unissued = ended.unissued := ended.unissued_forgetToken now
  rw [← hforgot] at hended
  exact (forgot.unissued_retain fun _ approval => now < approval.deadline).trans hended

/-- So does evicting grants. -/
theorem unissued_evict {login : Digest} {browser : Option BrowserOrigin}
    (h : s.evict login browser = .ok s') : s'.unissued.Sublist s.unissued := by
  rcases s.evict_cases login browser with herror | ⟨hok, -⟩ | ⟨oldest, grant, -, -, hok⟩
  · rw [herror] at h
    cases h
  · rw [hok] at h
    cases h
    exact .refl _
  · rw [hok] at h
    cases h
    exact s.unissued_retain fun _ approval => !approval.became oldest

/-- So does a new grant. -/
theorem unissued_grant (env : Env) (s : State) (login : Digest) (browser : Option BrowserOrigin)
    (credentials : Credentials) (now : ℕ) :
    (s.grant env login browser credentials now).2.unissued.Sublist s.unissued := by
  rw [grant]
  split
  · exact .refl _
  · simp only
    split
    · exact .refl _
    · next owner _ _ kept hevict =>
      have hkept : kept.unissued.Sublist
          (unissued { s with tokens := (s.tokens.child owner.revoked).2 }) := unissued_evict hevict
      exact hkept

/-- So does a sign-in. -/
theorem unissued_signIn (env : Env) (s : State) (identity : Identity) (token csrf id : String)
    (now expires : ℕ) :
    (s.signIn env identity token csrf id now expires).2.unissued.Sublist s.unissued := by
  have hroom : ((s.sweep now).madeRoom identity.principal).unissued.Sublist s.unissued := by
    rcases madeRoom_cases (s.sweep now) identity.principal with ⟨heq, -⟩ | ⟨oldest, -, heq⟩
    · rw [heq]
      exact s.unissued_sweep now
    · rw [heq]
      exact ((s.sweep now).unissued_endLogin oldest).trans (s.unissued_sweep now)
  rw [signIn]
  simp only
  split_ifs
  · exact hroom
  · exact hroom

/-- So does a sign-out. -/
theorem unissued_signOut (s : State) (login : Digest) (every : Bool) (now : ℕ) :
    (s.signOut login every now).2.unissued.Sublist s.unissued := by
  rw [signOut]
  split
  · exact .refl _
  · exact s.unissued_foldl_endLogin _

/-- So does reading a cookie. -/
theorem unissued_cookie (env : Env) (s : State) (token : String) (now : ℕ) :
    (s.cookie env token now).2.unissued.Sublist s.unissued := by
  simp only [cookie]
  split
  · split_ifs
    · exact .refl _
    · exact s.unissued_endLogin _
  · exact .refl _

/-! ## What one more approval leaves -/

/-- The approvals of other challenges that take up room. -/
def besides (s : State) (challenge : Challenge) : List Approval :=
  unissued { s with approvals := s.approvals.erase challenge }

/-- The other approvals, with the one inserted if it takes up room. -/
theorem unissued_insert (s : State) (challenge : Challenge) (after : Approval) :
    unissued { s with approvals := s.approvals.insert challenge after } =
      (if after.issued then [] else [after]) ++ s.besides challenge := by
  rw [unissued, AList.entries_insert, List.map_cons, List.filter_cons]
  cases after.issued with
  | false => rfl
  | true => rfl

/-- The others beside a challenge are among those that wait. -/
theorem besides_sublist (s : State) (challenge : Challenge) :
    (s.besides challenge).Sublist s.unissued := by
  apply unissued_sublist
  exact AList.entries_erase_sublist challenge s.approvals

/-- An approval that takes up room is one of those that do. -/
theorem unissued_perm (h : s.approvals.lookup challenge = some approval)
    (hissued : approval.issued = false) :
    s.unissued.Perm (approval :: s.besides challenge) := by
  have hperm := ((AList.perm_cons_erase h).map Sigma.snd).filter fun approval => !approval.issued
  rw [List.map_cons, List.filter_cons_of_pos (by simp [hissued])] at hperm
  exact hperm

/-- An approval that becomes a grant waits no longer. -/
theorem unissued_becomeGrant (env : Env) (s : State) (challenge : Challenge) (login : Digest)
    (token : String) (now : ℕ) :
    (s.becomeGrant env challenge login token now).unissued.Sublist s.unissued := by
  rw [becomeGrant]
  split
  · exact .refl _
  · simp only
    rw [unissued_insert]
    exact s.besides_sublist challenge

/-- Handing out a token only takes approvals away. -/
theorem unissued_token (env : Env) (s : State) (browser : Bool) (origin : Option BrowserOrigin)
    (verifier : Option String) (credentials : Credentials) (now looked owned granted : ℕ) :
    (s.token env browser origin verifier credentials now looked owned granted).2.1.unissued.Sublist
      s.unissued := by
  rcases s.token_cases env browser origin verifier credentials now looked owned granted with
    ⟨answer, heq, -⟩ | ⟨proof, -, heq⟩
  · rw [heq]
  · rw [heq]
    have hissues := issue_cases env s proof (origin.filter fun _ => browser) credentials now looked
      owned granted
    generalize s.issue env proof (origin.filter fun _ => browser) credentials now looked owned
      granted = result at hissues
    obtain ⟨answer, state, events⟩ := result
    have hgrant : ∀ login, (((s.sweep now).grant env login (origin.filter fun _ => browser) credentials
        granted).2).unissued.Sublist s.unissued := fun login =>
      ((s.sweep now).unissued_grant env login _ credentials granted).trans (s.unissued_sweep now)
    cases hissues with
    | idle => exact .refl _
    | swept => exact s.unissued_sweep now
    | refused answer hanswer login refusal state heq =>
      have hlogin := hgrant login
      rw [heq] at hlogin
      exact hlogin
    | answered => exact s.unissued_sweep now
    | granted challenge approval login token expires state hchallenge happroval hbrowser hstage heq =>
      have hlogin := hgrant login
      rw [heq] at hlogin
      exact (state.unissued_becomeGrant env challenge login token now).trans hlogin

/-! ## Room -/

/-- A login has room with fewer than eight approvals. -/
theorem approvalRoom_login_iff {login : Option Digest} {keys : ClientKeys} :
    (s.approvalRoom login keys).login = true ↔
      s.unissued.countP (fun approval => approval.login = login) < maxLoginApprovals := by
  show decide _ = true ↔ _
  rw [decide_eq_true_eq]
  rfl

/-- There is shared room while the total and every key's share have some. -/
theorem approvalRoom_shared_iff {login : Option Digest} {keys : ClientKeys} :
    (s.approvalRoom login keys).shared = true ↔
      (s.unissued.length < maxApprovals ∧ (login.isSome ∨
        s.unissued.countP (fun approval => approval.login = login) < maxApprovals / 2)) ∧
      ∀ key share, (key, share) ∈ keys.shares maxClientApprovals →
        s.unissued.countP (fun approval => approval.clients.contains key) < share := by
  show decide (_ ∧ ¬ shareFull keys maxClientApprovals _ = true) = true ↔ _
  rw [decide_eq_true_eq, shareFull, List.any_eq_true]
  refine and_congr Iff.rfl ?_
  push Not
  constructor
  · intro h key share hshare
    exact not_le.mp fun hle => h (key, share) hshare (decide_eq_true hle)
  · rintro h ⟨key, share⟩ hshare hle
    exact absurd (h key share hshare) (not_lt.mpr (of_decide_eq_true hle))

/-- The bounds on the approvals that take up room. -/
structure Roomy (approvals : List Approval) : Prop where
  total : approvals.length ≤ maxApprovals
  login : ∀ login,
    approvals.countP (fun approval => approval.login = some login) ≤ maxLoginApprovals
  client : ∀ (keys : ClientKeys) key share, (key, share) ∈ keys.shares maxClientApprovals →
    approvals.countP (fun approval => approval.clients.contains key) ≤ share

/-- Room for one more approval beside the others. -/
structure Fits (others : List Approval) (approval : Approval) : Prop where
  total : others.length < maxApprovals
  login : ∀ login, approval.login = some login →
    others.countP (fun approval => approval.login = some login) < maxLoginApprovals
  client : ∀ (keys : ClientKeys) key share, (key, share) ∈ keys.shares maxClientApprovals →
    key ∈ approval.clients →
    others.countP (fun approval => approval.clients.contains key) < share

variable {approvals others kept : List Approval}

/-- Fewer approvals leave as much room. -/
theorem Roomy.sublist (h : Roomy approvals) (hkept : kept.Sublist approvals) : Roomy kept where
  total := hkept.length_le.trans h.total
  login login := hkept.countP_le.trans (h.login login)
  client keys key share hshare := hkept.countP_le.trans (h.client keys key share hshare)

/-- The order of approvals does not matter. -/
theorem Roomy.perm (h : Roomy approvals) (hperm : approvals.Perm others) : Roomy others where
  total := hperm.length_eq ▸ h.total
  login login := hperm.countP_eq _ ▸ h.login login
  client keys key share hshare := hperm.countP_eq _ ▸ h.client keys key share hshare

/-- One that is counted needs room, one that is not takes none. -/
theorem countP_cons_le {p : Approval → Bool} {bound : ℕ} (hothers : others.countP p ≤ bound)
    (hroom : p approval = true → others.countP p < bound) :
    (approval :: others).countP p ≤ bound := by
  by_cases hp : p approval = true
  · rw [List.countP_cons_of_pos hp]
    exact hroom hp
  · rw [List.countP_cons_of_neg hp]
    exact hothers

/-- One more that fits keeps to the bounds. -/
theorem Roomy.cons (h : Roomy others) (hfits : Fits others approval) : Roomy (approval :: others) where
  total := hfits.total
  login login := countP_cons_le (h.login login) fun hp => hfits.login login (of_decide_eq_true hp)
  client keys key share hshare :=
    countP_cons_le (h.client keys key share hshare) fun hp =>
      hfits.client keys key share hshare (List.contains_iff_mem.mp hp)

/-- One approval becomes another of the same clients, whose login has room if it is new. -/
theorem Roomy.replace (h : Roomy (approval :: others)) (hclients : after.clients = approval.clients)
    (hlogin : ∀ login, after.login = some login → approval.login = some login ∨
      others.countP (fun approval => approval.login = some login) < maxLoginApprovals) :
    Roomy (after :: others) where
  total := h.total
  login login := by
    refine countP_cons_le ((h.sublist (List.sublist_cons_self _ _)).login login) fun hp => ?_
    rcases hlogin login (of_decide_eq_true hp) with hsame | hroom
    · have hbefore := h.login login
      rw [List.countP_cons, if_pos (decide_eq_true hsame)] at hbefore
      exact hbefore
    · exact hroom
  client keys key share hshare := by
    have hbefore := h.client keys key share hshare
    rw [List.countP_cons] at hbefore ⊢
    rw [hclients]
    exact hbefore

/-- Shared room for a client is room for an approval of its keys. -/
theorem fits_of_room {login : Option Digest} {keys : ClientKeys}
    (hshared : (s.approvalRoom login keys).shared = true) (hothers : others.Sublist s.unissued)
    (hclients : approval.clients = keys.iter)
    (hlogin : ∀ login, approval.login = some login →
      others.countP (fun approval => approval.login = some login) < maxLoginApprovals) :
    Fits others approval := by
  obtain ⟨⟨htotal, -⟩, hclient⟩ := approvalRoom_shared_iff.mp hshared
  refine ⟨hothers.length_le.trans_lt htotal, hlogin, fun keys' key share hshare hkey => ?_⟩
  rw [hclients, ← ClientKeys.map_fst_shares keys maxClientApprovals, List.mem_map] at hkey
  obtain ⟨⟨key, amount⟩, hamount, rfl⟩ := hkey
  have hsame : amount = share :=
    (ClientKeys.share_eq hamount).trans (ClientKeys.share_eq hshare).symm
  subst hsame
  exact hothers.countP_le.trans_lt (hclient key amount hamount)

/-! ## What the handlers do to the room -/

/-- How many of them are unclaimed. -/
def opens (approvals : List Approval) : ℕ := approvals.countP fun approval => approval.stage = .open

/-- What an action does to the approvals that take up room. `crowds` tells if it may leave one
unclaimed beyond half the room. -/
inductive Recount (crowds : Bool) (before : List Approval) : List Approval → Prop
  | fewer (after : List Approval) (hafter : after.Sublist before) : Recount crowds before after
  | opened (approval : Approval) (others : List Approval) (hothers : others.Sublist before)
      (hfits : Fits others approval)
      (hhalf : approval.stage = .open → crowds = false → opens others < maxApprovals / 2) :
      Recount crowds before (approval :: others)
  | claimed (approval : Approval) (others : List Approval) (login : Digest)
      (hbefore : before.Perm (approval :: others))
      (hroom : others.countP (fun approval => approval.login = some login) < maxLoginApprovals) :
      Recount crowds before ({ approval with stage := .claimed login } :: others)
  | approved (approval : Approval) (others : List Approval) (login : Digest)
      (hbefore : before.Perm (approval :: others)) (hlogin : approval.login = some login) :
      Recount crowds before ({ approval with stage := .approved login } :: others)

/-- **Every recount keeps the bounds.** -/
theorem Recount.roomy {crowds : Bool} {before after : List Approval}
    (h : Recount crowds before after) (hroomy : Roomy before) : Roomy after := by
  cases h with
  | fewer _ hafter => exact hroomy.sublist hafter
  | opened approval others hothers hfits hhalf => exact (hroomy.sublist hothers).cons hfits
  | claimed approval others login hbefore hroom =>
    refine (hroomy.perm hbefore).replace rfl fun login' hlogin => .inr ?_
    cases hlogin
    exact hroom
  | approved approval others login hbefore hlogin =>
    refine (hroomy.perm hbefore).replace rfl fun login' hlogin' => .inl ?_
    cases hlogin'
    exact hlogin

/-- A recount that crowds nothing keeps the unclaimed to half the room. -/
theorem Recount.opens_le {before after : List Approval} (h : Recount false before after)
    (hbefore : opens before ≤ maxApprovals / 2) : opens after ≤ maxApprovals / 2 := by
  cases h with
  | fewer _ hafter => exact hafter.countP_le.trans hbefore
  | opened approval others hothers hfits hhalf =>
    apply countP_cons_le (hothers.countP_le.trans hbefore)
    intro hopen
    exact hhalf (of_decide_eq_true hopen) rfl
  | claimed approval others login hperm hroom =>
    rw [opens, hperm.countP_eq] at hbefore
    exact ((List.sublist_cons_self _ _).countP_le).trans hbefore
  | approved approval others login hperm hlogin =>
    rw [opens, hperm.countP_eq] at hbefore
    exact ((List.sublist_cons_self _ _).countP_le).trans hbefore

variable {before : List Approval}

/-- A step that crowds nothing is one that may. -/
theorem Recount.of_crowds {before after : List Approval} (h : Recount false before after)
    (crowds : Bool) : Recount crowds before after := by
  cases h with
  | fewer _ hafter => exact .fewer _ hafter
  | opened approval others hothers hfits hhalf =>
    exact .opened approval others hothers hfits fun hopen _ => hhalf hopen rfl
  | claimed approval others login hbefore hroom => exact .claimed approval others login hbefore hroom
  | approved approval others login hbefore hlogin =>
    exact .approved approval others login hbefore hlogin

/-- An opened approval takes its challenge's place. -/
theorem unissued_openApproval (s : State) (challenge : Challenge) (browser : Option BrowserOrigin)
    (keys : ClientKeys) (login : Option Digest) (now serial : ℕ) :
    (s.openApproval challenge browser keys login now serial).unissued =
      ⟨browser, keys.iter, login.elim .open .claimed, now + approvalLifetime, serial⟩ ::
        s.besides challenge := by
  rw [openApproval, unissued_insert]
  cases login with
  | none => rfl
  | some login => rfl

/-- A terminal's page opens an approval only where it fits. -/
theorem cliPage_recount (env : Env) (s : State) (lease : Option AuthLease) (text : String)
    (keys : Option ClientKeys) (serial looked swept opened : ℕ) :
    Recount false s.unissued
      (s.cliPage env lease text keys serial looked swept opened).2.1.unissued := by
  have hsame : Recount false s.unissued s.unissued := .fewer _ (.refl _)
  rw [cliPage]
  cases Challenge.parse env text with
  | none => exact hsame
  | some challenge =>
    simp only
    cases (s.pending challenge looked).bind Approval.browser with
    | some origin => exact hsame
    | none =>
      rcases lease with _ | lease
      · exact hsame
      rcases keys with _ | keys
      · exact hsame
      · cases s.pending challenge looked with
        | some approval =>
          simp only
          split_ifs <;> exact hsame
        | none =>
          simp only
          split_ifs with hroom
          · -- the room was counted after the sweep, over the approvals that it left
            obtain ⟨hlogin, hshared⟩ := hroom
            rw [unissued_openApproval]
            have hothers := (s.sweep swept).besides_sublist challenge
            refine .opened _ _ (hothers.trans (s.unissued_sweep swept))
              (fits_of_room hshared hothers rfl fun login heq => ?_) fun hopen => by cases hopen
            obtain rfl : lease.login = login := Option.some.inj heq
            exact hothers.countP_le.trans_lt (approvalRoom_login_iff.mp hlogin)
          · exact .fewer _ (s.unissued_sweep swept)

/-- A login claims an open approval where it has room. -/
theorem claimBrowser_cases (s : State) (lease : Option AuthLease) (challenge : Challenge)
    (origin : BrowserOrigin) (keys : ClientKeys) (crossSite : Bool) :
    (s.claimBrowser lease challenge origin keys crossSite).2.1 = s ∨
      ∃ approval lease', lease = some lease' ∧ s.approvals.lookup challenge = some approval ∧
        approval.stage = .open ∧
        s.unissued.countP (fun approval => approval.login = some lease'.login) < maxLoginApprovals ∧
        (s.claimBrowser lease challenge origin keys crossSite).2.1 =
          { s with approvals :=
              s.approvals.insert challenge { approval with stage := .claimed lease'.login } } := by
  unfold claimBrowser
  match happroval : s.approvals.lookup challenge with
  | none => exact .inl rfl
  | some approval =>
    simp only
    -- an approval of another origin, or one that issued its grant, is left alone
    by_cases hother : approval.browser ≠ some origin ∨ approval.issued
    · rw [if_pos hother]
      exact .inl rfl
    rw [if_neg hother]
    match lease with
    | none => exact .inl rfl
    | some lease =>
      match hstage : approval.stage with
      | .open =>
        simp only
        split_ifs with hroom
        · exact .inr ⟨approval, lease, rfl, rfl, hstage, approvalRoom_login_iff.mp hroom, rfl⟩
        · exact .inl rfl
      | .claimed login | .approved login =>
        simp only
        split_ifs <;> exact .inl rfl
      | .issued issued => exact .inl rfl

/-- A claim moves an approval to its login only where it fits. -/
theorem claimBrowser_recount (s : State) (lease : Option AuthLease) (challenge : Challenge)
    (origin : BrowserOrigin) (keys : ClientKeys) (crossSite : Bool) :
    Recount false s.unissued
      (s.claimBrowser lease challenge origin keys crossSite).2.1.unissued := by
  rcases s.claimBrowser_cases lease challenge origin keys crossSite with
    heq | ⟨approval, lease', -, hlookup, hopen, hroom, heq⟩
  · rw [heq]
    exact .fewer _ (.refl _)
  · -- the approval keeps its place in the room, and is the login's from here on
    have hissued : approval.issued = false := by rw [Approval.issued, hopen]
    have hothers := s.besides_sublist challenge
    rw [heq, unissued_insert]
    exact .claimed approval _ lease'.login (unissued_perm hlookup hissued)
      (hothers.countP_le.trans_lt hroom)

/-- An approval opened for a browser is claimed at once by a login that has room. -/
theorem claimBrowser_openApproval (s : State) (lease : Option AuthLease) (challenge : Challenge)
    (origin : BrowserOrigin) (keys : ClientKeys) (crossSite : Bool) (now serial : ℕ) :
    ((s.openApproval challenge (some origin) keys none now serial).claimBrowser lease challenge origin
        keys crossSite).2.1 =
      match lease with
      | none => s.openApproval challenge (some origin) keys none now serial
      | some lease =>
        if (s.besides challenge).countP (fun approval => approval.login = some lease.login)
            < maxLoginApprovals then
          s.openApproval challenge (some origin) keys (some lease.login) now serial
        else s.openApproval challenge (some origin) keys none now serial := by
  have hlookup : (s.openApproval challenge (some origin) keys none now serial).approvals.lookup
      challenge = some ⟨some origin, keys.iter, .open, now + approvalLifetime, serial⟩ :=
    AList.lookup_insert _
  rw [claimBrowser, hlookup]
  simp only [ne_eq, not_true_eq_false, false_or, Approval.issued, Bool.false_eq_true, if_false]
  cases lease with
  | none => rfl
  | some lease =>
    simp only
    have hroom : ((s.openApproval challenge (some origin) keys none now serial).approvalRoom
        (some lease.login) keys).login = true ↔
        (s.besides challenge).countP (fun approval => approval.login = some lease.login)
          < maxLoginApprovals := by
      rw [approvalRoom_login_iff, unissued_openApproval,
        List.countP_cons_of_neg (by simp [Approval.login])]
    rw [if_congr hroom rfl rfl]
    split_ifs
    · -- the claim replaces what was opened under the same challenge
      show State.mk _ _ ((s.approvals.insert challenge _).insert challenge _) _ _ = _
      rw [AList.insert_insert]
      rfl
    · rfl

/-- Whether the browser page of a signed-in client leaves an approval unclaimed beyond half the room:
it opens one that its login has no room to claim, where the unclaimed of other challenges already
take that half. -/
def crowds (env : Env) (s : State) (lease : Option AuthLease) (text : String)
    (keys : Option ClientKeys) (looked swept : ℕ) : Bool :=
  match Challenge.parse env text, lease, keys with
  | some challenge, some lease, some keys =>
    let swept := s.sweep swept
    let others := swept.besides challenge
    (s.pending challenge looked).isNone ∧ (swept.approvalRoom (some lease.login) keys).shared ∧
      maxLoginApprovals ≤ others.countP (fun approval => approval.login = some lease.login) ∧
      maxApprovals / 2 ≤ opens others
  | _, _, _ => false

/-- Open approvals are at most those without a login. -/
theorem opens_le (approvals : List Approval) :
    opens approvals ≤ approvals.countP fun approval => approval.login = none := by
  refine List.countP_mono_left fun approval _ hopen => ?_
  rw [decide_eq_true_eq] at hopen ⊢
  rw [Approval.login, hopen]

/-- What opening an approval before sign-in does, for a login that may claim it at once. -/
theorem opened_recount (s : State) (lease : Option AuthLease) (challenge : Challenge)
    (origin : BrowserOrigin) (keys : ClientKeys) (crossSite : Bool) (now serial : ℕ)
    (hbefore : s.unissued.Sublist before)
    (hshared : (s.approvalRoom (lease.map AuthLease.login) keys).shared = true) :
    Recount
      (lease.any fun lease =>
        maxLoginApprovals ≤
            (s.besides challenge).countP (fun approval => approval.login = some lease.login) ∧
          maxApprovals / 2 ≤ opens (s.besides challenge))
      before
      ((s.openApproval challenge (some origin) keys none now serial).claimBrowser lease challenge
        origin keys crossSite).2.1.unissued := by
  have hothers := s.besides_sublist challenge
  rw [claimBrowser_openApproval]
  cases lease with
  | none =>
    simp only
    rw [unissued_openApproval]
    refine .opened _ _ (hothers.trans hbefore) (fits_of_room hshared hothers rfl nofun) fun _ _ => ?_
    -- before sign-in the shared room counts all that no login claimed, the unclaimed among them
    obtain ⟨⟨-, hhalf⟩, -⟩ := approvalRoom_shared_iff.mp hshared
    calc opens (s.besides challenge)
        ≤ opens s.unissued := hothers.countP_le
      _ ≤ s.unissued.countP fun approval => approval.login = none := opens_le _
      _ < maxApprovals / 2 := hhalf.resolve_left nofun
  | some lease =>
    simp only
    split_ifs with hroom
    · rw [unissued_openApproval]
      refine .opened _ _ (hothers.trans hbefore)
        (fits_of_room hshared hothers rfl fun login heq => ?_) fun hopen => by cases hopen
      obtain rfl : lease.login = login := Option.some.inj heq
      exact hroom
    · -- the login has no room, and what was opened for it stays unclaimed
      rw [unissued_openApproval]
      refine .opened _ _ (hothers.trans hbefore) (fits_of_room hshared hothers rfl nofun)
        fun _ hcrowds => ?_
      rw [Option.any_some, decide_eq_false_iff_not] at hcrowds
      exact not_le.mp fun hhalf => hcrowds ⟨not_lt.mp hroom, hhalf⟩

/-- A browser's page opens an approval only where it fits, or crowds. -/
theorem browserPage_recount (env : Env) (s : State) (lease : Option AuthLease) (text : String)
    (origin : BrowserOrigin) (keys : Option ClientKeys) (crossSite : Bool)
    (serial looked swept opened : ℕ) :
    Recount (s.crowds env lease text keys looked swept) s.unissued
      (s.browserPage env lease text origin keys crossSite serial looked swept opened).2.1.unissued := by
  have hsame (crowds : Bool) : Recount crowds s.unissued s.unissued := .fewer _ (.refl _)
  have hsweep := s.unissued_sweep swept
  unfold browserPage crowds
  match Challenge.parse env text with
  | none => exact hsame _
  | some challenge =>
    match keys with
    | none => exact hsame _
    | some keys =>
      simp only
      match hpending : s.pending challenge looked with
      | some _ =>
        exact (s.claimBrowser_recount lease challenge origin keys crossSite).of_crowds _
      | none =>
        simp only
        by_cases hshared : ((s.sweep swept).approvalRoom (lease.map AuthLease.login) keys).shared
        · rw [if_pos hshared]
          have hopened := (s.sweep swept).opened_recount lease challenge origin keys crossSite opened
            serial hsweep hshared
          cases lease with
          | none => exact hopened
          | some lease =>
            rw [Option.map_some] at hshared
            simpa [hshared, hpending] using hopened
        · rw [if_neg hshared]
          exact .fewer _ hsweep

/-- Approving leaves the count. -/
theorem approve_recount (env : Env) (s : State) (login : Digest) (csrf text : String)
    (browser : Bool) (now : ℕ) :
    Recount false s.unissued (s.approve env login csrf text browser now).2.1.unissued := by
  have hsame : Recount false s.unissued s.unissued := .fewer _ (.refl _)
  rw [approve]
  cases Challenge.parse env text with
  | none => exact hsame
  | some challenge =>
    simp only
    cases hlookup : s.approvals.lookup challenge with
    | none => exact hsame
    | some approval =>
      simp only
      split_ifs with hmay hfull
      · exact hsame
      · obtain ⟨-, hlogin, -, hissued⟩ := hmay
        rw [unissued_insert]
        exact .approved approval _ login (unissued_perm hlookup hissued) hlogin
      · exact hsame

end State

namespace World

open State

variable {env : Env} {w w' : World} {a : Action} {events : List Event}

/-- Whether an action leaves an approval unclaimed beyond half the room. -/
def crowds (env : Env) (w : World) : Action → Bool
  | .browserPage lease text _ keys _ looked swept _ =>
    (w.session lease).any fun lease => w.state.crowds env lease text keys looked swept
  | _ => false

/-- **One step** recounts the approvals as its page does. -/
theorem step_recount (h : w.step env a = some (w', events)) :
    Recount (w.crowds env a) w.state.unissued w'.state.unissued := by
  have hfewer {state : State} (hstate : state.unissued.Sublist w.state.unissued) :
      Recount false w.state.unissued state.unissued := .fewer _ hstate
  cases a with
  | signIn identity token csrf id now expires =>
    have hsignIn := w.state.unissued_signIn env identity token csrf id now expires
    rw [step] at h
    split_ifs at h with hfresh
    split at h
    all_goals
      next heq =>
        cases h
        rw [heq] at hsignIn
        exact hfewer hsignIn
  | signOut login every now =>
    cases h
    exact hfewer (w.state.unissued_signOut login every now)
  | cookie token now =>
    have hcookie := w.state.unissued_cookie env token now
    rw [step] at h
    split at h
    all_goals
      next heq =>
        cases h
        rw [heq] at hcookie
        exact hfewer hcookie
  | bearer token now =>
    rw [step] at h
    split at h
    · cases h
      exact hfewer (.refl _)
    · cases h
      exact hfewer (.refl _)
  | grant login browser credentials now =>
    have hgrant := w.state.unissued_grant env login browser credentials now
    rw [step] at h
    split_ifs at h with hfresh
    split at h
    all_goals
      next heq =>
        cases h
        rw [heq] at hgrant
        exact hfewer hgrant
  | endLogin key =>
    cases h
    exact hfewer (w.state.unissued_endLogin key)
  | sweep now =>
    cases h
    exact hfewer (w.state.unissued_sweep now)
  | prove i proof now =>
    rw [step] at h
    split at h
    · cases h
    · split_ifs at h
      · cases h
        exact hfewer (.refl _)
      · cases h
        exact hfewer (.refl _)
  | cliPage lease text keys looked swept opened =>
    rw [step] at h
    split at h
    · cases h
    · cases h
      exact w.state.cliPage_recount env _ text keys w.serial looked swept opened
  | browserPage lease text origin keys crossSite looked swept opened =>
    rw [step] at h
    rw [crowds]
    cases hsession : w.session lease with
    | none =>
      rw [hsession] at h
      cases h
    | some session =>
      rw [hsession] at h
      cases h
      exact w.state.browserPage_recount env session text origin keys crossSite w.serial looked swept
        opened
  | approve i text browser now =>
    rw [step] at h
    split at h
    · cases h
    · next login csrf _ =>
      cases h
      exact w.state.approve_recount env login csrf text browser now
  | token browser origin verifier credentials now looked owned granted =>
    rw [step] at h
    split_ifs at h
    cases h
    exact hfewer (w.state.unissued_token env browser origin verifier credentials now looked owned
      granted)

/-- **Approvals stay within their room** in every run: those of the server, of each login and of each
client's key. -/
theorem approvals_roomy {actions : List Action} {log : List Event}
    (hrun : Machine.run (step env) new actions = some (w, log)) :
    w.state.unissued.length ≤ 256 ∧
    (∀ login, w.state.unissued.countP (fun approval => approval.login = some login) ≤ 8) ∧
    ∀ (keys : ClientKeys) key share, (key, share) ∈ keys.shares maxClientApprovals →
      w.state.unissued.countP (fun approval => approval.clients.contains key) ≤ share := by
  have hnew : Roomy new.state.unissued :=
    ⟨Nat.zero_le _, fun _ => Nat.zero_le _, fun _ _ _ _ => Nat.zero_le _⟩
  have hroomy := Machine.run_keeps (fun w => Roomy w.state.unissued)
    (fun _ _ _ _ hroomy hstep => (step_recount hstep).roomy hroomy) hnew hrun
  exact ⟨hroomy.total, hroomy.login, hroomy.client⟩

/-- The operator's session opens and approves the terminal's challenge. -/
theorem approvals_roomy_terminal :
    ∃ w log, Machine.run (step terminalEnv) new (signsIn ++ approvesTerminal) = some (w, log) ∧
      w.state.unissued.length = 1 ∧
      ∀ login, w.state.unissued.countP (fun approval => approval.login = some login) ≤ 8 := by
  have heval : ((Machine.run (step terminalEnv) new (signsIn ++ approvesTerminal)).map fun e =>
      e.1.state.unissued.length) = some 1 := by
    decide +kernel
  obtain ⟨⟨w, log⟩, hrun, hlen⟩ := Option.map_eq_some_iff.mp heval
  exact ⟨w, log, hrun, hlen, (approvals_roomy hrun).2.1⟩

end World

end GraphiteMeter.Server.Auth
