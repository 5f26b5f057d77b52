import GraphiteMeter.Server.Auth.Moves

/-!
# The auth store holds together

Three maps refer to one another and are pruned from five places. `Whole` is what every move keeps of
them, of the caps, and of the leases given out: a lease is backed by the login or grant it was given
for, or its revocation token is cancelled.

A page's login may end before its handler locks the store again, which then claims an approval for a
login that is gone: `claimed_after_end` shows one. Only so does an approval outlast its login
(`run_claims`): one claimed for a login that was there goes with it.
-/

namespace GraphiteMeter.Server.Auth

/-! ## Cancellation -/

namespace Tokens

/-- A token is cancelled by itself or through its parent. -/
theorem isCancelled_iff {t : Tokens} {token : CancellationToken} :
    t.isCancelled token = true ↔
      token.id ∈ t.cancelled ∨ ∃ parent, token.parent = some parent ∧ parent ∈ t.cancelled := by
  simp [isCancelled]

/-- A cancelled token stays so when another is cancelled. -/
theorem isCancelled_cancel {t : Tokens} {token : CancellationToken} (other : CancellationToken)
    (h : t.isCancelled token = true) : (t.cancel other).isCancelled token = true := by
  rw [isCancelled_iff] at h ⊢
  simp only [cancel, List.mem_cons]
  rcases h with h | ⟨parent, hparent, h⟩
  · exact .inl (.inr h)
  · exact .inr ⟨parent, hparent, .inr h⟩

/-- Cancelling a token cancels it. -/
theorem isCancelled_self (t : Tokens) (token : CancellationToken) :
    (t.cancel token).isCancelled token = true :=
  isCancelled_iff.mpr (.inl List.mem_cons_self)

/-- Cancelling a token cancels its children. -/
theorem isCancelled_child (t : Tokens) {token parent : CancellationToken}
    (h : token.parent = some parent.id) : (t.cancel parent).isCancelled token = true :=
  isCancelled_iff.mpr (.inr ⟨parent.id, h, List.mem_cons_self⟩)

end Tokens

namespace State

/-- Ending a login cancels nothing less. -/
theorem isCancelled_endLogin {s : State} {token : CancellationToken} (key : Digest)
    (h : s.tokens.isCancelled token = true) :
    (s.endLogin key).tokens.isCancelled token = true := by
  simp only [endLogin]
  cases s.logins.lookup key with
  | none => exact h
  | some login => exact Tokens.isCancelled_cancel login.revoked h

/-- Ending a login cancels its own token. -/
theorem tokens_endLogin {s : State} {key : Digest} {login : Login}
    (h : s.logins.lookup key = some login) :
    (s.endLogin key).tokens = s.tokens.cancel login.revoked := by
  simp only [endLogin, h, Option.elim_some]

end State

/-! ## What every move keeps -/

namespace World

/-- A lease that is not cancelled is backed by what it was given for. -/
def Backed (w : World) (lease : Digest × AuthLease) : Prop :=
  match lease.2.via with
  | .cookie => lease.1 ∈ w.loginKeys ∧ (w.state.tokens.isCancelled lease.2.revoked = true ∨
      ∃ login, w.state.logins.lookup lease.1 = some login ∧ login.revoked = lease.2.revoked)
  | .bearer _ => lease.1 ∈ w.grantKeys ∧ (w.state.tokens.isCancelled lease.2.revoked = true ∨
      ∃ grant, w.state.grants.lookup lease.1 = some grant ∧ grant.revoked = lease.2.revoked)

structure Whole (w : World) : Prop where
  capped : w.state.Capped
  len : w.state.logins.len ≤ maxLogins
  loginKeys : ∀ key ∈ w.state.logins, key ∈ w.loginKeys
  grantKeys : ∀ key ∈ w.state.grants, key ∈ w.grantKeys
  /-- A grant's login is there, and its revocation revokes the grant. -/
  grants : ∀ key grant, w.state.grants.lookup key = some grant →
    ∃ login, w.state.logins.lookup grant.login = some login ∧
      grant.revoked.parent = some login.revoked.id
  approvals : ∀ c approval key, w.state.approvals.lookup c = some approval →
    approval.login = some key → key ∈ w.loginKeys
  /-- An issued approval's grant is there. -/
  issued : ∀ c approval issued, w.state.approvals.lookup c = some approval →
    approval.stage = .issued issued →
    ∃ grant, w.state.grants.lookup issued.grant = some grant ∧ grant.login = issued.login
  leases : ∀ lease ∈ w.leases, lease.2.login ∈ w.loginKeys ∧ w.Backed lease

variable {env : Env} {w w' : World} {events : List Event}

/-- What is backed stays so where tokens stay cancelled and a login or grant that goes has its token
cancelled. -/
theorem Backed.of_pruned {lease : Digest × AuthLease} (h : w.Backed lease)
    (hloginKeys : w.loginKeys ⊆ w'.loginKeys) (hgrantKeys : w.grantKeys ⊆ w'.grantKeys)
    (hcancelled : ∀ token, w.state.tokens.isCancelled token = true →
      w'.state.tokens.isCancelled token = true)
    (hlogins : ∀ key login, w.state.logins.lookup key = some login → key ∈ w.loginKeys →
      w'.state.logins.lookup key = some login ∨ w'.state.tokens.isCancelled login.revoked = true)
    (hgrants : ∀ key grant, w.state.grants.lookup key = some grant → key ∈ w.grantKeys →
      w'.state.grants.lookup key = some grant ∨ w'.state.tokens.isCancelled grant.revoked = true) :
    w'.Backed lease := by
  rw [Backed] at h ⊢
  match hvia : lease.2.via with
  | .cookie =>
    simp only [hvia] at h ⊢
    refine ⟨hloginKeys h.1, ?_⟩
    rcases h.2 with hc | ⟨login, hlookup, hrevoked⟩
    · exact .inl (hcancelled _ hc)
    · rw [← hrevoked]
      rcases hlogins _ login hlookup h.1 with hstays | hc
      · exact .inr ⟨login, hstays, rfl⟩
      · exact .inl hc
  | .bearer _ =>
    simp only [hvia] at h ⊢
    refine ⟨hgrantKeys h.1, ?_⟩
    rcases h.2 with hc | ⟨grant, hlookup, hrevoked⟩
    · exact .inl (hcancelled _ hc)
    · rw [← hrevoked]
      rcases hgrants _ grant hlookup h.1 with hstays | hc
      · exact .inr ⟨grant, hstays, rfl⟩
      · exact .inl hc

/-- Ending a login keeps a world whole. -/
theorem Whole.ended (h : Whole w) (key : Digest) :
    Whole { w with state := w.state.endLogin key } where
  capped := h.capped.endLogin key
  len := (AList.entries_erase_sublist key w.state.logins).length_le.trans h.len
  loginKeys k hk := h.loginKeys k (AList.mem_erase.mp hk).2
  grantKeys k hk := by
    obtain ⟨grant, hlookup⟩ := AList.mem_iff_exists_lookup.mp hk
    exact h.grantKeys k (AList.mem_iff_exists_lookup.mpr
      ⟨grant, (AList.lookup_retain_eq_some.mp hlookup).1⟩)
  grants k grant hlookup := by
    obtain ⟨hlookup, hne⟩ := AList.lookup_retain_eq_some.mp hlookup
    obtain ⟨login, hlogin, hparent⟩ := h.grants k grant hlookup
    rw [decide_eq_true_eq] at hne
    exact ⟨login, (AList.lookup_erase_ne hne).trans hlogin, hparent⟩
  approvals c approval k hlookup hk :=
    h.approvals c approval k (AList.lookup_retain_eq_some.mp hlookup).1 hk
  issued c approval issued hlookup hstage := by
    obtain ⟨hlookup, hne⟩ := AList.lookup_retain_eq_some.mp hlookup
    obtain ⟨grant, hgrant, hown⟩ := h.issued c approval issued hlookup hstage
    refine ⟨grant, AList.lookup_retain_eq_some.mpr ⟨hgrant, ?_⟩, hown⟩
    simp only [Approval.login, hstage, decide_eq_true_eq] at hne
    rw [decide_eq_true_eq, hown]
    exact fun heq => hne (by rw [heq])
  leases lease hlease := by
    refine ⟨(h.leases lease hlease).1, (h.leases lease hlease).2.of_pruned (fun _ hk => hk)
      (fun _ hk => hk) (fun _ => State.isCancelled_endLogin key) ?_ ?_⟩
    · intro k login hlookup _
      by_cases heq : k = key
      · subst heq
        right
        rw [State.tokens_endLogin hlookup]
        exact Tokens.isCancelled_self _ _
      · exact .inl ((AList.lookup_erase_ne heq).trans hlookup)
    · intro k grant hlookup _
      by_cases heq : grant.login = key
      · -- The grant goes with its login, whose token is the parent of its own.
        subst heq
        obtain ⟨login, hlogin, hparent⟩ := h.grants k grant hlookup
        right
        rw [State.tokens_endLogin hlogin]
        exact Tokens.isCancelled_child _ hparent
      · exact .inl (AList.lookup_retain_eq_some.mpr ⟨hlookup, decide_eq_true heq⟩)

/-- Only approvals change. -/
theorem Whole.setApprovals (h : Whole w) (approvals : HashMap Challenge Approval) (serial : ℕ)
    (hlogin : ∀ c approval key, approvals.lookup c = some approval → approval.login = some key →
      key ∈ w.loginKeys)
    (hissued : ∀ c approval issued, approvals.lookup c = some approval →
      approval.stage = .issued issued →
      ∃ grant, w.state.grants.lookup issued.grant = some grant ∧ grant.login = issued.login) :
    Whole { w with state := { w.state with approvals }, serial } :=
  ⟨⟨h.capped.principals, h.capped.grants⟩, h.len, h.loginKeys, h.grantKeys, h.grants, hlogin,
    hissued, h.leases⟩

/-- One approval changes, to one that is not issued. -/
theorem Whole.insertApproval (h : Whole w) (challenge : Challenge) {approval : Approval}
    (serial : ℕ) (hlogin : ∀ key, approval.login = some key → key ∈ w.loginKeys)
    (hissued : ∀ issued, approval.stage ≠ .issued issued) :
    Whole { w with
      state := { w.state with approvals := w.state.approvals.insert challenge approval }
      serial } := by
  refine h.setApprovals _ serial (fun c a key ha hkey => ?_) fun c a issued ha hstage => ?_
  · rcases AList.lookup_insert_of_eq_some ha with ⟨rfl, rfl⟩ | ha
    · exact hlogin key hkey
    · exact h.approvals c a key ha hkey
  · rcases AList.lookup_insert_of_eq_some ha with ⟨rfl, rfl⟩ | ha
    · exact absurd hstage (hissued issued)
    · exact h.issued c a issued ha hstage

/-- Evicting a grant keeps a world whole. -/
theorem Whole.evicted (h : Whole w) {key : Digest} {grant : Grant}
    (hgrant : w.state.grants.lookup key = some grant) :
    Whole { w with state := { w.state with
      grants := w.state.grants.erase key
      tokens := w.state.tokens.cancel grant.revoked
      approvals := w.state.approvals.retain fun _ approval => !approval.became key } } where
  capped := h.capped.sublist (List.Sublist.refl _) (AList.entries_erase_sublist key w.state.grants)
  len := h.len
  loginKeys := h.loginKeys
  grantKeys k hk := h.grantKeys k (AList.mem_erase.mp hk).2
  grants k g hlookup := h.grants k g (AList.lookup_erase_eq_some.mp hlookup).2
  approvals c approval k hlookup hk :=
    h.approvals c approval k (AList.lookup_retain_eq_some.mp hlookup).1 hk
  issued c approval issued hlookup hstage := by
    obtain ⟨hlookup, hbecame⟩ := AList.lookup_retain_eq_some.mp hlookup
    obtain ⟨g, hg, hown⟩ := h.issued c approval issued hlookup hstage
    refine ⟨g, AList.lookup_erase_eq_some.mpr ⟨?_, hg⟩, hown⟩
    simpa [Approval.became, hstage] using hbecame
  leases lease hlease := by
    refine ⟨(h.leases lease hlease).1, (h.leases lease hlease).2.of_pruned (fun _ hk => hk)
      (fun _ hk => hk) (fun _ => Tokens.isCancelled_cancel grant.revoked) (fun k l hl _ => .inl hl) ?_⟩
    intro k g hlookup _
    by_cases heq : k = key
    · subst heq
      cases hgrant.symm.trans hlookup
      exact .inr (Tokens.isCancelled_self _ _)
    · exact .inl ((AList.lookup_erase_ne heq).trans hlookup)

/-- A sign-in with room keeps a world whole. -/
theorem Whole.signedIn (h : Whole w) {key : Digest} {login : Login} (sequence : ℕ)
    (hfresh : key ∉ w.loginKeys)
    (hprincipal : (w.state.logins.entries.filter
      fun e => e.2.principal = login.principal).length < maxPrincipalLogins)
    (hroom : w.state.logins.len < maxLogins) :
    Whole { w with
      state := { w.state with
        sequence
        logins := w.state.logins.insert key login
        tokens := { w.state.tokens with next := w.state.tokens.next + 1 } }
      loginKeys := w.loginKeys ++ [key] } := by
  have hnew : key ∉ w.state.logins := fun hmem => hfresh (h.loginKeys key hmem)
  have hkeeps : ∀ k login', w.state.logins.lookup k = some login' →
      (w.state.logins.insert key login).lookup k = some login' := by
    intro k login' hlookup
    have hne : k ≠ key := by
      rintro rfl
      exact hnew (AList.mem_iff_exists_lookup.mpr ⟨login', hlookup⟩)
    exact (AList.lookup_insert_ne hne).trans hlookup
  refine ⟨⟨fun principal => ?_, h.capped.grants⟩, ?_, fun k hk => ?_, h.grantKeys,
    fun k g hg => ?_, fun c a k ha hk => ?_, h.issued, fun lease hlease => ⟨?_, ?_⟩⟩
  · have hcap := h.capped.principals principal
    rw [AList.len_filter_insert _ hnew]
    split_ifs with hp
    · have hp : login.principal = principal := by simpa using hp
      subst hp
      omega
    · exact hcap
  · simp only
    rw [AList.len_insert hnew]
    exact hroom
  · rcases (AList.mem_insert _).mp hk with rfl | hk
    · simp
    · exact List.mem_append_left _ (h.loginKeys k hk)
  · obtain ⟨l, hl, hparent⟩ := h.grants k g hg
    exact ⟨l, hkeeps _ l hl, hparent⟩
  · exact List.mem_append_left _ (h.approvals c a k ha hk)
  · exact List.mem_append_left _ (h.leases lease hlease).1
  · exact (h.leases lease hlease).2.of_pruned (List.subset_append_left _ _) (fun _ hk => hk)
      (fun _ hc => hc) (fun k l hl _ => .inl (hkeeps k l hl)) fun k g hg _ => .inl hg

/-- A grant with room keeps a world whole. -/
theorem Whole.granted (h : Whole w) {key : Digest} {grant : Grant} {login : Login} (sequence : ℕ)
    (hfresh : key ∉ w.grantKeys) (hlogin : w.state.logins.lookup grant.login = some login)
    (hrevoked : grant.revoked.parent = some login.revoked.id)
    (hroom : w.state.grantsOf grant.login < maxLoginGrants) :
    Whole { w with
      state := { w.state with sequence, grants := w.state.grants.insert key grant }
      grantKeys := w.grantKeys ++ [key] } := by
  have hnew : key ∉ w.state.grants := fun hmem => hfresh (h.grantKeys key hmem)
  have hkeeps : ∀ k g, w.state.grants.lookup k = some g →
      (w.state.grants.insert key grant).lookup k = some g := by
    intro k g hlookup
    have hne : k ≠ key := by
      rintro rfl
      exact hnew (AList.mem_iff_exists_lookup.mpr ⟨g, hlookup⟩)
    exact (AList.lookup_insert_ne hne).trans hlookup
  refine ⟨⟨h.capped.principals, fun k => ?_⟩, h.len, h.loginKeys, fun k hk => ?_, fun k g hg => ?_,
    h.approvals, fun c a issued ha hstage => ?_, fun lease hlease => ⟨(h.leases lease hlease).1, ?_⟩⟩
  · have hcap := h.capped.grants k
    rw [State.grantsOf, AList.len_filter_insert _ hnew]
    rw [State.grantsOf] at hcap hroom
    split_ifs with hp
    · have hp : grant.login = k := by simpa using hp
      subst hp
      omega
    · exact hcap
  · rcases (AList.mem_insert _).mp hk with rfl | hk
    · simp
    · exact List.mem_append_left _ (h.grantKeys k hk)
  · rcases AList.lookup_insert_of_eq_some hg with ⟨rfl, rfl⟩ | hg
    · exact ⟨login, hlogin, hrevoked⟩
    · exact h.grants k g hg
  · obtain ⟨g, hg, hown⟩ := h.issued c a issued ha hstage
    exact ⟨g, hkeeps _ g hg, hown⟩
  · exact (h.leases lease hlease).2.of_pruned (fun _ hk => hk) (List.subset_append_left _ _)
      (fun _ hc => hc) (fun k l hl _ => .inl hl) fun k g hg _ => .inl (hkeeps k g hg)

/-- A lease on a login that is there keeps a world whole. -/
theorem Whole.leased (h : Whole w) {lease : Digest × AuthLease}
    (hlogin : lease.2.login ∈ w.loginKeys) (hbacked : w.Backed lease) :
    Whole { w with leases := w.leases ++ [lease] } := by
  refine ⟨h.capped, h.len, h.loginKeys, h.grantKeys, h.grants, h.approvals, h.issued,
    fun l hl => ?_⟩
  rcases List.mem_append.mp hl with hl | hl
  · exact h.leases l hl
  · rw [List.mem_singleton.mp hl]
    exact ⟨hlogin, hbacked⟩

/-- **Every move** keeps a world whole. -/
theorem move_whole (h : Whole w) (hmove : Move env w w' events) : Whole w' := by
  cases hmove with
  | ended key => exact h.ended key
  | tidied approvals hkept =>
    refine h.setApprovals approvals w.serial (fun c a key ha hkey => ?_) fun c a i ha hstage => ?_
    · obtain ⟨before, hbefore, hk⟩ := hkept c a ha
      exact h.approvals c before key hbefore (hk.login_eq ▸ hkey)
    · -- a tidied approval forgot its token at most
      obtain ⟨before, hbefore, -, -, -, hsame | ⟨issued, hissued, hafter⟩⟩ := hkept c a ha
      · exact h.issued c before i hbefore (hsame ▸ hstage)
      · cases hafter.symm.trans hstage
        exact h.issued c before issued hbefore hissued
  | drew =>
    exact ⟨⟨h.capped.principals, h.capped.grants⟩, h.len, h.loginKeys, h.grantKeys, h.grants,
      h.approvals, h.issued, h.leases⟩
  | evicted key grant hgrant => exact h.evicted hgrant
  | signedIn key login sequence hfresh hprincipal hroom hrevoked =>
    exact h.signedIn sequence hfresh hprincipal hroom
  | session key login hlogin =>
    have hkey := h.loginKeys key (AList.mem_iff_exists_lookup.mpr ⟨login, hlogin⟩)
    exact h.leased hkey ⟨hkey, .inr ⟨login, hlogin, rfl⟩⟩
  | bearer key grant login hgrant hlogin =>
    have hkey := h.grantKeys key (AList.mem_iff_exists_lookup.mpr ⟨grant, hgrant⟩)
    exact h.leased (h.loginKeys _ (AList.mem_iff_exists_lookup.mpr ⟨login, hlogin⟩))
      ⟨hkey, .inr ⟨grant, hgrant, rfl⟩⟩
  | proved key login hlogin =>
    exact ⟨h.capped, h.len, h.loginKeys, h.grantKeys, h.grants, h.approvals, h.issued, h.leases⟩
  | passed =>
    exact ⟨h.capped, h.len, h.loginKeys, h.grantKeys, h.grants, h.approvals, h.issued, h.leases⟩
  | opened challenge browser keys lease now hlease =>
    refine h.insertApproval challenge (w.serial + 1) (fun key hkey => ?_) fun issued => ?_
    · match lease with
      | none => cases hkey
      | some lease =>
        cases hkey
        exact (h.leases lease (hlease lease rfl)).1
    · cases lease <;> nofun
  | claimed challenge approval lease happroval hopen hlease =>
    refine h.insertApproval challenge w.serial (fun key hkey => ?_) fun issued => nofun
    cases hkey
    exact (h.leases lease hlease).1
  | approved challenge approval proof now happroval hlogin hissued hnow hproof =>
    refine h.insertApproval challenge w.serial (fun key hkey => ?_) fun issued => nofun
    cases hkey
    exact h.approvals challenge approval _ happroval hlogin
  | granted key grant login sequence hfresh hlogin hrevoked hroom =>
    exact h.granted sequence hfresh hlogin hrevoked hroom
  | became challenge verifier approval login token grant deadline replayUntil hchallenge happroval
      hstage hgrant hlogin hbrowser =>
    refine h.setApprovals _ w.serial (fun c a key ha hkey => ?_) fun c a issued ha hissued => ?_
    · rcases AList.lookup_insert_of_eq_some ha with ⟨rfl, rfl⟩ | ha
      · cases hkey
        exact h.approvals c approval login happroval (by rw [Approval.login, hstage])
      · exact h.approvals c a key ha hkey
    · -- the approval that became a grant names the grant, which is there
      rcases AList.lookup_insert_of_eq_some ha with ⟨rfl, rfl⟩ | ha
      · cases hissued
        exact ⟨grant, hgrant, hlogin⟩
      · exact h.issued c a issued ha hissued
  | answered challenge approval issued token happroval hstage htoken => exact h

/-- A new world is whole. -/
theorem new_whole : Whole new where
  capped := ⟨fun _ => Nat.zero_le _, fun _ => Nat.zero_le _⟩
  len := Nat.zero_le _
  loginKeys _ hk := absurd hk (AList.notMem_empty _)
  grantKeys _ hk := absurd hk (AList.notMem_empty _)
  grants _ _ h := nomatch h
  approvals _ _ _ h := nomatch h
  issued _ _ _ h := nomatch h
  leases _ h := nomatch h

/-- A run from where the store holds together is made of moves, and it still does. -/
theorem run_moves {actions : List Action} (h : Whole w)
    (hrun : Machine.run (step env) w actions = some (w', events)) :
    Whole w' ∧ Machine.Path (Move env) w w' events := by
  have hmoves : ∀ s t events, Whole s → Move env s t events → Whole t := fun _ _ _ => move_whole
  exact Machine.run_path hmoves (fun _ _ _ _ hs => step_moves hs.capped) h hrun

/-! ## What is gone stays gone -/

/-- The login keyed `key` signed in once and is there no more. -/
def LoginGone (w : World) (key : Digest) : Prop := key ∈ w.loginKeys ∧ key ∉ w.state.logins

/-- The grant keyed `key` was made once and is there no more. -/
def GrantGone (w : World) (key : Digest) : Prop := key ∈ w.grantKeys ∧ key ∉ w.state.grants

/-- No move brings a login back that is gone. -/
theorem move_loginGone {key : Digest} (h : w.LoginGone key) (hmove : Move env w w' events) :
    w'.LoginGone key := by
  cases hmove with
  | ended other => exact ⟨h.1, fun hmem => h.2 (AList.mem_erase.mp hmem).2⟩
  | signedIn other login sequence hfresh =>
    refine ⟨List.mem_append_left _ h.1, fun hmem => ?_⟩
    rcases (AList.mem_insert _).mp hmem with rfl | hmem
    · exact hfresh h.1
    · exact h.2 hmem
  | _ => exact h

/-- No move brings a grant back that is gone. -/
theorem move_grantGone {key : Digest} (h : w.GrantGone key) (hmove : Move env w w' events) :
    w'.GrantGone key := by
  cases hmove with
  | ended other =>
    refine ⟨h.1, fun hmem => ?_⟩
    obtain ⟨grant, hlookup⟩ := AList.mem_iff_exists_lookup.mp hmem
    exact h.2 (AList.mem_iff_exists_lookup.mpr ⟨grant, (AList.lookup_retain_eq_some.mp hlookup).1⟩)
  | evicted other grant hgrant => exact ⟨h.1, fun hmem => h.2 (AList.mem_erase.mp hmem).2⟩
  | granted other grant login sequence hfresh =>
    refine ⟨List.mem_append_left _ h.1, fun hmem => ?_⟩
    rcases (AList.mem_insert _).mp hmem with rfl | hmem
    · exact hfresh h.1
    · exact h.2 hmem
  | _ => exact h

/-- No run brings a login back that is gone. -/
theorem run_loginGone {actions : List Action} {key : Digest} (h : Whole w) (hgone : w.LoginGone key)
    (hrun : Machine.run (step env) w actions = some (w', events)) : w'.LoginGone key :=
  (run_moves h hrun).2.keeps (fun w => LoginGone w key) (fun _ _ _ => move_loginGone) hgone

/-- No run brings a grant back that is gone. -/
theorem run_grantGone {actions : List Action} {key : Digest} (h : Whole w) (hgone : w.GrantGone key)
    (hrun : Machine.run (step env) w actions = some (w', events)) : w'.GrantGone key :=
  (run_moves h hrun).2.keeps (fun w => GrantGone w key) (fun _ _ _ => move_grantGone) hgone

/-- A login that is gone authenticates no cookie. -/
theorem cookie_of_gone {token : String} (h : w.LoginGone (env.digest token)) (now : ℕ) :
    (w.state.cookie env token now).1 = none := by
  have hnone : w.state.logins.lookup (env.digest token) = none := AList.lookup_eq_none.mpr h.2
  simp only [State.cookie, hnone]

/-- A grant that is gone authenticates no bearer token. -/
theorem bearer_of_gone {token : String} (h : w.GrantGone (env.digest token)) (now : ℕ) :
    w.state.bearer env token now = none := by
  have hnone : w.state.grants.lookup (env.digest token) = none := AList.lookup_eq_none.mpr h.2
  rw [State.bearer]
  split_ifs
  · rfl
  · simp only [hnone]

/-- A lease whose login or grant is gone is cancelled. -/
theorem Whole.lease_cancelled (h : Whole w) {key : Digest} {lease : AuthLease}
    (hlease : (key, lease) ∈ w.leases)
    (hgone : match lease.via with
      | .cookie => w.LoginGone key
      | .bearer _ => w.GrantGone key) :
    w.state.tokens.isCancelled lease.revoked = true := by
  have hbacked := (h.leases _ hlease).2
  rw [Backed] at hbacked
  match hvia : lease.via with
  | .cookie =>
    simp only [hvia] at hbacked hgone
    rcases hbacked.2 with hc | ⟨login, hlookup, -⟩
    · exact hc
    · exact absurd (AList.mem_iff_exists_lookup.mpr ⟨login, hlookup⟩) hgone.2
  | .bearer _ =>
    simp only [hvia] at hbacked hgone
    rcases hbacked.2 with hc | ⟨grant, hlookup, -⟩
    · exact hc
    · exact absurd (AList.mem_iff_exists_lookup.mpr ⟨grant, hlookup⟩) hgone.2

/-! ## Claims -/

/-- A page of the run claimed the approval numbered `serial` for a login that was gone by then. -/
def ClaimedLate (env : Env) (actions : List Action) (serial : ℕ) (key : Digest) : Prop :=
  ∃ before action later w₀ log w₁ events, actions = before ++ action :: later ∧
    Machine.run (step env) new before = some (w₀, log) ∧ w₀.step env action = some (w₁, events) ∧
    .claimed serial key ∈ events ∧ w₁.LoginGone key

/-- A run goes on. -/
theorem ClaimedLate.append {actions : List Action} {serial : ℕ} {key : Digest}
    (h : ClaimedLate env actions serial key) (more : List Action) :
    ClaimedLate env (actions ++ more) serial key := by
  obtain ⟨before, action, later, w₀, log, w₁, events, rfl, h⟩ := h
  exact ⟨before, action, later ++ more, w₀, log, w₁, events, by simp, h⟩

/-- Where an approval has its login from: it was claimed for it, or had it before, and then the login
is no sooner gone than the approval. -/
def Owned (w w' : World) (events : List Event) (approval : Approval) (key : Digest) : Prop :=
  (∃ c before, w.state.approvals.lookup c = some before ∧ before.serial = approval.serial ∧
    before.login = some key ∧ (key ∈ w.state.logins → key ∈ w'.state.logins)) ∨
  .claimed approval.serial key ∈ events

/-- An approval that names a login after a move was claimed for it then or before. -/
theorem move_owned (hmove : Move env w w' events) {c : Challenge} {approval : Approval}
    {key : Digest} (happroval : w'.state.approvals.lookup c = some approval)
    (hlogin : approval.login = some key) : Owned w w' events approval key := by
  cases hmove with
  | ended other =>
    obtain ⟨hbefore, hother⟩ := AList.lookup_retain_eq_some.mp happroval
    rw [decide_eq_true_eq, hlogin, ne_eq, Option.some.injEq] at hother
    exact .inl ⟨c, approval, hbefore, rfl, hlogin, fun hmem => AList.mem_erase.mpr ⟨hother, hmem⟩⟩
  | tidied approvals hkept =>
    obtain ⟨before, hbefore, hk⟩ := hkept c approval happroval
    exact .inl ⟨c, before, hbefore, hk.2.2.1.symm, hk.login_eq ▸ hlogin, id⟩
  | evicted other grant hgrant =>
    exact .inl ⟨c, approval, (AList.lookup_retain_eq_some.mp happroval).1, rfl, hlogin, id⟩
  | signedIn other login sequence hfresh =>
    exact .inl ⟨c, approval, happroval, rfl, hlogin, fun hmem =>
      (AList.mem_insert _).mpr (.inr hmem)⟩
  | opened challenge browser keys lease now hlease =>
    rcases AList.lookup_insert_of_eq_some happroval with ⟨rfl, rfl⟩ | hbefore
    · right
      match lease with
      | none => cases hlogin
      | some lease =>
        cases hlogin
        simp
    · exact .inl ⟨c, approval, hbefore, rfl, hlogin, id⟩
  | claimed challenge before lease hbefore hopen hlease =>
    rcases AList.lookup_insert_of_eq_some happroval with ⟨rfl, rfl⟩ | hbefore
    · cases hlogin
      exact .inr List.mem_cons_self
    · exact .inl ⟨c, approval, hbefore, rfl, hlogin, id⟩
  | approved challenge before proof now hbefore hlogin' hissued hnow hproof =>
    rcases AList.lookup_insert_of_eq_some happroval with ⟨rfl, rfl⟩ | hsame
    · cases hlogin
      exact .inl ⟨c, before, hbefore, rfl, hlogin', id⟩
    · exact .inl ⟨c, approval, hsame, rfl, hlogin, id⟩
  | became challenge verifier before login token grant deadline replayUntil hchallenge hbefore
      hstage =>
    rcases AList.lookup_insert_of_eq_some happroval with ⟨rfl, rfl⟩ | hsame
    · cases hlogin
      exact .inl ⟨c, before, hbefore, rfl, by rw [Approval.login, hstage], id⟩
    · exact .inl ⟨c, approval, hsame, rfl, hlogin, id⟩
  | _ => exact .inl ⟨c, approval, happroval, rfl, hlogin, id⟩

/-- The same of what a step does, move by move. -/
theorem path_owned (hpath : Machine.Path (Move env) w w' events) {c : Challenge}
    {approval : Approval} {key : Digest} (happroval : w'.state.approvals.lookup c = some approval)
    (hlogin : approval.login = some key) : Owned w w' events approval key := by
  induction hpath generalizing c approval with
  | nil w => exact .inl ⟨c, approval, happroval, rfl, hlogin, id⟩
  | cons hmove hrest ih =>
    rcases ih happroval hlogin with ⟨c', middle, hmiddle, hserial, hmine, hlater⟩ | hclaimed
    · rcases move_owned hmove hmiddle hmine with ⟨c'', before, hbefore, heq, hown, hkept⟩ | hclaimed
      · exact .inl ⟨c'', before, hbefore, heq.trans hserial, hown, hlater ∘ hkept⟩
      · exact .inr (List.mem_append_left _ (hserial ▸ hclaimed))
    · exact .inr (List.mem_append_right _ hclaimed)

/-- The login of an approval is there, unless it was gone when the approval was claimed for it. -/
theorem run_claims {actions : List Action} {log : List Event}
    (hrun : Machine.run (step env) new actions = some (w, log)) {c : Challenge}
    {approval : Approval} {key : Digest} (happroval : w.state.approvals.lookup c = some approval)
    (hlogin : approval.login = some key) :
    key ∈ w.state.logins ∨ ClaimedLate env actions approval.serial key := by
  induction actions using List.reverseRecOn generalizing w log c approval with
  | nil =>
    obtain ⟨rfl, -⟩ := Machine.run_nil_iff.mp hrun
    cases happroval
  | append_singleton actions action ih =>
    have hwhole : Whole w := (run_moves new_whole hrun).1
    obtain ⟨u, first, later, hbefore, hlast, rfl⟩ := Machine.run_append_iff.mp hrun
    obtain ⟨_, events, _, hstep, hnil, rfl⟩ := Machine.run_cons_iff.mp hlast
    obtain ⟨rfl, rfl⟩ := Machine.run_nil_iff.mp hnil
    have hpath := step_moves (run_moves new_whole hbefore).1.capped hstep
    rcases path_owned hpath happroval hlogin with ⟨c', before, hlookup, hserial, hown, hkept⟩ | hclaim
    · rcases ih hbefore hlookup hown with hmem | hlate
      · exact .inl (hkept hmem)
      · exact .inr (hserial ▸ hlate.append [action])
    · by_cases hmem : key ∈ w.state.logins
      · exact .inl hmem
      · exact .inr ⟨actions, action, [], u, first, w, events, rfl, hbefore, hstep, hclaim,
          hwhole.approvals c approval key happroval hlogin, hmem⟩

/-- **The store holds together** after every run, whatever happens in which order: what refers to a
login or a grant refers to one that is there (an approval: unless its login was gone when a page
claimed it), the caps hold, and what is gone resolves to no lease ever again, with every lease it
gave cancelled. -/
theorem store_whole {actions : List Action} {log : List Event}
    (hrun : Machine.run (step env) new actions = some (w, log)) :
    (∀ key grant, w.state.grants.lookup key = some grant → grant.login ∈ w.state.logins) ∧
    (∀ c approval key, w.state.approvals.lookup c = some approval → approval.login = some key →
      key ∈ w.state.logins ∨ ClaimedLate env actions approval.serial key) ∧
    (∀ c approval issued, w.state.approvals.lookup c = some approval →
      approval.stage = .issued issued → issued.login ∈ w.state.logins ∧
      ∃ grant, w.state.grants.lookup issued.grant = some grant ∧ grant.login = issued.login) ∧
    (∀ principal, (w.state.logins.entries.filter fun e => e.2.principal = principal).length ≤ 8) ∧
    w.state.logins.len ≤ 1024 ∧
    (∀ login, w.state.grantsOf login ≤ 8) ∧
    (∀ key, w.LoginGone key →
      (∀ lease, (key, lease) ∈ w.leases → lease.via = .cookie →
        w.state.tokens.isCancelled lease.revoked = true) ∧
      ∀ later w' log', Machine.run (step env) w later = some (w', log') →
        ∀ token now, env.digest token = key → (w'.state.cookie env token now).1 = none) ∧
    (∀ key, w.GrantGone key →
      (∀ lease browser, (key, lease) ∈ w.leases → lease.via = .bearer browser →
        w.state.tokens.isCancelled lease.revoked = true) ∧
      ∀ later w' log', Machine.run (step env) w later = some (w', log') →
        ∀ token now, env.digest token = key → w'.state.bearer env token now = none) := by
  have h : Whole w := (run_moves new_whole hrun).1
  refine ⟨fun key grant hgrant => ?_, fun c approval key => run_claims hrun,
    fun c approval issued happroval hstage => ?_, h.capped.principals, h.len, h.capped.grants,
    fun key hgone => ⟨fun lease hlease hvia => ?_,
    fun later w' log' hlater token now htoken => ?_⟩, fun key hgone => ⟨fun lease browser hlease hvia
    => ?_, fun later w' log' hlater token now htoken => ?_⟩⟩
  · obtain ⟨login, hlogin, -⟩ := h.grants key grant hgrant
    exact AList.mem_iff_exists_lookup.mpr ⟨login, hlogin⟩
  · obtain ⟨grant, hgrant, hown⟩ := h.issued c approval issued happroval hstage
    obtain ⟨login, hlogin, -⟩ := h.grants issued.grant grant hgrant
    rw [hown] at hlogin
    exact ⟨AList.mem_iff_exists_lookup.mpr ⟨login, hlogin⟩, grant, hgrant, hown⟩
  · exact h.lease_cancelled hlease (by rw [hvia]; exact hgone)
  · subst htoken
    exact cookie_of_gone (run_loginGone h hgone hlater) now
  · exact h.lease_cancelled hlease (by rw [hvia]; exact hgone)
  · subst htoken
    exact bearer_of_gone (run_grantGone h hgone hlater) now

/-- Signing out ends the session and the terminal's grant, and cancels both their leases. -/
theorem store_whole_signOut :
    ∃ w log, Machine.run (step terminalEnv) new (signsIn ++ approvesTerminal ++
        [terminalAsks, .bearer grantToken 6, .signOut (terminalEnv.digest sessionToken) false 7])
          = some (w, log) ∧
      w.LoginGone (terminalEnv.digest sessionToken) ∧ w.GrantGone (terminalEnv.digest grantToken) ∧
      w.leases.length = 2 ∧
      (∀ lease ∈ w.leases, w.state.tokens.isCancelled lease.2.revoked = true) ∧
      ∀ now, (w.state.cookie terminalEnv sessionToken now).1 = none ∧
        w.state.bearer terminalEnv grantToken now = none := by
  have heval : ((Machine.run (step terminalEnv) new (signsIn ++ approvesTerminal ++
      [terminalAsks, .bearer grantToken 6,
       .signOut (terminalEnv.digest sessionToken) false 7])).map fun end_ =>
        decide (terminalEnv.digest sessionToken ∈ end_.1.loginKeys ∧
          terminalEnv.digest sessionToken ∉ end_.1.state.logins ∧
          terminalEnv.digest grantToken ∈ end_.1.grantKeys ∧
          terminalEnv.digest grantToken ∉ end_.1.state.grants ∧
          end_.1.leases.map (fun lease => (lease.1, lease.2.via)) =
            [(terminalEnv.digest sessionToken, .cookie),
             (terminalEnv.digest grantToken, .bearer none)])) = some true := by
    decide +kernel
  obtain ⟨⟨w, log⟩, hrun, hend⟩ := Option.map_eq_some_iff.mp heval
  obtain ⟨hlogin, hnologin, hgrant, hnogrant, hleases⟩ := of_decide_eq_true hend
  obtain ⟨-, -, -, -, -, -, hlogins, hgrants⟩ := store_whole hrun
  have hlen : w.leases.length = 2 := by simpa using congrArg List.length hleases
  refine ⟨w, log, hrun, ⟨hlogin, hnologin⟩, ⟨hgrant, hnogrant⟩, hlen, fun lease hmem => ?_,
    fun now => ⟨?_, ?_⟩⟩
  · have hlease : (lease.1, lease.2.via) ∈ w.leases.map (fun lease => (lease.1, lease.2.via)) :=
      List.mem_map_of_mem hmem
    rw [hleases, List.mem_cons, List.mem_singleton, Prod.mk.injEq, Prod.mk.injEq] at hlease
    obtain ⟨key, lease⟩ := lease
    rcases hlease with ⟨rfl, hvia⟩ | ⟨rfl, hvia⟩
    · exact (hlogins _ ⟨hlogin, hnologin⟩).1 lease hmem hvia
    · exact (hgrants _ ⟨hgrant, hnogrant⟩).1 lease none hmem hvia
  · exact (hlogins _ ⟨hlogin, hnologin⟩).2 [] w [] rfl sessionToken now rfl
  · exact (hgrants _ ⟨hgrant, hnogrant⟩).2 [] w [] rfl grantToken now rfl

/-- The operator signs out while a page of the session waits for the store, which then opens an
approval that names the ended login. -/
theorem claimed_after_end :
    ∃ w log c approval,
      Machine.run (step terminalEnv) new (signsIn ++
        [.signOut (terminalEnv.digest sessionToken) false 2,
         .cliPage (some 0) terminalChallenge (some (.v4 1)) 3 3 3]) = some (w, log) ∧
      w.state.approvals.lookup c = some approval ∧
      approval.stage = .claimed (terminalEnv.digest sessionToken) ∧
      terminalEnv.digest sessionToken ∉ w.state.logins := by
  have heval : ((Machine.run (step terminalEnv) new (signsIn ++
      [.signOut (terminalEnv.digest sessionToken) false 2,
       .cliPage (some 0) terminalChallenge (some (.v4 1)) 3 3 3])).map fun end_ =>
        (end_.1.state.approvals.lookup ⟨terminalChallenge, "V5TI5UXA"⟩ |>.map Approval.stage,
          decide (terminalEnv.digest sessionToken ∉ end_.1.state.logins)))
      = some (some (.claimed (terminalEnv.digest sessionToken)), true) := by
    decide +kernel
  obtain ⟨⟨w, log⟩, hrun, hend⟩ := Option.map_eq_some_iff.mp heval
  rw [Prod.mk.injEq] at hend
  obtain ⟨approval, happroval, hstage⟩ := Option.map_eq_some_iff.mp hend.1
  exact ⟨w, log, _, approval, hrun, happroval, hstage, of_decide_eq_true hend.2⟩

end World

end GraphiteMeter.Server.Auth
