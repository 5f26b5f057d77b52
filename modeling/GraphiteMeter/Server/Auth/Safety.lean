import GraphiteMeter.Server.Auth.Integrity

/-!
# A grant is approved by the login that claimed its approval

Reference: `rust/server/src/auth/approval.rs`. Six handlers take one approval from open through
claimed and approved to issued, while others sign out, let it expire and open its challenge again.

The log tells what happened in which order, with a number for each opening. `Due` says what each
event relies on having been logged before it. `Traced` ties the store to the log: an approval's
stage, login, origin and deadline are what the log tells of its number. Every move keeps both.
-/

namespace GraphiteMeter.Server.Auth

open Machine (Justified)

/-! ## What an event relies on -/

namespace Event

/-- Two events of which one log has one: an opening, a claim, a grant, a login. -/
def Rivals : Event → Event → Prop
  | .opened n .., .opened m .. => n = m
  | .claimed n _, .claimed m _ => n = m
  | .granted n .., .granted m .. => n = m
  | .signedIn key _, .signedIn other _ => key = other
  | _, _ => False

/-- Rivalry is mutual. -/
theorem Rivals.symm {e e' : Event} (h : e.Rivals e') : e'.Rivals e := by
  cases e <;> cases e' <;> first | exact Eq.symm h | exact h

/-- What an event relies on, of the log before it. -/
def Reason (env : Env) (before : List Event) : Event → Prop
  | .signedIn .. => True
  | .proved login csrf => .signedIn login csrf ∈ before
  | .opened .. => True
  | .claimed n _ => ∃ c origin deadline, .opened n c origin deadline ∈ before
  | .approved n login csrf now =>
    .claimed n login ∈ before ∧ .proved login csrf ∈ before ∧
      ∃ c origin deadline, .opened n c origin deadline ∈ before ∧ now < deadline
  | .granted n login verifier origin _ =>
    ∃ c deadline csrf now, Challenge.of env verifier = some c ∧
      .opened n c origin deadline ∈ before ∧ .approved n login csrf now ∈ before
  | .answered n token => ∃ login verifier origin, .granted n login verifier origin token ∈ before

/-- Whether an event may follow this log. -/
def Due (env : Env) (before : List Event) (e : Event) : Prop :=
  e.Reason env before ∧ ∀ e', e.Rivals e' → e' ∉ before

end Event

/-- No two rivals are both logged. -/
theorem eq_of_rivals {env : Env} {log : List Event} {e e' : Event}
    (h : Justified (Event.Due env) log) (he : e ∈ log) (he' : e' ∈ log) (hrivals : e.Rivals e') :
    e = e' :=
  h.eq_of_rivals (fun _ _ => Event.Rivals.symm) (fun _ _ _ hdue hr => hdue.2 _ hr) he he' hrivals

/-! ## What the log tells of an approval -/

/-- An approval of `c` is what the log tells of its number. -/
structure Approval.Explained (log : List Event) (c : Challenge) (a : Approval) : Prop where
  opened : ∃ deadline, .opened a.serial c a.browser deadline ∈ log ∧
    (a.issued = false → a.deadline = deadline)
  unclaimed : a.stage = .open → ∀ login, .claimed a.serial login ∉ log
  claimed : ∀ login, a.login = some login → a.issued = false → .claimed a.serial login ∈ log
  approved : ∀ login, a.stage = .approved login →
    ∃ csrf now, .approved a.serial login csrf now ∈ log
  ungranted : a.issued = false →
    ∀ login verifier origin token, .granted a.serial login verifier origin token ∉ log
  issued : ∀ issued token, a.stage = .issued issued → issued.token = some token →
    ∃ login verifier origin, .granted a.serial login verifier origin token ∈ log

namespace Approval

variable {log : List Event} {c : Challenge} {a : Approval}

/-- An event that neither claims nor grants it changes nothing the log tells of an approval. -/
theorem Explained.snoc (h : Explained log c a) {e : Event}
    (hclaimed : ∀ login, e ≠ .claimed a.serial login)
    (hgranted : ∀ login verifier origin token, e ≠ .granted a.serial login verifier origin token) :
    Explained (log ++ [e]) c a := by
  have hold : ∀ {e'}, e' ∈ log → e' ∈ log ++ [e] := List.mem_append_left _
  have hnew : ∀ {e'}, e ≠ e' → e' ∉ log → e' ∉ log ++ [e] := by
    intro e' hne hmem
    rw [List.mem_append, List.mem_singleton]
    exact not_or.mpr ⟨hmem, Ne.symm hne⟩
  obtain ⟨deadline, hopened, hdeadline⟩ := h.opened
  refine ⟨⟨deadline, hold hopened, hdeadline⟩, fun ho login => hnew (hclaimed login)
    (h.unclaimed ho login), fun login hl hi => hold (h.claimed login hl hi), fun login hstage => ?_,
    fun hi login v o t => hnew (hgranted login v o t) (h.ungranted hi login v o t),
    fun issued token hstage htoken => ?_⟩
  · obtain ⟨csrf, now, happroved⟩ := h.approved login hstage
    exact ⟨csrf, now, hold happroved⟩
  · obtain ⟨login, v, o, hgrant⟩ := h.issued issued token hstage htoken
    exact ⟨login, v, o, hold hgrant⟩

/-- Forgetting a token changes nothing the log tells of an approval. -/
theorem Explained.kept (h : Explained log c a) {after : Approval} (hkept : a.Kept after) :
    Explained log c after := by
  obtain ⟨browser, clients, stage, deadline, serial⟩ := after
  obtain ⟨hbrowser, hdeadline, hserial, hstage⟩ := hkept
  simp only at hbrowser hdeadline hserial hstage
  subst hbrowser hdeadline hserial
  rcases hstage with rfl | ⟨issued, hbefore, rfl⟩
  · exact ⟨h.opened, h.unclaimed, h.claimed, h.approved, h.ungranted, h.issued⟩
  · obtain ⟨deadline, hopened, -⟩ := h.opened
    refine ⟨⟨deadline, hopened, nofun⟩, nofun, nofun, nofun, nofun, fun i token hstage htoken => ?_⟩
    cases hstage
    cases htoken

end Approval

namespace World

/-- The store, its clients' proofs and the numbers given are what the log tells. -/
structure Traced (env : Env) (log : List Event) (w : World) : Prop where
  justified : Justified (Event.Due env) log
  serial : ∀ n c origin deadline, .opened n c origin deadline ∈ log → n < w.serial
  keys : ∀ key csrf, .signedIn key csrf ∈ log → key ∈ w.loginKeys
  logins : ∀ key login, w.state.logins.lookup key = some login → .signedIn key login.csrf ∈ log
  proofs : ∀ proof ∈ w.proofs, .proved proof.1 proof.2 ∈ log
  approvals : ∀ c a, w.state.approvals.lookup c = some a → Approval.Explained log c a

namespace Traced

variable {env : Env} {log : List Event} {w w' : World}

/-- A claim is of an approval that was opened. -/
theorem claimed_lt (h : Traced env log w) {n : ℕ} {login : Digest}
    (hclaimed : .claimed n login ∈ log) : n < w.serial := by
  obtain ⟨before, after, rfl, ⟨c, origin, deadline, hopened⟩, -⟩ :=
    h.justified.exists_of_mem hclaimed
  exact h.serial n c origin deadline (List.mem_append_left _ hopened)

/-- One number is one challenge's. -/
theorem challenge_eq (h : Traced env log w) {c c' : Challenge} {a a' : Approval}
    (ha : w.state.approvals.lookup c = some a) (ha' : w.state.approvals.lookup c' = some a')
    (hserial : a.serial = a'.serial) : c = c' := by
  obtain ⟨deadline, hopened, -⟩ := (h.approvals c a ha).opened
  obtain ⟨deadline', hopened', -⟩ := (h.approvals c' a' ha').opened
  have heq := eq_of_rivals h.justified hopened hopened' hserial
  exact (Event.opened.inj heq).2.1

/-- Nothing is logged: logins go, and approvals go or forget their tokens. -/
theorem quiet (h : Traced env log w) (hserial : w.serial ≤ w'.serial)
    (hkeys : w'.loginKeys = w.loginKeys) (hproofs : w'.proofs = w.proofs)
    (hlogins : ∀ key login, w'.state.logins.lookup key = some login →
      w.state.logins.lookup key = some login)
    (happrovals : ∀ c after, w'.state.approvals.lookup c = some after →
      ∃ before, w.state.approvals.lookup c = some before ∧ before.Kept after) :
    Traced env log w' := by
  refine ⟨h.justified, fun n c o d he => (h.serial n c o d he).trans_le hserial,
    fun key csrf he => hkeys ▸ h.keys key csrf he,
    fun key login hl => h.logins key login (hlogins key login hl),
    fun proof hproof => h.proofs proof (hproofs ▸ hproof), fun c a ha => ?_⟩
  obtain ⟨before, hbefore, hkept⟩ := happrovals c a ha
  exact (h.approvals c before hbefore).kept hkept

/-- The same with the approvals that stay left as they are. -/
theorem pruned (h : Traced env log w) (hserial : w.serial ≤ w'.serial)
    (hkeys : w'.loginKeys = w.loginKeys) (hproofs : w'.proofs = w.proofs)
    (hlogins : ∀ key login, w'.state.logins.lookup key = some login →
      w.state.logins.lookup key = some login)
    (happrovals : ∀ c a, w'.state.approvals.lookup c = some a →
      w.state.approvals.lookup c = some a) : Traced env log w' :=
  h.quiet hserial hkeys hproofs hlogins fun c a ha =>
    ⟨a, happrovals c a ha, rfl, rfl, rfl, .inl rfl⟩

/-- An event of one approval is logged, and that approval changes with it. -/
theorem insertApproval (h : Traced env log w) {e : Event} (hdue : e.Due env log)
    {challenge : Challenge} {a : Approval} {serial : ℕ} (hserial : w.serial ≤ serial)
    (hopened : ∀ n c origin deadline, e = .opened n c origin deadline → n < serial)
    (hsignedIn : ∀ key csrf, e ≠ .signedIn key csrf)
    (hother : ∀ c other, c ≠ challenge → w.state.approvals.lookup c = some other →
      Approval.Explained (log ++ [e]) c other)
    (hself : Approval.Explained (log ++ [e]) challenge a) :
    Traced env (log ++ [e])
      { w with
        state := { w.state with approvals := w.state.approvals.insert challenge a }
        serial } := by
  refine ⟨h.justified.snoc hdue, fun n c o d he => ?_, fun key csrf he => ?_,
    fun key login hl => List.mem_append_left _ (h.logins key login hl),
    fun proof hproof => List.mem_append_left _ (h.proofs proof hproof), fun c other hc => ?_⟩
  · rcases List.mem_append.mp he with he | he
    · exact (h.serial n c o d he).trans_le hserial
    · exact hopened n c o d (List.mem_singleton.mp he).symm
  · rcases List.mem_append.mp he with he | he
    · exact h.keys key csrf he
    · exact absurd (List.mem_singleton.mp he).symm (hsignedIn key csrf)
  · by_cases heq : c = challenge
    · subst heq
      rw [AList.lookup_insert] at hc
      cases hc
      exact hself
    · rw [AList.lookup_insert_ne heq] at hc
      exact hother c other heq hc

/-! ### The moves of an approval -/

/-- What is logged of one approval leaves another as the log told. -/
theorem other_snoc (h : Traced env log w) {c c' : Challenge} {a a' : Approval}
    (ha : w.state.approvals.lookup c = some a) (ha' : w.state.approvals.lookup c' = some a')
    (hne : c' ≠ c) {e : Event} (hclaimed : ∀ n login, e = .claimed n login → n = a.serial)
    (hgranted : ∀ n login verifier origin token, e = .granted n login verifier origin token →
      n = a.serial) : Approval.Explained (log ++ [e]) c' a' := by
  have hserial : a'.serial ≠ a.serial := fun heq => hne (h.challenge_eq ha' ha heq)
  exact (h.approvals c' a' ha').snoc (fun login heq => hserial (hclaimed _ login heq))
    fun login v o t heq => hserial (hgranted _ login v o t heq)

/-- An opened approval is logged. -/
theorem opened (h : Traced env log w) (challenge : Challenge) (browser : Option BrowserOrigin)
    (keys : ClientKeys) (now : ℕ) :
    Traced env (log ++ [.opened w.serial challenge browser (now + approvalLifetime)])
      { w with
        state := w.state.openApproval challenge browser keys none now w.serial
        serial := w.serial + 1 } := by
  have hungranted : ∀ login v o t, .granted w.serial login v o t ∉ log := by
    intro login v o t hmem
    obtain ⟨before, after, rfl, ⟨c, d, csrf, at_, -, hopened, -⟩, -⟩ :=
      h.justified.exists_of_mem hmem
    exact (h.serial _ c o d (List.mem_append_left _ hopened)).ne rfl
  have hdue : Event.Due env log (.opened w.serial challenge browser (now + approvalLifetime)) := by
    refine ⟨trivial, fun e' hrivals hmem => ?_⟩
    cases e' <;> cases hrivals
    exact (h.serial _ _ _ _ hmem).ne rfl
  refine h.insertApproval hdue (Nat.le_succ _) ?_ nofun ?_ ?_
  · intro n c origin deadline heq
    cases heq
    exact Nat.lt_succ_self _
  · exact fun c other _ hc => (h.approvals c other hc).snoc nofun nofun
  · refine ⟨⟨_, List.mem_append_right _ (List.mem_singleton_self _), fun _ => rfl⟩,
      fun _ login hmem => ?_, nofun, nofun, fun _ login v o t hmem => ?_, nofun⟩
    · rcases List.mem_append.mp hmem with hmem | hmem
      · exact (h.claimed_lt hmem).ne rfl
      · cases List.mem_singleton.mp hmem
    · rcases List.mem_append.mp hmem with hmem | hmem
      · exact hungranted login v o t hmem
      · cases List.mem_singleton.mp hmem

/-- A claim is logged. -/
theorem claimed (h : Traced env log w) {challenge : Challenge} {a : Approval}
    (ha : w.state.approvals.lookup challenge = some a) (hopen : a.stage = .open) (login : Digest) :
    Traced env (log ++ [.claimed a.serial login])
      { w with state := { w.state with
          approvals := w.state.approvals.insert challenge { a with stage := .claimed login } } } := by
  have hself := h.approvals challenge a ha
  have hissued : a.issued = false := by rw [Approval.issued, hopen]
  obtain ⟨deadline, hopened, hdeadline⟩ := hself.opened
  have hdue : Event.Due env log (.claimed a.serial login) := by
    refine ⟨⟨challenge, a.browser, deadline, hopened⟩, fun e' hrivals hmem => ?_⟩
    cases e' with
    | claimed n other =>
      have hn : a.serial = n := hrivals
      subst hn
      exact hself.unclaimed hopen other hmem
    | _ => cases hrivals
  refine h.insertApproval hdue le_rfl (fun _ _ _ _ heq => by cases heq) (fun _ _ heq => by cases heq)
    ?_ ?_
  · exact fun c other hne hc => h.other_snoc ha hc hne (fun n l heq => (Event.claimed.inj heq).1.symm)
      fun _ _ _ _ _ heq => by cases heq
  · refine ⟨⟨deadline, List.mem_append_left _ hopened, fun _ => hdeadline hissued⟩,
      (fun hstage => by cases hstage), fun other hother _ => ?_, (fun _ hstage => by cases hstage),
      fun _ other v o t hmem => ?_, (fun _ _ hstage => by cases hstage)⟩
    · cases hother
      exact List.mem_append_right _ (List.mem_singleton_self _)
    · rcases List.mem_append.mp hmem with hmem | hmem
      · exact hself.ungranted hissued other v o t hmem
      · cases List.mem_singleton.mp hmem

/-- An approval is logged. -/
theorem approved (h : Traced env log w) {challenge : Challenge} {a : Approval}
    {proof : Digest × String} {now : ℕ} (ha : w.state.approvals.lookup challenge = some a)
    (hlogin : a.login = some proof.1) (hissued : a.issued = false) (hnow : now < a.deadline)
    (hproof : proof ∈ w.proofs) :
    Traced env (log ++ [.approved a.serial proof.1 proof.2 now])
      { w with state := { w.state with
          approvals := w.state.approvals.insert challenge { a with stage := .approved proof.1 } } } := by
  have hself := h.approvals challenge a ha
  obtain ⟨deadline, hopened, hdeadline⟩ := hself.opened
  have hclaimed := hself.claimed proof.1 hlogin hissued
  have hdue : Event.Due env log (.approved a.serial proof.1 proof.2 now) := by
    refine ⟨⟨hclaimed, h.proofs proof hproof, challenge, a.browser, deadline, hopened,
      hdeadline hissued ▸ hnow⟩, fun e' hrivals => ?_⟩
    cases e' <;> cases hrivals
  refine h.insertApproval hdue le_rfl nofun nofun ?_ ?_
  · exact fun c other hne hc => h.other_snoc ha hc hne nofun nofun
  · refine ⟨⟨deadline, List.mem_append_left _ hopened, fun _ => hdeadline hissued⟩, nofun,
      fun other hother _ => ?_, fun other hother => ?_, fun _ other v o t hmem => ?_, nofun⟩
    · cases hother
      exact List.mem_append_left _ hclaimed
    · cases hother
      exact ⟨_, _, List.mem_append_right _ (List.mem_singleton_self _)⟩
    · rcases List.mem_append.mp hmem with hmem | hmem
      · exact hself.ungranted hissued other v o t hmem
      · cases List.mem_singleton.mp hmem

/-- An issued grant is logged. -/
theorem became (h : Traced env log w) {challenge : Challenge} {verifier token : String}
    {a : Approval} {login : Digest} (deadline replayUntil : ℕ)
    (hchallenge : Challenge.of env verifier = some challenge)
    (ha : w.state.approvals.lookup challenge = some a) (hstage : a.stage = .approved login) :
    Traced env (log ++ [.granted a.serial login verifier a.browser token])
      { w with state := { w.state with
          approvals := w.state.approvals.insert challenge
            { a with
              deadline
              stage := .issued ⟨login, env.digest token, some token, replayUntil⟩ } } } := by
  have hself := h.approvals challenge a ha
  have hissued : a.issued = false := by rw [Approval.issued, hstage]
  obtain ⟨until_, hopened, -⟩ := hself.opened
  obtain ⟨csrf, now, happroved⟩ := hself.approved login hstage
  have hdue : Event.Due env log (.granted a.serial login verifier a.browser token) := by
    refine ⟨⟨challenge, until_, csrf, now, hchallenge, hopened, happroved⟩,
      fun e' hrivals hmem => ?_⟩
    cases e' with
    | granted n other v o t =>
      have hn : a.serial = n := hrivals
      subst hn
      exact hself.ungranted hissued other v o t hmem
    | _ => cases hrivals
  refine h.insertApproval hdue le_rfl (fun _ _ _ _ heq => by cases heq) (fun _ _ heq => by cases heq)
    ?_ ?_
  · exact fun c other hne hc => h.other_snoc ha hc hne (fun _ _ heq => by cases heq)
      fun n l v o t heq => (Event.granted.inj heq).1.symm
  · refine ⟨⟨until_, List.mem_append_left _ hopened, fun hnot => by cases hnot⟩,
      (fun hstage => by cases hstage), (fun _ _ hnot => by cases hnot),
      (fun _ hstage => by cases hstage), (fun hnot => by cases hnot),
      fun issued t hissued htoken => ?_⟩
    cases hissued
    cases htoken
    exact ⟨_, _, _, List.mem_append_right _ (List.mem_singleton_self _)⟩

/-- An event that neither opens, claims nor grants is logged, and no approval changes. -/
theorem logged (h : Traced env log w) {e : Event} (hdue : e.Due env log)
    (hopened : ∀ n c origin deadline, e ≠ .opened n c origin deadline)
    (hclaimed : ∀ n login, e ≠ .claimed n login)
    (hgranted : ∀ n login verifier origin token, e ≠ .granted n login verifier origin token)
    {w' : World} (happrovals : w'.state.approvals = w.state.approvals)
    (hserial : w'.serial = w.serial)
    (hkeys : ∀ key csrf, .signedIn key csrf ∈ log ++ [e] → key ∈ w'.loginKeys)
    (hlogins : ∀ key login, w'.state.logins.lookup key = some login →
      .signedIn key login.csrf ∈ log ++ [e])
    (hproofs : ∀ proof ∈ w'.proofs, .proved proof.1 proof.2 ∈ log ++ [e]) :
    Traced env (log ++ [e]) w' := by
  refine ⟨h.justified.snoc hdue, fun n c o d he => ?_, hkeys, hlogins, hproofs, fun c a ha => ?_⟩
  · rw [hserial]
    rcases List.mem_append.mp he with he | he
    · exact h.serial n c o d he
    · exact absurd (List.mem_singleton.mp he).symm (hopened n c o d)
  · rw [happrovals] at ha
    exact (h.approvals c a ha).snoc (hclaimed _) (hgranted _)

/-- A sign-in is logged. -/
theorem signedIn (h : Traced env log w) {key : Digest} {login : Login} (hfresh : key ∉ w.loginKeys)
    (sequence : ℕ) (tokens : Tokens) :
    Traced env (log ++ [.signedIn key login.csrf])
      { w with
        state := { w.state with sequence, logins := w.state.logins.insert key login, tokens }
        loginKeys := w.loginKeys ++ [key] } := by
  have hdue : Event.Due env log (.signedIn key login.csrf) := by
    refine ⟨trivial, fun e' hrivals hmem => ?_⟩
    cases e' <;> cases hrivals
    exact hfresh (h.keys _ _ hmem)
  refine h.logged hdue nofun nofun nofun rfl rfl ?_ ?_ ?_
  · intro other csrf hmem
    rcases List.mem_append.mp hmem with hmem | hmem
    · exact List.mem_append_left _ (h.keys other csrf hmem)
    · cases List.mem_singleton.mp hmem
      exact List.mem_append_right _ (List.mem_singleton_self _)
  · intro other found hlookup
    rcases AList.lookup_insert_of_eq_some hlookup with ⟨rfl, rfl⟩ | hlookup
    · exact List.mem_append_right _ (List.mem_singleton_self _)
    · exact List.mem_append_left _ (h.logins other found hlookup)
  · exact fun proof hproof => List.mem_append_left _ (h.proofs proof hproof)

/-- A proof or an answer is logged, and the clients' proofs are what the log tells. -/
theorem spoke (h : Traced env log w) {e : Event} (hdue : e.Due env log)
    (hquiet : (∃ login csrf, e = .proved login csrf) ∨ ∃ n token, e = .answered n token)
    {proofs : List (Digest × String)}
    (hproofs : ∀ proof ∈ proofs, .proved proof.1 proof.2 ∈ log ++ [e]) :
    Traced env (log ++ [e]) { w with proofs } := by
  have hlogins : ∀ key login, w.state.logins.lookup key = some login →
      .signedIn key login.csrf ∈ log ++ [e] :=
    fun key login hl => List.mem_append_left _ (h.logins key login hl)
  have hkeys : ∀ key csrf, .signedIn key csrf ∈ log ++ [e] → key ∈ w.loginKeys := by
    intro key csrf hmem
    rcases List.mem_append.mp hmem with hmem | hmem
    · exact h.keys key csrf hmem
    · rcases hquiet with ⟨_, _, rfl⟩ | ⟨_, _, rfl⟩ <;> cases List.mem_singleton.mp hmem
  rcases hquiet with ⟨_, _, rfl⟩ | ⟨_, _, rfl⟩
  · exact h.logged hdue nofun nofun nofun rfl rfl hkeys hlogins hproofs
  · exact h.logged hdue nofun nofun nofun rfl rfl hkeys hlogins hproofs

end Traced

variable {env : Env} {log events : List Event} {w w' : World}

/-- **Every move** is logged as it is due. -/
theorem move_traced (h : Traced env log w) (hmove : Move env w w' events) :
    Traced env (log ++ events) w' := by
  cases hmove with
  | ended key =>
    rw [List.append_nil]
    exact h.pruned le_rfl rfl rfl (fun k login hl => (AList.lookup_erase_eq_some.mp hl).2)
      fun c a ha => (AList.lookup_retain_eq_some.mp ha).1
  | tidied approvals hkept =>
    rw [List.append_nil]
    exact h.quiet le_rfl rfl rfl (fun _ _ hl => hl) hkept
  | evicted key grant hgrant =>
    rw [List.append_nil]
    exact h.pruned le_rfl rfl rfl (fun _ _ hl => hl)
      fun c a ha => (AList.lookup_retain_eq_some.mp ha).1
  | drew | session | bearer | granted =>
    rw [List.append_nil]
    exact h.pruned le_rfl rfl rfl (fun _ _ hl => hl) fun _ _ ha => ha
  | passed =>
    rw [List.append_nil]
    exact h.pruned (Nat.le_succ _) rfl rfl (fun _ _ hl => hl) fun _ _ ha => ha
  | signedIn key login sequence hfresh => exact h.signedIn hfresh sequence _
  | proved key login hlogin =>
    have hdue : Event.Due env log (.proved key login.csrf) := by
      refine ⟨h.logins key login hlogin, fun e' hrivals => ?_⟩
      cases e' <;> cases hrivals
    refine h.spoke hdue (.inl ⟨_, _, rfl⟩) fun proof hproof => ?_
    rcases List.mem_append.mp hproof with hproof | hproof
    · exact List.mem_append_left _ (h.proofs proof hproof)
    · cases List.mem_singleton.mp hproof
      exact List.mem_append_right _ (List.mem_singleton_self _)
  | opened challenge browser keys lease now hlease =>
    have hopened := h.opened challenge browser keys now
    match lease with
    | none => exact hopened
    | some lease =>
      -- It is opened, then claimed.
      have hclaimed := hopened.claimed (AList.lookup_insert _) rfl lease.2.login
      simp only [State.openApproval, AList.insert_insert] at hclaimed
      rw [List.append_assoc] at hclaimed
      exact hclaimed
  | claimed challenge approval lease happroval hopen hlease =>
    exact h.claimed happroval hopen lease.2.login
  | approved challenge approval proof now happroval hlogin hissued hnow hproof =>
    exact h.approved happroval hlogin hissued hnow hproof
  | became challenge verifier approval login token grant deadline replayUntil hchallenge happroval
      hstage hgrant hlogin hbrowser =>
    exact h.became deadline replayUntil hchallenge happroval hstage
  | answered challenge approval issued token happroval hstage htoken =>
    have hdue : Event.Due env log (.answered approval.serial token) := by
      refine ⟨(h.approvals challenge approval happroval).issued issued token hstage htoken,
        fun e' hrivals => ?_⟩
      cases e' <;> cases hrivals
    exact h.spoke hdue (.inr ⟨_, _, rfl⟩)
      fun proof hproof => List.mem_append_left _ (h.proofs proof hproof)

/-- A new world has an empty log. -/
theorem new_traced : Traced env [] new where
  justified := .nil
  serial _ _ _ _ h := nomatch h
  keys _ _ h := nomatch h
  logins _ _ h := nomatch h
  proofs _ h := nomatch h
  approvals _ _ h := nomatch h

/-- The log tells of every run what happened. -/
theorem run_traced {actions : List Action}
    (hrun : Machine.run (step env) new actions = some (w, log)) : Traced env log w := by
  have htraced := (run_moves new_whole hrun).2.induct (fun _ _ _ _ => move_traced) new_traced
  rw [List.nil_append] at htraced
  exact htraced

end World

/-! ## Tokens -/

namespace State.Issues

variable {env : Env} {s state : State} {verifier : String} {origin : Option BrowserOrigin}
  {credentials : Credentials} {now granted : ℕ} {answer : Answer} {events : List Event}

/-- A grant is logged only where one was made of an approved approval's login. -/
theorem exists_granted
    (h : Issues env s verifier origin credentials now granted answer state events)
    (hgrants : events.any Event.grants = true) :
    ∃ n login token made, (s.sweep now).grant env login origin credentials granted
        = (.ok token, made) ∧ state.grants = made.grants ∧
      events = [.granted n login verifier origin token, .answered n token] := by
  cases h with
  | idle | swept | refused | answered => cases hgrants
  | granted challenge approval login token expires made hchallenge happroval hbrowser hstage
      hgrant =>
    exact ⟨approval.serial, login, token, made, hgrant, becomeGrant_grants .., rfl⟩

/-- A success is logged under the number of the approval that is there. -/
theorem exists_answered {token : String} {expires : ℕ}
    (h : Issues env s verifier origin credentials now granted (.token token expires) state events) :
    ∃ c a, Challenge.of env verifier = some c ∧ (s.sweep now).approvals.lookup c = some a ∧
      a.browser = origin ∧ .answered a.serial token ∈ events := by
  cases h with
  | idle answer hanswer => exact absurd rfl (hanswer token expires)
  | swept answer hanswer => exact absurd rfl (hanswer token expires)
  | refused answer hanswer => exact absurd rfl (hanswer token expires)
  | answered c a issued token expires hchallenge happroval hbrowser =>
    exact ⟨c, a, hchallenge, happroval, hbrowser, List.mem_singleton_self _⟩
  | granted c a login token expires made hchallenge happroval hbrowser =>
    exact ⟨c, a, hchallenge, happroval, hbrowser, by simp⟩

end State.Issues

namespace World

variable {env : Env} {log events : List Event} {w w' : World} {browser : Bool}
  {origin : Option BrowserOrigin} {verifier : Option String}
  {credentials : Credentials} {now looked owned granted : ℕ}

/-- A token request with fresh credentials issues for its verifier, or leaves the state alone. -/
theorem step_token
    (h : w.step env (.token browser origin verifier credentials now looked owned granted)
      = some (w', events)) :
    env.digest credentials.token ∉ w.grantKeys ∧
    w'.grantKeys = w.grantKeys ++
      (if events.any Event.grants then [env.digest credentials.token] else []) ∧
    ∃ proof, (events ≠ [] → verifier = some proof) ∧
      w.state.Issues env proof (origin.filter fun _ => browser) credentials now granted
        (w.state.token env browser origin verifier credentials now looked owned granted).1 w'.state
        events := by
  by_cases hfresh : env.digest credentials.token ∉ w.grantKeys
  · simp only [step, if_pos hfresh] at h
    cases h
    refine ⟨hfresh, rfl, ?_⟩
    rcases State.token_cases env w.state browser origin verifier credentials now looked owned
      granted with ⟨answer, heq, hanswer⟩ | ⟨proof, hproof, heq⟩
    · rw [heq]
      exact ⟨"", fun hne => absurd rfl hne, .idle answer hanswer⟩
    · rw [heq]
      exact ⟨proof, fun _ => hproof, State.issue_cases env w.state proof _ credentials now looked
        owned granted⟩
  · simp only [step, if_neg hfresh] at h
    cases h

/-- A grant that a token request makes is logged. -/
theorem events_grants (h : Whole w) (h' : Whole w')
    (hstep : w.step env (.token browser origin verifier credentials now looked owned granted)
      = some (w', events)) {key : Digest} (hnew : key ∈ w'.state.grants)
    (hold : key ∉ w.state.grants) :
    events.any Event.grants = true ∧ key = env.digest credentials.token := by
  have hkey := h'.grantKeys key hnew
  rw [(step_token hstep).2.1] at hkey
  rcases List.mem_append.mp hkey with hkey | hkey
  · exact absurd hnew (run_grantGone h ⟨hkey, hold⟩ (Machine.run_singleton hstep)).2
  · split_ifs at hkey with hgrants
    · exact ⟨hgrants, List.mem_singleton.mp hkey⟩
    · cases hkey

/-- **What a grant rests on**: an approval of its challenge, opened for its origin, which its login
alone claimed and then approved in time with a proof of its own CSRF token. -/
theorem granted_reason (h : Justified (Event.Due env) (log ++ events)) {n : ℕ} {login : Digest}
    {proof token : String} {served : Option BrowserOrigin} {rest : List Event}
    (hevents : events = .granted n login proof served token :: rest) :
    ∃ c deadline csrf at_ before after, Challenge.of env proof = some c ∧
      log = before ++ .approved n login csrf at_ :: after ∧
      .opened n c served deadline ∈ before ∧ at_ < deadline ∧ .claimed n login ∈ before ∧
      .proved login csrf ∈ before ∧ .signedIn login csrf ∈ before ∧
      (∀ other, .claimed n other ∈ log → other = login) ∧
      ∀ login v o t, .granted n login v o t ∉ log := by
  subst hevents
  have hlog : Justified (Event.Due env) log := h.of_append
  obtain ⟨⟨c, deadline, csrf, at_, hchallenge, hopened, happroved⟩, hrivals⟩ := h log _ rest rfl
  obtain ⟨before, after, rfl, ⟨hclaimed, hproved, c', o', d', hopened', hin⟩, -⟩ :=
    hlog.exists_of_mem happroved
  have hold : ∀ {e}, e ∈ before → e ∈ before ++ .approved n login csrf at_ :: after :=
    List.mem_append_left _
  cases eq_of_rivals hlog hopened (hold hopened') rfl
  obtain ⟨first, between, rfl, hsigned, -⟩ := hlog.of_append.exists_of_mem hproved
  refine ⟨c, deadline, csrf, at_, _, after, hchallenge, rfl, hopened', hin, hclaimed, hproved,
    List.mem_append_left _ hsigned, fun other hother => ?_, fun l v o t => hrivals _ rfl⟩
  cases eq_of_rivals hlog hother (hold hclaimed) rfl
  rfl

/-- **Approval safety.** After every run, a token request that makes a grant makes it for the login
that claimed the approval of its verifier's challenge and then approved it in time with its own CSRF
token, at the origin the approval was opened for, and the approval made none before. One that
succeeds answers with the one token ever granted for its approval. -/
theorem issue_safe {actions : List Action}
    (hrun : Machine.run (step env) new actions = some (w, log))
    (hstep : w.step env (.token browser origin verifier credentials now looked owned granted)
      = some (w', events)) :
    (∀ key grant, w'.state.grants.lookup key = some grant → key ∉ w.state.grants →
      ∃ n proof c deadline csrf at_ before after,
        verifier = some proof ∧ Challenge.of env proof = some c ∧
        key = env.digest credentials.token ∧ grant.browser = origin.filter (fun _ => browser) ∧
        events = [.granted n grant.login proof grant.browser credentials.token,
          .answered n credentials.token] ∧
        log = before ++ .approved n grant.login csrf at_ :: after ∧
        .opened n c grant.browser deadline ∈ before ∧ at_ < deadline ∧
        .claimed n grant.login ∈ before ∧ .proved grant.login csrf ∈ before ∧
        .signedIn grant.login csrf ∈ before ∧
        (∀ other, .claimed n other ∈ log → other = grant.login) ∧
        ∀ login v o t, .granted n login v o t ∉ log) ∧
    ∀ token expires,
      (w.state.token env browser origin verifier credentials now looked owned granted).1
        = .token token expires →
      ∃ n proof c deadline login v o, verifier = some proof ∧ Challenge.of env proof = some c ∧
        .opened n c (origin.filter fun _ => browser) deadline ∈ log ∧ .answered n token ∈ events ∧
        .granted n login v o token ∈ log ++ events ∧
        ∀ login' v' o' token', .granted n login' v' o' token' ∈ log ++ events → token' = token := by
  have hall := Machine.run_append hrun (Machine.run_singleton hstep)
  have hw : Whole w := (run_moves new_whole hrun).1
  have hw' : Whole w' := (run_moves new_whole hall).1
  have htraced : Traced env (log ++ events) w' := run_traced hall
  obtain ⟨hfresh, -, proof, hproof, hissues⟩ := step_token hstep
  constructor
  · intro key grant hgrant hold
    have hnew : key ∈ w'.state.grants := AList.mem_iff_exists_lookup.mpr ⟨grant, hgrant⟩
    obtain ⟨hgrants, rfl⟩ := events_grants hw hw' hstep hnew hold
    -- the grant is the one that was made in the swept state, for the login the approval names
    obtain ⟨n, login, token, made, hmade, hsame, hevents⟩ := hissues.exists_granted hgrants
    obtain ⟨rfl, -, ⟨found, hfound, rfl, hserved⟩, -⟩ :=
      @grant_ok_moves env { w with state := w.state.sweep now } _ _ _ _ _ _ (hw.capped.sweep now)
        hfresh hmade
    rw [hsame, hfound] at hgrant
    cases hgrant
    obtain ⟨c, deadline, csrf, at_, before, after, hchallenge, hreason⟩ :=
      granted_reason htraced.justified hevents
    rw [← hserved] at hevents hreason
    exact ⟨n, proof, c, deadline, csrf, at_, before, after, hproof (by rw [hevents]; nofun),
      hchallenge, rfl, hserved, hevents, hreason⟩
  · intro token expires hanswer
    rw [hanswer] at hissues
    obtain ⟨c, a, hchallenge, ha, hbrowser, hanswered⟩ := hissues.exists_answered
    have hswept := (sweep_moves w now).induct (fun _ _ _ _ => move_traced) (run_traced hrun)
    obtain ⟨deadline, hopened, -⟩ := (hswept.approvals c a ha).opened
    rw [List.append_nil, hbrowser] at hopened
    -- what is answered was granted before, and one approval is granted once
    obtain ⟨first, rest, heq, ⟨login, v, o, hgranted⟩, -⟩ :=
      htraced.justified.exists_of_mem (List.mem_append_right log hanswered)
    have hmem : .granted a.serial login v o token ∈ log ++ events :=
      heq ▸ List.mem_append_left _ hgranted
    refine ⟨a.serial, proof, c, deadline, login, v, o, hproof (List.ne_nil_of_mem hanswered),
      hchallenge, hopened, hanswered, hmem, fun login' v' o' token' hother => ?_⟩
    exact (Event.granted.inj (eq_of_rivals htraced.justified hother hmem rfl)).2.2.2.2

/-- The terminal's grant is of the login that approved it. -/
theorem issue_safe_terminal :
    ∃ w log w' events grant,
      Machine.run (step terminalEnv) new (signsIn ++ approvesTerminal) = some (w, log) ∧
      w.step terminalEnv terminalAsks = some (w', events) ∧
      terminalEnv.digest grantToken ∉ w.state.grants ∧
      w'.state.grants.lookup (terminalEnv.digest grantToken) = some grant ∧
      grant.login = terminalEnv.digest sessionToken ∧
      ∃ n csrf at_, .approved n grant.login csrf at_ ∈ log := by
  have heval : ((Machine.run (step terminalEnv) new (signsIn ++ approvesTerminal)).bind fun end_ =>
      (end_.1.step terminalEnv terminalAsks).map fun after =>
        (decide (terminalEnv.digest grantToken ∉ end_.1.state.grants),
          (after.1.state.grants.lookup (terminalEnv.digest grantToken)).map Grant.login))
      = some (true, some (terminalEnv.digest sessionToken)) := by
    decide +kernel
  obtain ⟨⟨w, log⟩, hrun, hafter⟩ := Option.bind_eq_some_iff.mp heval
  obtain ⟨⟨w', events⟩, hstep, hend⟩ := Option.map_eq_some_iff.mp hafter
  rw [Prod.mk.injEq] at hend
  have hold := of_decide_eq_true hend.1
  obtain ⟨grant, hgrant, hlogin⟩ := Option.map_eq_some_iff.mp hend.2
  obtain ⟨n, proof, c, deadline, csrf, at_, before, after, -, -, -, -, -, hlog, -⟩ :=
    (issue_safe hrun hstep).1 _ grant hgrant hold
  refine ⟨w, log, w', events, grant, hrun, hstep, hold, hgrant, hlogin, n, csrf, at_, ?_⟩
  rw [hlog]
  simp

end World

end GraphiteMeter.Server.Auth
