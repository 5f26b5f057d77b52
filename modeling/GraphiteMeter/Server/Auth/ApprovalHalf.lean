import GraphiteMeter.Server.Auth.ApprovalRoom

/-!
# The half of the room before sign-in

Reference: `rust/server/src/auth/approval.rs`. A page that opens an approval before sign-in keeps to
half the room. The browser page of a signed-in client does not, and where its login has no room to
claim what it opened, the approval stays as if opened before sign-in.
-/

namespace GraphiteMeter.Server.Auth

namespace State

variable {s : State} {challenge : Challenge}

/-! ## A crowding page -/

/-- The page of a login with all its approvals leaves the one it opens unclaimed. -/
theorem browserPage_eq {env : Env} {lease : AuthLease} {text : String} {origin : BrowserOrigin}
    {keys : ClientKeys} {crossSite : Bool} {serial looked swept opened : ℕ}
    (hparse : Challenge.parse env text = some challenge)
    (hpending : s.pending challenge looked = none)
    (hshared : ((s.sweep swept).approvalRoom (some lease.login) keys).shared = true)
    (hfull : maxLoginApprovals ≤
      ((s.sweep swept).besides challenge).countP fun approval => approval.login = some lease.login) :
    (s.browserPage env (some lease) text origin (some keys) crossSite serial looked swept
      opened).2.1 = (s.sweep swept).openApproval challenge (some origin) keys none opened serial := by
  rw [browserPage, hparse]
  simp only [hpending, Option.map_some]
  rw [if_pos hshared]
  simp only [claimBrowser_openApproval]
  rw [if_neg (not_lt.mpr hfull)]

/-- A crowding page does take the unclaimed beyond half the room. -/
theorem opens_of_crowds {env : Env} {lease : Option AuthLease} {text : String}
    {origin : BrowserOrigin} {keys : Option ClientKeys} {crossSite : Bool}
    {serial looked swept opened : ℕ} (h : s.crowds env lease text keys looked swept = true) :
    maxApprovals / 2 < opens
      (s.browserPage env lease text origin keys crossSite serial looked swept opened).2.1.unissued := by
  unfold crowds at h
  split at h
  · next challenge lease keys hparse =>
    obtain ⟨hpending, hshared, hfull, hhalf⟩ := of_decide_eq_true h
    rw [browserPage_eq hparse (Option.isNone_iff_eq_none.mp hpending) hshared hfull,
      unissued_openApproval, opens, List.countP_cons_of_pos rfl]
    exact Nat.lt_succ_of_le hhalf
  · cases h

/-- Where nothing expired and no token is held, a sweep changes nothing. -/
theorem sweep_eq_self (now : ℕ) (hlogins : ∀ e ∈ s.logins.entries, now < e.2.deadline)
    (happrovals : ∀ e ∈ s.approvals.entries, e.2.issued = false ∧ now < e.2.deadline) :
    s.sweep now = s := by
  have hexpired : (s.logins.entries.filter fun e => e.2.deadline ≤ now) = [] := by
    rw [List.filter_eq_nil_iff]
    intro e he hle
    exact absurd (hlogins e he) (not_lt.mpr (of_decide_eq_true hle))
  have hforgot : (s.approvals.mapValues fun _ approval => approval.forgetToken now) = s.approvals := by
    apply AList.ext
    refine (List.map_congr_left fun e he => ?_).trans (List.map_id _)
    rcases forgetToken_eq e.2 now with ⟨-, heq⟩ | ⟨hissued, -⟩
    · exact Sigma.ext rfl (heq_of_eq heq)
    · rw [(happrovals e he).1] at hissued
      cases hissued
  have hkept : (s.approvals.retain fun _ approval => now < approval.deadline) = s.approvals := by
    apply AList.ext
    refine List.filter_eq_self.mpr fun e he => ?_
    exact decide_eq_true (happrovals e he).2
  rw [sweep, hexpired]
  simp only [List.map_nil, List.foldl_nil]
  rw [hforgot, hkept]

/-- Opening an approval puts it behind the others. -/
theorem entries_openApproval {browser : Option BrowserOrigin} {keys : ClientKeys}
    {login : Option Digest} {now serial : ℕ} (habsent : challenge ∉ s.approvals) :
    (s.openApproval challenge browser keys login now serial).approvals.entries =
      ⟨challenge, browser, keys.iter, login.elim .open .claimed, now + approvalLifetime, serial⟩ ::
        s.approvals.entries :=
  AList.entries_insert_of_notMem habsent

/-- Without an approval of the challenge all unissued ones are besides it. -/
theorem besides_of_notMem (habsent : challenge ∉ s.approvals) : s.besides challenge = s.unissued := by
  have hsame : s.approvals.erase challenge = s.approvals := by
    apply AList.ext
    exact List.kerase_of_notMem_keys habsent
  rw [besides, hsame]

end State

namespace World

open State

variable {env : Env} {w : World}

/-- **The unclaimed approvals keep to half the room** in every run that no page crowds. -/
theorem opens_half {actions : List Action} {log : List Event}
    (hfit : Machine.Fit (fun w a => w.crowds env a = false) (step env) new actions)
    (hrun : Machine.run (step env) new actions = some (w, log)) :
    opens w.state.unissued ≤ 128 := by
  refine Machine.run_keeps_of_fit (fun w => opens w.state.unissued ≤ maxApprovals / 2)
    (fun w a w' events hhalf hcrowds hstep => ?_) (Nat.zero_le _) hfit hrun
  have hrecount := step_recount hstep
  rw [hcrowds] at hrecount
  exact hrecount.opens_le hhalf

/-- No weaker condition would do: what crowds takes them beyond it. -/
theorem opens_of_step {a : Action} {w' : World} {events : List Event}
    (hcrowds : w.crowds env a = true) (hstep : w.step env a = some (w', events)) :
    128 < opens w'.state.unissued := by
  cases a with
  | browserPage lease text origin keys crossSite looked swept opened =>
    rw [crowds] at hcrowds
    rw [step] at hstep
    cases hsession : w.session lease with
    | none =>
      rw [hsession] at hstep
      cases hstep
    | some session =>
      rw [hsession] at hstep hcrowds
      cases hstep
      exact opens_of_crowds hcrowds
  | _ => cases hcrowds

/-- A browser opens an approval, and the operator's session another that it claims. -/
theorem opens_half_browser :
    ∃ w log, Machine.run (step terminalEnv) new (signsIn ++
        [.cliPage (some 0) terminalChallenge (some (.v4 1)) 2 2 2,
         .browserPage none sessionToken ⟨"https://meter.example"⟩ (some (.v4 2)) false 3 3 3])
          = some (w, log) ∧
      w.state.unissued.length = 2 ∧ opens w.state.unissued ≤ 128 := by
  let actions := signsIn ++
    [.cliPage (some 0) terminalChallenge (some (.v4 1)) 2 2 2,
     .browserPage none sessionToken ⟨"https://meter.example"⟩ (some (.v4 2)) false 3 3 3]
  have heval : ((Machine.run (step terminalEnv) new actions).map fun e =>
      e.1.state.unissued.length) = some 2 := by
    decide +kernel
  have hfit : Machine.Fit (fun w a => w.crowds terminalEnv a = false) (step terminalEnv) new
      actions := by
    decide +kernel
  obtain ⟨⟨w, log⟩, hrun, hlen⟩ := Option.map_eq_some_iff.mp heval
  exact ⟨w, log, hrun, hlen, opens_half hfit hrun⟩

/-! ## A crowd

A login with its eight approvals opens browser pages from ever new addresses. The challenges are
digests of zeros after their first twelve bits.
-/

/-- The base64url alphabet. -/
def alphabet : List Char := "ABCDEFGHIJKLMNOPQRSTUVWXYZabcdefghijklmnopqrstuvwxyz0123456789-_".toList

def crowdText (i : ℕ) : String :=
  String.ofList (alphabet.getD (i / 64) 'A' :: alphabet.getD (i % 64) 'A' :: List.replicate 41 'A')

/-- Decodes these challenges as base64url does. -/
def crowdEnv : Env where
  encode := terminalEnv.encode
  decode text :=
    match text.toList with
    | first :: second :: rest =>
      let i := alphabet.idxOf first
      let j := alphabet.idxOf second
      if i < 64 ∧ j < 64 ∧ rest = List.replicate 41 'A' then
        some (UInt8.ofNat (i * 4 + j / 16) :: UInt8.ofNat (j % 16 * 16) :: List.replicate 30 0)
      else none
    | _ => none
  digest := terminalEnv.digest

/-- The `i`-th page of the crowd. -/
def crowdPage (i : ℕ) : Action :=
  .browserPage (some 0) (crowdText (i + 9)) ⟨"https://meter.example"⟩
    (some (.v4 (BitVec.ofNat 32 (i + 1)))) false 3 3 3

/-- The operator signs in and opens its eight approvals. -/
def crowdBefore : List Action :=
  signsIn ++ (List.range 8).map fun i =>
    .cliPage (some 0) (crowdText (i + 1)) (some (.v4 (BitVec.ofNat 32 0))) 2 2 2

/-- The alphabet has sixty-four characters. -/
theorem length_alphabet : alphabet.length = 64 := by decide +kernel

/-- No character repeats in the alphabet. -/
theorem nodup_alphabet : alphabet.Nodup := by decide +kernel

/-- Each character stands at its own index. -/
theorem idxOf_alphabet {i : ℕ} (hi : i < 64) : alphabet.idxOf (alphabet.getD i 'A') = i := by
  have hlt : i < alphabet.length := by
    rw [length_alphabet]
    exact hi
  rw [List.getD_eq_getElem?_getD, List.getElem?_eq_getElem hlt, Option.getD_some,
    nodup_alphabet.idxOf_getElem]

/-- Each index below sixty-four has a character. -/
theorem getD_alphabet_mem {i : ℕ} (hi : i < 64) : alphabet.getD i 'A' ∈ alphabet := by
  rw [← List.idxOf_lt_length_iff, idxOf_alphabet hi, length_alphabet]
  exact hi

/-- Distinct numbers give distinct challenges. -/
theorem crowdText_inj {i j : ℕ} (hi : i < 4096) (hj : j < 4096) (h : crowdText i = crowdText j) :
    i = j := by
  have hlist := String.ofList_injective h
  rw [List.cons.injEq, List.cons.injEq] at hlist
  have hfirst := congrArg alphabet.idxOf hlist.1
  have hsecond := congrArg alphabet.idxOf hlist.2.1
  rw [idxOf_alphabet (by omega), idxOf_alphabet (by omega)] at hfirst hsecond
  omega

/-- Each challenge is forty-three bytes long. -/
theorem size_crowdText {i : ℕ} (hi : i < 4096) : (crowdText i).utf8ByteSize = 43 := by
  have hall : alphabet.all (·.utf8Size == 1) = true := by decide +kernel
  have hone (c : Char) (hc : c ∈ alphabet) : c.utf8Size = 1 :=
    beq_iff_eq.mp (List.all_eq_true.mp hall c hc)
  have hrest : (String.ofList (List.replicate 41 'A')).utf8ByteSize = 41 := by decide +kernel
  rw [crowdText, String.ofList_cons, String.ofList_cons, String.utf8ByteSize_append,
    String.utf8ByteSize_append, String.utf8ByteSize_singleton, String.utf8ByteSize_singleton,
    hone _ (getD_alphabet_mem (by omega)), hone _ (getD_alphabet_mem (by omega)), hrest]

/-- Each challenge is read. -/
theorem parse_crowdText {i : ℕ} (hi : i < 4096) :
    ∃ code, Challenge.parse crowdEnv (crowdText i) = some ⟨crowdText i, code⟩ := by
  have hdecode : ∃ digest, crowdEnv.decode (crowdText i) = some digest ∧ digest.length = 32 := by
    rw [crowdText, crowdEnv]
    simp only [String.toList_ofList]
    rw [idxOf_alphabet (by omega), idxOf_alphabet (by omega), if_pos ⟨by omega, by omega, trivial⟩]
    exact ⟨_, rfl, rfl⟩
  obtain ⟨digest, hdigest, hlen⟩ := hdecode
  rw [Challenge.parse, verificationCode, size_crowdText hi, if_neg (by decide), hdigest]
  simp only
  rw [if_pos hlen]
  exact ⟨_, rfl⟩

/-- After `n` pages of the crowd. -/
structure Crowd (lease : AuthLease) (n : ℕ) (w : World) : Prop where
  session : w.session (some 0) = some (some lease)
  logins : ∀ e ∈ w.state.logins.entries, 3 < e.2.deadline
  approvals : ∀ e ∈ w.state.approvals.entries, e.2.issued = false ∧ 3 < e.2.deadline
  texts : ∀ e ∈ w.state.approvals.entries, ∃ i < n + 9, e.1.text = crowdText i
  opens : opens w.state.unissued = n
  login : w.state.unissued.countP (fun approval => approval.login = some lease.login) = 8
  length : w.state.unissued.length = n + 8
  clients : ∀ approval ∈ w.state.unissued, ∀ key ∈ approval.clients,
    ∃ i ≤ n, key = .v4 (BitVec.ofNat 32 i)

/-- One more page leaves one more approval unclaimed. -/
theorem Crowd.page {lease : AuthLease} {n : ℕ} (h : Crowd lease n w) (hn : n < 248) :
    ∃ w' events, w.step crowdEnv (crowdPage n) = some (w', events) ∧ Crowd lease (n + 1) w' := by
  obtain ⟨code, hparse⟩ := parse_crowdText (i := n + 9) (by omega)
  set challenge : Challenge := ⟨crowdText (n + 9), code⟩ with hchallenge
  have habsent : challenge ∉ w.state.approvals := by
    intro hmem
    obtain ⟨approval, hlookup⟩ := AList.mem_iff_exists_lookup.mp hmem
    obtain ⟨i, hi, htext⟩ := h.texts _ (AList.mem_lookup_iff.mp hlookup)
    have heq := crowdText_inj (by omega) (by omega) htext
    omega
  have hkey (approval : Approval) (happroval : approval ∈ w.state.unissued) :
      ClientKey.v4 (BitVec.ofNat 32 (n + 1)) ∉ approval.clients := by
    intro hmem
    obtain ⟨i, hi, heq⟩ := h.clients approval happroval _ hmem
    have hnat := congrArg BitVec.toNat (ClientKey.v4.inj heq)
    rw [BitVec.toNat_ofNat, BitVec.toNat_ofNat] at hnat
    omega
  have hshared : (w.state.approvalRoom (some lease.login)
      (.v4 (BitVec.ofNat 32 (n + 1)))).shared = true := by
    refine approvalRoom_shared_iff.mpr ⟨⟨?_, .inl rfl⟩, fun key share hshare => ?_⟩
    · rw [h.length, maxApprovals]
      omega
    · obtain ⟨rfl, rfl⟩ : key = .v4 (BitVec.ofNat 32 (n + 1)) ∧ share = 8 := by
        simpa [ClientKeys.shares, ClientKeys.iter, ClientKeys.doubled, maxClientApprovals]
          using hshare
      rw [List.countP_eq_zero.mpr fun approval happroval hcontains =>
        hkey approval happroval (List.contains_iff_mem.mp hcontains)]
      decide
  let keys : ClientKeys := .v4 (BitVec.ofNat 32 (n + 1))
  have hpage : (w.state.browserPage crowdEnv (some lease) (crowdText (n + 9))
      ⟨"https://meter.example"⟩ (some keys) false w.serial 3 3 3).2.1 =
      w.state.openApproval challenge (some ⟨"https://meter.example"⟩) keys none 3 w.serial := by
    have hswept := sweep_eq_self 3 h.logins h.approvals
    have hbesides := besides_of_notMem habsent
    have hpending : w.state.pending challenge 3 = none := by
      rw [pending, AList.lookup_eq_none.mpr habsent, Option.filter_none]
    rw [browserPage_eq hparse hpending (by rw [hswept]; exact hshared)
      (by rw [hswept, hbesides, h.login]; decide), hswept]
  have hentries := @entries_openApproval w.state challenge (some ⟨"https://meter.example"⟩) keys none
    3 w.serial habsent
  have hunissued := unissued_openApproval w.state challenge (some ⟨"https://meter.example"⟩) keys none
    3 w.serial
  rw [besides_of_notMem habsent] at hunissued
  have hstep : ∃ events, w.step crowdEnv (crowdPage n) =
      some ({ w with
        state := w.state.openApproval challenge (some ⟨"https://meter.example"⟩) keys none 3 w.serial
        serial := w.serial + 1 }, events) := by
    rw [crowdPage, step, h.session, ← hpage]
    exact ⟨_, rfl⟩
  obtain ⟨events, hstep⟩ := hstep
  refine ⟨_, events, hstep, h.session, h.logins, ?_, ?_, ?_, ?_, ?_, ?_⟩
  · intro e he
    rw [hentries] at he
    rcases List.mem_cons.mp he with rfl | he
    · exact ⟨rfl, show 3 < 3 + approvalLifetime by decide⟩
    · exact h.approvals e he
  · intro e he
    rw [hentries] at he
    rcases List.mem_cons.mp he with rfl | he
    · exact ⟨n + 9, by omega, rfl⟩
    · obtain ⟨i, hi, htext⟩ := h.texts e he
      exact ⟨i, by omega, htext⟩
  · rw [hunissued, State.opens, List.countP_cons_of_pos rfl]
    exact congrArg (· + 1) h.opens
  · rw [hunissued, List.countP_cons_of_neg (by simp [Approval.login])]
    exact h.login
  · rw [hunissued, List.length_cons, h.length, Nat.add_right_comm]
  · intro approval happroval key hmem
    rw [hunissued] at happroval
    rcases List.mem_cons.mp happroval with rfl | happroval
    · exact ⟨n + 1, le_rfl, List.mem_singleton.mp hmem⟩
    · obtain ⟨i, hi, heq⟩ := h.clients approval happroval key hmem
      exact ⟨i, by omega, heq⟩

/-- The pages of a crowd open one approval each. -/
theorem Crowd.pages {lease : AuthLease} (h : Crowd lease 0 w) (n : ℕ) (hn : n ≤ 248) :
    ∃ w' log, Machine.run (step crowdEnv) w ((List.range n).map crowdPage) = some (w', log) ∧
      Crowd lease n w' := by
  induction n with
  | zero => exact ⟨w, [], rfl, h⟩
  | succ n ih =>
    obtain ⟨mid, log, hrun, hmid⟩ := ih (by omega)
    obtain ⟨w', events, hstep, hw'⟩ := hmid.page (by omega)
    refine ⟨w', log ++ events, ?_, hw'⟩
    rw [List.range_succ, List.map_append]
    exact Machine.run_append hrun (Machine.run_singleton hstep)

/-- The operator, signed in and with its eight approvals open. -/
theorem crowd_before :
    ∃ w log lease, Machine.run (step crowdEnv) new crowdBefore = some (w, log) ∧
      Crowd lease 0 w := by
  have heval : ((Machine.run (step crowdEnv) new crowdBefore).map fun e => decide (
      (e.1.session (some 0)).map (fun lease => lease.map AuthLease.login) =
        some (some (terminalEnv.digest sessionToken)) ∧
      e.1.state.logins.entries.map (fun e => e.2.deadline) = [loginLifetime] ∧
      e.1.state.approvals.entries.map (fun e => (e.1.text, e.2.deadline)) =
        (List.range 8).reverse.map (fun i => (crowdText (i + 1), 2 + approvalLifetime)) ∧
      e.1.state.approvals.entries.map (fun e => (e.2.clients, e.2.stage)) =
        List.replicate 8
          ([.v4 (BitVec.ofNat 32 0)], .claimed (terminalEnv.digest sessionToken)))) = some true := by
    decide +kernel
  obtain ⟨⟨w, log⟩, hrun, hend⟩ := Option.map_eq_some_iff.mp heval
  obtain ⟨hsession, hlogins, htexts, hstages⟩ := of_decide_eq_true hend
  obtain ⟨session, hsession, hlogin⟩ := Option.map_eq_some_iff.mp hsession
  obtain ⟨lease, rfl, hdigest⟩ := Option.map_eq_some_iff.mp hlogin
  have hstage (e) (he : e ∈ w.state.approvals.entries) :
      e.2.clients = [.v4 (BitVec.ofNat 32 0)] ∧ e.2.stage = .claimed lease.login := by
    have hmem := List.mem_map_of_mem (f := fun e => (e.2.clients, e.2.stage)) he
    rw [hstages] at hmem
    have heq := List.eq_of_mem_replicate hmem
    rw [hdigest]
    exact ⟨congrArg Prod.fst heq, congrArg Prod.snd heq⟩
  have htext (e) (he : e ∈ w.state.approvals.entries) :
      (∃ i < 9, e.1.text = crowdText i) ∧ e.2.deadline = 2 + approvalLifetime := by
    have hmem := List.mem_map_of_mem (f := fun e => (e.1.text, e.2.deadline)) he
    rw [htexts, List.mem_map] at hmem
    obtain ⟨i, hi, heq⟩ := hmem
    rw [List.mem_reverse, List.mem_range] at hi
    exact ⟨⟨i + 1, by omega, (congrArg Prod.fst heq).symm⟩, (congrArg Prod.snd heq).symm⟩
  have hissued (e) (he : e ∈ w.state.approvals.entries) : e.2.issued = false := by
    rw [Approval.issued, (hstage e he).2]
  have hunissued : w.state.unissued = w.state.approvals.entries.map Sigma.snd := by
    refine List.filter_eq_self.mpr fun approval hmem => ?_
    obtain ⟨e, he, rfl⟩ := List.mem_map.mp hmem
    rw [hissued e he]
    rfl
  have hlen : w.state.approvals.entries.length = 8 := by
    have hlen := congrArg List.length hstages
    rw [List.length_map, List.length_replicate] at hlen
    exact hlen
  refine ⟨w, log, lease, hrun, hsession, ?_, ?_, ?_, ?_, ?_, ?_, ?_⟩
  · intro e he
    have hmem := List.mem_map_of_mem (f := fun e => e.2.deadline) he
    rw [hlogins, List.mem_singleton] at hmem
    rw [hmem]
    decide
  · intro e he
    rw [(htext e he).2]
    exact ⟨hissued e he, by decide⟩
  · exact fun e he => (htext e he).1
  · rw [hunissued, State.opens, List.countP_map, List.countP_eq_zero]
    intro e he hopen
    have hopen := of_decide_eq_true hopen
    rw [(hstage e he).2] at hopen
    cases hopen
  · rw [hunissued, List.countP_map, ← hlen, List.countP_eq_length]
    intro e he
    exact decide_eq_true (by rw [Approval.login, (hstage e he).2])
  · rw [hunissued, List.length_map, hlen]
  · intro approval hmem key hkey
    rw [hunissued] at hmem
    obtain ⟨e, he, rfl⟩ := List.mem_map.mp hmem
    rw [(hstage e he).1] at hkey
    exact ⟨0, le_rfl, List.mem_singleton.mp hkey⟩

/-- A login that may claim no more of them still leaves more approvals unclaimed than half the
room. -/
theorem crowd_opens :
    ∃ actions w log, Machine.run (step crowdEnv) new actions = some (w, log) ∧
      128 < State.opens w.state.unissued := by
  obtain ⟨w, log, lease, hbefore, hcrowd⟩ := crowd_before
  obtain ⟨w', log', hpages, hcrowd'⟩ := hcrowd.pages 129 (by decide)
  refine ⟨_, w', _, Machine.run_append hbefore hpages, ?_⟩
  rw [hcrowd'.opens]
  decide

end World

end GraphiteMeter.Server.Auth
