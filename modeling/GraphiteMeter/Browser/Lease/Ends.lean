import GraphiteMeter.Browser.Lease.Answers
import GraphiteMeter.Browser.Lease.Waiting

/-!
# No lease left behind

A token the browser was told of is the one it presents, or one whose lease is gone at the server, or
one it ends: its `DELETE` is on its way or was lost. So an end that is carried out leaves no lease
behind that the browser was told of, unless its `DELETE` was lost. This holds whatever reaches the
server late.

A lease made for a request that was cut off before its answer was taken is not told of, and ends
unused.

Reference: `client/src/engine/net/lease.ts`, `end`; `rust/server/src/app/control.rs`, `lease`.
-/

namespace GraphiteMeter.Browser.Lease

variable {η : Type} {limits : Limits}

/-- What every answer keeps: leases that ended are not presented again, and tokens not given out name
none. -/
structure Follows (s s' : Server η) : Prop where
  gone : ∀ t, t < s.tokens → s.find t = none → s'.find t = none
  tokens : s.tokens ≤ s'.tokens
  unmade : (∀ t, s.tokens ≤ t → s.leases t = none) → ∀ t, s'.tokens ≤ t → s'.leases t = none

/-- A post keeps the leases that ended. -/
theorem Posted.follows {s s' : Server η} {token : Option ℕ} {asked : Server.Admission.Grant}
    {reply : Reply} (h : Posted s s' limits token asked reply) : Follows s s' :=
  ⟨h.gone, h.tokens, h.unmade⟩

/-- What lasts keeps the leases that ended. -/
theorem Lasts.follows {s s' : Server η} (h : Lasts s s') : Follows s s' :=
  ⟨fun _ _ hnone => h.gone hnone, h.tokens.ge,
    fun hunmade t ht => h.unmade hunmade t (h.tokens ▸ ht)⟩

/-- The lease a request names. -/
def Request.token : Request → Option ℕ
  | .post _ token _ _ => token
  | .delete token => some token

structure Told (log : List Event) (w : World η) : Prop where
  unmade : ∀ t, w.server.tokens ≤ t → w.server.leases t = none
  token : ∀ t, w.client.token = some t → t < w.server.tokens
  /-- A request names a lease that was made. -/
  sent : ∀ request reply, w.client.sent = some (request, reply) →
    ∀ t, request.token = some t → t < w.server.tokens
  strays : ∀ request ∈ w.strays, ∀ t, request.token = some t → t < w.server.tokens
  /-- A lease is answered that is the one presented, unless that one is gone. -/
  leased : ∀ purpose token asked uploads t grant ids,
    w.client.sent = some (.post purpose token asked uploads, some (.leased t grant ids)) →
      t < w.server.tokens ∧ (token = some t ∨ ∀ old, token = some old → w.server.find old = none)
  presents : ∀ purpose token asked uploads reply,
    w.client.sent = some (.post purpose token asked uploads, reply) → token = w.client.token
  ended : ∀ t, w.client.sent = some (.delete t, some .ended) → w.server.find t = none
  told : ∀ t, .told t ∈ log → t < w.server.tokens ∧ (w.client.token = some t ∨
    w.server.find t = none ∨ .lost t ∈ log ∨ ∃ reply, w.client.sent = some (.delete t, reply))

namespace Told

variable {log : List Event} {w : World η}

/-- The client does what says nothing of its lease. -/
theorem alone (h : Told log w) {c : Client} (htoken : c.token = w.client.token)
    (hsent : c.sent = w.client.sent) {events : List Event} (hno : ∀ t, .told t ∉ events) :
    Told (log ++ events) { w with client := c } := by
  refine ⟨h.unmade, fun t ht => h.token t (htoken ▸ ht), ?_, h.strays, ?_, ?_, ?_, fun t ht => ?_⟩
  · rw [hsent]
    exact h.sent
  · rw [hsent]
    exact h.leased
  · rw [hsent, htoken]
    exact h.presents
  · rw [hsent]
    exact h.ended
  · have hold := (List.mem_append.mp ht).resolve_right (hno t)
    rw [htoken, hsent]
    obtain ⟨hlt, hrest⟩ := h.told t hold
    exact ⟨hlt, hrest.imp_right (Or.imp_right (Or.imp_left (List.mem_append_left _)))⟩

/-- The request on its way is done. -/
theorem free (h : Told log w) {c : Client} (htoken : ∀ t, c.token = some t → t < w.server.tokens)
    (hsent : c.sent = none) {events : List Event}
    (htold : ∀ t, .told t ∈ log ++ events → t < w.server.tokens ∧
      (c.token = some t ∨ w.server.find t = none ∨ .lost t ∈ log ++ events)) :
    Told (log ++ events) { w with client := c } := by
  refine ⟨h.unmade, htoken, ?_, h.strays, ?_, ?_, ?_, fun t ht => ?_⟩
  · intro _ _ hno
    cases hsent.symm.trans hno
  · intro _ _ _ _ _ _ _ hno
    cases hsent.symm.trans hno
  · intro _ _ _ _ _ hno
    cases hsent.symm.trans hno
  · intro _ hno
    cases hsent.symm.trans hno
  · obtain ⟨hlt, hrest⟩ := htold t ht
    exact ⟨hlt, hrest.imp_right (Or.imp_right Or.inl)⟩

/-- The client's turns keep what was told. -/
theorem turns (h : Told log w) {c : Client} {events : List Event} (hturns : Turns w.client c events) :
    Told (log ++ events) { w with client := c } := by
  have hplain : ∀ later : List Event, (∀ e ∈ later, plain e = true) → ∀ t, .told t ∉ later := by
    intro later hlater t hmem
    cases hlater _ hmem
  cases hturns with
  | alone htoken hsent hevents => exact h.alone htoken hsent (hplain _ hevents)
  | asks purpose asked uploads hnone htoken hsent =>
    refine ⟨h.unmade, fun t ht => h.token t (htoken ▸ ht), fun request reply heq t ht => ?_,
      h.strays, fun _ _ _ _ _ _ _ heq => ?_, fun _ _ _ _ _ heq => ?_, fun _ heq => ?_,
      fun t ht => ?_⟩
    · cases hsent.symm.trans heq
      exact h.token t ht
    · cases hsent.symm.trans heq
    · cases hsent.symm.trans heq
      exact htoken.symm
    · cases hsent.symm.trans heq
    · rw [List.append_nil] at ht ⊢
      obtain ⟨hlt, hrest⟩ := h.told t ht
      refine ⟨hlt, ?_⟩
      rcases hrest with hcurrent | hgone | hlost | ⟨reply, hdelete⟩
      · exact .inl (htoken.trans hcurrent)
      · exact .inr (.inl hgone)
      · exact .inr (.inr (.inl hlost))
      · cases hnone.symm.trans hdelete
  | deletes token hnone hold htoken hsent =>
    refine ⟨h.unmade, fun t ht => ?_, fun request reply heq t ht => ?_, h.strays,
      fun _ _ _ _ _ _ _ heq => ?_, fun _ _ _ _ _ heq => ?_, fun _ heq => ?_, fun t ht => ?_⟩
    · cases htoken.symm.trans ht
    · cases hsent.symm.trans heq
      cases ht
      exact h.token token hold
    · cases hsent.symm.trans heq
    · cases hsent.symm.trans heq
    · cases hsent.symm.trans heq
    · have hmem : .told t ∈ log := by
        rcases List.mem_append.mp ht with hmem | hmem
        · exact hmem
        · cases List.mem_singleton.mp hmem
      obtain ⟨hlt, hrest⟩ := h.told t hmem
      refine ⟨hlt, .inr ?_⟩
      rcases hrest with hcurrent | hgone | hlost | ⟨reply, hdelete⟩
      · cases hold.symm.trans hcurrent
        exact .inr (.inr ⟨none, hsent⟩)
      · exact .inl hgone
      · exact .inr (.inl (List.mem_append_left _ hlost))
      · cases hnone.symm.trans hdelete
  | told hreply htoken hsent hevents =>
    obtain ⟨hlt, hpresented⟩ := h.leased _ _ _ _ _ _ _ hreply
    have hpresents := h.presents _ _ _ _ _ hreply
    refine h.free (fun t ht => ?_) hsent fun t ht => ?_
    · cases htoken.symm.trans ht
      exact hlt
    · rcases List.mem_append.mp ht with hmem | hmem
      · obtain ⟨hold, hrest⟩ := h.told t hmem
        refine ⟨hold, ?_⟩
        rcases hrest with hcurrent | hgone | hlost | ⟨reply, hdelete⟩
        · rw [← hpresents] at hcurrent
          rcases hpresented with hsame | hgone
          · cases hcurrent.symm.trans hsame
            exact .inl htoken
          · exact .inr (.inl (hgone t hcurrent))
        · exact .inr (.inl hgone)
        · exact .inr (.inr (List.mem_append_left _ hlost))
        · cases hreply.symm.trans hdelete
      · rcases List.mem_cons.mp hmem with heq | hmem
        · cases heq
          exact ⟨hlt, .inl htoken⟩
        · exact absurd hmem (hplain _ hevents t)
  | done hold htoken hsent =>
    refine h.free (fun t ht => h.token t (htoken ▸ ht)) hsent fun t ht => ?_
    rw [List.append_nil] at ht ⊢
    obtain ⟨hlt, hrest⟩ := h.told t ht
    refine ⟨hlt, ?_⟩
    rcases hrest with hcurrent | hgone | hlost | ⟨reply, hdelete⟩
    · exact .inl (htoken.trans hcurrent)
    · exact .inr (.inl hgone)
    · exact .inr (.inr hlost)
    · cases hold.symm.trans hdelete
  | ended hreply htoken hsent =>
    refine h.free (fun t ht => h.token t (htoken ▸ ht)) hsent fun t ht => ?_
    rw [List.append_nil] at ht ⊢
    obtain ⟨hlt, hrest⟩ := h.told t ht
    refine ⟨hlt, ?_⟩
    rcases hrest with hcurrent | hgone | hlost | ⟨reply, hdelete⟩
    · exact .inl (htoken.trans hcurrent)
    · exact .inr (.inl hgone)
    · exact .inr (.inr hlost)
    · cases hreply.symm.trans hdelete
      exact .inr (.inl (h.ended _ hreply))
  | lost hold htoken hsent =>
    refine h.free (fun t ht => h.token t (htoken ▸ ht)) hsent fun t ht => ?_
    have hmem : .told t ∈ log := by
      rcases List.mem_append.mp ht with hmem | hmem
      · exact hmem
      · cases List.mem_singleton.mp hmem
    obtain ⟨hlt, hrest⟩ := h.told t hmem
    refine ⟨hlt, ?_⟩
    rcases hrest with hcurrent | hgone | hlost | ⟨reply, hdelete⟩
    · exact .inl (htoken.trans hcurrent)
    · exact .inr (.inl hgone)
    · exact .inr (.inr (List.mem_append_left _ hlost))
    · cases hold.symm.trans hdelete
      exact .inr (.inr (List.mem_append_right _ List.mem_cons_self))

/-- The server does something, and may answer the request on its way. -/
theorem follows (h : Told log w) {s : Server η} (hfollows : Follows w.server s)
    {sent : Option (Request × Option Reply)}
    (hsent : sent = w.client.sent ∨ ∃ request reply, w.client.sent = some (request, none) ∧
      sent = some (request, some reply) ∧
      (∀ purpose token asked uploads t grant ids, request = .post purpose token asked uploads →
        reply = .leased t grant ids →
          t < s.tokens ∧ (token = some t ∨ ∀ old, token = some old → s.find old = none)) ∧
      ∀ t, request = .delete t → reply = .ended → s.find t = none) :
    Told log { w with server := s, client := { w.client with sent } } := by
  have hold : ∀ request reply, sent = some (request, reply) →
      ∃ before, w.client.sent = some (request, before) := by
    intro request reply heq
    rcases hsent with hsame | ⟨request', reply', hnone, hanswered, -⟩
    · exact ⟨reply, hsame.symm.trans heq⟩
    · cases hanswered.symm.trans heq
      exact ⟨none, hnone⟩
  refine ⟨hfollows.unmade h.unmade, fun t ht => (h.token t ht).trans_le hfollows.tokens,
    fun request reply heq t ht => ?_,
    fun request hmem t ht => (h.strays request hmem t ht).trans_le hfollows.tokens,
    fun purpose token asked uploads t grant ids heq => ?_,
    fun purpose token asked uploads reply heq => ?_, fun t heq => ?_, fun t ht => ?_⟩
  · obtain ⟨before, hbefore⟩ := hold request reply heq
    exact (h.sent request before hbefore t ht).trans_le hfollows.tokens
  · rcases hsent with hsame | ⟨request, reply, hnone, hanswered, hleased, -⟩
    · have hbefore := hsame.symm.trans heq
      obtain ⟨hlt, hpresented⟩ := h.leased purpose token asked uploads t grant ids hbefore
      refine ⟨hlt.trans_le hfollows.tokens, hpresented.imp_right fun hgone old hpresents => ?_⟩
      exact hfollows.gone old (h.sent _ _ hbefore old hpresents) (hgone old hpresents)
    · cases hanswered.symm.trans heq
      exact hleased purpose token asked uploads t grant ids rfl rfl
  · obtain ⟨before, hbefore⟩ := hold _ reply heq
    exact h.presents purpose token asked uploads before hbefore
  · rcases hsent with hsame | ⟨request, reply, hnone, hanswered, -, hended⟩
    · have hbefore := hsame.symm.trans heq
      exact hfollows.gone t (h.sent _ _ hbefore t rfl) (h.ended t hbefore)
    · cases hanswered.symm.trans heq
      exact hended t rfl rfl
  · obtain ⟨hlt, hrest⟩ := h.told t ht
    refine ⟨hlt.trans_le hfollows.tokens, ?_⟩
    rcases hrest with hcurrent | hgone | hlost | ⟨reply, hdelete⟩
    · exact .inl hcurrent
    · exact .inr (.inl (hfollows.gone t hlt hgone))
    · exact .inr (.inr (.inl hlost))
    · refine .inr (.inr (.inr ?_))
      rcases hsent with hsame | ⟨request, reply', hnone, hanswered, -⟩
      · exact ⟨reply, hsame.trans hdelete⟩
      · cases hnone.symm.trans hdelete
        exact ⟨_, hanswered⟩

/-- The server answers the request on its way. -/
theorem served (h : Told log w) {request : Request} (hsent : w.client.sent = some (request, none))
    (late : Bool) (ask : ℕ → Except Server.Full η) :
    Told log { w with
      server := (w.server.serve limits late ask request).1
      client := { w.client with
        sent := some (request, some (w.server.serve limits late ask request).2) } } := by
  cases request with
  | post purpose token asked uploads =>
    have hposted := posted w.server limits token asked uploads late ask
      fun t ht => h.sent _ _ hsent t ht
    refine h.follows hposted.follows (.inr ⟨_, _, hsent, rfl, ?_, fun _ heq => ?_⟩)
    · intro purpose' token' asked' uploads' t grant ids heq hreply
      cases heq
      obtain ⟨-, hlt, -, hpresented⟩ := hposted.leased h.unmade t grant ids hreply
      exact ⟨hlt, hpresented⟩
    · cases heq
  | delete token =>
    refine h.follows (lasts_delete w.server token).follows (.inr ⟨_, _, hsent, rfl, ?_, ?_⟩)
    · intro _ _ _ _ _ _ _ heq
      cases heq
    · intro t heq _
      cases heq
      exact find_delete w.server token

/-- A late arrival keeps what was told. -/
theorem late (h : Told log w) {request : Request} {index : ℕ} (hstray : w.strays[index]? = some request)
    (late : Bool) (ask : ℕ → Except Server.Full η) :
    Told log { w with
      server := (w.server.serve limits late ask request).1
      strays := w.strays.eraseIdx index } := by
  have hlt := h.strays request (List.mem_of_getElem? hstray)
  have hfollows : Follows w.server (w.server.serve limits late ask request).1 := by
    cases request with
    | post purpose token asked uploads =>
      exact (posted w.server limits token asked uploads late ask hlt).follows
    | delete token => exact (lasts_delete w.server token).follows
  have hkept := h.follows hfollows (.inl rfl)
  exact ⟨hkept.unmade, hkept.token, hkept.sent,
    fun other hother => hkept.strays other (List.mem_of_mem_eraseIdx hother), hkept.leased,
    hkept.presents, hkept.ended, hkept.told⟩

/-- **One step** keeps what was told. -/
theorem step (h : Told log w) {w' : World η} {a : Action η} {events : List Event}
    (hstep : World.step limits w a = some (w', events)) : Told (log ++ events) w' := by
  cases a with
  | hold need uploads =>
    cases hstep
    have hturns : Turns w.client (w.client.hold need uploads) [.asked w.client.holds] :=
      .alone rfl rfl (plain_singleton rfl)
    exact h.turns hturns
  | release id =>
    obtain ⟨result, hresult, heq⟩ := Option.map_eq_some_iff.mp hstep
    cases heq
    exact h.turns (turns_release hresult)
  | renew =>
    cases hstep
    have hturns : Turns w.client w.client.renew [.renewed] := .alone rfl rfl (plain_singleton rfl)
    exact h.turns hturns
  | upload =>
    cases hstep
    exact h.turns (turns_upload _)
  | ends =>
    cases hstep
    obtain ⟨htoken, hsent⟩ := ends_same w.client
    refine h.alone htoken hsent fun t hmem => ?_
    cases List.mem_singleton.mp hmem
  | abort index =>
    obtain ⟨client, hclient, heq⟩ := Option.map_eq_some_iff.mp hstep
    cases heq
    exact h.turns (turns_abort hclient)
  | begin =>
    obtain ⟨result, hresult, heq⟩ := Option.map_eq_some_iff.mp hstep
    cases heq
    exact h.turns (turns_begin hresult)
  | deliver =>
    obtain ⟨result, hresult, heq⟩ := Option.map_eq_some_iff.mp hstep
    cases heq
    exact h.turns (turns_deliver hresult)
  | resume index =>
    obtain ⟨result, hresult, heq⟩ := Option.map_eq_some_iff.mp hstep
    cases heq
    exact h.turns (turns_resume hresult)
  | cut =>
    obtain ⟨result, hresult, heq⟩ := Option.map_eq_some_iff.mp hstep
    cases heq
    have hkept := h.turns (turns_cut hresult)
    refine ⟨hkept.unmade, hkept.token, hkept.sent, fun request hmem t ht => ?_, hkept.leased,
      hkept.presents, hkept.ended, hkept.told⟩
    rcases List.mem_append.mp hmem with hmem | hmem
    · exact h.strays request hmem t ht
    · obtain ⟨reply, hsent⟩ := cut_strays hresult hmem
      exact h.sent request reply hsent t ht
  | serve late ask =>
    rw [World.step] at hstep
    split at hstep
    next request hsent =>
      cases hstep
      rw [List.append_nil]
      exact h.served hsent late ask
    next => cases hstep
  | reject =>
    rw [World.step] at hstep
    split at hstep
    next request hsent =>
      cases hstep
      rw [List.append_nil]
      refine h.follows (Lasts.refl _).follows (.inr ⟨_, _, hsent, rfl, ?_, ?_⟩)
      · intro _ _ _ _ _ _ _ _ hno
        cases hno
      · intro _ _ hno
        cases hno
    next => cases hstep
  | stray index late ask =>
    obtain ⟨request, hstray, heq⟩ := Option.map_eq_some_iff.mp hstep
    cases heq
    rw [List.append_nil]
    exact h.late hstray late ask
  | work token action =>
    rw [World.step] at hstep
    split at hstep
    next lease hlease =>
      split at hstep
      next hwork =>
        obtain ⟨result, hresult, heq⟩ := Option.map_eq_some_iff.mp hstep
        cases heq
        rw [List.append_nil]
        exact h.follows (lasts_work hlease hwork hresult).follows (.inl rfl)
      next => cases hstep
    next => cases hstep

/-- Nothing has been told at first. -/
theorem init : Told [] ({} : World η) := by
  refine ⟨fun _ _ => rfl, ?_, ?_, ?_, ?_, ?_, ?_, ?_⟩
  · intro _ hno
    cases hno
  · intro _ _ hno
    cases hno
  · intro _ hno
    cases hno
  · intro _ _ _ _ _ _ _ hno
    cases hno
  · intro _ _ _ _ _ hno
    cases hno
  · intro _ hno
    cases hno
  · intro _ hno
    cases hno

end Told

/-- **No lease left behind.** After an end that was asked for last, once nothing is held, queued or on
its way, the browser presents no lease, and every one it was told of is gone at the server, unless the
`DELETE` that ends it was lost. -/
theorem ends_every_lease {actions : List (Action η)} {w : World η} {log : List Event}
    (hrun : Machine.run (World.step limits) {} actions = some (w, log)) (hended : Ended log)
    (hheld : w.client.held = []) (hqueue : w.client.queue = []) (hsent : w.client.sent = none) :
    w.client.token = none ∧ ∀ t, .told t ∈ log → w.server.find t = none ∨ .lost t ∈ log := by
  have haway := away_of_ended hrun hended hheld hqueue
  have htold : Told ([] ++ log) w :=
    Machine.run_induct Told (fun _ _ _ _ _ h hstep => h.step hstep) Told.init hrun
  refine ⟨haway.1, fun t ht => ?_⟩
  obtain ⟨-, hcurrent | hgone | hlost | ⟨reply, hdelete⟩⟩ := htold.told t ht
  · cases haway.1.symm.trans hcurrent
  · exact .inl hgone
  · exact .inr hlost
  · cases hsent.symm.trans hdelete

/-- An end asked for while a need is held is carried out once the need is released. -/
def endedWhileHeld : List (Action ℕ) :=
  [.hold .ofSessions 1, .begin, .serve false .ok, .deliver, .ends, .upload, .release 0,
    .begin, .serve false .ok, .deliver]

/-- A lease that is held while its client ends. -/
theorem ends_every_lease_held :
    ∃ w log, Machine.run (World.step ⟨8, 4, by decide, by decide⟩) {} endedWhileHeld = some (w, log) ∧
      .told 0 ∈ log ∧ (w.server.find 0 = none ∨ .lost 0 ∈ log) := by
  have hrest : (Machine.run (World.step ⟨8, 4, by decide, by decide⟩) {} endedWhileHeld).map
      (fun result => (result.2, result.1.client.held.isEmpty, result.1.client.queue.isEmpty,
        result.1.client.sent.isNone))
        = some ([.asked 0, .told 0, .granted 0] ++ .asksEnd :: [.handed (some 0), .released 0, .deleting 0],
          true, true, true) := by
    decide
  obtain ⟨⟨w, log⟩, hrun, heq⟩ := Option.map_eq_some_iff.mp hrest
  simp only [Prod.mk.injEq] at heq
  obtain ⟨hlog, hheld, hqueue, hsent⟩ := heq
  have htold : .told 0 ∈ log := by
    rw [hlog]
    decide
  have hended : Ended log := ⟨_, _, hlog, by decide⟩
  refine ⟨w, log, hrun, htold, (ends_every_lease hrun hended ?_ ?_ ?_).2 0 htold⟩
  · exact List.isEmpty_iff.mp hheld
  · exact List.isEmpty_iff.mp hqueue
  · exact Option.isNone_iff_eq_none.mp hsent

end GraphiteMeter.Browser.Lease
