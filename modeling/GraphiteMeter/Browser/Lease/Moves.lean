import GraphiteMeter.Browser.Lease.Protocol

/-!
# What a step does to a client

Every step of the machine is a move of the client, or leaves it as it is. A move does one of few things
to the lease the client knows and to its request.

Reference: `client/src/engine/net/lease.ts`.
-/

namespace GraphiteMeter.Browser.Lease

open GraphiteMeter.Server.Admission (Grant)

/-! ## What the client does -/

/-- A step of the client, or an answer to its request. -/
inductive Moves : Client → Client → List Event → Prop
  | hold (c : Client) (need : Need) (uploads : ℕ) : Moves c (c.hold need uploads) [.asked c.holds]
  | release {c : Client} {id : ℕ} {result : Client × List Event} (h : c.release id = some result) :
    Moves c result.1 result.2
  | renew (c : Client) : Moves c c.renew [.renewed]
  | upload (c : Client) : Moves c c.upload.1 c.upload.2
  | ends (c : Client) : Moves c c.ends [.asksEnd]
  | abort {c c' : Client} {index : ℕ} (h : c.abort index = some c') : Moves c c' []
  | begin {c : Client} {result : Client × List Event} (h : c.begin = some result) :
    Moves c result.1 result.2
  | deliver {c : Client} {result : Client × List Event} (h : c.deliver = some result) :
    Moves c result.1 result.2
  | resume {c : Client} {index : ℕ} {result : Client × List Event}
    (h : c.resume index = some result) : Moves c result.1 result.2
  | cut {c : Client} {result : Client × List Request × List Event} (h : c.cut = some result) :
    Moves c result.1 result.2.2
  | answered {c : Client} {request : Request} (h : c.sent = some (request, none)) (reply : Reply) :
    Moves c { c with sent := some (request, some reply) } []
  | stays (c : Client) : Moves c c []

/-- **Every step** of the world moves the client as it logs. -/
theorem moves_step {η : Type} {limits : Limits} {w w' : World η} {a : Action η}
    {events : List Event} (hstep : World.step limits w a = some (w', events)) :
    Moves w.client w'.client events := by
  cases a with
  | hold need uploads =>
    cases hstep
    exact .hold _ need uploads
  | release id =>
    obtain ⟨result, hresult, heq⟩ := Option.map_eq_some_iff.mp hstep
    cases heq
    exact .release hresult
  | renew =>
    cases hstep
    exact .renew _
  | upload =>
    cases hstep
    exact .upload _
  | ends =>
    cases hstep
    exact .ends _
  | abort index =>
    obtain ⟨client, hclient, heq⟩ := Option.map_eq_some_iff.mp hstep
    cases heq
    exact .abort hclient
  | begin =>
    obtain ⟨result, hresult, heq⟩ := Option.map_eq_some_iff.mp hstep
    cases heq
    exact .begin hresult
  | deliver =>
    obtain ⟨result, hresult, heq⟩ := Option.map_eq_some_iff.mp hstep
    cases heq
    exact .deliver hresult
  | resume index =>
    obtain ⟨result, hresult, heq⟩ := Option.map_eq_some_iff.mp hstep
    cases heq
    exact .resume hresult
  | cut =>
    obtain ⟨result, hresult, heq⟩ := Option.map_eq_some_iff.mp hstep
    cases heq
    exact .cut hresult
  | serve late ask =>
    rw [World.step] at hstep
    split at hstep
    next request hsent =>
      cases hstep
      exact .answered hsent _
    next => cases hstep
  | reject =>
    rw [World.step] at hstep
    split at hstep
    next request hsent =>
      cases hstep
      exact .answered hsent _
    next => cases hstep
  | stray index late ask =>
    obtain ⟨request, -, heq⟩ := Option.map_eq_some_iff.mp hstep
    cases heq
    exact .stays _
  | work token action =>
    rw [World.step] at hstep
    split at hstep
    next =>
      split at hstep
      · obtain ⟨result, -, heq⟩ := Option.map_eq_some_iff.mp hstep
        cases heq
        exact .stays _
      · cases hstep
    next => cases hstep

/-- An event that says nothing of the lease. -/
def plain : Event → Bool
  | .asksEnd => false
  | .told _ => false
  | .deleting _ => false
  | .lost _ => false
  | _ => true

/-- What a move does to the lease the client knows and to its request. -/
inductive Turns (c c' : Client) : List Event → Prop
  | alone {events : List Event} (htoken : c'.token = c.token) (hsent : c'.sent = c.sent)
    (hplain : ∀ e ∈ events, plain e = true) : Turns c c' events
  | asks (purpose : Purpose) (asked : Grant) (uploads : ℕ) (hnone : c.sent = none)
    (htoken : c'.token = c.token)
    (hsent : c'.sent = some (.post purpose c.token asked uploads, none)) : Turns c c' []
  | deletes (token : ℕ) (hnone : c.sent = none) (hold : c.token = some token)
    (htoken : c'.token = none) (hsent : c'.sent = some (.delete token, none)) :
    Turns c c' [.deleting token]
  | told {purpose : Purpose} {token : Option ℕ} {asked grant : Grant} {uploads t : ℕ}
    {ids : List ℕ} {events : List Event}
    (hreply : c.sent = some (.post purpose token asked uploads, some (.leased t grant ids)))
    (htoken : c'.token = some t) (hsent : c'.sent = none) (hplain : ∀ e ∈ events, plain e = true) :
    Turns c c' (.told t :: events)
  | done {purpose : Purpose} {token : Option ℕ} {asked : Grant} {uploads : ℕ}
    {reply : Option Reply} (hold : c.sent = some (.post purpose token asked uploads, reply))
    (htoken : c'.token = c.token) (hsent : c'.sent = none) : Turns c c' []
  | ended {token : ℕ} (hreply : c.sent = some (.delete token, some .ended))
    (htoken : c'.token = c.token) (hsent : c'.sent = none) : Turns c c' []
  | lost {token : ℕ} {reply : Option Reply} (hold : c.sent = some (.delete token, reply))
    (htoken : c'.token = c.token) (hsent : c'.sent = none) : Turns c c' [.lost token]

/-- Nothing that happens is plain. -/
theorem plain_nil : ∀ e ∈ ([] : List Event), plain e = true := by
  intro e he
  cases he

/-- One plain event is all plain. -/
theorem plain_singleton {event : Event} (h : plain event = true) :
    ∀ e ∈ [event], plain e = true := by
  intro e he
  rw [List.mem_singleton.mp he]
  exact h

/-- Ending keeps the token and what was sent. -/
theorem ends_same (c : Client) : c.ends.token = c.token ∧ c.ends.sent = c.sent := by
  rw [Client.ends]
  split <;> exact ⟨rfl, rfl⟩

/-- Lowering the total keeps the token and what was sent. -/
theorem lowered_same (c : Client) : c.lowered.token = c.token ∧ c.lowered.sent = c.sent := by
  rw [Client.lowered]
  split
  · exact ends_same c
  · exact ⟨rfl, rfl⟩

/-- Shifting the queue keeps the token and what was sent, and logs nothing else. -/
theorem shift_same (c : Client) :
    c.shift.1.token = c.token ∧ c.shift.1.sent = c.sent ∧ ∀ e ∈ c.shift.2, plain e = true := by
  rw [Client.shift]
  split
  · exact ⟨rfl, rfl, plain_singleton rfl⟩
  · exact ⟨rfl, rfl, plain_singleton rfl⟩

/-- Beginning turns the client as it logs. -/
theorem turns_begin {c : Client} {result : Client × List Event} (h : c.begin = some result) :
    Turns c result.1 result.2 := by
  rw [Client.begin] at h
  split at h
  next purpose uploads aborted queue hsent hqueue =>
    split at h
    · cases h
      exact .alone rfl rfl plain_nil
    · cases h
      exact .asks purpose _ uploads hsent rfl rfl
  next queue hsent hqueue =>
    split at h
    next token htoken =>
      split at h
      · cases h
        exact .deletes token hsent htoken rfl rfl
      · cases h
        exact .alone rfl rfl plain_nil
    next =>
      cases h
      exact .alone rfl rfl plain_nil
  next => cases h

/-- A delivery turns the client as it logs. -/
theorem turns_deliver {c : Client} {result : Client × List Event} (h : c.deliver = some result) :
    Turns c result.1 result.2 := by
  rw [Client.deliver] at h
  split at h
  next purpose token asked uploads reply hsent =>
    split at h
    next t grant ids =>
      cases h
      cases purpose with
      | hold id =>
        rw [Client.leased]
        split
        · exact .told hsent rfl rfl (plain_singleton rfl)
        · exact .told hsent rfl rfl plain_nil
      | renew => exact .told hsent rfl rfl plain_nil
      | upload => exact .told hsent rfl rfl plain_nil
      | lowering => exact .told hsent rfl rfl plain_nil
    next =>
      cases h
      exact .done hsent rfl rfl
    next =>
      cases h
      exact .done hsent rfl rfl
  next token reply hsent =>
    split at h
    · cases h
      exact .ended hsent rfl rfl
    · cases h
      exact .lost hsent rfl rfl
  next => cases h

/-- Resuming turns the client as it logs. -/
theorem turns_resume {c : Client} {index : ℕ} {result : Client × List Event}
    (h : c.resume index = some result) : Turns c result.1 result.2 := by
  obtain ⟨rest, -, rfl⟩ := Option.map_eq_some_iff.mp h
  cases rest with
  | handing =>
    obtain ⟨htoken, hsent, hshift⟩ :=
      shift_same { c with settled := c.settled.eraseIdx index }
    exact .alone htoken hsent hshift
  | refused id => exact .alone rfl rfl (plain_singleton rfl)
  | unfit id =>
    obtain ⟨htoken, hsent⟩ := lowered_same
      (Client.drop { c with settled := c.settled.eraseIdx index } id)
    exact .alone htoken hsent (plain_singleton rfl)
  | failed id =>
    obtain ⟨htoken, hsent⟩ := lowered_same
      (Client.drop { c with settled := c.settled.eraseIdx index } id)
    exact .alone htoken hsent (plain_singleton rfl)

/-- A cut turns the client as it logs. -/
theorem turns_cut {c : Client} {result : Client × List Request × List Event}
    (h : c.cut = some result) : Turns c result.1 result.2.2 := by
  rw [Client.cut] at h
  split at h
  next request reply hsent =>
    cases request with
    | post purpose token asked uploads =>
      cases h
      exact .done hsent rfl rfl
    | delete token =>
      cases h
      exact .lost hsent rfl rfl
  next => cases h

/-- A release turns the client as it logs. -/
theorem turns_release {c : Client} {id : ℕ} {result : Client × List Event}
    (h : c.release id = some result) : Turns c result.1 result.2 := by
  rw [Client.release] at h
  split at h
  · cases h
    obtain ⟨htoken, hsent⟩ := lowered_same (c.drop id)
    exact .alone htoken hsent (plain_singleton rfl)
  · cases h

/-- An upload turns the client as it logs. -/
theorem turns_upload (c : Client) : Turns c c.upload.1 c.upload.2 := by
  rw [Client.upload]
  split
  · exact .alone rfl rfl (plain_singleton rfl)
  · obtain ⟨htoken, hsent, hshift⟩ := shift_same c
    exact .alone htoken hsent hshift

/-- An abort turns the client and logs nothing. -/
theorem turns_abort {c c' : Client} {index : ℕ} (h : c.abort index = some c') : Turns c c' [] := by
  rw [Client.abort] at h
  split at h
  · cases h
    exact .alone rfl rfl plain_nil
  · cases h

/-- What is cut off and may reach the server yet was on its way. -/
theorem cut_strays {c : Client} {result : Client × List Request × List Event}
    (h : c.cut = some result) {request : Request} (hmem : request ∈ result.2.1) :
    ∃ reply, c.sent = some (request, reply) := by
  rw [Client.cut] at h
  split at h
  next sent reply hsent =>
    have hstray : request ∈ (if reply.isNone then [sent] else []) → request = sent := by
      split
      · exact List.mem_singleton.mp
      · intro hno
        cases hno
    cases sent with
    | post purpose token asked uploads =>
      cases h
      exact ⟨reply, hstray hmem ▸ hsent⟩
    | delete token =>
      cases h
      exact ⟨reply, hstray hmem ▸ hsent⟩
  next => cases h

/-- A move turns, unless it asks for an end or answers. -/
theorem Moves.turns {c c' : Client} {events : List Event} (h : Moves c c' events) :
    Turns c c' events ∨ c' = c.ends ∧ events = [.asksEnd] ∨
      ∃ request reply, c.sent = some (request, none) ∧
        c' = { c with sent := some (request, some reply) } ∧ events = [] := by
  cases h with
  | hold need uploads => exact .inl (.alone rfl rfl (plain_singleton rfl))
  | release h => exact .inl (turns_release h)
  | renew => exact .inl (.alone rfl rfl (plain_singleton rfl))
  | upload => exact .inl (turns_upload c)
  | ends => exact .inr (.inl ⟨rfl, rfl⟩)
  | abort h => exact .inl (turns_abort h)
  | begin h => exact .inl (turns_begin h)
  | deliver h => exact .inl (turns_deliver h)
  | resume h => exact .inl (turns_resume h)
  | cut h => exact .inl (turns_cut h)
  | answered hsent reply => exact .inr (.inr ⟨_, reply, hsent, rfl, rfl⟩)
  | stays => exact .inl (.alone rfl rfl plain_nil)

/-- What turns asks for no end. -/
theorem Turns.asksEnd {c c' : Client} {events : List Event} (h : Turns c c' events) :
    .asksEnd ∉ events := by
  have hno : ∀ later : List Event, (∀ e ∈ later, plain e = true) → .asksEnd ∉ later := by
    intro later hplain hmem
    cases hplain _ hmem
  intro hmem
  cases h with
  | alone _ _ hplain => exact hno _ hplain hmem
  | told _ _ _ hplain =>
    rcases List.mem_cons.mp hmem with heq | hmem
    · cases heq
    · exact hno _ hplain hmem
  | asks => cases hmem
  | deletes => cases List.mem_singleton.mp hmem
  | done => cases hmem
  | ended => cases hmem
  | lost => cases List.mem_singleton.mp hmem

/-- Only asking for an end logs it. -/
theorem Moves.asksEnd {c c' : Client} {events : List Event} (h : Moves c c' events)
    (hmem : .asksEnd ∈ events) : c' = c.ends := by
  rcases h.turns with hturns | ⟨heq, -⟩ | ⟨_, _, -, -, rfl⟩
  · exact absurd hmem hturns.asksEnd
  · exact heq
  · cases hmem

end GraphiteMeter.Browser.Lease
