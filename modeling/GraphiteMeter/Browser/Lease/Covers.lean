import GraphiteMeter.Browser.Lease.Answers

/-!
# What a hold holds

While a need is held, the lease its browser presents covers it, at the server, with everything else
held and the bus: the server admits that work without asking its quotas. A request cut off may change
the lease only as long as the server sees it before the next one leaves (`Action.stray`, the late
arrival, is what the result leaves out).

One invariant carries it: what is granted is within the client's share, within what the request on its
way asks, and within the grant of the lease presented.

Reference: `client/src/engine/net/lease.ts`; `rust/server/src/app/control.rs`, `lease`.
-/

namespace GraphiteMeter.Browser.Lease

open GraphiteMeter.Server
open GraphiteMeter.Server.Admission (Grant)

/-! ## Sums of needs -/

/-- A grant holds no less than another. -/
def Within (a b : Grant) : Prop := a.measurements ≤ b.measurements ∧ a.sessions ≤ b.sessions

/-- A grant within one that is within a third is within the third. -/
theorem Within.trans {a b c : Grant} (hab : Within a b) (hbc : Within b c) : Within a c :=
  ⟨hab.1.trans hbc.1, hab.2.trans hbc.2⟩

/-- One more hold adds its need. -/
theorem sum_cons (hold : Hold) (held : List Hold) :
    sum (hold :: held) = ⟨hold.need.measurements + (sum held).measurements,
      hold.need.sessions + (sum held).sessions⟩ := rfl

/-- Fewer holds need no more. -/
theorem sum_sublist {held held' : List Hold} (h : held.Sublist held') :
    Within (sum held) (sum held') := by
  induction h with
  | slnil => exact ⟨Nat.le_refl _, Nat.le_refl _⟩
  | cons hold _ ih =>
    rw [sum_cons]
    exact ⟨ih.1.trans (Nat.le_add_left _ _), ih.2.trans (Nat.le_add_left _ _)⟩
  | cons_cons hold _ ih =>
    rw [sum_cons, sum_cons]
    exact ⟨Nat.add_le_add_left ih.1 _, Nat.add_le_add_left ih.2 _⟩

/-- The sessions held are measurements held. -/
theorem sum_sessions_le (held : List Hold) : (sum held).sessions ≤ (sum held).measurements := by
  induction held with
  | nil => exact Nat.zero_le _
  | cons hold held ih =>
    rw [sum_cons]
    exact Nat.add_le_add hold.need.sessions_le ih

/-- What is within an ask and within the client's share is within what the server grants of it. -/
theorem within_share {limits : Limits} {a asked : Grant} (hasked : Within a asked)
    (hm : a.measurements ≤ limits.operationsPerClient) (hs : a.sessions ≤ limits.sessionsPerClient)
    (hle : a.sessions ≤ a.measurements) : Within a (limits.share asked) :=
  ⟨le_min hasked.1 hm, le_min (le_min hasked.2 hs) (hle.trans (le_min hasked.1 hm))⟩

/-- An ask of which all is granted is within the client's share. -/
theorem fits_share {limits : Limits} {asked : Grant}
    (h : Client.fits asked (limits.share asked) = true) :
    asked.measurements ≤ limits.operationsPerClient ∧ asked.sessions ≤ limits.sessionsPerClient := by
  rw [Client.fits, Bool.and_eq_true, decide_eq_true_iff, decide_eq_true_iff] at h
  exact ⟨h.1.trans (min_le_right _ _), h.2.trans ((min_le_left _ _).trans (min_le_right _ _))⟩

/-! ## What is granted -/

/-- The needs `hold` has answered. -/
def granted (held : List Hold) : List Hold :=
  held.filter (·.granted)

/-- Those, with the one a request asks for. -/
def asking (held : List Hold) (purpose : Purpose) : List Hold :=
  held.filter fun hold => hold.granted || decide (purpose = .hold hold.id)

/-- What is granted is among what is asked for. -/
theorem granted_sublist_asking (held : List Hold) (purpose : Purpose) :
    (granted held).Sublist (asking held purpose) :=
  List.monotone_filter_right held fun hold h => by rw [h, Bool.true_or]

/-- Filtering first leaves no more. -/
theorem filter_filter_sublist {α : Type} (p q : α → Bool) (xs : List α) :
    ((xs.filter p).filter q).Sublist (xs.filter q) := by
  rw [List.filter_filter]
  exact List.monotone_filter_right xs fun x h => (Bool.and_eq_true_iff.mp h).1

/-- The grant of a hold is of what was asked for it. -/
theorem granted_map_sublist (held : List Hold) (id : ℕ) :
    Within (sum (granted (held.map fun hold =>
      if hold.id = id then { hold with granted := true } else hold)))
      (sum (asking held (.hold id))) := by
  induction held with
  | nil => exact ⟨Nat.le_refl _, Nat.le_refl _⟩
  | cons hold held ih =>
    have hcons : ∀ a b : List Hold, Within (sum a) (sum b) →
        ∀ x y : Hold, x.need = y.need → Within (sum (x :: a)) (sum (y :: b)) := by
      intro a b hab x y hxy
      rw [sum_cons, sum_cons, hxy]
      exact ⟨Nat.add_le_add_left hab.1 _, Nat.add_le_add_left hab.2 _⟩
    by_cases hid : hold.id = id
    · rw [List.map_cons, if_pos hid, granted, List.filter_cons_of_pos rfl, asking,
        List.filter_cons_of_pos (by rw [hid, decide_eq_true rfl, Bool.or_true])]
      exact hcons _ _ ih _ _ rfl
    · have hne : decide (Purpose.hold id = .hold hold.id) = false :=
        decide_eq_false fun h => hid (Purpose.hold.inj h).symm
      rw [List.map_cons, if_neg hid]
      cases hgranted : hold.granted with
      | true =>
        rw [granted, List.filter_cons_of_pos hgranted, asking,
          List.filter_cons_of_pos (by rw [hgranted, Bool.true_or])]
        exact hcons _ _ ih _ _ rfl
      | false =>
        rw [granted, List.filter_cons_of_neg (by rw [hgranted]; exact Bool.false_ne_true), asking,
          List.filter_cons_of_neg (by rw [hgranted, hne]; exact Bool.false_ne_true)]
        exact ih

/-! ## The invariant -/

section Invariant

variable {η : Type} {limits : Limits}

/-- The hold a purpose names was made. -/
def Purpose.Made (holds : ℕ) : Purpose → Prop
  | .hold id => id < holds
  | _ => True

def Job.Made (holds : ℕ) : Job → Prop
  | .post purpose _ _ => purpose.Made holds
  | .delete => True

/-- What holds of the request on its way: it presents the lease the client knows, asks no less than is
granted and what it is for, and an answer tells what the lease holds. -/
def Asks (limits : Limits) (c : Client) (s : Server η) : Prop :=
  ∀ purpose token asked uploads reply, c.sent = some (.post purpose token asked uploads, reply) →
    token = c.token ∧ purpose.Made c.holds ∧ Within (sum (asking c.held purpose)) asked ∧
      ∀ t grant ids, reply = some (.leased t grant ids) →
        grant = limits.share asked ∧ t < s.tokens ∧
          ∀ lease, s.find t = some lease → lease.state.grant = limits.share asked

structure Covered (limits : Limits) (w : World η) : Prop where
  measurements : (sum (granted w.client.held)).measurements ≤ limits.operationsPerClient
  sessions : (sum (granted w.client.held)).sessions ≤ limits.sessionsPerClient
  lease : ∀ t lease, w.client.token = some t → w.server.find t = some lease →
    Within (sum (granted w.client.held)) lease.state.grant
  asks : Asks limits w.client w.server
  queue : ∀ job ∈ w.client.queue, job.Made w.client.holds
  token : ∀ t, w.client.token = some t → t < w.server.tokens
  unmade : ∀ t, w.server.tokens ≤ t → w.server.leases t = none

/-- What is granted is within the share of any ask that is no less. -/
theorem Covered.within_share {w : World η} (h : Covered limits w) {asked : Grant}
    (hasked : Within (sum (granted w.client.held)) asked) :
    Within (sum (granted w.client.held)) (limits.share asked) :=
  Lease.within_share hasked h.measurements h.sessions (sum_sessions_le _)

/-- A client that holds no more of what is granted, under the lease it had or none, and with the
request it had on its way or none. -/
structure Less (c c' : Client) : Prop where
  granted : (granted c'.held).Sublist (granted c.held)
  token : c'.token = c.token ∨ c'.token = none ∧ ∀ purpose token asked uploads reply,
    c'.sent ≠ some (.post purpose token asked uploads, reply)
  sent : ∀ purpose token asked uploads reply, c'.sent = some (.post purpose token asked uploads, reply) →
    c.sent = c'.sent ∧ (purpose.Made c.holds → (asking c'.held purpose).Sublist (asking c.held purpose))
  holds : c.holds ≤ c'.holds
  queue : (∀ job ∈ c.queue, job.Made c'.holds) → ∀ job ∈ c'.queue, job.Made c'.holds

/-- A purpose made by now is made by later. -/
theorem Purpose.Made.mono {purpose : Purpose} {m n : ℕ} (h : purpose.Made m) (hle : m ≤ n) :
    purpose.Made n := by
  cases purpose with
  | hold id => exact Nat.lt_of_lt_of_le h hle
  | renew => trivial
  | upload => trivial
  | lowering => trivial

/-- A job made by now is made by later. -/
theorem Job.Made.mono {job : Job} {m n : ℕ} (h : job.Made m) (hle : m ≤ n) : job.Made n := by
  cases job with
  | post purpose uploads aborted => exact Purpose.Made.mono h hle
  | delete => trivial

/-- A client that holds less is covered too. -/
theorem Covered.less {w : World η} (h : Covered limits w) {c : Client} (hless : Less w.client c)
    (strays : List Request) : Covered limits { w with client := c, strays } := by
  have hsum : Within (sum (granted c.held)) (sum (granted w.client.held)) :=
    sum_sublist hless.granted
  refine ⟨hsum.1.trans h.measurements, hsum.2.trans h.sessions, fun t lease htoken hfind => ?_,
    fun purpose token asked uploads reply hsent => ?_, fun job hjob => ?_, fun t htoken => ?_,
    h.unmade⟩
  · rcases hless.token with heq | ⟨hnone, -⟩
    · exact hsum.trans (h.lease t lease (heq ▸ htoken) hfind)
    · rw [show c.token = some t from htoken] at hnone
      cases hnone
  · obtain ⟨hsame, hasking⟩ := hless.sent purpose token asked uploads reply hsent
    obtain ⟨htoken, hmade, hwithin, hreply⟩ :=
      h.asks purpose token asked uploads reply (hsame.trans hsent)
    refine ⟨?_, hmade.mono hless.holds, (sum_sublist (hasking hmade)).trans hwithin, hreply⟩
    rcases hless.token with heq | ⟨-, hno⟩
    · exact htoken.trans heq.symm
    · exact (hno _ _ _ _ _ hsent).elim
  · exact hless.queue (fun old hold => (h.queue old hold).mono hless.holds) job hjob
  · rcases hless.token with heq | ⟨hnone, -⟩
    · exact h.token t (heq ▸ htoken)
    · rw [show c.token = some t from htoken] at hnone
      cases hnone

namespace Less

variable {c c' : Client}

/-- A client with other minted ids, callers, or end under way, and no request but the one it had. -/
theorem of_same (hheld : c'.held = c.held) (htoken : c'.token = c.token)
    (hsent : c'.sent = c.sent ∨ c'.sent = none) (hholds : c'.holds = c.holds)
    (hqueue : (∀ job ∈ c.queue, job.Made c.holds) → ∀ job ∈ c'.queue, job.Made c.holds) :
    Less c c' := by
  refine ⟨by rw [hheld], .inl htoken, fun purpose token asked uploads reply h => ?_, hholds.ge,
    hholds ▸ hqueue⟩
  rcases hsent with hsame | hnone
  · exact ⟨hsame.symm, fun _ => by rw [hheld]⟩
  · rw [hnone] at h
    cases h

/-- Dropping a hold leaves less. -/
theorem drop (h : Less c c') (id : ℕ) : Less c (c'.drop id) :=
  ⟨(filter_filter_sublist _ _ _).trans h.granted, h.token,
    fun purpose token asked uploads reply hsent =>
      ⟨(h.sent purpose token asked uploads reply hsent).1, fun hmade =>
        (filter_filter_sublist _ _ _).trans
          ((h.sent purpose token asked uploads reply hsent).2 hmade)⟩,
    h.holds, h.queue⟩

/-- One more job whose hold, if any, was made. -/
theorem queued (h : Less c c') {job : Job} (hjob : job.Made c'.holds) (ending : Bool) :
    Less c { c' with ending, queue := c'.queue ++ [job] } :=
  ⟨h.granted, h.token, h.sent, h.holds, fun hqueue other hother => by
    rcases List.mem_append.mp hother with hother | hother
    · exact h.queue hqueue other hother
    · rw [List.mem_singleton.mp hother]
      exact hjob⟩

/-- Ending the lease leaves no more. -/
theorem ends (h : Less c c') : Less c c'.ends := by
  have hmade : Job.Made c'.holds .delete := trivial
  rw [Client.ends]
  split
  · exact h.queued hmade false
  · exact ⟨h.granted, h.token, h.sent, h.holds, h.queue⟩

/-- Lowering the total leaves no more. -/
theorem lowered (h : Less c c') : Less c c'.lowered := by
  rw [Client.lowered]
  split
  · exact h.ends
  · have hmade : Job.Made c'.holds (.post .lowering 0 false) := trivial
    exact h.queued hmade c'.ending

/-- A client holds no more than itself. -/
theorem refl (c : Client) : Less c c :=
  of_same rfl rfl (.inl rfl) rfl id

/-- A new hold is not granted yet. -/
theorem hold (c : Client) (need : Need) (uploads : ℕ) : Less c (c.hold need uploads) := by
  refine ⟨?_, .inl rfl, fun purpose token asked ids reply hsent => ⟨rfl, fun hmade => ?_⟩,
    Nat.le_succ _, fun hqueue job hjob => ?_⟩
  · rw [Client.hold, Lease.granted, List.filter_append, List.filter_cons_of_neg (by exact Bool.false_ne_true),
      List.filter_nil, List.append_nil]
    exact .refl _
  · have hne : decide (purpose = .hold c.holds) = false :=
      decide_eq_false fun h => by
        subst h
        exact Nat.lt_irrefl _ hmade
    rw [Client.hold, asking, List.filter_append,
      List.filter_cons_of_neg (by rw [hne]; exact Bool.false_ne_true), List.filter_nil,
      List.append_nil]
    exact .refl _
  · rcases List.mem_append.mp hjob with hjob | hjob
    · exact hqueue job hjob
    · rw [List.mem_singleton.mp hjob]
      exact Nat.lt_succ_self _

/-- The first job is gone from the queue. -/
theorem tail {queue : List Job} (h : ∀ job ∈ queue, job.Made c.holds) : Less c { c with queue } :=
  of_same rfl rfl (.inl rfl) rfl fun _ => h

/-- The lease goes with the request that ends it. -/
theorem deletes {queue : List Job} (h : ∀ job ∈ queue, job.Made c.holds) (token : ℕ) :
    Less c { c with queue, token := none, minted := [], sent := some (.delete token, none) } :=
  ⟨.refl _, .inr ⟨rfl, fun _ _ _ _ _ hno => (by cases hno)⟩,
    fun _ _ _ _ _ hno => (by cases hno), Nat.le_refl _, fun _ => h⟩

/-- Settling requests leaves no more. -/
theorem settles (c : Client) (settled : List Rest) : Less c { c with sent := none, settled } :=
  of_same rfl rfl (.inr rfl) rfl id

/-- Taking the next answer leaves no more. -/
theorem shift (c : Client) : Less c c.shift.1 := by
  rw [Client.shift]
  split
  · exact refl c
  · exact of_same rfl rfl (.inl rfl) rfl id

/-- Releasing a hold leaves no more. -/
theorem release {id : ℕ} {result : Client × List Event} (h : c.release id = some result) :
    Less c result.1 := by
  rw [Client.release] at h
  split at h
  · cases h
    exact ((refl c).drop id).lowered
  · cases h

/-- Aborting a hold leaves no more. -/
theorem abort {index : ℕ} (h : c.abort index = some c') : Less c c' := by
  rw [Client.abort] at h
  split at h
  next purpose uploads hjob =>
    cases h
    refine of_same rfl rfl (.inl rfl) rfl fun hqueue job hmem => ?_
    rcases List.mem_or_eq_of_mem_set hmem with hmem | rfl
    · exact hqueue job hmem
    · have hmade : Job.Made c.holds (.post purpose uploads false) :=
        hqueue _ (List.mem_of_getElem? hjob)
      exact hmade
  next => cases h

/-- What rests goes on with no more. -/
theorem resume {index : ℕ} {result : Client × List Event} (h : c.resume index = some result) :
    Less c result.1 := by
  obtain ⟨rest, -, rfl⟩ := Option.map_eq_some_iff.mp h
  have hsame : Less c { c with settled := c.settled.eraseIdx index } :=
    of_same rfl rfl (.inl rfl) rfl id
  cases rest with
  | handing =>
    rw [Client.rest, Client.shift]
    split
    · exact hsame
    · exact of_same rfl rfl (.inl rfl) rfl id
  | refused id => exact hsame.drop id
  | unfit id => exact (hsame.drop id).lowered
  | failed id => exact (hsame.drop id).lowered

/-- A lost connection leaves no more. -/
theorem cut {result : Client × List Request × List Event} (h : c.cut = some result) :
    Less c result.1 := by
  rw [Client.cut] at h
  split at h
  next request reply _ =>
    cases request with
    | post purpose token asked uploads =>
      cases h
      exact of_same rfl rfl (.inr rfl) rfl id
    | delete token =>
      cases h
      exact of_same rfl rfl (.inr rfl) rfl id
  next => cases h

end Less

/-- The next job leaves, and asks for all that is held. -/
theorem Covered.begin {w : World η} (h : Covered limits w) {result : Client × List Event}
    (hbegin : w.client.begin = some result) : Covered limits { w with client := result.1 } := by
  rw [Client.begin] at hbegin
  split at hbegin
  next purpose uploads aborted queue hsent hqueue =>
    have htail : ∀ job ∈ queue, job.Made w.client.holds :=
      fun job hjob => h.queue job (hqueue ▸ List.mem_cons_of_mem _ hjob)
    split at hbegin
    · cases hbegin
      exact h.less (.tail htail) w.strays
    · cases hbegin
      refine ⟨h.measurements, h.sessions, h.lease, ?_, htail, h.token, h.unmade⟩
      intro purpose' token asked ids reply hnew
      cases hnew
      refine ⟨rfl, ?_, sum_sublist List.filter_sublist, fun _ _ _ hreply => by cases hreply⟩
      exact h.queue (.post purpose uploads aborted) (hqueue ▸ List.mem_cons_self)
  next queue hsent hqueue =>
    have htail : ∀ job ∈ queue, job.Made w.client.holds :=
      fun job hjob => h.queue job (hqueue ▸ List.mem_cons_of_mem _ hjob)
    split at hbegin
    next token _ =>
      split at hbegin
      · cases hbegin
        exact h.less (.deletes htail token) w.strays
      · cases hbegin
        exact h.less (.tail htail) w.strays
    next =>
      cases hbegin
      exact h.less (.tail htail) w.strays
  next => cases hbegin

/-- A lease is told of, which holds all that is granted. -/
theorem Covered.told {w : World η} (h : Covered limits w) {c : Client} {t : ℕ} {asked : Grant}
    (hm : (sum (granted c.held)).measurements ≤ limits.operationsPerClient)
    (hs : (sum (granted c.held)).sessions ≤ limits.sessionsPerClient)
    (hshare : Within (sum (granted c.held)) (limits.share asked))
    (hlease : ∀ lease, w.server.find t = some lease → lease.state.grant = limits.share asked)
    (hlt : t < w.server.tokens) (htoken : c.token = some t) (hsent : c.sent = none)
    (hqueue : c.queue = w.client.queue) (hholds : c.holds = w.client.holds) :
    Covered limits { w with client := c } := by
  refine ⟨hm, hs, fun u lease hu hfind => ?_, fun _ _ _ _ _ hno => ?_, fun job hjob => ?_,
    fun u hu => ?_, h.unmade⟩
  · cases htoken.symm.trans hu
    rw [hlease lease hfind]
    exact hshare
  · cases hsent.symm.trans hno
  · rw [show c.queue = w.client.queue from hqueue] at hjob
    exact hholds ▸ h.queue job hjob
  · cases htoken.symm.trans hu
    exact hlt

/-- **An answer** grants only what the lease covers. -/
theorem Covered.deliver {w : World η} (h : Covered limits w) {result : Client × List Event}
    (hdeliver : w.client.deliver = some result) : Covered limits { w with client := result.1 } := by
  rw [Client.deliver] at hdeliver
  split at hdeliver
  next purpose token asked uploads reply hsent =>
    obtain ⟨-, hmade, hwithin, hreply⟩ := h.asks purpose token asked uploads _ hsent
    split at hdeliver
    next t grant ids =>
      obtain ⟨hgrant, hlt, hlease⟩ := hreply t grant ids rfl
      have hasked := (sum_sublist (granted_sublist_asking w.client.held purpose)).trans hwithin
      cases hdeliver
      cases purpose with
      | hold id =>
        rw [Client.leased]
        split
        next hfits =>
          rw [hgrant] at hfits
          obtain ⟨hm, hs⟩ := fits_share hfits
          have hnow := (granted_map_sublist w.client.held id).trans hwithin
          rw [Client.fits, Bool.and_eq_true, decide_eq_true_iff, decide_eq_true_iff] at hfits
          exact h.told (hnow.1.trans hm) (hnow.2.trans hs) (hnow.trans hfits) hlease hlt rfl rfl rfl
            rfl
        next =>
          exact h.told h.measurements h.sessions (h.within_share hasked) hlease hlt rfl rfl rfl rfl
      | renew =>
        exact h.told h.measurements h.sessions (h.within_share hasked) hlease hlt rfl rfl rfl rfl
      | upload =>
        exact h.told h.measurements h.sessions (h.within_share hasked) hlease hlt rfl rfl rfl rfl
      | lowering =>
        exact h.told h.measurements h.sessions (h.within_share hasked) hlease hlt rfl rfl rfl rfl
    next =>
      cases hdeliver
      exact h.less (.settles _ _) w.strays
    next =>
      cases hdeliver
      exact h.less (.settles _ _) w.strays
  next =>
    split at hdeliver
    · cases hdeliver
      exact h.less (.settles _ _) w.strays
    · cases hdeliver
      exact h.less (.settles _ _) w.strays
  next => cases hdeliver

/-- What the server keeps still covers what is granted. -/
theorem Covered.lasts {w : World η} (h : Covered limits w) {s : Server η}
    (hlasts : Lasts w.server s) {reply : Option (Request × Option Reply)}
    (hreply : reply = w.client.sent ∨ ∀ purpose token asked uploads answer,
      reply = some (.post purpose token asked uploads, answer) →
        (∀ t grant ids, answer ≠ some (.leased t grant ids)) ∧
          w.client.sent = some (.post purpose token asked uploads, none)) :
    Covered limits { w with server := s, client := { w.client with sent := reply } } := by
  refine ⟨h.measurements, h.sessions, fun t lease htoken hfind => ?_,
    fun purpose token asked uploads answer hsent => ?_, h.queue,
    fun t htoken => hlasts.tokens ▸ h.token t htoken,
    fun t ht => hlasts.unmade h.unmade t (hlasts.tokens ▸ ht)⟩
  · obtain ⟨old, hold, hgrant⟩ := hlasts.leases t lease hfind
    rw [hgrant]
    exact h.lease t old htoken hold
  · rcases hreply with hsame | hno
    · obtain ⟨htoken, hmade, hwithin, hanswer⟩ :=
        h.asks purpose token asked uploads answer (hsame.symm.trans hsent)
      refine ⟨htoken, hmade, hwithin, fun t grant ids heq => ?_⟩
      obtain ⟨hgrant, hlt, hlease⟩ := hanswer t grant ids heq
      refine ⟨hgrant, hlasts.tokens ▸ hlt, fun lease hfind => ?_⟩
      obtain ⟨old, hold, hkept⟩ := hlasts.leases t lease hfind
      exact hkept.trans (hlease old hold)
    · obtain ⟨hne, hnone⟩ := hno purpose token asked uploads answer hsent
      obtain ⟨htoken, hmade, hwithin, -⟩ := h.asks purpose token asked uploads none hnone
      exact ⟨htoken, hmade, hwithin, fun t grant ids heq => (hne t grant ids heq).elim⟩

/-- A `POST` is answered. -/
theorem Covered.posted {w : World η} (h : Covered limits w) {purpose : Purpose} {token : Option ℕ}
    {asked : Grant} {uploads : ℕ} (hsent : w.client.sent = some (.post purpose token asked uploads, none))
    {s : Server η} {reply : Reply} (hposted : Posted w.server s limits token asked reply) :
    Covered limits { w with
      server := s
      client := { w.client with sent := some (.post purpose token asked uploads, some reply) } } := by
  obtain ⟨htoken, hmade, hwithin, -⟩ := h.asks purpose token asked uploads none hsent
  have hasked := (sum_sublist (granted_sublist_asking w.client.held purpose)).trans hwithin
  refine ⟨h.measurements, h.sessions, fun t lease ht hfind => ?_,
    fun purpose' token' asked' uploads' answer hnew => ?_, h.queue,
    fun t ht => Nat.lt_of_lt_of_le (h.token t ht) hposted.tokens, hposted.unmade h.unmade⟩
  · rcases hposted.leases t lease hfind with hold | hshare
    · exact h.lease t lease ht hold
    · rw [hshare]
      exact h.within_share hasked
  · cases hnew
    refine ⟨htoken, hmade, hwithin, fun t grant ids heq => ?_⟩
    cases heq
    obtain ⟨hgrant, hlt, hlease, -⟩ := hposted.leased h.unmade t grant ids rfl
    exact ⟨hgrant, hlt, hlease⟩

/-! ## Runs -/

def isStray : Action η → Bool
  | .stray _ _ _ => true
  | _ => false

/-- No request cut off reaches the server after another one left. -/
def Prompt (_ : World η) (a : Action η) : Prop := isStray a = false

instance (w : World η) (a : Action η) : Decidable (Prompt w a) :=
  inferInstanceAs (Decidable (isStray a = false))

/-- **One step** keeps every granted hold covered. -/
theorem covered_step {w w' : World η} (h : Covered limits w) {a : Action η} (hprompt : Prompt w a)
    {events : List Event} (hstep : World.step limits w a = some (w', events)) : Covered limits w' := by
  cases a with
  | hold need uploads =>
    cases hstep
    exact h.less (.hold _ need uploads) w.strays
  | release id =>
    obtain ⟨result, hresult, heq⟩ := Option.map_eq_some_iff.mp hstep
    cases heq
    exact h.less (.release hresult) w.strays
  | renew =>
    cases hstep
    have hmade : Job.Made w.client.holds (.post .renew 0 false) := trivial
    exact h.less ((Less.refl w.client).queued hmade false) w.strays
  | upload =>
    cases hstep
    have hless : Less w.client w.client.upload.1 := by
      rw [Client.upload]
      split
      · have hmade : Job.Made w.client.holds (.post .upload 1 false) := trivial
        exact (Less.refl w.client).queued hmade w.client.ending
      · exact .shift _
    exact h.less hless w.strays
  | ends =>
    cases hstep
    exact h.less (Less.refl w.client).ends w.strays
  | abort index =>
    obtain ⟨client, hclient, heq⟩ := Option.map_eq_some_iff.mp hstep
    cases heq
    exact h.less (.abort hclient) w.strays
  | begin =>
    obtain ⟨result, hresult, heq⟩ := Option.map_eq_some_iff.mp hstep
    cases heq
    exact h.begin hresult
  | deliver =>
    obtain ⟨result, hresult, heq⟩ := Option.map_eq_some_iff.mp hstep
    cases heq
    exact h.deliver hresult
  | resume index =>
    obtain ⟨result, hresult, heq⟩ := Option.map_eq_some_iff.mp hstep
    cases heq
    exact h.less (.resume hresult) w.strays
  | cut =>
    obtain ⟨result, hresult, heq⟩ := Option.map_eq_some_iff.mp hstep
    cases heq
    exact h.less (.cut hresult) _
  | serve late ask =>
    rw [World.step] at hstep
    split at hstep
    next request hsent =>
      cases hstep
      cases request with
      | post purpose token asked uploads =>
        obtain ⟨htoken, -⟩ := h.asks purpose token asked uploads none hsent
        exact h.posted hsent (posted w.server limits token asked uploads late ask
          fun t ht => h.token t (htoken.symm.trans ht))
      | delete token =>
        exact h.lasts (lasts_delete _ token) (.inr fun _ _ _ _ _ hno => (by cases hno))
    next => cases hstep
  | reject =>
    rw [World.step] at hstep
    split at hstep
    next request hsent =>
      cases hstep
      refine h.lasts (.refl _) (.inr fun purpose token asked uploads answer heq => ?_)
      cases heq
      exact ⟨fun t grant ids hno => (by cases hno), hsent⟩
    next => cases hstep
  | stray index late ask => cases hprompt
  | work token action =>
    rw [World.step] at hstep
    split at hstep
    next lease hlease =>
      split at hstep
      next hwork =>
        obtain ⟨result, hresult, heq⟩ := Option.map_eq_some_iff.mp hstep
        cases heq
        exact h.lasts (lasts_work hlease hwork hresult) (.inl rfl)
      next => cases hstep
    next => cases hstep

/-- Nothing is granted at first. -/
theorem covered_init : Covered limits ({} : World η) := by
  refine ⟨limits.operations_pos, Nat.zero_le _, fun _ _ h => ?_, fun _ _ _ _ _ h => ?_, fun _ h => ?_,
    fun _ h => ?_, fun _ _ => rfl⟩
  · cases h
  · cases h
  · cases h
  · cases h

/-- **What is held is held at the server.** The lease the browser presents, while it stands, grants the
bus and every need whose `hold` was answered, and work within them is admitted without asking the
quotas. -/
theorem lease_covers {actions : List (Action η)} {w : World η} {log : List Event}
    (hprompt : Machine.Fit Prompt (World.step limits) {} actions)
    (hrun : Machine.run (World.step limits) {} actions = some (w, log)) {t : ℕ}
    {lease : Admission.Lease η} (htoken : w.client.token = some t)
    (hfind : w.server.find t = some lease) :
    (sum (granted w.client.held)).measurements ≤ lease.state.grant.measurements ∧
      (sum (granted w.client.held)).sessions ≤ lease.state.grant.sessions ∧
      ∀ session ask, lease.state.used.measurements < (sum (granted w.client.held)).measurements →
        (session = false ∨ lease.state.used.sessions < (sum (granted w.client.held)).sessions) →
        lease.admitSlot session ask = lease.admitGranted session := by
  have hcovered : Covered limits w :=
    Machine.run_keeps_of_fit (Covered limits)
      (fun _ _ _ _ h hfit hstep => covered_step h hfit hstep) covered_init hprompt hrun
  obtain ⟨hm, hs⟩ := hcovered.lease t lease htoken hfind
  refine ⟨hm, hs, fun session ask hmeasurements hsessions => ?_⟩
  unfold Admission.Lease.admitSlot
  rw [if_pos]
  exact ⟨hmeasurements.trans_le hm, hsessions.imp_right fun h => h.trans_le hs⟩

end Invariant

/-- A run holds four measurements, two of them sessions, while a check's ask is cut to the client's
share and given up. -/
def heldBesideACheck : List (Action ℕ) :=
  [.hold .ofSessions 1, .begin, .serve false .ok, .deliver,
    .hold ⟨9, 0, by decide⟩ 0, .begin, .serve false fun i => .ok (i + 10), .deliver, .resume 0,
    .begin, .serve false .ok, .deliver, .work 0 (.admitSlot true (.error .client))]

/-- Two holds beside a check: five measurements are granted, and the lease has as many. -/
theorem lease_covers_held :
    ∃ w log lease, Machine.run (World.step ⟨8, 4, by decide, by decide⟩) {} heldBesideACheck
        = some (w, log) ∧ w.server.find 0 = some lease ∧
      (sum (granted w.client.held)).measurements = 5 ∧
      (sum (granted w.client.held)).measurements ≤ lease.state.grant.measurements := by
  have hheld : (Machine.run (World.step ⟨8, 4, by decide, by decide⟩) {} heldBesideACheck).map
      (fun result => (result.1.client.token, (result.1.server.find 0).isSome,
        (sum (granted result.1.client.held)).measurements)) = some (some 0, true, 5) := by
    decide
  obtain ⟨⟨w, log⟩, hrun, heq⟩ := Option.map_eq_some_iff.mp hheld
  simp only [Prod.mk.injEq] at heq
  obtain ⟨htoken, hfind, hsum⟩ := heq
  obtain ⟨lease, hlease⟩ := Option.isSome_iff_exists.mp hfind
  exact ⟨w, log, lease, hrun, hlease, hsum, (lease_covers (by decide) hrun htoken hlease).1⟩

end GraphiteMeter.Browser.Lease
