import GraphiteMeter.Browser.Lease.Moves
import Mathlib.Data.List.Nodup

/-!
# The end of a lease

An end that is asked for while needs are held is carried out once the last of them is dropped: by its
release, or as its caller resumes. It is carried out behind what is queued, so a lease still being
taken is ended too. A need refused is dropped without it, so an end that waits for one that is refused
last is not carried out until another is asked for.

Each need that `hold` has not answered waits in one place: its `POST` in the queue or on its way, or
its caller about to resume (`Waits`).

Reference: `client/src/engine/net/lease.ts`, `end`, `lowered`.
-/

namespace GraphiteMeter.Browser.Lease

/-! ## Needs that wait -/

def Purpose.ids : Purpose → List ℕ
  | .hold id => [id]
  | _ => []

def Rest.ids : Rest → List ℕ
  | .handing => []
  | .refused id => [id]
  | .unfit id => [id]
  | .failed id => [id]

def Job.ids : Job → List ℕ
  | .post purpose _ false => purpose.ids
  | _ => []

def Request.ids : Request → List ℕ
  | .post purpose _ _ _ => purpose.ids
  | .delete _ => []

/-- The needs `hold` has not answered. -/
def waiting (c : Client) : List ℕ :=
  c.settled.flatMap Rest.ids ++
    ((c.sent.elim [] fun sent => sent.1.ids) ++ c.queue.flatMap Job.ids)

/-- Each waits in one place, and is held. -/
structure Waits (c : Client) : Prop where
  nodup : (waiting c).Nodup
  held : ∀ id ∈ waiting c, ∃ hold ∈ c.held, hold.id = id ∧ hold.granted = false
  ids : (c.held.map Hold.id).Nodup
  made : ∀ hold ∈ c.held, hold.id < c.holds

theorem Waits.init : Waits {} :=
  ⟨.nil, fun _ h => (by cases h), .nil, fun _ h => (by cases h)⟩

/-- A failed request fails who it was for. -/
theorem failing_ids (purpose : Purpose) : (Client.failing purpose).flatMap Rest.ids = purpose.ids := by
  cases purpose <;> rfl

/-- A refused request refuses who it was for. -/
theorem refusing_ids (purpose : Purpose) :
    (Client.refusing purpose).flatMap Rest.ids = purpose.ids := by
  cases purpose <;> rfl

namespace Waits

variable {c c' : Client}

/-- No more waits than did, and the same is held. -/
theorem of_subperm (h : Waits c) (hwaiting : (waiting c').Subperm (waiting c))
    (hheld : c'.held = c.held) (hholds : c'.holds = c.holds) : Waits c' := by
  refine ⟨?_, fun id hid => ?_, by rw [hheld]; exact h.ids, by rw [hheld, hholds]; exact h.made⟩
  · obtain ⟨ids, hperm, hsublist⟩ := hwaiting
    exact hperm.nodup_iff.mp (h.nodup.sublist hsublist)
  · rw [hheld]
    exact h.held id (hwaiting.subset hid)

/-- Who waits depends on the queue and the holds alone. -/
theorem of_eq (h : Waits c) (hwaiting : waiting c' = waiting c) (hheld : c'.held = c.held)
    (hholds : c'.holds = c.holds) : Waits c' :=
  h.of_subperm (by rw [hwaiting]) hheld hholds

/-- Dropping a hold that does not wait leaves who waits. -/
theorem drop (h : Waits c) {id : ℕ} (hid : id ∉ waiting c) : Waits (c.drop id) := by
  refine ⟨h.nodup, fun other hother => ?_, h.ids.sublist (List.filter_sublist.map _),
    fun hold hmem => h.made hold (List.mem_of_mem_filter hmem)⟩
  obtain ⟨hold, hmem, heq, hgranted⟩ := h.held other hother
  refine ⟨hold, List.mem_filter.mpr ⟨hmem, decide_eq_true fun hsame => hid ?_⟩, heq, hgranted⟩
  rw [← hsame, heq]
  exact hother

/-- So does granting it. -/
theorem grants (h : Waits c) {id : ℕ} (hid : id ∉ waiting c) : Waits (c.grants id) := by
  refine ⟨h.nodup, fun other hother => ?_, ?_, fun hold hmem => ?_⟩
  · obtain ⟨hold, hmem, heq, hgranted⟩ := h.held other hother
    refine ⟨hold, List.mem_map.mpr ⟨hold, hmem, if_neg fun hsame => hid ?_⟩, heq, hgranted⟩
    rw [← hsame, heq]
    exact hother
  · have hids : (c.grants id).held.map Hold.id = c.held.map Hold.id := by
      rw [Client.grants, List.map_map]
      refine List.map_congr_left fun hold _ => ?_
      rw [Function.comp_apply]
      split <;> rfl
    rw [hids]
    exact h.ids
  · obtain ⟨old, hold', rfl⟩ := List.mem_map.mp hmem
    split
    · exact h.made old hold'
    · exact h.made old hold'

/-- A job for no need is queued. -/
theorem queued (h : Waits c) {job : Job} (hjob : job.ids = []) (ending : Bool) :
    Waits { c with ending, queue := c.queue ++ [job] } := by
  refine h.of_eq ?_ rfl rfl
  rw [waiting, List.flatMap_append, List.flatMap_singleton, hjob, List.append_nil]
  rfl

/-- Ending the lease leaves who waits. -/
theorem ends (h : Waits c) : Waits c.ends := by
  rw [Client.ends]
  split
  · exact h.queued rfl false
  · exact h.of_eq rfl rfl rfl

/-- Lowering its total leaves who waits. -/
theorem lowered (h : Waits c) : Waits c.lowered := by
  rw [Client.lowered]
  split
  · exact h.ends
  · exact h.queued rfl c.ending

/-- A new hold waits, under an id of its own. -/
theorem hold (h : Waits c) (need : Need) (uploads : ℕ) : Waits (c.hold need uploads) := by
  have hwaiting : waiting (c.hold need uploads) = waiting c ++ [c.holds] := by
    rw [waiting, waiting, Client.hold, List.flatMap_append, ← List.append_assoc, ← List.append_assoc,
      ← List.append_assoc]
    rfl
  have hfresh : ∀ id ∈ waiting c, id < c.holds := by
    intro id hid
    obtain ⟨hold, hmem, rfl, -⟩ := h.held id hid
    exact h.made hold hmem
  refine ⟨?_, fun id hid => ?_, ?_, fun hold hmem => ?_⟩
  · rw [hwaiting, List.nodup_append]
    refine ⟨h.nodup, List.nodup_singleton _, fun id hid other hother => ?_⟩
    rw [List.mem_singleton.mp hother]
    exact Nat.ne_of_lt (hfresh id hid)
  · rw [hwaiting, List.mem_append, List.mem_singleton] at hid
    rcases hid with hid | rfl
    · obtain ⟨hold, hmem, hrest⟩ := h.held id hid
      exact ⟨hold, List.mem_append_left _ hmem, hrest⟩
    · exact ⟨_, List.mem_append_right _ List.mem_cons_self, rfl, rfl⟩
  · rw [Client.hold, List.map_append, List.nodup_append]
    refine ⟨h.ids, List.nodup_singleton _, fun id hid other hother => ?_⟩
    obtain ⟨hold, hmem, rfl⟩ := List.mem_map.mp hid
    rw [List.mem_singleton.mp hother]
    exact Nat.ne_of_lt (h.made hold hmem)
  · rcases List.mem_append.mp hmem with hmem | hmem
    · exact Nat.lt_succ_of_lt (h.made hold hmem)
    · rw [List.mem_singleton.mp hmem]
      exact Nat.lt_succ_self _

/-- A need granted waits no longer. -/
theorem granted (h : Waits c) {hold : Hold} (hmem : hold ∈ c.held) (hgranted : hold.granted = true) :
    hold.id ∉ waiting c := by
  intro hid
  obtain ⟨other, hother, heq, hwaits⟩ := h.held hold.id hid
  have hsame := List.inj_on_of_nodup_map h.ids hother hmem heq
  rw [hsame, hgranted] at hwaits
  cases hwaits

/-- Releasing a hold leaves who waits. -/
theorem release (h : Waits c) {id : ℕ} {result : Client × List Event}
    (hrelease : c.release id = some result) : Waits result.1 := by
  rw [Client.release] at hrelease
  split at hrelease
  next hany =>
    cases hrelease
    obtain ⟨hold, hmem, hhold⟩ := List.any_eq_true.mp hany
    rw [Bool.and_eq_true, decide_eq_true_iff] at hhold
    obtain ⟨rfl, hgranted⟩ := hhold
    exact (h.drop (h.granted hmem hgranted)).lowered
  next => cases hrelease

/-- An aborted hold waits no longer. -/
theorem abort (h : Waits c) {index : ℕ} (habort : c.abort index = some c') : Waits c' := by
  rw [Client.abort] at habort
  split at habort
  next purpose uploads hjob =>
    cases habort
    obtain ⟨hlt, hget⟩ := List.getElem?_eq_some_iff.mp hjob
    have hold : c.queue.flatMap Job.ids = (c.queue.take index).flatMap Job.ids ++
        (purpose.ids ++ (c.queue.drop (index + 1)).flatMap Job.ids) := by
      conv_lhs => rw [← List.take_append_drop index c.queue, List.drop_eq_getElem_cons hlt, hget]
      rw [List.flatMap_append, List.flatMap_cons]
      rfl
    have hnew : (c.queue.set index (.post purpose uploads true)).flatMap Job.ids
        = (c.queue.take index).flatMap Job.ids ++ (c.queue.drop (index + 1)).flatMap Job.ids := by
      rw [List.set_eq_take_append_cons_drop, if_pos hlt, List.flatMap_append, List.flatMap_cons]
      rfl
    refine h.of_subperm (List.Perm.subperm (List.perm_iff_count.mpr fun id => ?_)) rfl rfl
    rw [waiting, waiting, List.flatMap_append, failing_ids, hold, hnew]
    simp only [List.count_append]
    omega
  next => cases habort

/-- Sending a request leaves who waits. -/
theorem begin (h : Waits c) {result : Client × List Event} (hbegin : c.begin = some result) :
    Waits result.1 := by
  rw [Client.begin] at hbegin
  split at hbegin
  next purpose uploads aborted queue hsent hqueue =>
    split at hbegin
    next =>
      cases hbegin
      refine h.of_subperm (List.Sublist.subperm ?_) rfl rfl
      rw [waiting, waiting, hqueue, List.flatMap_cons]
      exact (List.Sublist.refl _).append
        ((List.Sublist.refl _).append (List.sublist_append_right _ _))
    next hkept =>
      cases hbegin
      have haborted : aborted = false := by
        cases aborted with
        | false => rfl
        | true => exact absurd (Bool.true_or _) hkept
      refine h.of_eq ?_ rfl rfl
      rw [waiting, waiting, hsent, hqueue, List.flatMap_cons, haborted]
      rfl
  next queue hsent hqueue =>
    have htail : waiting { c with queue } = waiting c := by
      rw [waiting, waiting, hqueue, List.flatMap_cons]
      rfl
    split at hbegin
    next token _ =>
      split at hbegin
      · cases hbegin
        refine h.of_eq (Eq.trans ?_ htail) rfl rfl
        rw [waiting, waiting, hsent]
        rfl
      · cases hbegin
        exact h.of_eq htail rfl rfl
    next =>
      cases hbegin
      exact h.of_eq htail rfl rfl
  next => cases hbegin

/-- The request on its way is done, and its caller resumes later. -/
theorem settles (h : Waits c) {request : Request} {reply : Option Reply}
    (hsent : c.sent = some (request, reply)) {settled : List Rest}
    (hsettled : settled.flatMap Rest.ids = request.ids) :
    Waits { c with sent := none, settled := c.settled ++ settled } := by
  refine h.of_eq ?_ rfl rfl
  rw [waiting, waiting, hsent, List.flatMap_append, hsettled, List.append_assoc]
  rfl

/-- It is done, and what it was for waits no longer. -/
theorem finishes (h : Waits c) {request : Request} {reply : Option Reply}
    (hsent : c.sent = some (request, reply)) :
    Waits { c with sent := none } ∧ ∀ id ∈ request.ids, id ∉ waiting { c with sent := none } := by
  have hwaiting : waiting c = c.settled.flatMap Rest.ids ++
      (request.ids ++ c.queue.flatMap Job.ids) := by
    rw [waiting, hsent]
    rfl
  constructor
  · refine h.of_subperm (List.Sublist.subperm ?_) rfl rfl
    rw [hwaiting]
    exact (List.Sublist.refl _).append (List.sublist_append_right _ _)
  · intro id hid hmem
    have hnodup := h.nodup
    rw [hwaiting, List.nodup_append, List.nodup_append] at hnodup
    obtain ⟨-, ⟨-, -, hqueue⟩, hsettled⟩ := hnodup
    rcases List.mem_append.mp hmem with hmem | hmem
    · exact hsettled id hmem id (List.mem_append_left _ hid) rfl
    · exact hqueue id hid id hmem rfl

/-- An answer leaves who waits, but for whom it serves. -/
theorem deliver (h : Waits c) {result : Client × List Event} (hdeliver : c.deliver = some result) :
    Waits result.1 := by
  rw [Client.deliver] at hdeliver
  split at hdeliver
  next purpose token asked uploads reply hsent =>
    split at hdeliver
    next t grant ids =>
      obtain ⟨hdone, hids⟩ := h.finishes hsent
      cases hdeliver
      cases purpose with
      | hold id =>
        rw [Client.leased]
        split
        · have hgrants := hdone.grants (hids id List.mem_cons_self)
          exact hgrants.of_eq rfl rfl rfl
        · have hunfit : [Rest.unfit id].flatMap Rest.ids = [id] := rfl
          exact (h.settles hsent hunfit).of_eq rfl rfl rfl
      | renew => exact hdone.of_eq rfl rfl rfl
      | upload =>
        have hhanding : [Rest.handing].flatMap Rest.ids = [] := rfl
        exact (h.settles hsent hhanding).of_eq rfl rfl rfl
      | lowering => exact hdone.of_eq rfl rfl rfl
    next =>
      cases hdeliver
      exact h.settles hsent (refusing_ids purpose)
    next =>
      cases hdeliver
      exact h.settles hsent (failing_ids purpose)
  next token reply hsent =>
    split at hdeliver
    · cases hdeliver
      exact (h.finishes hsent).1
    · cases hdeliver
      exact (h.finishes hsent).1
  next => cases hdeliver

/-- A lost connection leaves who waits. -/
theorem cut (h : Waits c) {result : Client × List Request × List Event} (hcut : c.cut = some result) :
    Waits result.1 := by
  rw [Client.cut] at hcut
  split at hcut
  next request reply hsent =>
    cases request with
    | post purpose token asked uploads =>
      cases hcut
      exact h.settles hsent (failing_ids purpose)
    | delete token =>
      cases hcut
      exact (h.finishes hsent).1
  next => cases hcut

/-- A caller that resumes: what it waited for, it waits for no longer. -/
theorem resumes (h : Waits c) {index : ℕ} {rest : Rest} (hrest : c.settled[index]? = some rest) :
    Waits { c with settled := c.settled.eraseIdx index } ∧
      ∀ id ∈ rest.ids, id ∉ waiting { c with settled := c.settled.eraseIdx index } ∧
        ∃ hold ∈ c.held, hold.id = id := by
  obtain ⟨hlt, hget⟩ := List.getElem?_eq_some_iff.mp hrest
  have hperm : (waiting c).Perm
      (rest.ids ++ waiting { c with settled := c.settled.eraseIdx index }) := by
    have hsettled : (c.settled.flatMap Rest.ids).Perm
        ((rest :: c.settled.eraseIdx index).flatMap Rest.ids) := by
      refine List.Perm.flatMap_right _ ?_
      rw [← hget]
      exact (List.getElem_cons_eraseIdx_perm hlt).symm
    have hall := hsettled.append_right
      ((c.sent.elim [] fun sent => sent.1.ids) ++ c.queue.flatMap Job.ids)
    rw [List.flatMap_cons, List.append_assoc] at hall
    exact hall
  have hnodup := hperm.nodup_iff.mp h.nodup
  refine ⟨h.of_subperm ?_ rfl rfl, fun id hid => ⟨fun hmem => ?_, ?_⟩⟩
  · exact (List.sublist_append_right _ _).subperm.trans hperm.symm.subperm
  · exact (List.nodup_append.mp hnodup).2.2 id hid id hmem rfl
  · obtain ⟨hold, hmem, heq, -⟩ := h.held id (hperm.symm.subset (List.mem_append_left _ hid))
    exact ⟨hold, hmem, heq⟩

/-- Taking the next answer leaves who waits. -/
theorem shift (h : Waits c) : Waits c.shift.1 := by
  rw [Client.shift]
  split
  · exact h
  · exact h.of_eq rfl rfl rfl

/-- What rests goes on, and who waits stays. -/
theorem resume (h : Waits c) {index : ℕ} {result : Client × List Event}
    (hresume : c.resume index = some result) : Waits result.1 := by
  obtain ⟨rest, hrest, rfl⟩ := Option.map_eq_some_iff.mp hresume
  obtain ⟨hdone, hids⟩ := h.resumes hrest
  cases rest with
  | handing => exact hdone.shift
  | refused id => exact hdone.drop (hids id List.mem_cons_self).1
  | unfit id => exact (hdone.drop (hids id List.mem_cons_self).1).lowered
  | failed id => exact (hdone.drop (hids id List.mem_cons_self).1).lowered

/-- **Every move** keeps who waits. -/
theorem moves (h : Waits c) {events : List Event} (hmoves : Moves c c' events) : Waits c' := by
  cases hmoves with
  | hold need uploads => exact h.hold need uploads
  | release hrelease => exact h.release hrelease
  | renew => exact h.queued rfl false
  | upload =>
    rw [Client.upload]
    split
    · exact h.queued rfl c.ending
    · exact h.shift
  | ends => exact h.ends
  | abort habort => exact h.abort habort
  | begin hbegin => exact h.begin hbegin
  | deliver hdeliver => exact h.deliver hdeliver
  | resume hresume => exact h.resume hresume
  | cut hcut => exact h.cut hcut
  | answered hsent reply =>
    refine h.of_eq ?_ rfl rfl
    rw [waiting, waiting, hsent]
    rfl
  | stays => exact h

end Waits

/-! ## An end asked for -/

/-- What asks for the lease again, or drops a need without carrying out an end. -/
def reopens : Event → Bool
  | .asked _ => true
  | .renewed => true
  | .minting => true
  | .refused _ => true
  | _ => false

/-- An end was asked for last. -/
def Ended (log : List Event) : Prop :=
  ∃ before after, log = before ++ .asksEnd :: after ∧ ∀ e ∈ after, reopens e = false

/-- An end that was asked last was not asked before. -/
theorem Ended.of_append {log events : List Event} (h : Ended (log ++ events))
    (hno : .asksEnd ∉ events) : Ended log ∧ ∀ e ∈ events, reopens e = false := by
  obtain ⟨before, after, heq, hafter⟩ := h
  rcases List.append_eq_append_iff.mp heq with ⟨between, rfl, rfl⟩ | ⟨between, rfl, hbetween⟩
  · exact absurd (List.mem_append_right _ List.mem_cons_self) hno
  · cases between with
    | nil =>
      rw [List.nil_append] at hbetween
      exact absurd (hbetween ▸ List.mem_cons_self) hno
    | cons e between =>
      obtain ⟨rfl, rfl⟩ := List.cons.inj hbetween
      exact ⟨⟨before, between, rfl, fun e he => hafter e (List.mem_append_left _ he)⟩,
        fun e he => hafter e (List.mem_append_right _ he)⟩

/-- No lease is held or being taken. -/
def Away (c : Client) : Prop :=
  c.token = none ∧ ∀ purpose token asked uploads reply,
    c.sent ≠ some (.post purpose token asked uploads, reply)

/-- The end waits for what is held, or in the queue behind all else, or is carried out. -/
def Closes (c : Client) : Prop :=
  (c.ending = true ∧ c.held ≠ []) ∨
    (c.held = [] ∧ ((c.queue = [] ∧ Away c) ∨ c.queue.getLast? = some .delete))

namespace Closes

variable {c c' : Client}

theorem ends (c : Client) : Closes c.ends := by
  rw [Client.ends]
  split
  next hempty => exact .inr ⟨List.isEmpty_iff.mp hempty, .inr List.getLast?_concat⟩
  next hheld => exact .inl ⟨rfl, fun hnil => hheld (List.isEmpty_iff.mpr hnil)⟩

/-- A need is dropped. -/
theorem lowered (hending : c.ending = true) : Closes c.lowered := by
  rw [Client.lowered]
  split
  next => exact ends c
  next hheld =>
    refine .inl ⟨hending, fun hnil => hheld ?_⟩
    rw [hending, show c.held = [] from hnil]
    rfl

/-- The same end, whatever is minted, settled or known of what is held. -/
theorem of_eq (h : Closes c) (hending : c'.ending = c.ending) (hheld : c'.held = [] ↔ c.held = [])
    (hqueue : c'.queue = c.queue) (haway : Away c → Away c') : Closes c' := by
  rcases h with ⟨hend, hsome⟩ | ⟨hnil, hrest⟩
  · exact .inl ⟨hending.trans hend, fun hnil => hsome (hheld.mp hnil)⟩
  · rw [← hqueue] at hrest
    exact .inr ⟨hheld.mpr hnil, hrest.imp_left fun hdone => ⟨hdone.1, haway hdone.2⟩⟩

/-- Where something is held, the end waits. -/
theorem waits (h : Closes c) {hold : Hold} (hmem : hold ∈ c.held) : c.ending = true := by
  rcases h with ⟨hending, -⟩ | ⟨hnil, -⟩
  · exact hending
  · rw [hnil] at hmem
    cases hmem

theorem abort (h : Closes c) {index : ℕ} (habort : c.abort index = some c') : Closes c' := by
  rw [Client.abort] at habort
  split at habort
  next purpose uploads hjob =>
    cases habort
    rcases h with hwaits | ⟨hnil, ⟨hempty, -⟩ | hlast⟩
    · exact .inl hwaits
    · rw [hempty] at hjob
      cases hjob
    · refine .inr ⟨hnil, .inr ?_⟩
      rw [List.getLast?_eq_getElem?, List.length_set, List.getElem?_set]
      rw [List.getLast?_eq_getElem?] at hlast
      rw [if_neg]
      · exact hlast
      · rintro rfl
        cases hjob.symm.trans hlast
  next => cases habort

theorem begin (h : Closes c) {result : Client × List Event} (hbegin : c.begin = some result) :
    Closes result.1 := by
  rw [Client.begin] at hbegin
  split at hbegin
  next purpose uploads aborted queue hsent hqueue =>
    have hclosed : ∀ c' : Client, c'.ending = c.ending → c'.held = c.held → c'.queue = queue →
        Closes c' := by
      intro c' hending hheld hnew
      rcases h with ⟨hend, hsome⟩ | ⟨hnil, ⟨hempty, -⟩ | hlast⟩
      · exact .inl ⟨hending.trans hend, hheld ▸ hsome⟩
      · rw [hempty] at hqueue
        cases hqueue
      · refine .inr ⟨hheld.trans hnil, .inr ?_⟩
        rw [hnew]
        rw [hqueue, List.getLast?_cons] at hlast
        cases hrest : queue.getLast? with
        | none =>
          rw [hrest] at hlast
          cases hlast
        | some last =>
          rw [hrest] at hlast
          exact hlast
    split at hbegin
    · cases hbegin
      exact hclosed _ rfl rfl rfl
    · cases hbegin
      exact hclosed _ rfl rfl rfl
  next queue hsent hqueue =>
    have hclosed : ∀ c' : Client, c'.ending = c.ending → c'.held = c.held → c'.queue = queue →
        (c.held = [] → Away c') → Closes c' := by
      intro c' hending hheld hnew haway
      rcases h with ⟨hend, hsome⟩ | ⟨hnil, ⟨hempty, -⟩ | hlast⟩
      · exact .inl ⟨hending.trans hend, hheld ▸ hsome⟩
      · rw [hempty] at hqueue
        cases hqueue
      · refine .inr ⟨hheld.trans hnil, ?_⟩
        rw [hnew]
        rw [hqueue, List.getLast?_cons] at hlast
        cases hrest : queue.getLast? with
        | none => exact .inl ⟨List.getLast?_eq_none_iff.mp hrest, haway hnil⟩
        | some last =>
          rw [hrest] at hlast
          exact .inr hlast
    split at hbegin
    next token htoken =>
      split at hbegin
      next =>
        cases hbegin
        refine hclosed _ rfl rfl rfl fun _ => ⟨rfl, fun _ _ _ _ _ hno => ?_⟩
        cases hno
      next hheld =>
        cases hbegin
        exact hclosed _ rfl rfl rfl fun hnil => absurd (List.isEmpty_iff.mpr hnil) hheld
    next htoken =>
      cases hbegin
      refine hclosed _ rfl rfl rfl fun _ => ⟨htoken, fun _ _ _ _ _ hno => ?_⟩
      cases hsent.symm.trans hno
  next => cases hbegin

theorem deliver (h : Closes c) {result : Client × List Event} (hdeliver : c.deliver = some result) :
    Closes result.1 := by
  rw [Client.deliver] at hdeliver
  split at hdeliver
  next purpose token asked uploads reply hsent =>
    have haway : ∀ {P : Prop}, Away c → P := fun haway => (haway.2 _ _ _ _ _ hsent).elim
    split at hdeliver
    next t grant ids =>
      cases hdeliver
      cases purpose with
      | hold id =>
        rw [Client.leased]
        split
        · exact h.of_eq rfl List.map_eq_nil_iff rfl haway
        · exact h.of_eq rfl .rfl rfl haway
      | renew => exact h.of_eq rfl .rfl rfl haway
      | upload => exact h.of_eq rfl .rfl rfl haway
      | lowering => exact h.of_eq rfl .rfl rfl haway
    next =>
      cases hdeliver
      exact h.of_eq rfl .rfl rfl haway
    next =>
      cases hdeliver
      exact h.of_eq rfl .rfl rfl haway
  next =>
    split at hdeliver
    · cases hdeliver
      exact h.of_eq rfl .rfl rfl fun haway => ⟨haway.1, fun _ _ _ _ _ hno => (by cases hno)⟩
    · cases hdeliver
      exact h.of_eq rfl .rfl rfl fun haway => ⟨haway.1, fun _ _ _ _ _ hno => (by cases hno)⟩
  next => cases hdeliver

theorem cut (h : Closes c) {result : Client × List Request × List Event} (hcut : c.cut = some result) :
    Closes result.1 := by
  rw [Client.cut] at hcut
  split at hcut
  next request reply _ =>
    cases request with
    | post purpose token asked uploads =>
      cases hcut
      exact h.of_eq rfl .rfl rfl fun haway => ⟨haway.1, fun _ _ _ _ _ hno => (by cases hno)⟩
    | delete token =>
      cases hcut
      exact h.of_eq rfl .rfl rfl fun haway => ⟨haway.1, fun _ _ _ _ _ hno => (by cases hno)⟩
  next => cases hcut

theorem shift (h : Closes c) : Closes c.shift.1 := by
  rw [Client.shift]
  split
  · exact h
  · exact h.of_eq rfl .rfl rfl id

theorem resume (h : Closes c) (hwaits : Waits c) {index : ℕ} {result : Client × List Event}
    (hresume : c.resume index = some result) (hkept : ∀ e ∈ result.2, reopens e = false) :
    Closes result.1 := by
  obtain ⟨rest, hrest, rfl⟩ := Option.map_eq_some_iff.mp hresume
  obtain ⟨-, hids⟩ := hwaits.resumes hrest
  have hsettled : Closes { c with settled := c.settled.eraseIdx index } := h.of_eq rfl .rfl rfl id
  cases rest with
  | handing => exact hsettled.shift
  | refused id => cases hkept _ List.mem_cons_self
  | unfit id =>
    obtain ⟨-, hold, hmem, -⟩ := hids id List.mem_cons_self
    exact lowered (h.waits hmem)
  | failed id =>
    obtain ⟨-, hold, hmem, -⟩ := hids id List.mem_cons_self
    exact lowered (h.waits hmem)

/-- An end is kept to, unless the lease is asked for again or a need is refused. -/
theorem moves (h : Closes c) (hwaits : Waits c) {events : List Event} (hmoves : Moves c c' events)
    (hkept : ∀ e ∈ events, reopens e = false) : Closes c' := by
  cases hmoves with
  | hold need uploads => cases hkept _ List.mem_cons_self
  | release hrelease =>
    rw [Client.release] at hrelease
    split at hrelease
    next hany =>
      cases hrelease
      obtain ⟨hold, hmem, -⟩ := List.any_eq_true.mp hany
      exact lowered (h.waits hmem)
    next => cases hrelease
  | renew => cases hkept _ List.mem_cons_self
  | upload =>
    rw [Client.upload] at hkept ⊢
    split at hkept
    next => cases hkept _ List.mem_cons_self
    next hminted =>
      rw [if_neg hminted]
      exact h.shift
  | ends => exact ends c
  | abort habort => exact h.abort habort
  | begin hbegin => exact h.begin hbegin
  | deliver hdeliver => exact h.deliver hdeliver
  | resume hresume => exact h.resume hwaits hresume hkept
  | cut hcut => exact h.cut hcut
  | answered hsent reply =>
    refine h.of_eq rfl .rfl rfl fun haway => ⟨haway.1, fun purpose token asked uploads _ heq => ?_⟩
    cases heq
    exact haway.2 _ _ _ _ _ hsent
  | stays => exact h

end Closes

/-- **An end asked for is carried out.** Once nothing is held, queued or on its way, the client has no
lease. -/
theorem away_of_ended {η : Type} {limits : Limits} {actions : List (Action η)} {w : World η}
    {log : List Event} (hrun : Machine.run (World.step limits) {} actions = some (w, log))
    (hended : Ended log) (hheld : w.client.held = []) (hqueue : w.client.queue = []) :
    Away w.client := by
  have hnever : ¬ Ended [] := by
    rintro ⟨before, after, heq, -⟩
    cases before <;> cases heq
  have hinv : Waits w.client ∧ (Ended log → Closes w.client) := by
    refine Machine.run_induct
      (fun log (w : World η) => Waits w.client ∧ (Ended log → Closes w.client))
      (fun log w a w' events h hstep => ?_) ⟨Waits.init, fun h => absurd h hnever⟩ hrun
    have hmoves := moves_step hstep
    refine ⟨h.1.moves hmoves, fun hended => ?_⟩
    by_cases hasks : .asksEnd ∈ events
    · rw [hmoves.asksEnd hasks]
      exact .ends _
    · obtain ⟨hlog, hkept⟩ := hended.of_append hasks
      exact (h.2 hlog).moves h.1 hmoves hkept
  obtain ⟨-, hsome⟩ | ⟨-, ⟨-, haway⟩ | hlast⟩ := hinv.2 hended
  · exact absurd hheld hsome
  · exact haway
  · rw [hqueue] at hlast
    cases hlast

end GraphiteMeter.Browser.Lease
