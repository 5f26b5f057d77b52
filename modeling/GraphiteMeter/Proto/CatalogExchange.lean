import GraphiteMeter.Proto.Catalog
import Mathlib.Data.List.Forall2

/-!
# Catalogs, sent and received

`WellFormed` says what a catalog that passes `validate` looks like. A catalog that passes it comes
back from its own document as it was, with nothing rejected (`decode_serialize`): the document is
read as the entries it was made of, and the receiver's check of each entry against those it kept is
the sender's. Of any other document `decode` keeps or rejects every entry (`receive_fates`), and
what it keeps passes `validate` as well.

Reference: `rust/proto/src/catalog.rs`.
-/

namespace GraphiteMeter.Proto

/-! ## What is validated -/

/-- What holds of a catalog that is sent or accepted. -/
structure ServerCatalog.WellFormed (catalog : ServerCatalog) : Prop where
  first : ∃ own ∈ catalog.servers.head?, own.id = .own
  few : catalog.servers.length ≤ maxServers
  ids : (catalog.servers.map (·.id)).Nodup
  urls : (catalog.servers.map (·.url)).Nodup
  selected : 1 ≤ catalog.defaultSelection.length ∧ catalog.defaultSelection.length ≤ maxSelected
  distinct : catalog.defaultSelection.Nodup
  known : ∀ id ∈ catalog.defaultSelection, ∃ entry ∈ catalog.servers, entry.id = id

/-- An entry that differs from every earlier one. -/
theorem ServerEntry.fresh_of_check {entry : ServerEntry} {earlier : List ServerEntry}
    (h : entry.check earlier = .ok ()) :
    ∀ prior ∈ earlier, prior.id ≠ entry.id ∧ prior.url ≠ entry.url := by
  unfold ServerEntry.check at h
  split_ifs at h with _ _ hduplicate
  intro prior hprior
  constructor
  · intro hid
    exact hduplicate (List.any_eq_true.mpr ⟨prior, hprior, decide_eq_true (.inl hid)⟩)
  · intro hurl
    exact hduplicate (List.any_eq_true.mpr ⟨prior, hprior, decide_eq_true (.inr hurl)⟩)

namespace ServerCatalog

/-- Entries pass when the first does and the others do behind it. -/
theorem checkAll_cons {earlier entries : List ServerEntry} {entry : ServerEntry} :
    checkAll earlier (entry :: entries) = .ok () ↔
      entry.check earlier = .ok () ∧ checkAll (earlier ++ [entry]) entries = .ok () := by
  rw [checkAll]
  match hcheck : entry.check earlier with
  | .error error => exact ⟨nofun, fun h => nomatch h.1⟩
  | .ok () => exact ⟨fun h => ⟨rfl, h⟩, fun h => h.2⟩

/-- Each entry is checked against all before it, so a field that two entries must not share is
distinct over all of them. -/
theorem nodup_of_checkAll {β : Type} (field : ServerEntry → β)
    (hfield : ∀ (entry : ServerEntry) (earlier : List ServerEntry), entry.check earlier = .ok () →
      ∀ prior ∈ earlier, field prior ≠ field entry)
    {earlier entries : List ServerEntry} (h : checkAll earlier entries = .ok ())
    (hearlier : (earlier.map field).Nodup) : ((earlier ++ entries).map field).Nodup := by
  induction entries generalizing earlier with
  | nil =>
    rw [List.append_nil]
    exact hearlier
  | cons entry entries ih =>
    obtain ⟨hcheck, hrest⟩ := checkAll_cons.mp h
    rw [List.append_cons]
    apply ih hrest
    rw [List.map_append, List.nodup_append]
    refine ⟨hearlier, List.nodup_singleton _, ?_⟩
    intro a ha b hb
    obtain ⟨prior, hprior, rfl⟩ := List.mem_map.mp ha
    rw [List.map_singleton, List.mem_singleton] at hb
    rw [hb]
    exact hfield entry earlier hcheck prior hprior

/-- A server is known when an entry has its identifier. -/
theorem known_iff {servers : List ServerEntry} {id : ServerId} :
    known servers id = true ↔ ∃ entry ∈ servers, entry.id = id := by
  rw [known, List.any_eq_true]
  exact exists_congr fun entry => and_congr_right' decide_eq_true_iff

/-- Identifiers are distinct when none repeats, none was seen and all are known. -/
theorem distinct_iff {servers : List ServerEntry} {seen ids : List ServerId} :
    distinct servers seen ids = true ↔
      ids.Nodup ∧ (∀ id ∈ ids, id ∉ seen) ∧ ∀ id ∈ ids, known servers id = true := by
  induction ids generalizing seen with
  | nil => exact ⟨fun _ => ⟨List.nodup_nil, nofun, nofun⟩, fun _ => rfl⟩
  | cons id ids ih =>
    rw [distinct]
    by_cases hseen : id ∈ seen
    · rw [if_pos hseen]
      exact ⟨nofun, fun h => absurd hseen (h.2.1 id List.mem_cons_self)⟩
    · rw [if_neg hseen, Bool.and_eq_true, ih, List.nodup_cons, List.forall_mem_cons,
        List.forall_mem_cons]
      constructor
      · rintro ⟨hknown, hnodup, hnew, hall⟩
        refine ⟨⟨fun hmem => hnew id hmem List.mem_cons_self, hnodup⟩, ⟨hseen, ?_⟩, hknown, hall⟩
        exact fun other hmem hin => hnew other hmem (List.mem_cons_of_mem _ hin)
      · rintro ⟨⟨hfresh, hnodup⟩, ⟨-, hnew⟩, hknown, hall⟩
        refine ⟨hknown, hnodup, ?_, hall⟩
        intro other hmem hin
        rcases List.mem_cons.mp hin with rfl | hin
        · exact hfresh hmem
        · exact hnew other hmem hin

/-- What `validate` passed: `self` first, every entry checked, the selection valid. -/
theorem validate_cases {catalog : ServerCatalog} (h : catalog.validate = .ok ()) :
    (∃ own ∈ catalog.servers.head?, own.id = .own) ∧ catalog.servers.length ≤ maxServers ∧
      checkAll [] catalog.servers = .ok () ∧
      (1 ≤ catalog.defaultSelection.length ∧ catalog.defaultSelection.length ≤ maxSelected) ∧
      distinct catalog.servers [] catalog.defaultSelection = true := by
  unfold validate at h
  split_ifs at h with hservers
  obtain ⟨hfirst, hfew⟩ := not_or.mp hservers
  rw [not_not, Option.any_eq_true] at hfirst
  obtain ⟨own, hown, hid⟩ := hfirst
  match hall : checkAll [] catalog.servers with
  | .error error =>
    rw [hall] at h
    cases h
  | .ok () =>
    rw [hall] at h
    dsimp only at h
    unfold validateSelection at h
    split_ifs at h with hselection
    exact ⟨⟨own, hown, of_decide_eq_true hid⟩, Nat.le_of_not_gt hfew, rfl, hselection⟩

/-- **What passes the check is well formed.** -/
theorem wellFormed_of_validate {catalog : ServerCatalog} (h : catalog.validate = .ok ()) :
    catalog.WellFormed := by
  obtain ⟨hfirst, hfew, hall, hselected, hdistinct⟩ := validate_cases h
  obtain ⟨hnodup, -, hknown⟩ := distinct_iff.mp hdistinct
  refine ⟨hfirst, hfew, ?_, ?_, hselected, hnodup, fun id hid => known_iff.mp (hknown id hid)⟩
  · exact nodup_of_checkAll (·.id) (fun _ _ hcheck prior hprior =>
      (ServerEntry.fresh_of_check hcheck prior hprior).1) hall List.nodup_nil
  · exact nodup_of_checkAll (·.url) (fun _ _ hcheck prior hprior =>
      (ServerEntry.fresh_of_check hcheck prior hprior).2) hall List.nodup_nil

end ServerCatalog

/-! ## Every entry is kept or rejected -/

section

variable {ipv6 : Ipv6Text}

/-- What becomes of an entry as sent: the catalog has it as it was parsed, or it is rejected under its
identifier, which is not that of the serving server. -/
inductive Fate (ipv6 : Ipv6Text) (sent : SentEntry) : ServerEntry ⊕ Rejected → Prop
  | kept (entry : ServerEntry) (h : sent.parsed ipv6 = .ok entry) : Fate ipv6 sent (.inl entry)
  | rejected (error : CatalogError) (h : sent.id ≠ ServerId.own.text) :
    Fate ipv6 sent (.inr ⟨sent.id, error⟩)

/-- A sent entry is received when it is parsed and passes. -/
theorem SentEntry.received_eq_ok {sent : SentEntry} {earlier : List ServerEntry}
    {entry : ServerEntry} :
    sent.received ipv6 earlier = .ok entry ↔
      sent.parsed ipv6 = .ok entry ∧ entry.check earlier = .ok () := by
  unfold SentEntry.received
  match hparsed : sent.parsed ipv6 with
  | .error error => exact ⟨nofun, fun h => nomatch h.1⟩
  | .ok parsed =>
    show (parsed.check earlier >>= fun _ => Except.ok parsed) = .ok entry ↔ _
    match hcheck : parsed.check earlier with
    | .error error =>
      refine ⟨nofun, ?_⟩
      rintro ⟨heq, hok⟩
      cases heq
      rw [hcheck] at hok
      cases hok
    | .ok () =>
      constructor
      · intro heq
        cases heq
        exact ⟨rfl, hcheck⟩
      · rintro ⟨heq, -⟩
        cases heq
        rfl

namespace ServerCatalog

/-- **No entry is lost**: those kept and those rejected stand in the order they were sent. -/
theorem receive_fates {servers servers' : List ServerEntry} {rejected rejected' : List Rejected}
    {entries : List SentEntry}
    (h : receive ipv6 servers rejected entries = .ok (servers', rejected')) :
    ∃ fates, List.Forall₂ (Fate ipv6) entries fates ∧
      servers' = servers ++ fates.filterMap Sum.getLeft? ∧
      rejected' = rejected ++ fates.filterMap Sum.getRight? := by
  induction entries generalizing servers rejected with
  | nil =>
    cases h
    exact ⟨[], .nil, (List.append_nil _).symm, (List.append_nil _).symm⟩
  | cons entry entries ih =>
    rw [receive] at h
    match hreceived : entry.received ipv6 servers with
    | .ok kept =>
      rw [hreceived] at h
      obtain ⟨fates, hfates, rfl, rfl⟩ := ih h
      refine ⟨.inl kept :: fates, .cons (.kept kept (SentEntry.received_eq_ok.mp hreceived).1) hfates,
        ?_, rfl⟩
      rw [List.append_assoc]
      rfl
    | .error error =>
      rw [hreceived] at h
      dsimp only at h
      split_ifs at h with hown
      obtain ⟨fates, hfates, rfl, rfl⟩ := ih h
      refine ⟨.inr ⟨entry.id, error⟩ :: fates, .cons (.rejected error hown) hfates, rfl, ?_⟩
      rw [List.append_assoc]
      rfl

/-- What `decode` accepts: the document's entries in turn, and a catalog that is valid. -/
theorem decode_cases {codec : Json.Codec} {data : ByteArray} {received : Received}
    (h : decode ipv6 codec data = .ok received) :
    ∃ sent, JsonObject.decode codec Sent.read data = some sent ∧
      receive ipv6 [] [] sent.servers = .ok (received.catalog.servers, received.rejected) ∧
      received.catalog.validate = .ok () := by
  unfold decode at h
  match hsent : JsonObject.decode codec Sent.read data with
  | none =>
    rw [hsent] at h
    cases h
  | some sent =>
    rw [hsent] at h
    dsimp only at h
    split_ifs at h
    match hreceive : receive ipv6 [] [] sent.servers with
    | .error error =>
      rw [hreceive] at h
      cases h
    | .ok (servers, rejected) =>
      rw [hreceive] at h
      dsimp only at h
      split at h
      · cases h
      · rename_i hvalid
        cases h
        exact ⟨sent, rfl, hreceive, hvalid⟩

end ServerCatalog

/-! ## A catalog and its document -/

namespace Origin

/-- A printed origin does not end in a slash: behind the scheme stands an authority, which has none. -/
theorem dropSuffix_display (hipv6 : ipv6.Lawful) {origin : Origin} (hvalid : origin.Valid ipv6) :
    (origin.display ipv6).dropSuffix? "/".toList = none := by
  rw [Option.eq_none_iff_forall_ne_some]
  intro rest hcut
  have hslash := Text.dropSuffix_eq_some.mp hcut
  have hread := parse_display hipv6 hvalid
  rcases List.eq_nil_or_concat
    (origin.host.display ipv6 ++ displayPort origin.scheme origin.port) with hnil | ⟨body, c, hlast⟩
  · -- without an authority nothing would be read
    have hempty : parse ipv6 (origin.scheme.name ++ "://".toList ++ []) = none := by
      cases origin.scheme <;> rfl
    rw [display, hnil, hempty] at hread
    cases hread
  · have hmem : c ∈ origin.host.display ipv6 ++ displayPort origin.scheme origin.port := by
      rw [hlast, List.concat_eq_append]
      exact List.mem_append_right _ (List.mem_singleton_self c)
    have hc := ends_display hipv6 hvalid.host hmem
    have heq : '/' = c := by
      have hend := congrArg List.getLast? hslash
      rw [display, hlast, List.concat_eq_append, ← List.append_assoc, List.getLast?_concat] at hend
      show '/' = c
      have hend' : some c = some '/' := hend.trans List.getLast?_concat
      exact (Option.some.inj hend').symm
    rw [← heq] at hc
    exact absurd hc (by decide)

/-- An origin is never shown as a dot. -/
theorem display_ne_dot (origin : Origin) : origin.display ipv6 ≠ ".".toList := by
  intro h
  have hhead := congrArg List.head? h
  cases hscheme : origin.scheme <;> rw [display, hscheme] at hhead <;> cases hhead

end Origin

/-- A valid origin is read back from its text. -/
theorem receivedOrigin_display (hipv6 : ipv6.Lawful) {origin : Origin} (hvalid : origin.Valid ipv6) :
    receivedOrigin ipv6 (origin.display ipv6) = .ok origin := by
  rw [receivedOrigin, Origin.dropSuffix_display hipv6 hvalid, Option.getD_none,
    Origin.parse_display hipv6 hvalid]

/-- The origins of an entry. -/
def ServerEntry.origins (entry : ServerEntry) : List Origin :=
  (match entry.url with
    | .served => []
    | .origin origin => [origin]) ++ entry.additionalOrigins

/-- A valid address is read back from its text. -/
theorem receivedUrl_display (hipv6 : ipv6.Lawful) {url : BaseUrl}
    (hvalid : ∀ origin, url = .origin origin → origin.Valid ipv6) :
    receivedUrl ipv6 (url.display ipv6) = .ok url := by
  cases url with
  | served => rfl
  | origin target =>
    rw [receivedUrl, BaseUrl.display, if_neg (Origin.display_ne_dot target),
      receivedOrigin_display hipv6 (hvalid target rfl)]
    rfl

namespace ServerEntry

/-- The entry as its document has it. -/
def sent (ipv6 : Ipv6Text) (entry : ServerEntry) : SentEntry where
  id := entry.id.text
  url := entry.url.display ipv6
  name := entry.name
  location := entry.location
  additionalOrigins := entry.additionalOrigins.map (Origin.display ipv6)

/-- An entry's text repeats no member. -/
theorem plain_toJson (entry : ServerEntry) : (entry.toJson ipv6).Plain := by
  unfold toJson
  apply Json.Plain.object
  · split_ifs
    · exact (by decide : ["id".toList, "url".toList, "name".toList].Nodup)
    · exact (by decide :
        ["id".toList, "url".toList, "name".toList, "additionalOrigins".toList].Nodup)
    · exact (by decide : ["id".toList, "url".toList, "name".toList, "location".toList].Nodup)
    · exact (by decide : ["id".toList, "url".toList, "name".toList, "location".toList,
        "additionalOrigins".toList].Nodup)
  · rw [List.forall_mem_append, List.forall_mem_append]
    refine ⟨⟨?_, ?_⟩, ?_⟩
    · simp only [List.forall_mem_cons]
      exact ⟨.string _, .string _, .string _, nofun⟩
    · split_ifs
      · exact nofun
      · exact List.forall_mem_singleton.mpr (.string _)
    · split_ifs
      · exact nofun
      · exact List.forall_mem_singleton.mpr (Json.plain_strings _)

/-- **An entry's document is read as the entry.** -/
theorem read_toJson (entry : ServerEntry) :
    SentEntry.read (entry.toJson ipv6) = some (entry.sent ipv6) := by
  have horigins := Json.list?_strings (entry.additionalOrigins.map (Origin.display ipv6))
  unfold toJson SentEntry.read sent
  dsimp only
  -- what is left out is what it defaults to
  split_ifs with hlocation hadditional hadditional
  · rw [hlocation, hadditional]
    rfl
  · rw [hlocation]
    show (Json.list? Json.text? (.array _)).bind _ = _
    rw [horigins]
    rfl
  · rw [hadditional]
    rfl
  · show (Json.list? Json.text? (.array _)).bind _ = _
    rw [horigins]
    rfl

/-- An entry as its document has it parses to the entry. -/
theorem parsed_sent (hipv6 : ipv6.Lawful) {entry : ServerEntry}
    (hvalid : ∀ origin ∈ entry.origins, origin.Valid ipv6) :
    (entry.sent ipv6).parsed ipv6 = .ok entry := by
  have hurl : receivedUrl ipv6 (entry.url.display ipv6) = .ok entry.url := by
    apply receivedUrl_display hipv6
    intro origin heq
    apply hvalid
    rw [origins, heq]
    exact List.mem_append_left _ (List.mem_singleton_self _)
  have hadditional : (entry.additionalOrigins.map (Origin.display ipv6)).mapM (receivedOrigin ipv6) =
      .ok entry.additionalOrigins := by
    have hall : ∀ origin ∈ entry.additionalOrigins, origin.Valid ipv6 :=
      fun origin hmem => hvalid origin (List.mem_append_right _ hmem)
    generalize entry.additionalOrigins = additional at hall
    induction additional with
    | nil => rfl
    | cons origin additional ih =>
      have hrest := ih fun other hmem => hall other (List.mem_cons_of_mem _ hmem)
      rw [List.map_cons, List.mapM_cons,
        receivedOrigin_display hipv6 (hall origin List.mem_cons_self), hrest]
      rfl
  unfold SentEntry.parsed sent
  simp only [ServerId.parse_text, Option.elim_some, hurl, hadditional]
  rfl

end ServerEntry

namespace ServerCatalog

/-- The origins a catalog names. -/
def origins (catalog : ServerCatalog) : List Origin := catalog.servers.flatMap ServerEntry.origins

/-- A catalog's text repeats no member. -/
theorem plain_members (catalog : ServerCatalog) : (Json.object (catalog.members ipv6)).Plain := by
  apply Json.Plain.object
  · exact (by decide : ["defaultSelection".toList, "servers".toList].Nodup)
  · unfold members
    rw [List.forall_mem_cons, List.forall_mem_singleton]
    refine ⟨Json.plain_strings _, .array _ ?_⟩
    intro item hitem
    obtain ⟨entry, -, rfl⟩ := List.mem_map.mp hitem
    exact entry.plain_toJson

/-- **A catalog's document is read as its entries.** -/
theorem read_members (catalog : ServerCatalog) :
    Sent.read (.object (catalog.members ipv6)) =
      some ⟨catalog.defaultSelection.map ServerId.text,
        catalog.servers.map (ServerEntry.sent ipv6)⟩ := by
  have hselection := Json.list?_strings (catalog.defaultSelection.map ServerId.text)
  have hservers : Json.list? SentEntry.read (.array (catalog.servers.map (ServerEntry.toJson ipv6))) =
      some (catalog.servers.map (ServerEntry.sent ipv6)) := by
    show (catalog.servers.map (ServerEntry.toJson ipv6)).mapM SentEntry.read = _
    generalize catalog.servers = servers
    induction servers with
    | nil => rfl
    | cons entry servers ih =>
      rw [List.map_cons, List.mapM_cons, ServerEntry.read_toJson, ih]
      rfl
  show (Json.list? Json.text? (.array _)).bind (fun selection =>
    (Json.list? SentEntry.read (.array _)).bind fun servers => some (⟨selection, servers⟩ : Sent)) = _
  rw [hselection, hservers]
  rfl

/-- Entries that pass the sender's check are all kept. -/
theorem receive_sent (hipv6 : ipv6.Lawful) {earlier entries : List ServerEntry}
    (hvalid : ∀ entry ∈ entries, ∀ origin ∈ entry.origins, origin.Valid ipv6)
    (hall : checkAll earlier entries = .ok ()) :
    receive ipv6 earlier [] (entries.map (ServerEntry.sent ipv6)) = .ok (earlier ++ entries, []) := by
  induction entries generalizing earlier with
  | nil => rw [List.map_nil, receive, List.append_nil]
  | cons entry entries ih =>
    obtain ⟨hcheck, hrest⟩ := checkAll_cons.mp hall
    have hparsed := ServerEntry.parsed_sent hipv6 (hvalid entry List.mem_cons_self)
    have hreceived := SentEntry.received_eq_ok.mpr ⟨hparsed, hcheck⟩
    rw [List.map_cons, receive, hreceived]
    dsimp only
    rw [ih (fun other hmem => hvalid other (List.mem_cons_of_mem _ hmem)) hrest, ← List.append_cons]

/-- A selection of known servers is kept as it is. -/
theorem receivedSelection_text {servers : List ServerEntry} {selection : List ServerId}
    (hne : selection ≠ []) (hknown : ∀ id ∈ selection, known servers id = true) :
    receivedSelection servers (selection.map ServerId.text) = selection := by
  have hparsed : (selection.map ServerId.text).filterMap ServerId.parse = selection := by
    rw [List.filterMap_map]
    have hsome : (ServerId.parse ∘ ServerId.text) = some := funext ServerId.parse_text
    rw [hsome, List.filterMap_some]
  unfold receivedSelection
  rw [hparsed, List.filter_eq_self.mpr hknown]
  exact if_neg hne

/-- **A catalog that passes the sender's check comes back as it was.** -/
theorem decode_serialize {codec : Json.Codec} (hcodec : codec.Lawful) (hipv6 : ipv6.Lawful)
    {catalog : ServerCatalog} (hreads : codec.Reads (.object (catalog.members ipv6)))
    (horigins : ∀ origin ∈ catalog.origins, ∃ text, Origin.parse ipv6 text = some origin)
    (hvalidate : catalog.validate = .ok ()) :
    decode ipv6 codec (catalog.serialize ipv6 codec) = .ok ⟨catalog, []⟩ := by
  obtain ⟨-, hfew, hall, hselected, hdistinct⟩ := validate_cases hvalidate
  obtain ⟨-, -, hknown⟩ := distinct_iff.mp hdistinct
  have hvalid : ∀ entry ∈ catalog.servers, ∀ origin ∈ entry.origins, origin.Valid ipv6 := by
    intro entry hentry origin hmem
    obtain ⟨text, hparse⟩ := horigins origin (List.mem_flatMap.mpr ⟨entry, hentry, hmem⟩)
    exact Origin.valid_of_parse hipv6 hparse
  have hsent : JsonObject.decode codec Sent.read (catalog.serialize ipv6 codec) =
      some ⟨catalog.defaultSelection.map ServerId.text,
        catalog.servers.map (ServerEntry.sent ipv6)⟩ :=
    (JsonObject.decode_print hcodec catalog.plain_members hreads _).trans catalog.read_members
  have hne : catalog.defaultSelection ≠ [] := List.length_pos_iff.mp hselected.1
  unfold decode
  rw [hsent]
  dsimp only
  rw [List.length_map, if_neg (Nat.not_lt.mpr hfew), receive_sent hipv6 hvalid hall, List.nil_append]
  dsimp only
  rw [receivedSelection_text hne hknown, hvalidate]

end ServerCatalog

/-- **Catalogs agree on both ends.** A catalog that passes `validate`, with origins as they parse, is
decoded from its own serialization with nothing rejected. Of any document at all, a catalog that is
accepted has the serving server first, at most 32 servers with distinct identifiers and URLs, and one to
four distinct known servers selected; and every entry the document sent is kept, in the order sent, or
rejected under its identifier. -/
theorem catalog_exchange {codec : Json.Codec} (hcodec : codec.Lawful) (hipv6 : ipv6.Lawful) :
    (∀ catalog : ServerCatalog, catalog.validate = .ok () →
      (∀ origin ∈ catalog.origins, ∃ text, Origin.parse ipv6 text = some origin) →
      codec.Reads (.object (catalog.members ipv6)) →
      ServerCatalog.decode ipv6 codec (catalog.serialize ipv6 codec) = .ok ⟨catalog, []⟩) ∧
    ∀ (data : ByteArray) (received : Received),
      ServerCatalog.decode ipv6 codec data = .ok received →
      received.catalog.WellFormed ∧
      ∃ sent fates, JsonObject.decode codec Sent.read data = some sent ∧
        List.Forall₂ (Fate ipv6) sent.servers fates ∧
        received.catalog.servers = fates.filterMap Sum.getLeft? ∧
        received.rejected = fates.filterMap Sum.getRight? := by
  refine ⟨?_, ?_⟩
  · intro catalog hvalidate horigins hreads
    exact ServerCatalog.decode_serialize hcodec hipv6 hreads horigins hvalidate
  · intro data received hdecode
    obtain ⟨sent, hsent, hreceive, hvalid⟩ := ServerCatalog.decode_cases hdecode
    obtain ⟨fates, hfates, hservers, hrejected⟩ := ServerCatalog.receive_fates hreceive
    exact ⟨ServerCatalog.wellFormed_of_validate hvalid, sent, fates, hsent, hfates, hservers,
      hrejected⟩

/-- A second server with a port of its own, a name in quotes and one more origin. -/
def twoServers : ServerCatalog where
  defaultSelection := [⟨"eu".toList, by decide, by decide⟩, .own]
  servers :=
    [⟨.own, .served, "graphite-meter".toList, [], []⟩,
      ⟨⟨"eu".toList, by decide, by decide⟩, .origin ⟨.https, .name "eu.example".toList, 8443⟩,
        "EU \"2\"".toList, "Rotterdam".toList, [⟨.http, .name "eu2.example".toList, 80⟩]⟩]

/-- Three entries, of which the first stands by its places and the second has no identifier. -/
def threeEntries : ByteArray :=
  ("\x7b\"servers\":[[\"self\",\".\"],\x7b\"id\":\"a b\"\x7d," ++
    "\x7b\"id\":\"eu\",\"url\":\"https://eu.example/\"\x7d]\x7d").toUTF8

/-- The two servers are read back, and of the three entries the one without an identifier is refused. -/
theorem catalog_exchange_two :
    ServerCatalog.decode Ipv6Text.full .compact (twoServers.serialize Ipv6Text.full .compact) =
        .ok ⟨twoServers, []⟩ ∧
      ∃ received, ServerCatalog.decode Ipv6Text.full .compact threeEntries = .ok received ∧
        received.rejected = [⟨"a b".toList, .identity⟩] ∧ received.catalog.WellFormed := by
  obtain ⟨hback, haccepted⟩ :=
    catalog_exchange Json.Codec.compact_lawful Ipv6Text.full_lawful
  have hreads : Json.Codec.compact.Reads (.object (twoServers.members Ipv6Text.full)) := by
    set_option maxRecDepth 100000 in rfl
  have heu : Origin.parse Ipv6Text.full "https://eu.example:8443".toList =
      some ⟨.https, .name "eu.example".toList, 8443⟩ := by
    decide +kernel
  have heu2 : Origin.parse Ipv6Text.full "http://eu2.example".toList =
      some ⟨.http, .name "eu2.example".toList, 80⟩ := by
    decide +kernel
  refine ⟨hback twoServers (by decide +kernel) ?_ hreads, ?_⟩
  · intro origin hmem
    have hmem' : origin ∈ [(⟨.https, .name "eu.example".toList, 8443⟩ : Origin),
      ⟨.http, .name "eu2.example".toList, 80⟩] := hmem
    rcases List.mem_pair.mp hmem' with rfl | rfl
    · exact ⟨_, heu⟩
    · exact ⟨_, heu2⟩
  · have hrejected : (ServerCatalog.decode Ipv6Text.full .compact threeEntries).map
        (·.rejected) = .ok [⟨"a b".toList, .identity⟩] := by
      decide +kernel
    match hdecode : ServerCatalog.decode Ipv6Text.full .compact threeEntries with
    | .error error =>
      rw [hdecode] at hrejected
      cases hrejected
    | .ok received =>
      rw [hdecode] at hrejected
      exact ⟨received, rfl, Except.ok.inj hrejected, (haccepted threeEntries received hdecode).1⟩

end

end GraphiteMeter.Proto
