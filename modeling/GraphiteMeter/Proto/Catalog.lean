import GraphiteMeter.Proto.JsonObject
import GraphiteMeter.Proto.Origin

/-!
# The originating server's catalog

Reference: `rust/proto/src/catalog.rs`, with `is_metadata` of `rust/proto/src/discovery.rs` and
`safe` of `rust/proto/src/text.rs`.

`ServerCatalog.validate` is the sender's check, `ServerCatalog.decode` the receiver's, which reads the
entries one by one and drops those that are invalid. Both go through `ServerEntry.check`, against the
entries before.
-/

namespace GraphiteMeter.Proto

/-! ## Metadata -/

/-- A control character. -/
def isControl (c : Char) : Bool := c.toNat < 0x20 ∨ 0x7f ≤ c.toNat ∧ c.toNat < 0xa0

/-- Whether `c` reaches a terminal as itself: no control or bidirectional formatting character. -/
def safe (c : Char) : Bool :=
  let n := c.toNat
  !isControl c && !decide (n = 0x61c ∨ n = 0x200e ∨ n = 0x200f ∨ 0x202a ≤ n ∧ n ≤ 0x202e ∨
    0x2066 ≤ n ∧ n ≤ 0x2069)

def maxMetadataBytes : ℕ := 256

def isMetadata (metadata : Text) : Bool :=
  metadata.byteLen ≤ maxMetadataBytes ∧ metadata.all safe

/-! ## Entries -/

def maxServers : ℕ := 32

def maxSelected : ℕ := 4

def maxAdditionalOrigins : ℕ := 32

def idByte (c : Char) : Bool := c.isAlphanum ∨ c = '.' ∨ c = '_' ∨ c = '-'

/-- A catalog server ID: 1 to 64 ASCII letters, digits, `.`, `_` or `-`. -/
structure ServerId where
  text : Text
  length : 1 ≤ text.byteLen ∧ text.byteLen ≤ 64
  bytes : text.all idByte = true
deriving DecidableEq

namespace ServerId

def parse (text : Text) : Option ServerId :=
  if h : (1 ≤ text.byteLen ∧ text.byteLen ≤ 64) ∧ text.all idByte = true then
    some ⟨text, h.1, h.2⟩
  else none

/-- `self`: the server that serves the catalog. -/
def own : ServerId := ⟨"self".toList, by decide, by decide⟩

@[simp] theorem parse_text (id : ServerId) : parse id.text = some id :=
  dif_pos ⟨id.length, id.bytes⟩

end ServerId

/-- One measurement server and the origins its discovery may advertise beyond its own host. -/
structure ServerEntry where
  id : ServerId
  url : BaseUrl
  name : Text
  location : Text
  additionalOrigins : List Origin
deriving DecidableEq

/-- The catalog, `self` first, and the servers selected by default. -/
structure ServerCatalog where
  defaultSelection : List ServerId
  servers : List ServerEntry
deriving DecidableEq

inductive CatalogError where
  | servers
  | identity
  | origin
  | duplicate
  | additionalOrigins
  | selection
deriving DecidableEq, Repr

def CatalogError.message : CatalogError → String
  | .servers => "a catalog lists self first and at most 31 servers after it"
  | .identity => "invalid catalog server identity"
  | .origin => "invalid catalog origin"
  | .duplicate => "duplicate catalog server"
  | .additionalOrigins => "too many additional origins"
  | .selection => "select one to four distinct catalog servers"

structure Rejected where
  id : Text
  error : CatalogError
deriving DecidableEq, Repr

structure Received where
  catalog : ServerCatalog
  rejected : List Rejected
deriving DecidableEq

/-! ## What the sender checks -/

def ServerEntry.check (entry : ServerEntry) (earlier : List ServerEntry) :
    Except CatalogError Unit :=
  if !isMetadata entry.name || !isMetadata entry.location then .error .identity
  else if entry.url = .served ∧ entry.id ≠ .own then .error .origin
  else if earlier.any fun prior => prior.id = entry.id ∨ prior.url = entry.url then
    .error .duplicate
  else if entry.additionalOrigins.length > maxAdditionalOrigins then .error .additionalOrigins
  else .ok ()

namespace ServerCatalog

def singleton : ServerCatalog where
  defaultSelection := [.own]
  servers := [⟨.own, .served, "graphite-meter".toList, [], []⟩]

/-- Every entry against the entries before it. -/
def checkAll (earlier : List ServerEntry) : List ServerEntry → Except CatalogError Unit
  | [] => .ok ()
  | entry :: entries =>
    match entry.check earlier with
    | .error error => .error error
    | .ok () => checkAll (earlier ++ [entry]) entries

def known (servers : List ServerEntry) (id : ServerId) : Bool :=
  servers.any fun entry => entry.id = id

/-- Whether the servers are known, and none has been seen before. -/
def distinct (servers : List ServerEntry) : List ServerId → List ServerId → Bool
  | _, [] => true
  | seen, id :: ids =>
    if id ∈ seen then false else known servers id && distinct servers (id :: seen) ids

/-- Checks a selection: one to four distinct servers of this catalog. -/
def validateSelection (catalog : ServerCatalog) (selected : List ServerId) :
    Except CatalogError Unit :=
  if (1 ≤ selected.length ∧ selected.length ≤ maxSelected) ∧
      distinct catalog.servers [] selected = true then .ok ()
  else .error .selection

def validate (catalog : ServerCatalog) : Except CatalogError Unit :=
  if ¬ (catalog.servers.head?.any fun first => first.id = .own) ∨
      catalog.servers.length > maxServers then
    .error .servers
  else
    match checkAll [] catalog.servers with
    | .error error => .error error
    | .ok () => catalog.validateSelection catalog.defaultSelection

end ServerCatalog

/-! ## The document -/

section

variable (ipv6 : Ipv6Text)

def BaseUrl.display : BaseUrl → Text
  | .served => ".".toList
  | .origin target => target.display ipv6

/-- The document of an entry; what is empty is left out where it may be. -/
def ServerEntry.toJson (entry : ServerEntry) : Json :=
  .object ([("id".toList, .string entry.id.text), ("url".toList, .string (entry.url.display ipv6)),
      ("name".toList, .string entry.name)] ++
    (if entry.location = [] then [] else [("location".toList, .string entry.location)]) ++
    (if entry.additionalOrigins = [] then []
      else [("additionalOrigins".toList,
        .array ((entry.additionalOrigins.map (Origin.display ipv6)).map .string))]))

/-- The document of a catalog. -/
def ServerCatalog.members (catalog : ServerCatalog) : List (Text × Json) :=
  [("defaultSelection".toList,
      .array ((catalog.defaultSelection.map ServerId.text).map .string)),
    ("servers".toList, .array (catalog.servers.map (ServerEntry.toJson ipv6)))]

def ServerCatalog.serialize (codec : Json.Codec) (catalog : ServerCatalog) : ByteArray :=
  (String.ofList (codec.print (.object (catalog.members ipv6)))).toUTF8

end

/-! ## What the receiver reads -/

/-- A catalog entry as sent, read field by field so one invalid entry is refused alone. -/
structure SentEntry where
  id : Text
  url : Text
  name : Text
  location : Text
  additionalOrigins : List Text
deriving DecidableEq, Repr

structure Sent where
  defaultSelection : List Text
  servers : List SentEntry
deriving DecidableEq, Repr

open Json in
/-- An object by the names of its members, or an array by their places. -/
def SentEntry.read : Json → Option SentEntry
  | .object members => do
    let id ← member members "id".toList text? []
    let url ← member members "url".toList text? []
    let name ← member members "name".toList text? []
    let location ← member members "location".toList text? []
    let additionalOrigins ← member members "additionalOrigins".toList (list? text?) []
    some ⟨id, url, name, location, additionalOrigins⟩
  | .array items => do
    let id ← item items 0 text? []
    let url ← item items 1 text? []
    let name ← item items 2 text? []
    let location ← item items 3 text? []
    let additionalOrigins ← item items 4 (list? text?) []
    if items.length ≤ 5 then some ⟨id, url, name, location, additionalOrigins⟩ else none
  | _ => none

open Json in
/-- The document, which is an object; its `servers` must be there. -/
def Sent.read : Json → Option Sent
  | .object members => do
    let defaultSelection ← member members "defaultSelection".toList (list? text?) []
    let servers ← members.lookup "servers".toList
    let servers ← list? SentEntry.read servers
    some ⟨defaultSelection, servers⟩
  | _ => none

section

variable (ipv6 : Ipv6Text)

/-- A catalog origin, which may end in one slash. -/
def receivedOrigin (text : Text) : Except CatalogError Origin :=
  match Origin.parse ipv6 ((text.dropSuffix? "/".toList).getD text) with
  | some origin => .ok origin
  | none => .error .origin

def receivedUrl (text : Text) : Except CatalogError BaseUrl :=
  if text = ".".toList then .ok .served else (receivedOrigin ipv6 text).map .origin

namespace SentEntry

/-- The entry by itself. -/
def parsed (sent : SentEntry) : Except CatalogError ServerEntry := do
  let id ← (ServerId.parse sent.id).elim (.error .identity) .ok
  let url ← receivedUrl ipv6 sent.url
  let additionalOrigins ← sent.additionalOrigins.mapM (receivedOrigin ipv6)
  .ok ⟨id, url, sent.name, sent.location, additionalOrigins⟩

def received (sent : SentEntry) (earlier : List ServerEntry) : Except CatalogError ServerEntry := do
  let entry ← sent.parsed ipv6
  entry.check earlier
  .ok entry

end SentEntry

/-- Why a received catalog is refused: its document, or what it says. -/
inductive DecodeError where
  | json
  | refused (error : CatalogError)
deriving DecidableEq, Repr

namespace ServerCatalog

/-- The entries in turn: the invalid ones are rejected, but `self` is refused with the catalog. -/
def receive (servers : List ServerEntry) (rejected : List Rejected) :
    List SentEntry → Except DecodeError (List ServerEntry × List Rejected)
  | [] => .ok (servers, rejected)
  | entry :: entries =>
    match entry.received ipv6 servers with
    | .ok received => receive (servers ++ [received]) rejected entries
    | .error error =>
      if entry.id = ServerId.own.text then .error (.refused error)
      else receive servers (rejected ++ [⟨entry.id, error⟩]) entries

/-- The known servers of a selection as sent; an emptied one falls back to `self`. -/
def receivedSelection (servers : List ServerEntry) (selection : List Text) : List ServerId :=
  let known := (selection.filterMap ServerId.parse).filter (known servers)
  if known = [] then [.own] else known

/-- Reads a received catalog, dropping invalid entries but `self`. -/
def decode (codec : Json.Codec) (data : ByteArray) : Except DecodeError Received :=
  match JsonObject.decode codec Sent.read data with
  | none => .error .json
  | some sent =>
    if sent.servers.length > maxServers then .error (.refused .servers)
    else
      match receive ipv6 [] [] sent.servers with
      | .error error => .error error
      | .ok (servers, rejected) =>
        let catalog : ServerCatalog :=
          ⟨receivedSelection servers sent.defaultSelection, servers⟩
        match catalog.validate with
        | .error error => .error (.refused error)
        | .ok () => .ok ⟨catalog, rejected⟩

end ServerCatalog

end

example : ServerCatalog.singleton.validate = .ok () := by decide

end GraphiteMeter.Proto
