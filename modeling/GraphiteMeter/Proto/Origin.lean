import GraphiteMeter.Lib.IpAddr
import GraphiteMeter.Lib.Word
import GraphiteMeter.Proto.Text

/-!
# Origins

Reference: `rust/proto/src/origin.rs`. HTTP(S) origins are compared parsed, never as text: two
spellings of one origin parse equal, and the printed origin is the one spelling they share.
-/

namespace GraphiteMeter.Proto

def maxOriginBytes : ℕ := 2048

inductive Scheme where
  | http
  | https
deriving DecidableEq, Repr

namespace Scheme

def all : List Scheme := [.http, .https]

def name : Scheme → Text
  | .http => "http".toList
  | .https => "https".toList

def defaultPort : Scheme → ℕ
  | .http => 80
  | .https => 443

end Scheme

/-- An origin's host: a lowercase ASCII name or an IP address. -/
inductive Host where
  | name (name : Text)
  | ip (ip : IpAddr)
deriving DecidableEq, Repr

namespace Host

def labelByte (c : Char) : Bool := c.isAlphanum ∨ c = '-' ∨ c = '_'

def isHexDigit (c : Char) : Bool :=
  c.isDigit ∨ 'a' ≤ c ∧ c ≤ 'f' ∨ 'A' ≤ c ∧ c ≤ 'F'

/-- Whether every label has a byte and only label bytes. -/
def labelled (name : Text) : Bool :=
  (name.splitOn '.').all fun label => label ≠ [] ∧ label.all labelByte

/-- Whether the last label is a number, so that the host is an address. -/
def numeric (name : Text) : Bool :=
  let last := ((name.splitOn '.').getLast?).getD []
  let hex := (last.dropPrefix? "0x".toList).or (last.dropPrefix? "0X".toList)
  last.all Char.isDigit ∨ hex.any (·.all isHexDigit)

/-- A name of ASCII letters, digits, `-` and `_` labels, or a dotted IPv4 address if it ends in a
number. -/
def parse (text : Text) : Option Host :=
  let name := (text.dropSuffix? ".".toList).getD text
  if labelled name then
    if numeric name then (Ipv4Addr.parse text).map fun ip => .ip (.v4 ip)
    else some (.name text.toAsciiLowercase)
  else none

def display (ipv6 : Ipv6Text) : Host → Text
  | .name text => text
  | .ip (.v4 address) => address.display
  | .ip (.v6 address) => "[".toList ++ ipv6.display address ++ "]".toList

end Host

structure Origin where
  scheme : Scheme
  host : Host
  port : ℕ
deriving DecidableEq, Repr

namespace Origin

/-- What ends the authority. -/
def ends (c : Char) : Bool := c = '/' ∨ c = '?' ∨ c = '#'

/-- The host and the port's text: an address in brackets, or a name. -/
def splitAuthority (ipv6 : Ipv6Text) (authority : Text) : Option (Host × Text) :=
  match authority.dropPrefix? "[".toList with
  | some literal => do
    let (ip, port) ← Text.splitOnce "]".toList literal
    let ip ← ipv6.parse ip
    some (.ip (.v6 ip), port)
  | none => do
    let host ← Host.parse (authority.takeWhile (· ≠ ':'))
    some (host, authority.dropWhile (· ≠ ':'))

def parsePort (scheme : Scheme) (port : Text) : Option ℕ :=
  if port = [] ∨ port = ":".toList then some scheme.defaultPort
  else do
    let digits ← port.dropPrefix? ":".toList
    let port ← decimal (2 ^ 16) digits Word.max
    if port.val ≠ 0 then some port.val else none

/-- A byte no URL has behind its origin. -/
def refused (c : Char) : Bool := c ≤ ' ' ∨ 0x7f ≤ c.toNat ∨ c = '#' ∨ c = '\\'

/-- Splits a URL into origin and rest: bounded printable ASCII without `#` or `\`. -/
def split (ipv6 : Ipv6Text) (url : Text) : Option (Origin × Text) := do
  let (scheme, rest) ← Text.splitOnce "://".toList url
  let scheme ← Scheme.all.find? fun known => known.name.eqIgnoreAsciiCase scheme
  let (authority, rest) := (rest.takeWhile (!ends ·), rest.dropWhile (!ends ·))
  let (host, port) ← splitAuthority ipv6 authority
  let port ← parsePort scheme port
  if Text.byteLen rest > maxOriginBytes ∨ rest.any refused then none
  else some (⟨scheme, host, port⟩, rest)

/-- Parses a bounded origin: an ASCII host, a nonzero port, no credentials, path, query or
fragment. -/
def parse (ipv6 : Ipv6Text) (text : Text) : Option Origin := do
  let (origin, rest) ← split ipv6 text
  if rest = [] ∧ text.byteLen ≤ maxOriginBytes then some origin else none

/-- The port as printed: nothing for the scheme's own. -/
def displayPort (scheme : Scheme) (port : ℕ) : Text :=
  if port ≠ scheme.defaultPort then ":".toList ++ Nat.toDigits 10 port else []

def display (ipv6 : Ipv6Text) (origin : Origin) : Text :=
  origin.scheme.name ++ "://".toList ++
    (origin.host.display ipv6 ++ displayPort origin.scheme origin.port)

end Origin

/-- A received target's `baseUrl` or catalog `url`. -/
inductive BaseUrl where
  /-- `.`: the origin that served the document. -/
  | served
  | origin (origin : Origin)
deriving DecidableEq, Repr

/-! ## Hosts -/

namespace Host

@[simp]
theorem labelByte_toLower (c : Char) : labelByte c.toLower = labelByte c := by
  rw [Bool.eq_iff_iff, labelByte, labelByte, decide_eq_true_eq, decide_eq_true_eq,
    Text.isAlphanum_toLower, Text.toLower_eq_iff (by decide), Text.toLower_eq_iff (by decide)]

/-- A hexadecimal digit is a digit or a letter up to f, in either case. -/
theorem isHexDigit_iff (c : Char) :
    isHexDigit c ↔ c.isDigit ∨ 97 ≤ c.toNat ∧ c.toNat ≤ 102 ∨ 65 ≤ c.toNat ∧ c.toNat ≤ 70 := by
  rw [isHexDigit, decide_eq_true_eq]
  rfl

@[simp]
theorem isHexDigit_toLower (c : Char) : isHexDigit c.toLower = isHexDigit c := by
  rw [Bool.eq_iff_iff, isHexDigit_iff, isHexDigit_iff, Text.isDigit_toLower, Text.isDigit_iff,
    Text.toLower_toNat]
  split_ifs <;> omega

/-- What does not depend on the case holds of the lower case. -/
theorem all_toAsciiLowercase {p : Char → Bool} (hp : ∀ c, p c.toLower = p c) (t : Text) :
    t.toAsciiLowercase.all p = t.all p := by
  rw [Text.toAsciiLowercase, List.all_map]
  exact congrArg (t.all ·) (funext hp)

/-- A name of labels is one in either case. -/
theorem labelled_toAsciiLowercase (name : Text) :
    labelled name.toAsciiLowercase = labelled name := by
  rw [labelled, labelled, Text.splitOn_toAsciiLowercase (by decide), List.all_map]
  congr 1
  funext label
  simp only [Function.comp, all_toAsciiLowercase labelByte_toLower]
  simp [Text.toAsciiLowercase]

/-- Where a label starts as a hexadecimal number, its digits. -/
theorem hex_cons (c x : Char) (digits : Text) :
    ((c :: x :: digits).dropPrefix? "0x".toList).or ((c :: x :: digits).dropPrefix? "0X".toList) =
      if c = '0' ∧ (x = 'x' ∨ x = 'X') then some digits else none := by
  by_cases hc : c = '0' <;> by_cases hx : x = 'x' <;> by_cases hX : x = 'X' <;>
    simp [List.dropPrefix?, hc, hx, hX]

/-- A hexadecimal number is one in either case. -/
theorem hex_toAsciiLowercase (last : Text) :
    ((last.toAsciiLowercase.dropPrefix? "0x".toList).or
        (last.toAsciiLowercase.dropPrefix? "0X".toList)).any (·.all isHexDigit) =
      ((last.dropPrefix? "0x".toList).or (last.dropPrefix? "0X".toList)).any
        (·.all isHexDigit) := by
  rcases last with _ | ⟨c, _ | ⟨x, digits⟩⟩
  · rfl
  · simp [List.dropPrefix?, Text.toAsciiLowercase]
  · have hx : (x.toLower = 'x' ∨ x.toLower = 'X') ↔ (x = 'x' ∨ x = 'X') := by
      simp only [← Char.toNat_inj, Text.toLower_toNat]
      show (_ = 120 ∨ _ = 88) ↔ (_ = 120 ∨ _ = 88)
      split_ifs <;> omega
    show (((c.toLower :: x.toLower :: Text.toAsciiLowercase digits).dropPrefix? "0x".toList).or
      ((c.toLower :: x.toLower :: Text.toAsciiLowercase digits).dropPrefix? "0X".toList)).any _ = _
    rw [hex_cons, hex_cons, if_congr (and_congr (Text.toLower_eq_iff (by decide)) hx) rfl rfl]
    split_ifs
    · exact all_toAsciiLowercase isHexDigit_toLower digits
    · rfl

/-- A numeric name is one in either case. -/
theorem numeric_toAsciiLowercase (name : Text) :
    numeric name.toAsciiLowercase = numeric name := by
  have hlast : ((name.splitOn '.').map Text.toAsciiLowercase).getLast?.getD [] =
      Text.toAsciiLowercase ((name.splitOn '.').getLast?.getD []) := by
    rw [List.getLast?_map]
    cases (name.splitOn '.').getLast? <;> rfl
  simp only [numeric, Text.splitOn_toAsciiLowercase (d := '.') (by decide), hlast,
    hex_toAsciiLowercase, all_toAsciiLowercase Text.isDigit_toLower]

/-- The name without its last dot, in lower case. -/
theorem undotted_toAsciiLowercase (text : Text) :
    (text.toAsciiLowercase.dropSuffix? ".".toList).getD text.toAsciiLowercase =
      Text.toAsciiLowercase ((text.dropSuffix? ".".toList).getD text) := by
  have h := Text.dropSuffix_toAsciiLowercase (d := '.') (by decide) text
  show (text.toAsciiLowercase.dropSuffix? ['.']).getD _ = _
  rw [h]
  show (Option.map _ (text.dropSuffix? ['.'])).getD _ =
    Text.toAsciiLowercase ((text.dropSuffix? ['.']).getD text)
  cases text.dropSuffix? ['.'] <;> rfl

/-- A text is read as a name when it is labelled and not a number. -/
theorem parse_eq_name {text name : Text} :
    parse text = some (.name name) ↔
      labelled ((text.dropSuffix? ".".toList).getD text) ∧
        ¬numeric ((text.dropSuffix? ".".toList).getD text) ∧ name = text.toAsciiLowercase := by
  simp only [parse]
  constructor
  · intro h
    split_ifs at h with hlabelled hnumeric
    · obtain ⟨ip, -, hip⟩ := Option.map_eq_some_iff.mp h
      cases hip
    · exact ⟨hlabelled, hnumeric, (Host.name.inj (Option.some.inj h)).symm⟩
  · rintro ⟨hlabelled, hnumeric, rfl⟩
    rw [if_pos hlabelled, if_neg hnumeric]

/-- **A name's lower case is a spelling of it.** -/
theorem parse_of_parse {text name : Text} (h : parse text = some (.name name)) :
    parse name = some (.name name) := by
  obtain ⟨hlabelled, hnumeric, rfl⟩ := parse_eq_name.mp h
  rw [parse_eq_name, undotted_toAsciiLowercase, labelled_toAsciiLowercase,
    numeric_toAsciiLowercase, Text.toAsciiLowercase_idem]
  exact ⟨hlabelled, hnumeric, rfl⟩

/-- A name is made of label bytes and dots. -/
theorem mem_of_parse {text name : Text} {c : Char} (h : parse text = some (.name name))
    (hc : c ∈ text) : labelByte c ∨ c = '.' := by
  obtain ⟨hlabelled, -, -⟩ := parse_eq_name.mp h
  have hname : ∀ d ∈ (text.dropSuffix? ".".toList).getD text, labelByte d ∨ d = '.' := by
    intro d hd
    rcases Text.mem_splitOn '.' hd with rfl | ⟨label, hlabel, hd⟩
    · exact Or.inr rfl
    · have hall := List.all_eq_true.mp hlabelled label hlabel
      exact Or.inl (List.all_eq_true.mp (of_decide_eq_true hall).2 d hd)
  cases hcut : text.dropSuffix? ".".toList with
  | none =>
    rw [hcut] at hname
    exact hname c hc
  | some rest =>
    rw [hcut] at hname
    rw [Text.dropSuffix_eq_some.mp hcut, List.mem_append] at hc
    rcases hc with hc | hc
    · exact hname c hc
    · exact Or.inr (List.mem_singleton.mp hc)

/-- A printed IPv4 address reads back. -/
theorem parse_display_v4 (ip : Ipv4Addr) : parse ip.display = some (.ip (.v4 ip)) := by
  have hdigits : ∀ part ∈ ip.parts, part ≠ [] ∧ part.all Char.isDigit := by
    intro part hpart
    obtain ⟨n, rfl⟩ := Ipv4Addr.mem_parts hpart
    exact ⟨Nat.toDigits_ne_nil, List.all_eq_true.mpr fun c => Text.isDigit_of_mem_toDigits⟩
  have hsuffix : ip.display.dropSuffix? ".".toList = none := by
    rw [Option.eq_none_iff_forall_ne_some]
    intro rest hrest
    have hsplit := ip.splitOn_display
    rw [Text.dropSuffix_eq_some.mp hrest] at hsplit
    have hempty : [] ∈ ip.parts := by
      rw [← hsplit, show ".".toList = ['.'] from rfl, Text.splitOn_append_self]
      exact List.mem_append_right _ (List.mem_singleton_self [])
    exact (hdigits [] hempty).1 rfl
  have hlabelled : labelled ip.display := by
    rw [labelled, Ipv4Addr.splitOn_display, List.all_eq_true]
    intro part hpart
    obtain ⟨hne, hall⟩ := hdigits part hpart
    refine decide_eq_true ⟨hne, List.all_eq_true.mpr ?_⟩
    intro c hc
    rw [labelByte, decide_eq_true_eq, Text.isAlphanum_iff]
    exact Or.inl (Or.inr (List.all_eq_true.mp hall c hc))
  have hnumeric : numeric ip.display := by
    simp only [numeric, Ipv4Addr.splitOn_display]
    exact decide_eq_true (Or.inl (hdigits _ (by simp [Ipv4Addr.parts])).2)
  simp only [parse]
  rw [hsuffix, Option.getD_none, if_pos hlabelled, if_pos hnumeric, Ipv4Addr.parse_display]
  rfl

/-- Hosts as `parse` makes them: a name is its own lower case. -/
def Valid : Host → Prop
  | .name text => parse text = some (.name text)
  | .ip _ => True

/-- **A host that is read** is valid. -/
theorem valid_of_parse {text : Text} {host : Host} (h : parse text = some host) : host.Valid := by
  cases host with
  | name _ => exact parse_of_parse h
  | ip _ => trivial

/-- An authority without brackets: what the host prints is read as the host. -/
theorem parse_display (ipv6 : Ipv6Text) {host : Host} (hvalid : host.Valid)
    (h : ∀ address, host ≠ .ip (.v6 address)) :
    parse (host.display ipv6) = some host ∧
      ∀ c ∈ host.display ipv6, labelByte c ∨ c = '.' := by
  rcases host with text | address | address
  · exact ⟨hvalid, fun c => mem_of_parse hvalid⟩
  · refine ⟨parse_display_v4 address, ?_⟩
    intro c hc
    rcases Ipv4Addr.mem_display hc with hdigit | rfl
    · refine Or.inl (decide_eq_true (Or.inl ?_))
      exact (Text.isAlphanum_iff c).mpr (Or.inr hdigit)
    · exact Or.inr rfl
  · exact absurd rfl (h address)

end Host

/-! ## Printed origins read back -/

namespace Origin

/-- A displayed port is a colon and digits. -/
theorem mem_displayPort {scheme : Scheme} {port : ℕ} {c : Char} (h : c ∈ displayPort scheme port) :
    c = ':' ∨ c.isDigit := by
  rw [displayPort] at h
  split_ifs at h
  · rcases List.mem_append.mp h with h | h
    · exact Or.inl (List.mem_singleton.mp h)
    · exact Or.inr (Text.isDigit_of_mem_toDigits h)
  · cases h

/-- A displayed port begins with its colon. -/
theorem head_displayPort {scheme : Scheme} {port : ℕ} {c : Char}
    (h : c ∈ (displayPort scheme port).head?) : c = ':' := by
  rw [displayPort] at h
  split_ifs at h
  · cases h
    rfl
  · cases h

/-- A displayed port is read back. -/
theorem parsePort_displayPort (scheme : Scheme) {port : ℕ} (hpos : 0 < port)
    (hlt : port < 2 ^ 16) : parsePort scheme (displayPort scheme port) = some port := by
  by_cases hdefault : port = scheme.defaultPort
  · rw [displayPort, if_neg (not_not.mpr hdefault), parsePort, if_pos (Or.inl rfl), hdefault]
  · have hdigits : decimal (2 ^ 16) (Nat.toDigits 10 port) Word.max = some ⟨port, hlt⟩ := by
      rw [decimal_eq_some]
      refine ⟨Nat.toDigits_ne_nil, ?_, fun c => Text.isDigit_of_mem_toDigits,
        Text.value_toDigits port⟩
      have hlen : (Nat.toDigits 10 port).length ≤ 5 := by
        rw [Nat.length_toDigits_le_iff (by decide) (by decide)]
        omega
      exact hlen.trans (by decide)
    have hne : ¬(":".toList ++ Nat.toDigits 10 port = [] ∨
        ":".toList ++ Nat.toDigits 10 port = ":".toList) := by
      rintro (h | h)
      · cases h
      · exact Nat.toDigits_ne_nil (List.append_right_eq_self.mp h)
    rw [displayPort, if_pos hdefault, parsePort, if_neg hne, Text.dropPrefix_append]
    simp only [Option.bind_eq_bind, Option.bind_some, hdigits]
    exact if_pos (by omega)

/-- A port prints no longer than it was spelled. -/
theorem parsePort_spec {scheme : Scheme} {text : Text} {port : ℕ}
    (h : parsePort scheme text = some port) :
    0 < port ∧ port < 2 ^ 16 ∧ Text.byteLen (displayPort scheme port) ≤ text.byteLen ∧
      Text.byteLen (displayPort scheme port) ≤ 6 := by
  rw [parsePort] at h
  split_ifs at h with hdefault
  · obtain rfl := Option.some.inj h
    rw [displayPort, if_neg (not_not.mpr rfl)]
    refine ⟨?_, ?_, Nat.zero_le _, Nat.zero_le _⟩ <;> cases scheme <;> decide
  · obtain ⟨digits, hdigits, h⟩ := Option.bind_eq_some_iff.mp h
    obtain ⟨number, hnumber, h⟩ := Option.bind_eq_some_iff.mp h
    split_ifs at h with hpos
    obtain rfl := Option.some.inj h
    obtain ⟨hne, -, hall, hvalue⟩ := decimal_eq_some.mp hnumber
    have hascii : ∀ t : Text, (∀ c ∈ t, c.isDigit) → t.byteLen = t.length := fun t ht =>
      Text.byteLen_of_ascii fun c hc => Text.ascii_of_isDigit (ht c hc)
    have hown : Text.byteLen (Nat.toDigits 10 number) = (Nat.toDigits 10 number).length :=
      hascii _ fun c => Text.isDigit_of_mem_toDigits
    have hshort : (Nat.toDigits 10 number).length ≤ digits.length := by
      rw [← hvalue]
      exact Text.length_toDigits_value_le hne hall
    have hfive : (Nat.toDigits 10 number).length ≤ 5 := by
      rw [Nat.length_toDigits_le_iff (by decide) (by decide)]
      have := number.isLt
      omega
    have hcolon : Text.byteLen ":".toList = 1 := rfl
    have hprinted : Text.byteLen (displayPort scheme number) ≤
        1 + (Nat.toDigits 10 number).length := by
      rw [displayPort]
      split_ifs
      · rw [Text.byteLen_append, hown, hcolon]
      · exact Nat.zero_le _
    refine ⟨Nat.pos_of_ne_zero hpos, number.isLt, ?_, by omega⟩
    rw [Text.eq_append_of_dropPrefix hdigits, Text.byteLen_append, hascii digits hall, hcolon]
    omega

/-- No character of a name or a port ends an authority. -/
theorem ends_eq_false {c : Char} (h : Host.labelByte c ∨ c = '.' ∨ c = ':' ∨ c = '[' ∨ c = ']') :
    ends c = false := by
  rw [Bool.eq_false_iff, Ne, ends, decide_eq_true_eq]
  rintro (rfl | rfl | rfl) <;> revert h <;> decide

/-- Origins as `parse` makes them. -/
structure Valid (ipv6 : Ipv6Text) (origin : Origin) : Prop where
  host : origin.host.Valid
  port_pos : 0 < origin.port
  port_lt : origin.port < 2 ^ 16
  bounded : Text.byteLen (origin.display ipv6) ≤ maxOriginBytes

section
variable {ipv6 : Ipv6Text}

/-- Letters and digits may stand in a label. -/
theorem labelByte_of_isAlphanum {c : Char} (h : c.isAlphanum) : Host.labelByte c :=
  decide_eq_true (Or.inl h)

/-- A displayed host is of labels, dots, colons and brackets. -/
theorem mem_display_host (hipv6 : ipv6.Lawful) {host : Host} (hvalid : host.Valid) {c : Char}
    (h : c ∈ host.display ipv6) :
    Host.labelByte c ∨ c = '.' ∨ c = ':' ∨ c = '[' ∨ c = ']' := by
  by_cases hv6 : ∃ address, host = .ip (.v6 address)
  · obtain ⟨address, rfl⟩ := hv6
    rw [Host.display, List.mem_append, List.mem_append] at h
    rcases h with (h | h) | h
    · exact Or.inr (Or.inr (Or.inr (Or.inl (List.mem_singleton.mp h))))
    · rcases hipv6.mem_display address c h with h | rfl | rfl
      · exact Or.inl (labelByte_of_isAlphanum h)
      · exact Or.inr (Or.inr (Or.inl rfl))
      · exact Or.inr (Or.inl rfl)
    · exact Or.inr (Or.inr (Or.inr (Or.inr (List.mem_singleton.mp h))))
  · rcases (Host.parse_display ipv6 hvalid (not_exists.mp hv6)).2 c h with h | h
    · exact Or.inl h
    · exact Or.inr (Or.inl h)

/-- Nothing in a displayed authority ends it. -/
theorem ends_display (hipv6 : ipv6.Lawful) {host : Host} (hvalid : host.Valid) {scheme : Scheme}
    {port : ℕ} {c : Char} (h : c ∈ host.display ipv6 ++ displayPort scheme port) :
    ends c = false := by
  rcases List.mem_append.mp h with h | h
  · exact ends_eq_false (mem_display_host hipv6 hvalid h)
  · rcases mem_displayPort h with rfl | hdigit
    · rfl
    · exact ends_eq_false (Or.inl (labelByte_of_isAlphanum
        ((Text.isAlphanum_iff c).mpr (Or.inr hdigit))))

/-- The authority as printed splits where the host ends. -/
theorem splitAuthority_display (hipv6 : ipv6.Lawful) {host : Host} (hvalid : host.Valid)
    (scheme : Scheme) (port : ℕ) :
    splitAuthority ipv6 (host.display ipv6 ++ displayPort scheme port) =
      some (host, displayPort scheme port) := by
  by_cases hv6 : ∃ address, host = .ip (.v6 address)
  · obtain ⟨address, rfl⟩ := hv6
    have hbracket : ']' ∉ ipv6.display address := by
      intro h
      rcases hipv6.mem_display address ']' h with h | h | h <;> revert h <;> decide
    have hcut : Text.splitOnce "]".toList
        (ipv6.display address ++ "]".toList ++ displayPort scheme port) =
          some (ipv6.display address, displayPort scheme port) := Text.splitOnce_append hbracket
    have hopen : Host.display ipv6 (.ip (.v6 address)) ++ displayPort scheme port =
        "[".toList ++ (ipv6.display address ++ "]".toList ++ displayPort scheme port) := by
      rw [Host.display, List.append_assoc, List.append_assoc, List.append_assoc]
    rw [splitAuthority, hopen, Text.dropPrefix_append]
    simp only [hcut, Option.bind_eq_bind, Option.bind_some, hipv6.parse_display]
  · obtain ⟨hparse, hmem⟩ := Host.parse_display ipv6 hvalid (not_exists.mp hv6)
    have hplain : ∀ c ∈ host.display ipv6, c ≠ ':' ∧ c ≠ '[' := by
      intro c hc
      constructor <;> rintro rfl <;> exact absurd (hmem _ hc) (by decide)
    have hnone : (host.display ipv6 ++ displayPort scheme port).dropPrefix? "[".toList = none := by
      rw [Option.eq_none_iff_forall_ne_some]
      intro rest hrest
      have hmem : '[' ∈ host.display ipv6 ++ displayPort scheme port := by
        rw [Text.eq_append_of_dropPrefix hrest]
        exact List.mem_cons_self
      rcases List.mem_append.mp hmem with h | h
      · exact (hplain _ h).2 rfl
      · rcases mem_displayPort h with h | h <;> revert h <;> decide
    have hhead : ∀ c ∈ (displayPort scheme port).head?, ¬decide (c ≠ ':') := by
      intro c hc
      rw [head_displayPort hc]
      decide
    have hall : ∀ c ∈ host.display ipv6, decide (c ≠ ':') := fun c hc =>
      decide_eq_true (hplain c hc).1
    rw [splitAuthority, hnone]
    simp only [Text.takeWhile_append_of_all hall hhead, Text.dropWhile_append_of_all hall hhead,
      hparse, Option.bind_eq_bind, Option.bind_some]

/-- A scheme is found by its own name. -/
theorem find_scheme (scheme : Scheme) :
    Scheme.all.find? (fun known => known.name.eqIgnoreAsciiCase scheme.name) = some scheme := by
  cases scheme <;> decide

/-- **A printed origin reads back.** -/
theorem parse_display (hipv6 : ipv6.Lawful) {origin : Origin} (hvalid : origin.Valid ipv6) :
    parse ipv6 (origin.display ipv6) = some origin := by
  obtain ⟨hhost, hpos, hlt, hbounded⟩ := hvalid
  have hcolon : ':' ∉ origin.scheme.name := by
    cases origin.scheme <;> decide
  have hcut : Text.splitOnce "://".toList (origin.display ipv6) =
      some (origin.scheme.name,
        origin.host.display ipv6 ++ displayPort origin.scheme origin.port) :=
    Text.splitOnce_append hcolon
  have hends : ∀ c ∈ origin.host.display ipv6 ++ displayPort origin.scheme origin.port,
      !ends c := by
    intro c hc
    rw [ends_display hipv6 hhost hc]
    rfl
  have htake := Text.takeWhile_append_of_all (t := []) hends (fun _ => nofun)
  have hdrop := Text.dropWhile_append_of_all (t := []) hends (fun _ => nofun)
  rw [List.append_nil] at htake hdrop
  have hsplit : split ipv6 (origin.display ipv6) = some (origin, []) := by
    rw [split, hcut]
    simp only [Option.bind_eq_bind, Option.bind_some, find_scheme, htake, hdrop,
      splitAuthority_display hipv6 hhost, parsePort_displayPort origin.scheme hpos hlt]
    rfl
  rw [parse, hsplit]
  exact if_pos ⟨rfl, hbounded⟩

/-- The authority prints no longer than it was spelled, or is an address. -/
theorem splitAuthority_spec (hipv6 : ipv6.Lawful) {authority port : Text} {host : Host}
    (h : splitAuthority ipv6 authority = some (host, port)) :
    host.Valid ∧ (Text.byteLen (host.display ipv6) + port.byteLen ≤ authority.byteLen ∨
      Text.byteLen (host.display ipv6) ≤ 41) := by
  rw [splitAuthority] at h
  split at h
  next literal _ =>
    obtain ⟨⟨inside, after⟩, -, h⟩ := Option.bind_eq_some_iff.mp h
    obtain ⟨address, -, h⟩ := Option.bind_eq_some_iff.mp h
    obtain ⟨rfl, rfl⟩ := Prod.mk.inj (Option.some.inj h)
    have hascii : ∀ c ∈ ipv6.display address, c.toNat < 128 := by
      intro c hc
      rcases hipv6.mem_display address c hc with h | rfl | rfl
      · have := (Text.isAlphanum_iff c).mp h
        rw [Text.isAlpha_iff, Text.isDigit_iff] at this
        omega
      · decide
      · decide
    have hlen := hipv6.length_display address
    rw [← Text.byteLen_of_ascii hascii] at hlen
    refine ⟨trivial, Or.inr ?_⟩
    rw [Host.display, Text.byteLen_append, Text.byteLen_append]
    show 1 + _ + 1 ≤ 41
    omega
  next =>
    obtain ⟨found, hparse, h⟩ := Option.bind_eq_some_iff.mp h
    obtain ⟨rfl, rfl⟩ := Prod.mk.inj (Option.some.inj h)
    refine ⟨Host.valid_of_parse hparse, ?_⟩
    rcases found with text | address | address
    · refine Or.inl (Nat.le_of_eq ?_)
      obtain ⟨-, -, rfl⟩ := Host.parse_eq_name.mp hparse
      rw [Host.display, Text.byteLen_toAsciiLowercase, ← Text.byteLen_append,
        List.takeWhile_append_dropWhile]
    · have hascii : ∀ c ∈ address.display, c.toNat < 128 := by
        intro c hc
        rcases Ipv4Addr.mem_display hc with h | rfl
        · exact Text.ascii_of_isDigit h
        · decide
      have hlen := address.length_display_le
      rw [← Text.byteLen_of_ascii hascii] at hlen
      exact Or.inr (hlen.trans (by decide))
    · -- A name never parses as an IPv6 address.
      simp only [Host.parse] at hparse
      split_ifs at hparse
      · obtain ⟨ip, -, hip⟩ := Option.map_eq_some_iff.mp hparse
        cases hip
      · cases hparse

/-- **What is accepted is valid.** -/
theorem valid_of_parse (hipv6 : ipv6.Lawful) {text : Text} {origin : Origin}
    (h : parse ipv6 text = some origin) : origin.Valid ipv6 := by
  obtain ⟨⟨origin', rest⟩, hsplit, h⟩ := Option.bind_eq_some_iff.mp h
  dsimp only at h
  split_ifs at h with hrest
  obtain ⟨rfl, hbounded⟩ := hrest
  obtain rfl := Option.some.inj h
  obtain ⟨⟨spelled, after⟩, hcut, hsplit⟩ := Option.bind_eq_some_iff.mp hsplit
  obtain ⟨scheme, hscheme, hsplit⟩ := Option.bind_eq_some_iff.mp hsplit
  obtain ⟨⟨host, portText⟩, hauthority, hsplit⟩ := Option.bind_eq_some_iff.mp hsplit
  obtain ⟨port, hport, hsplit⟩ := Option.bind_eq_some_iff.mp hsplit
  split_ifs at hsplit
  obtain ⟨rfl, hrest⟩ := Prod.mk.inj (Option.some.inj hsplit)
  obtain ⟨hhost, hlength⟩ := splitAuthority_spec hipv6 hauthority
  obtain ⟨hpos, hlt, hshorter, hsix⟩ := parsePort_spec hport
  refine ⟨hhost, hpos, hlt, ?_⟩
  have hfound : scheme.name.eqIgnoreAsciiCase spelled :=
    List.find?_some (p := fun known : Scheme => known.name.eqIgnoreAsciiCase spelled) hscheme
  have hspelled := Text.length_eq_of_eqIgnoreAsciiCase hfound
  have hname : scheme.name.byteLen ≤ 5 := by
    cases scheme <;> decide
  have hafter : after.takeWhile (!ends ·) = after := by
    have := List.takeWhile_append_dropWhile (p := (!ends ·)) (l := after)
    rwa [hrest, List.append_nil] at this
  rw [hafter] at hlength
  rw [Text.eq_of_splitOnce hcut, Text.byteLen_append, Text.byteLen_append] at hbounded
  have hsep : Text.byteLen "://".toList = 3 := rfl
  rw [display, Text.byteLen_append, Text.byteLen_append, Text.byteLen_append]
  rw [hsep] at hbounded ⊢
  dsimp only
  rw [maxOriginBytes] at hbounded ⊢
  rcases hlength with hlength | hlength <;> omega

/-- **Origins are canonical**: what an accepted text parses to is what its printed origin parses to,
and two accepted texts name one origin exactly where they print the same. -/
theorem canonical (hipv6 : ipv6.Lawful) {text : Text} {origin : Origin}
    (h : parse ipv6 text = some origin) :
    parse ipv6 (origin.display ipv6) = some origin ∧
      ∀ (other : Text) (origin' : Origin), parse ipv6 other = some origin' →
        (origin = origin' ↔ origin.display ipv6 = origin'.display ipv6) := by
  have hread := parse_display hipv6 (valid_of_parse hipv6 h)
  refine ⟨hread, ?_⟩
  intro other origin' hother
  refine ⟨congrArg _, ?_⟩
  intro heq
  have hread' := parse_display hipv6 (valid_of_parse hipv6 hother)
  rw [← heq, hread] at hread'
  exact Option.some.inj hread'

/-- An upper case scheme, a bracketed address and a port with a leading zero. -/
theorem canonical_bracketed :
    Ipv6Text.full.Lawful ∧ ∃ origin,
      parse Ipv6Text.full "HTTPS://[2001:4860:4860:1111:2222:3333:4444:8888]:0443".toList =
        some origin ∧
      parse Ipv6Text.full (origin.display Ipv6Text.full) = some origin := by
  refine ⟨Ipv6Text.full_lawful, ⟨.https, .ip (.v6 0x20014860486011112222333344448888), 443⟩, ?_⟩
  have h : parse Ipv6Text.full
      "HTTPS://[2001:4860:4860:1111:2222:3333:4444:8888]:0443".toList =
        some ⟨.https, .ip (.v6 0x20014860486011112222333344448888), 443⟩ := by
    decide +kernel
  exact ⟨h, (canonical Ipv6Text.full_lawful h).1⟩

end

end Origin

end GraphiteMeter.Proto
