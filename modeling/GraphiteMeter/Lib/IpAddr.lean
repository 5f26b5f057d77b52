import Mathlib.Data.Fin.Basic
import Mathlib.Data.List.Basic
import GraphiteMeter.Lib.Text

/-!
# IP addresses and their texts

An IPv4 address is read and written in dotted decimal. An IPv6 address has many spellings, so its
reader and its printer are a parameter: what is used of them is that they are inverse, and which
characters and how many of them the printer writes.
-/

/-! ## IPv4 -/

structure Ipv4Addr where
  a : Fin 256
  b : Fin 256
  c : Fin 256
  d : Fin 256
deriving DecidableEq, Repr

namespace Ipv4Addr

/-- The four octets as text. -/
def parts (ip : Ipv4Addr) : List Text :=
  [Nat.toDigits 10 ip.a, Nat.toDigits 10 ip.b, Nat.toDigits 10 ip.c, Nat.toDigits 10 ip.d]

def display (ip : Ipv4Addr) : Text := ['.'].intercalate ip.parts

/-- One octet: one to three digits without a leading zero, at most 255. -/
def octet (t : Text) : Option (Fin 256) :=
  if t ≠ [] ∧ t.length ≤ 3 ∧ t.all Char.isDigit ∧ (t.length = 1 ∨ t.head? ≠ some '0') then
    if h : t.value < 256 then some ⟨t.value, h⟩ else none
  else none

/-- Four octets with dots between them. -/
def parse (t : Text) : Option Ipv4Addr :=
  match t.splitOn '.' with
  | [a, b, c, d] => do some ⟨← octet a, ← octet b, ← octet c, ← octet d⟩
  | _ => none

/-- An octet is read back from its digits. -/
theorem octet_toDigits : ∀ n : Fin 256, octet (Nat.toDigits 10 n) = some n := by
  decide +kernel

/-- Each part is the digits of an octet. -/
theorem mem_parts {ip : Ipv4Addr} {t : Text} (h : t ∈ ip.parts) :
    ∃ n : Fin 256, t = Nat.toDigits 10 n := by
  simp only [parts, List.mem_cons, List.not_mem_nil, or_false] at h
  rcases h with rfl | rfl | rfl | rfl
  exacts [⟨_, rfl⟩, ⟨_, rfl⟩, ⟨_, rfl⟩, ⟨_, rfl⟩]

/-- No part has a dot. -/
theorem dot_notMem_parts {ip : Ipv4Addr} {t : Text} (h : t ∈ ip.parts) : '.' ∉ t := by
  obtain ⟨n, rfl⟩ := mem_parts h
  intro hdot
  exact absurd (Text.isDigit_of_mem_toDigits hdot) (by decide)

/-- The printed address has its octets between the dots. -/
theorem splitOn_display (ip : Ipv4Addr) : ip.display.splitOn '.' = ip.parts :=
  List.splitOn_intercalate '.' (fun _ => dot_notMem_parts) (List.cons_ne_nil _ _)

/-- **An IPv4 address** is read back from its text. -/
theorem parse_display (ip : Ipv4Addr) : parse ip.display = some ip := by
  rw [parse, splitOn_display, parts]
  simp only [octet_toDigits, Option.bind_eq_bind, Option.bind_some]

/-- An IPv4 address is of digits and dots. -/
theorem mem_display {ip : Ipv4Addr} {c : Char} (h : c ∈ ip.display) : c.isDigit ∨ c = '.' := by
  rcases Text.mem_intercalate h with rfl | ⟨part, hpart, hc⟩
  · exact Or.inr rfl
  · obtain ⟨n, rfl⟩ := mem_parts hpart
    exact Or.inl (Text.isDigit_of_mem_toDigits hc)

/-- An IPv4 address is at most fifteen characters long. -/
theorem length_display_le (ip : Ipv4Addr) : ip.display.length ≤ 15 := by
  have hpart : ∀ n : Fin 256, (Nat.toDigits 10 n).length ≤ 3 := by
    intro n
    rw [Nat.length_toDigits_le_iff (by decide) (by decide)]
    have := n.isLt
    omega
  have ha := hpart ip.a
  have hb := hpart ip.b
  have hc := hpart ip.c
  have hd := hpart ip.d
  simp only [display, parts, List.intercalate, List.intersperse_cons_cons, List.intersperse_singleton,
    List.flatten_cons, List.flatten_nil, List.length_append, List.length_singleton, List.append_nil]
  omega

end Ipv4Addr

/-! ## IPv6 -/

/-- How IPv6 addresses are read and printed. -/
structure Ipv6Text where
  parse : Text → Option (BitVec 128)
  display : BitVec 128 → Text

namespace Ipv6Text

/-- What is relied on: a printed address reads back, and is made of at most 39 hexadecimal digits,
colons and dots. -/
structure Lawful (ipv6 : Ipv6Text) : Prop where
  parse_display (ip : BitVec 128) : ipv6.parse (ipv6.display ip) = some ip
  mem_display (ip : BitVec 128) (c : Char) (h : c ∈ ipv6.display ip) :
    c.isAlphanum ∨ c = ':' ∨ c = '.'
  length_display (ip : BitVec 128) : (ipv6.display ip).length ≤ 39

/-! ### The full form

Eight groups of four digits: how an address is printed that has no group to shorten. -/

def hexChar (n : ℕ) : Char := (Nat.digitChar (n % 16))

def hexValue (c : Char) : ℕ :=
  if c.isDigit then c.toNat - 48 else c.toNat - 87

/-- The group of 16 bits from bit `at` on. -/
def group (ip : BitVec 128) (low : ℕ) : ℕ := ip.toNat / 2 ^ low % 2 ^ 16

def hexGroup (n : ℕ) : Text := [hexChar (n / 4096), hexChar (n / 256), hexChar (n / 16), hexChar n]

def hexGroups (ip : BitVec 128) : List Text :=
  [112, 96, 80, 64, 48, 32, 16, 0].map fun low => hexGroup (group ip low)

def ungroup (t : Text) : Option ℕ :=
  if t.length = 4 ∧ t.all fun c => c ∈ "0123456789abcdef".toList then
    some (t.foldl (fun n c => n * 16 + hexValue c) 0)
  else none

def full : Ipv6Text where
  parse t :=
    match (t.splitOn ':').mapM ungroup with
    | some groups =>
      if groups.length = 8 then some (BitVec.ofNat 128 (groups.foldl (fun n g => n * 2 ^ 16 + g) 0))
      else none
    | none => none
  display ip := [':'].intercalate (hexGroups ip)

/-- A hexadecimal digit is one of sixteen. -/
theorem hexChar_mem (n : ℕ) : hexChar n ∈ "0123456789abcdef".toList := by
  have h : ∀ m < 16, Nat.digitChar m ∈ "0123456789abcdef".toList := by decide
  exact h _ (Nat.mod_lt _ (by decide))

/-- A hexadecimal digit has its own value. -/
theorem hexValue_hexChar (n : ℕ) : hexValue (hexChar n) = n % 16 := by
  have h : ∀ m < 16, hexValue (Nat.digitChar m) = m := by decide
  exact h _ (Nat.mod_lt _ (by decide))

/-- A group of sixteen bits is read back. -/
theorem ungroup_hexGroup {n : ℕ} (h : n < 2 ^ 16) : ungroup (hexGroup n) = some n := by
  have hmem : (hexGroup n).all fun c => c ∈ "0123456789abcdef".toList := by
    simp only [hexGroup, List.all_cons, List.all_nil, hexChar_mem, decide_true, Bool.and_true]
  rw [ungroup, if_pos ⟨rfl, hmem⟩]
  simp only [hexGroup, List.foldl_cons, List.foldl_nil, hexValue_hexChar]
  congr 1
  omega

/-- The next group goes below those ahead of it. -/
theorem shift_group (ip : BitVec 128) (low : ℕ) :
    ip.toNat / 2 ^ (low + 16) * 2 ^ 16 + group ip low = ip.toNat / 2 ^ low := by
  rw [group, Nat.pow_add, ← Nat.div_div_eq_div_mul]
  exact Nat.div_add_mod' _ _

/-- The groups are of hexadecimal digits. -/
theorem mem_hexGroups {ip : BitVec 128} {t : Text} {c : Char} (ht : t ∈ hexGroups ip) (hc : c ∈ t) :
    c ∈ "0123456789abcdef".toList := by
  obtain ⟨low, -, rfl⟩ := List.mem_map.mp ht
  simp only [hexGroup, List.mem_cons, List.not_mem_nil, or_false] at hc
  rcases hc with rfl | rfl | rfl | rfl <;> exact hexChar_mem _

/-- Writing all eight groups out is a lawful text. -/
theorem full_lawful : Lawful full where
  parse_display ip := by
    have hsplit : ([':'].intercalate (hexGroups ip)).splitOn ':' = hexGroups ip := by
      refine List.splitOn_intercalate ':' ?_ (List.cons_ne_nil _ _)
      intro t ht hc
      exact absurd (mem_hexGroups ht hc) (by decide)
    have hgroup : ∀ low, ungroup (hexGroup (group ip low)) = some (group ip low) := fun low =>
      ungroup_hexGroup (Nat.mod_lt _ (by decide))
    show (match (([':'].intercalate (hexGroups ip)).splitOn ':').mapM ungroup with
      | some groups => _ | none => _) = _
    rw [hsplit]
    simp only [hexGroups, List.map_cons, List.map_nil, List.mapM_cons, List.mapM_nil, hgroup,
      Option.bind_eq_bind, Option.bind_some, Option.pure_def]
    simp only [List.length_cons, List.length_nil, List.foldl_cons, List.foldl_nil, if_pos]
    have hfirst : 0 * 2 ^ 16 + group ip 112 = ip.toNat / 2 ^ 112 := by
      rw [← shift_group ip 112, Nat.div_eq_of_lt ip.isLt]
    rw [hfirst, shift_group ip 96, shift_group ip 80, shift_group ip 64, shift_group ip 48,
      shift_group ip 32, shift_group ip 16, shift_group ip 0, Nat.pow_zero, Nat.div_one]
    rw [BitVec.ofNat_toNat, BitVec.setWidth_eq]
  mem_display ip c h := by
    have hall : "0123456789abcdef".toList.all Char.isAlphanum := by decide
    rcases Text.mem_intercalate h with rfl | ⟨part, hpart, hc⟩
    · exact Or.inr (Or.inl rfl)
    · exact Or.inl (List.all_eq_true.mp hall c (mem_hexGroups hpart hc))
  length_display ip := by
    show ([':'].intercalate (hexGroups ip)).length ≤ 39
    rfl

end Ipv6Text

inductive IpAddr where
  | v4 (ip : Ipv4Addr)
  | v6 (ip : BitVec 128)
deriving DecidableEq, Repr
