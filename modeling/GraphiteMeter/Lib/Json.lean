import GraphiteMeter.Lib.Text
import Mathlib.Data.List.Nodup
import Mathlib.Tactic.Common

/-!
# JSON values and their compact text

A JSON library is a parameter (`Json.Codec`): how it prints a string, how it reads the string that
starts a text, and the value it finds in a whole text. `Codec.print` is the compact text of a value in
terms of its strings, and `Codec.Reads` says that the library finds a value in its own compact text.

`Json.Plain` are the values in which no object names a member twice; its induction rule is the one for
all that is said of a value by its parts.
-/

inductive Json where
  | null
  | bool (value : Bool)
  | string (text : Text)
  | number (text : Text)
  | array (items : List Json)
  | object (members : List (Text × Json))

namespace Json

/-- A library's strings, and the values of its documents. -/
structure Codec where
  quote : Text → Text
  /-- The string that starts a text, and what follows it. -/
  string : Text → Option (Text × Text)
  /-- The value of a whole text. -/
  value : Text → Option Json
  shorter : ∀ {t s rest : Text}, string t = some (s, rest) → rest.length < t.length

namespace Codec

variable (codec : Codec)

mutual

/-- A value without any space. -/
def print : Json → Text
  | .null => "null".toList
  | .bool value => if value then "true".toList else "false".toList
  | .string text => codec.quote text
  | .number text => text
  | .array items => '[' :: ([','].intercalate (printItems items) ++ [']'])
  | .object members => '{' :: ([','].intercalate (printMembers members) ++ ['}'])

def printItems : List Json → List Text
  | [] => []
  | item :: items => print item :: printItems items

def printMembers : List (Text × Json) → List Text
  | [] => []
  | (name, value) :: members =>
    (codec.quote name ++ ':' :: print value) :: printMembers members

end

/-- Items are printed one by one. -/
theorem printItems_eq (items : List Json) : codec.printItems items = items.map codec.print := by
  induction items with
  | nil => rfl
  | cons item items ih => rw [printItems, ih, List.map_cons]

/-- The library's strings read back, whatever follows them. -/
structure Lawful : Prop where
  head_quote : ∀ s, ∃ rest, codec.quote s = '"' :: rest
  string_quote : ∀ s rest, codec.string (codec.quote s ++ rest) = some (s, rest)

/-- The library finds the value in its compact text. -/
def Reads (v : Json) : Prop := codec.value (codec.print v) = some v

end Codec

/-- Values without numbers, in which no object names a member twice. -/
inductive Plain : Json → Prop
  | null : Plain .null
  | bool (value : Bool) : Plain (.bool value)
  | string (text : Text) : Plain (.string text)
  | array (items : List Json) (h : ∀ item ∈ items, Plain item) : Plain (.array items)
  | object (members : List (Text × Json)) (hnames : (members.map (·.1)).Nodup)
      (h : ∀ member ∈ members, Plain member.2) : Plain (.object members)

/-- A list of texts repeats no member. -/
theorem plain_strings (texts : List Text) : Plain (.array (texts.map .string)) := by
  apply Plain.array
  intro item hitem
  obtain ⟨text, -, rfl⟩ := List.mem_map.mp hitem
  exact .string text

/-! ## Values of a kind -/

def text? : Json → Option Text
  | .string text => some text
  | _ => none

def list? {α : Type*} (read : Json → Option α) : Json → Option (List α)
  | .array items => items.mapM read
  | _ => none

/-- A member of an object by its name, or the default where it is left out. -/
def member {α : Type*} (members : List (Text × Json)) (name : Text) (read : Json → Option α)
    (default : α) : Option α :=
  match members.lookup name with
  | none => some default
  | some value => read value

/-- An item of an array by its place, or the default where the array is shorter. -/
def item {α : Type*} (items : List Json) (place : ℕ) (read : Json → Option α) (default : α) :
    Option α :=
  match items[place]? with
  | none => some default
  | some value => read value

/-- What was printed item by item is read item by item. -/
theorem list?_map {α : Type*} {read : Json → Option α} {write : α → Json} {xs : List α}
    (h : ∀ x ∈ xs, read (write x) = some x) : list? read (.array (xs.map write)) = some xs := by
  show (xs.map write).mapM read = some xs
  induction xs with
  | nil => rfl
  | cons x xs ih =>
    have hrest := ih fun y hy => h y (List.mem_cons_of_mem _ hy)
    rw [List.map_cons, List.mapM_cons, h x List.mem_cons_self, hrest]
    rfl

/-- A list of texts is read back. -/
theorem list?_strings (texts : List Text) :
    list? text? (.array (texts.map .string)) = some texts :=
  list?_map fun _ _ => rfl

/-! ## A codec that computes -/

namespace Codec

def escape (c : Char) : Text := if c = '"' ∨ c = '\\' then ['\\', c] else [c]

/-- The rest of a string behind its opening quote, and what follows it. -/
def unquote : Text → Option (Text × Text)
  | [] => none
  | '"' :: rest => some ([], rest)
  | '\\' :: c :: rest => (unquote rest).map fun (s, rest) => (c :: s, rest)
  | c :: rest => (unquote rest).map fun (s, rest) => (c :: s, rest)

/-- What follows a quoted text is shorter. -/
theorem unquote_shorter {t s rest : Text} (h : unquote t = some (s, rest)) :
    rest.length < t.length := by
  fun_induction unquote t generalizing s rest with
  | case1 => cases h
  | case2 rest' =>
    cases h
    exact Nat.lt_succ_self _
  | case3 c rest' ih =>
    obtain ⟨⟨s', rest''⟩, hrest, heq⟩ := Option.map_eq_some_iff.mp h
    cases heq
    have hlt := ih hrest
    rw [List.length_cons, List.length_cons]
    omega
  | case4 c rest' hquote hslash ih =>
    obtain ⟨⟨s', rest''⟩, hrest, heq⟩ := Option.map_eq_some_iff.mp h
    cases heq
    have hlt := ih hrest
    rw [List.length_cons]
    omega

/-- A character that is not escaped stands for itself. -/
theorem unquote_cons {c : Char} (hquote : c ≠ '"') (hslash : c ≠ '\\') (rest : Text) :
    unquote (c :: rest) = (unquote rest).map fun (s, rest) => (c :: s, rest) := by
  rw [unquote]
  · exact hquote
  · rintro d rest' rfl
    exact absurd rfl hslash

/-- A quoted text is read back. -/
theorem unquote_escape (s rest : Text) :
    unquote (s.flatMap escape ++ '"' :: rest) = some (s, rest) := by
  induction s with
  | nil => rfl
  | cons c s ih =>
    rw [List.flatMap_cons, List.append_assoc, escape]
    by_cases hc : c = '"' ∨ c = '\\'
    · rw [if_pos hc]
      show unquote ('\\' :: c :: (s.flatMap escape ++ '"' :: rest)) = _
      rw [unquote, ih]
      rfl
    · obtain ⟨hquote, hslash⟩ := not_or.mp hc
      rw [if_neg hc, List.singleton_append, unquote_cons hquote hslash, ih]
      rfl

def readString : Text → Option (Text × Text)
  | '"' :: rest => unquote rest
  | _ => none

/-- What `read` finds up to `close`, at least one item, with a comma between two. -/
def readMany {α : Type*} (read : Text → Option (α × Text)) (close : Char) :
    ℕ → Text → Option (List α × Text)
  | 0, _ => none
  | fuel + 1, t =>
    match read t with
    | none => none
    | some (_, []) => none
    | some (x, c :: rest) =>
      if c = close then some ([x], rest)
      else if c = ',' then (readMany read close fuel rest).map fun (xs, rest) => (x :: xs, rest)
      else none

/-- The value that starts a compact text without numbers, as deep as the fuel goes. -/
def readValue : ℕ → Text → Option (Json × Text)
  | 0, _ => none
  | fuel + 1, t =>
    match t with
    | '"' :: rest => (unquote rest).map fun (s, rest) => (.string s, rest)
    | '[' :: ']' :: rest => some (.array [], rest)
    | '[' :: rest =>
      (readMany (readValue fuel) ']' fuel rest).map fun (items, rest) => (.array items, rest)
    | '{' :: '}' :: rest => some (.object [], rest)
    | '{' :: rest =>
      let readMember (t : Text) : Option ((Text × Json) × Text) :=
        match readString t with
        | some (name, ':' :: rest) =>
          (readValue fuel rest).map fun (value, rest) => ((name, value), rest)
        | _ => none
      (readMany readMember '}' fuel rest).map fun (members, rest) => (.object members, rest)
    | 'n' :: 'u' :: 'l' :: 'l' :: rest => some (.null, rest)
    | 't' :: 'r' :: 'u' :: 'e' :: rest => some (.bool true, rest)
    | 'f' :: 'a' :: 'l' :: 's' :: 'e' :: rest => some (.bool false, rest)
    | _ => none

/-- Compact texts without numbers or escapes of control characters. -/
def compact : Codec where
  quote s := '"' :: (s.flatMap escape ++ ['"'])
  string := readString
  value t :=
    match readValue (t.length + 1) t with
    | some (v, []) => some v
    | _ => none
  shorter := by
    intro t s rest h
    unfold readString at h
    split at h
    · exact Nat.lt_succ_of_lt (unquote_shorter h)
    · cases h

/-- **The compact text** is lawful. -/
theorem compact_lawful : compact.Lawful where
  head_quote _ := ⟨_, rfl⟩
  string_quote s rest := by
    show unquote (s.flatMap escape ++ ['"'] ++ rest) = _
    rw [List.append_assoc]
    exact unquote_escape s rest

end Codec

end Json
