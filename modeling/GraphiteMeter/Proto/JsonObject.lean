import GraphiteMeter.Lib.Json

/-!
# Strict JSON objects

Reference: `rust/proto/src/json.rs`. `check` scans a text for member names that stand twice in one
object, which the JSON library would take. A printed value leaves the scan where it was, with the same
containers open (`scan_print`), so a document this side prints passes it (`check_print`).
-/

namespace GraphiteMeter.Proto.JsonObject

/-- White space in Unicode. -/
def isWhitespace (c : Char) : Bool :=
  let n := c.toNat
  9 ≤ n ∧ n ≤ 13 ∨ n = 0x20 ∨ n = 0x85 ∨ n = 0xa0 ∨ n = 0x1680 ∨ 0x2000 ≤ n ∧ n ≤ 0x200a ∨
    n = 0x2028 ∨ n = 0x2029 ∨ n = 0x202f ∨ n = 0x205f ∨ n = 0x3000

/-- The open containers, the innermost first: an object's member names, or `none` for an array. -/
abbrev Open := List (Option (List Text))

/-- Whether the innermost container is an object. -/
def inObject : Open → Bool
  | some _ :: _ => true
  | _ => false

section

variable (codec : Json.Codec)

/-- Whether no object in the text names a member twice. `nameNext` is whether the next string is a
name. -/
def scan (opened : Open) (nameNext : Bool) (text : Text) : Bool :=
  match text with
  | [] => true
  | c :: rest =>
    if c = '{' then scan (some [] :: opened) true rest
    else if c = '[' then scan (none :: opened) nameNext rest
    else if c = '}' ∨ c = ']' then scan opened.tail nameNext rest
    else if c = ',' then scan opened (inObject opened) rest
    else if c = '"' then
      match _hread : codec.string (c :: rest) with
      | none => false
      | some (string, rest') =>
        match nameNext, opened with
        | true, some names :: outer =>
          if string ∈ names then false else scan (some (string :: names) :: outer) false rest'
        | _, _ => scan opened false rest'
    else scan opened nameNext rest
termination_by text.length
decreasing_by
  all_goals first
    | exact codec.shorter _hread
    | exact Nat.lt_succ_self _

/-- Whether the text is an object, in which no object names a member twice. -/
def check (text : Text) : Bool :=
  (text.dropWhile isWhitespace).head? = some '{' ∧ scan codec [] false text

/-- Decodes a JSON object, refusing invalid UTF-8, bad escapes and repeated names at any depth. -/
def decode {α : Type} (read : Json → Option α) (data : ByteArray) : Option α := do
  let text ← data.utf8Decode?
  if check codec text.toList then (codec.value text.toList).bind read else none

/-! ## What the scan makes of a printed value -/

/-- A text without a character the scan knows. -/
def inert (text : Text) : Bool := text.all fun c => c ∉ ['{', '[', '}', ']', ',', '"']

variable {codec} {opened : Open} {nameNext : Bool}

/-- Text without a structural character is passed over. -/
theorem scan_inert {text : Text} (h : inert text = true) (rest : Text) :
    scan codec opened nameNext (text ++ rest) = scan codec opened nameNext rest := by
  induction text with
  | nil => rfl
  | cons c text ih =>
    rw [inert, List.all_cons, Bool.and_eq_true, decide_eq_true_eq] at h
    obtain ⟨hc, htext⟩ := h
    simp only [List.mem_cons, List.not_mem_nil, or_false, not_or] at hc
    obtain ⟨h1, h2, h3, h4, h5, h6⟩ := hc
    rw [List.cons_append, scan, if_neg h1, if_neg h2, if_neg (not_or.mpr ⟨h3, h4⟩), if_neg h5,
      if_neg h6]
    exact ih htext

/-- Inside an object a name follows a comma. -/
theorem scan_comma (rest : Text) :
    scan codec opened nameNext (',' :: rest) = scan codec opened (inObject opened) rest := by
  rw [scan, if_neg (by decide), if_neg (by decide), if_neg (by decide), if_pos rfl]

/-- A string that is no name. -/
theorem scan_value (hcodec : codec.Lawful) (s rest : Text) :
    scan codec opened false (codec.quote s ++ rest) = scan codec opened false rest := by
  have hread := hcodec.string_quote s rest
  obtain ⟨quoted, hquote⟩ := hcodec.head_quote s
  rw [hquote, List.cons_append] at hread ⊢
  rw [scan, if_neg (by decide), if_neg (by decide), if_neg (by decide), if_neg (by decide),
    if_pos rfl]
  split
  · rename_i hnone
    rw [hread] at hnone
    cases hnone
  · rename_i string rest' hsome
    rw [hread] at hsome
    cases hsome
    rfl

/-- A name that is new to its object. -/
theorem scan_name (hcodec : codec.Lawful) {names : List Text} {name : Text} (hnew : name ∉ names)
    (rest : Text) :
    scan codec (some names :: opened) true (codec.quote name ++ rest) =
      scan codec (some (name :: names) :: opened) false rest := by
  have hread := hcodec.string_quote name rest
  obtain ⟨quoted, hquote⟩ := hcodec.head_quote name
  rw [hquote, List.cons_append] at hread ⊢
  rw [scan, if_neg (by decide), if_neg (by decide), if_neg (by decide), if_neg (by decide),
    if_pos rfl]
  split
  · rename_i hnone
    rw [hread] at hnone
    cases hnone
  · rename_i string rest' hsome
    rw [hread] at hsome
    cases hsome
    exact if_neg hnew

/-- A text the scan passes as a value: the same containers are open behind it. -/
def Passes (codec : Json.Codec) (text : Text) : Prop :=
  ∀ (opened : Open) (rest : Text), ∃ nameNext,
    scan codec opened false (text ++ rest) = scan codec opened nameNext rest

/-- Text without a structural character passes. -/
theorem passes_inert {text : Text} (h : inert text = true) : Passes codec text :=
  fun _ rest => ⟨false, scan_inert h rest⟩

/-- The items of an array, with commas between them. -/
theorem scan_items {texts : List Text} (h : ∀ text ∈ texts, Passes codec text) (opened : Open)
    (rest : Text) :
    ∃ nameNext, scan codec (none :: opened) false ([','].intercalate texts ++ rest) =
      scan codec (none :: opened) nameNext rest := by
  induction texts with
  | nil => exact ⟨false, rfl⟩
  | cons text texts ih =>
    have hfirst := h text List.mem_cons_self
    cases texts with
    | nil =>
      rw [List.intercalate_singleton]
      exact hfirst (none :: opened) rest
    | cons next texts =>
      obtain ⟨nameNext, hrest⟩ := ih fun t ht => h t (List.mem_cons_of_mem _ ht)
      rw [List.intercalate_cons_cons, List.append_assoc, List.append_assoc, List.singleton_append]
      obtain ⟨b, hone⟩ := hfirst (none :: opened)
        (',' :: ([','].intercalate (next :: texts) ++ rest))
      rw [hone, scan_comma]
      exact ⟨nameNext, hrest⟩

/-- The members of an object, whose names are distinct and new to it. -/
theorem scan_members (hcodec : codec.Lawful) {members : List (Text × Json)}
    (hnames : (members.map (·.1)).Nodup) (h : ∀ member ∈ members, Passes codec (codec.print member.2))
    (opened : Open) {names : List Text} (hnew : ∀ member ∈ members, member.1 ∉ names)
    (rest : Text) :
    ∃ names' nameNext,
      scan codec (some names :: opened) true
          ([','].intercalate (codec.printMembers members) ++ rest) =
        scan codec (some names' :: opened) nameNext rest := by
  induction members generalizing names with
  | nil => exact ⟨names, true, rfl⟩
  | cons member members ih =>
    obtain ⟨name, value⟩ := member
    rw [List.map_cons, List.nodup_cons] at hnames
    obtain ⟨hfresh, hnames⟩ := hnames
    -- the name is taken, then its value passes
    have hone : ∀ rest, ∃ b, scan codec (some names :: opened) true
        (codec.quote name ++ ':' :: codec.print value ++ rest) =
          scan codec (some (name :: names) :: opened) b rest := by
      intro rest
      have hcolon : inert [':'] = true := by decide
      obtain ⟨b, hvalue⟩ := h (name, value) List.mem_cons_self (some (name :: names) :: opened) rest
      refine ⟨b, ?_⟩
      rw [List.append_assoc, scan_name hcodec (hnew _ List.mem_cons_self)]
      exact (scan_inert hcolon _).trans hvalue
    rw [Json.Codec.printMembers]
    cases members with
    | nil =>
      rw [Json.Codec.printMembers, List.intercalate_singleton]
      obtain ⟨b, hlast⟩ := hone rest
      exact ⟨name :: names, b, hlast⟩
    | cons next members =>
      have hlater : ∀ member ∈ next :: members, member.1 ∉ name :: names := by
        intro member hmem hin
        rcases List.mem_cons.mp hin with heq | hin
        · have hnamed : member.1 ∈ (next :: members).map (·.1) := List.mem_map_of_mem hmem
          exact hfresh (heq ▸ hnamed)
        · exact hnew member (List.mem_cons_of_mem _ hmem) hin
      obtain ⟨names', nameNext, hrest⟩ :=
        ih hnames (fun m hm => h m (List.mem_cons_of_mem _ hm)) hlater
      have hsome : ∃ text texts, codec.printMembers (next :: members) = text :: texts :=
        ⟨_, _, rfl⟩
      obtain ⟨text, texts, htexts⟩ := hsome
      rw [htexts] at hrest ⊢
      rw [List.intercalate_cons_cons, List.append_assoc _ _ rest, List.append_assoc _ [','],
        List.singleton_append]
      obtain ⟨b, hfirst⟩ := hone (',' :: ([','].intercalate (text :: texts) ++ rest))
      rw [hfirst, scan_comma]
      exact ⟨names', nameNext, hrest⟩

/-- **A printed value passes the scan**, which goes on in the containers that were open before it. -/
theorem scan_print (hcodec : codec.Lawful) {v : Json} (h : v.Plain) :
    Passes codec (codec.print v) := by
  induction h with
  | null =>
    apply passes_inert
    rw [Json.Codec.print]
    decide
  | bool value =>
    apply passes_inert
    rw [Json.Codec.print]
    cases value <;> decide
  | string text =>
    intro opened rest
    rw [Json.Codec.print]
    exact ⟨false, scan_value hcodec text rest⟩
  | array items _ ih =>
    intro opened rest
    have hitems : ∀ text ∈ codec.printItems items, Passes codec text := by
      intro text htext
      rw [Json.Codec.printItems_eq] at htext
      obtain ⟨item, hitem, rfl⟩ := List.mem_map.mp htext
      exact ih item hitem
    obtain ⟨nameNext, hscan⟩ := scan_items hitems opened (']' :: rest)
    refine ⟨nameNext, ?_⟩
    rw [Json.Codec.print, List.cons_append, List.append_assoc, List.singleton_append, scan,
      if_neg (by decide), if_pos rfl, hscan, scan, if_neg (by decide), if_neg (by decide),
      if_pos (.inr rfl)]
    rfl
  | object members hnames _ ih =>
    intro opened rest
    obtain ⟨names, nameNext, hscan⟩ := scan_members hcodec hnames ih opened
      (fun _ _ => List.not_mem_nil) ('}' :: rest)
    refine ⟨nameNext, ?_⟩
    rw [Json.Codec.print, List.cons_append, List.append_assoc, List.singleton_append, scan,
      if_pos rfl, hscan, scan, if_neg (by decide), if_neg (by decide), if_pos (.inl rfl)]
    rfl

/-- **What this side prints is a strict object**, so the check lets it through. -/
theorem check_print (hcodec : codec.Lawful) {members : List (Text × Json)}
    (h : (Json.object members).Plain) : check codec (codec.print (.object members)) = true := by
  obtain ⟨nameNext, hscan⟩ := scan_print hcodec h [] []
  rw [List.append_nil] at hscan
  unfold check
  rw [hscan, scan, Json.Codec.print]
  rfl

/-- A printed object decodes to what its value is read as. -/
theorem decode_print (hcodec : codec.Lawful) {members : List (Text × Json)}
    (h : (Json.object members).Plain) (hreads : codec.Reads (.object members)) {α : Type}
    (read : Json → Option α) :
    decode codec read (codec.print (.object members)).utf8Encode = read (.object members) := by
  have hcheck := check_print hcodec h
  have hvalue : codec.value (codec.print (.object members)) = some (.object members) := hreads
  unfold decode
  rw [List.utf8Decode?_utf8Encode]
  simp only [Option.bind_eq_bind, Option.bind_some, hcheck, if_true, hvalue]

end

end GraphiteMeter.Proto.JsonObject
