import Mathlib.Data.List.Nodup
import GraphiteMeter.Lib.Percent

/-!
# Query parameters and URL-encoded forms

Reference: `rust/server/src/app/query.rs`. The texts are percent-encoded by a library, the parameter
`codec`.
-/

namespace GraphiteMeter.Server.Query

/-! ## Writing -/

/-- Neither alphanumeric nor `-`, `_`, `.` or `~`. -/
def escaped (c : Char) : Bool := !(c.isAlphanum || "-_.~".toList.contains c)

/-- `%20` replaced by `+`. -/
def plusForSpace : Text → Text
  | '%' :: '2' :: '0' :: t => '+' :: plusForSpace t
  | c :: t => c :: plusForSpace t
  | [] => []

/-- Unreserved bytes stay, a space becomes `+`, every other byte is percent-encoded. -/
def escape (codec : Percent.Codec) (text : Text) : Text := plusForSpace (codec.encode escaped text)

def encode (codec : Percent.Codec) (pairs : List (Text × Text)) : Text :=
  ['&'].intercalate (pairs.map fun (name, value) => escape codec name ++ '=' :: escape codec value)

/-! ## Reading -/

/-- Every `%` is followed by two hexadecimal digits. -/
def valid : Text → Bool
  | [] => true
  | '%' :: t =>
    (match t with
      | high :: low :: _ => (Percent.hexValue high).isSome && (Percent.hexValue low).isSome
      | _ => false) && valid t
  | _ :: t => valid t

def decode (codec : Percent.Codec) (text : Text) : Option Text :=
  if valid text then some (codec.decode (text.map fun c => if c = '+' then ' ' else c)) else none

def pair (codec : Percent.Codec) (text : Text) : Option (Text × Text) :=
  if text = [] ∨ ';' ∈ text then none
  else
    let (key, value) := (Text.splitOnce ['='] text).getD (text, [])
    (decode codec key).bind fun key => (decode codec value).map fun value => (key, value)

def values (codec : Percent.Codec) (query : Option Text) (name : Text) : List Text :=
  let pairs := (query.toList.flatMap fun query => query.splitOn '&').filterMap (pair codec)
  (pairs.filter fun e => e.1 = name).map (·.2)

/-- The first value of `name`; pairs holding `;` or a bad escape are left out. -/
def get (codec : Percent.Codec) (query : Option Text) (name : Text) : Option Text :=
  (values codec query name).head?

/-- Reads a form's texts after the fields already read. -/
def formFrom (codec : Percent.Codec) (fields : List (Text × Text)) :
    List Text → Option (List (Text × Text))
  | [] => some fields
  | text :: texts =>
    match pair codec text with
    | none => none
    | some (name, value) =>
      if fields.any fun e => e.1 = name then none
      else formFrom codec (fields ++ [(name, value)]) texts

/-- A URL-encoded form's fields; none when one holds `;` or a bad escape, or a name repeats. -/
def form (codec : Percent.Codec) (body : Text) : Option (List (Text × Text)) :=
  formFrom codec [] ((body.splitOn '&').filter fun text => text ≠ [])

/-! ## What is written -/

/-- A byte of a text as `escape` writes it. -/
def shown (b : UInt8) : Text := if b = 32 then ['+'] else Percent.encodeByte escaped b

/-- What may stand in an escaped text. -/
def Safe (c : Char) : Prop := escaped c = false ∨ c = '%' ∨ c = '+'

/-- Letters and digits are not escaped. -/
theorem escaped_of_alphanum {c : Char} (h : c.isAlphanum) : escaped c = false := by
  rw [escaped, h]
  rfl

/-- A character that is not escaped is none that is. -/
theorem not_escaped_ne {c d : Char} (h : escaped c = false) (hd : escaped d = true) : c ≠ d := by
  rintro rfl
  rw [h] at hd
  cases hd

/-- Hexadecimal digits are not escaped. -/
theorem hexDigit_not_escaped {n : ℕ} (h : n < 16) : escaped (Percent.hexDigit n) = false :=
  escaped_of_alphanum (Percent.hexDigit_spec h).2.1

/-- A character other than the percent sign stands as it is. -/
theorem plusForSpace_cons {c : Char} (h : c ≠ '%') (t : Text) :
    plusForSpace (c :: t) = c :: plusForSpace t :=
  plusForSpace.eq_2 c t fun _ hc => absurd hc h

/-- A byte written, with what follows it, and its spaces turned to `+`. -/
theorem plusForSpace_encodeByte (b : UInt8) (t : Text) :
    plusForSpace (Percent.encodeByte escaped b ++ t) = shown b ++ plusForSpace t := by
  rw [shown, Percent.encodeByte]
  by_cases hspace : b = 32
  · subst hspace
    rfl
  · rw [if_neg hspace]
    split_ifs with hkept
    · exact plusForSpace_cons (not_escaped_ne hkept.2 rfl) t
    · have hb : b.toNat < 256 := UInt8.toNat_lt b
      have hhigh : b.toNat / 16 < 16 := by omega
      have hlow : b.toNat % 16 < 16 := by omega
      -- the two digits are not those of a space
      have hdigits : ¬(Percent.hexDigit (b.toNat / 16) = '2' ∧ Percent.hexDigit (b.toNat % 16) = '0') := by
        rw [(Percent.hexDigit_spec hhigh).2.2.2, (Percent.hexDigit_spec hlow).2.2.1]
        intro h
        exact hspace (UInt8.toNat_inj.mp (show b.toNat = 32 by omega))
      show plusForSpace ('%' :: _ :: _ :: t) = '%' :: _ :: _ :: plusForSpace t
      rw [plusForSpace.eq_2 _ _ fun t' _ heq => hdigits (by
          have h := List.cons.inj heq
          exact ⟨h.1, (List.cons.inj h.2).1⟩),
        plusForSpace_cons (not_escaped_ne (hexDigit_not_escaped hhigh) rfl),
        plusForSpace_cons (not_escaped_ne (hexDigit_not_escaped hlow) rfl)]

/-- Escaping shows each byte by itself. -/
theorem escape_eq (codec : Percent.Codec) (text : Text) :
    escape codec text = (Percent.utf8 text).flatMap shown := by
  rw [escape, codec.encode_eq]
  induction Percent.utf8 text with
  | nil => rfl
  | cons b bytes ih => rw [List.flatMap_cons, plusForSpace_encodeByte, ih, List.flatMap_cons]

/-- What is shown of a byte is safe in a query. -/
theorem safe_of_mem_shown {b : UInt8} {c : Char} (h : c ∈ shown b) : Safe c := by
  have hb : b.toNat < 256 := UInt8.toNat_lt b
  rw [shown] at h
  split_ifs at h
  · exact .inr (.inr (List.mem_singleton.mp h))
  · rw [Percent.encodeByte] at h
    split_ifs at h with hkept
    · rw [List.mem_singleton.mp h]
      exact .inl hkept.2
    · simp only [Percent.escape, List.mem_cons, List.not_mem_nil, or_false] at h
      rcases h with rfl | rfl | rfl
      · exact .inr (.inl rfl)
      · exact .inl (hexDigit_not_escaped (by omega))
      · exact .inl (hexDigit_not_escaped (by omega))

/-- **No separator** stands in an escaped text. -/
theorem not_mem_escape (codec : Percent.Codec) (text : Text) {c : Char} (h : ¬Safe c) :
    c ∉ escape codec text := by
  intro hmem
  rw [escape_eq] at hmem
  obtain ⟨b, -, hb⟩ := List.mem_flatMap.mp hmem
  exact h (safe_of_mem_shown hb)

/-! ## What is read back -/

/-- A character other than the percent sign is valid by itself. -/
theorem valid_cons {c : Char} (h : c ≠ '%') (t : Text) : valid (c :: t) = valid t :=
  valid.eq_4 c t fun hc => absurd hc h

/-- What is shown of a byte is valid. -/
theorem valid_shown (b : UInt8) (t : Text) : valid (shown b ++ t) = valid t := by
  have hb : b.toNat < 256 := UInt8.toNat_lt b
  rw [shown]
  split_ifs
  · exact valid_cons (by decide) t
  · rw [Percent.encodeByte]
    split_ifs with hkept
    · exact valid_cons (not_escaped_ne hkept.2 rfl) t
    · have hhigh : b.toNat / 16 < 16 := by omega
      have hlow : b.toNat % 16 < 16 := by omega
      show valid ('%' :: Percent.hexDigit _ :: Percent.hexDigit _ :: t) = valid t
      rw [valid, (Percent.hexDigit_spec hhigh).1, (Percent.hexDigit_spec hlow).1,
        valid_cons (not_escaped_ne (hexDigit_not_escaped hhigh) rfl),
        valid_cons (not_escaped_ne (hexDigit_not_escaped hlow) rfl)]
      rfl

/-- An ASCII character has its own number. -/
theorem toNat_ofNat {n : ℕ} (h : n < 128) : (Char.ofNat n).toNat = n := by
  have hvalid : n.isValidChar := Or.inl (by omega)
  rw [Char.ofNat, dif_pos hvalid]
  rfl

/-- A byte as it is read back. -/
def piece (b : UInt8) : Percent.Piece :=
  if h : b.toNat < 128 ∧ (b = 32 ∨ escaped (Char.ofNat b.toNat) = false) then
    .plain (Char.ofNat b.toNat) (by rw [toNat_ofNat h.1]; exact h.1) <| by
      rcases h.2 with rfl | hkept
      · decide
      · exact not_escaped_ne hkept rfl
  else .escape b

/-- A shown byte is read as itself. -/
theorem piece_byte (b : UInt8) : (piece b).byte = b := by
  rw [piece]
  split_ifs with h
  · show UInt8.ofNat (Char.ofNat b.toNat).toNat = b
    rw [toNat_ofNat h.1, UInt8.ofNat_toNat]
  · rfl

/-- A plus sign in what is shown stands for a space. -/
theorem map_shown (b : UInt8) :
    (shown b).map (fun c => if c = '+' then ' ' else c) = (piece b).text := by
  by_cases hspace : b = 32
  · subst hspace
    rfl
  · have hb : b.toNat < 256 := UInt8.toNat_lt b
    rw [shown, if_neg hspace, Percent.encodeByte, piece]
    by_cases hkept : b.toNat < 128 ∧ escaped (Char.ofNat b.toNat) = false
    · rw [if_pos hkept, dif_pos ⟨hkept.1, .inr hkept.2⟩, List.map_singleton,
        if_neg (not_escaped_ne hkept.2 rfl)]
      rfl
    · rw [if_neg hkept, dif_neg fun h => hkept ⟨h.1, h.2.resolve_left hspace⟩]
      simp only [Percent.escape, List.map_cons, List.map_nil, Percent.Piece.text,
        if_neg (by decide : '%' ≠ '+'),
        if_neg (not_escaped_ne (hexDigit_not_escaped (by omega : b.toNat / 16 < 16)) rfl : _ ≠ '+'),
        if_neg (not_escaped_ne (hexDigit_not_escaped (by omega : b.toNat % 16 < 16)) rfl : _ ≠ '+')]

/-- **A text is read back** as it was escaped, whatever is in it. -/
theorem decode_escape (codec : Percent.Codec) (text : Text) :
    decode codec (escape codec text) = some text := by
  have hvalid : ∀ bytes : List UInt8, valid (bytes.flatMap shown) = true := by
    intro bytes
    induction bytes with
    | nil => rfl
    | cons b bytes ih => rw [List.flatMap_cons, valid_shown, ih]
  have hmap : ((Percent.utf8 text).flatMap shown).map (fun c => if c = '+' then ' ' else c)
      = ((Percent.utf8 text).map piece).flatMap Percent.Piece.text := by
    rw [List.map_flatMap, List.flatMap_map]
    exact List.flatMap_congr fun b _ => map_shown b
  rw [decode, escape_eq, if_pos (hvalid _), hmap]
  refine congrArg some (codec.decode_pieces _ _ ?_)
  rw [List.map_map]
  exact (List.map_congr_left fun b _ => piece_byte b).trans (List.map_id _)

/-- A pair as it is written. -/
def pairText (codec : Percent.Codec) (e : Text × Text) : Text :=
  escape codec e.1 ++ '=' :: escape codec e.2

/-- **A pair** is read back from its text. -/
theorem pair_pairText (codec : Percent.Codec) (e : Text × Text) :
    pair codec (pairText codec e) = some e := by
  have hunsafe : ¬Safe '=' ∧ ¬Safe ';' := by
    constructor <;> rw [Safe] <;> decide
  have hsemicolon : ';' ∉ pairText codec e := by
    rw [pairText, List.mem_append, List.mem_cons]
    rintro (h | h | h)
    · exact not_mem_escape codec _ hunsafe.2 h
    · cases h
    · exact not_mem_escape codec _ hunsafe.2 h
  have hne : pairText codec e ≠ [] := fun h => nomatch (List.append_eq_nil_iff.mp h).2
  have hsplit : Text.splitOnce ['='] (pairText codec e) = some (escape codec e.1, escape codec e.2) := by
    rw [pairText, List.append_cons]
    exact Text.splitOnce_append (not_mem_escape codec _ hunsafe.1)
  rw [pair, if_neg (not_or.mpr ⟨hne, hsemicolon⟩), hsplit]
  simp only [Option.getD_some, decode_escape, Option.bind_some, Option.map_some]

/-- The pairs are found one by one; without a pair there is an empty text. -/
theorem splitOn_encode (codec : Percent.Codec) (pairs : List (Text × Text)) :
    (encode codec pairs).splitOn '&' = if pairs = [] then [[]] else pairs.map (pairText codec) := by
  by_cases hnil : pairs = []
  · subst hnil
    rfl
  · have hunsafe : ¬Safe '&' := by
      rw [Safe]
      decide
    rw [if_neg hnil]
    refine List.splitOn_intercalate '&' (fun text htext => ?_) (by simpa using hnil)
    obtain ⟨e, -, rfl⟩ := List.mem_map.mp htext
    show '&' ∉ pairText codec e
    rw [pairText, List.mem_append, List.mem_cons]
    rintro (h | h | h)
    · exact not_mem_escape codec _ hunsafe h
    · cases h
    · exact not_mem_escape codec _ hunsafe h

/-- A form's texts give their pairs, when their names are new. -/
theorem formFrom_pairText (codec : Percent.Codec) (fields : List (Text × Text))
    {pairs : List (Text × Text)}
    (h : ((fields ++ pairs).map (·.1)).Nodup) :
    formFrom codec fields (pairs.map (pairText codec)) = some (fields ++ pairs) := by
  induction pairs generalizing fields with
  | nil => rw [List.append_nil]; rfl
  | cons e pairs ih =>
    have hnew : fields.any (fun known => known.1 = e.1) = false := by
      rw [List.any_eq_false]
      intro known hknown
      rw [decide_eq_true_eq]
      rw [List.map_append, List.nodup_append] at h
      exact h.2.2 known.1 (List.mem_map_of_mem hknown) e.1 List.mem_cons_self
    rw [List.append_cons] at h ⊢
    rw [List.map_cons, formFrom, pair_pairText]
    simp only [hnew, Bool.false_eq_true, if_false]
    exact ih _ h

/-- Of pairs with distinct names, one has the name. -/
theorem filter_name {pairs : List (Text × Text)} (h : (pairs.map (·.1)).Nodup) {e : Text × Text}
    (he : e ∈ pairs) : pairs.filter (fun other => other.1 = e.1) = [e] := by
  induction pairs with
  | nil => cases he
  | cons head pairs ih =>
    obtain ⟨hhead, hpairs⟩ := List.nodup_cons.mp h
    rcases List.mem_cons.mp he with rfl | he
    · have hnone : pairs.filter (fun other => other.1 = e.1) = [] := by
        rw [List.filter_eq_nil_iff]
        intro other hother
        rw [decide_eq_true_eq]
        exact fun heq => hhead (List.mem_map.mpr ⟨other, hother, heq⟩)
      rw [List.filter_cons_of_pos (by simp), hnone]
    · have hne : head.1 ≠ e.1 := fun heq => hhead (List.mem_map.mpr ⟨e, he, heq.symm⟩)
      rw [List.filter_cons_of_neg (by simpa using hne), ih hpairs he]

/-- **What is encoded is read back**: as a form, and value by value. -/
theorem encode_read (codec : Percent.Codec) {pairs : List (Text × Text)}
    (h : (pairs.map (·.1)).Nodup) :
    form codec (encode codec pairs) = some pairs ∧
      ∀ name value, (name, value) ∈ pairs →
        get codec (some (encode codec pairs)) name = some value := by
  constructor
  · rw [form, splitOn_encode]
    split_ifs with hnil
    · rw [hnil]
      rfl
    · have hall : (pairs.map (pairText codec)).filter (fun text => text ≠ [])
          = pairs.map (pairText codec) := by
        rw [List.filter_eq_self]
        intro text htext
        obtain ⟨e, -, rfl⟩ := List.mem_map.mp htext
        exact decide_eq_true fun h => nomatch (List.append_eq_nil_iff.mp h).2
      rw [hall]
      exact formFrom_pairText codec [] h
  · intro name value hmem
    have hread : (pairs.map (pairText codec)).filterMap (pair codec) = pairs := by
      rw [List.filterMap_map]
      exact (List.filterMap_congr fun e _ => pair_pairText codec e).trans List.filterMap_some
    rw [get, values, Option.toList_some, List.flatMap_singleton, splitOn_encode,
      if_neg (List.ne_nil_of_mem hmem), hread, filter_name h hmem]
    rfl

/-- Two fields with separators, a plus and a space in them. -/
def twoFields : List (Text × Text) :=
  [("a=&".toList, "1+1 = 2;".toList), ([], "100%".toList)]

/-- Two fields, with a sign of each kind in them. -/
theorem encode_read_two : (twoFields.map (·.1)).Nodup ∧
    form .plain (encode .plain twoFields) = some twoFields ∧
    get .plain (some (encode .plain twoFields)) "a=&".toList = some "1+1 = 2;".toList :=
  have hnodup : (twoFields.map (·.1)).Nodup := by decide
  have h := encode_read .plain hnodup
  ⟨hnodup, h.1, h.2 _ _ (by decide)⟩

end GraphiteMeter.Server.Query
