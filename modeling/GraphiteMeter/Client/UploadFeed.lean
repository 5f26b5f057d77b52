import Mathlib.Data.List.TakeWhile
import GraphiteMeter.Http3.Varint
import GraphiteMeter.Lib.LineReader
import GraphiteMeter.Proto.Counters

/-!
# Reading an upload's feed

Reference: `rust/client/src/run/upload.rs` (`read`, `apply`), `rust/proto/src/upload.rs`
(`MAX_RECORD_BYTES`) and `client/src/engine/lanes/records.ts` (`parse`, `readRecords`).

Both clients read the receiver's records line by line from what arrives in chunks, and refuse a line
of more than 64 Ki: bytes in Rust, UTF-16 units in the browser. `decode` is the record a line holds,
if it holds one, and `φ` what a source fails with.

Rust counts a line's newline where it stands in the chunk that is taken, so that a finished line may
hold one byte less than an unfinished one, and than either in the browser.
-/

namespace GraphiteMeter.Client.UploadFeed

open Http3 (Bytes)
open LineReader (Flow Stop cut readLines readAll Clear)
open Proto (Counters)

inductive Record where
  /-- The feed is attached; this proves no delivery. -/
  | ready
  | progress (counters : Counters)
  /-- The final observation, after finalization and lane drain. -/
  | complete (counters : Counters)
  | error (message code : String)
deriving DecidableEq, Repr

def newline : UInt8 := 10

def maxRecordBytes : ℕ := 64 * 1024

/-! ## The Rust client -/

structure Progress where
  ready : Bool
  latest : Option Counters
  complete : Bool
deriving DecidableEq, Repr

inductive Fault (φ : Type) where
  | lost
  /-- The source failed, or gave nothing in time. -/
  | source (fault : φ)
  | malformed (text : String)
  /-- What an `error` record's code means. -/
  | error (code : String)

/-- Applies a record; true once `complete` arrived. A regressing observation is stale and ignored. -/
def apply {φ : Type} (p : Progress) : Record → Progress × Except (Fault φ) Bool
  | .ready => ({ p with ready := true }, .ok false)
  | .progress counters => observe counters false
  | .complete counters => observe counters true
  | .error _ code => (p, .error (.error code))
where
  observe (counters : Counters) (complete : Bool) : Progress × Except (Fault φ) Bool :=
    let fresh := p.latest.all fun latest => counters.follows latest
    (if fresh then { p with latest := some counters, complete } else p, .ok (fresh && complete))

/-- What a read leaves: the progress, whether a record moved it, and the records applied. -/
structure Reading where
  progress : Progress
  moved : Bool
  applied : List Record
deriving DecidableEq, Repr

section Rust

variable {φ : Type} (decode : Bytes → Option Record)

/-- A finished line. -/
def process (s : Reading) (line : Bytes) : Reading × Option (Except (Fault φ) Unit) :=
  match decode line with
  | none => (s, none)
  | some record =>
    let read (p : Progress) : Reading := ⟨p, true, s.applied ++ [record]⟩
    match apply s.progress record with
    | (p, .ok true) => (read p, some (.ok ()))
    | (p, .ok false) => (read p, none)
    | (p, .error fault) => (read p, some (.error fault))

/-- What follows a separator is shorter than the whole. -/
theorem length_of_dropWhile {α : Type*} {p : α → Bool} {xs rest : List α} {a : α}
    (h : xs.dropWhile p = a :: rest) : rest.length < xs.length := by
  have := (List.dropWhile_sublist p (l := xs)).length_le
  rw [h, List.length_cons] at this
  omega

/-- Takes a chunk's lines; `line` is what stands before it, and `n` lines were read. -/
def readChunk (line : Bytes) (s : Reading) (n : ℕ) (chunk : Bytes) :
    Flow UInt8 Reading (Except (Fault φ) Unit) :=
  if chunk = [] then .more line s n
  else
    let before := chunk.takeWhile (· ≠ newline)
    match _h : chunk.dropWhile (· ≠ newline) with
    | [] =>
      if maxRecordBytes < line.length + before.length then .stop .oversized s n
      else .more (line ++ before) s n
    | b :: rest =>
      let taken := before ++ [b]
      if maxRecordBytes < line.length + taken.length then .stop .oversized s n
      else
        match process decode s (line ++ taken).dropLast with
        | (s, some result) => .stop (.ended result) s (n + 1)
        | (s, none) => readChunk [] s (n + 1) rest
termination_by chunk.length
decreasing_by exact length_of_dropWhile _h

/-- What a read ends with, the lines it read counted. A feed that just ends was lost. -/
def finish (ending : Option φ) :
    Flow UInt8 Reading (Except (Fault φ) Unit) → Except (Fault φ) Unit × Reading × ℕ
  | .more _ s n => (.error ((ending.map Fault.source).getD .lost), s, n)
  | .stop .oversized s n => (.error (.malformed "upload progress record exceeds 64 KiB"), s, n)
  | .stop (.ended result) s n => (result, s, n)

/-- How far the chunks are read. -/
def readChunks (progress : Progress) (chunks : List Bytes) :
    Flow UInt8 Reading (Except (Fault φ) Unit) :=
  readAll (readChunk decode) [] ⟨progress, false, []⟩ 0 chunks

/-- Records from the chunks until `complete`. -/
def read (progress : Progress) (chunks : List Bytes) (ending : Option φ) :
    Except (Fault φ) Unit × Reading × ℕ :=
  finish ending (readChunks decode progress chunks)

end Rust

/-! ## The browser -/

def maxRecord : ℕ := 64 * 1024

/-- What `readRecords` throws. -/
inductive Thrown (φ : Type) where
  | oversized
  | source (fault : φ)

section Browser

variable {φ : Type} (decode : List ℕ → Option Record)

/-- Emits a finished line's observation; a terminal record ends the feed. -/
def emit (emitted : List Record) (line : List ℕ) : List Record × Option Record :=
  match decode line with
  | none => (emitted, none)
  | some (.error message code) => (emitted, some (.error message code))
  | some (.complete counters) => (emitted ++ [.complete counters], some (.complete counters))
  | some record => (emitted ++ [record], none)

/-- Takes the lines of a piece of text; what is left before it holds no newline. -/
def readPiece (left : List ℕ) (emitted : List Record) (n : ℕ) (text : List ℕ) :
    Flow ℕ (List Record) Record :=
  match _h : text.dropWhile (· ≠ newline.toNat) with
  | [] =>
    let left := left ++ text
    if maxRecord < left.length then .stop .oversized emitted n else .more left emitted n
  | _ :: rest =>
    let line := left ++ text.takeWhile (· ≠ newline.toNat)
    if maxRecord < line.length then .stop .oversized emitted n
    else
      match emit decode emitted line with
      | (emitted, some record) => .stop (.ended record) emitted (n + 1)
      | (emitted, none) => readPiece [] emitted (n + 1) rest
termination_by text.length
decreasing_by exact length_of_dropWhile _h

/-- What the reader resolves or rejects with, with what it emitted and the lines it read. -/
def resolve (ending : Option φ) :
    Flow ℕ (List Record) Record → Except (Thrown φ) (Option Record) × List Record × ℕ
  | .more _ emitted n =>
    (match ending with
      | none => .ok none
      | some fault => .error (.source fault), emitted, n)
  | .stop .oversized emitted n => (.error .oversized, emitted, n)
  | .stop (.ended record) emitted n => (.ok (some record), emitted, n)

/-- How far the decoded text is read. -/
def readPieces (pieces : List (List ℕ)) : Flow ℕ (List Record) Record :=
  readAll (readPiece decode) [] [] 0 pieces

/-- Emits each observation of the decoded text and gives its terminal record, if there is one. -/
def readRecords (pieces : List (List ℕ)) (ending : Option φ) :
    Except (Thrown φ) (Option Record) × List Record × ℕ :=
  resolve ending (readPieces decode pieces)

end Browser

/-- ASCII bytes as a text decoder gives them, whichever chunks they come in. -/
def units (chunk : Bytes) : List ℕ := chunk.map UInt8.toNat

/-! ## Both read by lines -/

/-- What comes before the first separator has none. -/
theorem notMem_takeWhile {α : Type*} [DecidableEq α] (sep : α) (xs : List α) :
    sep ∉ xs.takeWhile (· ≠ sep) := fun h => by
  simpa using List.mem_takeWhile_imp h

/-- A list is cut at its first separator. -/
theorem dropWhile_eq_cons {α : Type*} [DecidableEq α] {sep : α} {xs rest : List α} {a : α}
    (h : xs.dropWhile (· ≠ sep) = a :: rest) :
    a = sep ∧ xs = xs.takeWhile (· ≠ sep) ++ sep :: rest := by
  have ha : a = sep := by
    have := List.head_dropWhile_not (· ≠ sep) (l := xs) (by rw [h]; exact List.cons_ne_nil _ _)
    simp only [h, List.head_cons] at this
    simpa using this
  refine ⟨ha, ?_⟩
  conv_lhs => rw [← List.takeWhile_append_dropWhile (p := (· ≠ sep)) (l := xs), h, ha]

variable {φ : Type}

/-- A chunk is read as its lines are, with room for the newline. -/
theorem readChunk_eq (decode : Bytes → Option Record) {line : Bytes} {s : Reading} {n : ℕ}
    {chunk : Bytes} (h : line.length ≤ maxRecordBytes) :
    readChunk (φ := φ) decode line s n chunk = readLines (process decode) (maxRecordBytes - 1)
      maxRecordBytes s n (cut newline line chunk).1 (cut newline line chunk).2 := by
  induction hlen : chunk.length using Nat.strong_induction_on generalizing line s n chunk with
  | _ length ih =>
    rw [readChunk]
    by_cases hnil : chunk = []
    · rw [if_pos hnil, hnil, cut, readLines, if_neg (not_lt.mpr h)]
    rw [if_neg hnil]
    split
    next hdrop =>
      have hall : chunk.takeWhile (· ≠ newline) = chunk := by
        conv_rhs => rw [← List.takeWhile_append_dropWhile (p := (· ≠ newline)) (l := chunk), hdrop]
        exact (List.append_nil _).symm
      have hnotMem : newline ∉ chunk := hall ▸ notMem_takeWhile newline chunk
      rw [LineReader.cut_of_notMem newline hnotMem, readLines, hall, List.length_append]
    next b rest hdrop =>
      obtain ⟨rfl, hchunk⟩ := dropWhile_eq_cons hdrop
      have hcut := LineReader.cut_line newline (notMem_takeWhile newline chunk) line rest
      rw [← hchunk] at hcut
      -- with its newline within the bound, a line is a byte shorter than the bound
      have hbound : maxRecordBytes < line.length + (chunk.takeWhile (· ≠ newline) ++ [newline]).length
          ↔ maxRecordBytes - 1 < (line ++ chunk.takeWhile (· ≠ newline)).length := by
        rw [List.length_append, List.length_append, List.length_singleton]
        have : 0 < maxRecordBytes := by decide
        omega
      rw [hcut, readLines]
      simp only [hbound, ← List.append_assoc, List.dropLast_concat]
      split_ifs
      · rfl
      · rcases process (φ := φ) decode s (line ++ chunk.takeWhile (· ≠ newline)) with
          ⟨s, _ | result⟩
        · exact ih _ (hlen ▸ length_of_dropWhile hdrop) (Nat.zero_le _) rfl
        · rfl

/-- A piece is read as its lines are. -/
theorem readPiece_eq (decode : List ℕ → Option Record) {left : List ℕ} {emitted : List Record} {n : ℕ}
    {text : List ℕ} :
    readPiece decode left emitted n text = readLines (emit decode) maxRecord maxRecord emitted n
      (cut newline.toNat left text).1 (cut newline.toNat left text).2 := by
  induction hlen : text.length using Nat.strong_induction_on generalizing left emitted n text with
  | _ length ih =>
    rw [readPiece]
    split
    next hdrop =>
      have hnotMem : newline.toNat ∉ text := by
        intro hmem
        exact absurd (List.dropWhile_eq_nil_iff.mp hdrop _ hmem) (by simp)
      rw [LineReader.cut_of_notMem _ hnotMem, readLines]
    next b rest hdrop =>
      obtain ⟨-, htext⟩ := dropWhile_eq_cons hdrop
      have hcut := LineReader.cut_line newline.toNat (notMem_takeWhile _ text) left rest
      rw [← htext] at hcut
      rw [hcut, readLines]
      simp only
      split_ifs
      · rfl
      · rcases emit decode emitted (left ++ text.takeWhile (· ≠ newline.toNat)) with
          ⟨emitted, _ | record⟩
        · exact ih _ (hlen ▸ length_of_dropWhile hdrop) rfl
        · rfl

/-! ## The bound of 64 Ki -/

/-- A feed read by its lines, each of at most 64 Ki bytes without its newline. -/
def boundedFlow (decode : Bytes → Option Record) (progress : Progress) (feed : Bytes) :
    Flow UInt8 Reading (Except (Fault φ) Unit) :=
  readLines (process decode) maxRecordBytes maxRecordBytes ⟨progress, false, []⟩ 0
    (cut newline [] feed).1 (cut newline [] feed).2

/-- The text read by its lines, each of at most 64 Ki units. -/
def boundedText (decode : List ℕ → Option Record) (text : List ℕ) : Flow ℕ (List Record) Record :=
  readLines (emit decode) maxRecord maxRecord [] 0 (cut newline.toNat [] text).1
    (cut newline.toNat [] text).2

/-- No line that the reader gets to and that ends is of just 64 Ki bytes. -/
@[irreducible] def NoFullLine (φ : Type) (decode : Bytes → Option Record) (progress : Progress) (feed : Bytes) :
    Prop :=
  Clear (process (φ := φ) decode) maxRecordBytes ⟨progress, false, []⟩ (cut newline [] feed).1

variable {decode : Bytes → Option Record} {progress : Progress}

/-- The client reads a feed as bounded text. -/
theorem readChunks_eq (chunks : List Bytes) :
    readChunks (φ := φ) decode progress chunks = readLines (process decode) (maxRecordBytes - 1)
      maxRecordBytes ⟨progress, false, []⟩ 0 (cut newline [] chunks.flatten).1
      (cut newline [] chunks.flatten).2 :=
  LineReader.readAll_eq newline (Nat.sub_le _ _) (fun _ _ _ _ => readChunk_eq decode)
    (Nat.zero_le _) _ _ _

/-- The browser reads a feed as bounded text. -/
theorem readPieces_eq (decode : List ℕ → Option Record) (pieces : List (List ℕ)) :
    readPieces decode pieces = boundedText decode pieces.flatten :=
  LineReader.readAll_eq newline.toNat le_rfl (fun _ _ _ _ _ => readPiece_eq decode)
    (Nat.zero_le _) _ _ _

/-- Finishing keeps the count. -/
theorem count_finish (ending : Option φ) (f : Flow UInt8 Reading (Except (Fault φ) Unit)) :
    (finish ending f).2.2 = f.count := by
  match f with
  | .more _ _ _ | .stop .oversized _ _ | .stop (.ended _) _ _ => rfl

/-- **Where Rust keeps the bound**: unless it gets to a finished line of just 64 Ki bytes. -/
theorem read_eq_bounded_iff (chunks : List Bytes) (ending : Option φ) :
    read decode progress chunks ending = finish ending (boundedFlow decode progress chunks.flatten) ↔
      NoFullLine φ decode progress chunks.flatten := by
  rw [read, readChunks_eq, boundedFlow, NoFullLine]
  constructor
  · intro hsame
    by_contra hfull
    have hlt := LineReader.count_lt_of_not_clear (by decide) hfull 0
      (cut newline [] chunks.flatten).2
    have hcount := congrArg (·.2.2) hsame
    simp only [count_finish] at hcount
    exact absurd hcount (Nat.ne_of_lt hlt)
  · intro hclear
    rw [LineReader.readLines_of_clear hclear]

/-- The lines of an ASCII feed are as long in either client. -/
theorem cut_units (feed : Bytes) :
    (cut newline.toNat [] (units feed)).1.map List.length = (cut newline [] feed).1.map List.length ∧
      (cut newline.toNat [] (units feed)).2.length = (cut newline [] feed).2.length := by
  have hcut := LineReader.cut_map newline UInt8.toNat
    (fun a => UInt8.toNat_inj) [] feed
  rw [List.map_nil] at hcut
  rw [units, hcut, List.map_map]
  refine ⟨List.map_congr_left fun line _ => ?_, List.length_map _⟩
  exact List.length_map _

/-- The units of the chunks are those of the whole. -/
theorem flatten_units (chunks : List Bytes) : (chunks.map units).flatten = units chunks.flatten := by
  rw [units, List.map_flatten]
  rfl

/-- **Reading a feed.** However it is cut into chunks, the Rust client applies the same records and
ends the same. It refuses just the lines of more than 64 Ki bytes, newlines not counted, if and only if
it gets to no finished line of 64 Ki bytes; that one it refuses too. The browser refuses just the
lines of more than 64 Ki units; so on a feed of ASCII where the Rust client gets to no such line, each
client refuses a line for its length where the other does, unless that one ended before. -/
theorem feed_read_iff (decode : Bytes → Option Record) (decodeText : List ℕ → Option Record)
    (progress : Progress) (ending : Option φ) (chunks : List Bytes) :
    (∀ chunks', chunks'.flatten = chunks.flatten →
      read decode progress chunks' ending = read decode progress chunks ending) ∧
    (read decode progress chunks ending = finish ending (boundedFlow decode progress chunks.flatten) ↔
      NoFullLine φ decode progress chunks.flatten) ∧
    readRecords decodeText (chunks.map units) ending
      = resolve ending (boundedText decodeText (units chunks.flatten)) ∧
    (NoFullLine φ decode progress chunks.flatten →
      (∀ s n, readChunks (φ := φ) decode progress chunks = .stop .oversized s n →
        (∃ e, readPieces decodeText (chunks.map units) = .stop .oversized e n) ∨
          ∃ r e k, k ≤ n ∧ readPieces decodeText (chunks.map units) = .stop (.ended r) e k) ∧
      ∀ e n, readPieces decodeText (chunks.map units) = .stop .oversized e n →
        (∃ s, readChunks (φ := φ) decode progress chunks = .stop .oversized s n) ∨
          ∃ r s k, k ≤ n ∧ readChunks (φ := φ) decode progress chunks = .stop (.ended r) s k) := by
  obtain ⟨hlines, hlast⟩ := cut_units chunks.flatten
  refine ⟨fun chunks' hsame => ?_, read_eq_bounded_iff chunks ending, ?_, fun hclear => ?_⟩
  · rw [read, read, readChunks_eq, readChunks_eq, hsame]
  · rw [readRecords, readPieces_eq, flatten_units]
  · rw [NoFullLine] at hclear
    rw [readPieces_eq, flatten_units, boundedText, readChunks_eq,
      LineReader.readLines_of_clear hclear]
    exact ⟨fun s n h => LineReader.oversized_of_oversized hlines.symm hlast.symm [] h,
      fun e n h => LineReader.oversized_of_oversized hlines hlast _ h⟩

/-- A blank line of `n` bytes with its newline: a heartbeat, if it is within the bound. -/
def blanks (n : ℕ) : Bytes := List.replicate n 32 ++ [newline]

/-- A line of blanks is cut at its newline. -/
theorem cut_blanks (n : ℕ) : cut newline [] (blanks n) = ([List.replicate n 32], []) := by
  have hblank : newline ∉ List.replicate n (32 : UInt8) := fun h =>
    absurd (List.eq_of_mem_replicate h) (by decide)
  rw [blanks, LineReader.cut_line newline hblank, cut, List.nil_append]

/-- So are its units. -/
theorem cut_units_blanks (n : ℕ) :
    cut newline.toNat [] (units (blanks n)) = ([List.replicate n 32], []) := by
  have hcut := LineReader.cut_map newline UInt8.toNat (fun a => UInt8.toNat_inj) [] (blanks n)
  rw [List.map_nil, cut_blanks] at hcut
  rw [units, hcut, List.map_singleton, List.map_replicate]
  rfl

/-- A blank line of just 64 Ki bytes and its newline, which the browser reads as a heartbeat. -/
theorem read_full_line :
    cut newline [] (blanks maxRecordBytes) = ([List.replicate maxRecordBytes 32], []) ∧
      read (fun _ => none) ⟨true, none, false⟩ [blanks maxRecordBytes] (none : Option String)
        = (.error (.malformed "upload progress record exceeds 64 KiB"),
          ⟨⟨true, none, false⟩, false, []⟩, 0) ∧
      readRecords (fun _ => none) [units (blanks maxRecordBytes)] (none : Option String)
        = (.ok none, [], 1) := by
  refine ⟨cut_blanks _, ?_, ?_⟩
  · rw [read, readChunks_eq, List.flatten_singleton, cut_blanks, readLines, if_pos]
    · rfl
    · rw [List.length_replicate]
      decide
  · rw [readRecords, readPieces_eq, boundedText, List.flatten_singleton, cut_units_blanks, readLines,
      if_neg]
    · rfl
    · rw [List.length_replicate]
      decide

/-- A line of blanks past the bound has no full line within it. -/
theorem noFullLine_blanks {n : ℕ} (h : maxRecordBytes < n) :
    NoFullLine String (fun _ => none) ⟨true, none, false⟩ (blanks n) := by
  rw [NoFullLine, cut_blanks, Clear, List.length_replicate]
  exact Or.inl h

/-- In one chunk or two. -/
theorem flatten_blanks (n : ℕ) : [List.replicate n 32, blanks 1].flatten = blanks (n + 1) := by
  rw [blanks, blanks, List.flatten_cons, List.flatten_singleton, ← List.append_assoc,
    List.replicate_append_replicate]

/-- The client refuses a line of blanks that the newline takes past the bound. -/
theorem readChunks_blanks {n : ℕ} (h : maxRecordBytes < n + 1) :
    readChunks (φ := String) (fun _ => none) ⟨true, none, false⟩ [List.replicate n 32, blanks 1]
      = .stop .oversized ⟨⟨true, none, false⟩, false, []⟩ 0 := by
  rw [readChunks_eq, flatten_blanks, cut_blanks, readLines, if_pos]
  rw [List.length_replicate]
  omega

/-- A blank line of one byte more, in two chunks: both clients refuse it. -/
theorem feed_read_iff_blanks :
    (∃ e, readPieces (fun _ => none) ([List.replicate maxRecordBytes 32, blanks 1].map units)
        = .stop .oversized e 0) ∨
      ∃ r e k, k ≤ 0 ∧ readPieces (fun _ => none)
        ([List.replicate maxRecordBytes 32, blanks 1].map units) = .stop (.ended r) e k := by
  have hread := feed_read_iff (φ := String) (fun _ => none) (fun _ => none) ⟨true, none, false⟩ none
    [List.replicate maxRecordBytes 32, blanks 1]
  have hlong : maxRecordBytes < maxRecordBytes + 1 := Nat.lt_succ_self _
  rw [flatten_blanks] at hread
  exact (hread.2.2.2 (noFullLine_blanks hlong)).1 _ 0 (readChunks_blanks hlong)

end GraphiteMeter.Client.UploadFeed
