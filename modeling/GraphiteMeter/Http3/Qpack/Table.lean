import GraphiteMeter.Http3.Frame

/-!
# The QPACK static table

Reference: `rust/http3/src/qpack/table.rs` (RFC 9204 Appendix A).
-/

namespace GraphiteMeter.Http3.Qpack.Table

/-- The entries as text. -/
def entries : List (String × String) := [
  (":authority", ""),
  (":path", "/"),
  ("age", "0"),
  ("content-disposition", ""),
  ("content-length", "0"),
  ("cookie", ""),
  ("date", ""),
  ("etag", ""),
  ("if-modified-since", ""),
  ("if-none-match", ""),
  ("last-modified", ""),
  ("link", ""),
  ("location", ""),
  ("referer", ""),
  ("set-cookie", ""),
  (":method", "CONNECT"),
  (":method", "DELETE"),
  (":method", "GET"),
  (":method", "HEAD"),
  (":method", "OPTIONS"),
  (":method", "POST"),
  (":method", "PUT"),
  (":scheme", "http"),
  (":scheme", "https"),
  (":status", "103"),
  (":status", "200"),
  (":status", "304"),
  (":status", "404"),
  (":status", "503"),
  ("accept", "*/*"),
  ("accept", "application/dns-message"),
  ("accept-encoding", "gzip, deflate, br"),
  ("accept-ranges", "bytes"),
  ("access-control-allow-headers", "cache-control"),
  ("access-control-allow-headers", "content-type"),
  ("access-control-allow-origin", "*"),
  ("cache-control", "max-age=0"),
  ("cache-control", "max-age=2592000"),
  ("cache-control", "max-age=604800"),
  ("cache-control", "no-cache"),
  ("cache-control", "no-store"),
  ("cache-control", "public, max-age=31536000"),
  ("content-encoding", "br"),
  ("content-encoding", "gzip"),
  ("content-type", "application/dns-message"),
  ("content-type", "application/javascript"),
  ("content-type", "application/json"),
  ("content-type", "application/x-www-form-urlencoded"),
  ("content-type", "image/gif"),
  ("content-type", "image/jpeg"),
  ("content-type", "image/png"),
  ("content-type", "text/css"),
  ("content-type", "text/html; charset=utf-8"),
  ("content-type", "text/plain"),
  ("content-type", "text/plain;charset=utf-8"),
  ("range", "bytes=0-"),
  ("strict-transport-security", "max-age=31536000"),
  ("strict-transport-security", "max-age=31536000; includesubdomains"),
  ("strict-transport-security", "max-age=31536000; includesubdomains; preload"),
  ("vary", "accept-encoding"),
  ("vary", "origin"),
  ("x-content-type-options", "nosniff"),
  ("x-xss-protection", "1; mode=block"),
  (":status", "100"),
  (":status", "204"),
  (":status", "206"),
  (":status", "302"),
  (":status", "400"),
  (":status", "403"),
  (":status", "421"),
  (":status", "425"),
  (":status", "500"),
  ("accept-language", ""),
  ("access-control-allow-credentials", "FALSE"),
  ("access-control-allow-credentials", "TRUE"),
  ("access-control-allow-headers", "*"),
  ("access-control-allow-methods", "get"),
  ("access-control-allow-methods", "get, post, options"),
  ("access-control-allow-methods", "options"),
  ("access-control-expose-headers", "content-length"),
  ("access-control-request-headers", "content-type"),
  ("access-control-request-method", "get"),
  ("access-control-request-method", "post"),
  ("alt-svc", "clear"),
  ("authorization", ""),
  ("content-security-policy", "script-src 'none'; object-src 'none'; base-uri 'none'"),
  ("early-data", "1"),
  ("expect-ct", ""),
  ("forwarded", ""),
  ("if-range", ""),
  ("origin", ""),
  ("purpose", "prefetch"),
  ("server", ""),
  ("timing-allow-origin", "*"),
  ("upgrade-insecure-requests", "1"),
  ("user-agent", ""),
  ("x-forwarded-for", ""),
  ("x-frame-options", "deny"),
  ("x-frame-options", "sameorigin")]

/-- The table in bytes. -/
def static : List (Bytes × Bytes) :=
  entries.map fun (name, value) => (name.toUTF8.toList, value.toUTF8.toList)

inductive Match where
  | field (index : ℕ)
  | name (index : ℕ)
  | none
deriving DecidableEq, Repr

/-- The search from entry `index` on; `named` is the first entry with this name, if any came before. -/
def findFrom (name value : Bytes) (named : Option ℕ) (index : ℕ) : List (Bytes × Bytes) → Match
  | [] => named.elim .none .name
  | (entry, entryValue) :: rest =>
    if entry = name then
      if entryValue = value then .field index
      else findFrom name value (some (named.getD index)) (index + 1) rest
    else findFrom name value named (index + 1) rest

/-- Finds the first entry with this field, else the first with this name. -/
def find (name value : Bytes) : Match := findFrom name value none 0 static

/-- A match names an entry: one with the field, or one with its name. -/
def Match.Sound (table : List (Bytes × Bytes)) (name value : Bytes) : Match → Prop
  | .field index => table[index]? = some (name, value)
  | .name index => ∃ v, table[index]? = some (name, v)
  | .none => True

/-- What is found behind a prefix is in the table. -/
theorem findFrom_sound (name value : Bytes) (seen rest : List (Bytes × Bytes)) (named : Option ℕ)
    (hnamed : ∀ i ∈ named, ∃ v, (seen ++ rest)[i]? = some (name, v)) :
    (findFrom name value named seen.length rest).Sound (seen ++ rest) name value := by
  induction rest generalizing seen named with
  | nil =>
    cases named with
    | none => trivial
    | some i => exact hnamed i rfl
  | cons entry rest ih =>
    obtain ⟨entry, entryValue⟩ := entry
    have hhere : (seen ++ (entry, entryValue) :: rest)[seen.length]? = some (entry, entryValue) := by
      simp
    have hnext := ih (seen ++ [(entry, entryValue)])
    rw [List.append_assoc, List.singleton_append, List.length_append, List.length_singleton] at hnext
    simp only [findFrom]
    split_ifs with hname hvalue
    · rw [hname, hvalue] at hhere
      rw [hname, hvalue]
      exact hhere
    · refine hnext _ fun i hi => ?_
      rw [Option.mem_some_iff] at hi
      subst hi
      cases named with
      | none => exact ⟨entryValue, hname ▸ hhere⟩
      | some j => exact hnamed j rfl
    · exact hnext named hnamed

/-- **What is found** is in the static table. -/
theorem find_sound (name value : Bytes) : (find name value).Sound static name value :=
  findFrom_sound name value [] static none (by simp)

end GraphiteMeter.Http3.Qpack.Table
