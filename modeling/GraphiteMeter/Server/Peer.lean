import Mathlib.Data.List.Nodup
import GraphiteMeter.Lib.Word

/-!
# Client keys

Reference: `rust/server/src/peer.rs`. Limits and uploads name a client by its keys, narrowest first.
-/

namespace GraphiteMeter.Server

/-- Who a login belongs to, the key its admission share and uploads count under. -/
structure Principal where
  name : String
deriving DecidableEq, Repr

/-- What a lease is held through: a login's session or a measurement grant issued to it. -/
inductive Holder where
  | login (id : String)
  | grant (id : String)
deriving DecidableEq, Repr

inductive ClientKey where
  | v4 (ip : BitVec 32)
  /-- A network: its address with the host bits cleared, and its prefix length. -/
  | v6 (net : BitVec 128) (bits : ℕ)
  | holder (holder : Holder)
  | principal (principal : Principal)
  | lease (id : ℕ)
deriving DecidableEq, Repr

/-- Lists a client's keys, narrowest first. Each holds twice the share of the one before it. -/
inductive ClientKeys where
  /-- A trusted proxy's connections carry no keys and charge only totals. -/
  | exempt
  | v4 (ip : BitVec 32)
  /-- An IPv6 client keys its /64, then the /56 and /48 holding it. -/
  | v6 (ip : BitVec 128)
  /-- A login or grant comes first, then the principal it belongs to. -/
  | auth (holder : Holder) (principal : Principal)
  /-- Work presenting a lease, and the keys of the client that took it. -/
  | lease (id : ℕ) (creator : ClientKeys)
deriving DecidableEq, Repr

namespace ClientKeys

def charged : ClientKeys → ClientKeys
  | .lease _ creator => creator
  | keys => keys

/-- The network of `bits` leading bits that holds `ip`. -/
def net (ip : BitVec 128) (bits : ℕ) : ClientKey :=
  .v6 ((ip >>> (128 - bits)) <<< (128 - bits)) bits

def iter : ClientKeys → List ClientKey
  | .exempt => []
  | .v4 ip => [.v4 ip]
  | .v6 ip => [64, 56, 48].map (net ip)
  | .auth holder principal => [.holder holder, .principal principal]
  | .lease id _ => [.lease id]

/-- The key an owner is compared by, which is the address, IPv6 /64, login, grant or lease. -/
def narrowest (keys : ClientKeys) : Option ClientKey := keys.iter.head?

/-- The share of the `i`-th key: `share` doubled `i` times. -/
def doubled (share : ℕ) : ℕ → ℕ
  | 0 => share
  | i + 1 => Word.saturatingMul (doubled share i) 2

/-- Each key with its share, the narrowest with `share`. -/
def shares (keys : ClientKeys) (share : ℕ) : List (ClientKey × ℕ) :=
  keys.iter.zipIdx.map fun (key, i) => (key, doubled share i)

/-! ## The keys of a client -/

/-- No client has a key twice. -/
theorem nodup_iter (keys : ClientKeys) : keys.iter.Nodup := by
  cases keys with
  | exempt => exact List.nodup_nil
  | v4 ip => exact List.nodup_singleton _
  | v6 ip =>
    refine List.Nodup.map_on ?_ (by decide)
    intro a _ b _ h
    exact (ClientKey.v6.inj h).2
  | auth holder principal =>
    refine List.nodup_cons.mpr ⟨?_, List.nodup_singleton _⟩
    simp
  | lease id _ => exact List.nodup_singleton _

/-- There is one share to a key. -/
theorem map_fst_shares (keys : ClientKeys) (share : ℕ) :
    (keys.shares share).map (·.1) = keys.iter := by
  rw [ClientKeys.shares, List.map_map]
  exact List.zipIdx_map_fst 0 keys.iter

/-- How often the share of a key is doubled. -/
def rank : ClientKey → ℕ
  | .v4 _ | .holder _ | .lease _ => 0
  | .v6 _ bits => (64 - bits) / 8
  | .principal _ => 1

/-- **A key has one share**, whichever client it is a key of. -/
theorem share_eq {keys : ClientKeys} {share amount : ℕ} {key : ClientKey}
    (h : (key, amount) ∈ keys.shares share) : amount = doubled share (rank key) := by
  cases keys with
  | exempt => cases h
  | v4 ip =>
    obtain ⟨rfl, rfl⟩ : key = .v4 ip ∧ amount = doubled share 0 := by
      simpa [shares, iter] using h
    rfl
  | v6 ip =>
    have hcases : (key = net ip 64 ∧ amount = doubled share 0) ∨
        (key = net ip 56 ∧ amount = doubled share 1) ∨
        (key = net ip 48 ∧ amount = doubled share 2) := by
      simpa [shares, iter] using h
    rcases hcases with ⟨rfl, rfl⟩ | ⟨rfl, rfl⟩ | ⟨rfl, rfl⟩ <;> rfl
  | auth holder principal =>
    have hcases : (key = .holder holder ∧ amount = doubled share 0) ∨
        (key = .principal principal ∧ amount = doubled share 1) := by
      simpa [shares, iter] using h
    rcases hcases with ⟨rfl, rfl⟩ | ⟨rfl, rfl⟩ <;> rfl
  | lease id creator =>
    obtain ⟨rfl, rfl⟩ : key = .lease id ∧ amount = doubled share 0 := by
      simpa [shares, iter] using h
    rfl

end ClientKeys

end GraphiteMeter.Server
