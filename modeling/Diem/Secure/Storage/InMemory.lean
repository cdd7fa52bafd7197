import Diem.Consensus.SafetyRules.PersistentSafetyStorage

/-!
# The in-memory secure storage backend

`secure/storage/src/in_memory.rs` and the `CryptoStorage` methods it takes
from `crypto_kv_storage.rs`: a map from key names to serialized values, whose
`get` fails with `KeyNotSet` on a missing key and whose `set` (and
`import_private_key`, a `set`) always succeeds, overwriting what was there.
It is the backend of `SafetyRulesConfig`'s `InMemoryStorage` and of the
safety-rules tests.

The map is kept at the keys safety rules uses, each at the type it is read
at, so that a value read back is the value written (the JSON round trip of
`serde_json::to_vec` and `from_slice` is taken to be the identity). A read at
another type, as the uncached `safety_data` makes, fails in `from_slice`
(`SecureStorage.Error.ofResultRead`). The time stamp of `GetResponse` is never
read here and is left out.
-/

namespace Diem

namespace Secure

open Consensus

/-- `InMemoryStorage`, at the keys `safety_data`, `owner_account`, `waypoint`,
`execution`, `consensus` and `consensus_previous`. -/
structure InMemoryStorage where
  safetyData : Option SafetyData
  ownerAccount : Option Author
  waypoint : Option Waypoint
  execution : Option Ed25519PrivateKey
  consensus : Option Ed25519PrivateKey
  consensusPrevious : Option Ed25519PrivateKey

namespace InMemoryStorage

/-- `InMemoryStorage::new`: the empty map. -/
def new : InMemoryStorage := ⟨none, none, none, none, none, none⟩

/-- `KVStorage::get`: the value under `key`, or `KeyNotSet(key)`. -/
def get {α : Type} (key : String) : Option α → Except SecureStorage.Error α
  | some value => .ok value
  | none => .error (.KeyNotSet key)

variable (C : Crypto)

/-- `export_private_key_for_version`: the current key of that version, else
the previous one, else `KeyVersionNotFound`. -/
def exportPrivateKeyForVersion (version : Ed25519PublicKey) (s : InMemoryStorage) :
    Except SecureStorage.Error Ed25519PrivateKey := do
  let currentPrivateKey ← get "consensus" s.consensus
  if C.publicKey currentPrivateKey = version then return currentPrivateKey
  match get "consensus_previous" s.consensusPrevious with
  | .ok previousPrivateKey =>
    if C.publicKey previousPrivateKey = version then .ok previousPrivateKey
    else .error (.KeyVersionNotFound "consensus" version.toString)
  | .error (.KeyNotSet _) => .error (.KeyVersionNotFound "consensus" version.toString)
  | .error e => .error e

end InMemoryStorage

/-- `InMemoryStorage` as the backend of safety rules. -/
def inMemoryStorage (C : Crypto) : SecureStorage InMemoryStorage where
  stored s := s.safetyData
  getSafetyData s := InMemoryStorage.get "safety_data" s.safetyData
  getSafetyDataAsResult s := SecureStorage.Error.ofResultRead (InMemoryStorage.get "safety_data" s.safetyData)
  setSafetyData d := modify fun s => { s with safetyData := some d }
  getOwnerAccount s := InMemoryStorage.get "owner_account" s.ownerAccount
  setOwnerAccount a := modify fun s => { s with ownerAccount := some a }
  getWaypoint s := InMemoryStorage.get "waypoint" s.waypoint
  setWaypoint w := modify fun s => { s with waypoint := some w }
  importConsensusKey k := modify fun s => { s with consensus := some k }
  importExecutionKey k := modify fun s => { s with execution := some k }
  getExecutionPublicKey s := (InMemoryStorage.get "execution" s.execution).map C.publicKey
  exportPrivateKeyForVersion := InMemoryStorage.exportPrivateKeyForVersion C
  signUsingVersion version message s :=
    (InMemoryStorage.exportPrivateKeyForVersion C version s).map fun key => C.sign key message
  getSafetyData_stored s d h := by
    unfold InMemoryStorage.get at h
    split at h <;> simp_all
  setSafetyData_stored _ _ := by rfl
  setWaypoint_stored _ _ := by rfl
  setOwnerAccount_stored _ _ := by rfl
  importConsensusKey_stored _ _ := by rfl
  importExecutionKey_stored _ _ := by rfl

end Secure

end Diem
