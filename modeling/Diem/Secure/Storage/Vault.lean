import Diem.Consensus.SafetyRules.PersistentSafetyStorage

/-!
# The Vault secure storage backend

`secure/storage/src/vault.rs`: secrets in Vault's key-value engine, keys in
its transit engine, each transit key a list of versions. What sets it apart
from the in-memory backend is `import_private_key`: it refuses a key name that
is already taken (`KeyAlreadyExists`), which is how
`PersistentSafetyStorage::initialize` recognises storage that is already
initialized.

The model keeps the Vault server's content at the keys safety rules uses, each
at the type it is read at, and the transit keys as their versions, oldest
first. It is the client with `use_cas` off and without a namespace: the
client-side record of secret versions behind check-and-set writes, token
renewal and the time stamps of responses are left out. Vault's `NotFound`
becomes `KeyNotSet`, as `From<diem_vault_client::Error>` converts it.
-/

namespace Diem

namespace Secure

open Consensus

/-- The content of the Vault server that `VaultStorage` reaches. -/
structure VaultStorage where
  safetyData : Option SafetyData
  ownerAccount : Option Author
  waypoint : Option Waypoint
  /-- The versions of the transit key `consensus`, oldest first. -/
  consensus : List Ed25519PrivateKey
  /-- The versions of the transit key `execution`, oldest first. -/
  execution : List Ed25519PrivateKey

namespace VaultStorage

/-- `KVStorage::get` through `read_secret`. -/
def get {α : Type} (key : String) : Option α → Except SecureStorage.Error α
  | some value => .ok value
  | none => .error (.KeyNotSet key)

variable (C : Crypto)

/-- `get_public_key`: the public key of the latest version. -/
def getPublicKey (name : String) (versions : List Ed25519PrivateKey) :
    Except SecureStorage.Error Ed25519PublicKey :=
  match versions.getLast? with
  | some latest => .ok (C.publicKey latest)
  | none => .error (.KeyNotSet name)

/-- `import_private_key`: refused when the key name is taken. -/
def importPrivateKey (name : String) (versions : List Ed25519PrivateKey) (key : Ed25519PrivateKey) :
    Except SecureStorage.Error (List Ed25519PrivateKey) :=
  match getPublicKey C name versions with
  | .ok _ => .error (.KeyAlreadyExists name)
  | .error (.KeyNotSet _) => .ok [key]
  | .error e => .error e

/-- `export_private_key_for_version`: the version whose public key is
`version` (`key_version`), exported. -/
def exportPrivateKeyForVersion (name : String) (versions : List Ed25519PrivateKey) (version : Ed25519PublicKey) :
    Except SecureStorage.Error Ed25519PrivateKey :=
  if versions.isEmpty then .error (.KeyNotSet name)
  else match versions.find? fun key => C.publicKey key == version with
    | some key => .ok key
    | none => .error (.KeyVersionNotFound name version.toString)

end VaultStorage

/-- A write of one component of the Vault content, failing with `e` without
writing when `e` is given. -/
def VaultStorage.update (f : VaultStorage → Except SecureStorage.Error VaultStorage) :
    EStateM SecureStorage.Error VaultStorage Unit := fun s =>
  match f s with
  | .ok s' => .ok () s'
  | .error e => .error e s

theorem VaultStorage.wp_update {f : VaultStorage → Except SecureStorage.Error VaultStorage} {s : VaultStorage}
    {P : VaultStorage → Prop} (hok : ∀ s', f s = .ok s' → P s') (herr : P s) :
    EStateM.wp (VaultStorage.update f) (fun _ => P) (fun _ => P) s := by
  unfold EStateM.wp EStateM.run VaultStorage.update
  cases h : f s with
  | ok s' => exact hok s' h
  | error e => exact herr

/-- Importing a key leaves the secrets alone. -/
theorem VaultStorage.importPrivateKey_safetyData {C : Crypto} {name : String} {s s' : VaultStorage}
    {versions : List Ed25519PrivateKey} {k : Ed25519PrivateKey} {g : List Ed25519PrivateKey → VaultStorage}
    (h : (VaultStorage.importPrivateKey C name versions k).map g = .ok s')
    (hg : ∀ v, (g v).safetyData = s.safetyData) : s'.safetyData = s.safetyData := by
  cases hi : VaultStorage.importPrivateKey C name versions k with
  | error e => simp [hi, Except.map] at h
  | ok v =>
    simp only [hi, Except.map, Except.ok.injEq] at h
    rw [← h, hg]

/-- `VaultStorage` as the backend of safety rules. -/
def vaultStorage (C : Crypto) : SecureStorage VaultStorage where
  stored s := s.safetyData
  getSafetyData s := VaultStorage.get "safety_data" s.safetyData
  getSafetyDataAsResult s := SecureStorage.Error.ofResultRead (VaultStorage.get "safety_data" s.safetyData)
  setSafetyData d := modify fun s => { s with safetyData := some d }
  getOwnerAccount s := VaultStorage.get "owner_account" s.ownerAccount
  setOwnerAccount a := modify fun s => { s with ownerAccount := some a }
  getWaypoint s := VaultStorage.get "waypoint" s.waypoint
  setWaypoint w := modify fun s => { s with waypoint := some w }
  importConsensusKey k := VaultStorage.update fun s =>
    (VaultStorage.importPrivateKey C "consensus" s.consensus k).map fun v => { s with consensus := v }
  importExecutionKey k := VaultStorage.update fun s =>
    (VaultStorage.importPrivateKey C "execution" s.execution k).map fun v => { s with execution := v }
  getExecutionPublicKey s := VaultStorage.getPublicKey C "execution" s.execution
  exportPrivateKeyForVersion version s := VaultStorage.exportPrivateKeyForVersion C "consensus" s.consensus version
  signUsingVersion version message s :=
    (VaultStorage.exportPrivateKeyForVersion C "consensus" s.consensus version).map fun key => C.sign key message
  getSafetyData_stored s d h := by
    unfold VaultStorage.get at h
    split at h <;> simp_all
  setSafetyData_stored _ _ := by rfl
  setWaypoint_stored _ _ := by rfl
  setOwnerAccount_stored _ _ := by rfl
  importConsensusKey_stored _ _ :=
    VaultStorage.wp_update (fun _ h => VaultStorage.importPrivateKey_safetyData h fun _ => rfl) rfl
  importExecutionKey_stored _ _ :=
    VaultStorage.wp_update (fun _ h => VaultStorage.importPrivateKey_safetyData h fun _ => rfl) rfl

end Secure

end Diem
