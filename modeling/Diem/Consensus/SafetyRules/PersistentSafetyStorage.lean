import Diem.Consensus.Types
import Diem.Theory.Hoare

/-!
# Persistent safety storage

`consensus/safety-rules/src/persistent_safety_storage.rs` and `error.rs`: the
errors safety rules reports, the secure storage backend it keeps its state in,
and `PersistentSafetyStorage`, which reads and writes `SafetyData` through an
in-memory cache.

A backend (in memory, on disk, Vault, ...) is a `SecureStorage σ` over its
state: the operations safety rules calls, at the keys it calls them with, and
as fields the laws every backend keeps. `stored` is what it holds under
`SAFETY_DATA`; a write that fails may have landed, as a remote write can fail
after the server applied it. With the cache off, `safety_data` reads the key at
its own return type `Result<SafetyData, Error>`, which a stored `SafetyData`
never deserializes as (`getSafetyDataAsResult`). `PermissionDenied`, on which
the conversion into `Error` panics, is left out, as are metrics and logging.

`CacheOk`, the cache is empty or holds what the backend holds, is kept by every
method. Under it the cached `safety_data` returns what the backend holds
(`wp_safetyData`), and `set_safety_data` stores its argument when it succeeds
and at worst leaves the old data when it fails (`wp_setSafetyData`).
-/
namespace Diem

namespace Consensus

/-- `diem_secure_storage::Error`, without `PermissionDenied`. -/
inductive SecureStorage.Error where
  | EntropyError (message : String)
  | InternalError (message : String)
  | KeyAlreadyExists (key : String)
  | KeyNotSet (key : String)
  | SerializationError (message : String)
  | KeyVersionNotFound (key version : String)
  deriving DecidableEq

/-- The `Display` text of a storage error. -/
def SecureStorage.Error.toString : SecureStorage.Error → String
  | .EntropyError m => "Entropy error: " ++ m
  | .InternalError m => "Internal error: " ++ m
  | .KeyAlreadyExists k => "Key already exists: " ++ k
  | .KeyNotSet k => "Key not set: " ++ k
  | .SerializationError m => "Serialization error: " ++ m
  | .KeyVersionNotFound k v => "Key version not found, key name: " ++ k ++ ", version: " ++ v

/-- The error of `get` at the type `Result<SafetyData, Error>` of a key holding
a `SafetyData`, from the read at `SafetyData`: that read's error, or, where it
succeeds, serde_json's refusal of the object as a `Result`, whose first key it
takes for the variant (the position serde_json appends is left out). -/
def SecureStorage.Error.ofResultRead : Except SecureStorage.Error SafetyData → SecureStorage.Error
  | .ok _ => .SerializationError "unknown variant `epoch`, expected `Ok` or `Err`"
  | .error e => e

/-- A secure storage backend, as safety rules uses it: the keys `SAFETY_DATA`,
`OWNER_ACCOUNT`, `WAYPOINT`, `EXECUTION_KEY` and the versions of
`CONSENSUS_KEY`. -/
structure SecureStorage (σ : Type) where
  /-- What the backend holds under `SAFETY_DATA`, if anything. -/
  stored : σ → Option SafetyData
  /-- `get(SAFETY_DATA)`. -/
  getSafetyData : σ → Except SecureStorage.Error SafetyData
  /-- `get(SAFETY_DATA)` at the type `Result<SafetyData, Error>`: the key holds
  a serialized `SafetyData`, which never deserializes as that type, so the read
  fails, with this error. -/
  getSafetyDataAsResult : σ → SecureStorage.Error
  /-- `set(SAFETY_DATA, data)`. -/
  setSafetyData : SafetyData → EStateM SecureStorage.Error σ Unit
  /-- `get(OWNER_ACCOUNT)`. -/
  getOwnerAccount : σ → Except SecureStorage.Error Author
  /-- `set(OWNER_ACCOUNT, author)`. -/
  setOwnerAccount : Author → EStateM SecureStorage.Error σ Unit
  /-- `get(WAYPOINT)`. -/
  getWaypoint : σ → Except SecureStorage.Error Waypoint
  /-- `set(WAYPOINT, waypoint)`. -/
  setWaypoint : Waypoint → EStateM SecureStorage.Error σ Unit
  /-- `import_private_key(CONSENSUS_KEY, key)`. -/
  importConsensusKey : Ed25519PrivateKey → EStateM SecureStorage.Error σ Unit
  /-- `import_private_key(EXECUTION_KEY, key)`. -/
  importExecutionKey : Ed25519PrivateKey → EStateM SecureStorage.Error σ Unit
  /-- `get_public_key(EXECUTION_KEY)`. -/
  getExecutionPublicKey : σ → Except SecureStorage.Error Ed25519PublicKey
  /-- `export_private_key_for_version(CONSENSUS_KEY, version)`. -/
  exportPrivateKeyForVersion : Ed25519PublicKey → σ → Except SecureStorage.Error Ed25519PrivateKey
  /-- `sign_using_version(CONSENSUS_KEY, version, message)`. -/
  signUsingVersion : Ed25519PublicKey → SigningMessage → σ → Except SecureStorage.Error Ed25519Signature
  /-- A read returns what the backend holds. -/
  getSafetyData_stored : ∀ s d, getSafetyData s = .ok d → stored s = some d
  /-- A write that succeeds stores its data; one that fails stores it or nothing. -/
  setSafetyData_stored : ∀ s d, EStateM.wp (setSafetyData d) (fun _ s' => stored s' = some d)
    (fun _ s' => stored s' = stored s ∨ stored s' = some d) s
  /-- Writing the waypoint leaves the safety data alone. -/
  setWaypoint_stored : ∀ s w, EStateM.wp (setWaypoint w) (fun _ s' => stored s' = stored s)
    (fun _ s' => stored s' = stored s) s
  /-- So does writing the owner account. -/
  setOwnerAccount_stored : ∀ s a, EStateM.wp (setOwnerAccount a) (fun _ s' => stored s' = stored s)
    (fun _ s' => stored s' = stored s) s
  /-- So does importing a key. -/
  importConsensusKey_stored : ∀ s k, EStateM.wp (importConsensusKey k) (fun _ s' => stored s' = stored s)
    (fun _ s' => stored s' = stored s) s
  importExecutionKey_stored : ∀ s k, EStateM.wp (importExecutionKey k) (fun _ s' => stored s' = stored s)
    (fun _ s' => stored s' = stored s) s

namespace SafetyRules

/-- `safety_rules::Error`. -/
inductive Error where
  | IncorrectEpoch (provided expected : ℕ)
  | IncorrectRound (round : ℕ)
  | IncorrectLastVotedRound (round lastVotedRound : ℕ)
  | IncorrectPreferredRound (round preferredRound : ℕ)
  | InvalidAccumulatorExtension (message : String)
  | InvalidEpochChangeProof (message : String)
  | InternalError (message : String)
  | InvalidLedgerInfo
  | InvalidProposal (message : String)
  | InvalidQuorumCertificate (message : String)
  | NotInitialized (message : String)
  | SecureStorageMissingDataError (message : String)
  | SecureStorageUnexpectedError (message : String)
  | SerializationError (message : String)
  | ValidatorKeyNotFound (message : String)
  | ValidatorNotInSet (message : String)
  | VoteProposalSignatureNotFound
  | NotSafeToVote (round qcRound tcRound hqcRound : ℕ)
  | NotSafeToTimeout (round qcRound tcRound oneChainRound : ℕ)
  | InvalidTimeoutCertificate (message : String)
  | InconsistentExecutionResult (ordered executed : BlockInfo)
  | InvalidOrderedLedgerInfo (ledgerInfo : LedgerInfo)
  deriving DecidableEq

/-- The `Display` text of an error (its `#[error(...)]` format). -/
def Error.toString : Error → String
  | .IncorrectEpoch p e =>
    "Provided epoch, " ++ Nat.repr p ++ ", does not match expected epoch, " ++ Nat.repr e
  | .IncorrectRound r => "block has next round that wraps around: " ++ Nat.repr r
  | .IncorrectLastVotedRound r l =>
    "Provided round, " ++ Nat.repr r ++ ", is incompatible with last voted round, " ++ Nat.repr l
  | .IncorrectPreferredRound r p =>
    "Provided round, " ++ Nat.repr r ++ ", is incompatible with preferred round, " ++ Nat.repr p
  | .InvalidAccumulatorExtension m => "Unable to verify that the new tree extends the parent: " ++ m
  | .InvalidEpochChangeProof m => "Invalid EpochChangeProof: " ++ m
  | .InternalError m => "Internal error: " ++ m
  | .InvalidLedgerInfo => "No next_epoch_state specified in the provided Ledger Info"
  | .InvalidProposal m => "Invalid proposal: " ++ m
  | .InvalidQuorumCertificate m => "Invalid QC: " ++ m
  | .NotInitialized m => m ++ " is not set, SafetyRules is not initialized"
  | .SecureStorageMissingDataError m => "Data not found in secure storage: " ++ m
  | .SecureStorageUnexpectedError m => "Unexpected error returned by secure storage: " ++ m
  | .SerializationError m => "Serialization error: " ++ m
  | .ValidatorKeyNotFound m => "Validator key not found: " ++ m
  | .ValidatorNotInSet m => "The validator is not in the validator set. Address not in set: " ++ m
  | .VoteProposalSignatureNotFound => "Vote proposal missing expected signature"
  | .NotSafeToVote r q t h =>
    "Does not satisfy 2-chain voting rule. Round " ++ Nat.repr r ++ ", Quorum round " ++ Nat.repr q ++
      ", TC round " ++ Nat.repr t ++ ",  HQC round in TC " ++ Nat.repr h
  | .NotSafeToTimeout r q t o =>
    "Does not satisfy 2-chain timeout rule. Round " ++ Nat.repr r ++ ", Quorum round " ++ Nat.repr q ++
      ", TC round " ++ Nat.repr t ++ ", one-chain round " ++ Nat.repr o
  | .InvalidTimeoutCertificate m => "Invalid TC: " ++ m
  | .InconsistentExecutionResult _ _ =>
    "Inconsistent Execution Result: Ordered BlockInfo doesn't match executed BlockInfo."
  | .InvalidOrderedLedgerInfo _ =>
    "Invalid Ordered LedgerInfoWithSignatures: Empty or at least one of executed_state_id, version, or epoch_state are not dummy value"

/-- `impl From<diem_secure_storage::Error> for Error`. -/
def Error.ofStorage (e : SecureStorage.Error) : Error :=
  match e with
  | .KeyVersionNotFound _ _ | .KeyNotSet _ => .SecureStorageMissingDataError e.toString
  | _ => .SecureStorageUnexpectedError e.toString

end SafetyRules

open SafetyRules (Error)

/-- `PersistentSafetyStorage`. -/
structure PersistentSafetyStorage (σ : Type) where
  enableCachedSafetyData : Bool
  /-- The in-memory copy of the safety data. -/
  cachedSafetyData : Option SafetyData
  internalStore : σ

namespace PersistentSafetyStorage

open EStateM

variable {σ : Type} (S : SecureStorage σ)

/-- `PersistentSafetyStorage::new`: an existing store, with an empty cache. -/
def new (internalStore : σ) (enableCachedSafetyData : Bool) : PersistentSafetyStorage σ :=
  ⟨enableCachedSafetyData, none, internalStore⟩

/-- `PersistentSafetyStorage::initialize` with its helper `initialize_`: import
the two keys and set the safety data of epoch `1`, the owner account and the
waypoint. Storage that already holds the consensus key is taken as
initialized and left as it is ("Attempting to re-initialize existing
storage"). Either way the cache starts out holding the new safety data. `none`
where `expect` panics. -/
def init (internalStore : σ) (author : Author) (consensusPrivateKey executionPrivateKey : Ed25519PrivateKey)
    (waypoint : Waypoint) (enableCachedSafetyData : Bool) : Option (PersistentSafetyStorage σ) :=
  let safetyData : SafetyData := ⟨1, 0, 0, 0, none⟩
  let rest : EStateM SecureStorage.Error σ Unit := do
    S.importExecutionKey executionPrivateKey
    S.setSafetyData safetyData
    S.setOwnerAccount author
    S.setWaypoint waypoint
  let result := match (S.importConsensusKey consensusPrivateKey).run internalStore with
    | .error (.KeyAlreadyExists _) internalStore => EStateM.Result.ok () internalStore
    | .error e internalStore => .error e internalStore
    | .ok () internalStore => rest.run internalStore
  match result with
  | .ok () internalStore => some ⟨enableCachedSafetyData, some safetyData, internalStore⟩
  | .error _ _ => none

/-- `author`. -/
def author (p : PersistentSafetyStorage σ) : Except Error Author :=
  (S.getOwnerAccount p.internalStore).mapError Error.ofStorage

/-- `consensus_key_for_version`. -/
def consensusKeyForVersion (p : PersistentSafetyStorage σ) (version : Ed25519PublicKey) :
    Except Error Ed25519PrivateKey :=
  (S.exportPrivateKeyForVersion version p.internalStore).mapError Error.ofStorage

/-- `execution_public_key`. -/
def executionPublicKey (p : PersistentSafetyStorage σ) : Except Error Ed25519PublicKey :=
  (S.getExecutionPublicKey p.internalStore).mapError Error.ofStorage

/-- `sign`, with the key name `CONSENSUS_KEY`, the only one safety rules signs with. -/
def sign (p : PersistentSafetyStorage σ) (keyVersion : Ed25519PublicKey) (message : SigningMessage) :
    Except Error Ed25519Signature :=
  (S.signUsingVersion keyVersion message p.internalStore).mapError Error.ofStorage

/-- `waypoint`. -/
def waypoint (p : PersistentSafetyStorage σ) : Except Error Waypoint :=
  (S.getWaypoint p.internalStore).mapError Error.ofStorage

/-- `safety_data`: from the cache if it is enabled and filled, otherwise from
the backend, filling the cache. -/
def safetyData : EStateM Error (PersistentSafetyStorage σ) SafetyData := do
  let p ← get
  if !p.enableCachedSafetyData then
    -- `return self.internal_store.get(SAFETY_DATA).map(|v| v.value)?` infers
    -- `get::<Result<SafetyData, Error>>` from the return type
    throw (Error.ofStorage (S.getSafetyDataAsResult p.internalStore))
  match p.cachedSafetyData with
  | some cachedSafetyData => pure cachedSafetyData
  | none =>
    let safetyData ← liftExcept ((S.getSafetyData p.internalStore).mapError Error.ofStorage)
    set { p with cachedSafetyData := some safetyData }
    pure safetyData

/-- `set_safety_data`: the cache follows a successful write and is dropped
after a failed one. -/
def setSafetyData (data : SafetyData) : EStateM Error (PersistentSafetyStorage σ) Unit := do
  let p ← get
  match (S.setSafetyData data).run p.internalStore with
  | .ok () internalStore => set { p with internalStore := internalStore, cachedSafetyData := some data }
  | .error error internalStore =>
    set { p with internalStore := internalStore, cachedSafetyData := none }
    throw (.SecureStorageUnexpectedError error.toString)

/-- `set_waypoint`. -/
def setWaypoint (waypoint : Waypoint) : EStateM Error (PersistentSafetyStorage σ) Unit := do
  let p ← get
  match (S.setWaypoint waypoint).run p.internalStore with
  | .ok () internalStore => set { p with internalStore := internalStore }
  | .error error internalStore =>
    set { p with internalStore := internalStore }
    throw (Error.ofStorage error)

/-! ### The cache is invisible -/

/-- The cache is empty or holds what the backend holds. -/
def CacheOk (p : PersistentSafetyStorage σ) : Prop :=
  ∀ c, p.cachedSafetyData = some c → S.stored p.internalStore = some c

variable {S} {p : PersistentSafetyStorage σ} {α : Type}
  {Q : α → PersistentSafetyStorage σ → Prop} {R : Error → PersistentSafetyStorage σ → Prop}

theorem cacheOk_fill {p : PersistentSafetyStorage σ} {d : SafetyData}
    (hd : S.stored p.internalStore = some d) : CacheOk S { p with cachedSafetyData := some d } := by
  rintro c ⟨⟩
  exact hd

/-- **`safety_data` returns what the backend holds**, and changes nothing but
the cache. -/
theorem wp_safetyData {Q : SafetyData → PersistentSafetyStorage σ → Prop} (hp : CacheOk S p)
    (hQ : ∀ d p', S.stored p.internalStore = some d → CacheOk S p' →
      p'.internalStore = p.internalStore → Q d p')
    (hR : ∀ e p', CacheOk S p' → p'.internalStore = p.internalStore → R e p') :
    wp (safetyData S) Q R p := by
  simp only [safetyData, wp_bind, wp_get]
  by_cases hen : p.enableCachedSafetyData = true
  · simp only [hen, Bool.not_true, Bool.false_eq_true, ↓reduceIte]
    cases hc : p.cachedSafetyData with
    | some c => exact hQ c p (hp c hc) hp rfl
    | none =>
      -- the backend is read and the cache filled
      simp only [wp_bind]
      cases hget : S.getSafetyData p.internalStore with
      | error e => exact hR _ _ hp rfl
      | ok d =>
        have hd := S.getSafetyData_stored _ _ hget
        exact hQ d _ hd (cacheOk_fill hd) rfl
  · simp only [hen, Bool.not_false, ↓reduceIte]
    exact hR _ p hp rfl

/-- **`set_safety_data` stores its data when it succeeds**; when it fails the
backend holds the old data or the new, and the cache is dropped. -/
theorem wp_setSafetyData {Q : Unit → PersistentSafetyStorage σ → Prop} (d : SafetyData)
    (hQ : ∀ p', CacheOk S p' → S.stored p'.internalStore = some d → Q () p')
    (hR : ∀ e p', CacheOk S p' → (S.stored p'.internalStore = S.stored p.internalStore ∨
      S.stored p'.internalStore = some d) → R e p') :
    wp (setSafetyData S d) Q R p := by
  have hset := S.setSafetyData_stored p.internalStore d
  simp only [setSafetyData, wp_bind, wp_get]
  unfold wp at hset
  cases hrun : (S.setSafetyData d).run p.internalStore with
  | ok _ st =>
    rw [hrun] at hset
    simp only [wp_set]
    exact hQ _ (fun c hc => by cases hc; exact hset) hset
  | error e st =>
    rw [hrun] at hset
    simp only [wp_bind, wp_set, wp_throw]
    exact hR _ _ (fun c hc => by cases hc) hset

/-- `set_waypoint` leaves the safety data and the cache alone. -/
theorem wp_setWaypoint {Q : Unit → PersistentSafetyStorage σ → Prop} (hp : CacheOk S p) (w : Waypoint)
    (hQ : ∀ p', CacheOk S p' → S.stored p'.internalStore = S.stored p.internalStore → Q () p')
    (hR : ∀ e p', CacheOk S p' → S.stored p'.internalStore = S.stored p.internalStore → R e p') :
    wp (setWaypoint S w) Q R p := by
  have hset := S.setWaypoint_stored p.internalStore w
  simp only [setWaypoint, wp_bind, wp_get]
  unfold wp at hset
  cases hrun : (S.setWaypoint w).run p.internalStore with
  | ok _ st =>
    rw [hrun] at hset
    simp only [wp_set]
    exact hQ _ (fun c hc => hset.trans (hp c hc)) hset
  | error e st =>
    rw [hrun] at hset
    simp only [wp_bind, wp_set, wp_throw]
    exact hR _ _ (fun c hc => hset.trans (hp c hc)) hset

/-! ### Initialization -/

variable {st st' : σ} {author : Author} {consensusPrivateKey executionPrivateKey : Ed25519PrivateKey}
  {waypoint : Waypoint} {enableCachedSafetyData : Bool}

/-- Storage that takes the consensus key is initialized: once `initialize`
returns, the backend holds the safety data of epoch `1` and the cache agrees. -/
theorem init_of_imported (himport : (S.importConsensusKey consensusPrivateKey).run st = .ok () st')
    (h : init S st author consensusPrivateKey executionPrivateKey waypoint enableCachedSafetyData = some p) :
    S.stored p.internalStore = some ⟨1, 0, 0, 0, none⟩ ∧ p.CacheOk S := by
  have hrest : wp (do
      S.importExecutionKey executionPrivateKey
      S.setSafetyData ⟨1, 0, 0, 0, none⟩
      S.setOwnerAccount author
      S.setWaypoint waypoint) (fun _ s => S.stored s = some ⟨1, 0, 0, 0, none⟩) (fun _ _ => True) st' := by
    simp only [wp_bind]
    refine wp_mono (S.importExecutionKey_stored st' _) (fun _ s₁ _ => ?_) fun _ _ _ => trivial
    refine wp_mono (S.setSafetyData_stored s₁ _) (fun _ s₂ h₂ => ?_) fun _ _ _ => trivial
    refine wp_mono (S.setOwnerAccount_stored s₂ _) (fun _ s₃ h₃ => ?_) fun _ _ _ => trivial
    exact wp_mono (S.setWaypoint_stored s₃ _) (fun _ _ h₄ => h₄.trans (h₃.trans h₂)) fun _ _ _ => trivial
  unfold init at h
  simp only [himport] at h
  unfold wp at hrest
  split at h
  · rename_i internalStore hrun
    cases h
    rw [hrun] at hrest
    exact ⟨hrest, fun c hc => by cases hc; exact hrest⟩
  · cases h

/-- Storage that already holds the consensus key is left as it is, and the
cache holds the safety data of epoch `1` whatever the backend holds. -/
theorem init_of_keyAlreadyExists {key : String}
    (himport : (S.importConsensusKey consensusPrivateKey).run st = .error (.KeyAlreadyExists key) st') :
    init S st author consensusPrivateKey executionPrivateKey waypoint enableCachedSafetyData =
      some ⟨enableCachedSafetyData, some ⟨1, 0, 0, 0, none⟩, st'⟩ := by
  unfold init
  simp only [himport]

end PersistentSafetyStorage

end Consensus

end Diem
