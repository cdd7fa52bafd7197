import Diem.Consensus.SafetyRules.PersistentSafetyStorage

/-!
# Safety rules

`consensus/safety-rules/src/safety_rules.rs`, `safety_rules_2chain.rs` and
`configurable_validator_signer.rs`: the component that signs a validator's
votes, proposals and timeouts, and refuses to sign anything that could make the
validator equivocate or vote against its lock.

`SafetyRules σ` has the fields of the Rust struct, over a backend state `σ`
described by a `SecureStorage σ`. Methods on `&mut self` returning
`Result<_, Error>` are computations in `SafetyRules.M σ`, with the mutations made
before an early `return` or `?` kept, as in Rust; the rules that only update a
`&mut SafetyData` are functions from the old data to the new. A call
`self.persistent_storage.f()` is `withStorage (f ..)`, and each `guarded_*`
method follows the source statement by statement.

`verify_well_formed` reads the wall clock, so the two vote requests carry its
reading. Signing with a local key and checking signatures are the fields of
`Crypto`. Logging and metrics are left out, except that
`guarded_consensus_state` reads the author for its log line and fails when that
read fails. `SafetyRules::new` panics when the execution key is missing; the
model returns `none` there.
-/

namespace Diem

namespace Consensus

open SafetyRules (Error)

/-- `ConfigurableValidatorSigner`. -/
inductive ConfigurableValidatorSigner where
  /-- A `ValidatorSigner`, which holds the private key. -/
  | Signer (author : Author) (privateKey : Ed25519PrivateKey)
  /-- A `ValidatorHandle`: the key stays in storage, named by its version. -/
  | Handle (author : Author) (keyVersion : Ed25519PublicKey)

namespace ConfigurableValidatorSigner

variable (C : Crypto) {σ : Type} (S : SecureStorage σ)

/-- `new_signer`. -/
def newSigner (author : Author) (consensusKey : Ed25519PrivateKey) : ConfigurableValidatorSigner :=
  .Signer author consensusKey

/-- `new_handle`. -/
def newHandle (author : Author) (keyVersion : Ed25519PublicKey) : ConfigurableValidatorSigner :=
  .Handle author keyVersion

/-- `author`. -/
def author : ConfigurableValidatorSigner → Author
  | .Signer author _ => author
  | .Handle author _ => author

/-- `public_key`. -/
def publicKey : ConfigurableValidatorSigner → Ed25519PublicKey
  | .Signer _ privateKey => C.publicKey privateKey
  | .Handle _ keyVersion => keyVersion

/-- `sign`. -/
def sign (signer : ConfigurableValidatorSigner) (message : SigningMessage)
    (storage : PersistentSafetyStorage σ) : Except Error Ed25519Signature :=
  match signer with
  | .Signer _ privateKey => .ok (C.sign privateKey message)
  | .Handle _ keyVersion => storage.sign S keyVersion message

end ConfigurableValidatorSigner

/-- `ConsensusState`: what `consensus_state` reports. -/
structure ConsensusState where
  safetyData : SafetyData
  waypoint : Waypoint
  inValidatorSet : Bool
  deriving DecidableEq

/-- `SafetyRules`. -/
structure SafetyRules (σ : Type) where
  persistentStorage : PersistentSafetyStorage σ
  /-- The key of the execution service, when vote proposals must be signed by it. -/
  executionPublicKey : Option Ed25519PublicKey
  exportConsensusKey : Bool
  validatorSigner : Option ConfigurableValidatorSigner
  epochState : Option EpochState

namespace SafetyRules

/-- Methods on `&mut self` returning `Result<_, Error>`. -/
abbrev M (σ : Type) := EStateM Error (SafetyRules σ)

variable (C : Crypto) {σ : Type} (S : SecureStorage σ)

/-- Call a method of `self.persistent_storage` that takes `&mut self`. -/
def withStorage {α : Type} (x : EStateM Error (PersistentSafetyStorage σ) α) : M σ α :=
  EStateM.zoom persistentStorage (fun sr p => { sr with persistentStorage := p }) x

/-- `next_round`: `u64::checked_add(round, 1)`. -/
def nextRound (round : ℕ) : Except Error ℕ :=
  if round + 1 ≤ U64_MAX then .ok (round + 1) else .error (.IncorrectRound round)

/-- `SafetyRules::new`; `none` where the source panics. -/
def new (persistentStorage : PersistentSafetyStorage σ) (verifyVoteProposalSignature exportConsensusKey : Bool) :
    Option (SafetyRules σ) :=
  if verifyVoteProposalSignature then
    match persistentStorage.executionPublicKey S with
    | .ok key => some ⟨persistentStorage, some key, exportConsensusKey, none, none⟩
    | .error _ => none
  else some ⟨persistentStorage, none, exportConsensusKey, none, none⟩

/-! ### The rules -/

/-- `signer`. -/
def signer (sr : SafetyRules σ) : Except Error ConfigurableValidatorSigner :=
  match sr.validatorSigner with
  | some signer => .ok signer
  | none => .error (.NotInitialized "validator_signer")

/-- `epoch_state`. -/
def epochState' (sr : SafetyRules σ) : Except Error EpochState :=
  match sr.epochState with
  | some epochState => .ok epochState
  | none => .error (.NotInitialized "epoch_state")

/-- `sign`. -/
def sign (sr : SafetyRules σ) (message : SigningMessage) : Except Error Ed25519Signature := do
  let signer ← sr.signer
  signer.sign C S message sr.persistentStorage

/-- `observe_qc`: raise the 1-chain round to the certified round and the
preferred round to the parent's round. -/
def observeQc (qc : QuorumCert) (safetyData : SafetyData) : Bool × SafetyData :=
  let oneChain := qc.certifiedBlock.round
  let twoChain := qc.parentBlock.round
  let (updated, safetyData) :=
    if oneChain > safetyData.oneChainRound then (true, { safetyData with oneChainRound := oneChain })
    else (false, safetyData)
  if twoChain > safetyData.preferredRound then (true, { safetyData with preferredRound := twoChain })
  else (updated, safetyData)

/-- `construct_ledger_info`: the 3-chain commit rule. -/
def constructLedgerInfo (proposedBlock : Block) (consensusDataHash : HashValue) : Except Error LedgerInfo := do
  let block2 := proposedBlock.round
  let block1 := proposedBlock.quorumCert.certifiedBlock.round
  let block0 := proposedBlock.quorumCert.parentBlock.round
  -- `&&` evaluates the second `next_round` only when the first comparison holds
  let commit ← do
    if (← nextRound block0) = block1 then
      let next1 ← nextRound block1
      pure (next1 == block2)
    else pure false
  let commitInfo := if commit then proposedBlock.quorumCert.parentBlock else BlockInfo.empty
  pure ⟨commitInfo, consensusDataHash⟩

/-- `verify_and_update_preferred_round`: the second voting rule. -/
def verifyAndUpdatePreferredRound (quorumCert : QuorumCert) (safetyData : SafetyData) :
    Except Error (Bool × SafetyData) :=
  let preferredRound := safetyData.preferredRound
  let oneChainRound := quorumCert.certifiedBlock.round
  if oneChainRound < preferredRound then .error (.IncorrectPreferredRound oneChainRound preferredRound)
  else .ok (observeQc quorumCert safetyData)

/-- `verify_author`. -/
def verifyAuthor (sr : SafetyRules σ) (author : Option Author) : Except Error Unit := do
  let validatorSignerAuthor := (← sr.signer).author
  let author ← match author with
    | some author => pure author
    | none => throw (.InvalidProposal "No author found in the proposal")
  if validatorSignerAuthor ≠ author then
    throw (.InvalidProposal "Proposal author is not validator signer!")

/-- `verify_epoch`. -/
def verifyEpoch (epoch : ℕ) (safetyData : SafetyData) : Except Error Unit :=
  if epoch ≠ safetyData.epoch then .error (.IncorrectEpoch epoch safetyData.epoch) else .ok ()

/-- `verify_and_update_last_vote_round`: the first voting rule. -/
def verifyAndUpdateLastVoteRound (round : ℕ) (safetyData : SafetyData) : Except Error SafetyData :=
  if round ≤ safetyData.lastVotedRound then
    .error (.IncorrectLastVotedRound round safetyData.lastVotedRound)
  else .ok { safetyData with lastVotedRound := round }

/-- `verify_qc`. -/
def verifyQc (sr : SafetyRules σ) (qc : QuorumCert) : Except Error Unit := do
  let epochState ← sr.epochState'
  (qc.verify C epochState.verifier).mapError Error.InvalidQuorumCertificate

/-- `verify_proposal`: the checks every vote makes before the voting rules. -/
def verifyProposal (maybeSignedVoteProposal : MaybeSignedVoteProposal) (now : ℕ) : M σ VoteData := do
  let voteProposal := maybeSignedVoteProposal.voteProposal
  let executionSignature := maybeSignedVoteProposal.signature
  -- `if let Some(public_key) = self.execution_public_key.as_ref() { .. }`
  liftExcept (match (← get).executionPublicKey, executionSignature with
    | some publicKey, some signature =>
      (C.verifyVoteProposal signature voteProposal publicKey).mapError Error.InternalError
    | some _, none => .error .VoteProposalSignatureNotFound
    | none, _ => .ok ())
  let proposedBlock := voteProposal.block
  let safetyData ← withStorage (PersistentSafetyStorage.safetyData S)
  liftExcept (verifyEpoch proposedBlock.epoch safetyData)
  liftExcept ((← get).verifyQc C proposedBlock.quorumCert)
  let epochState ← liftExcept (← get).epochState'
  liftExcept ((proposedBlock.validateSignature C epochState.verifier).mapError Error.InvalidProposal)
  liftExcept ((proposedBlock.verifyWellFormed now).mapError Error.InvalidProposal)
  liftExcept ((voteProposal.genVoteData C).mapError Error.InvalidAccumulatorExtension)

/-! ### The 2-chain rules -/

/-- `safe_to_timeout`: the timeout extends the highest certificate or the
timeout certificate, and the certificate is not below the 1-chain round. -/
def safeToTimeout (timeout : TwoChainTimeout) (maybeTc : Option TwoChainTimeoutCertificate)
    (safetyData : SafetyData) : Except Error Unit := do
  let round := timeout.round
  let qcRound := timeout.hqcRound
  let tcRound := (maybeTc.map TwoChainTimeoutCertificate.round).getD 0
  -- `||` evaluates the second `next_round` only when the first comparison fails
  let roundOk ← do
    if round = (← nextRound qcRound) then pure true
    else
      let nextTc ← nextRound tcRound
      pure (round == nextTc)
  if roundOk && decide (qcRound ≥ safetyData.oneChainRound) then pure ()
  else throw (.NotSafeToTimeout round qcRound tcRound safetyData.oneChainRound)

/-- `safe_to_vote`: the block extends its certificate, or the timeout
certificate with a certificate at least as high as the highest it saw. -/
def safeToVote (block : Block) (maybeTc : Option TwoChainTimeoutCertificate) : Except Error Unit := do
  let round := block.round
  let qcRound := block.quorumCert.certifiedBlock.round
  let tcRound := (maybeTc.map TwoChainTimeoutCertificate.round).getD 0
  let hqcRound := (maybeTc.map TwoChainTimeoutCertificate.highestHqcRound).getD 0
  let safe ← do
    if round = (← nextRound qcRound) then pure true
    else
      let nextTc ← nextRound tcRound
      pure (round == nextTc && decide (qcRound ≥ hqcRound))
  if safe then pure () else throw (.NotSafeToVote round qcRound tcRound hqcRound)

/-- `verify_tc`. -/
def verifyTc (sr : SafetyRules σ) (tc : TwoChainTimeoutCertificate) : Except Error Unit := do
  let epochState ← sr.epochState'
  (tc.verify C epochState.verifier).mapError Error.InvalidTimeoutCertificate

/-- `construct_ledger_info_2chain`: the 2-chain commit rule. -/
def constructLedgerInfo2chain (proposedBlock : Block) (consensusDataHash : HashValue) :
    Except Error LedgerInfo := do
  let block1 := proposedBlock.round
  let block0 := proposedBlock.quorumCert.certifiedBlock.round
  let commit := (← nextRound block0) == block1
  let commitInfo := if commit then proposedBlock.quorumCert.certifiedBlock else BlockInfo.empty
  pure ⟨commitInfo, consensusDataHash⟩

/-! ### The requests -/

/-- `guarded_consensus_state`. -/
def guardedConsensusState : M σ ConsensusState := do
  let _waypoint ← liftExcept ((← get).persistentStorage.waypoint S)
  let _safetyData ← withStorage (PersistentSafetyStorage.safetyData S)
  let _author ← liftExcept ((← get).persistentStorage.author S)
  let safetyData ← withStorage (PersistentSafetyStorage.safetyData S)
  let waypoint ← liftExcept ((← get).persistentStorage.waypoint S)
  pure ⟨safetyData, waypoint, (← get).signer.isOk⟩

/-- The key reconciliation at the end of `guarded_initialize`: make sure the
signer holds the key the new validator set expects. -/
def reconcileKey (author : Author) (expectedKey : Option Ed25519PublicKey) : M σ Unit :=
  match expectedKey with
  | none => throw (.ValidatorNotInSet author.toString)
  | some expectedKey => do
    let currentKey := (← get).signer.toOption.map (ConfigurableValidatorSigner.publicKey C)
    if currentKey = some expectedKey then pure ()
    else if (← get).exportConsensusKey then
      match (← get).persistentStorage.consensusKeyForVersion S expectedKey with
      | .ok consensusKey =>
        modify fun sr => { sr with validatorSigner := some (.newSigner author consensusKey) }
      | .error (.SecureStorageMissingDataError error) => throw (.ValidatorKeyNotFound error)
      | .error error => throw error
    else do
      -- sign a test message to check that storage holds the expected key
      modify fun sr => { sr with validatorSigner := some (.newHandle author expectedKey) }
      match (← get).sign C S (.timeout ⟨0, 0⟩) with
      | .ok _ => pure ()
      | .error error => throw (.ValidatorKeyNotFound error.toString)

/-- `guarded_initialize`: move to the epoch the proof ends in, resetting the
safety data when it is newer than the stored one. -/
def guardedInitialize (proof : EpochChangeProof) : M σ Unit := do
  let waypoint ← liftExcept ((← get).persistentStorage.waypoint S)
  let lastLi ← liftExcept ((proof.verify C.ledgerInfoSigOk C.waypointHash (.waypoint waypoint)).mapError
    Error.InvalidEpochChangeProof)
  let ledgerInfo := lastLi.ledgerInfo
  let epochState ← liftExcept (match ledgerInfo.nextEpochState with
    | some epochState => .ok epochState
    | none => .error Error.InvalidLedgerInfo)
  let newWaypoint ← liftExcept ((Waypoint.newEpochBoundary C.waypointHash ledgerInfo).mapError Error.InternalError)
  (if newWaypoint.version > waypoint.version then
    withStorage (PersistentSafetyStorage.setWaypoint S newWaypoint)
  else pure () : M σ Unit)
  let currentEpoch := (← withStorage (PersistentSafetyStorage.safetyData S)).epoch
  (match compare currentEpoch epochState.epoch with
  | .gt =>
    throw (.NotInitialized ("Provided epoch " ++ Nat.repr epochState.epoch ++ " is older than current " ++
      Nat.repr currentEpoch ++ ", likely waypoint is too old"))
  | .lt => withStorage (PersistentSafetyStorage.setSafetyData S ⟨epochState.epoch, 0, 0, 0, none⟩)
  | .eq => pure () : M σ Unit)
  modify fun sr => { sr with epochState := some epochState }
  let author ← liftExcept ((← get).persistentStorage.author S)
  tryCatch (reconcileKey C S author (epochState.verifier.getPublicKey author)) fun error => do
    modify fun sr => { sr with validatorSigner := none }
    throw error

/-- `guarded_construct_and_sign_vote`: the 3-chain vote. -/
def guardedConstructAndSignVote (maybeSignedVoteProposal : MaybeSignedVoteProposal) (now : ℕ) :
    M σ Vote := do
  let _ ← liftExcept (← get).signer
  let voteData ← verifyProposal C S maybeSignedVoteProposal now
  let safetyData ← withStorage (PersistentSafetyStorage.safetyData S)
  let proposedBlock := maybeSignedVoteProposal.voteProposal.block
  -- `if let Some(vote) = last_vote { if vote round == block round { return Ok(vote) } }`:
  -- a second request for the round gets the vote already sent
  match safetyData.lastVote.filter (·.voteData.proposed.round == proposedBlock.round) with
  | some vote => pure vote
  | none => do
    let (_, safetyData) ← liftExcept (verifyAndUpdatePreferredRound proposedBlock.quorumCert safetyData)
    let safetyData ← liftExcept (verifyAndUpdateLastVoteRound proposedBlock.blockData.round safetyData)
    let author := (← liftExcept (← get).signer).author
    let ledgerInfo ← liftExcept (constructLedgerInfo proposedBlock (C.hashVoteData voteData))
    let signature ← liftExcept ((← get).sign C S (.ledgerInfo ledgerInfo))
    let vote := Vote.newWithSignature voteData author ledgerInfo signature
    withStorage (PersistentSafetyStorage.setSafetyData S { safetyData with lastVote := some vote })
    pure vote

/-- `guarded_sign_proposal`. The updated preferred round is not persisted. -/
def guardedSignProposal (blockData : BlockData) : M σ Ed25519Signature := do
  let _ ← liftExcept (← get).signer
  liftExcept ((← get).verifyAuthor blockData.author)
  let safetyData ← withStorage (PersistentSafetyStorage.safetyData S)
  liftExcept (verifyEpoch blockData.epoch safetyData)
  if blockData.round ≤ safetyData.lastVotedRound then
    throw (.InvalidProposal ("Proposed round " ++ Nat.repr blockData.round ++
      " is not higher than last voted round " ++ Nat.repr safetyData.lastVotedRound))
  liftExcept ((← get).verifyQc C blockData.quorumCert)
  let _ ← liftExcept (verifyAndUpdatePreferredRound blockData.quorumCert safetyData)
  liftExcept ((← get).sign C S (.blockData blockData))

/-- `guarded_sign_timeout`: the 3-chain timeout. -/
def guardedSignTimeout (timeout : Timeout) : M σ Ed25519Signature := do
  let _ ← liftExcept (← get).signer
  let safetyData ← withStorage (PersistentSafetyStorage.safetyData S)
  liftExcept (verifyEpoch timeout.epoch safetyData)
  if timeout.round ≤ safetyData.preferredRound then
    throw (.IncorrectPreferredRound timeout.round safetyData.preferredRound)
  if timeout.round < safetyData.lastVotedRound then
    throw (.IncorrectLastVotedRound timeout.round safetyData.lastVotedRound)
  if timeout.round > safetyData.lastVotedRound then
    let safetyData ← liftExcept (verifyAndUpdateLastVoteRound timeout.round safetyData)
    withStorage (PersistentSafetyStorage.setSafetyData S safetyData)
  liftExcept ((← get).sign C S (.timeout timeout))

/-- `guarded_sign_commit_vote`: sign the executed ledger info of an ordered
block a quorum has certified. -/
def guardedSignCommitVote (ledgerInfo : LedgerInfoWithSignatures) (newLedgerInfo : LedgerInfo) :
    M σ Ed25519Signature := do
  let _ ← liftExcept (← get).signer
  let oldLedgerInfo := ledgerInfo.ledgerInfo
  if !oldLedgerInfo.commitInfo.isOrderedOnly C.accumulatorPlaceholderHash then
    throw (.InvalidOrderedLedgerInfo oldLedgerInfo)
  if !oldLedgerInfo.commitInfo.matchOrderedOnly newLedgerInfo.commitInfo then
    throw (.InconsistentExecutionResult oldLedgerInfo.commitInfo newLedgerInfo.commitInfo)
  let epochState ← liftExcept (← get).epochState'
  liftExcept ((ledgerInfo.verifySignatures C.ledgerInfoSigOk epochState.verifier).mapError
    fun error => Error.InvalidQuorumCertificate error.toString)
  liftExcept ((← get).sign C S (.ledgerInfo newLedgerInfo))

/-- `guarded_sign_timeout_with_qc`: the 2-chain timeout. -/
def guardedSignTimeoutWithQc (timeout : TwoChainTimeout) (timeoutCert : Option TwoChainTimeoutCertificate) :
    M σ Ed25519Signature := do
  let _ ← liftExcept (← get).signer
  let safetyData ← withStorage (PersistentSafetyStorage.safetyData S)
  liftExcept (verifyEpoch timeout.epoch safetyData)
  liftExcept ((← get).verifyQc C timeout.quorumCert)
  let sr ← get
  liftExcept (match timeoutCert with
    | some tc => sr.verifyTc C tc
    | none => .ok ())
  liftExcept (safeToTimeout timeout timeoutCert safetyData)
  if timeout.round < safetyData.lastVotedRound then
    throw (.IncorrectLastVotedRound timeout.round safetyData.lastVotedRound)
  if timeout.round > safetyData.lastVotedRound then
    let safetyData ← liftExcept (verifyAndUpdateLastVoteRound timeout.round safetyData)
    withStorage (PersistentSafetyStorage.setSafetyData S safetyData)
  liftExcept ((← get).sign C S (.timeoutSigningRepr timeout.signingFormat))

/-- `guarded_construct_and_sign_vote_two_chain`: the 2-chain vote. -/
def guardedConstructAndSignVoteTwoChain (maybeSignedVoteProposal : MaybeSignedVoteProposal)
    (timeoutCert : Option TwoChainTimeoutCertificate) (now : ℕ) : M σ Vote := do
  let _ ← liftExcept (← get).signer
  let voteData ← verifyProposal C S maybeSignedVoteProposal now
  let sr ← get
  liftExcept (match timeoutCert with
    | some tc => sr.verifyTc C tc
    | none => .ok ())
  let proposedBlock := maybeSignedVoteProposal.voteProposal.block
  let safetyData ← withStorage (PersistentSafetyStorage.safetyData S)
  match safetyData.lastVote.filter (·.voteData.proposed.round == proposedBlock.round) with
  | some vote => pure vote
  | none => do
    let safetyData ← liftExcept (verifyAndUpdateLastVoteRound proposedBlock.blockData.round safetyData)
    liftExcept (safeToVote proposedBlock timeoutCert)
    let (_, safetyData) := observeQc proposedBlock.quorumCert safetyData
    let author := (← liftExcept (← get).signer).author
    let ledgerInfo ← liftExcept (constructLedgerInfo2chain proposedBlock (C.hashVoteData voteData))
    let signature ← liftExcept ((← get).sign C S (.ledgerInfo ledgerInfo))
    let vote := Vote.newWithSignature voteData author ledgerInfo signature
    withStorage (PersistentSafetyStorage.setSafetyData S { safetyData with lastVote := some vote })
    pure vote

end SafetyRules

end Consensus

end Diem
