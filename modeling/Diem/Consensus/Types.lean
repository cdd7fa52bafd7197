import Diem.Types.LedgerInfo

/-!
# Consensus types

`consensus/consensus-types`: blocks and the quorum certificates they carry,
votes, the two kinds of timeouts, the 2-chain timeout certificate, the vote
proposal safety rules receive, and `SafetyData`, the state safety rules keep in
secure storage.

Signature checks and the `CryptoHash` of structured values are the fields of
`Crypto`, so every statement holds for any signature scheme and any hash. A
block's payload is the list of its transactions' hashes, since the modelled code
only asks whether it is empty. `verify_well_formed` reads the wall clock; here
the time is an argument. The accumulator extension proof a vote proposal carries
is checked by `Crypto.extensionVerify`, which returns the root hash and version
of the extended accumulator.
-/

namespace Diem

namespace Consensus

/-- `VoteData`: the block voted for and its parent. -/
structure VoteData where
  /-- The block being voted on. -/
  proposed : BlockInfo
  /-- The block it extends. -/
  parent : BlockInfo
  deriving DecidableEq

/-- `QuorumCert`: the vote data and the quorum's signatures on the ledger info
that carries its hash. -/
structure QuorumCert where
  /-- The certified vote data. -/
  voteData : VoteData
  /-- `signed_ledger_info`. -/
  signedLedgerInfo : LedgerInfoWithSignatures
  deriving DecidableEq

namespace QuorumCert

/-- `certified_block`. -/
def certifiedBlock (qc : QuorumCert) : BlockInfo := qc.voteData.proposed

/-- `parent_block`. -/
def parentBlock (qc : QuorumCert) : BlockInfo := qc.voteData.parent

/-- `ends_epoch`. -/
def endsEpoch (qc : QuorumCert) : Bool := qc.signedLedgerInfo.ledgerInfo.endsEpoch

end QuorumCert

/-- `BlockType`. -/
inductive BlockType where
  /-- A proposal with its transactions and author. -/
  | Proposal (payload : List HashValue) (author : Author)
  /-- A block proposed by nobody after a timeout. -/
  | NilBlock
  /-- The first block of an epoch. -/
  | Genesis
  deriving DecidableEq

/-- `BlockData`: the signed part of a block. -/
structure BlockData where
  /-- The epoch. -/
  epoch : ℕ
  /-- The round. -/
  round : ℕ
  /-- The proposer's timestamp. -/
  timestampUsecs : ℕ
  /-- The certificate of the parent. -/
  quorumCert : QuorumCert
  /-- What kind of block. -/
  blockType : BlockType
  deriving DecidableEq

namespace BlockData

/-- `author`. -/
def author (b : BlockData) : Option Author :=
  match b.blockType with
  | .Proposal _ author => some author
  | _ => none

/-- `payload`. -/
def payload (b : BlockData) : Option (List HashValue) :=
  match b.blockType with
  | .Proposal payload _ => some payload
  | _ => none

/-- `is_genesis_block`. -/
def isGenesisBlock (b : BlockData) : Bool := b.blockType == .Genesis

/-- `is_nil_block`. -/
def isNilBlock (b : BlockData) : Bool := b.blockType == .NilBlock

end BlockData

/-- `Block`: block data with its id and the proposer's signature. -/
structure Block where
  /-- The hash of the block data. -/
  id : HashValue
  /-- The block data. -/
  blockData : BlockData
  /-- The proposer's signature, absent for nil and genesis blocks. -/
  signature : Option Ed25519Signature
  deriving DecidableEq

namespace Block

/-- `epoch`. -/
def epoch (b : Block) : ℕ := b.blockData.epoch

/-- `round`. -/
def round (b : Block) : ℕ := b.blockData.round

/-- `quorum_cert`. -/
def quorumCert (b : Block) : QuorumCert := b.blockData.quorumCert

/-- `timestamp_usecs`. -/
def timestampUsecs (b : Block) : ℕ := b.blockData.timestampUsecs

/-- `gen_block_info`. -/
def genBlockInfo (b : Block) (executedStateId : HashValue) (version : ℕ)
    (nextEpochState : Option EpochState) : BlockInfo :=
  ⟨b.epoch, b.round, b.id, executedStateId, version, b.timestampUsecs, nextEpochState⟩

end Block

/-- `Timeout`: a signed statement that a round timed out (3-chain). -/
structure Timeout where
  /-- The epoch. -/
  epoch : ℕ
  /-- The round. -/
  round : ℕ
  deriving DecidableEq

/-- `TwoChainTimeout`: a timeout carrying the highest certificate its signer has seen. -/
structure TwoChainTimeout where
  /-- The epoch. -/
  epoch : ℕ
  /-- The round. -/
  round : ℕ
  /-- The highest quorum certificate of the signer. -/
  quorumCert : QuorumCert
  deriving DecidableEq

/-- `TimeoutSigningRepr`: what a 2-chain timeout signature signs. -/
structure TimeoutSigningRepr where
  /-- The epoch. -/
  epoch : ℕ
  /-- The round. -/
  round : ℕ
  /-- The round of the highest certificate. -/
  hqcRound : ℕ
  deriving DecidableEq

namespace TwoChainTimeout

/-- `hqc_round`. -/
def hqcRound (t : TwoChainTimeout) : ℕ := t.quorumCert.certifiedBlock.round

/-- `signing_format`. -/
def signingFormat (t : TwoChainTimeout) : TimeoutSigningRepr := ⟨t.epoch, t.round, t.hqcRound⟩

end TwoChainTimeout

/-- `TimeoutCertificate`: signatures of a quorum on a 3-chain timeout. -/
structure TimeoutCertificate where
  /-- The timeout. -/
  timeout : Timeout
  /-- `BTreeMap<Author, Ed25519Signature>`. -/
  signatures : AList (fun _ : Author => Ed25519Signature)
  deriving DecidableEq

namespace TimeoutCertificate

/-- `TimeoutCertificate::new`. -/
def new (timeout : Timeout) : TimeoutCertificate := ⟨timeout, ∅⟩

/-- `add_signature`: `entry(author).or_insert(signature)`. -/
def addSignature (tc : TimeoutCertificate) (author : Author) (signature : Ed25519Signature) :
    TimeoutCertificate :=
  { tc with signatures := tc.signatures.orInsert author signature }

@[simp] theorem new_signatures (timeout : Timeout) : (new timeout).signatures = ∅ := rfl

@[simp] theorem addSignature_signatures (tc : TimeoutCertificate) (author : Author) (signature : Ed25519Signature) :
    (tc.addSignature author signature).signatures = tc.signatures.orInsert author signature := rfl

@[simp] theorem addSignature_timeout (tc : TimeoutCertificate) (author : Author) (signature : Ed25519Signature) :
    (tc.addSignature author signature).timeout = tc.timeout := rfl

end TimeoutCertificate

/-- `TwoChainTimeoutCertificate`: the timeout with the highest certificate, and
each signer's signature with the round of its own highest certificate. -/
structure TwoChainTimeoutCertificate where
  /-- The timeout with the highest quorum certificate seen so far. -/
  timeout : TwoChainTimeout
  /-- `BTreeMap<Author, (Round, Ed25519Signature)>`. -/
  signatures : AList (fun _ : Author => ℕ × Ed25519Signature)
  deriving DecidableEq

namespace TwoChainTimeoutCertificate

/-- `TwoChainTimeoutCertificate::new`. -/
def new (timeout : TwoChainTimeout) : TwoChainTimeoutCertificate := ⟨timeout, ∅⟩

/-- `round`. -/
def round (tc : TwoChainTimeoutCertificate) : ℕ := tc.timeout.round

/-- `highest_hqc_round`. -/
def highestHqcRound (tc : TwoChainTimeoutCertificate) : ℕ := tc.timeout.hqcRound

/-- `signers`. -/
def signers (tc : TwoChainTimeoutCertificate) : List Author := tc.signatures.keys

/-- `add`: keep the timeout with the higher certificate, and record the
author's round and signature (a `BTreeMap::insert`, which replaces an earlier
entry of the same author). -/
def add (tc : TwoChainTimeoutCertificate) (author : Author) (timeout : TwoChainTimeout)
    (signature : Ed25519Signature) : TwoChainTimeoutCertificate :=
  { timeout := if timeout.hqcRound > tc.timeout.hqcRound then timeout else tc.timeout
    signatures := tc.signatures.insert author (timeout.hqcRound, signature) }

/-- The highest round the signers recorded, as the loop of `verify` computes
it in `signed_round`. -/
def signedRound (tc : TwoChainTimeoutCertificate) : ℕ :=
  tc.signatures.entries.foldl (fun signedRound x => max signedRound x.2.1) 0

@[simp] theorem new_signatures (timeout : TwoChainTimeout) : (new timeout).signatures = ∅ := rfl

@[simp] theorem new_highestHqcRound (timeout : TwoChainTimeout) :
    (new timeout).highestHqcRound = timeout.hqcRound := rfl

@[simp] theorem new_signedRound (timeout : TwoChainTimeout) : (new timeout).signedRound = 0 := rfl

@[simp] theorem add_signatures (tc : TwoChainTimeoutCertificate) (author : Author) (timeout : TwoChainTimeout)
    (signature : Ed25519Signature) :
    (tc.add author timeout signature).signatures = tc.signatures.insert author (timeout.hqcRound, signature) := rfl

/-- `add` keeps the timeout with the higher certificate. -/
@[simp] theorem add_highestHqcRound (tc : TwoChainTimeoutCertificate) (author : Author)
    (timeout : TwoChainTimeout) (signature : Ed25519Signature) :
    (tc.add author timeout signature).highestHqcRound = max tc.highestHqcRound timeout.hqcRound := by
  simp only [add, highestHqcRound]
  split_ifs <;> omega

/-- Adding a new signer raises the highest recorded round to the signer's.
(A signer added again would replace its round, which can lower it.) -/
theorem add_signedRound {tc : TwoChainTimeoutCertificate} {author : Author} (timeout : TwoChainTimeout)
    (signature : Ed25519Signature) (h : author ∉ tc.signatures) :
    (tc.add author timeout signature).signedRound = max tc.signedRound timeout.hqcRound := by
  -- the loop is a fold of `max`, which can start from any of its arguments
  have hfold : ∀ (l : List (Σ _ : Author, ℕ × Ed25519Signature)) (b c : ℕ),
      l.foldl (fun m x => max m x.2.1) (max c b) = max c (l.foldl (fun m x => max m x.2.1) b) := by
    intro l
    induction l with
    | nil => intro b c; rfl
    | cons x l ih =>
      intro b c
      rw [List.foldl_cons, List.foldl_cons, max_assoc, ih]
  unfold signedRound
  rw [add_signatures, AList.entries_insert_of_notMem h, List.foldl_cons, max_comm, hfold, max_comm]

end TwoChainTimeoutCertificate

/-- `Vote`. -/
structure Vote where
  /-- The vote data. -/
  voteData : VoteData
  /-- The voter. -/
  author : Author
  /-- The ledger info committed if this vote joins a quorum. -/
  ledgerInfo : LedgerInfo
  /-- The signature of the ledger info. -/
  signature : Ed25519Signature
  /-- A round signature for a 3-chain timeout certificate. -/
  timeoutSignature : Option Ed25519Signature
  /-- A 2-chain timeout and its signature. -/
  twoChainTimeout : Option (TwoChainTimeout × Ed25519Signature)
  deriving DecidableEq

namespace Vote

/-- `Vote::new_with_signature`. -/
def newWithSignature (voteData : VoteData) (author : Author) (ledgerInfo : LedgerInfo)
    (signature : Ed25519Signature) : Vote :=
  ⟨voteData, author, ledgerInfo, signature, none, none⟩

/-- `epoch`. -/
def epoch (v : Vote) : ℕ := v.voteData.proposed.epoch

/-- The round voted for, `vote_data().proposed().round()`. -/
def round (v : Vote) : ℕ := v.voteData.proposed.round

/-- `is_timeout`. -/
def isTimeout (v : Vote) : Bool := v.timeoutSignature.isSome || v.twoChainTimeout.isSome

/-- `generate_timeout`: the 3-chain timeout of the vote's epoch and round. -/
def generateTimeout (v : Vote) : Timeout := ⟨v.epoch, v.round⟩

end Vote

/-- `SafetyData`: what safety rules persist between requests. -/
structure SafetyData where
  /-- The current epoch. -/
  epoch : ℕ
  /-- The highest round voted or timed out in. -/
  lastVotedRound : ℕ
  /-- The highest 2-chain round, used by the 3-chain rules. -/
  preferredRound : ℕ
  /-- The highest 1-chain round, used by the 2-chain rules. -/
  oneChainRound : ℕ
  /-- The last vote, sent again when asked to vote in its round. -/
  lastVote : Option Vote
  deriving DecidableEq

/-- `AccumulatorExtensionProof`: the frozen subtrees of the parent's
accumulator, its size, and the leaves the block appends. -/
structure AccumulatorExtensionProof where
  /-- The frozen subtree roots of the original accumulator. -/
  frozenSubtreeRoots : List HashValue
  /-- The number of leaves of the original accumulator. -/
  numLeaves : ℕ
  /-- The appended leaves. -/
  leaves : List HashValue
  deriving DecidableEq

/-- `VoteProposal`. -/
structure VoteProposal where
  /-- How the block extends its parent's accumulator. -/
  accumulatorExtensionProof : AccumulatorExtensionProof
  /-- The block to vote for. -/
  block : Block
  /-- The validator set of the next epoch, if the block ends the epoch. -/
  nextEpochState : Option EpochState
  /-- Whether execution is decoupled, so the executed state id is a placeholder. -/
  decoupledExecution : Bool
  deriving DecidableEq

/-- `MaybeSignedVoteProposal`. -/
structure MaybeSignedVoteProposal where
  /-- The vote proposal. -/
  voteProposal : VoteProposal
  /-- The execution service's signature of it, if it signs. -/
  signature : Option Ed25519Signature
  deriving DecidableEq

/-- The messages safety rules signs. -/
inductive SigningMessage where
  /-- A vote's or commit vote's ledger info. -/
  | ledgerInfo (li : LedgerInfo)
  /-- A proposal's block data. -/
  | blockData (b : BlockData)
  /-- A 3-chain timeout. -/
  | timeout (t : Timeout)
  /-- A 2-chain timeout. -/
  | timeoutSigningRepr (t : TimeoutSigningRepr)
  deriving DecidableEq

/-- The cryptography consensus calls: signature checks, hashes, signing with a
local key, and the check of an accumulator extension. -/
structure Crypto where
  /-- Does the signature verify for this key and message? -/
  sigOk : Ed25519PublicKey → SigningMessage → Ed25519Signature → Bool
  /-- `Signature::verify` of the execution service's signature of a vote
  proposal, failing with the library's message. -/
  verifyVoteProposal : Ed25519Signature → VoteProposal → Ed25519PublicKey → Except String Unit
  /-- `VoteData::hash`. -/
  hashVoteData : VoteData → HashValue
  /-- `LedgerInfo::hash`. -/
  hashLedgerInfo : LedgerInfo → HashValue
  /-- The hash behind `Waypoint::new_any`. -/
  waypointHash : LedgerInfo → HashValue
  /-- `ValidatorSigner::sign`, with a private key. -/
  sign : Ed25519PrivateKey → SigningMessage → Ed25519Signature
  /-- The public key of a private key. -/
  publicKey : Ed25519PrivateKey → Ed25519PublicKey
  /-- `AccumulatorExtensionProof::verify`: the root hash and version of the
  extended accumulator, if the proof extends `original_root`. -/
  extensionVerify : AccumulatorExtensionProof → HashValue → Except String (HashValue × ℕ)
  /-- `ACCUMULATOR_PLACEHOLDER_HASH`. -/
  accumulatorPlaceholderHash : HashValue

variable (C : Crypto)

/-- Signature checks on ledger infos, as `ValidatorVerifier` takes them. -/
def Crypto.ledgerInfoSigOk (pk : Ed25519PublicKey) (li : LedgerInfo) (sig : Ed25519Signature) : Bool :=
  C.sigOk pk (.ledgerInfo li) sig

/-- `VoteData::verify`: well-formedness independent of the state. -/
def VoteData.verify (vd : VoteData) : Except String Unit :=
  if vd.parent.epoch ≠ vd.proposed.epoch then .error "Parent and proposed epochs do not match"
  else if ¬ vd.parent.round < vd.proposed.round then .error "Proposed round is less than parent round"
  else if ¬ vd.parent.timestampUsecs ≤ vd.proposed.timestampUsecs then .error "Proposed happened before parent"
  else if ¬ (vd.proposed.version = 0 ∨ vd.parent.version ≤ vd.proposed.version) then
    .error "Proposed version is less than parent version"
  else .ok ()

/-- `QuorumCert::verify`. -/
def QuorumCert.verify (qc : QuorumCert) (validator : ValidatorVerifier) : Except String Unit :=
  if qc.signedLedgerInfo.ledgerInfo.consensusDataHash ≠ C.hashVoteData qc.voteData then
    .error "Quorum Cert's hash mismatch LedgerInfo"
  else if qc.certifiedBlock.round = 0 then
    if qc.parentBlock ≠ qc.certifiedBlock then
      .error "Genesis QC has inconsistent parent block with certified block"
    else if qc.certifiedBlock ≠ qc.signedLedgerInfo.ledgerInfo.commitInfo then
      .error "Genesis QC has inconsistent commit block with certified block"
    else if qc.signedLedgerInfo.signatures.entries ≠ [] then .error "Genesis QC should not carry signatures"
    else .ok ()
  else match qc.signedLedgerInfo.verifySignatures C.ledgerInfoSigOk validator with
    | .error _ => .error "Fail to verify QuorumCert"
    | .ok () => qc.voteData.verify

/-- `TwoChainTimeoutCertificate::verify`. -/
def TwoChainTimeoutCertificate.verify (tc : TwoChainTimeoutCertificate) (validators : ValidatorVerifier) :
    Except String Unit := do
  let hqcRound := tc.timeout.hqcRound
  if ¬ hqcRound < tc.timeout.round then throw "Timeout round should be larger than the QC round"
  tc.timeout.quorumCert.verify C validators
  match validators.checkVotingPower tc.signatures.keys with
  | .error _ => throw "too little voting power"
  | .ok () => pure ()
  let signedRound ← tc.signatures.entries.foldlM (fun signedRound x =>
    match validators.verify C.sigOk x.1 (.timeoutSigningRepr ⟨tc.timeout.epoch, tc.timeout.round, x.2.1⟩) x.2.2 with
    | .ok () => .ok (max signedRound x.2.1)
    | .error _ => .error "Failed to verify TimeoutSigningRepr") 0
  if hqcRound ≠ signedRound then throw "Inconsistent hqc round"

/-- What `verify` checks: a certificate whose timeout's round is above its
`hqc_round`, whose certificate verifies, whose signers reach a quorum and whose
signatures verify passes exactly when its `hqc_round` is the highest round
its signers recorded. -/
theorem TwoChainTimeoutCertificate.verify_eq_ok {tc : TwoChainTimeoutCertificate}
    {validators : ValidatorVerifier} (hround : tc.highestHqcRound < tc.round)
    (hqc : tc.timeout.quorumCert.verify C validators = .ok ())
    (hpower : validators.checkVotingPower tc.signers = .ok ())
    (hsig : ∀ x ∈ tc.signatures.entries, validators.verify C.sigOk x.1
      (.timeoutSigningRepr ⟨tc.timeout.epoch, tc.timeout.round, x.2.1⟩) x.2.2 = .ok ()) :
    tc.verify C validators = .ok () ↔ tc.highestHqcRound = tc.signedRound := by
  have hloop := Except.foldlM_eq_ok (b := 0) (g := fun signedRound (x : Σ _ : Author, ℕ × Ed25519Signature) =>
    max signedRound x.2.1) (l := tc.signatures.entries) (f := fun signedRound x =>
      match validators.verify C.sigOk x.1 (.timeoutSigningRepr ⟨tc.timeout.epoch, tc.timeout.round, x.2.1⟩) x.2.2 with
      | .ok () => .ok (max signedRound x.2.1)
      | .error _ => .error "Failed to verify TimeoutSigningRepr") (fun b c hc => by simp only [hsig c hc])
  unfold highestHqcRound round signers at *
  simp only [verify, hround, not_true_eq_false, if_false, hqc, hpower, hloop, signedRound, Except.ok_bind]
  -- what is left is the hqc-consistency check itself
  split_ifs with h <;> simp_all

/-- `Block::validate_signature`. -/
def Block.validateSignature (b : Block) (validator : ValidatorVerifier) : Except String Unit :=
  match b.blockData.blockType with
  | .Genesis => .error "We should not accept genesis from others"
  | .NilBlock => b.quorumCert.verify C validator
  | .Proposal _ author =>
    match b.signature with
    | none => .error "Missing signature in Proposal"
    | some signature =>
      match validator.verify C.sigOk author (.blockData b.blockData) signature with
      | .error _ => .error "invalid proposer signature"
      | .ok () => b.quorumCert.verify C validator

/-- `Block::verify_well_formed`, at wall-clock time `now` (microseconds). -/
def Block.verifyWellFormed (b : Block) (now : ℕ) : Except String Unit :=
  let parent := b.quorumCert.certifiedBlock
  if b.blockData.isGenesisBlock then .error "We must not accept genesis from others"
  else if ¬ parent.round < b.round then .error "Block must have a greater round than parent's block"
  else if parent.epoch ≠ b.epoch then .error "block's parent should be in the same epoch"
  else if parent.hasReconfiguration ∧ ¬ (b.blockData.payload.map List.isEmpty).getD true then
    .error "Reconfiguration suffix should not carry payload"
  else if b.blockData.isNilBlock ∨ parent.hasReconfiguration then
    if b.timestampUsecs ≠ parent.timestampUsecs then
      .error "Nil/reconfig suffix block must have same timestamp as parent"
    else if b.quorumCert.endsEpoch then .error "Block cannot be proposed in an epoch that has ended"
    else .ok ()
  else if ¬ parent.timestampUsecs < b.timestampUsecs then
    .error "Blocks must have strictly increasing timestamps"
  else if ¬ b.timestampUsecs ≤ min (now + 300000000) U64_MAX then
    .error "Blocks must not be too far in the future"
  else if b.quorumCert.endsEpoch then .error "Block cannot be proposed in an epoch that has ended"
  else .ok ()

/-- `VoteProposal::gen_vote_data`. The ordering-only vote data carries
`ACCUMULATOR_PLACEHOLDER_HASH` and version `0`. -/
def VoteProposal.genVoteData (p : VoteProposal) : Except String VoteData :=
  if p.decoupledExecution then
    .ok ⟨p.block.genBlockInfo C.accumulatorPlaceholderHash 0 p.nextEpochState,
      p.block.quorumCert.certifiedBlock⟩
  else do
    let (root, version) ← C.extensionVerify p.accumulatorExtensionProof
      p.block.quorumCert.certifiedBlock.executedStateId
    pure ⟨p.block.genBlockInfo root version p.nextEpochState, p.block.quorumCert.certifiedBlock⟩

end Consensus

end Diem
