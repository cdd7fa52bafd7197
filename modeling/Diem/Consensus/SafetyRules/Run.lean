import Diem.Consensus.SafetyRules.Spec
import Diem.Theory.Runs

/-!
# Safety rules as a machine answering requests

`SerializerService::handle_message` of `serializer.rs` takes one
`SafetyRulesInput`, calls the `TSafetyRules` method it names and answers with the
method's `Result`. `handleMessage` is that dispatch, a step function for
`Mealy.trace`; a run is any sequence of requests, each succeeding or failing.

`Advance` says what one request can do to the safety data the backend holds:
leave it, persist a vote of a higher round of the same epoch, raise the last
voted round for a timeout, or (only `initialize`) start a newer epoch from round
`0`. `Inv` (the cache agrees with the backend, and the stored last vote is of the
stored epoch and not above the stored rounds) holds after every request from a
state where it holds (`handleMessage_advance`). A vote returned is the stored last
vote or one newly signed and persisted (`handleMessage_vote`), and a timeout is
signed only for a round not below the stored last voted round, which it persists
(`handleMessage_timeout`).
-/

namespace Diem

namespace Consensus

namespace SafetyRules

open EStateM

variable (C : Crypto) {σ : Type} (S : SecureStorage σ)

/-- A request: `SafetyRulesInput`, with the wall-clock reading that
`verify_well_formed` takes for the two votes. -/
inductive Request where
  | ConsensusState
  | Initialize (proof : EpochChangeProof)
  | ConstructAndSignVote (proposal : MaybeSignedVoteProposal) (now : ℕ)
  | SignProposal (blockData : BlockData)
  | SignTimeout (timeout : Timeout)
  | SignTimeoutWithQC (timeout : TwoChainTimeout) (timeoutCert : Option TwoChainTimeoutCertificate)
  | ConstructAndSignVoteTwoChain (proposal : MaybeSignedVoteProposal)
      (timeoutCert : Option TwoChainTimeoutCertificate) (now : ℕ)
  | SignCommitVote (ledgerInfo : LedgerInfoWithSignatures) (newLedgerInfo : LedgerInfo)

/-- The answer to a request: the `Result` its method returns. -/
inductive Response where
  | consensusState (result : Except Error ConsensusState)
  | initialized (result : Except Error Unit)
  | vote (result : Except Error Vote)
  | signature (result : Except Error Ed25519Signature)

/-- Run a method and answer with its result. -/
def respond {α : Type} (answer : Except Error α → Response) (x : M σ α) (sr : SafetyRules σ) :
    Response × SafetyRules σ :=
  match x.run sr with
  | .ok a sr' => (answer (.ok a), sr')
  | .error e sr' => (answer (.error e), sr')

/-- `SerializerService::handle_message`. -/
def handleMessage (sr : SafetyRules σ) : Request → Response × SafetyRules σ
  | .ConsensusState => respond .consensusState (guardedConsensusState S) sr
  | .Initialize proof => respond .initialized (guardedInitialize C S proof) sr
  | .ConstructAndSignVote proposal now => respond .vote (guardedConstructAndSignVote C S proposal now) sr
  | .SignProposal blockData => respond .signature (guardedSignProposal C S blockData) sr
  | .SignTimeout timeout => respond .signature (guardedSignTimeout C S timeout) sr
  | .SignTimeoutWithQC timeout timeoutCert =>
    respond .signature (guardedSignTimeoutWithQc C S timeout timeoutCert) sr
  | .ConstructAndSignVoteTwoChain proposal timeoutCert now =>
    respond .vote (guardedConstructAndSignVoteTwoChain C S proposal timeoutCert now) sr
  | .SignCommitVote ledgerInfo newLedgerInfo =>
    respond .signature (guardedSignCommitVote C S ledgerInfo newLedgerInfo) sr

/-- `initialize`, the only request that may start a new epoch. -/
def Request.isInitialize : Request → Bool
  | .Initialize _ => true
  | _ => false

/-- The block a vote request proposes. -/
def Request.proposedBlock : Request → Option Block
  | .ConstructAndSignVote proposal _ => some proposal.voteProposal.block
  | .ConstructAndSignVoteTwoChain proposal _ _ => some proposal.voteProposal.block
  | _ => none

/-- The epoch and round of the timeout a request asks to sign, of either kind. -/
def Request.timeoutRound : Request → Option (ℕ × ℕ)
  | .SignTimeout timeout => some (timeout.epoch, timeout.round)
  | .SignTimeoutWithQC timeout _ => some (timeout.epoch, timeout.round)
  | _ => none

/-- The vote an answer returns. -/
def Response.vote? : Response → Option Vote
  | .vote (.ok v) => some v
  | _ => none

/-- Does the answer carry a signature? -/
def Response.signed : Response → Bool
  | .signature (.ok _) => true
  | _ => false

/-- The last vote the backend holds. -/
def lastVote (sr : SafetyRules σ) : Option Vote := (stored S sr).bind SafetyData.lastVote

/-! ### What one request does to the stored data -/

/-- The checks a newly signed vote `v` on `b` passed against the stored data
`d`, as far as later requests see them. -/
structure NewVote (d : SafetyData) (b : Block) (v : Vote) : Prop where
  blockEpoch : b.epoch = d.epoch
  epoch : v.epoch = d.epoch
  round : v.round = b.round
  lt : d.lastVotedRound < b.round
  parent : v.voteData.parent = b.quorumCert.certifiedBlock

/-- What one request can do to the stored safety data; only `initialize`
(`true`) may start an epoch. -/
inductive Advance : Bool → Option SafetyData → Option SafetyData → Prop
  /-- Nothing is written, or what is written is what was there. -/
  | keep {init : Bool} (o : Option SafetyData) : Advance init o o
  /-- A new vote `v` on `b`. -/
  | vote {init : Bool} (d : SafetyData) (b : Block) (v : Vote) (h : NewVote d b v) :
      Advance init (some d) (some (votedData d b v))
  /-- A timeout of round `r`, not below the last voted round. -/
  | timeout {init : Bool} (d : SafetyData) (r : ℕ) (hle : d.lastVotedRound ≤ r) :
      Advance init (some d) (some { d with lastVotedRound := r })
  /-- `initialize` moving to a newer epoch. -/
  | newEpoch (d : SafetyData) (e : ℕ) (hlt : d.epoch < e) :
      Advance true (some d) (some ⟨e, 0, 0, 0, none⟩)

@[simp] theorem votedData_epoch (d : SafetyData) (b : Block) (v : Vote) : (votedData d b v).epoch = d.epoch := by
  simp [votedData, observeQc_snd]

@[simp] theorem votedData_lastVotedRound (d : SafetyData) (b : Block) (v : Vote) :
    (votedData d b v).lastVotedRound = b.round := rfl

@[simp] theorem votedData_lastVote (d : SafetyData) (b : Block) (v : Vote) :
    (votedData d b v).lastVote = some v := rfl

@[simp] theorem votedData_preferredRound (d : SafetyData) (b : Block) (v : Vote) :
    (votedData d b v).preferredRound = max d.preferredRound b.quorumCert.parentBlock.round := by
  simp [votedData, observeQc_snd]

@[simp] theorem votedData_oneChainRound (d : SafetyData) (b : Block) (v : Vote) :
    (votedData d b v).oneChainRound = max d.oneChainRound b.quorumCert.certifiedBlock.round := by
  simp [votedData, observeQc_snd]

theorem newVote_of_genVoteData {d : SafetyData} {p : VoteProposal} {v : Vote}
    (hepoch : p.block.epoch = d.epoch) (hlt : d.lastVotedRound < p.block.round)
    (hgen : p.genVoteData C = .ok v.voteData) : NewVote d p.block v := by
  obtain ⟨hround, hep, hparent⟩ := genVoteData_eq_ok C hgen
  exact ⟨hepoch, hep.trans hepoch, hround, hlt, hparent⟩

theorem VoteChecks3.newVote {d : SafetyData} {m : MaybeSignedVoteProposal} {now : ℕ} {v : Vote}
    (h : VoteChecks3 C d m now v) : NewVote d m.voteProposal.block v :=
  newVote_of_genVoteData C h.1 h.2.2.1 h.2.2.2.2.1

theorem VoteChecks2.newVote {d : SafetyData} {m : MaybeSignedVoteProposal}
    {tc : Option TwoChainTimeoutCertificate} {now : ℕ} {v : Vote}
    (h : VoteChecks2 C d m tc now v) : NewVote d m.voteProposal.block v :=
  newVote_of_genVoteData C h.1 h.2.2.1 h.2.2.2.2.1

/-! ### The invariant -/

/-- The stored last vote is of the stored epoch, in a round voted in, on a
block whose certificate is not above the 1-chain round. -/
def DataOk (d : SafetyData) : Prop :=
  ∀ v, d.lastVote = some v → v.epoch = d.epoch ∧ v.round ≤ d.lastVotedRound ∧
    v.voteData.parent.round ≤ d.oneChainRound

/-- The invariant of runs. -/
structure Inv (sr : SafetyRules σ) : Prop where
  cacheOk : CacheOk S sr
  dataOk : ∀ d, stored S sr = some d → DataOk d

theorem Advance.dataOk {init : Bool} {o o' : Option SafetyData} (h : Advance init o o')
    (hd : ∀ d, o = some d → DataOk d) : ∀ d', o' = some d' → DataOk d' := by
  cases h with
  | keep => exact hd
  | vote d b v hv =>
    rintro _ ⟨⟩ w hw
    obtain rfl : v = w := Option.some.inj hw
    refine ⟨by simp [hv.epoch], by simp [hv.round], ?_⟩
    simp [hv.parent]
  | timeout d r hle =>
    rintro _ ⟨⟩ w hw
    obtain ⟨h₁, h₂, h₃⟩ := hd d rfl w hw
    exact ⟨h₁, h₂.trans hle, h₃⟩
  | newEpoch d e hlt =>
    rintro _ ⟨⟩ w hw
    cases hw

/-- An instance built by `SafetyRules::new` over a store whose cache agrees
with it and whose stored data is consistent satisfies `Inv`. -/
theorem inv_new {p : PersistentSafetyStorage σ} {verifyVoteProposalSignature exportConsensusKey : Bool}
    {sr : SafetyRules σ} (h : SafetyRules.new S p verifyVoteProposalSignature exportConsensusKey = some sr)
    (hp : p.CacheOk S) (hd : ∀ d, S.stored p.internalStore = some d → DataOk d) : Inv S sr := by
  have hsr : sr.persistentStorage = p := by
    unfold SafetyRules.new at h
    split_ifs at h
    · split at h
      · cases h; rfl
      · cases h
    · cases h; rfl
  subst hsr
  exact ⟨hp, hd⟩

/-! ### From the requests' specifications to `Advance` -/

variable {S} {s : SafetyRules σ}

variable {s' : SafetyRules σ} {init : Bool}

theorem advance_of_kept (h : Kept S s s') : CacheOk S s' ∧ Advance init (stored S s) (stored S s') :=
  ⟨h.1, h.2 ▸ .keep _⟩

theorem advance_of_epochStarted (h : CacheOk S s' ∧ EpochStarted (stored S s) (stored S s')) :
    CacheOk S s' ∧ Advance true (stored S s) (stored S s') := by
  refine ⟨h.1, ?_⟩
  obtain h | ⟨d, e, hd, hlt, h⟩ := h.2
  · exact h ▸ .keep _
  · exact hd ▸ h ▸ .newEpoch d e hlt

theorem advance_of_timeout {r : ℕ}
    (h : CacheOk S s' ∧ ∃ d, stored S s = some d ∧ d.lastVotedRound ≤ r ∧
      stored S s' = some { d with lastVotedRound := r }) :
    CacheOk S s' ∧ Advance init (stored S s) (stored S s') := by
  obtain ⟨hc, d, hd, hle, hst⟩ := h
  exact ⟨hc, hd ▸ hst ▸ .timeout d r hle⟩

theorem advance_of_timeoutWritten {e r : ℕ} (h : CacheOk S s' ∧ TimeoutWritten (stored S s) (stored S s') e r) :
    CacheOk S s' ∧ Advance init (stored S s) (stored S s') := by
  obtain ⟨hc, h | ⟨d, hd, -, hlt, hst⟩⟩ := h
  · exact ⟨hc, h ▸ .keep _⟩
  · exact advance_of_timeout ⟨hc, d, hd, hlt.le, hst⟩

section Votes

variable {b : Block} {P : SafetyData → Vote → Prop} (hnew : ∀ d v, P d v → NewVote d b v)
include hnew

/-- A vote that is returned was sent again or persisted as new. -/
theorem advance_of_voted {v : Vote}
    (h : CacheOk S s' ∧ ∃ d, stored S s = some d ∧ ((d.lastVote = some v ∧ v.round = b.round ∧
      stored S s' = stored S s) ∨ (P d v ∧ stored S s' = some (votedData d b v)))) :
    CacheOk S s' ∧ Advance init (stored S s) (stored S s') := by
  obtain ⟨hc, d, hd, ⟨-, -, hst⟩ | ⟨hp, hst⟩⟩ := h
  · exact ⟨hc, hst ▸ .keep _⟩
  · exact ⟨hc, hd ▸ hst ▸ .vote d b v (hnew d v hp)⟩

/-- A vote that fails may still have persisted the new vote. -/
theorem advance_of_voteFailed
    (h : CacheOk S s' ∧ (stored S s' = stored S s ∨ ∃ d v, stored S s = some d ∧ P d v ∧
      stored S s' = some (votedData d b v))) :
    CacheOk S s' ∧ Advance init (stored S s) (stored S s') := by
  obtain ⟨hc, hst | ⟨d, v, hd, hp, hst⟩⟩ := h
  · exact ⟨hc, hst ▸ .keep _⟩
  · exact ⟨hc, hd ▸ hst ▸ .vote d b v (hnew d v hp)⟩

end Votes

theorem respond_post {α : Type} {answer : Except Error α → Response} {x : M σ α}
    {P : SafetyRules σ → Prop} (h : wp x (fun _ => P) (fun _ => P) s) : P (respond answer x s).2 := by
  unfold wp at h
  unfold respond
  split <;> simp_all

theorem respond_spec {α : Type} {answer : Except Error α → Response} {x : M σ α}
    {P : Response → SafetyRules σ → Prop}
    (h : wp x (fun a => P (answer (.ok a))) (fun e => P (answer (.error e))) s) :
    P (respond answer x s).1 (respond answer x s).2 := by
  unfold wp at h
  unfold respond
  split <;> simp_all

/-- **One request** keeps the cache in agreement with the backend, and
advances the stored data as `Advance` allows. -/
theorem handleMessage_advance (req : Request) (hs : CacheOk S s) :
    CacheOk S (handleMessage C S s req).2 ∧
      Advance req.isInitialize (stored S s) (stored S (handleMessage C S s req).2) := by
  cases req with
  | ConsensusState =>
    exact respond_post (wp_mono (wp_guardedConsensusState hs) (fun _ _ => advance_of_kept)
      fun _ _ => advance_of_kept)
  | Initialize proof =>
    exact respond_post (wp_mono (wp_guardedInitialize C proof hs) (fun _ _ => advance_of_epochStarted)
      fun _ _ => advance_of_epochStarted)
  | ConstructAndSignVote m now =>
    exact respond_post (wp_mono (wp_guardedConstructAndSignVote C m now hs)
      (fun _ _ => advance_of_voted fun _ _ hc => hc.newVote C)
      fun _ _ => advance_of_voteFailed fun _ _ hc => hc.newVote C)
  | SignProposal b =>
    exact respond_post (wp_mono (wp_guardedSignProposal C b hs) (fun _ _ => advance_of_kept)
      fun _ _ => advance_of_kept)
  | SignTimeout t =>
    exact respond_post (wp_mono (wp_guardedSignTimeout C t hs)
      (fun _ _ ⟨hc, d, hd, _, _, hle, hst⟩ => advance_of_timeout ⟨hc, d, hd, hle, hst⟩)
      fun _ _ => advance_of_timeoutWritten)
  | SignTimeoutWithQC t tc =>
    exact respond_post (wp_mono (wp_guardedSignTimeoutWithQc C t tc hs)
      (fun _ _ ⟨hc, d, hd, _, _, hle, hst⟩ => advance_of_timeout ⟨hc, d, hd, hle, hst⟩)
      fun _ _ => advance_of_timeoutWritten)
  | ConstructAndSignVoteTwoChain m tc now =>
    exact respond_post (wp_mono (wp_guardedConstructAndSignVoteTwoChain C m tc now hs)
      (fun _ _ => advance_of_voted fun _ _ hc => hc.newVote C)
      fun _ _ => advance_of_voteFailed fun _ _ hc => hc.newVote C)
  | SignCommitVote li newLi =>
    exact respond_post (wp_mono (wp_guardedSignCommitVote C li newLi hs) (fun _ _ => advance_of_kept)
      fun _ _ => advance_of_kept)

theorem handleMessage_cacheOk (req : Request) (hs : CacheOk S s) : CacheOk S (handleMessage C S s req).2 :=
  (handleMessage_advance C req hs).1

/-- `Inv` holds after every request from a state where it holds. -/
theorem handleMessage_inv (req : Request) (hs : Inv S s) : Inv S (handleMessage C S s req).2 := by
  obtain ⟨hc, hadv⟩ := handleMessage_advance C req hs.cacheOk
  exact ⟨hc, hadv.dataOk hs.dataOk⟩

/-! ### What a request returns -/

/-- What a request that returned the vote `v` on the proposed block `b` did,
from the stored data `d` to `o'`: it sent the stored vote of `b`'s round
again, or signed a new vote that passed `P` and persisted it. -/
def Voted (P : SafetyData → Vote → Prop) (d : SafetyData) (b : Block) (v : Vote) (o' : Option SafetyData) :
    Prop :=
  (d.lastVote = some v ∧ v.round = b.round ∧ o' = some d) ∨ (P d v ∧ o' = some (votedData d b v))

theorem Voted.mono {P P' : SafetyData → Vote → Prop} {d : SafetyData} {b : Block} {v : Vote}
    {o' : Option SafetyData} (h : Voted P d b v o') (hP : P d v → P' d v) : Voted P' d b v o' :=
  h.imp_right (And.imp_left hP)

/-- A vote not stored before the request is a new one. -/
theorem Voted.fresh {P : SafetyData → Vote → Prop} {d : SafetyData} {b : Block} {v : Vote}
    {o' : Option SafetyData} (h : Voted P d b v o') (hfresh : d.lastVote ≠ some v) :
    P d v ∧ o' = some (votedData d b v) := by
  obtain ⟨hlast, -⟩ | h := h
  · exact absurd hlast hfresh
  · exact h

/-- What a request that signed a timeout of epoch `e` and round `r` did, from
the stored data `d` to `o'`. -/
def Timed (e r : ℕ) (d : SafetyData) (o' : Option SafetyData) : Prop :=
  e = d.epoch ∧ d.lastVotedRound ≤ r ∧ o' = some { d with lastVotedRound := r }

theorem respond_vote?_eq_none {α : Type} {answer : Except Error α → Response} {x : M σ α}
    (h : ∀ r, (answer r).vote? = none) : (respond answer x s).1.vote? = none := by
  unfold respond
  split <;> exact h _

/-- The specification of a vote request, read at the vote it returns. -/
theorem respond_vote {x : M σ Vote} {b : Block} {P : SafetyData → Vote → Prop} {R : Error → SafetyRules σ → Prop}
    (h : wp x (fun v s' => CacheOk S s' ∧ ∃ d, stored S s = some d ∧
      ((d.lastVote = some v ∧ v.round = b.round ∧ stored S s' = stored S s) ∨
        (P d v ∧ stored S s' = some (votedData d b v)))) R s)
    {v : Vote} (hv : (respond .vote x s).1.vote? = some v) :
    ∃ d, stored S s = some d ∧ Voted P d b v (stored S (respond .vote x s).2) := by
  refine respond_spec (P := fun r s' => ∀ v, r.vote? = some v → ∃ d, stored S s = some d ∧
    Voted P d b v (stored S s')) (wp_mono h (fun w s' h' v hv => ?_) fun _ _ _ v hv => ?_) v hv
  · cases hv
    obtain ⟨-, d, hd, h'⟩ := h'
    exact ⟨d, hd, h'.imp_left fun ⟨h₁, h₂, h₃⟩ => ⟨h₁, h₂, h₃.trans hd⟩⟩
  · cases hv

/-- The specification of a timeout request, read at the signature it returns. -/
theorem respond_timeout {x : M σ Ed25519Signature} {e r : ℕ} {X : SafetyData → Prop}
    {R : Error → SafetyRules σ → Prop}
    (h : wp x (fun _ s' => CacheOk S s' ∧ ∃ d, stored S s = some d ∧ e = d.epoch ∧ X d ∧
      d.lastVotedRound ≤ r ∧ stored S s' = some { d with lastVotedRound := r }) R s)
    (hsig : (respond .signature x s).1.signed = true) :
    ∃ d, stored S s = some d ∧ X d ∧ Timed e r d (stored S (respond .signature x s).2) := by
  refine respond_spec (P := fun resp s' => resp.signed = true → ∃ d, stored S s = some d ∧ X d ∧
    Timed e r d (stored S s')) (wp_mono h (fun _ s' h' _ => ?_) fun _ _ _ hsig => ?_) hsig
  · obtain ⟨-, d, hd, he, hx, hle, hst⟩ := h'
    exact ⟨d, hd, hx, he, hle, hst⟩
  · cases hsig

/-- **A returned vote** is the stored vote of the proposed block's round, or a
new vote on that block, persisted. -/
theorem handleMessage_vote (req : Request) (hs : CacheOk S s) {v : Vote}
    (hv : (handleMessage C S s req).1.vote? = some v) :
    ∃ d b, stored S s = some d ∧ req.proposedBlock = some b ∧
      Voted (fun d v => NewVote d b v) d b v (stored S (handleMessage C S s req).2) := by
  cases req
  case ConstructAndSignVote m now =>
    obtain ⟨d, hd, h⟩ := respond_vote (wp_guardedConstructAndSignVote C m now hs) hv
    exact ⟨d, _, hd, rfl, h.mono (VoteChecks3.newVote C)⟩
  case ConstructAndSignVoteTwoChain m tc now =>
    obtain ⟨d, hd, h⟩ := respond_vote (wp_guardedConstructAndSignVoteTwoChain C m tc now hs) hv
    exact ⟨d, _, hd, rfl, h.mono (VoteChecks2.newVote C)⟩
  all_goals
    simp only [handleMessage] at hv
    rw [respond_vote?_eq_none fun _ => rfl] at hv
    cases hv

/-- A new 3-chain vote passed the checks of `VoteChecks3`. -/
theorem handleMessage_vote3 {m : MaybeSignedVoteProposal} {now : ℕ} (hs : CacheOk S s) {v : Vote}
    (hv : (handleMessage C S s (.ConstructAndSignVote m now)).1.vote? = some v) :
    ∃ d, stored S s = some d ∧ Voted (fun d v => VoteChecks3 C d m now v) d m.voteProposal.block v
      (stored S (handleMessage C S s (.ConstructAndSignVote m now)).2) :=
  respond_vote (wp_guardedConstructAndSignVote C m now hs) hv

/-- A new 2-chain vote passed the checks of `VoteChecks2`. -/
theorem handleMessage_vote2 {m : MaybeSignedVoteProposal} {tc : Option TwoChainTimeoutCertificate} {now : ℕ}
    (hs : CacheOk S s) {v : Vote}
    (hv : (handleMessage C S s (.ConstructAndSignVoteTwoChain m tc now)).1.vote? = some v) :
    ∃ d, stored S s = some d ∧ Voted (fun d v => VoteChecks2 C d m tc now v) d m.voteProposal.block v
      (stored S (handleMessage C S s (.ConstructAndSignVoteTwoChain m tc now)).2) :=
  respond_vote (wp_guardedConstructAndSignVoteTwoChain C m tc now hs) hv

/-- **A signed timeout**, of either kind, is of the stored epoch and not below
the stored last voted round, which it raises to its own. -/
theorem handleMessage_timeout (req : Request) (hs : CacheOk S s) {e r : ℕ} (ht : req.timeoutRound = some (e, r))
    (hsig : (handleMessage C S s req).1.signed = true) :
    ∃ d, stored S s = some d ∧ Timed e r d (stored S (handleMessage C S s req).2) := by
  cases req
  case SignTimeout t =>
    cases ht
    obtain ⟨d, hd, -, h⟩ := respond_timeout (wp_guardedSignTimeout C t hs) hsig
    exact ⟨d, hd, h⟩
  case SignTimeoutWithQC t tc =>
    cases ht
    obtain ⟨d, hd, -, h⟩ := respond_timeout (wp_guardedSignTimeoutWithQc C t tc hs) hsig
    exact ⟨d, hd, h⟩
  all_goals cases ht

/-- A signed 2-chain timeout passed `safe_to_timeout` against the stored data. -/
theorem handleMessage_timeoutWithQc {t : TwoChainTimeout} {tc : Option TwoChainTimeoutCertificate}
    (hs : CacheOk S s) (hsig : (handleMessage C S s (.SignTimeoutWithQC t tc)).1.signed = true) :
    ∃ d, stored S s = some d ∧ safeToTimeout t tc d = .ok () ∧
      Timed t.epoch t.round d (stored S (handleMessage C S s (.SignTimeoutWithQC t tc)).2) :=
  respond_timeout (wp_guardedSignTimeoutWithQc C t tc hs) hsig

end SafetyRules

end Consensus

end Diem
