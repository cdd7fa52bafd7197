import Diem.Consensus.SafetyRules.Run
import Diem.Secure.Storage.InMemory
import Diem.Secure.Storage.Vault

/-!
# Safety of one safety-rules instance over its runs

The guarantees one node's safety rules give DiemBFT, over every run of
requests (`Mealy.trace (handleMessage C S)`) from a state satisfying the run
invariant, whatever each request asks and whether it succeeds or fails:

* `safetyData_monotone`: the persisted safety data only moves forward: a
  later epoch, or the same epoch with no round lower; the rounds are reset only
  by `initialize` moving to a later epoch.
* `no_equivocation`: two votes of one round of an epoch are the same vote, a
  new vote is of a round above every vote and timeout signed before it, and a
  timeout is never signed for a round below one voted in.
* `locking_rules`: each vote and 2-chain timeout is signed under the rule
  that governs it, and the locks they leave (`preferred_round`,
  `one_chain_round`) bind every later vote and 2-chain timeout of the epoch.

Each run theorem is one application of `Mealy.pairwise_trace`: the stored
data remembers (`Remembered`) what each returned vote or signed timeout
promises, every request keeps what is remembered (`Advance.remembered`), and a
later request's checks meet what is remembered.
-/

namespace Diem

namespace Consensus

namespace SafetyRules

open Mealy

variable (C : Crypto) {σ : Type} (S : SecureStorage σ)

/-! ### What the stored data remembers -/

/-- The stored data `o` has not gone back before epoch `e`, and while it is at
`e` its `field` is at least `r`. -/
def Remembered (field : SafetyData → ℕ) (e r : ℕ) (o : Option SafetyData) : Prop :=
  ∀ d, o = some d → e ≤ d.epoch ∧ (d.epoch = e → r ≤ field d)

/-- A field of the safety data that neither a new vote nor a timeout lowers. -/
structure Raised (field : SafetyData → ℕ) : Prop where
  vote : ∀ d b v, NewVote d b v → field d ≤ field (votedData d b v)
  timeout : ∀ d r, d.lastVotedRound ≤ r → field d ≤ field { d with lastVotedRound := r }

theorem raised_lastVotedRound : Raised SafetyData.lastVotedRound :=
  ⟨fun _ _ _ h => by simpa using h.lt.le, fun _ _ h => h⟩

theorem raised_preferredRound : Raised SafetyData.preferredRound :=
  ⟨fun _ _ _ _ => by simp, fun _ _ _ => le_rfl⟩

theorem raised_oneChainRound : Raised SafetyData.oneChainRound :=
  ⟨fun _ _ _ _ => by simp, fun _ _ _ => le_rfl⟩

variable {init : Bool} {o o' : Option SafetyData} {field : SafetyData → ℕ} {e r : ℕ}

/-- **What is remembered survives every request**: a vote or a timeout raises
the field within the epoch, and a new epoch is later than every remembered one. -/
theorem Advance.remembered (h : Advance init o o') (hf : Raised field) (hm : Remembered field e r o) :
    Remembered field e r o' := by
  cases h with
  | keep => exact hm
  | vote d b v hv =>
    rintro _ ⟨⟩
    obtain ⟨he, hr⟩ := hm d rfl
    exact ⟨by simpa using he, fun hd => (hr (by simpa using hd)).trans (hf.vote d b v hv)⟩
  | timeout d r' hle =>
    rintro _ ⟨⟩
    obtain ⟨he, hr⟩ := hm d rfl
    exact ⟨he, fun hd => (hr hd).trans (hf.timeout d r' hle)⟩
  | newEpoch d e' hlt =>
    rintro _ ⟨⟩
    obtain ⟨he, -⟩ := hm d rfl
    refine ⟨(he.trans hlt.le : e ≤ e'), fun hd => ?_⟩
    dsimp only at hd
    omega

/-- The stored data of `v`'s epoch holds no other vote of `v`'s round. -/
def VoteKept (v : Vote) (o : Option SafetyData) : Prop :=
  ∀ d, o = some d → d.epoch = v.epoch → ∀ w, d.lastVote = some w → w.round = v.round → w = v

/-- A new vote replaces the stored one only in a round above every round voted
in, so a remembered vote stays the only one of its round. -/
theorem Advance.voteKept {v : Vote} (h : Advance init o o')
    (hm : Remembered SafetyData.lastVotedRound v.epoch v.round o) (hk : VoteKept v o) : VoteKept v o' := by
  cases h with
  | keep => exact hk
  | vote d b w hw =>
    rintro _ ⟨⟩ hd w' hw' hr
    obtain rfl : w = w' := Option.some.inj hw'
    have hle : v.round ≤ d.lastVotedRound := (hm d rfl).2 (by simpa using hd)
    have := hw.lt
    rw [hw.round] at hr
    omega
  | timeout d r' hle =>
    rintro _ ⟨⟩ hd w hw hr
    exact hk d rfl hd w hw hr
  | newEpoch d e' hlt =>
    rintro _ ⟨⟩ _ w hw
    cases hw

/-! ### A fresh instance

Every instance built by `SafetyRules::new` over a freshly initialized
in-memory store satisfies `Inv`, so the run theorems below hold of all its
runs. The concrete runs below use one such instance, with cryptography in which a key
signs by naming itself. -/

/-- Cryptography in which a signature is the signing key, every hash is zero,
and the execution service's and the accumulator's checks pass. -/
def keyNamingCrypto : Crypto where
  sigOk publicKey _ signature := publicKey.val == signature.val
  verifyVoteProposal _ _ _ := .ok ()
  hashVoteData _ := HashValue.zero
  hashLedgerInfo _ := HashValue.zero
  waypointHash _ := HashValue.zero
  sign privateKey _ := ⟨privateKey.val⟩
  publicKey privateKey := ⟨privateKey.val⟩
  extensionVerify _ _ := .ok (HashValue.zero, 0)
  accumulatorPlaceholderHash := HashValue.zero

/-- The validator set of the concrete runs: the validator `⟨1⟩` with key `⟨7⟩` and
voting power `1`. -/
def oneValidator : ValidatorVerifier :=
  ⟨(∅ : AList fun _ : AccountAddress => ValidatorConsensusInfo).insert ⟨1⟩ ⟨⟨7⟩, 1⟩, 1, 1⟩

/-- An instance built by `SafetyRules::new` over storage that
`PersistentSafetyStorage::initialize` initialized (the consensus key was
imported) satisfies the run invariant. -/
theorem inv_init {st st' : σ} {author : Author} {consensusPrivateKey executionPrivateKey : Ed25519PrivateKey}
    {waypoint : Waypoint} {enableCachedSafetyData verifyVoteProposalSignature exportConsensusKey : Bool}
    {p : PersistentSafetyStorage σ} {sr : SafetyRules σ}
    (himport : (S.importConsensusKey consensusPrivateKey).run st = .ok () st')
    (hp : PersistentSafetyStorage.init S st author consensusPrivateKey executionPrivateKey waypoint
      enableCachedSafetyData = some p)
    (h : SafetyRules.new S p verifyVoteProposalSignature exportConsensusKey = some sr) : Inv S sr := by
  obtain ⟨hst, hcache⟩ := PersistentSafetyStorage.init_of_imported himport hp
  refine inv_new S h hcache fun d hd => ?_
  rw [hst] at hd
  cases hd
  rintro v ⟨⟩

/-- `SafetyRules::new`, without the execution key check, over an empty
in-memory store initialized for the validator `⟨1⟩` with consensus key `⟨7⟩`,
at the waypoint of version `0`, with the cache enabled. -/
def freshInstance : SafetyRules Secure.InMemoryStorage :=
  ⟨⟨true, some ⟨1, 0, 0, 0, none⟩,
    ⟨some ⟨1, 0, 0, 0, none⟩, some ⟨1⟩, some ⟨0, HashValue.zero⟩, some ⟨8⟩, some ⟨7⟩, none⟩⟩,
    none, false, none, none⟩

theorem freshInstance_inv (C : Crypto) : Inv (Secure.inMemoryStorage C) freshInstance :=
  @inv_init _ (Secure.inMemoryStorage C) .new _ ⟨1⟩ ⟨7⟩ ⟨8⟩ ⟨0, HashValue.zero⟩ true false false _ _ rfl rfl rfl

/-! ### A concrete run

`initialize` to epoch `1`, a 2-chain vote on a block of round `1`, and a
2-chain timeout of round `1`. -/

/-- The change to epoch `1`: the genesis ledger info at version `0`. -/
def epochOneProof : EpochChangeProof :=
  ⟨[⟨⟨⟨0, 0, HashValue.zero, HashValue.zero, 0, 0, some ⟨1, oneValidator⟩⟩, HashValue.zero⟩, ∅⟩], false⟩

/-- The genesis block of epoch `1`. -/
def epochOneGenesis : BlockInfo := ⟨1, 0, HashValue.zero, HashValue.zero, 0, 0, none⟩

/-- A nil block of round `1` on the genesis certificate, ordered only. -/
def roundOneProposal : MaybeSignedVoteProposal :=
  ⟨⟨⟨[], 0, []⟩, ⟨⟨5⟩, ⟨1, 1, 0, ⟨⟨epochOneGenesis, epochOneGenesis⟩, ⟨⟨epochOneGenesis, HashValue.zero⟩, ∅⟩⟩,
    .NilBlock⟩, none⟩, none, true⟩, none⟩

/-- A 2-chain timeout of round `1` carrying a certificate of round `2` signed by
the validator. -/
def roundOneTimeout : TwoChainTimeout :=
  ⟨1, 1, ⟨⟨⟨1, 2, HashValue.zero, HashValue.zero, 0, 0, none⟩, epochOneGenesis⟩,
    ⟨⟨epochOneGenesis, HashValue.zero⟩, (∅ : AList fun _ : AccountAddress => Ed25519Signature).insert ⟨1⟩ ⟨7⟩⟩⟩⟩

/-- The requests of the run. -/
def epochOneRun : List Request :=
  [.Initialize epochOneProof, .ConstructAndSignVoteTwoChain roundOneProposal none 0,
    .SignTimeoutWithQC roundOneTimeout none]

/-! ### The persisted data only moves forward -/

/-- One request's effect on the stored data: the same epoch with no round
lower, or `initialize` moving to a later epoch with every round `0` and no
vote. -/
def EpochStep (init : Bool) (o o' : Option SafetyData) : Prop :=
  (o' = o ∨ ∃ d d', o = some d ∧ o' = some d' ∧ d'.epoch = d.epoch ∧
      d.lastVotedRound ≤ d'.lastVotedRound ∧ d.preferredRound ≤ d'.preferredRound ∧
      d.oneChainRound ≤ d'.oneChainRound) ∨
    (init = true ∧ ∃ d e, o = some d ∧ d.epoch < e ∧ o' = some ⟨e, 0, 0, 0, none⟩)

/-- The order of persisted data: a later epoch, or the same epoch with no round
lower. -/
def SafetyDataLe (d d' : SafetyData) : Prop :=
  d.epoch < d'.epoch ∨ (d.epoch = d'.epoch ∧ d.lastVotedRound ≤ d'.lastVotedRound ∧
    d.preferredRound ≤ d'.preferredRound ∧ d.oneChainRound ≤ d'.oneChainRound)

/-- Stored data `o'` is not behind `o`: once something is stored, something at
least as far is. -/
def PersistedLe (o o' : Option SafetyData) : Prop :=
  ∀ d, o = some d → ∃ d', o' = some d' ∧ SafetyDataLe d d'

theorem SafetyDataLe.trans {d₁ d₂ d₃ : SafetyData} (h₁₂ : SafetyDataLe d₁ d₂) (h₂₃ : SafetyDataLe d₂ d₃) :
    SafetyDataLe d₁ d₃ := by
  unfold SafetyDataLe at *
  omega

theorem PersistedLe.trans {o₁ o₂ o₃ : Option SafetyData} (h₁₂ : PersistedLe o₁ o₂) (h₂₃ : PersistedLe o₂ o₃) :
    PersistedLe o₁ o₃ := by
  intro d₁ hd₁
  obtain ⟨d₂, hd₂, h₁⟩ := h₁₂ d₁ hd₁
  obtain ⟨d₃, hd₃, h₂⟩ := h₂₃ d₂ hd₂
  exact ⟨d₃, hd₃, h₁.trans h₂⟩

theorem Advance.epochStep (h : Advance init o o') : EpochStep init o o' := by
  cases h with
  | keep => exact Or.inl (Or.inl rfl)
  | vote d b v hv =>
    refine Or.inl (Or.inr ⟨d, _, rfl, rfl, by simp, ?_, by simp, by simp⟩)
    simpa using hv.lt.le
  | timeout d r hle => exact Or.inl (Or.inr ⟨d, _, rfl, rfl, rfl, hle, le_rfl, le_rfl⟩)
  | newEpoch d e hlt => exact Or.inr ⟨rfl, d, e, rfl, hlt, rfl⟩

theorem EpochStep.persistedLe (h : EpochStep init o o') : PersistedLe o o' := by
  rintro d rfl
  obtain (rfl | ⟨_, d', ⟨⟩, rfl, he, hl, hp, ho⟩) | ⟨-, _, e, ⟨⟩, hlt, rfl⟩ := h
  · exact ⟨d, rfl, Or.inr ⟨rfl, le_rfl, le_rfl, le_rfl⟩⟩
  · exact ⟨d', rfl, Or.inr ⟨he.symm, hl, hp, ho⟩⟩
  · exact ⟨_, rfl, Or.inl hlt⟩

/-- **The persisted safety data only moves forward** over every run from a
state whose cache agrees with the backend: each request keeps the epoch and
lowers no round, or is `initialize` moving to a later epoch from round `0`;
and the data after any request is not behind the data after an earlier one. -/
theorem safetyData_monotone (s : SafetyRules σ) (hs : CacheOk S s) (reqs : List Request) :
    (∀ t ∈ trace (handleMessage C S) s reqs,
      EpochStep t.input.isInitialize (stored S t.pre) (stored S t.post)) ∧
    (trace (handleMessage C S) s reqs).Pairwise fun t t' => PersistedLe (stored S t.post) (stored S t'.post) := by
  have hstep : ∀ s i, CacheOk S s → CacheOk S (handleMessage C S s i).2 := fun _ i => handleMessage_cacheOk C i
  refine ⟨forall_trace _ hstep (fun s i hs => (handleMessage_advance C i hs).2.epochStep) hs, ?_⟩
  exact pairwise_trace_of_trans _ (r := fun s s' => PersistedLe (stored S s) (stored S s'))
    (fun _ _ _ => PersistedLe.trans) hstep (fun s i hs => (handleMessage_advance C i hs).2.epochStep.persistedLe) hs

theorem safetyData_monotone_freshInstance :
    CacheOk (Secure.inMemoryStorage keyNamingCrypto) freshInstance ∧
    (∀ t ∈ trace (handleMessage keyNamingCrypto (Secure.inMemoryStorage keyNamingCrypto)) freshInstance epochOneRun,
      EpochStep t.input.isInitialize (stored (Secure.inMemoryStorage keyNamingCrypto) t.pre)
        (stored (Secure.inMemoryStorage keyNamingCrypto) t.post)) ∧
    (trace (handleMessage keyNamingCrypto (Secure.inMemoryStorage keyNamingCrypto)) freshInstance epochOneRun).Pairwise
      fun t t' => PersistedLe (stored (Secure.inMemoryStorage keyNamingCrypto) t.post)
        (stored (Secure.inMemoryStorage keyNamingCrypto) t'.post) :=
  ⟨(freshInstance_inv _).cacheOk,
    safetyData_monotone keyNamingCrypto _ freshInstance (freshInstance_inv _).cacheOk epochOneRun⟩

/-! An instance whose cache does not agree with its storage: Vault storage that
an earlier instance initialized and used up to round `100` of epoch `5`.
`initialize` takes it as initialized and leaves it as it is, but starts the
cache at epoch `1`; the `initialize` request that moves the instance to epoch
`5` then writes round `0` of epoch `5` over round `100`. -/

/-- Vault storage initialized for the validator `⟨1⟩` and used up to round
`100` of epoch `5`. -/
def usedVault : Secure.VaultStorage :=
  ⟨some ⟨5, 100, 100, 100, none⟩, some ⟨1⟩, some ⟨0, HashValue.zero⟩, [⟨7⟩], [⟨8⟩]⟩

/-- The instance `SafetyRules::new` builds over `initialize` of `usedVault`. -/
def reinitializedInstance : SafetyRules Secure.VaultStorage :=
  ⟨⟨true, some ⟨1, 0, 0, 0, none⟩, usedVault⟩, none, false, none, none⟩

/-- The change to epoch `5`, at the waypoint of version `0`. -/
def epochFiveProof : EpochChangeProof :=
  ⟨[⟨⟨⟨4, 0, HashValue.zero, HashValue.zero, 0, 0, some ⟨5, oneValidator⟩⟩, HashValue.zero⟩, ∅⟩], false⟩

theorem safetyData_reset_within_epoch :
    PersistentSafetyStorage.init (Secure.vaultStorage keyNamingCrypto) usedVault ⟨1⟩ ⟨7⟩ ⟨8⟩
      ⟨0, HashValue.zero⟩ true = some reinitializedInstance.persistentStorage ∧
    SafetyRules.new (Secure.vaultStorage keyNamingCrypto) reinitializedInstance.persistentStorage false false =
      some reinitializedInstance ∧
    stored (Secure.vaultStorage keyNamingCrypto) reinitializedInstance = some ⟨5, 100, 100, 100, none⟩ ∧
    stored (Secure.vaultStorage keyNamingCrypto)
      (handleMessage keyNamingCrypto (Secure.vaultStorage keyNamingCrypto) reinitializedInstance
        (.Initialize epochFiveProof)).2 = some ⟨5, 0, 0, 0, none⟩ :=
  ⟨rfl, rfl, rfl, rfl⟩

/-! ### No equivocation -/

/-- No equivocation between an earlier transition `t₁` and a later one `t₂` of a
run. -/
def NoEquivocation (t₁ t₂ : Transition (SafetyRules σ) Request Response) : Prop :=
  -- two votes of one round of an epoch are one vote
  (∀ v₁ v₂, t₁.output.vote? = some v₁ → t₂.output.vote? = some v₂ → v₁.epoch = v₂.epoch →
    v₁.round = v₂.round → v₁ = v₂) ∧
  -- a vote other than the stored one is of a round above every earlier vote and timeout
  (∀ v₂, t₂.output.vote? = some v₂ → lastVote S t₂.pre ≠ some v₂ →
    (∀ v₁, t₁.output.vote? = some v₁ → v₁.epoch = v₂.epoch → v₁.round < v₂.round) ∧
    ∀ e r, t₁.input.timeoutRound = some (e, r) → t₁.output.signed = true → e = v₂.epoch → r < v₂.round) ∧
  -- no timeout below a round voted in
  ∀ e r, t₂.input.timeoutRound = some (e, r) → t₂.output.signed = true →
    ∀ v₁, t₁.output.vote? = some v₁ → v₁.epoch = e → v₁.round ≤ r

/-- What the stored data `o` remembers of the transition `t`: the round of the
vote it returned, as the only vote of that round, and the round of the timeout
it signed. -/
def VotesRemembered (t : Transition (SafetyRules σ) Request Response) (o : Option SafetyData) : Prop :=
  (∀ v, t.output.vote? = some v → Remembered SafetyData.lastVotedRound v.epoch v.round o ∧ VoteKept v o) ∧
  ∀ e r, t.input.timeoutRound = some (e, r) → t.output.signed = true →
    Remembered SafetyData.lastVotedRound e r o

variable {d : SafetyData} {b : Block} {v v₁ v₂ : Vote} {t : Transition (SafetyRules σ) Request Response}

theorem Advance.votesRemembered (h : Advance init o o') (hm : VotesRemembered t o) : VotesRemembered t o' :=
  ⟨fun v hv => ⟨h.remembered raised_lastVotedRound (hm.1 v hv).1, h.voteKept (hm.1 v hv).1 (hm.1 v hv).2⟩,
    fun e r ht hsig => h.remembered raised_lastVotedRound (hm.2 e r ht hsig)⟩

/-- A returned vote is remembered by the data the request leaves: the stored
vote through the invariant, a new one because it is what is stored. -/
theorem Voted.remembered (h : Voted (fun d v => NewVote d b v) d b v o') (hd : DataOk d) :
    Remembered SafetyData.lastVotedRound v.epoch v.round o' ∧ VoteKept v o' := by
  obtain ⟨hlast, -, rfl⟩ | ⟨hv, rfl⟩ := h
  · obtain ⟨he, hr, -⟩ := hd v hlast
    refine ⟨?_, ?_⟩
    · rintro _ ⟨⟩
      exact ⟨he.le, fun _ => hr⟩
    · rintro _ ⟨⟩ _ w hw _
      exact Option.some.inj (hw.symm.trans hlast)
  · refine ⟨?_, ?_⟩
    · rintro _ ⟨⟩
      simp [hv.epoch, hv.round]
    · rintro _ ⟨⟩ _ w hw _
      exact (Option.some.inj hw).symm

theorem Timed.remembered (h : Timed e r d o') : Remembered SafetyData.lastVotedRound e r o' := by
  obtain ⟨rfl, -, rfl⟩ := h
  rintro _ ⟨⟩
  exact ⟨le_rfl, fun _ => le_rfl⟩

/-- A new vote is of a round above every round remembered for its epoch. -/
theorem NewVote.round_gt (hv : NewVote d b v) (hm : Remembered SafetyData.lastVotedRound e r (some d))
    (he : e = v.epoch) : r < v.round := by
  have hle : r ≤ d.lastVotedRound := (hm d rfl).2 (he.trans hv.epoch).symm
  rw [hv.round]
  exact lt_of_le_of_lt hle hv.lt

/-- A signed timeout is of a round not below any round remembered for its epoch. -/
theorem Timed.round_ge (h : Timed e r d o') {e' r' : ℕ} (hm : Remembered SafetyData.lastVotedRound e' r' (some d))
    (he : e' = e) : r' ≤ r :=
  ((hm d rfl).2 (he.trans h.1).symm).trans h.2.1

/-- A returned vote of a remembered vote's epoch and round is that vote. -/
theorem Voted.eq_of_round_eq (h : Voted (fun d v => NewVote d b v) d b v₂ o') (hd : DataOk d)
    (hm : Remembered SafetyData.lastVotedRound v₁.epoch v₁.round (some d)) (hk : VoteKept v₁ (some d))
    (he : v₁.epoch = v₂.epoch) (hr : v₁.round = v₂.round) : v₁ = v₂ := by
  obtain ⟨hlast, -, -⟩ | ⟨hv, -⟩ := h
  · -- the stored vote is the only one of its round
    obtain ⟨he₂, -, -⟩ := hd v₂ hlast
    exact (hk d rfl (he₂.symm.trans he.symm) v₂ hlast hr.symm).symm
  · -- a new vote is of a higher round
    exact absurd hr (hv.round_gt hm he).ne

/-- **No equivocation.** Over every run from a state satisfying `Inv`, between
any earlier and any later request: two votes returned for one round of an
epoch are the same vote; a vote newly signed (not the stored one sent again)
is of a round above every vote returned and every timeout signed before it in
its epoch; and no timeout is signed for a round below a round voted in. -/
theorem no_equivocation (s : SafetyRules σ) (hs : Inv S s) (reqs : List Request) :
    (trace (handleMessage C S) s reqs).Pairwise (NoEquivocation S) := by
  refine pairwise_trace (Q := fun t s => VotesRemembered t (stored S s)) (handleMessage C S)
    (fun s i hs => handleMessage_inv C i hs) ?_ ?_ ?_ hs
  · -- what a request returns is remembered by the data it leaves
    intro s i hs
    refine ⟨fun v hv => ?_, fun e r ht hsig => ?_⟩
    · obtain ⟨d, b, hd, -, hvoted⟩ := handleMessage_vote C i hs.cacheOk hv
      exact hvoted.remembered (hs.dataOk d hd)
    · obtain ⟨d, -, htimed⟩ := handleMessage_timeout C i hs.cacheOk ht hsig
      exact htimed.remembered
  · -- and remembered after every later request
    intro t s i hs hm
    exact (handleMessage_advance C i hs.cacheOk).2.votesRemembered hm
  · -- a later request's checks meet what is remembered
    intro t s i hs hm
    refine ⟨fun v₁ v₂ hv₁ hv₂ he hr => ?_, fun v₂ hv₂ hfresh => ?_, fun e r ht hsig v₁ hv₁ he => ?_⟩
    · obtain ⟨d, b, hd, -, hvoted⟩ := handleMessage_vote C i hs.cacheOk hv₂
      rw [hd] at hm
      exact hvoted.eq_of_round_eq (hs.dataOk d hd) (hm.1 v₁ hv₁).1 (hm.1 v₁ hv₁).2 he hr
    · obtain ⟨d, b, hd, -, hvoted⟩ := handleMessage_vote C i hs.cacheOk hv₂
      have hv := (hvoted.fresh (by simpa [lastVote, hd] using hfresh)).1
      rw [hd] at hm
      exact ⟨fun v₁ hv₁ he => hv.round_gt (hm.1 v₁ hv₁).1 he,
        fun e r ht hsig he => hv.round_gt (hm.2 e r ht hsig) he⟩
    · obtain ⟨d, hd, htimed⟩ := handleMessage_timeout C i hs.cacheOk ht hsig
      rw [hd] at hm
      exact htimed.round_ge (hm.1 v₁ hv₁).1 he

theorem no_equivocation_freshInstance :
    Inv (Secure.inMemoryStorage keyNamingCrypto) freshInstance ∧
    (trace (handleMessage keyNamingCrypto (Secure.inMemoryStorage keyNamingCrypto)) freshInstance epochOneRun).Pairwise
      (NoEquivocation (Secure.inMemoryStorage keyNamingCrypto)) :=
  ⟨freshInstance_inv _, no_equivocation keyNamingCrypto _ freshInstance (freshInstance_inv _) epochOneRun⟩

/-! ### The locking rules -/

/-- The block the 3-chain rule commits when voting for `b`: the certificate's
parent if the three rounds are consecutive. -/
def committed3 (b : Block) : BlockInfo :=
  if b.quorumCert.parentBlock.round + 1 = b.quorumCert.certifiedBlock.round ∧
    b.quorumCert.certifiedBlock.round + 1 = b.round
  then b.quorumCert.parentBlock else BlockInfo.empty

/-- The block the 2-chain rule commits when voting for `b`: the certified block
if `b` directly follows it. -/
def committed2 (b : Block) : BlockInfo :=
  if b.quorumCert.certifiedBlock.round + 1 = b.round then b.quorumCert.certifiedBlock else BlockInfo.empty

/-- The rule under which the transition `t` signed a new vote or a 2-chain
timeout. -/
def SignedByRules (t : Transition (SafetyRules σ) Request Response) : Prop :=
  (∀ m now v, t.input = .ConstructAndSignVote m now → t.output.vote? = some v → lastVote S t.pre ≠ some v →
    v.ledgerInfo.commitInfo = committed3 m.voteProposal.block) ∧
  (∀ m tc now v, t.input = .ConstructAndSignVoteTwoChain m tc now → t.output.vote? = some v →
    lastVote S t.pre ≠ some v →
    (m.voteProposal.block.round = m.voteProposal.block.quorumCert.certifiedBlock.round + 1 ∨
      ∃ c, tc = some c ∧ m.voteProposal.block.round = c.round + 1 ∧
        c.highestHqcRound ≤ m.voteProposal.block.quorumCert.certifiedBlock.round) ∧
    v.ledgerInfo.commitInfo = committed2 m.voteProposal.block) ∧
  ∀ timeout tc, t.input = .SignTimeoutWithQC timeout tc → t.output.signed = true →
    timeout.round = timeout.hqcRound + 1 ∨ timeout.round = tcRound tc + 1

/-- The locks a new vote of the earlier transition `t₁` leaves bind the later
transition `t₂`: a 3-chain vote's certificate is not below the voted block's
2-chain round, a 2-chain timeout's highest certificate not below the voted
block's certificate. -/
def LockingRules (t₁ t₂ : Transition (SafetyRules σ) Request Response) : Prop :=
  ∀ b₁ v₁, t₁.input.proposedBlock = some b₁ → t₁.output.vote? = some v₁ → lastVote S t₁.pre ≠ some v₁ →
    (∀ m now v, t₂.input = .ConstructAndSignVote m now → t₂.output.vote? = some v → lastVote S t₂.pre ≠ some v →
      m.voteProposal.block.epoch = b₁.epoch →
      b₁.quorumCert.parentBlock.round ≤ m.voteProposal.block.quorumCert.certifiedBlock.round) ∧
    ∀ timeout tc, t₂.input = .SignTimeoutWithQC timeout tc → t₂.output.signed = true →
      timeout.epoch = b₁.epoch → b₁.quorumCert.certifiedBlock.round ≤ timeout.hqcRound

/-- What the stored data `o` remembers of a new vote of the transition `t`: the
two rounds of the voted block's certificate, as locks. -/
def LocksRemembered (t : Transition (SafetyRules σ) Request Response) (o : Option SafetyData) : Prop :=
  ∀ b v, t.input.proposedBlock = some b → t.output.vote? = some v → lastVote S t.pre ≠ some v →
    Remembered SafetyData.preferredRound b.epoch b.quorumCert.parentBlock.round o ∧
    Remembered SafetyData.oneChainRound b.epoch b.quorumCert.certifiedBlock.round o

theorem Advance.locksRemembered (h : Advance init o o') (hm : LocksRemembered S t o) :
    LocksRemembered S t o' := fun b v hb hv hfresh =>
  ⟨h.remembered raised_preferredRound (hm b v hb hv hfresh).1,
    h.remembered raised_oneChainRound (hm b v hb hv hfresh).2⟩

/-- A new vote stores the locks of its block's certificate. -/
theorem NewVote.locks (hv : NewVote d b v) :
    Remembered SafetyData.preferredRound b.epoch b.quorumCert.parentBlock.round (some (votedData d b v)) ∧
    Remembered SafetyData.oneChainRound b.epoch b.quorumCert.certifiedBlock.round (some (votedData d b v)) := by
  refine ⟨?_, ?_⟩ <;>
  · rintro _ ⟨⟩
    simp [hv.blockEpoch]

/-- The 2-chain voting rule as it reads with the timeout certificate: without
one, a well-formed block of round `1` extends its certificate of round `0`. -/
theorem VoteChecks2.extends {m : MaybeSignedVoteProposal} {tc : Option TwoChainTimeoutCertificate} {now : ℕ}
    (h : VoteChecks2 C d m tc now v) :
    m.voteProposal.block.round = m.voteProposal.block.quorumCert.certifiedBlock.round + 1 ∨
      ∃ c, tc = some c ∧ m.voteProposal.block.round = c.round + 1 ∧
        c.highestHqcRound ≤ m.voteProposal.block.quorumCert.certifiedBlock.round := by
  obtain ⟨-, hwf, -, hsafe, -⟩ := h
  obtain hqc | ⟨hround, hhqc⟩ := safeToVote_eq_ok hsafe
  · exact Or.inl hqc
  cases tc with
  | none =>
    have := (verifyWellFormed_eq_ok hwf).1
    simp only [tcRound, Option.map_none, Option.getD_none] at hround
    exact Or.inl (by omega)
  | some c => exact Or.inr ⟨c, rfl, by simpa [tcRound] using hround, by simpa using hhqc⟩

/-- **The locking rules.** Over every run from a state whose cache agrees with
the backend: a new 3-chain vote's ledger info commits what the 3-chain rule
names; a new 2-chain vote extends its certificate or the timeout certificate
it is given, and commits what the 2-chain rule names; a 2-chain timeout
extends its highest certificate or the round of the timeout certificate (`0`
without one). And after a new vote on a block `B₁`, every later new 3-chain
vote of the epoch has a certificate not below `B₁`'s 2-chain round, and every
later 2-chain timeout of the epoch a highest certificate not below `B₁`'s
certificate. -/
theorem locking_rules (s : SafetyRules σ) (hs : CacheOk S s) (reqs : List Request) :
    (∀ t ∈ trace (handleMessage C S) s reqs, SignedByRules S t) ∧
    (trace (handleMessage C S) s reqs).Pairwise (LockingRules S) := by
  have hstep : ∀ s i, CacheOk S s → CacheOk S (handleMessage C S s i).2 := fun _ i => handleMessage_cacheOk C i
  refine ⟨forall_trace _ hstep (fun s i hs => ?_) hs, ?_⟩
  · -- each new vote and 2-chain timeout passed its rule
    refine ⟨fun m now v hi hv hfresh => ?_, fun m tc now v hi hv hfresh => ?_, fun timeout tc hi hsig => ?_⟩
    · subst hi
      obtain ⟨d, hd, hvoted⟩ := handleMessage_vote3 C hs hv
      obtain ⟨⟨-, -, -, -, -, hli⟩, -⟩ := hvoted.fresh (by simpa [lastVote, hd] using hfresh)
      exact (constructLedgerInfo_commitInfo hli).2
    · subst hi
      obtain ⟨d, hd, hvoted⟩ := handleMessage_vote2 C hs hv
      obtain ⟨hchecks, -⟩ := hvoted.fresh (by simpa [lastVote, hd] using hfresh)
      exact ⟨hchecks.extends C, (constructLedgerInfo2chain_commitInfo hchecks.2.2.2.2.2).2⟩
    · subst hi
      obtain ⟨d, -, hsafe, -⟩ := handleMessage_timeoutWithQc C hs hsig
      exact (safeToTimeout_eq_ok hsafe).1
  refine pairwise_trace (Q := fun t s => LocksRemembered S t (stored S s)) (handleMessage C S) hstep ?_ ?_ ?_ hs
  · -- a new vote stores its locks
    intro s i hs b v hb hv hfresh
    obtain ⟨d, b', hd, hb', hvoted⟩ := handleMessage_vote C i hs hv
    obtain rfl : b' = b := Option.some.inj (hb'.symm.trans hb)
    obtain ⟨hnew, hst⟩ := hvoted.fresh (by simpa [lastVote, hd] using hfresh)
    rw [hst]
    exact hnew.locks
  · -- and every later request keeps them
    intro t s i hs hm
    exact (handleMessage_advance C i hs).2.locksRemembered S hm
  · -- a later 3-chain vote or 2-chain timeout checks against them
    intro t s i hs hm b₁ v₁ hb₁ hv₁ hfresh₁
    obtain ⟨hpref, hone⟩ := hm b₁ v₁ hb₁ hv₁ hfresh₁
    refine ⟨fun m now v hi hv hfresh he => ?_, fun timeout tc hi hsig he => ?_⟩
    · subst hi
      obtain ⟨d, hd, hvoted⟩ := handleMessage_vote3 C hs hv
      obtain ⟨⟨hepoch, -, -, hle, -⟩, -⟩ := hvoted.fresh (by simpa [lastVote, hd] using hfresh)
      rw [hd] at hpref
      exact ((hpref d rfl).2 (hepoch.symm.trans he)).trans hle
    · subst hi
      obtain ⟨d, hd, hsafe, htimed⟩ := handleMessage_timeoutWithQc C hs hsig
      rw [hd] at hone
      exact ((hone d rfl).2 (htimed.1.symm.trans he)).trans (safeToTimeout_eq_ok hsafe).2

theorem locking_rules_freshInstance :
    CacheOk (Secure.inMemoryStorage keyNamingCrypto) freshInstance ∧
    (∀ t ∈ trace (handleMessage keyNamingCrypto (Secure.inMemoryStorage keyNamingCrypto)) freshInstance epochOneRun,
      SignedByRules (Secure.inMemoryStorage keyNamingCrypto) t) ∧
    (trace (handleMessage keyNamingCrypto (Secure.inMemoryStorage keyNamingCrypto)) freshInstance epochOneRun).Pairwise
      (LockingRules (Secure.inMemoryStorage keyNamingCrypto)) :=
  ⟨(freshInstance_inv _).cacheOk,
    locking_rules keyNamingCrypto _ freshInstance (freshInstance_inv _).cacheOk epochOneRun⟩

/-! A run in which a 2-chain timeout extends neither its certificate nor a
timeout certificate: after `initialize` and a 2-chain vote on a block of round
`1`, a timeout of round `1` carrying a certificate of round `2` is signed with
no timeout certificate, since `safe_to_timeout` takes the missing
certificate's round to be `0`. -/

theorem timeoutWithQc_extends_neither :
    Inv (Secure.inMemoryStorage keyNamingCrypto) freshInstance ∧
    (trace (handleMessage keyNamingCrypto (Secure.inMemoryStorage keyNamingCrypto)) freshInstance
      [.Initialize epochOneProof, .ConstructAndSignVoteTwoChain roundOneProposal none 0,
        .SignTimeoutWithQC roundOneTimeout none]).map
      (fun t => (t.output.vote?.isSome && (lastVote (Secure.inMemoryStorage keyNamingCrypto) t.pre).isNone,
        t.output.signed)) = [(false, false), (true, false), (false, true)] ∧
    roundOneTimeout.epoch = roundOneProposal.voteProposal.block.epoch ∧
    roundOneTimeout.round ≠ roundOneTimeout.hqcRound + 1 :=
  ⟨freshInstance_inv _, by decide, rfl, by decide⟩

end SafetyRules

end Consensus

end Diem
