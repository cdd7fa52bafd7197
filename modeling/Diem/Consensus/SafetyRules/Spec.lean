import Diem.Consensus.SafetyRules.SafetyRules
import Diem.Theory.Monads

/-!
# What each safety rule and request does

One lemma per function of `Diem.Consensus.SafetyRules.SafetyRules`, so that the
run theorems cite these and never unfold a request.

For the rules on `SafetyData`: exactly when they succeed and what they return.
The 3-chain and 2-chain commit rules commit the block the rule names exactly when
the rounds are consecutive, even though the code compares `u64` successors
(`constructLedgerInfo_commitInfo`, `constructLedgerInfo2chain_commitInfo`). For
the requests: from a state whose cache agrees with the backend (`CacheOk`), each
request leaves such a state, and either leaves the persisted safety data as it
was or writes the data its rule names, also when the write fails; and what it
returns is signed under the conditions its rule checks (`VoteChecks3`,
`VoteChecks2`).
-/

namespace Diem

namespace Consensus

namespace SafetyRules

open EStateM

variable (C : Crypto) {σ : Type} (S : SecureStorage σ)

/-! ### The rules on `SafetyData` -/

theorem nextRound_eq_ok {r r' : ℕ} : nextRound r = .ok r' ↔ r + 1 ≤ U64_MAX ∧ r' = r + 1 := by
  unfold nextRound
  split <;> simp_all [eq_comm]

theorem verifyEpoch_eq_ok {e : ℕ} {d : SafetyData} {u : Unit} : verifyEpoch e d = .ok u ↔ e = d.epoch := by
  unfold verifyEpoch
  split <;> simp_all

theorem verifyAndUpdateLastVoteRound_eq_ok {r : ℕ} {d d' : SafetyData} :
    verifyAndUpdateLastVoteRound r d = .ok d' ↔ d.lastVotedRound < r ∧ d' = { d with lastVotedRound := r } := by
  unfold verifyAndUpdateLastVoteRound
  split <;> simp_all [eq_comm]

theorem verifyAndUpdatePreferredRound_eq_ok {qc : QuorumCert} {d : SafetyData} {x : Bool × SafetyData} :
    verifyAndUpdatePreferredRound qc d = .ok x ↔
      d.preferredRound ≤ qc.certifiedBlock.round ∧ x = observeQc qc d := by
  simp only [verifyAndUpdatePreferredRound]
  split <;> simp_all [eq_comm]

/-- `observe_qc` raises the 1-chain round to the certified round and the
preferred round to the parent's round, and changes nothing else. -/
theorem observeQc_snd (qc : QuorumCert) (d : SafetyData) :
    (observeQc qc d).2 = ⟨d.epoch, d.lastVotedRound, max d.preferredRound qc.parentBlock.round,
      max d.oneChainRound qc.certifiedBlock.round, d.lastVote⟩ := by
  obtain ⟨e, l, p, o, v⟩ := d
  simp only [observeQc]
  split_ifs <;> simp only [SafetyData.mk.injEq, true_and, and_true] <;> grind

theorem verifyWellFormed_eq_ok {b : Block} {now : ℕ} {u : Unit} (h : b.verifyWellFormed now = .ok u) :
    b.quorumCert.certifiedBlock.round < b.round ∧ b.quorumCert.certifiedBlock.epoch = b.epoch := by
  simp only [Block.verifyWellFormed] at h
  split_ifs at h <;> simp_all

theorem genVoteData_eq_ok {p : VoteProposal} {vd : VoteData} (h : p.genVoteData C = .ok vd) :
    vd.proposed.round = p.block.round ∧ vd.proposed.epoch = p.block.epoch ∧
      vd.parent = p.block.quorumCert.certifiedBlock := by
  unfold VoteProposal.genVoteData at h
  split at h
  · cases h; exact ⟨rfl, rfl, rfl⟩
  · obtain ⟨⟨root, version⟩, -, h⟩ := Except.bind_eq_ok.1 h
    cases h; exact ⟨rfl, rfl, rfl⟩

/-- **The 3-chain commit rule**: the ledger info commits the certificate's
parent exactly when the three rounds are consecutive. The `u64` successor
the code compares can only fail to exist where it then refuses to vote. -/
theorem constructLedgerInfo_commitInfo {b : Block} {h : HashValue} {li : LedgerInfo}
    (hli : constructLedgerInfo b h = .ok li) :
    li.consensusDataHash = h ∧ li.commitInfo =
      if b.quorumCert.parentBlock.round + 1 = b.quorumCert.certifiedBlock.round ∧
        b.quorumCert.certifiedBlock.round + 1 = b.round
      then b.quorumCert.parentBlock else BlockInfo.empty := by
  unfold constructLedgerInfo at hli
  obtain ⟨r0, h0, hli⟩ := Except.bind_eq_ok.1 hli
  obtain ⟨-, rfl⟩ := nextRound_eq_ok.1 h0
  split at hli
  · rename_i h01
    obtain ⟨r1, h1, hli⟩ := Except.bind_eq_ok.1 hli
    obtain ⟨-, rfl⟩ := nextRound_eq_ok.1 h1
    cases hli
    refine ⟨rfl, ?_⟩
    by_cases h12 : b.quorumCert.certifiedBlock.round + 1 = b.round <;> simp [h01, h12]
  · rename_i h01
    cases hli
    simp [h01]

/-- **The 2-chain commit rule**: the ledger info commits the certified block
exactly when the block's round follows it. -/
theorem constructLedgerInfo2chain_commitInfo {b : Block} {h : HashValue} {li : LedgerInfo}
    (hli : constructLedgerInfo2chain b h = .ok li) :
    li.consensusDataHash = h ∧ li.commitInfo =
      if b.quorumCert.certifiedBlock.round + 1 = b.round then b.quorumCert.certifiedBlock
      else BlockInfo.empty := by
  unfold constructLedgerInfo2chain at hli
  obtain ⟨r0, h0, hli⟩ := Except.bind_eq_ok.1 hli
  obtain ⟨-, rfl⟩ := nextRound_eq_ok.1 h0
  cases hli
  exact ⟨rfl, by simp⟩

/-- The round of the timeout certificate, `0` without one (`map_or(0, ..)`). -/
def tcRound (maybeTc : Option TwoChainTimeoutCertificate) : ℕ :=
  (maybeTc.map TwoChainTimeoutCertificate.round).getD 0

/-- **The 2-chain voting rule**: a block is safe to vote for when it extends its
certificate, or follows the timeout certificate's round with a certificate at
least as high as the certificate's highest. Without a certificate its round
and highest round count as `0`. -/
theorem safeToVote_eq_ok {b : Block} {maybeTc : Option TwoChainTimeoutCertificate} {u : Unit}
    (h : safeToVote b maybeTc = .ok u) :
    b.round = b.quorumCert.certifiedBlock.round + 1 ∨
      (b.round = tcRound maybeTc + 1 ∧
        (maybeTc.map TwoChainTimeoutCertificate.highestHqcRound).getD 0 ≤ b.quorumCert.certifiedBlock.round) := by
  unfold safeToVote at h
  obtain ⟨r, hr, h⟩ := Except.bind_eq_ok.1 h
  obtain ⟨-, rfl⟩ := nextRound_eq_ok.1 hr
  split at h
  · exact Or.inl ‹_›
  · obtain ⟨r', hr', h⟩ := Except.bind_eq_ok.1 h
    obtain ⟨-, rfl⟩ := nextRound_eq_ok.1 hr'
    simp only [Except.pure_eq_ok, Except.ok_bind] at h
    split at h
    · rename_i hsafe
      simp only [Bool.and_eq_true, beq_iff_eq, decide_eq_true_eq] at hsafe
      exact Or.inr hsafe
    · cases h

/-- **The 2-chain timeout rule**: a timeout extends its highest certificate or
the timeout certificate (round `0` without one), and that certificate is not
below the 1-chain round. -/
theorem safeToTimeout_eq_ok {t : TwoChainTimeout} {maybeTc : Option TwoChainTimeoutCertificate}
    {d : SafetyData} {u : Unit} (h : safeToTimeout t maybeTc d = .ok u) :
    (t.round = t.hqcRound + 1 ∨ t.round = tcRound maybeTc + 1) ∧ d.oneChainRound ≤ t.hqcRound := by
  unfold safeToTimeout at h
  obtain ⟨r, hr, h⟩ := Except.bind_eq_ok.1 h
  obtain ⟨-, rfl⟩ := nextRound_eq_ok.1 hr
  have hround : ∀ ok : Bool, (if ok && decide (t.hqcRound ≥ d.oneChainRound) then pure ()
      else throw (Error.NotSafeToTimeout t.round t.hqcRound (tcRound maybeTc) d.oneChainRound) :
        Except Error Unit) = .ok u → ok = true ∧ d.oneChainRound ≤ t.hqcRound := by
    intro ok hok
    split at hok
    · rename_i hc
      simpa using hc
    · cases hok
  split at h
  · exact ⟨Or.inl ‹_›, (hround true h).2⟩
  · obtain ⟨r', hr', h⟩ := Except.bind_eq_ok.1 h
    obtain ⟨-, rfl⟩ := nextRound_eq_ok.1 hr'
    obtain ⟨hok, hone⟩ := hround _ h
    exact ⟨Or.inr (by simpa [tcRound] using hok), hone⟩

/-! ### The persisted data -/

/-- The safety data the backend holds. -/
def stored (sr : SafetyRules σ) : Option SafetyData := S.stored sr.persistentStorage.internalStore

/-- The cache agrees with the backend. -/
def CacheOk (sr : SafetyRules σ) : Prop := sr.persistentStorage.CacheOk S

variable {S} {s : SafetyRules σ} {α : Type} {Q : α → SafetyRules σ → Prop} {R : Error → SafetyRules σ → Prop}

/-- `self.persistent_storage.safety_data()` returns what the backend holds. -/
theorem wp_readSafetyData {Q : SafetyData → SafetyRules σ → Prop} (hs : CacheOk S s)
    (hQ : ∀ d s', stored S s = some d → CacheOk S s' → stored S s' = stored S s → Q d s')
    (hR : ∀ e s', CacheOk S s' → stored S s' = stored S s → R e s') :
    wp (withStorage (PersistentSafetyStorage.safetyData S)) Q R s := by
  simp only [withStorage, wp_zoom]
  exact PersistentSafetyStorage.wp_safetyData hs
    (fun d p' hd hp' hst => hQ d _ hd hp' (by simp [stored, hst]))
    (fun e p' hp' hst => hR e _ hp' (by simp [stored, hst]))

/-- `self.persistent_storage.set_safety_data(d)` stores `d`, or on failure
leaves the backend holding the old data or `d`. -/
theorem wp_writeSafetyData {Q : Unit → SafetyRules σ → Prop} (d : SafetyData)
    (hQ : ∀ s', CacheOk S s' → stored S s' = some d → Q () s')
    (hR : ∀ e s', CacheOk S s' → (stored S s' = stored S s ∨ stored S s' = some d) → R e s') :
    wp (withStorage (PersistentSafetyStorage.setSafetyData S d)) Q R s := by
  simp only [withStorage, wp_zoom]
  exact PersistentSafetyStorage.wp_setSafetyData d (fun p' hp' hst => hQ _ hp' hst)
    (fun e p' hp' hst => hR e _ hp' hst)

/-- `self.persistent_storage.set_waypoint(w)` leaves the safety data alone. -/
theorem wp_writeWaypoint {Q : Unit → SafetyRules σ → Prop} (hs : CacheOk S s) (w : Waypoint)
    (hQ : ∀ s', CacheOk S s' → stored S s' = stored S s → Q () s')
    (hR : ∀ e s', CacheOk S s' → stored S s' = stored S s → R e s') :
    wp (withStorage (PersistentSafetyStorage.setWaypoint S w)) Q R s := by
  simp only [withStorage, wp_zoom]
  exact PersistentSafetyStorage.wp_setWaypoint hs w (fun p' hp' hst => hQ _ hp' hst)
    (fun e p' hp' hst => hR e _ hp' hst)

/-- **`verify_proposal`** reads the safety data and returns the vote data of
a well-formed block of the stored epoch. -/
theorem wp_verifyProposal {Q : VoteData → SafetyRules σ → Prop} (m : MaybeSignedVoteProposal) (now : ℕ)
    (hs : CacheOk S s)
    (hQ : ∀ vd s' d, stored S s = some d → CacheOk S s' → stored S s' = stored S s →
      m.voteProposal.block.epoch = d.epoch → m.voteProposal.block.verifyWellFormed now = .ok () →
      m.voteProposal.genVoteData C = .ok vd → Q vd s')
    (hR : ∀ e s', CacheOk S s' → stored S s' = stored S s → R e s') :
    wp (verifyProposal C S m now) Q R s := by
  simp only [verifyProposal, wp_bind, wp_get]
  refine wp_liftExcept_of (fun e _ => hR e s hs rfl) fun _ _ => ?_
  refine wp_readSafetyData hs (fun d s₁ hd hs₁ hst₁ => ?_) hR
  have herr : ∀ e, R e s₁ := fun e => hR e s₁ hs₁ hst₁
  refine wp_liftExcept_of (fun e _ => herr e) fun _ hepoch => ?_
  refine wp_liftExcept_of (fun e _ => herr e) fun _ _ => ?_
  refine wp_liftExcept_of (fun e _ => herr e) fun epochState _ => ?_
  refine wp_liftExcept_of (fun e _ => herr e) fun _ _ => ?_
  refine wp_liftExcept_of (fun e _ => herr e) fun _ hwf => ?_
  refine wp_liftExcept_of (fun e _ => herr e) fun vd hvd => ?_
  exact hQ vd s₁ d hd hs₁ hst₁ (verifyEpoch_eq_ok.1 hepoch) (by simpa using hwf) (by simpa using hvd)

/-! ### The votes -/

/-- What a newly signed vote writes: the certificate observed, the round voted
in and the vote. -/
def votedData (d : SafetyData) (b : Block) (v : Vote) : SafetyData :=
  { (observeQc b.quorumCert d).2 with lastVotedRound := b.round, lastVote := some v }

/-- The checks a newly signed 3-chain vote `v` on the proposal `m` passed
against the stored data `d`, and how it was built. -/
def VoteChecks3 (d : SafetyData) (m : MaybeSignedVoteProposal) (now : ℕ) (v : Vote) : Prop :=
  m.voteProposal.block.epoch = d.epoch ∧ m.voteProposal.block.verifyWellFormed now = .ok () ∧
    d.lastVotedRound < m.voteProposal.block.round ∧
    d.preferredRound ≤ m.voteProposal.block.quorumCert.certifiedBlock.round ∧
    m.voteProposal.genVoteData C = .ok v.voteData ∧
    constructLedgerInfo m.voteProposal.block (C.hashVoteData v.voteData) = .ok v.ledgerInfo

/-- The checks a newly signed 2-chain vote `v` on the proposal `m` with the
timeout certificate `tc` passed against the stored data `d`. -/
def VoteChecks2 (d : SafetyData) (m : MaybeSignedVoteProposal) (tc : Option TwoChainTimeoutCertificate)
    (now : ℕ) (v : Vote) : Prop :=
  m.voteProposal.block.epoch = d.epoch ∧ m.voteProposal.block.verifyWellFormed now = .ok () ∧
    d.lastVotedRound < m.voteProposal.block.round ∧ safeToVote m.voteProposal.block tc = .ok () ∧
    m.voteProposal.genVoteData C = .ok v.voteData ∧
    constructLedgerInfo2chain m.voteProposal.block (C.hashVoteData v.voteData) = .ok v.ledgerInfo

theorem filter_round_eq_some {l : Option Vote} {r : ℕ} {v : Vote}
    (h : l.filter (·.voteData.proposed.round == r) = some v) : l = some v ∧ v.round = r := by
  rw [Option.filter_eq_some_iff] at h
  obtain ⟨hl, hr⟩ := h
  exact ⟨hl, show v.voteData.proposed.round = r by simpa using hr⟩

/-- **The 3-chain vote**: it returns the stored vote of the proposal's round,
or signs a new vote after the checks of `VoteChecks3` and persists
`votedData`; a failure leaves the stored data or has persisted that new vote. -/
theorem wp_guardedConstructAndSignVote (m : MaybeSignedVoteProposal) (now : ℕ) (hs : CacheOk S s) :
    wp (guardedConstructAndSignVote C S m now)
      (fun v s' => CacheOk S s' ∧ ∃ d, stored S s = some d ∧
        ((d.lastVote = some v ∧ v.round = m.voteProposal.block.round ∧ stored S s' = stored S s) ∨
          (VoteChecks3 C d m now v ∧ stored S s' = some (votedData d m.voteProposal.block v))))
      (fun _ s' => CacheOk S s' ∧ (stored S s' = stored S s ∨ ∃ d v, stored S s = some d ∧
        VoteChecks3 C d m now v ∧ stored S s' = some (votedData d m.voteProposal.block v)))
      s := by
  simp only [guardedConstructAndSignVote, wp_bind, wp_get]
  refine wp_liftExcept_of (fun e _ => ⟨hs, Or.inl rfl⟩) fun _ _ => ?_
  refine wp_verifyProposal C m now hs (fun vd s₁ d hd hs₁ hst₁ hepoch hwf hgen => ?_)
    fun e s' h h' => ⟨h, Or.inl h'⟩
  refine wp_readSafetyData hs₁ (fun d' s₂ hd' hs₂ hst₂ => ?_) fun e s' h h' => ⟨h, Or.inl (h'.trans hst₁)⟩
  obtain rfl : d' = d := Option.some.inj (hd'.symm.trans (hst₁.trans hd))
  have hst : stored S s₂ = stored S s := hst₂.trans hst₁
  split
  · -- the vote of this round, sent again
    rename_i vote hvote
    obtain ⟨hlast, hround⟩ := filter_round_eq_some hvote
    exact ⟨hs₂, d', hd, Or.inl ⟨hlast, hround, hst⟩⟩
  · simp only [wp_bind, wp_get]
    refine wp_liftExcept_of (fun _ _ => ⟨hs₂, Or.inl hst⟩) fun observed hpref => ?_
    obtain ⟨hle, rfl⟩ := verifyAndUpdatePreferredRound_eq_ok.1 hpref
    refine wp_liftExcept_of (fun _ _ => ⟨hs₂, Or.inl hst⟩) fun voted hvoted => ?_
    obtain ⟨hround, rfl⟩ := verifyAndUpdateLastVoteRound_eq_ok.1 hvoted
    refine wp_liftExcept_of (fun _ _ => ⟨hs₂, Or.inl hst⟩) fun signer _ => ?_
    refine wp_liftExcept_of (fun _ _ => ⟨hs₂, Or.inl hst⟩) fun li hli => ?_
    refine wp_liftExcept_of (fun _ _ => ⟨hs₂, Or.inl hst⟩) fun sig _ => ?_
    have hchecks : VoteChecks3 C d' m now (Vote.newWithSignature vd signer.author li sig) := by
      refine ⟨hepoch, hwf, ?_, hle, hgen, hli⟩
      simpa [observeQc_snd, Block.round] using hround
    exact wp_writeSafetyData _ (fun s₃ hs₃ hst₃ => ⟨hs₃, d', hd, Or.inr ⟨hchecks, hst₃⟩⟩)
      fun e s₃ hs₃ hst₃ => ⟨hs₃, hst₃.imp (fun h => h.trans hst) fun h => ⟨d', _, hd, hchecks, h⟩⟩

/-- **The 2-chain vote**: as the 3-chain vote, with the checks of `VoteChecks2`. -/
theorem wp_guardedConstructAndSignVoteTwoChain (m : MaybeSignedVoteProposal)
    (tc : Option TwoChainTimeoutCertificate) (now : ℕ) (hs : CacheOk S s) :
    wp (guardedConstructAndSignVoteTwoChain C S m tc now)
      (fun v s' => CacheOk S s' ∧ ∃ d, stored S s = some d ∧
        ((d.lastVote = some v ∧ v.round = m.voteProposal.block.round ∧ stored S s' = stored S s) ∨
          (VoteChecks2 C d m tc now v ∧ stored S s' = some (votedData d m.voteProposal.block v))))
      (fun _ s' => CacheOk S s' ∧ (stored S s' = stored S s ∨ ∃ d v, stored S s = some d ∧
        VoteChecks2 C d m tc now v ∧ stored S s' = some (votedData d m.voteProposal.block v)))
      s := by
  simp only [guardedConstructAndSignVoteTwoChain, wp_bind, wp_get]
  refine wp_liftExcept_of (fun e _ => ⟨hs, Or.inl rfl⟩) fun _ _ => ?_
  refine wp_verifyProposal C m now hs (fun vd s₁ d hd hs₁ hst₁ hepoch hwf hgen => ?_)
    fun e s' h h' => ⟨h, Or.inl h'⟩
  refine wp_liftExcept_of (fun e _ => ⟨hs₁, Or.inl hst₁⟩) fun _ _ => ?_
  refine wp_readSafetyData hs₁ (fun d' s₂ hd' hs₂ hst₂ => ?_) fun e s' h h' => ⟨h, Or.inl (h'.trans hst₁)⟩
  obtain rfl : d' = d := Option.some.inj (hd'.symm.trans (hst₁.trans hd))
  have hst : stored S s₂ = stored S s := hst₂.trans hst₁
  split
  · rename_i vote hvote
    obtain ⟨hlast, hround⟩ := filter_round_eq_some hvote
    exact ⟨hs₂, d', hd, Or.inl ⟨hlast, hround, hst⟩⟩
  · simp only [wp_bind, wp_get]
    refine wp_liftExcept_of (fun _ _ => ⟨hs₂, Or.inl hst⟩) fun voted hvoted => ?_
    obtain ⟨hround, rfl⟩ := verifyAndUpdateLastVoteRound_eq_ok.1 hvoted
    refine wp_liftExcept_of (fun _ _ => ⟨hs₂, Or.inl hst⟩) fun _ hsafe => ?_
    refine wp_liftExcept_of (fun _ _ => ⟨hs₂, Or.inl hst⟩) fun signer _ => ?_
    refine wp_liftExcept_of (fun _ _ => ⟨hs₂, Or.inl hst⟩) fun li hli => ?_
    refine wp_liftExcept_of (fun _ _ => ⟨hs₂, Or.inl hst⟩) fun sig _ => ?_
    have hchecks : VoteChecks2 C d' m tc now (Vote.newWithSignature vd signer.author li sig) :=
      ⟨hepoch, hwf, hround, hsafe, hgen, hli⟩
    have hwritten : ∀ x, stored S x = some { (observeQc m.voteProposal.block.quorumCert
        { d' with lastVotedRound := m.voteProposal.block.blockData.round }).2 with
          lastVote := some (Vote.newWithSignature vd signer.author li sig) } →
        stored S x = some (votedData d' m.voteProposal.block (Vote.newWithSignature vd signer.author li sig)) := by
      intro x hx
      rw [hx]
      simp [votedData, observeQc_snd, Block.round]
    exact wp_writeSafetyData _ (fun s₃ hs₃ hst₃ => ⟨hs₃, d', hd, Or.inr ⟨hchecks, hwritten _ hst₃⟩⟩)
      fun e s₃ hs₃ hst₃ => ⟨hs₃, hst₃.imp (fun h => h.trans hst) fun h => ⟨d', _, hd, hchecks, hwritten _ h⟩⟩

/-! ### The timeouts -/

/-- What a timeout that fails may have persisted: the stored data with
`last_voted_round` raised to the timeout's round. -/
def TimeoutWritten (before after : Option SafetyData) (epoch : ℕ) (round : ℕ) : Prop :=
  after = before ∨ ∃ d, before = some d ∧ epoch = d.epoch ∧ d.lastVotedRound < round ∧
    after = some { d with lastVotedRound := round }

/-- **The 3-chain timeout** is signed only for a round above the preferred
round and not below the last voted round, which it raises to the timeout's. -/
theorem wp_guardedSignTimeout (t : Timeout) (hs : CacheOk S s) :
    wp (guardedSignTimeout C S t)
      (fun _ s' => CacheOk S s' ∧ ∃ d, stored S s = some d ∧ t.epoch = d.epoch ∧ d.preferredRound < t.round ∧
        d.lastVotedRound ≤ t.round ∧ stored S s' = some { d with lastVotedRound := t.round })
      (fun _ s' => CacheOk S s' ∧ TimeoutWritten (stored S s) (stored S s') t.epoch t.round)
      s := by
  simp only [guardedSignTimeout, wp_bind, wp_get]
  refine wp_liftExcept_of (fun e _ => ⟨hs, Or.inl rfl⟩) fun _ _ => ?_
  refine wp_readSafetyData hs (fun d s₁ hd hs₁ hst₁ => ?_) fun e s' h h' => ⟨h, Or.inl h'⟩
  refine wp_liftExcept_of (fun e _ => ⟨hs₁, Or.inl hst₁⟩) fun _ hepoch => ?_
  have hepoch := verifyEpoch_eq_ok.1 hepoch
  simp only [wp_ite, wp_bind, wp_throw]
  split_ifs with hpref hlow hhigh
  · exact ⟨hs₁, Or.inl hst₁⟩
  · exact ⟨hs₁, Or.inl hst₁⟩
  · -- a higher round is persisted before signing
    refine wp_liftExcept_of (fun _ _ => ⟨hs₁, Or.inl hst₁⟩) fun voted hvoted => ?_
    obtain ⟨hround, rfl⟩ := verifyAndUpdateLastVoteRound_eq_ok.1 hvoted
    refine wp_writeSafetyData _ (fun s₂ hs₂ hst₂ => ?_) fun e s₂ hs₂ hst₂ =>
      ⟨hs₂, hst₂.imp (fun h => h.trans hst₁) fun h => ⟨d, hd, hepoch, hround, h⟩⟩
    refine wp_liftExcept_of (fun _ _ => ⟨hs₂, Or.inr ⟨d, hd, hepoch, hround, hst₂⟩⟩) fun _ _ => ?_
    exact ⟨hs₂, d, hd, hepoch, Nat.lt_of_not_le hpref, hround.le, hst₂⟩
  · -- the timeout's round is the last voted round: nothing is written
    refine wp_liftExcept_of (fun _ _ => ⟨hs₁, Or.inl hst₁⟩) fun _ _ => ?_
    have hr : t.round = d.lastVotedRound := by omega
    refine ⟨hs₁, d, hd, hepoch, Nat.lt_of_not_le hpref, hr.ge, ?_⟩
    rw [hst₁, hd, hr]

/-- **The 2-chain timeout** is signed only when `safe_to_timeout` holds and
its round is not below the last voted round, which it raises to the
timeout's. -/
theorem wp_guardedSignTimeoutWithQc (t : TwoChainTimeout) (tc : Option TwoChainTimeoutCertificate)
    (hs : CacheOk S s) :
    wp (guardedSignTimeoutWithQc C S t tc)
      (fun _ s' => CacheOk S s' ∧ ∃ d, stored S s = some d ∧ t.epoch = d.epoch ∧
        safeToTimeout t tc d = .ok () ∧ d.lastVotedRound ≤ t.round ∧
        stored S s' = some { d with lastVotedRound := t.round })
      (fun _ s' => CacheOk S s' ∧ TimeoutWritten (stored S s) (stored S s') t.epoch t.round)
      s := by
  simp only [guardedSignTimeoutWithQc, wp_bind, wp_get]
  refine wp_liftExcept_of (fun e _ => ⟨hs, Or.inl rfl⟩) fun _ _ => ?_
  refine wp_readSafetyData hs (fun d s₁ hd hs₁ hst₁ => ?_) fun e s' h h' => ⟨h, Or.inl h'⟩
  refine wp_liftExcept_of (fun e _ => ⟨hs₁, Or.inl hst₁⟩) fun _ hepoch => ?_
  have hepoch := verifyEpoch_eq_ok.1 hepoch
  refine wp_liftExcept_of (fun e _ => ⟨hs₁, Or.inl hst₁⟩) fun _ _ => ?_
  refine wp_liftExcept_of (fun e _ => ⟨hs₁, Or.inl hst₁⟩) fun _ _ => ?_
  refine wp_liftExcept_of (fun e _ => ⟨hs₁, Or.inl hst₁⟩) fun _ hsafe => ?_
  simp only [wp_ite, wp_bind, wp_throw]
  split_ifs with hlow hhigh
  · exact ⟨hs₁, Or.inl hst₁⟩
  · refine wp_liftExcept_of (fun _ _ => ⟨hs₁, Or.inl hst₁⟩) fun voted hvoted => ?_
    obtain ⟨hround, rfl⟩ := verifyAndUpdateLastVoteRound_eq_ok.1 hvoted
    refine wp_writeSafetyData _ (fun s₂ hs₂ hst₂ => ?_) fun e s₂ hs₂ hst₂ =>
      ⟨hs₂, hst₂.imp (fun h => h.trans hst₁) fun h => ⟨d, hd, hepoch, hround, h⟩⟩
    refine wp_liftExcept_of (fun _ _ => ⟨hs₂, Or.inr ⟨d, hd, hepoch, hround, hst₂⟩⟩) fun _ _ => ?_
    exact ⟨hs₂, d, hd, hepoch, hsafe, hround.le, hst₂⟩
  · refine wp_liftExcept_of (fun _ _ => ⟨hs₁, Or.inl hst₁⟩) fun _ _ => ?_
    have hr : t.round = d.lastVotedRound := by omega
    refine ⟨hs₁, d, hd, hepoch, hsafe, hr.ge, ?_⟩
    rw [hst₁, hd, hr]

/-! ### The requests that persist nothing new -/

/-- The key reconciliation touches only the signer. -/
theorem wp_reconcileKey (author : Author) (expectedKey : Option Ed25519PublicKey) :
    wp (reconcileKey C S author expectedKey) (fun _ s' => s'.persistentStorage = s.persistentStorage)
      (fun _ s' => s'.persistentStorage = s.persistentStorage) s := by
  unfold reconcileKey
  split
  · rfl
  · simp only [wp_bind, wp_get, wp_ite]
    split_ifs
    · rfl
    · split <;> rfl
    · simp only [wp_modify]
      split <;> rfl

/-- A request that reads the stored data and writes none. -/
def Kept (S : SecureStorage σ) (s s' : SafetyRules σ) : Prop := CacheOk S s' ∧ stored S s' = stored S s

/-- What `initialize` may do to the stored data: keep it, or start a newer
epoch from round `0`. -/
def EpochStarted (before after : Option SafetyData) : Prop :=
  after = before ∨ ∃ d e, before = some d ∧ d.epoch < e ∧ after = some ⟨e, 0, 0, 0, none⟩

/-- **`initialize`** keeps the stored data, or replaces it by a fresh one for
a newer epoch. -/
theorem wp_guardedInitialize (proof : EpochChangeProof) (hs : CacheOk S s) :
    wp (guardedInitialize C S proof) (fun _ s' => CacheOk S s' ∧ EpochStarted (stored S s) (stored S s'))
      (fun _ s' => CacheOk S s' ∧ EpochStarted (stored S s) (stored S s')) s := by
  simp only [guardedInitialize, wp_bind, wp_get]
  refine wp_liftExcept_of (fun e _ => ⟨hs, Or.inl rfl⟩) fun waypoint _ => ?_
  refine wp_liftExcept_of (fun e _ => ⟨hs, Or.inl rfl⟩) fun lastLi _ => ?_
  refine wp_liftExcept_of (fun e _ => ⟨hs, Or.inl rfl⟩) fun epochState _ => ?_
  refine wp_liftExcept_of (fun e _ => ⟨hs, Or.inl rfl⟩) fun newWaypoint _ => ?_
  -- the waypoint write leaves the safety data alone
  refine wp_mono (Q := fun _ s' => Kept S s s') ?_ (fun _ s₁ h => ?_) fun _ _ h => h
  · split_ifs
    · exact wp_writeWaypoint hs _ (fun s' h h' => ⟨h, h'⟩) fun e s' h h' => ⟨h, Or.inl h'⟩
    · exact ⟨hs, rfl⟩
  obtain ⟨hs₁, hst₁⟩ := h
  refine wp_readSafetyData hs₁ (fun d s₂ hd hs₂ hst₂ => ?_) fun e s' h h' => ⟨h, Or.inl (h'.trans hst₁)⟩
  have hst : stored S s₂ = stored S s := hst₂.trans hst₁
  rw [hst₁] at hd
  refine wp_mono (Q := fun _ s' => CacheOk S s' ∧ EpochStarted (stored S s) (stored S s')) ?_
    (fun _ s₃ h => ?_) fun _ _ h => h
  · split
    · exact ⟨hs₂, Or.inl hst⟩
    · -- a newer epoch starts from round 0
      rename_i hlt
      exact wp_writeSafetyData _ (fun s' h h' => ⟨h, Or.inr ⟨d, _, hd, Nat.compare_eq_lt.1 hlt, h'⟩⟩)
        fun e s' h h' => ⟨h, h'.imp (fun h => h.trans hst) fun h => ⟨d, _, hd, Nat.compare_eq_lt.1 hlt, h⟩⟩
    · exact ⟨hs₂, Or.inl hst⟩
  obtain ⟨hs₃, hst₃⟩ := h
  simp only [wp_modify, wp_tryCatch]
  refine wp_liftExcept_of (fun e _ => ⟨hs₃, hst₃⟩) fun author _ => ?_
  refine wp_mono (wp_reconcileKey C _ _) (fun _ s₄ h => ?_) fun _ s₄ h => ?_
  · exact ⟨by simpa [CacheOk, h] using hs₃, by simpa [stored, h] using hst₃⟩
  · simp only [wp_bind, wp_modify, wp_throw]
    exact ⟨by simpa [CacheOk, h] using hs₃, by simpa [stored, h] using hst₃⟩

/-- `consensus_state` reads and writes nothing. -/
theorem wp_guardedConsensusState (hs : CacheOk S s) :
    wp (guardedConsensusState S) (fun _ s' => Kept S s s') (fun _ s' => Kept S s s') s := by
  simp only [guardedConsensusState, wp_bind, wp_get]
  refine wp_liftExcept_of (fun e _ => ⟨hs, rfl⟩) fun _ _ => ?_
  refine wp_readSafetyData hs (fun d s₁ _ hs₁ hst₁ => ?_) fun e s' h h' => ⟨h, h'⟩
  refine wp_liftExcept_of (fun e _ => ⟨hs₁, hst₁⟩) fun _ _ => ?_
  refine wp_readSafetyData hs₁ (fun d s₂ _ hs₂ hst₂ => ?_) fun e s' h h' => ⟨h, h'.trans hst₁⟩
  refine wp_liftExcept_of (fun e _ => ⟨hs₂, hst₂.trans hst₁⟩) fun _ _ => ?_
  exact ⟨hs₂, hst₂.trans hst₁⟩

/-- `sign_proposal` persists nothing: its raised preferred round is dropped. -/
theorem wp_guardedSignProposal (b : BlockData) (hs : CacheOk S s) :
    wp (guardedSignProposal C S b) (fun _ s' => Kept S s s') (fun _ s' => Kept S s s') s := by
  simp only [guardedSignProposal, wp_bind, wp_get]
  refine wp_liftExcept_of (fun e _ => ⟨hs, rfl⟩) fun _ _ => ?_
  refine wp_liftExcept_of (fun e _ => ⟨hs, rfl⟩) fun _ _ => ?_
  refine wp_readSafetyData hs (fun d s₁ _ hs₁ hst₁ => ?_) fun e s' h h' => ⟨h, h'⟩
  refine wp_liftExcept_of (fun e _ => ⟨hs₁, hst₁⟩) fun _ _ => ?_
  simp only [wp_ite, wp_bind, wp_throw]
  split_ifs
  · exact ⟨hs₁, hst₁⟩
  refine wp_liftExcept_of (fun e _ => ⟨hs₁, hst₁⟩) fun _ _ => ?_
  refine wp_liftExcept_of (fun e _ => ⟨hs₁, hst₁⟩) fun _ _ => ?_
  exact wp_liftExcept_of (fun e _ => ⟨hs₁, hst₁⟩) fun _ _ => ⟨hs₁, hst₁⟩

/-- `sign_commit_vote` reads and writes no safety data. -/
theorem wp_guardedSignCommitVote (li : LedgerInfoWithSignatures) (newLi : LedgerInfo) (hs : CacheOk S s) :
    wp (guardedSignCommitVote C S li newLi) (fun _ s' => Kept S s s') (fun _ s' => Kept S s s') s := by
  simp only [guardedSignCommitVote, wp_bind, wp_get]
  refine wp_liftExcept_of (fun e _ => ⟨hs, rfl⟩) fun _ _ => ?_
  simp only [wp_ite, wp_bind, wp_throw]
  split_ifs
  · exact ⟨hs, rfl⟩
  · exact ⟨hs, rfl⟩
  refine wp_liftExcept_of (fun e _ => ⟨hs, rfl⟩) fun _ _ => ?_
  refine wp_liftExcept_of (fun e _ => ⟨hs, rfl⟩) fun _ _ => ?_
  exact wp_liftExcept_of (fun e _ => ⟨hs, rfl⟩) fun _ _ => ⟨hs, rfl⟩

end SafetyRules

end Consensus

end Diem
