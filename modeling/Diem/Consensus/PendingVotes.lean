import Diem.Consensus.Types
import Diem.Theory.Runs

/-!
# Pending votes

`consensus/src/pending_votes.rs` holds the votes a validator has received in
the current round and aggregates them into a quorum certificate on a ledger
info, or into a timeout certificate (3-chain) or a 2-chain timeout certificate.
`insert_vote` keeps one vote per author: a vote of the same author on another
ledger info is an equivocation and is dropped, and the same vote again is a
duplicate, unless it now carries a timeout and the stored one did not.

Maps are `AList`s, with ledger infos keyed by `Crypto.hashLedgerInfo`.
`insert_vote` is a function of the state and the vote, for a fixed validator
verifier, and a sequence of calls is a `Mealy` run. Its early returns are the
`Option` answers of `previouslySeen` (step 1) and `checkTimeoutCertificate`
(steps 4 and 4.1).

`Inv` is kept by every call from every state (`inv_insertVote`): each ledger
info is stored under its digest, each signature on one is of an author whose
stored vote is on it, and the signers of the partial timeout certificates have
stored timeout votes. From it, **`insertVote_aggregation`** follows every
sequence of votes from `PendingVotes::new`: recorded signatures are first
votes' signatures, equivocations change nothing, quorum certificates carry only
such signatures and reach a quorum, signers of the partial timeout certificates
are never replaced, and every 2-chain timeout certificate returned passes the
hqc check of `verify`.
-/

namespace Diem

namespace Consensus

/-- `VoteReceptionResult`, the answers `insert_vote` gives. -/
inductive VoteReceptionResult where
  /-- The vote was added; the voting power on its ledger info so far. -/
  | VoteAdded (votingPower : ℕ)
  /-- The same vote was processed before. -/
  | DuplicateVote
  /-- The author voted for another ledger info in this round. -/
  | EquivocateVote
  /-- The vote completed a quorum certificate. -/
  | NewQuorumCertificate (qc : QuorumCert)
  /-- The vote completed a timeout certificate. -/
  | NewTimeoutCertificate (tc : TimeoutCertificate)
  /-- The vote completed a 2-chain timeout certificate. -/
  | New2ChainTimeoutCertificate (tc : TwoChainTimeoutCertificate)
  /-- A voting-power check failed otherwise than for too little power. -/
  | ErrorAddingVote (error : VerifyError)
  deriving DecidableEq

/-- `PendingVotes`. -/
structure PendingVotes where
  /-- `li_digest_to_votes`: the signatures gathered on each ledger info, by its digest. -/
  liDigestToVotes : AList (fun _ : HashValue => LedgerInfoWithSignatures)
  /-- `maybe_partial_tc`. -/
  maybePartialTc : Option TimeoutCertificate
  /-- `maybe_partial_2chain_tc`. -/
  maybePartial2chainTc : Option TwoChainTimeoutCertificate
  /-- `author_to_vote`: the vote kept for each author. -/
  authorToVote : AList (fun _ : Author => Vote)

namespace PendingVotes

/-- `PendingVotes::new`. -/
def new : PendingVotes := ⟨∅, none, none, ∅⟩

variable (C : Crypto)

/-- Step 1 of `insert_vote`: the answer to a vote whose author has a stored
vote, or `none` when the vote is to be processed. -/
def previouslySeen (vote : Vote) : Option Vote → Option VoteReceptionResult
  | none => none
  | some previouslySeenVote =>
    if C.hashLedgerInfo vote.ledgerInfo = C.hashLedgerInfo previouslySeenVote.ledgerInfo then
      -- the same ledger info: processed again only as a new timeout vote
      if vote.isTimeout && !previouslySeenVote.isTimeout then none else some .DuplicateVote
    else some .EquivocateVote

/-- Step 3: the ledger info with signatures of the vote's digest (a new one,
without signatures, if there is none), with the vote's signature added. -/
def liWithSig (pv : PendingVotes) (vote : Vote) : LedgerInfoWithSignatures :=
  ((pv.liDigestToVotes.lookup (C.hashLedgerInfo vote.ledgerInfo)).getD ⟨vote.ledgerInfo, ∅⟩).addSignature
    vote.author vote.signature

/-- Steps 2 and 3: the vote stored as its author's, and its signature added to
its ledger info. -/
def recordVote (pv : PendingVotes) (vote : Vote) : PendingVotes :=
  { pv with
    authorToVote := pv.authorToVote.insert vote.author vote
    liDigestToVotes := pv.liDigestToVotes.insert (C.hashLedgerInfo vote.ledgerInfo) (liWithSig C pv vote) }

variable (validatorVerifier : ValidatorVerifier)

/-- The voting-power check of a partial timeout certificate (steps 4 and 4.1):
the answer to return, or `none` to go on. -/
def checkTimeoutCertificate (signers : List Author) (formed : VoteReceptionResult) :
    Option VoteReceptionResult :=
  match validatorVerifier.checkVotingPower signers with
  | .ok () => some formed
  | .error (.TooLittleVotingPower _ _) => none
  | .error error => some (.ErrorAddingVote error)

/-- Step 4: the round signature of a timeout vote joins the partial timeout
certificate, created for the vote's epoch and round if there is none. -/
def insertTimeout (pv : PendingVotes) (vote : Vote) : Option VoteReceptionResult × PendingVotes :=
  match vote.timeoutSignature with
  | none => (none, pv)
  | some timeoutSignature =>
    let partialTc := (pv.maybePartialTc.getD (TimeoutCertificate.new vote.generateTimeout)).addSignature
      vote.author timeoutSignature
    (checkTimeoutCertificate validatorVerifier partialTc.signatures.keys (.NewTimeoutCertificate partialTc),
      { pv with maybePartialTc := some partialTc })

/-- Step 4.1: the 2-chain timeout of a vote joins the partial 2-chain timeout
certificate, created from that timeout if there is none. -/
def insert2chainTimeout (pv : PendingVotes) (vote : Vote) : Option VoteReceptionResult × PendingVotes :=
  match vote.twoChainTimeout with
  | none => (none, pv)
  | some (timeout, signature) =>
    let partialTc := (pv.maybePartial2chainTc.getD (TwoChainTimeoutCertificate.new timeout)).add
      vote.author timeout signature
    (checkTimeoutCertificate validatorVerifier partialTc.signers (.New2ChainTimeoutCertificate partialTc),
      { pv with maybePartial2chainTc := some partialTc })

/-- `insert_vote`. -/
def insertVote (pv : PendingVotes) (vote : Vote) : VoteReceptionResult × PendingVotes :=
  match previouslySeen C vote (pv.authorToVote.lookup vote.author) with
  | some result => (result, pv)
  | none =>
    let liWithSig := liWithSig C pv vote
    let pv := recordVote C pv vote
    match validatorVerifier.checkVotingPower liWithSig.signatures.keys with
    | .ok () => (.NewQuorumCertificate ⟨vote.voteData, liWithSig⟩, pv)
    | .error (.TooLittleVotingPower votingPower _) =>
      -- 4. no quorum certificate; try the timeout certificates
      match insertTimeout validatorVerifier pv vote with
      | (some result, pv) => (result, pv)
      | (none, pv) =>
        match insert2chainTimeout validatorVerifier pv vote with
        | (some result, pv) => (result, pv)
        | (none, pv) => (.VoteAdded votingPower, pv)
    | .error error => (.ErrorAddingVote error, pv)

/-! ### What one call can do -/

section Step

variable {C validatorVerifier}

@[simp] theorem recordVote_authorToVote (pv : PendingVotes) (vote : Vote) :
    (recordVote C pv vote).authorToVote = pv.authorToVote.insert vote.author vote := rfl

@[simp] theorem recordVote_liDigestToVotes (pv : PendingVotes) (vote : Vote) :
    (recordVote C pv vote).liDigestToVotes =
      pv.liDigestToVotes.insert (C.hashLedgerInfo vote.ledgerInfo) (liWithSig C pv vote) := rfl

@[simp] theorem recordVote_maybePartialTc (pv : PendingVotes) (vote : Vote) :
    (recordVote C pv vote).maybePartialTc = pv.maybePartialTc := rfl

@[simp] theorem recordVote_maybePartial2chainTc (pv : PendingVotes) (vote : Vote) :
    (recordVote C pv vote).maybePartial2chainTc = pv.maybePartial2chainTc := rfl

/-- The timeout steps touch only their own certificate. -/
theorem insertTimeout_of_none {pv : PendingVotes} {vote : Vote} (h : vote.timeoutSignature = none) :
    (insertTimeout validatorVerifier pv vote).2 = pv := by
  simp only [insertTimeout, h]

theorem insertTimeout_of_some {pv : PendingVotes} {vote : Vote} {timeoutSignature : Ed25519Signature}
    (h : vote.timeoutSignature = some timeoutSignature) :
    (insertTimeout validatorVerifier pv vote).2 =
      { pv with maybePartialTc := some ((pv.maybePartialTc.getD
        (TimeoutCertificate.new vote.generateTimeout)).addSignature vote.author timeoutSignature) } := by
  simp only [insertTimeout, h]

theorem insert2chainTimeout_of_none {pv : PendingVotes} {vote : Vote} (h : vote.twoChainTimeout = none) :
    (insert2chainTimeout validatorVerifier pv vote).2 = pv := by
  simp only [insert2chainTimeout, h]

theorem insert2chainTimeout_of_some {pv : PendingVotes} {vote : Vote} {timeout : TwoChainTimeout}
    {signature : Ed25519Signature} (h : vote.twoChainTimeout = some (timeout, signature)) :
    (insert2chainTimeout validatorVerifier pv vote).2 =
      { pv with maybePartial2chainTc := some ((pv.maybePartial2chainTc.getD
        (TwoChainTimeoutCertificate.new timeout)).add vote.author timeout signature) } := by
  simp only [insert2chainTimeout, h]

@[simp] theorem insertTimeout_authorToVote (pv : PendingVotes) (vote : Vote) :
    (insertTimeout validatorVerifier pv vote).2.authorToVote = pv.authorToVote := by
  cases h : vote.timeoutSignature with
  | none => rw [insertTimeout_of_none h]
  | some _ => rw [insertTimeout_of_some h]

@[simp] theorem insertTimeout_liDigestToVotes (pv : PendingVotes) (vote : Vote) :
    (insertTimeout validatorVerifier pv vote).2.liDigestToVotes = pv.liDigestToVotes := by
  cases h : vote.timeoutSignature with
  | none => rw [insertTimeout_of_none h]
  | some _ => rw [insertTimeout_of_some h]

@[simp] theorem insertTimeout_maybePartial2chainTc (pv : PendingVotes) (vote : Vote) :
    (insertTimeout validatorVerifier pv vote).2.maybePartial2chainTc = pv.maybePartial2chainTc := by
  cases h : vote.timeoutSignature with
  | none => rw [insertTimeout_of_none h]
  | some _ => rw [insertTimeout_of_some h]

@[simp] theorem insert2chainTimeout_authorToVote (pv : PendingVotes) (vote : Vote) :
    (insert2chainTimeout validatorVerifier pv vote).2.authorToVote = pv.authorToVote := by
  cases h : vote.twoChainTimeout with
  | none => rw [insert2chainTimeout_of_none h]
  | some _ => rw [insert2chainTimeout_of_some h]

@[simp] theorem insert2chainTimeout_liDigestToVotes (pv : PendingVotes) (vote : Vote) :
    (insert2chainTimeout validatorVerifier pv vote).2.liDigestToVotes = pv.liDigestToVotes := by
  cases h : vote.twoChainTimeout with
  | none => rw [insert2chainTimeout_of_none h]
  | some _ => rw [insert2chainTimeout_of_some h]

@[simp] theorem insert2chainTimeout_maybePartialTc (pv : PendingVotes) (vote : Vote) :
    (insert2chainTimeout validatorVerifier pv vote).2.maybePartialTc = pv.maybePartialTc := by
  cases h : vote.twoChainTimeout with
  | none => rw [insert2chainTimeout_of_none h]
  | some _ => rw [insert2chainTimeout_of_some h]

/-- The answers of the timeout steps: the certificate formed, or an error. -/
theorem checkTimeoutCertificate_eq_some {signers : List Author} {formed r : VoteReceptionResult}
    (h : checkTimeoutCertificate validatorVerifier signers formed = some r) :
    (r = formed ∧ validatorVerifier.checkVotingPower signers = .ok ()) ∨ ∃ e, r = .ErrorAddingVote e := by
  unfold checkTimeoutCertificate at h
  split at h
  · rename_i hok
    exact .inl ⟨(Option.some.inj h).symm, hok⟩
  · cases h
  · exact .inr ⟨_, (Option.some.inj h).symm⟩

theorem insertTimeout_fst {pv : PendingVotes} {vote : Vote} {r : VoteReceptionResult}
    (h : (insertTimeout validatorVerifier pv vote).1 = some r) :
    (∃ tc, r = .NewTimeoutCertificate tc) ∨ ∃ e, r = .ErrorAddingVote e := by
  unfold insertTimeout at h
  split at h
  · simp at h
  · rcases checkTimeoutCertificate_eq_some h with ⟨rfl, -⟩ | he
    · exact .inl ⟨_, rfl⟩
    · exact .inr he

theorem insert2chainTimeout_fst {pv : PendingVotes} {vote : Vote} {r : VoteReceptionResult}
    (h : (insert2chainTimeout validatorVerifier pv vote).1 = some r) :
    (∃ tc, r = .New2ChainTimeoutCertificate tc ∧
      (insert2chainTimeout validatorVerifier pv vote).2.maybePartial2chainTc = some tc ∧
      validatorVerifier.checkVotingPower tc.signers = .ok ()) ∨ ∃ e, r = .ErrorAddingVote e := by
  unfold insert2chainTimeout at h ⊢
  split at h
  · simp at h
  · rcases checkTimeoutCertificate_eq_some h with ⟨rfl, hok⟩ | he
    · exact .inl ⟨_, rfl, rfl, hok⟩
    · exact .inr he

theorem previouslySeen_eq_some {vote : Vote} {o : Option Vote} {r : VoteReceptionResult}
    (h : previouslySeen C vote o = some r) : r = .DuplicateVote ∨ r = .EquivocateVote := by
  cases o with
  | none => cases h
  | some w =>
    simp only [previouslySeen] at h
    split_ifs at h
    · cases h
      exact .inl rfl
    · cases h
      exact .inr rfl

/-- Step 4 leaves the partial timeout certificate, or adds the vote's round
signature to it (or to a new one). -/
theorem insertTimeout_maybePartialTc (pv : PendingVotes) (vote : Vote) :
    (insertTimeout validatorVerifier pv vote).2.maybePartialTc = pv.maybePartialTc ∨
      ∃ timeoutSignature, vote.timeoutSignature = some timeoutSignature ∧
        (insertTimeout validatorVerifier pv vote).2.maybePartialTc = some ((pv.maybePartialTc.getD
          (TimeoutCertificate.new vote.generateTimeout)).addSignature vote.author timeoutSignature) := by
  cases h : vote.timeoutSignature with
  | none => exact .inl (by rw [insertTimeout_of_none h])
  | some timeoutSignature => exact .inr ⟨timeoutSignature, rfl, by rw [insertTimeout_of_some h]⟩

/-- Step 4.1 leaves the partial 2-chain timeout certificate, or adds the
vote's timeout to it (or to a new one). -/
theorem insert2chainTimeout_maybePartial2chainTc (pv : PendingVotes) (vote : Vote) :
    (insert2chainTimeout validatorVerifier pv vote).2.maybePartial2chainTc = pv.maybePartial2chainTc ∨
      ∃ timeout signature, vote.twoChainTimeout = some (timeout, signature) ∧
        (insert2chainTimeout validatorVerifier pv vote).2.maybePartial2chainTc = some ((pv.maybePartial2chainTc.getD
          (TwoChainTimeoutCertificate.new timeout)).add vote.author timeout signature) := by
  cases h : vote.twoChainTimeout with
  | none => exact .inl (by rw [insert2chainTimeout_of_none h])
  | some x => exact .inr ⟨x.1, x.2, rfl, by rw [insert2chainTimeout_of_some h]⟩

/-- **What a call does.** Step 1 answers and changes nothing; or the vote is
recorded and then either forms a quorum certificate, fails its voting-power
check, or goes on to the timeout steps, where each may answer. -/
theorem insertVote_cases (pv : PendingVotes) (vote : Vote) :
    (∃ r, previouslySeen C vote (pv.authorToVote.lookup vote.author) = some r ∧
      insertVote C validatorVerifier pv vote = (r, pv)) ∨
    (previouslySeen C vote (pv.authorToVote.lookup vote.author) = none ∧
      ((validatorVerifier.checkVotingPower (liWithSig C pv vote).signatures.keys = .ok () ∧
        insertVote C validatorVerifier pv vote =
          (.NewQuorumCertificate ⟨vote.voteData, liWithSig C pv vote⟩, recordVote C pv vote)) ∨
       (∃ e, insertVote C validatorVerifier pv vote = (.ErrorAddingVote e, recordVote C pv vote)) ∨
       (∃ r, (insertTimeout validatorVerifier (recordVote C pv vote) vote).1 = some r ∧
         insertVote C validatorVerifier pv vote = (r, (insertTimeout validatorVerifier (recordVote C pv vote) vote).2)) ∨
       (∃ r, insertVote C validatorVerifier pv vote = (r,
         (insert2chainTimeout validatorVerifier (insertTimeout validatorVerifier (recordVote C pv vote) vote).2 vote).2) ∧
         ((insert2chainTimeout validatorVerifier (insertTimeout validatorVerifier (recordVote C pv vote) vote).2
           vote).1 = some r ∨ ∃ n, r = .VoteAdded n)))) := by
  unfold insertVote
  cases hseen : previouslySeen C vote (pv.authorToVote.lookup vote.author) with
  | some r => exact .inl ⟨r, rfl, rfl⟩
  | none =>
    refine .inr ⟨rfl, ?_⟩
    simp only
    split
    · rename_i hok
      exact .inl ⟨hok, rfl⟩
    · -- too little voting power for a quorum certificate: the timeout steps
      rename_i votingPower _ _
      rcases h4 : insertTimeout validatorVerifier (recordVote C pv vote) vote with ⟨_ | r, pv₄⟩
      · rcases h41 : insert2chainTimeout validatorVerifier pv₄ vote with ⟨_ | r, pv₅⟩
        · exact .inr (.inr (.inr ⟨.VoteAdded votingPower, by simp only [h41], .inr ⟨votingPower, rfl⟩⟩))
        · exact .inr (.inr (.inr ⟨r, by simp only [h41], .inl rfl⟩))
      · exact .inr (.inr (.inl ⟨r, rfl, rfl⟩))
    · exact .inr (.inl ⟨_, rfl⟩)

end Step

/-! ### The invariant -/

/-- `a`'s stored vote carries a timeout, so `insert_vote` takes no other vote
of `a` past step 1. -/
def TimedOut (pv : PendingVotes) (a : Author) : Prop :=
  ∃ w, pv.authorToVote.lookup a = some w ∧ w.isTimeout = true

/-- What `insert_vote` keeps true of the pending votes. -/
structure Inv (pv : PendingVotes) : Prop where
  /-- Each ledger info is stored under its own digest. -/
  digest : ∀ d li, pv.liDigestToVotes.lookup d = some li → C.hashLedgerInfo li.ledgerInfo = d
  /-- Each signer of a ledger info has its stored vote on it. -/
  signer : ∀ d li a, pv.liDigestToVotes.lookup d = some li → a ∈ li.signatures →
    ∃ w, pv.authorToVote.lookup a = some w ∧ C.hashLedgerInfo w.ledgerInfo = d
  /-- Each stored vote's author signs the ledger info of the vote. -/
  voter : ∀ a w, pv.authorToVote.lookup a = some w →
    ∃ li, pv.liDigestToVotes.lookup (C.hashLedgerInfo w.ledgerInfo) = some li ∧ a ∈ li.signatures
  /-- The signers of the partial timeout certificate have timed out. -/
  tc : ∀ tc, pv.maybePartialTc = some tc → ∀ a ∈ tc.signatures, TimedOut pv a
  /-- The signers of the partial 2-chain timeout certificate have timed out. -/
  tc2 : ∀ tc, pv.maybePartial2chainTc = some tc → ∀ a ∈ tc.signatures, TimedOut pv a
  /-- The partial 2-chain timeout certificate's timeout has the highest
  `hqc_round` its signers recorded. -/
  hqc : ∀ tc, pv.maybePartial2chainTc = some tc → tc.highestHqcRound = tc.signedRound

theorem inv_new : Inv C new where
  digest _ _ h := by cases h
  signer _ _ _ h := by cases h
  voter _ _ h := by cases h
  tc _ h := by cases h
  tc2 _ h := by cases h
  hqc _ h := by cases h

section Preservation

variable {C validatorVerifier} {pv : PendingVotes} {vote : Vote}

/-- A vote step 1 lets through is on the ledger info of its author's stored
vote, which has no timeout. -/
theorem previouslySeen_eq_none {w : Vote} (h : previouslySeen C vote (some w) = none) :
    C.hashLedgerInfo vote.ledgerInfo = C.hashLedgerInfo w.ledgerInfo ∧ w.isTimeout = false := by
  simp only [previouslySeen] at h
  by_cases hd : C.hashLedgerInfo vote.ledgerInfo = C.hashLedgerInfo w.ledgerInfo
  · rw [if_pos hd] at h
    by_cases ht : (vote.isTimeout && !w.isTimeout) = true
    · simp only [Bool.and_eq_true, Bool.not_eq_true'] at ht
      exact ⟨hd, ht.2⟩
    · rw [if_neg ht] at h
      cases h
  · rw [if_neg hd] at h
    cases h

theorem not_timedOut (hseen : previouslySeen C vote (pv.authorToVote.lookup vote.author) = none) :
    ¬ TimedOut pv vote.author := by
  rintro ⟨w, hw, ht⟩
  rw [hw] at hseen
  have hf := (previouslySeen_eq_none hseen).2
  rw [ht] at hf
  cases hf

/-- Recording a vote step 1 let through changes no author's digest. -/
theorem recordVote_digest (hseen : previouslySeen C vote (pv.authorToVote.lookup vote.author) = none)
    {a : Author} {w : Vote} (hw : pv.authorToVote.lookup a = some w) :
    ∃ w', (recordVote C pv vote).authorToVote.lookup a = some w' ∧
      C.hashLedgerInfo w'.ledgerInfo = C.hashLedgerInfo w.ledgerInfo := by
  rw [recordVote_authorToVote]
  by_cases ha : a = vote.author
  · subst ha
    rw [hw] at hseen
    exact ⟨vote, AList.lookup_insert _, (previouslySeen_eq_none hseen).1⟩
  · exact ⟨w, by rw [AList.lookup_insert_ne ha, hw], rfl⟩

theorem recordVote_timedOut (hseen : previouslySeen C vote (pv.authorToVote.lookup vote.author) = none)
    {a : Author} (h : TimedOut pv a) : TimedOut (recordVote C pv vote) a := by
  have ha : a ≠ vote.author := by
    rintro rfl
    exact not_timedOut hseen h
  obtain ⟨w, hw, ht⟩ := h
  exact ⟨w, by rw [recordVote_authorToVote, AList.lookup_insert_ne ha, hw], ht⟩

theorem mem_liWithSig {a : Author} : a ∈ (liWithSig C pv vote).signatures ↔
    a = vote.author ∨ ∃ li, pv.liDigestToVotes.lookup (C.hashLedgerInfo vote.ledgerInfo) = some li ∧
      a ∈ li.signatures := by
  unfold liWithSig
  rw [LedgerInfoWithSignatures.addSignature_signatures, AList.mem_orInsert]
  cases pv.liDigestToVotes.lookup (C.hashLedgerInfo vote.ledgerInfo) <;> simp

theorem Inv.recordVote (hinv : Inv C pv)
    (hseen : previouslySeen C vote (pv.authorToVote.lookup vote.author) = none) :
    Inv C (recordVote C pv vote) where
  digest d li h := by
    rw [recordVote_liDigestToVotes] at h
    by_cases hd : d = C.hashLedgerInfo vote.ledgerInfo
    · subst hd
      rw [AList.lookup_insert, Option.some.injEq] at h
      subst h
      unfold liWithSig
      rw [LedgerInfoWithSignatures.addSignature_ledgerInfo]
      cases hl : pv.liDigestToVotes.lookup (C.hashLedgerInfo vote.ledgerInfo) with
      | none => rfl
      | some li₀ => exact hinv.digest _ li₀ hl
    · rw [AList.lookup_insert_ne hd] at h
      exact hinv.digest d li h
  signer d li a h ha := by
    rw [recordVote_liDigestToVotes] at h
    by_cases hd : d = C.hashLedgerInfo vote.ledgerInfo
    · subst hd
      rw [AList.lookup_insert, Option.some.injEq] at h
      subst h
      rcases mem_liWithSig.1 ha with rfl | ⟨li₀, hl, ha₀⟩
      · exact ⟨vote, AList.lookup_insert _, rfl⟩
      · obtain ⟨w, hw, hd⟩ := hinv.signer _ li₀ a hl ha₀
        obtain ⟨w', hw', hd'⟩ := recordVote_digest hseen hw
        exact ⟨w', hw', hd'.trans hd⟩
    · rw [AList.lookup_insert_ne hd] at h
      obtain ⟨w, hw, hdw⟩ := hinv.signer d li a h ha
      obtain ⟨w', hw', hd'⟩ := recordVote_digest hseen hw
      exact ⟨w', hw', hd'.trans hdw⟩
  voter a w h := by
    rw [recordVote_liDigestToVotes]
    rw [recordVote_authorToVote] at h
    by_cases ha : a = vote.author
    · subst ha
      rw [AList.lookup_insert, Option.some.injEq] at h
      subst h
      exact ⟨_, AList.lookup_insert _, mem_liWithSig.2 (Or.inl rfl)⟩
    · rw [AList.lookup_insert_ne ha] at h
      obtain ⟨li₀, hl, ha₀⟩ := hinv.voter a w h
      by_cases hd : C.hashLedgerInfo w.ledgerInfo = C.hashLedgerInfo vote.ledgerInfo
      · rw [hd] at hl ⊢
        exact ⟨_, AList.lookup_insert _, mem_liWithSig.2 (Or.inr ⟨li₀, hl, ha₀⟩)⟩
      · exact ⟨li₀, by rw [AList.lookup_insert_ne hd, hl], ha₀⟩
  tc tc h a ha := recordVote_timedOut hseen (hinv.tc tc h a ha)
  tc2 tc h a ha := recordVote_timedOut hseen (hinv.tc2 tc h a ha)
  hqc := hinv.hqc

/-- Step 4 keeps the invariant once the vote is stored as its author's. -/
theorem Inv.insertTimeout (hinv : Inv C pv) (hv : pv.authorToVote.lookup vote.author = some vote) :
    Inv C (insertTimeout validatorVerifier pv vote).2 := by
  cases hts : vote.timeoutSignature with
  | none => rwa [insertTimeout_of_none hts]
  | some timeoutSignature =>
    rw [insertTimeout_of_some hts]
    refine { hinv with tc := ?_ }
    rintro tc h a ha
    rw [Option.some.injEq] at h
    subst h
    rw [TimeoutCertificate.addSignature_signatures, AList.mem_orInsert] at ha
    rcases ha with rfl | ha
    · exact ⟨vote, hv, by simp [Vote.isTimeout, hts]⟩
    · cases hb : pv.maybePartialTc with
      | none => simp [hb] at ha
      | some tc₀ =>
        rw [hb, Option.getD_some] at ha
        exact hinv.tc tc₀ hb a ha

/-- Step 4.1 keeps the invariant once the vote is stored as its author's, if
the author has not signed the partial 2-chain timeout certificate. -/
theorem Inv.insert2chainTimeout (hinv : Inv C pv) (hv : pv.authorToVote.lookup vote.author = some vote)
    (hnot : ∀ tc, pv.maybePartial2chainTc = some tc → vote.author ∉ tc.signatures) :
    Inv C (insert2chainTimeout validatorVerifier pv vote).2 := by
  cases htc : vote.twoChainTimeout with
  | none => rwa [insert2chainTimeout_of_none htc]
  | some x =>
    obtain ⟨timeout, signature⟩ := x
    rw [insert2chainTimeout_of_some htc]
    have hbase : max (pv.maybePartial2chainTc.getD (.new timeout)).highestHqcRound timeout.hqcRound =
          max (pv.maybePartial2chainTc.getD (.new timeout)).signedRound timeout.hqcRound ∧
        vote.author ∉ (pv.maybePartial2chainTc.getD (.new timeout)).signatures ∧
        ∀ a ∈ (pv.maybePartial2chainTc.getD (.new timeout)).signatures, TimedOut pv a := by
      cases hb : pv.maybePartial2chainTc with
      | none => simp
      | some tc₀ => exact ⟨by rw [Option.getD_some, hinv.hqc tc₀ hb], hnot tc₀ hb, hinv.tc2 tc₀ hb⟩
    obtain ⟨hmax, hfresh, htimed⟩ := hbase
    refine { hinv with tc2 := ?_, hqc := ?_ }
    · rintro tc h a ha
      rw [Option.some.injEq] at h
      subst h
      rw [TwoChainTimeoutCertificate.add_signatures, AList.mem_insert] at ha
      rcases ha with rfl | ha
      · exact ⟨vote, hv, by simp [Vote.isTimeout, htc]⟩
      · exact htimed a ha
    · rintro tc h
      rw [Option.some.injEq] at h
      subst h
      rw [TwoChainTimeoutCertificate.add_highestHqcRound, TwoChainTimeoutCertificate.add_signedRound _ _ hfresh,
        hmax]

theorem insertVote_seen {r : VoteReceptionResult}
    (h : previouslySeen C vote (pv.authorToVote.lookup vote.author) = some r) :
    insertVote C validatorVerifier pv vote = (r, pv) := by
  simp only [insertVote, h]

/-- A call that gets past step 1 records the vote; the timeout steps change
neither map. -/
theorem insertVote_maps (hseen : previouslySeen C vote (pv.authorToVote.lookup vote.author) = none) :
    (insertVote C validatorVerifier pv vote).2.authorToVote = pv.authorToVote.insert vote.author vote ∧
      (insertVote C validatorVerifier pv vote).2.liDigestToVotes =
        pv.liDigestToVotes.insert (C.hashLedgerInfo vote.ledgerInfo) (liWithSig C pv vote) := by
  rcases @insertVote_cases C validatorVerifier pv vote with ⟨r, hr, -⟩ | ⟨-, h⟩
  · rw [hseen] at hr
    cases hr
  · rcases h with ⟨-, h⟩ | ⟨e, h⟩ | ⟨r, -, h⟩ | ⟨r, h, -⟩ <;> rw [h] <;> simp

/-- What becomes of the partial timeout certificate in a call that gets past step 1. -/
theorem insertVote_maybePartialTc (hseen : previouslySeen C vote (pv.authorToVote.lookup vote.author) = none) :
    (insertVote C validatorVerifier pv vote).2.maybePartialTc = pv.maybePartialTc ∨
      ∃ timeoutSignature, vote.timeoutSignature = some timeoutSignature ∧
        (insertVote C validatorVerifier pv vote).2.maybePartialTc = some ((pv.maybePartialTc.getD
          (TimeoutCertificate.new vote.generateTimeout)).addSignature vote.author timeoutSignature) := by
  rcases @insertVote_cases C validatorVerifier pv vote with ⟨r, hr, -⟩ | ⟨-, h⟩
  · rw [hseen] at hr
    cases hr
  · rcases h with ⟨-, h⟩ | ⟨e, h⟩ | ⟨r, -, h⟩ | ⟨r, h, -⟩ <;> rw [h]
    · exact .inl rfl
    · exact .inl rfl
    · simpa using insertTimeout_maybePartialTc (recordVote C pv vote) vote
    · simpa using insertTimeout_maybePartialTc (recordVote C pv vote) vote

/-- What becomes of the partial 2-chain timeout certificate in a call that gets past step 1. -/
theorem insertVote_maybePartial2chainTc
    (hseen : previouslySeen C vote (pv.authorToVote.lookup vote.author) = none) :
    (insertVote C validatorVerifier pv vote).2.maybePartial2chainTc = pv.maybePartial2chainTc ∨
      ∃ timeout signature, vote.twoChainTimeout = some (timeout, signature) ∧
        (insertVote C validatorVerifier pv vote).2.maybePartial2chainTc = some ((pv.maybePartial2chainTc.getD
          (TwoChainTimeoutCertificate.new timeout)).add vote.author timeout signature) := by
  rcases @insertVote_cases C validatorVerifier pv vote with ⟨r, hr, -⟩ | ⟨-, h⟩
  · rw [hseen] at hr
    cases hr
  · rcases h with ⟨-, h⟩ | ⟨e, h⟩ | ⟨r, -, h⟩ | ⟨r, h, -⟩ <;> rw [h]
    · exact .inl rfl
    · exact .inl rfl
    · exact .inl (by simp)
    · simpa using insert2chainTimeout_maybePartial2chainTc
        (insertTimeout validatorVerifier (recordVote C pv vote) vote).2 vote

/-- **`insert_vote` keeps the invariant**, from every state where it holds. -/
theorem inv_insertVote (hinv : Inv C pv) : Inv C (insertVote C validatorVerifier pv vote).2 := by
  rcases @insertVote_cases C validatorVerifier pv vote with ⟨r, -, h⟩ | ⟨hseen, h⟩
  · rwa [h]
  · have h₃ := hinv.recordVote hseen
    have hv : (recordVote C pv vote).authorToVote.lookup vote.author = some vote := by
      rw [recordVote_authorToVote, AList.lookup_insert]
    rcases h with ⟨-, h⟩ | ⟨e, h⟩ | ⟨r, -, h⟩ | ⟨r, h, -⟩ <;> rw [h]
    · exact h₃
    · exact h₃
    · exact h₃.insertTimeout hv
    · refine (h₃.insertTimeout hv).insert2chainTimeout (by rwa [insertTimeout_authorToVote]) ?_
      -- the author has not signed: a signer's stored vote has a timeout, and step 1 stops those
      intro tc htc hmem
      rw [insertTimeout_maybePartial2chainTc, recordVote_maybePartial2chainTc] at htc
      exact not_timedOut hseen (hinv.tc2 tc htc _ hmem)

/-- A quorum certificate comes from step 3: the ledger info of the vote, with
its signatures, which reach a quorum. -/
theorem insertVote_qc {qc : QuorumCert}
    (h : (insertVote C validatorVerifier pv vote).1 = .NewQuorumCertificate qc) :
    previouslySeen C vote (pv.authorToVote.lookup vote.author) = none ∧
      (insertVote C validatorVerifier pv vote).2 = recordVote C pv vote ∧
      qc = ⟨vote.voteData, liWithSig C pv vote⟩ ∧
      validatorVerifier.checkVotingPower (liWithSig C pv vote).signatures.keys = .ok () := by
  rcases @insertVote_cases C validatorVerifier pv vote with ⟨r, hr, he⟩ | ⟨hseen, hc⟩
  · rw [he] at h
    rcases previouslySeen_eq_some hr with rfl | rfl <;> cases h
  · rcases hc with ⟨hok, he⟩ | ⟨e, he⟩ | ⟨r, hr, he⟩ | ⟨r, he, hr⟩ <;> rw [he] at h ⊢
    · cases h
      exact ⟨hseen, rfl, rfl, hok⟩
    · cases h
    · subst h
      rcases insertTimeout_fst hr with ⟨_, h⟩ | ⟨_, h⟩ <;> cases h
    · subst h
      rcases hr with hr | ⟨_, h⟩
      · rcases insert2chainTimeout_fst hr with ⟨_, h, -⟩ | ⟨_, h⟩ <;> cases h
      · cases h

/-- A 2-chain timeout certificate comes from step 4.1: it is the partial one
the call leaves, and its signers reach a quorum. -/
theorem insertVote_tc2 {tc : TwoChainTimeoutCertificate}
    (h : (insertVote C validatorVerifier pv vote).1 = .New2ChainTimeoutCertificate tc) :
    (insertVote C validatorVerifier pv vote).2.maybePartial2chainTc = some tc ∧
      validatorVerifier.checkVotingPower tc.signers = .ok () := by
  rcases @insertVote_cases C validatorVerifier pv vote with ⟨r, hr, he⟩ | ⟨hseen, hc⟩
  · rw [he] at h
    rcases previouslySeen_eq_some hr with rfl | rfl <;> cases h
  · rcases hc with ⟨hok, he⟩ | ⟨e, he⟩ | ⟨r, hr, he⟩ | ⟨r, he, hr⟩ <;> rw [he] at h ⊢
    · cases h
    · cases h
    · subst h
      rcases insertTimeout_fst hr with ⟨_, h⟩ | ⟨_, h⟩ <;> cases h
    · subst h
      rcases hr with hr | ⟨_, h⟩
      · rcases insert2chainTimeout_fst hr with ⟨tc', h, hpost, hok⟩ | ⟨_, h⟩
        · cases h
          exact ⟨hpost, hok⟩
        · cases h
      · cases h

/-- **No signer of the partial timeout certificate is replaced**, and a vote
of a signer leaves the certificate as it is: each author is added at most once. -/
theorem insertVote_tc_kept (hinv : Inv C pv) {tc : TimeoutCertificate} (htc : pv.maybePartialTc = some tc) :
    ∃ tc', (insertVote C validatorVerifier pv vote).2.maybePartialTc = some tc' ∧ tc'.timeout = tc.timeout ∧
      (∀ a σ, tc.signatures.lookup a = some σ → tc'.signatures.lookup a = some σ) ∧
      (vote.author ∈ tc.signatures → tc' = tc) := by
  cases hseen : previouslySeen C vote (pv.authorToVote.lookup vote.author) with
  | some r => exact ⟨tc, by rw [insertVote_seen hseen, htc], rfl, fun _ _ h => h, fun _ => rfl⟩
  | none =>
    have hnot : vote.author ∉ tc.signatures := fun hm => not_timedOut hseen (hinv.tc tc htc _ hm)
    rcases insertVote_maybePartialTc hseen with h | ⟨timeoutSignature, -, h⟩
    · exact ⟨tc, by rw [h, htc], rfl, fun _ _ h => h, fun hm => absurd hm hnot⟩
    · rw [htc, Option.getD_some] at h
      refine ⟨_, h, rfl, fun a σ ha => ?_, fun hm => absurd hm hnot⟩
      rw [TimeoutCertificate.addSignature_signatures]
      exact AList.lookup_orInsert_of_lookup ha

/-- **No signer of the partial 2-chain timeout certificate is replaced**, and
a vote of a signer leaves the certificate as it is. -/
theorem insertVote_tc2_kept (hinv : Inv C pv) {tc : TwoChainTimeoutCertificate}
    (htc : pv.maybePartial2chainTc = some tc) :
    ∃ tc', (insertVote C validatorVerifier pv vote).2.maybePartial2chainTc = some tc' ∧
      (∀ a x, tc.signatures.lookup a = some x → tc'.signatures.lookup a = some x) ∧
      (vote.author ∈ tc.signatures → tc' = tc) := by
  cases hseen : previouslySeen C vote (pv.authorToVote.lookup vote.author) with
  | some r => exact ⟨tc, by rw [insertVote_seen hseen, htc], fun _ _ h => h, fun _ => rfl⟩
  | none =>
    have hnot : vote.author ∉ tc.signatures := fun hm => not_timedOut hseen (hinv.tc2 tc htc _ hm)
    rcases insertVote_maybePartial2chainTc hseen with h | ⟨timeout, signature, -, h⟩
    · exact ⟨tc, by rw [h, htc], fun _ _ h => h, fun hm => absurd hm hnot⟩
    · rw [htc, Option.getD_some] at h
      refine ⟨_, h, fun a x ha => ?_, fun hm => absurd hm hnot⟩
      have hne : a ≠ vote.author := by
        rintro rfl
        exact hnot (AList.lookup_isSome.1 (by rw [ha]; rfl))
      rw [TwoChainTimeoutCertificate.add_signatures, AList.lookup_insert_ne hne, ha]

end Preservation

/-! ### What a run from `PendingVotes::new` remembers -/

/-- The first vote of author `a` among `votes`. -/
def firstVote (votes : List Vote) (a : Author) : Option Vote := votes.find? fun v => v.author == a

theorem firstVote_append_singleton (votes : List Vote) (v : Vote) (a : Author) :
    firstVote (votes ++ [v]) a = (firstVote votes a).or (if v.author = a then some v else none) := by
  unfold firstVote
  rw [List.find?_append]
  by_cases h : v.author = a <;> simp [h]

theorem firstVote_append_of_eq_some {votes : List Vote} {a : Author} {w : Vote} (v : Vote)
    (h : firstVote votes a = some w) : firstVote (votes ++ [v]) a = some w := by
  rw [firstVote_append_singleton, h, Option.some_or]

/-- What the pending votes remember of the votes inserted so far. -/
structure Remembers (votes : List Vote) (pv : PendingVotes) : Prop where
  /-- Each author's stored vote is on the ledger info of its first vote. -/
  first : ∀ a, (pv.authorToVote.lookup a).map (fun w => C.hashLedgerInfo w.ledgerInfo) =
    (firstVote votes a).map fun w => C.hashLedgerInfo w.ledgerInfo
  /-- Each recorded signature is its author's first vote's, on the ledger info of that vote. -/
  recorded : ∀ d li a σ, pv.liDigestToVotes.lookup d = some li → li.signatures.lookup a = some σ →
    ∃ w, firstVote votes a = some w ∧ C.hashLedgerInfo w.ledgerInfo = d ∧ w.signature = σ

theorem remembers_nil : Remembers C [] new where
  first _ := rfl
  recorded _ _ _ _ h := by cases h

section Remember

variable {C validatorVerifier} {pv : PendingVotes} {votes : List Vote} {vote : Vote}

/-- A vote step 1 answers leaves the state, which remembers the vote as well. -/
theorem Remembers.seen (hrem : Remembers C votes pv) {r : VoteReceptionResult}
    (hr : previouslySeen C vote (pv.authorToVote.lookup vote.author) = some r) :
    Remembers C (votes ++ [vote]) pv where
  first a := by
    rw [hrem.first a, firstVote_append_singleton]
    cases hf : firstVote votes a with
    | some w => rfl
    | none =>
      -- `a` has no stored vote, and the vote's author has one: step 1 answered from it
      have ha : vote.author ≠ a := by
        rintro rfl
        have h1 := hrem.first vote.author
        rw [hf] at h1
        cases hw : pv.authorToVote.lookup vote.author with
        | none =>
          rw [hw] at hr
          cases hr
        | some w =>
          rw [hw] at h1
          cases h1
      simp [ha]
  recorded d li a σ hl hσ := by
    obtain ⟨w, hw, hd, hs⟩ := hrem.recorded d li a σ hl hσ
    exact ⟨w, firstVote_append_of_eq_some vote hw, hd, hs⟩

/-- An author that has not signed the ledger info of its vote votes for the first time. -/
theorem firstVote_of_not_signed (hinv : Inv C pv) (hrem : Remembers C votes pv)
    (hseen : previouslySeen C vote (pv.authorToVote.lookup vote.author) = none)
    (hns : ∀ li, pv.liDigestToVotes.lookup (C.hashLedgerInfo vote.ledgerInfo) = some li →
      vote.author ∉ li.signatures) :
    firstVote (votes ++ [vote]) vote.author = some vote := by
  rw [firstVote_append_singleton]
  cases hf : firstVote votes vote.author with
  | none => simp
  | some w₀ =>
    exfalso
    have h1 := hrem.first vote.author
    rw [hf] at h1
    cases hw : pv.authorToVote.lookup vote.author with
    | none =>
      rw [hw] at h1
      cases h1
    | some w₁ =>
      rw [hw] at hseen
      obtain ⟨li, hl, hm⟩ := hinv.voter _ w₁ hw
      rw [← (previouslySeen_eq_none hseen).1] at hl
      exact hns li hl hm

/-- Recording a vote step 1 let through keeps what the state remembers. -/
theorem Remembers.record (hinv : Inv C pv) (hrem : Remembers C votes pv)
    (hseen : previouslySeen C vote (pv.authorToVote.lookup vote.author) = none) {pv' : PendingVotes}
    (hA : pv'.authorToVote = pv.authorToVote.insert vote.author vote)
    (hL : pv'.liDigestToVotes = pv.liDigestToVotes.insert (C.hashLedgerInfo vote.ledgerInfo) (liWithSig C pv vote)) :
    Remembers C (votes ++ [vote]) pv' where
  first a := by
    rw [hA]
    by_cases ha : a = vote.author
    · subst ha
      rw [AList.lookup_insert, firstVote_append_singleton]
      cases hf : firstVote votes vote.author with
      | none => simp
      | some w₀ =>
        have h1 := hrem.first vote.author
        rw [hf] at h1
        cases hw : pv.authorToVote.lookup vote.author with
        | none =>
          rw [hw] at h1
          cases h1
        | some w₁ =>
          rw [hw, Option.map_some, Option.map_some, Option.some.injEq] at h1
          rw [hw] at hseen
          simp [(previouslySeen_eq_none hseen).1, h1]
    · rw [AList.lookup_insert_ne ha, hrem.first a, firstVote_append_singleton]
      simp [Ne.symm ha]
  recorded d li a σ hl hσ := by
    rw [hL] at hl
    by_cases hd : d = C.hashLedgerInfo vote.ledgerInfo
    · subst hd
      rw [AList.lookup_insert, Option.some.injEq] at hl
      subst hl
      unfold liWithSig at hσ
      rw [LedgerInfoWithSignatures.addSignature_signatures] at hσ
      by_cases hm : ∃ li₀, pv.liDigestToVotes.lookup (C.hashLedgerInfo vote.ledgerInfo) = some li₀ ∧
          a ∈ li₀.signatures
      · obtain ⟨li₀, hl₀, hm₀⟩ := hm
        rw [hl₀, Option.getD_some, AList.lookup_orInsert_of_mem hm₀] at hσ
        obtain ⟨w, hw, h1, h2⟩ := hrem.recorded _ li₀ a σ hl₀ hσ
        exact ⟨w, firstVote_append_of_eq_some vote hw, h1, h2⟩
      · have hns : a ∉ ((pv.liDigestToVotes.lookup (C.hashLedgerInfo vote.ledgerInfo)).getD
            ⟨vote.ledgerInfo, ∅⟩).signatures := by
          cases hl₀ : pv.liDigestToVotes.lookup (C.hashLedgerInfo vote.ledgerInfo) with
          | none => simp
          | some li₀ => exact fun hm₀ => hm ⟨li₀, hl₀, hm₀⟩
        have ha : a = vote.author := by
          by_contra ha
          rw [AList.lookup_orInsert_ne ha] at hσ
          exact hns (AList.lookup_isSome.1 (by rw [hσ]; rfl))
        subst ha
        rw [AList.lookup_orInsert_of_notMem hns, Option.some.injEq] at hσ
        subst hσ
        exact ⟨vote, firstVote_of_not_signed hinv hrem hseen fun li hl hm₀ => hm ⟨li, hl, hm₀⟩, rfl, rfl⟩
    · rw [AList.lookup_insert_ne hd] at hl
      obtain ⟨w, hw, h1, h2⟩ := hrem.recorded d li a σ hl hσ
      exact ⟨w, firstVote_append_of_eq_some vote hw, h1, h2⟩

theorem Remembers.insertVote (hinv : Inv C pv) (hrem : Remembers C votes pv) :
    Remembers C (votes ++ [vote]) (insertVote C validatorVerifier pv vote).2 := by
  cases hseen : previouslySeen C vote (pv.authorToVote.lookup vote.author) with
  | some r =>
    rw [insertVote_seen hseen]
    exact hrem.seen hseen
  | none =>
    obtain ⟨hA, hL⟩ := @insertVote_maps C validatorVerifier pv vote hseen
    exact hrem.record hinv hseen hA hL

end Remember

/-- **What every run from `PendingVotes::new` keeps**: the invariant, and
what the state remembers of the votes. -/
theorem remembers_final (votes : List Vote) :
    Inv C (Mealy.final (insertVote C validatorVerifier) new votes) ∧
      Remembers C votes (Mealy.final (insertVote C validatorVerifier) new votes) :=
  Mealy.final_inv (insertVote C validatorVerifier) (R := fun votes pv => Inv C pv ∧ Remembers C votes pv)
    ⟨inv_new C, remembers_nil C⟩ (fun _ _ _ h => ⟨inv_insertVote h.1, h.2.insertVote h.1⟩) votes

/-- **Vote aggregation.** Over every sequence of votes inserted into one
`PendingVotes` from `new`, with `pv` the state before the next vote and `out`
that call's answer and state: every signature recorded on a ledger info is
its author's first vote's, on that vote's ledger info; a vote of an author
whose first vote is on another ledger info is an equivocation and changes
nothing; a quorum certificate holds only such signatures, all on its own
ledger info, and reaches a quorum; no signer of either partial timeout
certificate is replaced, and a signer's vote leaves it as it is; the partial
2-chain certificate's timeout has the highest `hqc_round` its signers
recorded, so a 2-chain certificate returned passes `verify` whenever its
round, its quorum certificate and its signatures do. -/
theorem insertVote_aggregation (votes : List Vote) (vote : Vote) :
    let pv := Mealy.final (insertVote C validatorVerifier) new votes
    let out := insertVote C validatorVerifier pv vote
    (∀ d li a σ, out.2.liDigestToVotes.lookup d = some li → li.signatures.lookup a = some σ →
      ∃ w, firstVote (votes ++ [vote]) a = some w ∧ C.hashLedgerInfo w.ledgerInfo = d ∧ w.signature = σ) ∧
    (∀ w, firstVote votes vote.author = some w →
      C.hashLedgerInfo w.ledgerInfo ≠ C.hashLedgerInfo vote.ledgerInfo → out = (.EquivocateVote, pv)) ∧
    (∀ qc, out.1 = .NewQuorumCertificate qc →
      validatorVerifier.checkVotingPower qc.signedLedgerInfo.signatures.keys = .ok () ∧
      C.hashLedgerInfo qc.signedLedgerInfo.ledgerInfo = C.hashLedgerInfo vote.ledgerInfo ∧
      ∀ a σ, qc.signedLedgerInfo.signatures.lookup a = some σ →
        ∃ w, firstVote (votes ++ [vote]) a = some w ∧
          C.hashLedgerInfo w.ledgerInfo = C.hashLedgerInfo vote.ledgerInfo ∧ w.signature = σ) ∧
    (∀ tc, pv.maybePartialTc = some tc → ∃ tc', out.2.maybePartialTc = some tc' ∧ tc'.timeout = tc.timeout ∧
      (∀ a σ, tc.signatures.lookup a = some σ → tc'.signatures.lookup a = some σ) ∧
      (vote.author ∈ tc.signatures → tc' = tc)) ∧
    (∀ tc, pv.maybePartial2chainTc = some tc → ∃ tc', out.2.maybePartial2chainTc = some tc' ∧
      (∀ a x, tc.signatures.lookup a = some x → tc'.signatures.lookup a = some x) ∧
      (vote.author ∈ tc.signatures → tc' = tc)) ∧
    (∀ tc, out.2.maybePartial2chainTc = some tc → tc.highestHqcRound = tc.signedRound) ∧
    (∀ tc, out.1 = .New2ChainTimeoutCertificate tc →
      validatorVerifier.checkVotingPower tc.signers = .ok () ∧ tc.highestHqcRound = tc.signedRound ∧
      (tc.highestHqcRound < tc.round → tc.timeout.quorumCert.verify C validatorVerifier = .ok () →
        (∀ x ∈ tc.signatures.entries, validatorVerifier.verify C.sigOk x.1
          (.timeoutSigningRepr ⟨tc.timeout.epoch, tc.timeout.round, x.2.1⟩) x.2.2 = .ok ()) →
        tc.verify C validatorVerifier = .ok ())) := by
  intro pv out
  obtain ⟨hinv, hrem⟩ := remembers_final C validatorVerifier votes
  have hrem' : Remembers C (votes ++ [vote]) out.2 := hrem.insertVote hinv
  have hinv' : Inv C out.2 := inv_insertVote hinv
  refine ⟨hrem'.recorded, ?_, ?_, fun tc htc => insertVote_tc_kept hinv htc,
    fun tc htc => insertVote_tc2_kept hinv htc, hinv'.hqc, ?_⟩
  · -- the author's stored vote is on the first vote's ledger info, so step 1 answers
    intro w hw hd
    have h1 := hrem.first vote.author
    rw [hw] at h1
    obtain ⟨w₁, hw₁, hd₁⟩ : ∃ w₁, pv.authorToVote.lookup vote.author = some w₁ ∧
        C.hashLedgerInfo w₁.ledgerInfo = C.hashLedgerInfo w.ledgerInfo := by
      cases h : pv.authorToVote.lookup vote.author with
      | none =>
        rw [h] at h1
        cases h1
      | some w₁ =>
        rw [h, Option.map_some, Option.map_some, Option.some.injEq] at h1
        exact ⟨w₁, rfl, h1⟩
    apply insertVote_seen
    rw [hw₁]
    simp only [previouslySeen]
    rw [if_neg (by rw [hd₁]; exact Ne.symm hd)]
  · intro qc hqc
    obtain ⟨-, hpost, rfl, hok⟩ := insertVote_qc hqc
    have hl : out.2.liDigestToVotes.lookup (C.hashLedgerInfo vote.ledgerInfo) = some (liWithSig C pv vote) := by
      rw [hpost, recordVote_liDigestToVotes, AList.lookup_insert]
    exact ⟨hok, hinv'.digest _ _ hl, fun a σ hσ => hrem'.recorded _ _ a σ hl hσ⟩
  · intro tc htc
    obtain ⟨hpost, hok⟩ := insertVote_tc2 htc
    have hh := hinv'.hqc tc hpost
    exact ⟨hok, hh, fun hround hqc hsig => (TwoChainTimeoutCertificate.verify_eq_ok C hround hqc hok hsig).2 hh⟩

end PendingVotes

end Consensus

end Diem
