import Diem.Consensus.BlockStorage.BlockTree
import Diem.Theory.Monads

/-!
# The highest certificates of the block store over a run

Each request either leaves the five `highest_*` certificates of a `BlockTree` as
they were or replaces one of them after comparing rounds. Four of the
comparisons are against the certificate they replace:

* `insert_quorum_cert` replaces `highest_quorum_cert` with the certificate of a
  block of higher round than the highest certified block, and
  `highest_ordered_cert` with a certificate of higher commit round;
* `update_highest_ledger_info` replaces `highest_ledger_info` with a ledger info
  of higher commit round;
* `insert_2chain_timeout_certificate` replaces `highest_2chain_timeout_cert`
  with a certificate of higher round.

So these four rounds never go down along a run (`certificateRounds_monotone`).
For the quorum certificate this needs what the source gets from ids being
hashes: a block id names one block, so one round (`roundOf`), and the round of
the highest certified block is the round of the highest quorum certificate
(`RoundsOk`).

`insert_timeout_certificate` compares the incoming 3-chain timeout certificate
with the round of `highest_2chain_timeout_cert`, not with `highest_timeout_cert`.
Without a 2-chain certificate every timeout certificate of a positive round
replaces the highest one, whatever its round
(`insertTimeoutCertificate_ignores_highestTimeoutCert`).
-/

namespace Diem

theorem BlockInfo.round_eq_of_matchOrderedOnly {b executed : BlockInfo} (h : b.matchOrderedOnly executed = true) :
    b.round = executed.round := by
  simp only [BlockInfo.matchOrderedOnly, Bool.and_eq_true, beq_iff_eq] at h
  obtain ⟨⟨⟨-, hround⟩, -⟩, -⟩ := h
  exact hround

namespace Consensus

open Mealy

namespace BlockTree

/-- The round of `highest_2chain_timeout_cert`, `map_or(0, round)`. -/
def twoChainTimeoutRound (t : BlockTree) : ℕ := (t.highest2chainTimeoutCert.map (·.round)).getD 0

/-- No certificate round of `t'` is below that of `t`, the 3-chain timeout
certificate apart. -/
structure CertRoundsLe (t t' : BlockTree) : Prop where
  quorumCert : t.highestQuorumCert.certifiedBlock.round ≤ t'.highestQuorumCert.certifiedBlock.round
  orderedCert : t.highestOrderedCert.commitInfo.round ≤ t'.highestOrderedCert.commitInfo.round
  ledgerInfo : t.highestLedgerInfo.commitInfo.round ≤ t'.highestLedgerInfo.commitInfo.round
  twoChainTimeoutCert : t.twoChainTimeoutRound ≤ t'.twoChainTimeoutRound

theorem CertRoundsLe.refl (t : BlockTree) : CertRoundsLe t t := ⟨le_rfl, le_rfl, le_rfl, le_rfl⟩

theorem CertRoundsLe.trans {t t' t'' : BlockTree} (h : CertRoundsLe t t') (h' : CertRoundsLe t' t'') :
    CertRoundsLe t t'' :=
  ⟨h.1.trans h'.1, h.2.trans h'.2, h.3.trans h'.3, h.4.trans h'.4⟩

variable (roundOf : HashValue → ℕ)

/-- Every block is stored under its id, with the round its id names, and the
highest quorum certificate certifies a round its block's id names. -/
structure RoundsOk (t : BlockTree) : Prop where
  getBlock_id : ∀ x b, t.getBlock x = some b → b.id = x
  getBlock_round : ∀ x b, t.getBlock x = some b → b.round = roundOf x
  highestQuorumCert_round : t.highestQuorumCert.certifiedBlock.round = roundOf t.highestCertifiedBlockId

/-- `t'` keeps `RoundsOk` and lowers no certificate round of `t`. -/
def Advances (t t' : BlockTree) : Prop := RoundsOk roundOf t → RoundsOk roundOf t' ∧ CertRoundsLe t t'

theorem Advances.refl (t : BlockTree) : Advances roundOf t t := fun h => ⟨h, CertRoundsLe.refl t⟩

theorem Advances.trans {roundOf : HashValue → ℕ} {t t' t'' : BlockTree} (h : Advances roundOf t t')
    (h' : Advances roundOf t' t'') :
    Advances roundOf t t'' := by
  intro hok
  obtain ⟨hok', hle⟩ := h hok
  obtain ⟨hok'', hle'⟩ := h' hok'
  exact ⟨hok'', hle.trans hle'⟩

/-- A tree that differs from `t` in its roots, its pruning queue or its
quorum-certificate map, and holds a part of `t`'s blocks. -/
theorem advances_of_sub {t t' : BlockTree} (hsub : ∀ x b, t'.getBlock x = some b → t.getBlock x = some b)
    (hqc : t'.highestQuorumCert = t.highestQuorumCert) (hid : t'.highestCertifiedBlockId = t.highestCertifiedBlockId)
    (hordered : t'.highestOrderedCert = t.highestOrderedCert) (hli : t'.highestLedgerInfo = t.highestLedgerInfo)
    (h2 : t'.highest2chainTimeoutCert = t.highest2chainTimeoutCert) : Advances roundOf t t' := by
  intro hok
  refine ⟨⟨fun x b hb => hok.getBlock_id x b (hsub x b hb), fun x b hb => hok.getBlock_round x b (hsub x b hb), ?_⟩, ?_⟩
  · rw [hqc, hid]
    exact hok.highestQuorumCert_round
  · refine ⟨le_of_eq (by rw [hqc]), le_of_eq (by rw [hordered]), le_of_eq (by rw [hli]), le_of_eq ?_⟩
    simp only [twoChainTimeoutRound, h2]

/-! ### Inserting a block -/

variable (t : BlockTree)

theorem insertBlock_eq_ok {block b : ExecutedBlock} {t' : BlockTree} (h : t.insertBlock block = .ok (b, t')) :
    t' = t ∨ ∃ parentBlock, t.getBlock block.id = none ∧ t.getLinkableBlock block.parentId = some parentBlock ∧
      t' = { t with idToBlock := (t.idToBlock.insert block.parentId
        { parentBlock with children := parentBlock.children ++ [block.id] }).insert block.id (LinkableBlock.new block) } := by
  unfold insertBlock at h
  split at h
  · simp only [Except.ok.injEq, Prod.mk.injEq] at h
    exact Or.inl h.2.symm
  · rename_i hnone
    split at h
    · cases h
    · rename_i parentBlock hparent
      unfold LinkableBlock.addChild at h
      split_ifs at h with hchild
      · cases h
      · rw [Except.ok_bind] at h
        dsimp only at h
        split_ifs at h
        simp only [Except.ok.injEq, Prod.mk.injEq] at h
        exact Or.inr ⟨parentBlock, hnone, hparent, h.2.symm⟩

theorem getBlock_insert_child {block : ExecutedBlock} {parentBlock : LinkableBlock}
    (hparent : t.getLinkableBlock block.parentId = some parentBlock) (x : HashValue) :
    BlockTree.getBlock { t with idToBlock := (t.idToBlock.insert block.parentId
        { parentBlock with children := parentBlock.children ++ [block.id] }).insert block.id (LinkableBlock.new block) } x =
      if x = block.id then some block else t.getBlock x := by
  unfold getBlock getLinkableBlock
  split_ifs with hx
  · rw [hx, AList.lookup_insert]
    rfl
  · rw [AList.lookup_insert_ne hx]
    by_cases hp : x = block.parentId
    · rw [hp, AList.lookup_insert]
      unfold getLinkableBlock at hparent
      rw [hparent]
      rfl
    · rw [AList.lookup_insert_ne hp]

theorem insertBlock_advances {block b : ExecutedBlock} {t' : BlockTree} (hround : block.round = roundOf block.id)
    (h : t.insertBlock block = .ok (b, t')) : Advances roundOf t t' := by
  rcases insertBlock_eq_ok t h with heq | ⟨parentBlock, -, hparent, rfl⟩
  · rw [heq]
    exact Advances.refl roundOf t
  · intro hok
    have hget := getBlock_insert_child t hparent
    refine ⟨⟨fun x b' hb => ?_, fun x b' hb => ?_, hok.highestQuorumCert_round⟩, ⟨le_rfl, le_rfl, le_rfl, le_rfl⟩⟩
    · rw [hget] at hb
      split_ifs at hb with hx
      · cases hb
        exact hx.symm
      · exact hok.getBlock_id x b' hb
    · rw [hget] at hb
      split_ifs at hb with hx
      · cases hb
        rw [hx]
        exact hround
      · exact hok.getBlock_round x b' hb

/-! ### Inserting a quorum certificate -/

theorem insertQuorumCert_eq_ok {qc : QuorumCert} {t' : BlockTree} (h : t.insertQuorumCert qc = .ok t') :
    ∃ block highest, t.getBlock qc.certifiedBlock.id = some block ∧ t.highestCertifiedBlock = .ok highest ∧
      let t₁ := if block.round > highest.round then
        { t with highestCertifiedBlockId := block.id, highestQuorumCert := qc } else t
      let t₂ := { t₁ with idToQuorumCert := t₁.idToQuorumCert.orInsert qc.certifiedBlock.id qc }
      t' = if t.highestOrderedCert.commitInfo.round < qc.commitInfo.round then { t₂ with highestOrderedCert := qc }
        else t₂ := by
  unfold insertQuorumCert at h
  dsimp only at h
  split at h
  · cases h
  · rename_i block hblock
    cases hhighest : t.highestCertifiedBlock with
    | error e => rw [hhighest] at h; cases h
    | ok highest =>
      rw [hhighest, Except.ok_bind, Except.ok.injEq] at h
      refine ⟨block, highest, hblock, rfl, ?_⟩
      rw [← h]
      by_cases hgt : block.round > highest.round
      · simp only [hgt, if_true]
      · simp only [hgt, if_false]

theorem insertQuorumCert_advances {qc : QuorumCert} {t' : BlockTree} {block : ExecutedBlock}
    (hblock : t.getBlock qc.certifiedBlock.id = some block) (hround : qc.certifiedBlock.round = block.round)
    (h : t.insertQuorumCert qc = .ok t') : Advances roundOf t t' := by
  obtain ⟨block', highest, hblock', hhighest, rfl⟩ := insertQuorumCert_eq_ok t h
  rw [hblock] at hblock'
  cases hblock'
  intro hok
  have hhighestRound : highest.round = t.highestQuorumCert.certifiedBlock.round := by
    have hget : t.getBlock t.highestCertifiedBlockId = some highest := by
      unfold highestCertifiedBlock at hhighest
      cases hget : t.getBlock t.highestCertifiedBlockId with
      | none => rw [hget] at hhighest; cases hhighest
      | some b => rw [hget] at hhighest; cases hhighest; rfl
    rw [hok.highestQuorumCert_round]
    exact hok.getBlock_round _ _ hget
  have hid : block.id = qc.certifiedBlock.id := hok.getBlock_id _ _ hblock
  have hblockRound : block.round = roundOf qc.certifiedBlock.id := hok.getBlock_round _ _ hblock
  have hcertified : qc.certifiedBlock.round = roundOf block.id := by
    rw [hround, hid]
    exact hblockRound
  -- the highest certified block and the ordered certificate are replaced independently
  dsimp only
  split_ifs with hord hgt hgt
  · exact ⟨⟨hok.getBlock_id, hok.getBlock_round, hcertified⟩, ⟨by dsimp only; omega, by dsimp only; omega, le_rfl, le_rfl⟩⟩
  · exact ⟨⟨hok.getBlock_id, hok.getBlock_round, hok.highestQuorumCert_round⟩, ⟨le_rfl, by dsimp only; omega, le_rfl, le_rfl⟩⟩
  · exact ⟨⟨hok.getBlock_id, hok.getBlock_round, hcertified⟩, ⟨by dsimp only; omega, le_rfl, le_rfl, le_rfl⟩⟩
  · exact ⟨⟨hok.getBlock_id, hok.getBlock_round, hok.highestQuorumCert_round⟩, ⟨le_rfl, le_rfl, le_rfl, le_rfl⟩⟩

/-! ### Roots, the ledger info and pruning -/

theorem updateOrderedRoot_advances {rootId : HashValue} {t' : BlockTree} (h : t.updateOrderedRoot rootId = .ok t') :
    Advances roundOf t t' := by
  unfold updateOrderedRoot at h
  split_ifs at h
  cases h
  exact advances_of_sub roundOf (fun _ _ hb => hb) rfl rfl rfl rfl rfl

theorem updateCommitRoot_advances {rootId : HashValue} {t' : BlockTree} (h : t.updateCommitRoot rootId = .ok t') :
    Advances roundOf t t' := by
  unfold updateCommitRoot at h
  split_ifs at h
  cases h
  exact advances_of_sub roundOf (fun _ _ hb => hb) rfl rfl rfl rfl rfl

theorem updateHighestLedgerInfo_advances {li : LedgerInfoWithSignatures} {t' : BlockTree}
    (h : t.updateHighestLedgerInfo li = .ok t') : Advances roundOf t t' := by
  unfold updateHighestLedgerInfo at h
  split_ifs at h with hgt
  · have hli : Advances roundOf t { t with highestLedgerInfo := li } := fun hok =>
      ⟨⟨hok.getBlock_id, hok.getBlock_round, hok.highestQuorumCert_round⟩, ⟨le_rfl, le_rfl, le_of_lt hgt, le_rfl⟩⟩
    exact hli.trans (updateCommitRoot_advances roundOf _ h)
  · cases h
    exact Advances.refl roundOf t

theorem getBlock_removeBlock {x y : HashValue} {b : ExecutedBlock} (h : (t.removeBlock x).getBlock y = some b) :
    t.getBlock y = some b := by
  unfold removeBlock getBlock getLinkableBlock at h
  unfold getBlock getLinkableBlock
  by_cases hyx : y = x
  · rw [hyx, AList.lookup_erase] at h
    cases h
  · rwa [AList.lookup_erase_ne hyx] at h

theorem removeBlock_advances (x : HashValue) : Advances roundOf t (t.removeBlock x) :=
  advances_of_sub roundOf (fun _ _ hb => getBlock_removeBlock t hb) rfl rfl rfl rfl rfl

theorem foldl_removeBlock_advances : ∀ (ids : List HashValue) (t : BlockTree), Advances roundOf t (ids.foldl removeBlock t)
  | [], t => Advances.refl roundOf t
  | x :: ids, t => (removeBlock_advances roundOf t x).trans (foldl_removeBlock_advances ids _)

theorem processPrunedBlocks_advances (newlyPrunedBlocks : List HashValue) :
    Advances roundOf t (t.processPrunedBlocks newlyPrunedBlocks) :=
  (foldl_removeBlock_advances roundOf _ t).trans
    (advances_of_sub roundOf (fun _ _ hb => hb) rfl rfl rfl rfl rfl)

theorem commitCallback_advances {blocksToCommit : List ExecutedBlock} {commitProof : LedgerInfoWithSignatures}
    {t' : BlockTree} (h : t.commitCallback blocksToCommit commitProof = .ok t') : Advances roundOf t t' := by
  unfold commitCallback at h
  obtain ⟨_, -, h⟩ := Except.bind_eq_ok.1 h
  obtain ⟨_, -, h⟩ := Except.bind_eq_ok.1 h
  obtain ⟨idToRemove, -, h⟩ := Except.bind_eq_ok.1 h
  exact (processPrunedBlocks_advances roundOf t idToRemove).trans (updateHighestLedgerInfo_advances roundOf _ h)

end BlockTree

/-! ### The requests -/

namespace BlockStore

open BlockTree

variable (roundOf : HashValue → ℕ) (t : BlockTree)

theorem commit_advances {finalityProof : LedgerInfoWithSignatures} {committed : Except String Unit}
    {t' : BlockTree} (h : commit t finalityProof committed = .ok t') : Advances roundOf t t' := by
  unfold commit at h
  dsimp only at h
  split at h
  · cases h
  · obtain ⟨_, -, h⟩ := Except.bind_eq_ok.1 h
    split_ifs at h
    obtain ⟨_, -, h⟩ := Except.bind_eq_ok.1 h
    split_ifs at h
    split at h
    · cases h
    · obtain ⟨t₁, h₁, h⟩ := Except.bind_eq_ok.1 h
      exact (commitCallback_advances roundOf t h₁).trans (updateOrderedRoot_advances roundOf t₁ h)

theorem executeAndInsertBlock_advances {block : Block} {execution : Except String StateComputeResult}
    {saved : Except String Unit} {b : ExecutedBlock} {t' : BlockTree} (hround : block.round = roundOf block.id)
    (h : executeAndInsertBlock t block execution saved = .ok (b, t')) : Advances roundOf t t' := by
  unfold executeAndInsertBlock at h
  split at h
  · cases h
    exact Advances.refl roundOf t
  · obtain ⟨_, -, h⟩ := Except.bind_eq_ok.1 h
    split_ifs at h
    split at h
    · cases h
    · split at h
      · cases h
      · refine insertBlock_advances roundOf t ?_ h
        exact hround

theorem insertSingleQuorumCert_advances {qc : QuorumCert} {saved : Except String Unit} {t' : BlockTree}
    (h : insertSingleQuorumCert t qc saved = .ok t') : Advances roundOf t t' := by
  unfold insertSingleQuorumCert at h
  split at h
  · cases h
  · rename_i executedBlock hblock
    split_ifs at h with hmatch
    split at h
    · cases h
    · exact insertQuorumCert_advances roundOf t hblock (BlockInfo.round_eq_of_matchOrderedOnly hmatch).symm h

theorem insertTimeoutCertificate_advances {tc : TimeoutCertificate} {saved : Except String Unit} {t' : BlockTree}
    (h : insertTimeoutCertificate t tc saved = .ok t') : Advances roundOf t t' := by
  unfold insertTimeoutCertificate at h
  dsimp only at h
  split_ifs at h
  · cases h
    exact Advances.refl roundOf t
  · split at h
    · cases h
    · cases h
      exact advances_of_sub roundOf (fun _ _ hb => hb) rfl rfl rfl rfl rfl

theorem insert2chainTimeoutCertificate_advances {tc : TwoChainTimeoutCertificate} {saved : Except String Unit}
    {t' : BlockTree} (h : insert2chainTimeoutCertificate t tc saved = .ok t') : Advances roundOf t t' := by
  unfold insert2chainTimeoutCertificate at h
  dsimp only at h
  split_ifs at h with hle
  · cases h
    exact Advances.refl roundOf t
  · split at h
    · cases h
    · cases h
      intro hok
      have hround : t.twoChainTimeoutRound ≤ tc.round := by
        unfold twoChainTimeoutRound
        omega
      exact ⟨⟨hok.getBlock_id, hok.getBlock_round, hok.highestQuorumCert_round⟩, ⟨le_rfl, le_rfl, le_rfl, hround⟩⟩

/-- The requests whose block has the round its id names: ids are hashes of
the block data, so a block id names one block. -/
def RequestOk : Request → Prop
  | .executeAndInsertBlock block _ _ => block.round = roundOf block.id
  | _ => True

theorem apply_advances {r : Request} {t' : BlockTree} (hr : RequestOk roundOf r) (h : apply t r = .ok t') :
    Advances roundOf t t' := by
  cases r with
  | executeAndInsertBlock block execution saved =>
    cases hinsert : executeAndInsertBlock t block execution saved with
    | error e => simp only [apply, hinsert, Except.map] at h; cases h
    | ok p =>
      simp only [apply, hinsert, Except.map, Except.ok.injEq] at h
      rw [← h]
      exact executeAndInsertBlock_advances roundOf t hr hinsert
  | insertSingleQuorumCert qc saved => exact insertSingleQuorumCert_advances roundOf t h
  | insertTimeoutCertificate tc saved => exact insertTimeoutCertificate_advances roundOf t h
  | insert2chainTimeoutCertificate tc saved => exact insert2chainTimeoutCertificate_advances roundOf t h
  | commit finalityProof committed => exact commit_advances roundOf t h

theorem step_advances {r : Request} (hr : RequestOk roundOf r) : Advances roundOf t (step t r).2 := by
  unfold step
  cases h : apply t r with
  | error e => exact Advances.refl roundOf t
  | ok t' => exact apply_advances roundOf t hr h

/-- **The four certificates never go down.** Along every run of requests whose
blocks have the rounds their ids name, from a tree where `RoundsOk` holds, the
rounds of `highest_quorum_cert`, `highest_ordered_cert`, `highest_ledger_info`
and `highest_2chain_timeout_cert` after each request are at least those of the
start and at most those after every later request. -/
theorem certificateRounds_monotone {t : BlockTree} (ht : RoundsOk roundOf t) {rs : List Request}
    (hrs : ∀ r ∈ rs, RequestOk roundOf r) :
    (∀ tr ∈ Mealy.trace step t rs, CertRoundsLe t tr.post) ∧
      (Mealy.trace step t rs).Pairwise (fun a b => CertRoundsLe a.post b.post) := by
  have hstep : ∀ s r, RequestOk roundOf r → RoundsOk roundOf s → RoundsOk roundOf (step s r).2 :=
    fun s r hr hs => (step_advances roundOf s hr hs).1
  have hle : ∀ s r, RequestOk roundOf r → RoundsOk roundOf s → CertRoundsLe s (step s r).2 :=
    fun s r hr hs => (step_advances roundOf s hr hs).2
  exact ⟨Mealy.rel_post_of_mem_trace (r := CertRoundsLe) step (fun _ _ _ => CertRoundsLe.trans) hstep hle ht hrs,
    Mealy.pairwise_trace_of_trans_of_forall (r := CertRoundsLe) step (fun _ _ _ => CertRoundsLe.trans) hstep hle ht hrs⟩

/-! ### The 3-chain timeout certificate -/

/-- **`insert_timeout_certificate` compares with the wrong certificate.** With
no 2-chain timeout certificate, a persisted timeout certificate of any positive
round becomes the highest timeout certificate, whatever the round of the one it
replaces. -/
theorem insertTimeoutCertificate_ignores_highestTimeoutCert {t : BlockTree} {tc : TimeoutCertificate}
    (h2 : t.highest2chainTimeoutCert = none) (hpos : 0 < tc.round) :
    (step t (.insertTimeoutCertificate tc (.ok ()))).2.highestTimeoutCert = some tc := by
  have happly : apply t (.insertTimeoutCertificate tc (.ok ())) = .ok (t.replaceTimeoutCert tc) := by
    simp only [apply, insertTimeoutCertificate, h2, Option.map_none, Option.getD_none]
    rw [if_neg (by omega)]
  simp only [step, happly]
  rfl

/-- The certificate of the genesis block: the empty block info, certifying itself. -/
def genesisQuorumCert : QuorumCert := ⟨⟨BlockInfo.empty, BlockInfo.empty⟩, ⟨⟨BlockInfo.empty, HashValue.zero⟩, ∅⟩⟩

/-- The genesis block, executed to the empty state. -/
def genesisBlock : ExecutedBlock :=
  ⟨⟨HashValue.zero, ⟨0, 0, 0, genesisQuorumCert, .Genesis⟩, none⟩, ⟨HashValue.zero, 0, none⟩⟩

/-- The tree `BlockTree::new` builds on the genesis block, with no timeout
certificates. -/
def genesisTree : BlockTree where
  idToBlock := (∅ : AList _).insert genesisBlock.id (LinkableBlock.new genesisBlock)
  orderedRootId := genesisBlock.id
  commitRootId := genesisBlock.id
  highestCertifiedBlockId := genesisBlock.id
  highestQuorumCert := genesisQuorumCert
  highestTimeoutCert := none
  highest2chainTimeoutCert := none
  highestOrderedCert := genesisQuorumCert
  highestLedgerInfo := genesisQuorumCert.signedLedgerInfo
  idToQuorumCert := (∅ : AList _).insert genesisQuorumCert.certifiedBlock.id genesisQuorumCert
  prunedBlockIds := []
  maxPrunedBlocksInMem := 10

example : BlockTree.new genesisBlock genesisQuorumCert genesisQuorumCert genesisQuorumCert.signedLedgerInfo 10
    none none = .ok genesisTree := rfl

/-- From the genesis tree, a timeout certificate of round 10 and then one of
round 5 are both inserted: the highest timeout certificate goes from round 10
to round 5. -/
theorem insertTimeoutCertificate_roundTenThenFive :
    (step genesisTree (.insertTimeoutCertificate ⟨⟨0, 10⟩, ∅⟩ (.ok ()))).2.highestTimeoutCert = some ⟨⟨0, 10⟩, ∅⟩ ∧
      (step (step genesisTree (.insertTimeoutCertificate ⟨⟨0, 10⟩, ∅⟩ (.ok ()))).2
        (.insertTimeoutCertificate ⟨⟨0, 5⟩, ∅⟩ (.ok ()))).2.highestTimeoutCert = some ⟨⟨0, 5⟩, ∅⟩ :=
  ⟨insertTimeoutCertificate_ignores_highestTimeoutCert rfl (by decide),
    insertTimeoutCertificate_ignores_highestTimeoutCert rfl (by decide)⟩

end BlockStore

end Consensus

end Diem
