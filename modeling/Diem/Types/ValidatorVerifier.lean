import Diem.Types.Basic
import Diem.Theory.Quorum
import Diem.Theory.Monads
import Mathlib.Data.List.Sigma

/-!
# Validator verifier

`types/src/validator_verifier.rs`: the validator set of an epoch, a map from
account addresses to public keys and voting powers, with the total voting power
and the quorum threshold `ValidatorVerifier::new` caches. `check_voting_power`
accepts a list of authors when every one is a validator and their voting power
reaches the threshold.

The `BTreeMap` is an `AList`. `sum_voting_power` adds with `u64::checked_add`
and panics past `u64::MAX`, so `new` is `none` there; the threshold
`total_voting_power * 2 / 3 + 1` and the running sum of `check_voting_power` are
plain `u64` arithmetic, which release builds wrap.

For a non-empty map with `2T ≤ u64::MAX` the threshold is `⌊2T/3⌋ + 1` and two
accepted lists of distinct authors share more than a third of the voting power
(**`quorum_intersection`**). For the empty map the threshold is `0` by design
(`new_empty_quorum_zero`), and for `T = 2^63 + 1` the product `T * 2` wraps, so
two disjoint single validators both pass (`new_quorum_wraps`).
-/

namespace Diem

/-- `VerifyError`. -/
inductive VerifyError where
  /-- The author is not a validator. -/
  | UnknownAuthor
  /-- `TooLittleVotingPower { voting_power, quorum_voting_power }`. -/
  | TooLittleVotingPower (votingPower quorumVotingPower : ℕ)
  /-- `TooManySignatures { num_of_signatures, num_of_authors }`. -/
  | TooManySignatures (numOfSignatures numOfAuthors : ℕ)
  /-- The signature does not verify. -/
  | InvalidSignature
  /-- `InconsistentBlockInfo`. -/
  | InconsistentBlockInfo
  deriving DecidableEq, Repr

/-- The `Display` text of a `VerifyError`. -/
def VerifyError.toString : VerifyError → String
  | .UnknownAuthor => "Author is unknown"
  | .TooLittleVotingPower v q =>
    "The voting power (" ++ Nat.repr v ++ ") is less than quorum voting power (" ++ Nat.repr q ++ ")"
  | .TooManySignatures n m =>
    "The number of signatures (" ++ Nat.repr n ++ ") is greater than total number of authors (" ++
      Nat.repr m ++ ")"
  | .InvalidSignature => "Signature is invalid"
  | .InconsistentBlockInfo => "Inconsistent Block Info"

/-- `ValidatorConsensusInfo`. -/
structure ValidatorConsensusInfo where
  /-- The validator's consensus key. -/
  publicKey : Ed25519PublicKey
  /-- Its voting power (`u64`). -/
  votingPower : ℕ
  deriving DecidableEq, Repr

/-- `ValidatorVerifier`. -/
structure ValidatorVerifier where
  /-- `address_to_validator_info`. -/
  addressToValidatorInfo : AList (fun _ : AccountAddress => ValidatorConsensusInfo)
  /-- The minimum voting power of a quorum. -/
  quorumVotingPower : ℕ
  /-- The total voting power, cached. -/
  totalVotingPower : ℕ
  deriving DecidableEq

namespace ValidatorVerifier

/-- `u64::checked_add`. -/
def checkedAdd (a b : ℕ) : Option ℕ := if a + b ≤ U64_MAX then some (a + b) else none

/-- `sum_voting_power`: the sum of the voting powers, `none` where the
`expect` on `checked_add` panics. -/
def sumVotingPower (m : AList (fun _ : AccountAddress => ValidatorConsensusInfo)) : Option ℕ :=
  m.entries.foldl (fun sum x => sum.bind fun s => checkedAdd s x.2.votingPower) (some 0)

/-- `ValidatorVerifier::new`. The threshold is computed in `u64`, where the
product `total_voting_power * 2` wraps modulo `2^64`. -/
def new (m : AList (fun _ : AccountAddress => ValidatorConsensusInfo)) : Option ValidatorVerifier :=
  (sumVotingPower m).map fun total =>
    { addressToValidatorInfo := m
      quorumVotingPower := if m.entries.isEmpty then 0 else total * 2 % 2 ^ 64 / 3 + 1
      totalVotingPower := total }

/-- `get_voting_power`. -/
def getVotingPower (v : ValidatorVerifier) (author : AccountAddress) : Option ℕ :=
  (v.addressToValidatorInfo.lookup author).map (·.votingPower)

/-- `get_public_key`. -/
def getPublicKey (v : ValidatorVerifier) (author : AccountAddress) : Option Ed25519PublicKey :=
  (v.addressToValidatorInfo.lookup author).map (·.publicKey)

/-- `len`: the number of validators. -/
def len (v : ValidatorVerifier) : ℕ := v.addressToValidatorInfo.entries.length

/-- The loop of `check_voting_power`: add the voting power of each author in
`u64`, exiting early on an unknown one. -/
def aggregateVotingPower (v : ValidatorVerifier) (authors : List AccountAddress) (acc : ℕ) :
    Except VerifyError ℕ :=
  authors.foldlM (fun acc a =>
    match v.getVotingPower a with
    | some votingPower => .ok ((acc + votingPower) % 2 ^ 64)
    | none => .error .UnknownAuthor) acc

/-- `check_voting_power`. -/
def checkVotingPower (v : ValidatorVerifier) (authors : List AccountAddress) : Except VerifyError Unit := do
  let aggregated ← v.aggregateVotingPower authors 0
  if aggregated < v.quorumVotingPower then
    throw (.TooLittleVotingPower aggregated v.quorumVotingPower)
  pure ()

/-- `verify`: check one author's signature of a message, with the signature
scheme `sigOk` a parameter. -/
def verify {M : Type} (sigOk : Ed25519PublicKey → M → Ed25519Signature → Bool) (v : ValidatorVerifier)
    (author : AccountAddress) (message : M) (signature : Ed25519Signature) : Except VerifyError Unit :=
  match v.getPublicKey author with
  | some publicKey => if sigOk publicKey message signature then .ok () else .error .InvalidSignature
  | none => .error .UnknownAuthor

/-- `check_num_of_signatures`. -/
def checkNumOfSignatures (v : ValidatorVerifier) (numOfSignatures : ℕ) : Except VerifyError Unit :=
  if numOfSignatures > v.len then .error (.TooManySignatures numOfSignatures v.len) else .ok ()

/-- `verify_aggregated_struct_signature` over the signatures of a
`BTreeMap<AccountAddress, Ed25519Signature>`. -/
def verifyAggregatedStructSignature {M : Type} (sigOk : Ed25519PublicKey → M → Ed25519Signature → Bool)
    (v : ValidatorVerifier) (message : M)
    (aggregatedSignature : AList (fun _ : AccountAddress => Ed25519Signature)) : Except VerifyError Unit := do
  v.checkNumOfSignatures aggregatedSignature.entries.length
  v.checkVotingPower aggregatedSignature.keys
  aggregatedSignature.entries.forM fun x => v.verify sigOk x.1 message x.2

/-- The voting power of a list of authors, unknown ones counting `0`. -/
def power (v : ValidatorVerifier) (authors : List AccountAddress) : ℕ :=
  (authors.map fun a => (v.getVotingPower a).getD 0).sum

/-! ### The loop of `check_voting_power` -/

theorem aggregateVotingPower_nil (v : ValidatorVerifier) (acc : ℕ) :
    v.aggregateVotingPower [] acc = .ok acc := rfl

theorem aggregateVotingPower_cons (v : ValidatorVerifier) (a : AccountAddress)
    (authors : List AccountAddress) (acc : ℕ) :
    v.aggregateVotingPower (a :: authors) acc =
      match v.getVotingPower a with
      | some votingPower => v.aggregateVotingPower authors ((acc + votingPower) % 2 ^ 64)
      | none => .error .UnknownAuthor := by
  simp only [aggregateVotingPower, List.foldlM_cons]
  cases v.getVotingPower a <;> rfl

/-- The loop fails exactly on an unknown author, and otherwise returns the
voting power modulo `2^64`. -/
theorem aggregateVotingPower_eq (v : ValidatorVerifier) (authors : List AccountAddress) {acc : ℕ}
    (hacc : acc < 2 ^ 64) :
    v.aggregateVotingPower authors acc =
      if ∀ a ∈ authors, a ∈ v.addressToValidatorInfo then .ok ((acc + v.power authors) % 2 ^ 64)
      else .error .UnknownAuthor := by
  induction authors generalizing acc with
  | nil => simpa [aggregateVotingPower_nil, power] using (Nat.mod_eq_of_lt hacc).symm
  | cons a authors ih =>
    rw [aggregateVotingPower_cons]
    cases ha : v.getVotingPower a with
    | none =>
      -- an unknown author ends the loop
      have : a ∉ v.addressToValidatorInfo := by
        simpa [getVotingPower, AList.lookup_eq_none] using ha
      simp [this]
    | some votingPower =>
      have hmem : a ∈ v.addressToValidatorInfo := by
        rw [← AList.lookup_isSome]
        simp only [getVotingPower, Option.map_eq_some_iff] at ha
        obtain ⟨x, hx, -⟩ := ha
        simp [hx]
      dsimp only
      rw [ih (Nat.mod_lt _ (Nat.two_pow_pos 64))]
      simp only [List.forall_mem_cons, hmem, true_and, power, List.map_cons, ha, Option.getD_some,
        List.sum_cons]
      split_ifs
      · rw [Nat.mod_add_mod, Nat.add_assoc]
      · rfl

/-- What `check_voting_power` accepts: every author is a validator and their
voting power, summed in `u64`, reaches the threshold. -/
theorem checkVotingPower_eq_ok_iff (v : ValidatorVerifier) (authors : List AccountAddress) :
    v.checkVotingPower authors = .ok () ↔
      (∀ a ∈ authors, a ∈ v.addressToValidatorInfo) ∧ v.quorumVotingPower ≤ v.power authors % 2 ^ 64 := by
  simp only [checkVotingPower, aggregateVotingPower_eq v authors (Nat.two_pow_pos 64), zero_add]
  split_ifs with h
  · simp only [Except.ok_bind]
    split_ifs with hq
    · simp only [Except.throw_eq_error, Except.error_bind, reduceCtorEq, false_iff, not_and, not_le]
      exact fun _ => hq
    · simp only [Except.pure_eq_ok, true_iff]
      exact ⟨h, Nat.le_of_not_lt hq⟩
  · simp [h]

/-- **An accepted aggregate holds a signature the scheme accepts**: against a
positive threshold, `verify_aggregated_struct_signature` succeeds only if
`sigOk` accepts the message under some validator's key. -/
theorem exists_sigOk_of_verifyAggregatedStructSignature {M : Type}
    {sigOk : Ed25519PublicKey → M → Ed25519Signature → Bool} {v : ValidatorVerifier} {message : M}
    {signatures : AList (fun _ : AccountAddress => Ed25519Signature)} (hq : 0 < v.quorumVotingPower)
    (h : v.verifyAggregatedStructSignature sigOk message signatures = .ok ()) :
    ∃ author publicKey signature, v.getPublicKey author = some publicKey ∧
      sigOk publicKey message signature = true := by
  obtain ⟨u, -, h⟩ := Except.bind_eq_ok.1 h
  obtain ⟨u', hpower, hall⟩ := Except.bind_eq_ok.1 h
  cases hs : signatures.entries with
  | nil =>
    -- no signature carries no voting power
    have hkeys : signatures.keys = [] := by simp [AList.keys, hs]
    rw [hkeys, checkVotingPower_eq_ok_iff] at hpower
    simp [power] at hpower
    omega
  | cons x rest =>
    -- the first signature was checked
    rw [hs] at hall
    change (verify sigOk v x.1 message x.2 >>= fun _ => rest.forM _) = _ at hall
    obtain ⟨u'', hx, -⟩ := Except.bind_eq_ok.1 hall
    unfold verify at hx
    cases hk : v.getPublicKey x.1 with
    | none => simp [hk] at hx
    | some publicKey =>
      simp only [hk, ite_eq_left_iff, reduceCtorEq, imp_false, not_not] at hx
      exact ⟨x.1, publicKey, x.2, hk, hx⟩

/-! ### The total voting power -/

/-- The weight an author has in `v`: its voting power, `0` when unknown. -/
def weight (v : ValidatorVerifier) (a : AccountAddress) : ℕ := (v.getVotingPower a).getD 0

theorem power_eq_sum_toFinset (v : ValidatorVerifier) {authors : List AccountAddress} (h : authors.Nodup) :
    v.power authors = ∑ a ∈ authors.toFinset, v.weight a :=
  (List.sum_toFinset _ h).symm

private theorem foldl_checkedAdd_none (l : List (Σ _ : AccountAddress, ValidatorConsensusInfo)) :
    l.foldl (fun sum x => sum.bind fun s => checkedAdd s x.2.votingPower) none = none := by
  induction l with
  | nil => rfl
  | cons x l ih => exact ih

/-- The fold of `sum_voting_power` from a running sum `s`: it panics exactly
when the sum passes `u64::MAX`. -/
theorem foldl_checkedAdd (l : List (Σ _ : AccountAddress, ValidatorConsensusInfo)) {s : ℕ}
    (hs : s ≤ U64_MAX) :
    l.foldl (fun sum x => sum.bind fun s => checkedAdd s x.2.votingPower) (some s) =
      if s + (l.map (·.2.votingPower)).sum ≤ U64_MAX then some (s + (l.map (·.2.votingPower)).sum)
      else none := by
  induction l generalizing s with
  | nil => simp [hs]
  | cons x l ih =>
    rw [List.foldl_cons, Option.bind_some, List.map_cons, List.sum_cons]
    by_cases h₁ : s + x.2.votingPower ≤ U64_MAX
    · rw [show checkedAdd s x.2.votingPower = some (s + x.2.votingPower) from if_pos h₁, ih h₁,
        ← Nat.add_assoc]
    · rw [show checkedAdd s x.2.votingPower = none from if_neg h₁, foldl_checkedAdd_none,
        if_neg (by omega)]

theorem sumVotingPower_eq (m : AList (fun _ : AccountAddress => ValidatorConsensusInfo)) :
    sumVotingPower m =
      if (m.entries.map (·.2.votingPower)).sum ≤ U64_MAX then some (m.entries.map (·.2.votingPower)).sum
      else none := by
  rw [sumVotingPower, foldl_checkedAdd _ (Nat.zero_le _), zero_add]

/-- Summing the weights over the keys is summing over the entries. -/
theorem sum_keys_weight (v : ValidatorVerifier) :
    ∑ a ∈ v.addressToValidatorInfo.keys.toFinset, v.weight a =
      (v.addressToValidatorInfo.entries.map (·.2.votingPower)).sum := by
  rw [List.sum_toFinset _ v.addressToValidatorInfo.keys_nodup, AList.keys, List.keys, List.map_map]
  refine congrArg List.sum (List.map_congr_left fun x hx => ?_)
  have : x.2 ∈ v.addressToValidatorInfo.lookup x.1 := AList.mem_lookup_iff.2 hx
  simp [weight, getVotingPower, Option.mem_def.1 this]

/-- What `new` computes. -/
theorem new_eq_some {m : AList (fun _ : AccountAddress => ValidatorConsensusInfo)} {v : ValidatorVerifier}
    (hv : new m = some v) :
    v.addressToValidatorInfo = m ∧ v.totalVotingPower = (m.entries.map (·.2.votingPower)).sum ∧
      v.totalVotingPower ≤ U64_MAX ∧
      v.quorumVotingPower = if m.entries.isEmpty then 0 else v.totalVotingPower * 2 % 2 ^ 64 / 3 + 1 := by
  rw [new, sumVotingPower_eq] at hv
  by_cases h : (m.entries.map (·.2.votingPower)).sum ≤ U64_MAX
  · rw [if_pos h, Option.map_some, Option.some.injEq] at hv
    subst hv
    exact ⟨rfl, rfl, h, rfl⟩
  · rw [if_neg h] at hv
    simp at hv

/-! ### Quorums -/

theorem toFinset_subset_keys (v : ValidatorVerifier) {authors : List AccountAddress}
    (hk : ∀ a ∈ authors, a ∈ v.addressToValidatorInfo) :
    authors.toFinset ⊆ v.addressToValidatorInfo.keys.toFinset := by
  intro a ha
  rw [List.mem_toFinset] at ha ⊢
  exact AList.mem_keys.1 (hk a ha)

/-- A list of distinct validators has at most the total voting power. -/
theorem power_le_total {m : AList (fun _ : AccountAddress => ValidatorConsensusInfo)} {v : ValidatorVerifier}
    (hv : new m = some v) {authors : List AccountAddress} (h : authors.Nodup)
    (hk : ∀ a ∈ authors, a ∈ v.addressToValidatorInfo) : v.power authors ≤ v.totalVotingPower := by
  obtain ⟨hm, hT, -, -⟩ := new_eq_some hv
  rw [power_eq_sum_toFinset v h, hT, ← hm, ← sum_keys_weight]
  exact Finset.sum_le_sum_of_subset (toFinset_subset_keys v hk)

/-- **Quorum intersection.** For a non-empty validator map whose total voting
power `T` satisfies `2T ≤ u64::MAX`, the threshold is `⌊2T/3⌋ + 1`; the
voting power of a list of distinct authors accepted by `check_voting_power`
is at most `T` (so its running sum never wraps), and two such lists share
more than a third of `T`. -/
theorem quorum_intersection {m : AList (fun _ : AccountAddress => ValidatorConsensusInfo)}
    {v : ValidatorVerifier} {S₁ S₂ : List AccountAddress} (hv : new m = some v) (hne : m.entries ≠ [])
    (hT : 2 * v.totalVotingPower ≤ U64_MAX) (h₁ : S₁.Nodup) (h₂ : S₂.Nodup)
    (hS₁ : v.checkVotingPower S₁ = .ok ()) (hS₂ : v.checkVotingPower S₂ = .ok ()) :
    v.quorumVotingPower = 2 * v.totalVotingPower / 3 + 1 ∧
      v.power S₁ ≤ v.totalVotingPower ∧ v.power S₂ ≤ v.totalVotingPower ∧
      v.totalVotingPower < 3 * v.power (S₁.filter (· ∈ S₂)) := by
  obtain ⟨hm, hTsum, hTmax, hq⟩ := new_eq_some hv
  have hq' : v.quorumVotingPower = 2 * v.totalVotingPower / 3 + 1 := by
    rw [hq, if_neg (by simpa using hne), Nat.mod_eq_of_lt (by unfold U64_MAX at hT; omega), Nat.mul_comm]
  obtain ⟨hk₁, hp₁⟩ := (checkVotingPower_eq_ok_iff v S₁).1 hS₁
  obtain ⟨hk₂, hp₂⟩ := (checkVotingPower_eq_ok_iff v S₂).1 hS₂
  have hle₁ := power_le_total hv h₁ hk₁
  have hle₂ := power_le_total hv h₂ hk₂
  -- both sums are below `2^64`, so the running sums of `check_voting_power` did not wrap
  have hfit : v.totalVotingPower < 2 ^ 64 := by unfold U64_MAX at hTmax; omega
  rw [Nat.mod_eq_of_lt (by omega)] at hp₁ hp₂
  refine ⟨hq', hle₁, hle₂, ?_⟩
  have hinter : (S₁.filter (· ∈ S₂)).toFinset = S₁.toFinset ∩ S₂.toFinset := by
    ext a
    simp
  rw [power_eq_sum_toFinset v (h₁.filter _), hinter]
  rw [power_eq_sum_toFinset v h₁] at hp₁
  rw [power_eq_sum_toFinset v h₂] at hp₂
  exact Quorum.lt_three_mul_sum_inter v.weight (toFinset_subset_keys v hk₁) (toFinset_subset_keys v hk₂)
    (by rw [sum_keys_weight, hm, hTsum]) (by omega) hp₁ hp₂

/-- Four validators of voting power `1`. -/
def fourMap : AList (fun _ : AccountAddress => ValidatorConsensusInfo) :=
  ((((∅ : AList (fun _ : AccountAddress => ValidatorConsensusInfo)).insert ⟨4⟩ ⟨⟨4⟩, 1⟩).insert ⟨3⟩
    ⟨⟨3⟩, 1⟩).insert ⟨2⟩ ⟨⟨2⟩, 1⟩).insert ⟨1⟩ ⟨⟨1⟩, 1⟩

/-- Among four validators of voting power `1` the threshold is `3`, and the
quorums `{1, 2, 3}` and `{2, 3, 4}` share `{2, 3}`. -/
theorem quorum_intersection_fourMap :
    new fourMap = some ⟨fourMap, 3, 4⟩ ∧
      (⟨fourMap, 3, 4⟩ : ValidatorVerifier).checkVotingPower [⟨1⟩, ⟨2⟩, ⟨3⟩] = .ok () ∧
      (⟨fourMap, 3, 4⟩ : ValidatorVerifier).checkVotingPower [⟨2⟩, ⟨3⟩, ⟨4⟩] = .ok () ∧
      4 < 3 * (⟨fourMap, 3, 4⟩ : ValidatorVerifier).power ([⟨1⟩, ⟨2⟩, ⟨3⟩].filter (· ∈ [⟨2⟩, ⟨3⟩, ⟨4⟩])) :=
  ⟨rfl, rfl, rfl, (@quorum_intersection fourMap ⟨fourMap, 3, 4⟩ [⟨1⟩, ⟨2⟩, ⟨3⟩] [⟨2⟩, ⟨3⟩, ⟨4⟩]
    rfl (by decide) (by decide) (by decide) (by decide) rfl rfl).2.2.2⟩

/-- For the empty map the threshold is `0` by design ("set quorum size to
default (`2f + 1`) or zero if `address_to_validator_info` is empty"): the
empty list is a quorum, and two quorums need not share more than a third of
the (zero) total. -/
theorem new_empty_quorum_zero :
    ∃ v, new ∅ = some v ∧ v.quorumVotingPower ≠ 2 * v.totalVotingPower / 3 + 1 ∧
      v.checkVotingPower [] = .ok () ∧ ¬ v.totalVotingPower < 3 * v.power ([].filter (· ∈ [])) :=
  ⟨_, rfl, by decide, rfl, by decide⟩

/-- Two validators with voting powers `2^63` and `1`. -/
def wrapMap : AList (fun _ : AccountAddress => ValidatorConsensusInfo) :=
  ((∅ : AList (fun _ : AccountAddress => ValidatorConsensusInfo)).insert ⟨2⟩ ⟨⟨2⟩, 1⟩).insert ⟨1⟩ ⟨⟨1⟩, 2 ^ 63⟩

/-- At `wrapMap` the total `2^63 + 1` fits in `u64`, but `total_voting_power * 2`
wraps to `2` and the threshold is `1`: each validator alone passes
`check_voting_power`, and the two quorums are disjoint. -/
theorem new_quorum_wraps :
    ∃ v, new wrapMap = some v ∧ v.totalVotingPower ≤ U64_MAX ∧ v.quorumVotingPower = 1 ∧
      v.checkVotingPower [⟨1⟩] = .ok () ∧ v.checkVotingPower [⟨2⟩] = .ok () ∧
      v.power ([⟨1⟩].filter (· ∈ [⟨2⟩])) = 0 :=
  ⟨_, rfl, by decide, rfl, rfl, rfl, rfl⟩

end ValidatorVerifier

end Diem
