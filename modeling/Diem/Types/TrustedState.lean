import Diem.Types.Chain
import Mathlib.Data.List.TakeWhile
import Mathlib.Data.Nat.Pairing

/-!
# The trusted state of a light client

`types/src/trusted_state.rs`: a light client trusts either a waypoint (the
version and hash of one epoch-ending ledger info) or an epoch state with the
accumulator summary at a trusted version. A state proof ratchets it forward: an
epoch change proof into the latest epoch, the latest ledger info, and a
consistency proof from the trusted accumulator to the new one.

`verifyAndRatchetInner` is the Rust function with its three outcomes; its inner
blocks that compute a value are `currAccumulator` and `verifiedLedgerInfo`. The
accumulator hashes, the signature scheme `sigOk` and the waypoint hash are
parameters, and the `expect` on a missing initial accumulator is an error.

The ledger a client follows is a `Chain`: the leaves of its transaction
accumulator, the ledger infos its validators signed, and the validator set of
each epoch. Hashes do not collide with the chain's, and only the validators of
an epoch sign its ledger infos. The epoch changes a trusted verifier accepts are
the chain's (`verifyChain_committed`), and an accumulator that matches a
committed ledger info is the chain's (`genuineSummary_of_wellFormed`). So
**`verifyAndRatchet_sound`**: every state a genuine trusted state ratchets to is
genuine, not older and not in an earlier epoch.
-/

namespace Diem

/-- `TrustedState`. -/
inductive TrustedState where
  /-- `EpochWaypoint`: a waypoint, committing to an epoch-change ledger info. -/
  | epochWaypoint (waypoint : Waypoint)
  /-- `EpochState`: a trusted version and accumulator inside a verified epoch. -/
  | epochState (waypoint : Waypoint) (epochState : EpochState) (accumulator : TransactionAccumulatorSummary)

/-- `TrustedStateChange`. -/
inductive TrustedStateChange where
  /-- `Version`: a newer version in the same epoch. -/
  | version (newState : TrustedState)
  /-- `Epoch`: a newer version after at least one epoch change. -/
  | epoch (newState : TrustedState) (latestEpochChangeLi : LedgerInfoWithSignatures)
  /-- `NoChange`: the latest ledger info is the trusted one. -/
  | noChange

/-- `TrustedStateChange::new_state`. -/
def TrustedStateChange.newState : TrustedStateChange → Option TrustedState
  | .version newState => some newState
  | .epoch newState _ => some newState
  | .noChange => none

namespace TrustedState

/-- `waypoint`. -/
def waypoint : TrustedState → Waypoint
  | epochWaypoint waypoint => waypoint
  | epochState waypoint _ _ => waypoint

/-- `version`. -/
def version (t : TrustedState) : ℕ := t.waypoint.version

/-- `impl Verifier for TrustedState`: the waypoint's or the epoch state's. -/
def verifier : TrustedState → Verifier
  | epochWaypoint waypoint => .waypoint waypoint
  | epochState _ e _ => .epochState e

variable (node : HashValue → HashValue → HashValue) (placeholder : HashValue)
  (sigOk : Ed25519PublicKey → LedgerInfo → Ed25519Signature → Bool) (waypointHash : LedgerInfo → HashValue)

/-- The accumulator `verify_and_ratchet_inner` extends. From a waypoint it is
the untrusted initial accumulator, checked only against the first ledger info
of the epoch change proof. -/
def currAccumulator (t : TrustedState) (epochChangeProof : EpochChangeProof)
    (initialAccumulator : Option TransactionAccumulatorSummary) : Except String TransactionAccumulatorSummary :=
  match t with
  | epochWaypoint _ =>
    match initialAccumulator with
    | none => .error "Client must provide an initial untrusted accumulator when verifying from a waypoint"
    | some currAccumulator =>
      match epochChangeProof.ledgerInfoWithSigs.head? with
      | none => .error "Empty epoch change proof"
      | some waypointLi => do
        currAccumulator.verifyConsistency waypointLi.ledgerInfo
        pure currAccumulator
  | epochState _ _ accumulator => .ok accumulator

/-- The ledger info `verify_and_ratchet_inner` moves to after an epoch change:
the latest one when it is the epoch change or lies in the new epoch, and the
epoch change itself when the latest is further ahead and the server has more
epoch changes. -/
def verifiedLedgerInfo (latestLi epochChangeLi : LedgerInfoWithSignatures) (newEpochState : EpochState)
    (more : Bool) : Except String LedgerInfoWithSignatures :=
  if epochChangeLi = latestLi then .ok latestLi
  else if latestLi.ledgerInfo.epoch = newEpochState.epoch then do
    (Verifier.epochState newEpochState).verify sigOk waypointHash latestLi
    pure latestLi
  else if latestLi.ledgerInfo.epoch > newEpochState.epoch ∧ more then .ok epochChangeLi
  else .error "Inconsistent epoch change proof and latest ledger info"

/-- `verify_and_ratchet_inner`. -/
def verifyAndRatchetInner (t : TrustedState) (latestLi : LedgerInfoWithSignatures)
    (epochChangeProof : EpochChangeProof) (consistencyProof : AccumulatorConsistencyProof)
    (initialAccumulator : Option TransactionAccumulatorSummary) : Except String TrustedStateChange :=
  if latestLi.ledgerInfo.version < t.version then
    .error "The target latest ledger info version is stale and behind our current trusted version"
  else do
    let currAccumulator ← currAccumulator t epochChangeProof initialAccumulator
    if t.verifier.epochChangeVerificationRequired latestLi.ledgerInfo.nextBlockEpoch then
      let epochChangeLi ← epochChangeProof.verify sigOk waypointHash t.verifier
      let newEpochState ← (match epochChangeLi.ledgerInfo.nextEpochState with
        | some e => pure e
        | none => throw "A valid EpochChangeProof will never return a non-epoch change ledger info" :
          Except String EpochState)
      let verifiedLedgerInfo ←
        verifiedLedgerInfo sigOk waypointHash latestLi epochChangeLi newEpochState epochChangeProof.more
      let newWaypoint := Waypoint.newAny waypointHash verifiedLedgerInfo.ledgerInfo
      let newAccumulator ←
        currAccumulator.tryExtendWithProof node placeholder consistencyProof verifiedLedgerInfo.ledgerInfo
      pure (.epoch (epochState newWaypoint newEpochState newAccumulator) epochChangeLi)
    else
      match t with
      | epochWaypoint _ => throw "EpochWaypoint can only verify an epoch change ledger info"
      | epochState currWaypoint currEpochState _ =>
        let newWaypoint := Waypoint.newAny waypointHash latestLi.ledgerInfo
        if newWaypoint.version = currWaypoint.version then
          if newWaypoint = currWaypoint then pure .noChange
          else throw "LedgerInfo doesn't match verified state"
        else do
          (Verifier.epochState currEpochState).verify sigOk waypointHash latestLi
          let newAccumulator ←
            currAccumulator.tryExtendWithProof node placeholder consistencyProof latestLi.ledgerInfo
          pure (.version (epochState newWaypoint currEpochState newAccumulator))

variable {node placeholder sigOk waypointHash}

@[simp] theorem currAccumulator_epochState {waypoint : Waypoint} {e : EpochState}
    {accumulator : TransactionAccumulatorSummary} {epochChangeProof : EpochChangeProof}
    {initialAccumulator : Option TransactionAccumulatorSummary} :
    currAccumulator (epochState waypoint e accumulator) epochChangeProof initialAccumulator = .ok accumulator := rfl

theorem verifiedLedgerInfo_eq_ok {latestLi epochChangeLi li : LedgerInfoWithSignatures} {newEpochState : EpochState}
    {more : Bool} (h : verifiedLedgerInfo sigOk waypointHash latestLi epochChangeLi newEpochState more = .ok li) :
    li = latestLi ∧ (epochChangeLi = latestLi ∨ latestLi.ledgerInfo.epoch = newEpochState.epoch ∧
        (Verifier.epochState newEpochState).verify sigOk waypointHash latestLi = .ok ()) ∨
      li = epochChangeLi ∧ newEpochState.epoch < latestLi.ledgerInfo.epoch ∧ more = true := by
  unfold verifiedLedgerInfo at h
  split_ifs at h with heq hepoch hmore
  · cases h
    exact .inl ⟨rfl, .inl heq⟩
  · obtain ⟨u, hv, h⟩ := Except.bind_eq_ok.1 h
    cases h
    exact .inl ⟨rfl, .inr ⟨hepoch, hv⟩⟩
  · cases h
    exact .inr ⟨rfl, hmore⟩

/-- **What `verify_and_ratchet_inner` can do.** A successful call passed the
staleness check and found its accumulator, and then took one of three ways:
an epoch change into the epoch state the last epoch change carries, a newer
version inside the trusted epoch, or no change. -/
theorem verifyAndRatchetInner_cases {t : TrustedState} {latestLi : LedgerInfoWithSignatures}
    {epochChangeProof : EpochChangeProof} {consistencyProof : AccumulatorConsistencyProof}
    {initialAccumulator : Option TransactionAccumulatorSummary} {change : TrustedStateChange}
    (h : t.verifyAndRatchetInner node placeholder sigOk waypointHash latestLi epochChangeProof consistencyProof
      initialAccumulator = .ok change) :
    t.version ≤ latestLi.ledgerInfo.version ∧
      ∃ acc, currAccumulator t epochChangeProof initialAccumulator = .ok acc ∧
        ((∃ epochChangeLi newEpochState li newAccumulator,
          epochChangeProof.verify sigOk waypointHash t.verifier = .ok epochChangeLi ∧
          epochChangeLi.ledgerInfo.nextEpochState = some newEpochState ∧
          verifiedLedgerInfo sigOk waypointHash latestLi epochChangeLi newEpochState epochChangeProof.more = .ok li ∧
          acc.tryExtendWithProof node placeholder consistencyProof li.ledgerInfo = .ok newAccumulator ∧
          change = .epoch (epochState (Waypoint.newAny waypointHash li.ledgerInfo) newEpochState newAccumulator)
            epochChangeLi) ∨
        ∃ waypoint e accumulator, t = epochState waypoint e accumulator ∧
          (Waypoint.newAny waypointHash latestLi.ledgerInfo = waypoint ∧ change = .noChange ∨
            (Verifier.epochState e).verify sigOk waypointHash latestLi = .ok () ∧
              ∃ newAccumulator, acc.tryExtendWithProof node placeholder consistencyProof latestLi.ledgerInfo =
                .ok newAccumulator ∧
                change = .version (epochState (Waypoint.newAny waypointHash latestLi.ledgerInfo) e newAccumulator))) := by
  unfold verifyAndRatchetInner at h
  split at h
  · cases h
  rename_i hstale
  refine ⟨Nat.le_of_not_lt hstale, ?_⟩
  obtain ⟨acc, hacc, h⟩ := Except.bind_eq_ok.1 h
  refine ⟨acc, hacc, ?_⟩
  split at h
  · -- the epoch change branch
    obtain ⟨epochChangeLi, hproof, h⟩ := Except.bind_eq_ok.1 h
    obtain ⟨newEpochState, hnext, h⟩ := Except.bind_eq_ok.1 h
    obtain ⟨li, hli, h⟩ := Except.bind_eq_ok.1 h
    obtain ⟨newAccumulator, hext, h⟩ := Except.bind_eq_ok.1 h
    cases h
    have hes : epochChangeLi.ledgerInfo.nextEpochState = some newEpochState := by
      split at hnext
      · cases hnext
        assumption
      · cases hnext
    exact .inl ⟨epochChangeLi, newEpochState, li, newAccumulator, hproof, hes, hli, hext, rfl⟩
  · -- the same epoch: only an epoch state gets here
    right
    cases t with
    | epochWaypoint waypoint => cases h
    | epochState waypoint e accumulator =>
      refine ⟨waypoint, e, accumulator, rfl, ?_⟩
      simp only at h
      split_ifs at h with hversion hsame
      · cases h
        exact .inl ⟨hsame, rfl⟩
      · obtain ⟨u, hv, h⟩ := Except.bind_eq_ok.1 h
        obtain ⟨newAccumulator, hext, h⟩ := Except.bind_eq_ok.1 h
        cases h
        exact .inr ⟨hv, newAccumulator, hext, rfl⟩

end TrustedState

/-! ## Soundness against the chain -/

variable {node : HashValue → HashValue → HashValue} {placeholder : HashValue}

/-- A verifier a client may trust: a waypoint at a genuine ledger info, or the
chain's validator set of its epoch. -/
def Verifier.Trusted (ch : Chain node placeholder) (waypointHash : LedgerInfo → HashValue) : Verifier → Prop
  | .waypoint w => ∃ g, ch.Genuine g ∧ Waypoint.newAny waypointHash g = w
  | .epochState e => e = ch.epochState e.epoch

namespace TrustedState

/-- A genuine trusted state: its waypoint pins a genuine ledger info, and an
epoch state is the chain's validator set of its epoch, with the chain's
accumulator at the waypoint's version. -/
def Genuine (ch : Chain node placeholder) (waypointHash : LedgerInfo → HashValue) : TrustedState → Prop
  | epochWaypoint w => ∃ g, ch.Genuine g ∧ Waypoint.newAny waypointHash g = w
  | epochState w e accumulator => (∃ g, ch.Genuine g ∧ Waypoint.newAny waypointHash g = w) ∧
      e = ch.epochState e.epoch ∧ ch.GenuineSummary w.version accumulator

/-- The epoch a trusted state vouches for the validators of: its epoch state's,
or, for a waypoint, the epoch the ledger info it pins leads into. -/
def TrustsEpoch (ch : Chain node placeholder) (waypointHash : LedgerInfo → HashValue) : TrustedState → ℕ → Prop
  | epochWaypoint w, epoch => ∃ g, ch.Genuine g ∧ Waypoint.newAny waypointHash g = w ∧ epoch = g.nextBlockEpoch
  | epochState _ e _, epoch => epoch = e.epoch

theorem Genuine.trusted {ch : Chain node placeholder} {waypointHash : LedgerInfo → HashValue} {t : TrustedState}
    (h : t.Genuine ch waypointHash) : t.verifier.Trusted ch waypointHash := by
  cases t with
  | epochWaypoint w => exact h
  | epochState w e accumulator => exact h.2.1

end TrustedState

section Sound

/-! The chain `ch`, hashed with a collision-free converter hash and accumulator
node hash, and signed only by its own validators. -/

variable {ch : Chain node placeholder} {hash : Ledger2WaypointConverter → HashValue}
  {sigOk : Ed25519PublicKey → LedgerInfo → Ed25519Signature → Bool}
  (hhash : ∀ c g, ch.Genuine g → hash c = hash (Ledger2WaypointConverter.new g) → c = Ledger2WaypointConverter.new g)
  (hsig : ∀ e (li : LedgerInfoWithSignatures), li.ledgerInfo.epoch = e →
    li.verifySignatures sigOk (ch.epochState e).verifier = .ok () → ch.Genuine li.ledgerInfo)

include hhash hsig in
/-- A trusted verifier only accepts ledger infos the chain committed. -/
theorem Verifier.committed_of_verify {v : Verifier} {li : LedgerInfoWithSignatures}
    (hv : v.Trusted ch (Ledger2WaypointConverter.hashOf hash))
    (h : v.verify sigOk (Ledger2WaypointConverter.hashOf hash) li = .ok ()) : ch.Committed li.ledgerInfo := by
  cases v with
  | waypoint w =>
    obtain ⟨g, hg, rfl⟩ := hv
    obtain ⟨-, hvalue⟩ := Waypoint.verify_eq_ok.1 h
    exact ⟨g, hg, (hhash _ g hg hvalue).symm⟩
  | epochState e =>
    obtain ⟨hepoch, hsigs⟩ := Verifier.verify_epochState_eq_ok.1 h
    have hsigs' : li.verifySignatures sigOk (ch.epochState li.ledgerInfo.epoch).verifier = .ok () := by
      rw [← hepoch, ← hv]
      exact hsigs
    exact (hsig _ li rfl hsigs').committed

/-- The validator set a committed ledger info hands over is trusted, and of the
next epoch. -/
theorem Verifier.trusted_of_committed {waypointHash : LedgerInfo → HashValue} {li : LedgerInfo} {e : EpochState}
    (h : ch.Committed li) (he : li.nextEpochState = some e) :
    (Verifier.epochState e).Trusted ch waypointHash ∧ e.epoch = li.epoch + 1 := by
  have heq := h.nextEpochState_eq he
  have hepoch : e.epoch = li.epoch + 1 := by rw [heq, ch.epoch_epochState]
  refine ⟨?_, hepoch⟩
  show e = ch.epochState e.epoch
  rw [hepoch]
  exact heq

include hhash hsig in
/-- **A verified chain of epoch changes is the chain's**: every ledger info a
trusted verifier accepts in a row is committed and hands over a validator
set, and their epochs follow one another. -/
theorem verifyChain_committed : ∀ {v : Verifier} {l : List LedgerInfoWithSignatures},
    v.Trusted ch (Ledger2WaypointConverter.hashOf hash) →
    Verifier.verifyChain sigOk (Ledger2WaypointConverter.hashOf hash) v l = .ok () →
      (∀ p ∈ l, ch.Committed p.ledgerInfo ∧ p.ledgerInfo.nextEpochState.isSome) ∧
        l.IsChain (fun a b => b.ledgerInfo.epoch = a.ledgerInfo.epoch + 1) := by
  intro v l
  induction l generalizing v with
  | nil =>
    intro _ _
    exact ⟨by simp, .nil⟩
  | cons p rest ih =>
    intro hv h
    obtain ⟨hp, e, he, hrest⟩ := Verifier.verifyChain_cons_eq_ok.1 h
    have hcommitted := Verifier.committed_of_verify hhash hsig hv hp
    obtain ⟨htrusted, hepoch⟩ := Verifier.trusted_of_committed hcommitted he
    obtain ⟨hall, hchain⟩ := ih htrusted hrest
    refine ⟨?_, ?_⟩
    · intro q hq
      rcases List.mem_cons.1 hq with rfl | hq
      · exact ⟨hcommitted, by simp [he]⟩
      · exact hall q hq
    · cases rest with
      | nil => exact .singleton p
      | cons q rest =>
        obtain ⟨hq, -⟩ := Verifier.verifyChain_cons_eq_ok.1 hrest
        obtain ⟨hqepoch, -⟩ := Verifier.verify_epochState_eq_ok.1 hq
        refine List.IsChain.cons_cons ?_ hchain
        omega

/-- The last element of a list is kept when the prefix dropped stops before it. -/
theorem getLast?_dropWhile {α : Type*} {P : α → Bool} {l : List α} {x : α} (h : l.getLast? = some x)
    (hx : P x = false) : (l.dropWhile P).getLast? = some x := by
  have hne : l.dropWhile P ≠ [] := by
    rw [ne_eq, List.dropWhile_eq_nil_iff]
    intro hall
    simp [hall x (List.mem_of_getLast? h)] at hx
  obtain ⟨t, ht⟩ := List.dropWhile_suffix P (l := l)
  rw [← ht, List.getLast?_append_of_ne_nil _ hne] at h
  exact h

include hhash hsig in
/-- **An accepted epoch change proof**, from a trusted verifier: the proof
returns its last ledger info, which is not stale; the ledger infos from the
first one that is not stale on start with one the verifier itself accepts,
are all committed by the chain and hand over validator sets, and their
epochs follow one another. -/
theorem EpochChangeProof.verify_committed {p : EpochChangeProof} {v : Verifier} {li : LedgerInfoWithSignatures}
    (hv : v.Trusted ch (Ledger2WaypointConverter.hashOf hash))
    (h : p.verify sigOk (Ledger2WaypointConverter.hashOf hash) v = .ok li) :
    p.ledgerInfoWithSigs.getLast? = some li ∧ v.isLedgerInfoStale li.ledgerInfo = false ∧
      ∃ first rest, p.ledgerInfoWithSigs.dropWhile (fun q => v.isLedgerInfoStale q.ledgerInfo) = first :: rest ∧
        v.verify sigOk (Ledger2WaypointConverter.hashOf hash) first = .ok () ∧ (first :: rest).getLast? = some li ∧
        (∀ q ∈ first :: rest, ch.Committed q.ledgerInfo ∧ q.ledgerInfo.nextEpochState.isSome) ∧
        (first :: rest).IsChain (fun a b => b.ledgerInfo.epoch = a.ledgerInfo.epoch + 1) := by
  obtain ⟨hlast, hfresh, hchain⟩ := EpochChangeProof.verify_eq_ok.1 h
  have hsuffix := getLast?_dropWhile (P := fun q => v.isLedgerInfoStale q.ledgerInfo) hlast hfresh
  refine ⟨hlast, hfresh, ?_⟩
  cases hd : p.ledgerInfoWithSigs.dropWhile (fun q => v.isLedgerInfoStale q.ledgerInfo) with
  | nil => simp [hd] at hsuffix
  | cons first rest =>
    rw [hd] at hchain hsuffix
    obtain ⟨hfirst, -⟩ := Verifier.verifyChain_cons_eq_ok.1 hchain
    exact ⟨first, rest, rfl, hfirst, hsuffix, verifyChain_committed hhash hsig hv hchain⟩

include hhash hsig in
/-- The last ledger info of an accepted proof is committed by the chain. -/
theorem EpochChangeProof.committed_of_verify {p : EpochChangeProof} {v : Verifier} {li : LedgerInfoWithSignatures}
    (hv : v.Trusted ch (Ledger2WaypointConverter.hashOf hash))
    (h : p.verify sigOk (Ledger2WaypointConverter.hashOf hash) v = .ok li) : ch.Committed li.ledgerInfo := by
  obtain ⟨-, -, first, rest, -, -, hlast, hall, -⟩ := EpochChangeProof.verify_committed hhash hsig hv h
  exact (hall li (List.mem_of_getLast? hlast)).1

omit hhash hsig

/-- A committed ledger info has the waypoint of its genuine one. -/
theorem newAny_of_committed {li : LedgerInfo} (h : ch.Committed li) :
    ∃ g, ch.Genuine g ∧ Waypoint.newAny (Ledger2WaypointConverter.hashOf hash) g =
      Waypoint.newAny (Ledger2WaypointConverter.hashOf hash) li := by
  obtain ⟨g, hg, hconv⟩ := h
  refine ⟨g, hg, ?_⟩
  have hversion : g.version = li.version := congrArg Ledger2WaypointConverter.version hconv
  simp only [Waypoint.newAny, Ledger2WaypointConverter.hashOf, hconv, hversion]

/-- The state an extension to a committed ledger info moves to is genuine,
whatever accumulator it started from. -/
theorem genuine_of_tryExtend (hnode : ∀ a b c d, node a b = node c d → a = c ∧ b = d)
    (hleaf : ∀ i, ch.leaf i ≠ placeholder) {li : LedgerInfo} {e : EpochState}
    {acc newAccumulator : TransactionAccumulatorSummary} {consistencyProof : AccumulatorConsistencyProof}
    (hli : ch.Committed li) (he : e = ch.epochState e.epoch)
    (hext : acc.tryExtendWithProof node placeholder consistencyProof li = .ok newAccumulator) :
    (TrustedState.epochState (Waypoint.newAny (Ledger2WaypointConverter.hashOf hash) li) e newAccumulator).Genuine
      ch (Ledger2WaypointConverter.hashOf hash) := by
  obtain ⟨hwf, hversion, hroot, -⟩ := TransactionAccumulatorSummary.tryExtendWithProof_eq_ok hext
  exact ⟨newAny_of_committed hli, he, ch.genuineSummary_of_wellFormed hnode hleaf hli hwf hversion hroot⟩

/-- The epochs a genuine trusted state vouches for are at most one past any
committed ledger info its verifier does not find stale. -/
theorem TrustedState.trustsEpoch_le {t : TrustedState} {epoch : ℕ} {li : LedgerInfo}
    (ht : t.Genuine ch (Ledger2WaypointConverter.hashOf hash))
    (hepoch : t.TrustsEpoch ch (Ledger2WaypointConverter.hashOf hash) epoch) (hli : ch.Committed li)
    (hfresh : t.verifier.isLedgerInfoStale li = false) : epoch ≤ li.epoch + 1 := by
  cases t with
  | epochWaypoint w =>
    obtain ⟨g, hg, rfl, rfl⟩ := hepoch
    have hversion : g.version ≤ li.version := by
      simpa [TrustedState.verifier, Verifier.isLedgerInfoStale, Waypoint.newAny] using hfresh
    have := hg.committed.epoch_le hli hversion
    have := hg.committed.nextBlockEpoch_le
    omega
  | epochState w e acc =>
    have hle : e.epoch ≤ li.epoch := by
      simpa [TrustedState.verifier, Verifier.isLedgerInfoStale] using hfresh
    show epoch ≤ li.epoch + 1
    rw [hepoch]
    omega

theorem TrustedState.version_le_of_tryExtend {t : TrustedState} {epochChangeProof : EpochChangeProof}
    {initialAccumulator : Option TransactionAccumulatorSummary} {acc newAccumulator : TransactionAccumulatorSummary}
    {consistencyProof : AccumulatorConsistencyProof} {li : LedgerInfo}
    (ht : t.Genuine ch (Ledger2WaypointConverter.hashOf hash))
    (hacc : t.currAccumulator epochChangeProof initialAccumulator = .ok acc)
    (hext : acc.tryExtendWithProof node placeholder consistencyProof li = .ok newAccumulator)
    (hfresh : t.verifier.isLedgerInfoStale li = false) : t.version ≤ li.version := by
  cases t with
  | epochWaypoint w =>
    simpa [TrustedState.verifier, Verifier.isLedgerInfoStale, TrustedState.version, TrustedState.waypoint]
      using hfresh
  | epochState w e accumulator =>
    rw [TrustedState.currAccumulator_epochState, Except.ok.injEq] at hacc
    subst hacc
    obtain ⟨-, -, -, hle⟩ := TransactionAccumulatorSummary.tryExtendWithProof_eq_ok hext
    have hversion := ch.genuineSummary_version ht.2.2
    show w.version ≤ li.version
    omega

include hhash hsig in
/-- **Light-client ratcheting is sound and monotone.** From a genuine trusted
state, whatever latest ledger info, epoch change proof (stale prefix and
`more` flag included), consistency proof and initial accumulator a server
sends: every new state `verify_and_ratchet_inner` returns is genuine, at a
version no lower and vouching for an epoch no earlier than the trusted one;
`NoChange` comes only when the latest ledger info has the trusted waypoint.
And an epoch change proof that a trusted verifier accepts returns its last
ledger info, and its ledger infos from the first one that is not stale on
form a chain: the first is accepted by the verifier, each is committed by the
chain and hands over the validator set of the next epoch, and their epochs
follow one another. -/
theorem verifyAndRatchet_sound (hnode : ∀ a b c d, node a b = node c d → a = c ∧ b = d)
    (hleaf : ∀ i, ch.leaf i ≠ placeholder) {t : TrustedState}
    (ht : t.Genuine ch (Ledger2WaypointConverter.hashOf hash)) :
    (∀ (latestLi : LedgerInfoWithSignatures) (epochChangeProof : EpochChangeProof)
        (consistencyProof : AccumulatorConsistencyProof) (initialAccumulator : Option TransactionAccumulatorSummary)
        (change : TrustedStateChange),
      t.verifyAndRatchetInner node placeholder sigOk (Ledger2WaypointConverter.hashOf hash) latestLi
          epochChangeProof consistencyProof initialAccumulator = .ok change →
        (∀ newState, change.newState = some newState →
          newState.Genuine ch (Ledger2WaypointConverter.hashOf hash) ∧ t.version ≤ newState.version ∧
            ∀ epoch epoch', t.TrustsEpoch ch (Ledger2WaypointConverter.hashOf hash) epoch →
              newState.TrustsEpoch ch (Ledger2WaypointConverter.hashOf hash) epoch' → epoch ≤ epoch') ∧
        (change = .noChange → Waypoint.newAny (Ledger2WaypointConverter.hashOf hash) latestLi.ledgerInfo = t.waypoint)) ∧
    ∀ (v : Verifier) (p : EpochChangeProof) (li : LedgerInfoWithSignatures),
      v.Trusted ch (Ledger2WaypointConverter.hashOf hash) →
      p.verify sigOk (Ledger2WaypointConverter.hashOf hash) v = .ok li →
        p.ledgerInfoWithSigs.getLast? = some li ∧ v.isLedgerInfoStale li.ledgerInfo = false ∧
        ∃ first rest, p.ledgerInfoWithSigs.dropWhile (fun q => v.isLedgerInfoStale q.ledgerInfo) = first :: rest ∧
          v.verify sigOk (Ledger2WaypointConverter.hashOf hash) first = .ok () ∧ (first :: rest).getLast? = some li ∧
          (∀ q ∈ first :: rest, ch.Committed q.ledgerInfo ∧ q.ledgerInfo.nextEpochState.isSome) ∧
          (first :: rest).IsChain (fun a b => b.ledgerInfo.epoch = a.ledgerInfo.epoch + 1) := by
  refine ⟨?_, fun v p li hv h => EpochChangeProof.verify_committed hhash hsig hv h⟩
  intro latestLi epochChangeProof consistencyProof initialAccumulator change h
  obtain ⟨hstale, acc, hacc, hcases⟩ := TrustedState.verifyAndRatchetInner_cases h
  rcases hcases with ⟨epochChangeLi, newEpochState, li, newAccumulator, hproof, hnext, hli, hext, rfl⟩ |
    ⟨w, e, accumulator, rfl, ⟨hw, rfl⟩ | ⟨hv, newAccumulator, hext, rfl⟩⟩
  · -- an epoch change: the new state is built from the proof's last ledger info
    have hcommitted := EpochChangeProof.committed_of_verify hhash hsig ht.trusted hproof
    obtain ⟨-, hfresh, -⟩ := EpochChangeProof.verify_committed hhash hsig ht.trusted hproof
    obtain ⟨htrusted, hepoch⟩ := Verifier.trusted_of_committed hcommitted hnext
    have hverified : ch.Committed li.ledgerInfo ∧ t.version ≤ li.ledgerInfo.version := by
      rcases TrustedState.verifiedLedgerInfo_eq_ok hli with ⟨rfl, hsame | ⟨-, hlatest⟩⟩ | ⟨rfl, -, -⟩
      · refine ⟨?_, hstale⟩
        rw [← hsame]
        exact hcommitted
      · exact ⟨Verifier.committed_of_verify hhash hsig htrusted hlatest, hstale⟩
      · exact ⟨hcommitted, TrustedState.version_le_of_tryExtend ht hacc hext hfresh⟩
    refine ⟨?_, fun hno => by cases hno⟩
    intro newState hnew
    cases hnew
    refine ⟨genuine_of_tryExtend hnode hleaf hverified.1 htrusted hext, hverified.2, ?_⟩
    intro epoch epoch' htrusts hnew
    have hle := TrustedState.trustsEpoch_le ht htrusts hcommitted hfresh
    show epoch ≤ epoch'
    rw [hnew, hepoch]
    exact hle
  · -- no change: the latest ledger info has the trusted waypoint
    exact ⟨fun _ hnew => (by simp [TrustedStateChange.newState] at hnew), fun _ => hw⟩
  · -- a newer version in the trusted epoch, signed by its validators
    have hlatest := Verifier.committed_of_verify hhash hsig ht.trusted hv
    rw [TrustedState.currAccumulator_epochState, Except.ok.injEq] at hacc
    subst hacc
    refine ⟨?_, fun hno => by cases hno⟩
    intro newState hnew
    cases hnew
    refine ⟨genuine_of_tryExtend hnode hleaf hlatest ht.2.1 hext, hstale, ?_⟩
    intro epoch epoch' htrusts hnew
    show epoch ≤ epoch'
    rw [htrusts, hnew]

end Sound

end Diem

namespace Diem

/-! ### A chain with an epoch change

Two transactions: the first ends epoch `0` and hands over to one validator,
who signs version `1` in epoch `1`. A client at the genesis waypoint ratchets
to version `1` through the epoch change proof and the validator's signature. -/

/-- A node hash without collisions: the pairing of the two children. -/
def pairNode (a b : HashValue) : HashValue := ⟨Nat.pair a.val b.val⟩

/-- The validators of epoch `1`: the validator `⟨1⟩` with key `⟨7⟩` and voting
power `1`. -/
def epochOneVerifier : ValidatorVerifier :=
  ⟨(∅ : AList fun _ : AccountAddress => ValidatorConsensusInfo).insert ⟨1⟩ ⟨⟨7⟩, 1⟩, 1, 1⟩

/-- Version `0`, ending epoch `0` with the validators of epoch `1`, over the
accumulator of the leaf `⟨1⟩`. -/
def genesisLi : LedgerInfo := ⟨⟨0, 0, HashValue.zero, ⟨1⟩, 0, 0, some ⟨1, epochOneVerifier⟩⟩, HashValue.zero⟩

/-- Version `1` in epoch `1`, over the accumulator of the leaves `⟨1⟩` and `⟨2⟩`. -/
def versionOneLi : LedgerInfo := ⟨⟨1, 1, HashValue.zero, pairNode ⟨1⟩ ⟨2⟩, 1, 0, none⟩, HashValue.zero⟩

/-- The ledger infos of `twoEpochChain`, by version. -/
def twoEpochLedgerInfo (v : ℕ) : Option LedgerInfo :=
  if v = 0 then some genesisLi else if v = 1 then some versionOneLi else none

/-- The validator sets: `epochOneVerifier` in epoch `1`, none in the others. -/
def twoEpochState (e : ℕ) : EpochState := if e = 1 then ⟨1, epochOneVerifier⟩ else ⟨e, ⟨∅, 1, 0⟩⟩

theorem twoEpochLedgerInfo_eq_some {v : ℕ} {li : LedgerInfo} (h : twoEpochLedgerInfo v = some li) :
    v = 0 ∧ li = genesisLi ∨ v = 1 ∧ li = versionOneLi := by
  unfold twoEpochLedgerInfo at h
  split_ifs at h with h0 h1
  · exact .inl ⟨h0, (Option.some.inj h).symm⟩
  · exact .inr ⟨h1, (Option.some.inj h).symm⟩

/-- The chain of `genesisLi` and `versionOneLi`. -/
def twoEpochChain : Chain pairNode HashValue.zero where
  leaf i := ⟨i + 1⟩
  ledgerInfo := twoEpochLedgerInfo
  epochState := twoEpochState
  version_of_ledgerInfo := by
    intro v li h
    rcases twoEpochLedgerInfo_eq_some h with ⟨rfl, rfl⟩ | ⟨rfl, rfl⟩ <;> rfl
  epoch_epochState e := by
    unfold twoEpochState
    split_ifs with h
    · exact h.symm
    · rfl
  nextEpochState_of_ledgerInfo := by
    intro v li e h he
    rcases twoEpochLedgerInfo_eq_some h with ⟨rfl, rfl⟩ | ⟨rfl, rfl⟩
    · cases he
      rfl
    · cases he
  epoch_le_of_version_le := by
    intro v v' li li' h h' hv
    rcases twoEpochLedgerInfo_eq_some h with ⟨rfl, rfl⟩ | ⟨rfl, rfl⟩ <;>
      rcases twoEpochLedgerInfo_eq_some h' with ⟨rfl, rfl⟩ | ⟨rfl, rfl⟩ <;> first | omega | decide
  root_of_ledgerInfo := by
    intro v li acc h hacc
    rcases twoEpochLedgerInfo_eq_some h with ⟨rfl, rfl⟩ | ⟨rfl, rfl⟩
    · -- the one leaf is the root
      have hone : InMemoryAccumulator.fromLeaves pairNode HashValue.zero
          ((List.range (0 + 1)).map fun i => (⟨i + 1⟩ : HashValue)) = .ok ⟨[⟨1⟩], 1, ⟨1⟩⟩ := by decide
      rw [hone, Except.ok.injEq] at hacc
      subst hacc
      rfl
    · -- the two leaves are one frozen subtree
      have htwo : InMemoryAccumulator.fromLeaves pairNode HashValue.zero
          ((List.range (1 + 1)).map fun i => (⟨i + 1⟩ : HashValue)) =
            .ok ⟨[pairNode ⟨1⟩ ⟨2⟩], 2, pairNode ⟨1⟩ ⟨2⟩⟩ := by decide
      rw [htwo, Except.ok.injEq] at hacc
      subst hacc
      rfl

/-- A converter hash that tells the chain's two ledger infos from every other
converter. -/
def twoEpochHash (c : Ledger2WaypointConverter) : HashValue :=
  if c = Ledger2WaypointConverter.new genesisLi then ⟨1⟩
  else if c = Ledger2WaypointConverter.new versionOneLi then ⟨2⟩ else HashValue.zero

/-- The validators' signatures: the key `⟨7⟩` signs with `⟨7⟩`, and only the
chain's ledger infos. -/
def twoEpochSigOk (publicKey : Ed25519PublicKey) (li : LedgerInfo) (signature : Ed25519Signature) : Bool :=
  decide (twoEpochLedgerInfo li.version = some li) && decide (publicKey = ⟨7⟩) && decide (signature = ⟨7⟩)

theorem twoEpochHash_genesis : twoEpochHash (Ledger2WaypointConverter.new genesisLi) = ⟨1⟩ := if_pos rfl

theorem twoEpochHash_versionOne : twoEpochHash (Ledger2WaypointConverter.new versionOneLi) = ⟨2⟩ := by
  have hne : Ledger2WaypointConverter.new versionOneLi ≠ Ledger2WaypointConverter.new genesisLi := by
    simp [Ledger2WaypointConverter.new, genesisLi, versionOneLi, LedgerInfo.epoch]
  rw [twoEpochHash, if_neg hne, if_pos rfl]

/-- `twoEpochHash` has no collision with a genuine ledger info. -/
theorem twoEpochHash_eq_of_genuine {c : Ledger2WaypointConverter} {g : LedgerInfo} (hg : twoEpochChain.Genuine g)
    (h : twoEpochHash c = twoEpochHash (Ledger2WaypointConverter.new g)) : c = Ledger2WaypointConverter.new g := by
  rcases twoEpochLedgerInfo_eq_some hg with ⟨-, rfl⟩ | ⟨-, rfl⟩
  · rw [twoEpochHash_genesis] at h
    unfold twoEpochHash at h
    split_ifs at h with h₁ h₂
    · exact h₁
    all_goals simp [HashValue.zero] at h
  · rw [twoEpochHash_versionOne] at h
    unfold twoEpochHash at h
    split_ifs at h with h₁ h₂
    · simp at h
    · exact h₂
    · simp [HashValue.zero] at h

/-- Only the chain's ledger infos carry its validators' signatures. -/
theorem genuine_of_verifySignatures {e : ℕ} {li : LedgerInfoWithSignatures}
    (h : li.verifySignatures twoEpochSigOk (twoEpochChain.epochState e).verifier = .ok ()) :
    twoEpochChain.Genuine li.ledgerInfo := by
  have hq : 0 < (twoEpochChain.epochState e).verifier.quorumVotingPower := by
    show 0 < (twoEpochState e).verifier.quorumVotingPower
    unfold twoEpochState
    split_ifs <;> exact Nat.one_pos
  obtain ⟨author, publicKey, signature, -, hsig⟩ :=
    ValidatorVerifier.exists_sigOk_of_verifyAggregatedStructSignature hq h
  simp only [twoEpochSigOk, Bool.and_eq_true, decide_eq_true_eq] at hsig
  exact hsig.1.1

/-- The client at the genesis waypoint. -/
def genesisWaypointState : TrustedState :=
  .epochWaypoint (Waypoint.newAny (Ledger2WaypointConverter.hashOf twoEpochHash) genesisLi)

/-- Version `1`, signed by the validator of epoch `1`. -/
def versionOneSigned : LedgerInfoWithSignatures :=
  ⟨versionOneLi, (∅ : AList fun _ : AccountAddress => Ed25519Signature).insert ⟨1⟩ ⟨7⟩⟩

/-- The state at version `1`: its waypoint, the validators of epoch `1` and the
accumulator of both leaves. -/
def versionOneState : TrustedState :=
  .epochState (Waypoint.newAny (Ledger2WaypointConverter.hashOf twoEpochHash) versionOneLi) ⟨1, epochOneVerifier⟩
    ⟨⟨[pairNode ⟨1⟩ ⟨2⟩], 2, pairNode ⟨1⟩ ⟨2⟩⟩⟩

/-- The epoch change proof of the genesis ledger info checks against its waypoint. -/
theorem genesisProof_verify :
    EpochChangeProof.verify twoEpochSigOk (Ledger2WaypointConverter.hashOf twoEpochHash) ⟨[⟨genesisLi, ∅⟩], false⟩
      genesisWaypointState.verifier = .ok ⟨genesisLi, ∅⟩ := by
  simp [EpochChangeProof.verify, genesisWaypointState, TrustedState.verifier, Verifier.isLedgerInfoStale,
    Verifier.verifyChain, Verifier.verify, Waypoint.verify, Waypoint.newAny, genesisLi, LedgerInfo.version]
  rfl

/-- From genesis the client ratchets to version `1`, through the epoch change
and the signature of the new epoch's validator. -/
theorem genesisWaypointState_ratchet :
    genesisWaypointState.verifyAndRatchetInner pairNode HashValue.zero twoEpochSigOk
        (Ledger2WaypointConverter.hashOf twoEpochHash) versionOneSigned ⟨[⟨genesisLi, ∅⟩], false⟩ ⟨[⟨2⟩]⟩
        (some ⟨⟨[⟨1⟩], 1, ⟨1⟩⟩⟩) = .ok (.epoch versionOneState ⟨genesisLi, ∅⟩) := by
  have hcurr : genesisWaypointState.currAccumulator ⟨[⟨genesisLi, ∅⟩], false⟩ (some ⟨⟨[⟨1⟩], 1, ⟨1⟩⟩⟩) =
      .ok ⟨⟨[⟨1⟩], 1, ⟨1⟩⟩⟩ := by decide
  rw [TrustedState.verifyAndRatchetInner, if_neg (by decide), hcurr]
  simp only [genesisProof_verify]
  rfl

theorem verifyAndRatchet_sound_epochChange :
    (∀ a b c d, pairNode a b = pairNode c d → a = c ∧ b = d) ∧ (∀ i, twoEpochChain.leaf i ≠ HashValue.zero) ∧
    (∀ c g, twoEpochChain.Genuine g → twoEpochHash c = twoEpochHash (Ledger2WaypointConverter.new g) →
      c = Ledger2WaypointConverter.new g) ∧
    (∀ e (li : LedgerInfoWithSignatures), li.ledgerInfo.epoch = e →
      li.verifySignatures twoEpochSigOk (twoEpochChain.epochState e).verifier = .ok () →
        twoEpochChain.Genuine li.ledgerInfo) ∧
    genesisWaypointState.Genuine twoEpochChain (Ledger2WaypointConverter.hashOf twoEpochHash) ∧
    genesisWaypointState.verifyAndRatchetInner pairNode HashValue.zero twoEpochSigOk
        (Ledger2WaypointConverter.hashOf twoEpochHash) versionOneSigned ⟨[⟨genesisLi, ∅⟩], false⟩ ⟨[⟨2⟩]⟩
        (some ⟨⟨[⟨1⟩], 1, ⟨1⟩⟩⟩) = .ok (.epoch versionOneState ⟨genesisLi, ∅⟩) ∧
    versionOneState.Genuine twoEpochChain (Ledger2WaypointConverter.hashOf twoEpochHash) ∧
    genesisWaypointState.version ≤ versionOneState.version ∧
    ∀ epoch epoch', genesisWaypointState.TrustsEpoch twoEpochChain (Ledger2WaypointConverter.hashOf twoEpochHash) epoch →
      versionOneState.TrustsEpoch twoEpochChain (Ledger2WaypointConverter.hashOf twoEpochHash) epoch' →
        epoch ≤ epoch' := by
  have hnode : ∀ a b c d, pairNode a b = pairNode c d → a = c ∧ b = d := by
    intro a b c d h
    have hpair := Nat.pair_eq_pair.1 (congrArg HashValue.val h)
    exact ⟨congrArg HashValue.mk hpair.1, congrArg HashValue.mk hpair.2⟩
  have hleaf : ∀ i, twoEpochChain.leaf i ≠ HashValue.zero := by
    intro i h
    have := congrArg HashValue.val h
    simp [twoEpochChain, HashValue.zero] at this
  have hhash : ∀ c g, twoEpochChain.Genuine g → twoEpochHash c = twoEpochHash (Ledger2WaypointConverter.new g) →
      c = Ledger2WaypointConverter.new g := fun _ _ => twoEpochHash_eq_of_genuine
  have hsig : ∀ e (li : LedgerInfoWithSignatures), li.ledgerInfo.epoch = e →
      li.verifySignatures twoEpochSigOk (twoEpochChain.epochState e).verifier = .ok () →
        twoEpochChain.Genuine li.ledgerInfo := fun _ _ _ => genuine_of_verifySignatures
  have ht : genesisWaypointState.Genuine twoEpochChain (Ledger2WaypointConverter.hashOf twoEpochHash) :=
    ⟨genesisLi, rfl, rfl⟩
  obtain ⟨hgenuine, hversion, hepoch⟩ := ((verifyAndRatchet_sound hhash hsig hnode hleaf ht).1 _ _ _ _ _
    genesisWaypointState_ratchet).1 versionOneState rfl
  exact ⟨hnode, hleaf, hhash, hsig, ht, genesisWaypointState_ratchet, hgenuine, hversion, hepoch⟩

end Diem
