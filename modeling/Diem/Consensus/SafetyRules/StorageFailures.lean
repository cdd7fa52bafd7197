import Diem.Consensus.SafetyRules.Safety

/-!
# Safety rules over a backend that fails

`persistent_safety_storage.rs` and the `guarded_*` methods of `safety_rules.rs`
and `safety_rules_2chain.rs`, from the backend's side: what a failed request
leaves in the store, and what the cache of `PersistentSafetyStorage` changes in
what `safety_data()` returns.

Every request persists at most once, as its last step, so a request that fails
before that step leaves the store as it was. A write that fails after it landed
(a Vault `PUT` whose reply times out) is the one way a failure leaves something
behind; `SecureStorage.losingWriteReplies` is such a backend. A failed request
therefore leaves the stored data, or the data of a vote that passed all its
checks, or a last voted round raised to a timeout's
(**`errors_keep_stored_data_or_vote`**). With the cache on, a read after any
calls returns the data of the last write that succeeded; with it off, every read
fails (**`uncachedSafetyData_fails`**).
-/
namespace Diem

namespace Consensus

open EStateM Mealy

variable {σ : Type}

/-! ### Backends -/

/-- A backend whose safety-data writes land and whose replies are lost: each
`set` is applied, then fails with `error`. -/
def SecureStorage.losingWriteReplies (S : SecureStorage σ) (error : SecureStorage.Error) :
    SecureStorage σ :=
  { S with
    setSafetyData := fun d => do
      S.setSafetyData d
      throw error
    setSafetyData_stored := fun s d => by
      simp only [wp_bind, wp_throw]
      exact wp_mono (S.setSafetyData_stored s d) (fun _ _ h => Or.inr h) fun _ _ h => h }

/-- A read of the safety data returns what the backend holds. -/
def SecureStorage.ReadsSucceed (S : SecureStorage σ) : Prop :=
  ∀ s d, S.stored s = some d → S.getSafetyData s = .ok d

/-- A write of the safety data that fails leaves what the backend held. -/
def SecureStorage.FailedWritesKeep (S : SecureStorage σ) : Prop :=
  ∀ s d e s', (S.setSafetyData d).run s = .error e s' → S.stored s' = S.stored s

theorem inMemoryStorage_readsSucceed (C : Crypto) : (Secure.inMemoryStorage C).ReadsSucceed := by
  rintro s d hd
  change Secure.InMemoryStorage.get "safety_data" s.safetyData = .ok d
  change s.safetyData = some d at hd
  rw [hd]
  rfl

theorem inMemoryStorage_failedWritesKeep (C : Crypto) : (Secure.inMemoryStorage C).FailedWritesKeep := by
  rintro s d e s' h
  cases h

/-! ### Failed requests -/

namespace SafetyRules

variable (C : Crypto) {S : SecureStorage σ} {s : SafetyRules σ}

/-- **What a failed request leaves.** A vote leaves the stored data, or the
data of a vote that passed every check of its rule; a proposal leaves it; a
timeout leaves it, or raises the last voted round to its own. The cache agrees
with the backend after each. -/
theorem errors_keep_stored_data_or_vote (hs : CacheOk S s) :
    (∀ m now e s', (guardedConstructAndSignVote C S m now).run s = .error e s' →
      CacheOk S s' ∧ (stored S s' = stored S s ∨ ∃ d v, stored S s = some d ∧
        VoteChecks3 C d m now v ∧ stored S s' = some (votedData d m.voteProposal.block v))) ∧
    (∀ m tc now e s', (guardedConstructAndSignVoteTwoChain C S m tc now).run s = .error e s' →
      CacheOk S s' ∧ (stored S s' = stored S s ∨ ∃ d v, stored S s = some d ∧
        VoteChecks2 C d m tc now v ∧ stored S s' = some (votedData d m.voteProposal.block v))) ∧
    (∀ b e s', (guardedSignProposal C S b).run s = .error e s' → Kept S s s') ∧
    (∀ t e s', (guardedSignTimeout C S t).run s = .error e s' →
      CacheOk S s' ∧ TimeoutWritten (stored S s) (stored S s') t.epoch t.round) ∧
    (∀ t tc e s', (guardedSignTimeoutWithQc C S t tc).run s = .error e s' →
      CacheOk S s' ∧ TimeoutWritten (stored S s) (stored S s') t.epoch t.round) := by
  refine ⟨fun m now _ _ h => ?_, fun m tc now _ _ h => ?_, fun b _ _ h => ?_, fun t _ _ h => ?_,
    fun t tc _ _ h => ?_⟩
  · exact of_wp_error (wp_guardedConstructAndSignVote C m now hs) h
  · exact of_wp_error (wp_guardedConstructAndSignVoteTwoChain C m tc now hs) h
  · exact of_wp_error (wp_guardedSignProposal C b hs) h
  · exact of_wp_error (wp_guardedSignTimeout C t hs) h
  · exact of_wp_error (wp_guardedSignTimeoutWithQc C t tc hs) h

/-- The instance at the end of `epochOneRun`: initialized to epoch `1`, having
voted and signed a timeout in round `1`. -/
def epochOneInstance : SafetyRules Secure.InMemoryStorage :=
  Mealy.final (handleMessage keyNamingCrypto (Secure.inMemoryStorage keyNamingCrypto)) freshInstance epochOneRun

theorem epochOneInstance_cacheOk : CacheOk (Secure.inMemoryStorage keyNamingCrypto) epochOneInstance :=
  Mealy.reachable_inv _ (fun _ req hs => handleMessage_cacheOk keyNamingCrypto req hs) (Mealy.reachable_final _ _ _)
    (freshInstance_inv keyNamingCrypto).cacheOk

theorem errors_keep_stored_data_or_vote_epochOneInstance :
    CacheOk (Secure.inMemoryStorage keyNamingCrypto) epochOneInstance ∧
    (∀ m now e s', (guardedConstructAndSignVote keyNamingCrypto (Secure.inMemoryStorage keyNamingCrypto) m
        now).run epochOneInstance = .error e s' →
      CacheOk (Secure.inMemoryStorage keyNamingCrypto) s' ∧
        (stored (Secure.inMemoryStorage keyNamingCrypto) s' = stored (Secure.inMemoryStorage keyNamingCrypto)
          epochOneInstance ∨ ∃ d v, stored (Secure.inMemoryStorage keyNamingCrypto) epochOneInstance = some d ∧
          VoteChecks3 keyNamingCrypto d m now v ∧
          stored (Secure.inMemoryStorage keyNamingCrypto) s' = some (votedData d m.voteProposal.block v))) ∧
    (∀ m tc now e s', (guardedConstructAndSignVoteTwoChain keyNamingCrypto (Secure.inMemoryStorage keyNamingCrypto)
        m tc now).run epochOneInstance = .error e s' →
      CacheOk (Secure.inMemoryStorage keyNamingCrypto) s' ∧
        (stored (Secure.inMemoryStorage keyNamingCrypto) s' = stored (Secure.inMemoryStorage keyNamingCrypto)
          epochOneInstance ∨ ∃ d v, stored (Secure.inMemoryStorage keyNamingCrypto) epochOneInstance = some d ∧
          VoteChecks2 keyNamingCrypto d m tc now v ∧
          stored (Secure.inMemoryStorage keyNamingCrypto) s' = some (votedData d m.voteProposal.block v))) ∧
    (∀ b e s', (guardedSignProposal keyNamingCrypto (Secure.inMemoryStorage keyNamingCrypto) b).run
        epochOneInstance = .error e s' → Kept (Secure.inMemoryStorage keyNamingCrypto) epochOneInstance s') ∧
    (∀ t e s', (guardedSignTimeout keyNamingCrypto (Secure.inMemoryStorage keyNamingCrypto) t).run
        epochOneInstance = .error e s' → CacheOk (Secure.inMemoryStorage keyNamingCrypto) s' ∧
      TimeoutWritten (stored (Secure.inMemoryStorage keyNamingCrypto) epochOneInstance)
        (stored (Secure.inMemoryStorage keyNamingCrypto) s') t.epoch t.round) ∧
    (∀ t tc e s', (guardedSignTimeoutWithQc keyNamingCrypto (Secure.inMemoryStorage keyNamingCrypto) t tc).run
        epochOneInstance = .error e s' → CacheOk (Secure.inMemoryStorage keyNamingCrypto) s' ∧
      TimeoutWritten (stored (Secure.inMemoryStorage keyNamingCrypto) epochOneInstance)
        (stored (Secure.inMemoryStorage keyNamingCrypto) s') t.epoch t.round) :=
  ⟨epochOneInstance_cacheOk, errors_keep_stored_data_or_vote keyNamingCrypto epochOneInstance_cacheOk⟩

/-- The in-memory backend of the concrete runs with the replies of its
safety-data writes lost to a gateway timeout. -/
def lostReplyStorage : SecureStorage Secure.InMemoryStorage :=
  (Secure.inMemoryStorage keyNamingCrypto).losingWriteReplies
    (.InternalError "Http error, status code: 504, status text: Gateway Timeout, body: ")

/-- `freshInstance` over `lostReplyStorage` after `initialize` to epoch `1`. -/
def lostReplyInstance : SafetyRules Secure.InMemoryStorage :=
  (handleMessage keyNamingCrypto lostReplyStorage freshInstance (.Initialize epochOneProof)).2

theorem voteTwoChain_error_after_landed_write :
    stored lostReplyStorage lostReplyInstance = some ⟨1, 0, 0, 0, none⟩ ∧
    (handleMessage keyNamingCrypto lostReplyStorage lostReplyInstance
        (.ConstructAndSignVoteTwoChain roundOneProposal none 0)).1 =
      .vote (.error (.SecureStorageUnexpectedError
        "Internal error: Http error, status code: 504, status text: Gateway Timeout, body: ")) ∧
    (stored lostReplyStorage (handleMessage keyNamingCrypto lostReplyStorage lostReplyInstance
        (.ConstructAndSignVoteTwoChain roundOneProposal none 0)).2).map
      (fun d => (d.lastVotedRound, d.lastVote.isSome)) = some (1, true) :=
  ⟨rfl, rfl, rfl⟩

end SafetyRules

/-! ### The cache, call by call -/

open SafetyRules (Error freshInstance freshInstance_inv keyNamingCrypto)

namespace PersistentSafetyStorage

/-- A call on the safety data of a `PersistentSafetyStorage`. -/
inductive Call where
  | safetyData
  | setSafetyData (data : SafetyData)

/-- The `Result` a call returns. -/
inductive Answer where
  | safetyData (result : Except Error SafetyData)
  | setSafetyData (result : Except Error Unit)
  deriving DecidableEq

variable (S : SecureStorage σ)

/-- Make a call and answer with its result. -/
def step (p : PersistentSafetyStorage σ) : Call → Answer × PersistentSafetyStorage σ
  | .safetyData =>
    match (safetyData S).run p with
    | .ok d p' => (.safetyData (.ok d), p')
    | .error e p' => (.safetyData (.error e), p')
  | .setSafetyData d =>
    match (setSafetyData S d).run p with
    | .ok () p' => (.setSafetyData (.ok ()), p')
    | .error e p' => (.setSafetyData (.error e), p')

/-- The data a call wrote, if it was a write that succeeded. -/
def written : Call → Answer → Option SafetyData
  | .setSafetyData d, .setSafetyData (.ok ()) => some d
  | _, _ => none

/-- The data of the last call of `ts` that wrote, `d` if none did. -/
def lastWritten (d : SafetyData) (ts : List (Transition (PersistentSafetyStorage σ) Call Answer)) :
    SafetyData :=
  ts.foldl (fun d t => (written t.input t.output).getD d) d

variable {S} {p : PersistentSafetyStorage σ}

theorem step_safetyData_cached {c : SafetyData} (hen : p.enableCachedSafetyData = true)
    (hc : p.cachedSafetyData = some c) : step S p .safetyData = (.safetyData (.ok c), p) := by
  simp [step, safetyData, hen, hc, EStateM.run, bind, EStateM.bind, get, getThe, MonadStateOf.get,
    EStateM.get, pure, EStateM.pure]

theorem step_safetyData_fill (hen : p.enableCachedSafetyData = true) (hc : p.cachedSafetyData = none) :
    step S p .safetyData = match S.getSafetyData p.internalStore with
      | .ok d => (.safetyData (.ok d), { p with cachedSafetyData := some d })
      | .error e => (.safetyData (.error (Error.ofStorage e)), p) := by
  cases hg : S.getSafetyData p.internalStore <;>
    simp [step, safetyData, hen, hc, hg, EStateM.run, bind, EStateM.bind, get, getThe, MonadStateOf.get,
      EStateM.get, pure, EStateM.pure, set, EStateM.set, liftExcept, throw, throwThe, MonadExceptOf.throw,
      EStateM.throw]

theorem step_safetyData_uncached (hen : p.enableCachedSafetyData = false) :
    step S p .safetyData = (.safetyData (.error (Error.ofStorage (S.getSafetyDataAsResult p.internalStore))), p) := by
  simp [step, safetyData, hen, EStateM.run, bind, EStateM.bind, get, getThe, MonadStateOf.get,
    EStateM.get, throw, throwThe, MonadExceptOf.throw, EStateM.throw]

theorem step_setSafetyData (d : SafetyData) :
    step S p (.setSafetyData d) = match (S.setSafetyData d).run p.internalStore with
      | .ok () st => (.setSafetyData (.ok ()), { p with internalStore := st, cachedSafetyData := some d })
      | .error e st => (.setSafetyData (.error (.SecureStorageUnexpectedError e.toString)),
          { p with internalStore := st, cachedSafetyData := none }) := by
  cases hrun : (S.setSafetyData d).run p.internalStore <;>
    simp only [EStateM.run] at hrun <;>
    simp [step, setSafetyData, hrun, EStateM.run, bind, EStateM.bind, get, getThe, MonadStateOf.get,
      EStateM.get, set, EStateM.set, throw, throwThe, MonadExceptOf.throw, EStateM.throw]

/-- What a write returns and leaves, read off the backend's write. -/
theorem setSafetyData_stored_of_run {d : SafetyData} {st : σ}
    (h : (S.setSafetyData d).run p.internalStore = .ok () st) : S.stored st = some d :=
  of_wp_ok (S.setSafetyData_stored p.internalStore d) h

/-- No call turns the cache on or off. -/
theorem step_enableCachedSafetyData (c : Call) :
    (step S p c).2.enableCachedSafetyData = p.enableCachedSafetyData := by
  cases c with
  | safetyData =>
    cases hen : p.enableCachedSafetyData with
    | false => rw [step_safetyData_uncached hen, hen]
    | true =>
      cases hc : p.cachedSafetyData with
      | some c => rw [step_safetyData_cached hen hc, hen]
      | none =>
        rw [step_safetyData_fill hen hc]
        split <;> exact hen
  | setSafetyData d =>
    rw [step_setSafetyData]
    split <;> rfl

/-- With the cache on, a read returns what the backend holds, over a backend
whose reads do. -/
theorem step_safetyData_of_stored {d : SafetyData} (hread : S.ReadsSucceed) (hen : p.enableCachedSafetyData = true)
    (hp : CacheOk S p) (hd : S.stored p.internalStore = some d) :
    (step S p .safetyData).1 = .safetyData (.ok d) := by
  cases hc : p.cachedSafetyData with
  | some c =>
    rw [step_safetyData_cached hen hc]
    rw [hp c hc] at hd
    cases hd
    rfl
  | none => rw [step_safetyData_fill hen hc, hread _ _ hd]

/-- **One call** keeps the cache agreeing with the backend, which then holds
the data the call wrote, or what it held. -/
theorem step_stored {d : SafetyData} (hfail : S.FailedWritesKeep) (hp : CacheOk S p)
    (hd : S.stored p.internalStore = some d) (c : Call) :
    CacheOk S (step S p c).2 ∧ S.stored (step S p c).2.internalStore = some ((written c (step S p c).1).getD d) := by
  cases c with
  | safetyData =>
    cases hen : p.enableCachedSafetyData with
    | false => rw [step_safetyData_uncached hen]; exact ⟨hp, hd⟩
    | true =>
      cases hc : p.cachedSafetyData with
      | some c => rw [step_safetyData_cached hen hc]; exact ⟨hp, hd⟩
      | none =>
        rw [step_safetyData_fill hen hc]
        cases hg : S.getSafetyData p.internalStore with
        | ok d' => exact ⟨cacheOk_fill (S.getSafetyData_stored _ _ hg), hd⟩
        | error e => exact ⟨hp, hd⟩
  | setSafetyData d' =>
    rw [step_setSafetyData]
    cases hrun : (S.setSafetyData d').run p.internalStore with
    | ok _ st =>
      refine ⟨?_, setSafetyData_stored_of_run hrun⟩
      rintro c ⟨⟩
      exact setSafetyData_stored_of_run hrun
    | error e st =>
      refine ⟨?_, (hfail _ _ _ _ hrun).trans hd⟩
      rintro c ⟨⟩

/-- **A whole run** keeps the cache agreeing with the backend, which then holds
the data of the last write that succeeded. -/
theorem final_stored {d : SafetyData} (hfail : S.FailedWritesKeep) :
    ∀ (calls : List Call) {p : PersistentSafetyStorage σ}, CacheOk S p → S.stored p.internalStore = some d →
      CacheOk S (final (step S) p calls) ∧
        S.stored (final (step S) p calls).internalStore = some (lastWritten d (trace (step S) p calls)) := by
  intro calls
  induction calls generalizing d with
  | nil => intro p hp hd; exact ⟨hp, hd⟩
  | cons c calls ih =>
    intro p hp hd
    obtain ⟨hp', hd'⟩ := step_stored hfail hp hd c
    exact ih hp' hd'

/-- **With the cache off every read fails.** Over a backend whose reads return
what it holds and whose failed writes keep the old data, a `safety_data()`
after any calls returns, with the cache on, the data of the last write that
succeeded (or what the backend held at the start); with the cache off it
fails, whatever the backend holds, since the uncached branch reads the key at
the type `Result<SafetyData, Error>`. -/
theorem uncachedSafetyData_fails (hread : S.ReadsSucceed) (hfail : S.FailedWritesKeep) (hp : CacheOk S p)
    {d : SafetyData} (hd : S.stored p.internalStore = some d) (calls : List Call) :
    (step S (final (step S) { p with enableCachedSafetyData := true } calls) .safetyData).1 =
      .safetyData (.ok (lastWritten d (trace (step S) { p with enableCachedSafetyData := true } calls))) ∧
    (step S (final (step S) { p with enableCachedSafetyData := false } calls) .safetyData).1 =
      .safetyData (.error (Error.ofStorage (S.getSafetyDataAsResult
        (final (step S) { p with enableCachedSafetyData := false } calls).internalStore))) := by
  have henable : ∀ enable : Bool,
      (final (step S) { p with enableCachedSafetyData := enable } calls).enableCachedSafetyData = enable :=
    fun enable => @reachable_inv _ _ _ (step S) (fun q => q.enableCachedSafetyData = enable)
      (fun _ c h => (step_enableCachedSafetyData c).trans h) _ _ (reachable_final _ _ _) rfl
  obtain ⟨hp', hd'⟩ := final_stored (p := { p with enableCachedSafetyData := true }) hfail calls hp hd
  exact ⟨step_safetyData_of_stored hread (henable true) hp' hd',
    congrArg Prod.fst (step_safetyData_uncached (henable false))⟩

theorem uncachedSafetyData_fails_inMemory :
    (Secure.inMemoryStorage keyNamingCrypto).ReadsSucceed ∧
    (Secure.inMemoryStorage keyNamingCrypto).FailedWritesKeep ∧
    CacheOk (Secure.inMemoryStorage keyNamingCrypto) freshInstance.persistentStorage ∧
    (step (Secure.inMemoryStorage keyNamingCrypto) (final (step (Secure.inMemoryStorage keyNamingCrypto))
        { freshInstance.persistentStorage with enableCachedSafetyData := true } [.setSafetyData ⟨1, 3, 0, 0, none⟩])
        .safetyData).1 = .safetyData (.ok ⟨1, 3, 0, 0, none⟩) ∧
    (step (Secure.inMemoryStorage keyNamingCrypto) (final (step (Secure.inMemoryStorage keyNamingCrypto))
        { freshInstance.persistentStorage with enableCachedSafetyData := false } [.setSafetyData ⟨1, 3, 0, 0, none⟩])
        .safetyData).1 = .safetyData (.error (.SecureStorageUnexpectedError
          "Serialization error: unknown variant `epoch`, expected `Ok` or `Err`")) := by
  have hread := inMemoryStorage_readsSucceed keyNamingCrypto
  have hfail := inMemoryStorage_failedWritesKeep keyNamingCrypto
  have hp : CacheOk (Secure.inMemoryStorage keyNamingCrypto) freshInstance.persistentStorage :=
    (freshInstance_inv keyNamingCrypto).cacheOk
  obtain ⟨hcached, huncached⟩ := uncachedSafetyData_fails hread hfail hp (d := ⟨1, 0, 0, 0, none⟩) rfl
    [.setSafetyData ⟨1, 3, 0, 0, none⟩]
  exact ⟨hread, hfail, hp, hcached, huncached⟩

end PersistentSafetyStorage

end Consensus

end Diem
