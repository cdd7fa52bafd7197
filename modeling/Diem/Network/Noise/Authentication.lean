import Diem.Network.Noise.Handshake

/-!
# What an accepted inbound upgrade has checked

Over every run of one upgrader, with any client bytes, any interleaving of the
upgrades' atomic sections and any changes of the trusted peers, an
`upgrade_inbound` that returns `Ok((stream, peer_id, role))` has

* a peer id other than ours, taken from the prologue, and a prologue that
  names our public key;
* a client static key, decrypted from the Noise message, that the mode admits
  against the trusted peers as they were when the upgrade read them
  (`Admitted`);
* in `Mutual` mode, a timestamp that its anti-replay block stored, above every
  timestamp stored before it for the same key.

"Before" is the order in which the anti-replay blocks take the timestamps'
write lock. The order in which upgrades return can differ, since one upgrade
can pass its block, wait for its write, and return after another that passed
its block later.

The proof is a history invariant (`History`, `Mealy.history_inv`): each
upgrade past its authentication was authenticated by an earlier `receive` of
its connection, each one past its anti-replay block stored its timestamp
there, and the map holds for each key at least every timestamp stored for it.
-/

namespace Diem

namespace Network

open Noise

/-- The client authenticated as trusted peer `remotePeerId` with key
`remotePublicKey`, and `role` is that peer's. -/
def Trusted (trustedPeers : PeerSet) (remotePeerId : PeerId) (remotePublicKey : PublicKey) (role : PeerRole) :
    Prop :=
  ∃ peer, trustedPeers.lookup remotePeerId = some peer ∧ remotePublicKey ∈ peer.keys ∧ role = peer.role

/-- The clients a mode admits: trusted peers, and in `MaybeMutual` mode also
clients whose peer id is that of their key, as `Unknown`. -/
def Admitted : HandshakeAuthMode → PeerSet → PeerId → PublicKey → PeerRole → Prop
  | .Mutual, trustedPeers, remotePeerId, remotePublicKey, role =>
    Trusted trustedPeers remotePeerId remotePublicKey role
  | .MaybeMutual, trustedPeers, remotePeerId, remotePublicKey, role =>
    Trusted trustedPeers remotePeerId remotePublicKey role ∨
      (remotePeerId = fromIdentityPublicKey remotePublicKey ∧ role = .Unknown)

theorem authenticateInbound_eq_ok {remotePeerShort : PeerId} {peer : Peer} {remotePublicKey : PublicKey}
    {role : PeerRole} (h : authenticateInbound remotePeerShort peer remotePublicKey = .ok role) :
    remotePublicKey ∈ peer.keys ∧ role = peer.role := by
  unfold authenticateInbound at h
  split_ifs at h with hkeys
  cases h
  exact ⟨hkeys, rfl⟩

theorem admitted_of_peerRole {authMode : HandshakeAuthMode} {trustedPeers : PeerSet} {remotePeerId : PeerId}
    {remotePublicKey : PublicKey} {role : PeerRole}
    (h : peerRole authMode trustedPeers remotePeerId remotePublicKey = .ok role) :
    Admitted authMode trustedPeers remotePeerId remotePublicKey role := by
  cases hlookup : trustedPeers.lookup remotePeerId with
  | some peer =>
    have hauth : authenticateInbound remotePeerId peer remotePublicKey = .ok role := by
      cases authMode <;> simpa [peerRole, hlookup] using h
    obtain ⟨hkey, hrole⟩ := authenticateInbound_eq_ok hauth
    have htrusted : Trusted trustedPeers remotePeerId remotePublicKey role := ⟨peer, hlookup, hkey, hrole⟩
    cases authMode
    · exact htrusted
    · exact .inl htrusted
  | none =>
    cases authMode with
    | Mutual => simp [peerRole, hlookup] at h
    | MaybeMutual =>
      simp only [peerRole, hlookup] at h
      split_ifs at h with hderived
      cases h
      exact .inr ⟨(not_not.mp hderived).symm, rfl⟩

variable {κ : Type} (P : Primitives κ) (u : NoiseUpgrader κ)

/-- What the upgrade of an authenticated client has established against the
trusted peers it read: its peer id is the prologue's and not ours, the
prologue names our key, the Noise message decrypts to its static key and
payload, and the mode admits it. -/
structure Authentic (trustedPeers : PeerSet) (a : Authenticated) : Prop where
  peerId_eq : peerIdTryFrom (a.clientMessage.take ADDRESS_LENGTH) = some a.remotePeerId
  ne_self : a.remotePeerId ≠ u.peerId
  prologue_key : (a.clientMessage.take PROLOGUE_SIZE).drop ADDRESS_LENGTH = (u.noiseConfig.publicKey P).bytes
  parse_eq : parseClientInitMessage P u.noiseConfig (a.clientMessage.take PROLOGUE_SIZE)
    (a.clientMessage.drop PROLOGUE_SIZE) = .ok (a.remotePublicKey, a.handshakeState, a.payload)
  admitted : Admitted u.authMode trustedPeers a.remotePeerId a.remotePublicKey a.peerRole

/-- **An authenticated client is authentic**, against the trusted peers read. -/
theorem acceptClient_eq_ok {trustedPeers : PeerSet} {clientBytes : List UInt8} {a : Authenticated}
    (h : acceptClient P u trustedPeers clientBytes = .ok a) :
    a.clientMessage = clientBytes.take CLIENT_MESSAGE_SIZE ∧ Authentic P u trustedPeers a := by
  unfold acceptClient at h
  split_ifs at h with hshort
  dsimp only at h
  cases hid : peerIdTryFrom ((clientBytes.take CLIENT_MESSAGE_SIZE).take ADDRESS_LENGTH) with
  | none => simp [hid] at h
  | some remotePeerId =>
    simp only [hid] at h
    split_ifs at h with hself hkey
    cases hparse : parseClientInitMessage P u.noiseConfig ((clientBytes.take CLIENT_MESSAGE_SIZE).take PROLOGUE_SIZE)
      ((clientBytes.take CLIENT_MESSAGE_SIZE).drop PROLOGUE_SIZE) with
    | error err => simp [hparse] at h
    | ok parsed =>
      obtain ⟨remotePublicKey, handshakeState, payload⟩ := parsed
      simp only [hparse] at h
      cases hrole : peerRole u.authMode trustedPeers remotePeerId remotePublicKey with
      | error err => simp [hrole] at h
      | ok role =>
        simp only [hrole, Except.ok.injEq] at h
        subst h
        exact ⟨rfl, hid, hself, not_not.mp hkey, hparse, admitted_of_peerRole hrole⟩

theorem checkAntiReplay_eq_ok {t : AntiReplayTimestamps} {a : Authenticated} {clientTimestamp : ℕ}
    (h : checkAntiReplay t a = .ok clientTimestamp) :
    a.payload.length = AntiReplayTimestamps.TIMESTAMP_SIZE ∧ clientTimestamp = fromLeBytes a.payload ∧
      t.isReplay a.remotePublicKey clientTimestamp = false := by
  unfold checkAntiReplay at h
  split_ifs at h with hlen hreplay
  cases h
  exact ⟨not_not.mp hlen, rfl, Bool.not_eq_true _ ▸ hreplay⟩

theorem respond_eq_ok {e : κ} {written : Bool} {a : Authenticated} {session : NoiseSession} {remotePeerId : PeerId}
    {role : PeerRole} (h : respond P e written a = .ok (session, remotePeerId, role)) :
    remotePeerId = a.remotePeerId ∧ role = a.peerRole := by
  unfold respond at h
  split at h
  · cases h
  · split_ifs at h
    cases h
    exact ⟨rfl, rfl⟩

/-! ### What one step does -/

/-- A step stores a timestamp exactly when its anti-replay block accepts one. -/
theorem antiReplayTimestamps_step (s : Upgrading) (e : Event κ) :
    (step P u s e).2.antiReplayTimestamps =
      match acceptedTimestamp u s e with
      | some (key, clientTimestamp) => s.antiReplayTimestamps.storeTimestamp key clientTimestamp
      | none => s.antiReplayTimestamps := by
  cases e with
  | receive c clientBytes =>
    simp only [step, acceptedTimestamp]
    split
    · split <;> rfl
    · rfl
  | checkTimestamp c =>
    cases hs : s.handshakes c <;> cases hm : u.authMode <;>
      simp only [step, acceptedTimestamp, hs, hm, Upgrading.setStage_antiReplayTimestamps]
    -- the anti-replay block of `Mutual` mode, on an authenticated upgrade
    cases checkAntiReplay s.antiReplayTimestamps _ <;> rfl
  | respond c e written =>
    simp only [step, acceptedTimestamp]
    split <;> rfl
  | setTrustedPeers peers => rfl

/-- The connection an event belongs to. -/
def Event.connection : Event κ → Option ℕ
  | .receive c _ => some c
  | .checkTimestamp c => some c
  | .respond c _ _ => some c
  | .setTrustedPeers _ => none

/-- An event leaves the other connections' upgrades where they are. -/
theorem handshakes_step_of_ne {s : Upgrading} {e : Event κ} {c : ℕ} (h : e.connection ≠ some c) :
    (step P u s e).2.handshakes c = s.handshakes c := by
  cases e with
  | receive c' clientBytes =>
    have hc : c ≠ c' := fun hc => h (hc ▸ rfl)
    simp only [step]
    split
    · split <;> simp [hc]
    · rfl
  | checkTimestamp c' =>
    have hc : c ≠ c' := fun hc => h (hc ▸ rfl)
    simp only [step]
    split
    · simp [hc]
    · split <;> simp [hc]
    · rfl
  | respond c' e written =>
    have hc : c ≠ c' := fun hc => h (hc ▸ rfl)
    simp only [step]
    split
    · simp [hc]
    · rfl
  | setTrustedPeers peers => rfl

/-- **What a step can do to an upgrade**: leave it, end or authenticate it if
it is the `receive` of an idle connection, end it or take it past its
anti-replay block if it is the `checkTimestamp` of an authenticated one, or
end it with its response. -/
theorem handshakes_step (s : Upgrading) (e : Event κ) (c : ℕ) :
    (step P u s e).2.handshakes c = s.handshakes c ∨
    (∃ clientBytes, e = .receive c clientBytes ∧ s.handshakes c = .idle ∧
      ((step P u s e).2.handshakes c = .returned ∨
        ∃ a, acceptClient P u s.trustedPeers clientBytes = .ok a ∧ (step P u s e).2.handshakes c = .authenticated a)) ∨
    (e = .checkTimestamp c ∧ ∃ a, s.handshakes c = .authenticated a ∧
      ((step P u s e).2.handshakes c = .returned ∨
        ((step P u s e).2.handshakes c = .timestamped a ∧
          (u.authMode = .MaybeMutual ∨ ∃ clientTimestamp, u.authMode = .Mutual ∧
            checkAntiReplay s.antiReplayTimestamps a = .ok clientTimestamp)))) ∨
    (∃ e' written, e = .respond c e' written ∧ (step P u s e).2.handshakes c = .returned) := by
  by_cases hc : e.connection = some c
  swap
  · exact .inl (handshakes_step_of_ne P u hc)
  cases e with
  | receive c' clientBytes =>
    cases hc
    cases hs : s.handshakes c with
    | idle =>
      refine .inr (.inl ⟨clientBytes, rfl, rfl, ?_⟩)
      cases hacc : acceptClient P u s.trustedPeers clientBytes with
      | error err => exact .inl (by simp [step, hs, hacc])
      | ok a => exact .inr ⟨a, rfl, by simp [step, hs, hacc]⟩
    | authenticated a => exact .inl (by simp [step, hs])
    | timestamped a => exact .inl (by simp [step, hs])
    | returned => exact .inl (by simp [step, hs])
  | checkTimestamp c' =>
    cases hc
    cases hs : s.handshakes c with
    | authenticated a =>
      refine .inr (.inr (.inl ⟨rfl, a, rfl, ?_⟩))
      cases hm : u.authMode with
      | MaybeMutual => exact .inr ⟨by simp [step, hs, hm], .inl rfl⟩
      | Mutual =>
        cases hcheck : checkAntiReplay s.antiReplayTimestamps a with
        | error err => exact .inl (by simp [step, hs, hm, hcheck])
        | ok clientTimestamp => exact .inr ⟨by simp [step, hs, hm, hcheck], .inr ⟨clientTimestamp, rfl, rfl⟩⟩
    | idle => exact .inl (by simp [step, hs])
    | timestamped a => exact .inl (by simp [step, hs])
    | returned => exact .inl (by simp [step, hs])
  | respond c' e' written =>
    cases hc
    cases hs : s.handshakes c with
    | timestamped a => exact .inr (.inr (.inr ⟨e', written, rfl, by simp [step, hs]⟩))
    | idle => exact .inl (by simp [step, hs])
    | authenticated a => exact .inl (by simp [step, hs])
    | returned => exact .inl (by simp [step, hs])
  | setTrustedPeers peers => cases hc

/-- An event that returns `Ok` is the response of an upgrade past its
anti-replay block. -/
theorem timestamped_of_step_eq_ok {s : Upgrading} {e : Event κ}
    {r : NoiseSession × PeerId × PeerRole} (h : (step P u s e).1 = some (.ok r)) :
    ∃ c e' written a, e = .respond c e' written ∧ s.handshakes c = .timestamped a ∧ respond P e' written a = .ok r := by
  cases e with
  | receive c clientBytes =>
    simp only [step] at h
    split at h
    · split at h <;> simp at h
    · simp at h
  | checkTimestamp c =>
    simp only [step] at h
    split at h
    · simp at h
    · split at h <;> simp at h
    · simp at h
  | respond c e' written =>
    simp only [step] at h
    split at h
    · rename_i a hs
      exact ⟨c, e', written, a, rfl, hs, Option.some.inj h⟩
    · simp at h
  | setTrustedPeers peers => simp [step] at h

/-- The anti-replay block that stores a timestamp found it above the one stored. -/
theorem acceptedTimestamp_eq_some {s : Upgrading} {e : Event κ} {key : PublicKey} {clientTimestamp : ℕ}
    (h : acceptedTimestamp u s e = some (key, clientTimestamp)) :
    ∃ c a, e = .checkTimestamp c ∧ s.handshakes c = .authenticated a ∧ u.authMode = .Mutual ∧
      checkAntiReplay s.antiReplayTimestamps a = .ok clientTimestamp ∧ key = a.remotePublicKey := by
  cases e with
  | checkTimestamp c =>
    cases hs : s.handshakes c <;> cases hm : u.authMode <;> simp only [acceptedTimestamp, hs, hm] at h <;>
      try cases h
    rename_i a
    cases hcheck : checkAntiReplay s.antiReplayTimestamps a with
    | error err => simp [hcheck] at h
    | ok ts =>
      simp only [hcheck, Option.some.injEq, Prod.mk.injEq] at h
      obtain ⟨rfl, rfl⟩ := h
      exact ⟨c, a, rfl, hs, rfl, hcheck, rfl⟩
  | receive c clientBytes => simp [acceptedTimestamp] at h
  | respond c e written => simp [acceptedTimestamp] at h
  | setTrustedPeers peers => simp [acceptedTimestamp] at h

theorem lt_of_acceptedTimestamp {s : Upgrading} {e : Event κ} {key : PublicKey} {clientTimestamp last : ℕ}
    (h : acceptedTimestamp u s e = some (key, clientTimestamp))
    (hlast : s.antiReplayTimestamps.timestamps.lookup key = some last) : last < clientTimestamp := by
  obtain ⟨c, a, -, -, -, hcheck, rfl⟩ := acceptedTimestamp_eq_some u h
  exact AntiReplayTimestamps.lt_of_not_isReplay (checkAntiReplay_eq_ok hcheck).2.2 hlast

/-! ### The history invariant -/

/-- Upgrade `a` of connection `c` was authenticated in history `hist` by a
`receive` of that connection, against the trusted peers of then. -/
def Received (hist : List (Mealy.Transition Upgrading (Event κ) Outcome)) (c : ℕ) (a : Authenticated) : Prop :=
  ∃ b₁ tr b₂ clientBytes, hist = b₁ ++ tr :: b₂ ∧ tr.input = .receive c clientBytes ∧
    a.clientMessage = clientBytes.take CLIENT_MESSAGE_SIZE ∧ Authentic P u tr.pre.trustedPeers a

/-- Upgrade `a` of connection `c` passed its anti-replay block in history
`hist`, which stored its timestamp, and every timestamp stored before for the
same key is smaller. -/
def Checked (hist : List (Mealy.Transition Upgrading (Event κ) Outcome)) (c : ℕ) (a : Authenticated) : Prop :=
  a.payload.length = AntiReplayTimestamps.TIMESTAMP_SIZE ∧
  ∃ b₁ tc b₂, hist = b₁ ++ tc :: b₂ ∧ tc.input = .checkTimestamp c ∧
    acceptedTimestamp u tc.pre tc.input = some (a.remotePublicKey, fromLeBytes a.payload) ∧
    ∀ t ∈ b₁, ∀ clientTimestamp, acceptedTimestamp u t.pre t.input = some (a.remotePublicKey, clientTimestamp) →
      clientTimestamp < fromLeBytes a.payload

theorem Received.append {hist : List (Mealy.Transition Upgrading (Event κ) Outcome)} {c : ℕ} {a : Authenticated}
    (h : Received P u hist c a) (t : Mealy.Transition Upgrading (Event κ) Outcome) :
    Received P u (hist ++ [t]) c a := by
  obtain ⟨b₁, tr, b₂, clientBytes, rfl, hin, hmsg, hauth⟩ := h
  exact ⟨b₁, tr, b₂ ++ [t], clientBytes, by simp, hin, hmsg, hauth⟩

theorem Checked.append {hist : List (Mealy.Transition Upgrading (Event κ) Outcome)} {c : ℕ} {a : Authenticated}
    (h : Checked u hist c a) (t : Mealy.Transition Upgrading (Event κ) Outcome) :
    Checked u (hist ++ [t]) c a := by
  obtain ⟨hlen, b₁, tc, b₂, rfl, hin, hacc, hlt⟩ := h
  exact ⟨hlen, b₁, tc, b₂ ++ [t], by simp, hin, hacc, hlt⟩

/-- What the upgrader's history `hist` and its state `s` keep true. -/
structure History (hist : List (Mealy.Transition Upgrading (Event κ) Outcome)) (s : Upgrading) : Prop where
  /-- The map holds for each key at least every timestamp stored for it. -/
  stored : ∀ t ∈ hist, ∀ key clientTimestamp, acceptedTimestamp u t.pre t.input = some (key, clientTimestamp) →
    ∃ last, s.antiReplayTimestamps.timestamps.lookup key = some last ∧ clientTimestamp ≤ last
  /-- Every upgrade past its authentication was received in the history. -/
  received : ∀ c a, (s.handshakes c = .authenticated a ∨ s.handshakes c = .timestamped a) → Received P u hist c a
  /-- In `Mutual` mode, every upgrade past its anti-replay block was checked in the history. -/
  checked : u.authMode = .Mutual → ∀ c a, s.handshakes c = .timestamped a → Checked u hist c a

theorem history_nil {s : Upgrading} (hidle : ∀ c, s.handshakes c = .idle) : History P u [] s where
  stored _ ht := by simp at ht
  received c a hc := by simp [hidle c] at hc
  checked _ c a hc := by simp [hidle c] at hc

theorem History.stored_step {hist : List (Mealy.Transition Upgrading (Event κ) Outcome)} {s : Upgrading}
    (h : History P u hist s) (e : Event κ) :
    ∀ t ∈ hist ++ [Mealy.transition (step P u) s e], ∀ key clientTimestamp,
      acceptedTimestamp u t.pre t.input = some (key, clientTimestamp) →
      ∃ last, (step P u s e).2.antiReplayTimestamps.timestamps.lookup key = some last ∧ clientTimestamp ≤ last := by
  intro t ht key clientTimestamp hacc
  rw [antiReplayTimestamps_step]
  rcases List.mem_append.1 ht with ht | ht
  · -- an earlier timestamp: the map keeps it, or stores a greater one for its key
    obtain ⟨last, hlast, hle⟩ := h.stored t ht key clientTimestamp hacc
    cases hnew : acceptedTimestamp u s e with
    | none => exact ⟨last, hlast, hle⟩
    | some stored =>
      obtain ⟨key', clientTimestamp'⟩ := stored
      by_cases hkey : key = key'
      · subst hkey
        have hlt := lt_of_acceptedTimestamp u hnew hlast
        exact ⟨clientTimestamp', by simp, by omega⟩
      · exact ⟨last, by simp [hkey, hlast], hle⟩
  · -- the timestamp this step stores
    rw [List.mem_singleton] at ht
    subst ht
    simp only [Mealy.transition_pre, Mealy.transition_input] at hacc
    simp [hacc]

theorem History.received_step {hist : List (Mealy.Transition Upgrading (Event κ) Outcome)} {s : Upgrading}
    (h : History P u hist s) (e : Event κ) (c : ℕ) (a : Authenticated)
    (hc : (step P u s e).2.handshakes c = .authenticated a ∨ (step P u s e).2.handshakes c = .timestamped a) :
    Received P u (hist ++ [Mealy.transition (step P u) s e]) c a := by
  rcases handshakes_step P u s e c with
    hsame | ⟨clientBytes, rfl, -, hret | ⟨a', hacc, hauth⟩⟩ | ⟨rfl, a', hs, hret | ⟨hts, -⟩⟩ | ⟨e', written, rfl, hret⟩
  · rw [hsame] at hc
    exact (h.received c a hc).append P u _
  · simp [hret] at hc
  · -- this step authenticated the upgrade
    have ha : a' = a := by simpa [hauth] using hc
    subst ha
    obtain ⟨hmsg, hauthentic⟩ := acceptClient_eq_ok P u hacc
    exact ⟨hist, _, [], clientBytes, rfl, rfl, hmsg, hauthentic⟩
  · simp [hret] at hc
  · have ha : a' = a := by simpa [hts] using hc
    subst ha
    exact (h.received c a' (.inl hs)).append P u _
  · simp [hret] at hc

theorem History.checked_step {hist : List (Mealy.Transition Upgrading (Event κ) Outcome)} {s : Upgrading}
    (h : History P u hist s) (e : Event κ) (hmode : u.authMode = .Mutual) (c : ℕ) (a : Authenticated)
    (hc : (step P u s e).2.handshakes c = .timestamped a) :
    Checked u (hist ++ [Mealy.transition (step P u) s e]) c a := by
  rcases handshakes_step P u s e c with
    hsame | ⟨clientBytes, rfl, -, hret | ⟨a', -, hauth⟩⟩ |
      ⟨rfl, a', hs, hret | ⟨hts, hmm | ⟨clientTimestamp, -, hcheck⟩⟩⟩ | ⟨e', written, rfl, hret⟩
  · rw [hsame] at hc
    exact (h.checked hmode c a hc).append u _
  · simp [hret] at hc
  · simp [hauth] at hc
  · simp [hret] at hc
  · rw [hmode] at hmm
    cases hmm
  · -- this step's anti-replay block stored the upgrade's timestamp
    have ha : a' = a := by simpa [hts] using hc
    subst ha
    obtain ⟨hlen, rfl, hnot⟩ := checkAntiReplay_eq_ok hcheck
    refine ⟨hlen, hist, _, [], rfl, rfl, by simp [acceptedTimestamp, hs, hmode, hcheck], ?_⟩
    intro t ht clientTimestamp hacc
    obtain ⟨last, hlast, hle⟩ := h.stored t ht _ clientTimestamp hacc
    have hlt := AntiReplayTimestamps.lt_of_not_isReplay hnot hlast
    omega
  · simp [hret] at hc

theorem History.step {hist : List (Mealy.Transition Upgrading (Event κ) Outcome)} {s : Upgrading}
    (h : History P u hist s) (e : Event κ) :
    History P u (hist ++ [Mealy.transition (step P u) s e]) (step P u s e).2 :=
  ⟨h.stored_step P u e, h.received_step P u e, fun hmode => h.checked_step P u e hmode⟩

/-! ### Accepted upgrades -/

theorem upgradeInbound_authenticated {s₀ : Upgrading} (hidle : ∀ c, s₀.handshakes c = .idle)
    {events : List (Event κ)} {before after : List (Mealy.Transition Upgrading (Event κ) Outcome)}
    {t : Mealy.Transition Upgrading (Event κ) Outcome}
    (hrun : Mealy.trace (step P u) s₀ events = before ++ t :: after)
    {session : NoiseSession} {remotePeerId : PeerId} {role : PeerRole}
    (hok : t.output = some (.ok (session, remotePeerId, role))) :
    ∃ c e written a, t.input = .respond c e written ∧ a.remotePeerId = remotePeerId ∧ a.peerRole = role ∧
      Received P u before c a ∧ (u.authMode = .Mutual → Checked u before c a) := by
  have hhist : History P u before t.pre :=
    Mealy.history_inv (step P u) (history_nil P u hidle) (fun _ _ e h => h.step P u e) hrun
  have hmem : t ∈ Mealy.trace (step P u) s₀ events := by
    rw [hrun]
    simp
  obtain ⟨-, -, hout⟩ := Mealy.reachable_of_mem_trace (step P u) hmem
  rw [hok] at hout
  obtain ⟨c, e, written, a, hin, hs, hresp⟩ := timestamped_of_step_eq_ok P u hout.symm
  obtain ⟨hpeer, hrole⟩ := respond_eq_ok P hresp
  exact ⟨c, e, written, a, hin, hpeer.symm, hrole.symm, hhist.received c a (.inr hs),
    fun hmode => hhist.checked hmode c a hs⟩

/-- An upgrader in `Mutual` mode with peer id 1, over `plainPrimitives`. -/
def plainUpgrader : NoiseUpgrader Unit := ⟨⟨1⟩, ⟨()⟩, .Mutual⟩

/-- No upgrade started, no timestamp stored, and peer 2 trusted as a validator
with the one key of `plainPrimitives`. -/
def plainUpgrading : Upgrading :=
  ⟨(∅ : PeerSet).insert ⟨2⟩ ⟨[plainPrimitives.x25519.pub ()], .Validator⟩, ⟨∅⟩, fun _ => .idle⟩

/-- The client message of peer 2 with timestamp 5: its peer id, our key, and
the first Noise message as `plainPrimitives` encrypt it. -/
def plainClientBytes : List UInt8 :=
  List.replicate 15 0 ++ [2] ++ List.replicate 32 0 ++ List.replicate 32 0 ++ List.replicate 48 0 ++
    ([5, 0, 0, 0, 0, 0, 0, 0] ++ List.replicate 16 0)

/-- Connection 0 receives the message, passes its anti-replay block and answers. -/
def plainEvents : List (Event Unit) := [.receive 0 plainClientBytes, .checkTimestamp 0, .respond 0 () true]

set_option maxRecDepth 8000 in
theorem upgradeInbound_authenticated_plain :
    ∃ c e written a, Event.respond 0 () true = .respond c e written ∧ a.remotePeerId = ⟨2⟩ ∧
      a.peerRole = .Validator ∧
      Received plainPrimitives plainUpgrader
        ((Mealy.trace (step plainPrimitives plainUpgrader) plainUpgrading plainEvents).take 2) c a ∧
      (plainUpgrader.authMode = .Mutual →
        Checked plainUpgrader ((Mealy.trace (step plainPrimitives plainUpgrader) plainUpgrading plainEvents).take 2) c a) := by
  have hidle : ∀ c, plainUpgrading.handshakes c = .idle := fun _ => rfl
  have hrun : Mealy.trace (step plainPrimitives plainUpgrader) plainUpgrading plainEvents =
      (Mealy.trace (step plainPrimitives plainUpgrader) plainUpgrading plainEvents).take 2 ++
        [Mealy.transition (step plainPrimitives plainUpgrader)
          (step plainPrimitives plainUpgrader
            (step plainPrimitives plainUpgrader plainUpgrading (.receive 0 plainClientBytes)).2 (.checkTimestamp 0)).2
          (.respond 0 () true)] := rfl
  have hok : (Mealy.transition (step plainPrimitives plainUpgrader)
      (step plainPrimitives plainUpgrader
        (step plainPrimitives plainUpgrader plainUpgrading (.receive 0 plainClientBytes)).2 (.checkTimestamp 0)).2
      (.respond 0 () true)).output =
      some (.ok (NoiseSession.new (List.replicate 32 0) (List.replicate 32 0) (plainPrimitives.x25519.pub ()),
        ⟨2⟩, .Validator)) := rfl
  exact upgradeInbound_authenticated plainPrimitives plainUpgrader hidle hrun hok

end Network

end Diem
